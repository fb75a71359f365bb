/-
# The front of the deque in `ThreadPool` and `FuturePool`

`pool.front()` is evaluated in three places.  `join()` and `~FuturePool` test `!pool.empty()`
before it.  `do_work` compares `pool.size()` with `max_size` instead, which is no test for
emptiness where `max_size` is 0; `std::thread::hardware_concurrency()`, from which `max_size` is
initialized by default, may return 0.

As far as the front is concerned the owners of the two pools take the same steps (`Front.Step`), so
what follows is said once.  The front that is taken exists wherever `max_size` is not 0
(`Front.Guarded`).  With 0 the first call of `do_work` takes the front of an empty deque, and has no
defined outcome (`Front.Stalled`).
-/
import CxxConcurrency.Pools.FutureThrow
import CxxConcurrency.Pools.ThreadPool

namespace CxxConcurrency.Pools

open CxxConcurrency.Lib

/-! ## 1. The empty deque -/

namespace Handles

variable {d : Handles}

theorem waitFront_of_nil (h : d.pool = []) : d.waitFront = none := by
  simp [Handles.waitFront, h]

theorem popFront_of_nil (h : d.pool = []) : d.popFront = none := by
  simp [Handles.popFront, h]

theorem finish_of_nil (h : d.started = []) (k : ℕ) (o : Outcome) : d.finish k o = none := by
  simp [Handles.finish, h]

end Handles

/-! ## 2. The owner and the front -/

/-- Where the owner of a pool is, as far as the front is concerned. -/
inductive Front
  /-- About to take the front in `do_work`. -/
  | work
  /-- About to take the front in the loop that empties the deque. -/
  | drain
  /-- Behind the front it has taken, or with a work to start. -/
  | busy
  /-- Anywhere else. -/
  | free

namespace Front

/-- The owner is about to evaluate `pool.front()`. -/
def takes : Front → Bool
  | .work | .drain => true
  | .busy | .free => false

/-- One step of a pool; the label says whether it is a call of `do_work`.  The front is taken where
the owner stands, so `start`, the `emplace_back`, may leave any deque behind it. -/
inductive Step (m : ℕ) (u : Front × Handles) : Bool → Front × Handles → Prop
  | full (hu : u.1 = .free) (hm : m ≤ u.2.pool.length) : Step m u true (.work, u.2)
  | room (hu : u.1 = .free) (hm : ¬ m ≤ u.2.pool.length) : Step m u true (.busy, u.2)
  | notEmpty (hu : u.1 = .free) (hempty : u.2.pool ≠ []) : Step m u false (.drain, u.2)
  | free (hu : u.1 = .free) : Step m u false (.free, u.2)
  | wait {o : Outcome} {d : Handles} {p : Front} (hwait : u.2.waitFront = some (o, d))
      (hp : p.takes = false) : Step m u false (p, d)
  | pop {d : Handles} {p : Front} (hpop : u.2.popFront = some d) (hp : p.takes = false) :
      Step m u false (p, d)
  | start {d : Handles} {p : Front} (hu : u.1 = .busy) (hp : p.takes = false) :
      Step m u false (p, d)
  | finish {k : ℕ} {o : Outcome} {d : Handles} (hfin : u.2.finish k o = some d) :
      Step m u false (u.1, d)

/-- The pool just constructed. -/
def init : Front × Handles := (.free, Handles.empty)

variable {m : ℕ} {u v : Front × Handles} {b : Bool} {bs : List Bool}

/-- What the owner has tested before it takes the front. -/
structure Guarded (m : ℕ) (u : Front × Handles) : Prop where
  work : u.1 = .work → m ≤ u.2.pool.length
  drain : u.1 = .drain → u.2.pool ≠ []

theorem Guarded.init : Guarded m init := ⟨nofun, nofun⟩

theorem Guarded.of_not_takes {p : Front} {d : Handles} (hp : p.takes = false) :
    Guarded m (p, d) := by
  cases p with
  | work | drain => exact absurd hp (by simp [takes])
  | busy | free => exact ⟨nofun, nofun⟩

/-- **Every step keeps the guard**: no work that ends changes the deque. -/
theorem Guarded.step (h : Step m u b v) (hG : Guarded m u) : Guarded m v := by
  cases h with
  | full hu hm => exact ⟨fun _ => hm, nofun⟩
  | notEmpty hu hempty => exact ⟨nofun, fun _ => hempty⟩
  | room | free => exact of_not_takes rfl
  | wait hwait hp => exact of_not_takes hp
  | pop hpop hp => exact of_not_takes hp
  | start hu hp => exact of_not_takes hp
  | finish hfin =>
    obtain ⟨-, -, rfl⟩ := Handles.finish_eq_some hfin
    exact ⟨hG.work, hG.drain⟩

theorem Guarded.run (h : Run (Step m) Front.init bs u) : Guarded m u :=
  h.invariant (fun _ _ _ hG hst => hG.step hst) Guarded.init

/-- The guard is a front, unless `max_size` is 0. -/
theorem Guarded.pool_ne_nil (hG : Guarded m u) (hm : 1 ≤ m) (ht : u.1.takes = true) :
    u.2.pool ≠ [] := by
  cases hu : u.1 with
  | work => exact List.ne_nil_of_length_pos (hm.trans (hG.work hu))
  | drain => exact hG.drain hu
  | busy | free =>
    rw [hu] at ht
    exact absurd ht (by simp [takes])

/-- With `max_size` 0 nothing is ever started, and the first call of `do_work` waits for the front
of the empty deque. -/
structure Stalled (bs : List Bool) (u : Front × Handles) : Prop where
  pool : u.2.pool = []
  started : u.2.started = []
  front : (true ∈ bs ∧ u.1 = .work) ∨ (true ∉ bs ∧ u.1 = .free)

theorem Stalled.step (h : Step 0 u b v) (hS : Stalled bs u) : Stalled (bs ++ [b]) v := by
  have hwait := Handles.waitFront_of_nil hS.pool
  have hpop := Handles.popFront_of_nil hS.pool
  have hfinish := Handles.finish_of_nil hS.started
  cases h with
  | full hu hm => exact ⟨hS.pool, hS.started, Or.inl ⟨by simp, rfl⟩⟩
  | room hu hm => exact absurd (Nat.zero_le _) hm
  | notEmpty hu hempty => exact absurd hS.pool hempty
  | free hu =>
    rcases hS.front with ⟨-, hwork⟩ | ⟨hno, -⟩
    · exact absurd (hu.symm.trans hwork) (by simp)
    · exact ⟨hS.pool, hS.started, Or.inr ⟨by simpa using hno, rfl⟩⟩
  | wait hsome => exact absurd (hwait.symm.trans hsome) (by simp)
  | pop hsome => exact absurd (hpop.symm.trans hsome) (by simp)
  | start hu =>
    rcases hS.front with ⟨-, hp⟩ | ⟨-, hp⟩ <;> exact absurd (hu.symm.trans hp) (by simp)
  | finish hsome => exact absurd ((hfinish _ _).symm.trans hsome) (by simp)

theorem Stalled.run (h : Run (Step 0) Front.init bs u) : Stalled bs u := by
  refine h.trace_invariant (I := Stalled) ⟨rfl, rfl, Or.inr ⟨List.not_mem_nil, rfl⟩⟩ ?_
  intro bs u b v _ hS hst
  exact hS.step hst

theorem Stalled.takes_iff (hS : Stalled bs u) : u.1.takes = true ↔ true ∈ bs := by
  rcases hS.front with ⟨hmem, hu⟩ | ⟨hno, hu⟩
  · exact iff_of_true (by rw [hu]; rfl) hmem
  · exact iff_of_false (by rw [hu]; simp [takes]) hno

/-- The calls of `do_work` among the steps of a pool. -/
theorem true_mem_map_iff {α : Type} {isDoWork : α → Bool} {x : α} {as : List α}
    (hx : ∀ a, isDoWork a = true ↔ a = x) : true ∈ as.map isDoWork ↔ x ∈ as := by
  simp [hx]

/-- **When the front exists**: with `max_size` 0 it is taken of the empty deque once `do_work` has
been called, and otherwise never. -/
theorem pool_ne_nil_iff (h : Run (Step m) Front.init bs u) :
    (u.1.takes = true → u.2.pool ≠ []) ↔ 1 ≤ m ∨ true ∉ bs := by
  rcases Nat.eq_zero_or_pos m with rfl | hm
  · have hS := Stalled.run h
    simp [hS.pool, hS.takes_iff]
  · exact iff_of_true ((Guarded.run h).pool_ne_nil hm) (Or.inl hm)

end Front

/-! ## 3. `ThreadPool` -/

namespace ThreadPool

variable {m : ℕ} {s s' : ThreadPool} {a : Act} {as : List Act}

/-- The owner is about to evaluate `pool.front()`. -/
def TakesFront (s : ThreadPool) : Prop :=
  (∃ k, s.pc = .workJoin k) ∨ ∃ closing, s.pc = .joinFront closing

/-- Where the owner is, as far as the front is concerned. -/
def Pc.front : Pc → Front
  | .workJoin _ => .work
  | .joinFront _ => .drain
  | .workPop _ | .workEmplace _ | .joinPop _ => .busy
  | .idle | .joinTest _ | .destroyed => .free

/-- The pool, as far as the front is concerned. -/
def front (s : ThreadPool) : Front × Handles := (s.pc.front, s.handles)

/-- The step is a call of `do_work`. -/
def Act.isDoWork : Act → Bool
  | .doWork => true
  | _ => false

theorem Act.isDoWork_iff : a.isDoWork = true ↔ a = .doWork := by
  cases a <;> simp [isDoWork]

theorem takes_iff : s.front.1.takes = true ↔ s.TakesFront := by
  rw [TakesFront, front]
  cases s.pc <;> simp [Pc.front, Front.takes]

theorem front_step (h : StepCase m s a s') : Front.Step m s.front a.isDoWork s'.front := by
  cases h with
  | full hpc hm => exact .full (congrArg Pc.front hpc) hm
  | room hpc hm => exact .room (congrArg Pc.front hpc) hm
  | join hpc | destroy hpc => exact .free (congrArg Pc.front hpc)
  | workJoin _ hwait | joinFront _ hwait => exact .wait hwait rfl
  | workPop _ hpop | joinPop _ hpop => exact .pop hpop rfl
  | emplaceBack hpc => exact .start (congrArg Pc.front hpc) rfl
  | @joined closing hpc => cases closing <;> exact .free (congrArg Pc.front hpc)
  | notEmpty hpc hempty => exact .notEmpty (congrArg Pc.front hpc) hempty
  | finish hfin => exact .finish hfin

/-- **Every run of the pool is one of an owner and a deque.** -/
theorem front_run (h : Run (Fires (ThreadPool.step m)) ThreadPool.init as s) :
    Run (Front.Step m) Front.init (as.map Act.isDoWork) s.front :=
  h.map (fun _ _ _ hst => front_step (stepCase_of_step hst))

theorem pool_ne_nil_iff (h : Run (Fires (ThreadPool.step m)) ThreadPool.init as s) :
    (s.TakesFront → s.handles.pool ≠ []) ↔ 1 ≤ m ∨ .doWork ∉ as := by
  rw [← takes_iff, ← Front.true_mem_map_iff fun _ => Act.isDoWork_iff]
  exact Front.pool_ne_nil_iff (front_run h)

end ThreadPool

/-! ## 4. `FuturePool` -/

namespace FuturePool

variable {m : ℕ} {s s' : FuturePool} {a : Act} {as : List Act}

/-- The owner is about to evaluate `pool.front()`. -/
def TakesFront (s : FuturePool) : Prop := (∃ k, s.pc = .workGet k) ∨ s.pc = .drainGet

/-- Where the owner is, as far as the front is concerned. -/
def Pc.front : Pc → Front
  | .workGet _ => .work
  | .drainGet => .drain
  | .workPop _ | .workAsync _ | .workPush _ | .drainPop => .busy
  | .idle | .drainTest | .destroyed | .terminated => .free

/-- The pool, as far as the front is concerned. -/
def front (s : FuturePool) : Front × Handles := (s.pc.front, s.handles)

/-- The step is a call of `do_work`. -/
def Act.isDoWork : Act → Bool
  | .doWork => true
  | _ => false

theorem Act.isDoWork_iff : a.isDoWork = true ↔ a = .doWork := by
  cases a <;> simp [isDoWork]

theorem takes_iff : s.front.1.takes = true ↔ s.TakesFront := by
  rw [TakesFront, front]
  cases s.pc <;> simp [Pc.front, Front.takes]

theorem front_step (h : StepCase m s a s') : Front.Step m s.front a.isDoWork s'.front := by
  cases h with
  | full hpc hm => exact .full (congrArg Pc.front hpc) hm
  | room hpc hm => exact .room (congrArg Pc.front hpc) hm
  | destroy hpc | drained hpc => exact .free (congrArg Pc.front hpc)
  | workGet _ hwait | workThrow _ hwait | drainGet _ hwait | drainThrow _ hwait =>
    exact .wait hwait rfl
  | workPop _ hpop | drainPop _ hpop => exact .pop hpop rfl
  | async hpc | pushBack hpc => exact .start (congrArg Pc.front hpc) rfl
  | notEmpty hpc hempty => exact .notEmpty (congrArg Pc.front hpc) hempty
  | finish hfin => exact .finish hfin

/-- **Every run of the pool is one of an owner and a deque**, also where works throw. -/
theorem front_run (h : Run (Fires (FuturePool.step m)) FuturePool.init as s) :
    Run (Front.Step m) Front.init (as.map Act.isDoWork) s.front :=
  h.map (fun _ _ _ hst => front_step (stepCase_of_step hst))

theorem pool_ne_nil_iff (h : Run (Fires (FuturePool.step m)) FuturePool.init as s) :
    (s.TakesFront → s.handles.pool ≠ []) ↔ 1 ≤ m ∨ .doWork ∉ as := by
  rw [← takes_iff, ← Front.true_mem_map_iff fun _ => Act.isDoWork_iff]
  exact Front.pool_ne_nil_iff (front_run h)

end FuturePool

/-! ## 5. Both pools -/

/-- **When the pools take the front of an empty deque**: where `max_size` is 0 and `do_work` has
been called, and nowhere else. -/
theorem front_exists_iff (m : ℕ) :
    (∀ as s, Run (Fires (ThreadPool.step m)) ThreadPool.init as s →
      ((s.TakesFront → s.handles.pool ≠ []) ↔ 1 ≤ m ∨ .doWork ∉ as)) ∧
    (∀ as s, Run (Fires (FuturePool.step m)) FuturePool.init as s →
      ((s.TakesFront → s.handles.pool ≠ []) ↔ 1 ≤ m ∨ .doWork ∉ as)) :=
  ⟨fun _ _ h => ThreadPool.pool_ne_nil_iff h, fun _ _ h => FuturePool.pool_ne_nil_iff h⟩

/-- A second work in a pool of one, of either class. -/
theorem front_exists_second_work :
    (∃ s, Run (Fires (ThreadPool.step 1)) ThreadPool.init [.doWork, .emplaceBack, .doWork] s ∧
      s.TakesFront ∧ s.handles.pool ≠ []) ∧
    (∃ s, Run (Fires (FuturePool.step 1)) FuturePool.init
        [.doWork, .async, .pushBack, .doWork] s ∧
      s.TakesFront ∧ s.handles.pool ≠ []) := by
  obtain ⟨hthread, hfuture⟩ := front_exists_iff 1
  constructor
  · have hrun : Run (Fires (ThreadPool.step 1)) ThreadPool.init
        [.doWork, .emplaceBack, .doWork] _ := run_of_exec rfl
    exact ⟨_, hrun, Or.inl ⟨1, rfl⟩, (hthread _ _ hrun).mpr (Or.inl le_rfl) (Or.inl ⟨1, rfl⟩)⟩
  · have hrun : Run (Fires (FuturePool.step 1)) FuturePool.init
        [.doWork, .async, .pushBack, .doWork] _ := run_of_exec rfl
    exact ⟨_, hrun, Or.inl ⟨1, rfl⟩, (hfuture _ _ hrun).mpr (Or.inl le_rfl) (Or.inl ⟨1, rfl⟩)⟩

/-- **With `max_size` 0, the first call of `do_work` takes the front of an empty deque.** -/
theorem do_work_takes_missing_front :
    ¬ ∀ m : ℕ,
      (∀ as s, Run (Fires (ThreadPool.step m)) ThreadPool.init as s →
        s.TakesFront → s.handles.pool ≠ []) ∧
      (∀ as s, Run (Fires (FuturePool.step m)) FuturePool.init as s →
        (∀ b ∈ as, b.Normal) → s.TakesFront → s.handles.pool ≠ []) := by
  intro hall
  have hrun : Run (Fires (ThreadPool.step 0)) ThreadPool.init [.doWork] _ := run_of_exec rfl
  exact (hall 0).1 _ _ hrun (Or.inl ⟨0, rfl⟩) rfl

end CxxConcurrency.Pools
