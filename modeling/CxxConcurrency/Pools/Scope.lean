/-
# A scope that fills a `ThreadPool`

`lockfree/counter.cpp`, `stdthread/thread_pool.cpp` and the mode `thread-pool` of
`async/future_perf.cpp` construct a `ThreadPool`, call `do_work` for each of `n` works in turn and
leave the scope, which runs `~ThreadPool`.  A work may change what all works share: its change is
`effect`, one atomic step of its thread before the thread ends.

When the scope has been left every work has had its effect once, in some order
(`Inv.of_destroyed`).  Every step takes from what is left (`left_step`), and if `max_size` is not 0
the scope is left in the end: the owner can wait only for the thread at the front, and that thread
has its effect or its end still to come (`exists_step`).
-/
import CxxConcurrency.Pools.EmptyFront
import Mathlib.Data.Finset.Card
import Mathlib.Data.Finset.Range
import Mathlib.Data.List.Perm.Subperm

namespace CxxConcurrency.Pools

open CxxConcurrency.Lib

/-! ## 1. The scope -/

/-- The scope, and what its works share. -/
structure PoolScope (σ : Type*) where
  tp : ThreadPool
  data : σ
  /-- The works that have had their effect, in order. -/
  ran : List ℕ
  /-- How many works `do_work` has yet to be called for. -/
  todo : ℕ

namespace PoolScope

variable {σ : Type*} {m n : ℕ} {effect : ℕ → σ → σ} {d₀ : σ}

/-- The scope has been entered, with `n` works ahead. -/
def init (n : ℕ) (d₀ : σ) : PoolScope σ := ⟨ThreadPool.init, d₀, [], n⟩

/-- The label of a step. -/
inductive Act
  /-- A step of the pool, its owner or the end of a thread. -/
  | pool (a : ThreadPool.Act)
  /-- The thread of work `k` has its effect. -/
  | run (k : ℕ)

/-- The steps of the pool that the scope admits: the owner calls `do_work` while there is work
ahead and then leaves the scope, and a thread ends after its effect. -/
def admits (s : PoolScope σ) : ThreadPool.Act → Bool
  | .doWork => 0 < s.todo
  | .join => false
  | .destroy => s.todo = 0
  | .finish k => k ∈ s.ran
  | _ => true

/-- How many works a step of the pool submits. -/
def submits : ThreadPool.Act → ℕ
  | .doWork => 1
  | _ => 0

/-- One step, of a pool with `max_size = m`. -/
def step (m : ℕ) (effect : ℕ → σ → σ) (s : PoolScope σ) : Act → Option (PoolScope σ)
  | .pool a =>
    if s.admits a then
      (s.tp.step m a).map fun tp => { s with tp := tp, todo := s.todo - submits a }
    else none
  | .run k =>
    if k ∈ s.tp.handles.started ∧ k ∉ s.ran then
      some { s with data := effect k s.data, ran := s.ran ++ [k] }
    else none

/-- The cases of a step. -/
inductive StepCase (m : ℕ) (effect : ℕ → σ → σ) (s : PoolScope σ) : Act → PoolScope σ → Prop
  | pool {a : ThreadPool.Act} {tp : ThreadPool} (hadmits : s.admits a = true)
      (hstep : ThreadPool.StepCase m s.tp a tp) :
      StepCase m effect s (.pool a) { s with tp := tp, todo := s.todo - submits a }
  | run {k : ℕ} (hstarted : k ∈ s.tp.handles.started) (hran : k ∉ s.ran) :
      StepCase m effect s (.run k) { s with data := effect k s.data, ran := s.ran ++ [k] }

variable {s s' : PoolScope σ} {a : Act} {as : List Act}

/-- **Every step is one of the cases.** -/
theorem stepCase_of_step (h : s.step m effect a = some s') : StepCase m effect s a s' := by
  cases a with
  | pool a =>
    simp only [step] at h
    split at h
    · rename_i hadmits
      obtain ⟨tp, hstep, rfl⟩ := Option.map_eq_some_iff.mp h
      exact .pool hadmits (ThreadPool.stepCase_of_step hstep)
    · exact absurd h (by simp)
  | run k =>
    simp only [step] at h
    split at h
    · rename_i hk
      obtain rfl := Option.some.inj h
      exact .run hk.1 hk.2
    · exact absurd h (by simp)

/-! ## 2. Every work has its effect once -/

/-- What a step of the pool does to the works: it submits, starts or finishes one, or none. -/
theorem works_step {tp tp' : ThreadPool} {a : ThreadPool.Act} (h : ThreadPool.StepCase m tp a tp') :
    tp'.submitted = tp.submitted + submits a ∧
      (∀ k ∈ tp.handles.started, k ∈ tp'.handles.started) ∧
      ∀ k, (tp'.handles.outcome k).isSome → (tp.handles.outcome k).isSome ∨ a = .finish k := by
  cases h with
  | workJoin _ hwait | joinFront _ hwait =>
    obtain ⟨x, rest, -, -, -, rfl⟩ := Handles.waitFront_eq_some hwait
    exact ⟨rfl, fun _ => id, fun _ => Or.inl⟩
  | workPop _ hpop | joinPop _ hpop =>
    obtain ⟨x, rest, -, rfl⟩ := Handles.popFront_eq_some hpop
    exact ⟨rfl, fun _ => id, fun _ => Or.inl⟩
  | emplaceBack => exact ⟨rfl, fun _ => List.mem_append_left _, fun _ => Or.inl⟩
  | @finish j d hfin =>
    obtain ⟨-, -, rfl⟩ := Handles.finish_eq_some hfin
    refine ⟨rfl, fun _ => id, fun k hk => ?_⟩
    by_cases hkj : k = j
    · exact Or.inr (hkj ▸ rfl)
    · exact Or.inl (by simpa [hkj] using hk)
  | _ => exact ⟨rfl, fun _ => id, fun _ => Or.inl⟩

/-- Where the owner is once it leaves the scope. -/
def Leaving (todo : ℕ) : ThreadPool.Pc → Prop
  | .joinTest closing | .joinFront closing | .joinPop closing => closing = true ∧ todo = 0
  | .destroyed => todo = 0
  | _ => True

/-- The invariant of the scope. -/
structure Inv (m n : ℕ) (effect : ℕ → σ → σ) (d₀ : σ) (s : PoolScope σ) : Prop where
  window : ∃ w : Window m, ThreadPool.Abs s.tp w
  guarded : Front.Guarded m s.tp.front
  leaving : Leaving s.todo s.tp.pc
  submitted : s.tp.submitted + s.todo = n
  started : ∀ k ∈ s.ran, k ∈ s.tp.handles.started
  nodup : s.ran.Nodup
  finished : ∀ k, (s.tp.handles.outcome k).isSome → k ∈ s.ran
  data : s.data = s.ran.foldl (fun d k => effect k d) d₀

theorem Inv.init : Inv m n effect d₀ (PoolScope.init n d₀) where
  window := ⟨_, ThreadPool.Abs.init⟩
  guarded := Front.Guarded.init
  leaving := trivial
  submitted := Nat.zero_add n
  started k hk := absurd hk List.not_mem_nil
  nodup := List.nodup_nil
  finished k hk := absurd hk (by simp [PoolScope.init, ThreadPool.init, Handles.empty])
  data := rfl

theorem leaving_step {a : ThreadPool.Act} {tp : ThreadPool} (hadmits : s.admits a = true)
    (h : ThreadPool.StepCase m s.tp a tp) (hL : Leaving s.todo s.tp.pc) :
    Leaving (s.todo - submits a) tp.pc := by
  cases h with
  | full | room | workJoin | workPop | emplaceBack => exact trivial
  | join => exact absurd hadmits (by simp [admits])
  | destroy => exact ⟨rfl, of_decide_eq_true hadmits⟩
  | joinFront hpc | joinPop hpc | notEmpty hpc =>
    rw [hpc] at hL
    exact hL
  | joined hpc =>
    rw [hpc] at hL
    obtain ⟨rfl, htodo⟩ := hL
    exact htodo
  | finish => exact hL

/-- **Every step keeps the invariant.** -/
theorem Inv.step (h : StepCase m effect s a s') (hI : Inv m n effect d₀ s) :
    Inv m n effect d₀ s' := by
  cases h with
  | @pool a tp hadmits hstep =>
    obtain ⟨w, hA⟩ := hI.window
    obtain ⟨w', hA', -⟩ := hA.step hstep
    obtain ⟨hsubmitted, hstarted, hfinished⟩ := works_step hstep
    refine ⟨⟨w', hA'⟩, hI.guarded.step (ThreadPool.front_step hstep),
      leaving_step hadmits hstep hI.leaving, ?_, fun k hk => hstarted k (hI.started k hk),
      hI.nodup, fun k hk => ?_, hI.data⟩
    · have hsum := hI.submitted
      have hle : submits a ≤ s.todo := by
        cases a with
        | doWork => exact of_decide_eq_true hadmits
        | _ => exact Nat.zero_le _
      change tp.submitted + (s.todo - submits a) = n
      omega
    · rcases hfinished k hk with hold | rfl
      · exact hI.finished k hold
      · exact of_decide_eq_true hadmits
  | @run k hstarted hran =>
    refine ⟨hI.window, hI.guarded, hI.leaving, hI.submitted, ?_, ?_, ?_, ?_⟩
    · intro j hj
      rcases List.mem_append.mp hj with hj | hj
      · exact hI.started j hj
      · rwa [List.mem_singleton.mp hj]
    · exact List.nodup_append.mpr ⟨hI.nodup, List.nodup_singleton k, by
        rintro x hx y hy rfl
        exact hran (List.mem_singleton.mp hy ▸ hx)⟩
    · exact fun j hj => List.mem_append_left _ (hI.finished j hj)
    · change effect k s.data = (s.ran ++ [k]).foldl (fun d k => effect k d) d₀
      rw [List.foldl_append, ← hI.data]
      rfl

theorem Inv.run (h : Run (Fires (PoolScope.step m effect)) (PoolScope.init n d₀) as s) :
    Inv m n effect d₀ s :=
  h.invariant (fun _ _ _ hI hst => hI.step (stepCase_of_step hst)) Inv.init

/-- The works that have been started are the first of those submitted. -/
theorem Inv.lt_of_started (hI : Inv m n effect d₀ s) {k : ℕ}
    (hk : k ∈ s.tp.handles.started) : k < n := by
  obtain ⟨w, hA⟩ := hI.window
  have hsubmitted := hI.submitted
  have hfits := hA.fits
  rw [hA.handles.started, List.mem_range] at hk
  have hle : w.started ≤ s.tp.submitted := by
    cases hpc : s.tp.pc <;> rw [hpc] at hfits <;> simp only [ThreadPool.Pc.Fits] at hfits <;> omega
  omega

/-- **When the scope has been left every work has had its effect once.** -/
theorem Inv.of_destroyed (hI : Inv m n effect d₀ s) (hpc : s.tp.pc = .destroyed) :
    s.ran.Perm (List.range n) ∧ s.data = s.ran.foldl (fun d k => effect k d) d₀ := by
  obtain ⟨w, hA⟩ := hI.window
  obtain ⟨hstarted, hdone⟩ := hA.allDone_of_destroyed hpc
  have hleaving := hI.leaving
  rw [hpc] at hleaving
  have hsubmitted : s.tp.submitted = n := by
    have hsum := hI.submitted
    change s.todo = 0 at hleaving
    omega
  rw [hsubmitted] at hdone
  refine ⟨?_, hI.data⟩
  refine (List.perm_ext_iff_of_nodup hI.nodup List.nodup_range).mpr fun k => ?_
  rw [List.mem_range]
  exact ⟨fun hk => hI.lt_of_started (hI.started k hk), fun hk => hI.finished k (hdone k hk)⟩

/-! ## 3. The scope is left -/

/-- The steps the owner has left in the call it is in, and in the destructor: three for each
handle come on top. -/
def callLeft : ThreadPool.Pc → ℕ
  | .workJoin _ => 10
  | .workPop _ => 9
  | .workEmplace _ => 8
  | .idle => 4
  | .joinTest _ => 3
  | .joinFront _ => 2
  | .joinPop _ => 1
  | .destroyed => 0

/-- The works among the first `n` that have not finished. -/
def unfinished (n : ℕ) (tp : ThreadPool) : Finset ℕ :=
  (Finset.range n).filter fun k => tp.handles.outcome k = none

/-- The steps that are left. -/
def left (n : ℕ) (s : PoolScope σ) : ℕ :=
  7 * s.todo + 3 * s.tp.handles.pool.length + callLeft s.tp.pc + (n - s.ran.length)
    + (unfinished n s.tp).card

theorem left_init : (PoolScope.init n d₀).left n = 9 * n + 4 := by
  have hcard : (unfinished n ThreadPool.init).card = n := by
    rw [unfinished, Finset.filter_true_of_mem (p := fun k =>
      ThreadPool.init.handles.outcome k = none) fun _ _ => rfl, Finset.card_range]
  rw [left]
  change 7 * n + 3 * 0 + 4 + (n - 0) + (unfinished n ThreadPool.init).card = _
  omega

/-- A step of the owner takes from its call and its handles, and finishes no work. -/
theorem owner_step {a : ThreadPool.Act} {tp : ThreadPool} (hadmits : s.admits a = true)
    (h : ThreadPool.StepCase m s.tp a tp) (hL : Leaving s.todo s.tp.pc)
    (ha : ∀ k, a ≠ .finish k) :
    7 * (s.todo - submits a) + 3 * tp.handles.pool.length + callLeft tp.pc
        < 7 * s.todo + 3 * s.tp.handles.pool.length + callLeft s.tp.pc ∧
      tp.handles.outcome = s.tp.handles.outcome := by
  cases h with
  | full hpc _ | room hpc _ =>
    have htodo : 0 < s.todo := of_decide_eq_true hadmits
    refine ⟨?_, rfl⟩
    simp only [submits, callLeft, hpc]
    omega
  | join => exact absurd hadmits (by simp [admits])
  | destroy hpc | notEmpty hpc _ =>
    refine ⟨?_, rfl⟩
    simp only [submits, callLeft, hpc]
    omega
  | @joined closing hpc hempty =>
    rw [hpc] at hL
    obtain ⟨rfl, -⟩ := hL
    refine ⟨?_, rfl⟩
    simp only [submits, callLeft, hpc, if_true]
    omega
  | workJoin hpc hwait | joinFront hpc hwait =>
    obtain ⟨x, rest, hpool, -, -, rfl⟩ := Handles.waitFront_eq_some hwait
    refine ⟨?_, rfl⟩
    simp only [submits, callLeft, hpc, hpool, List.length_cons]
    omega
  | workPop hpc hpop | joinPop hpc hpop =>
    obtain ⟨x, rest, hpool, rfl⟩ := Handles.popFront_eq_some hpop
    refine ⟨?_, rfl⟩
    simp only [submits, callLeft, hpc, hpool, List.length_cons]
    omega
  | emplaceBack hpc =>
    refine ⟨?_, rfl⟩
    simp only [submits, callLeft, hpc, Handles.emplaceBack, List.length_append,
      List.length_singleton]
    omega
  | finish => exact absurd rfl (ha _)

/-- A work that ends is unfinished no more. -/
theorem card_unfinished_finish {tp : ThreadPool} {d : Handles} {k : ℕ} (hk : k < n)
    (hfin : tp.handles.finish k .normal = some d) :
    (unfinished n { tp with handles := d }).card < (unfinished n tp).card := by
  obtain ⟨-, hnone, rfl⟩ := Handles.finish_eq_some hfin
  refine Finset.card_lt_card (Finset.ssubset_iff_subset_ne.mpr ⟨fun j hj => ?_, fun heq => ?_⟩)
  · obtain ⟨hjn, hj⟩ := Finset.mem_filter.mp hj
    refine Finset.mem_filter.mpr ⟨hjn, ?_⟩
    by_cases hjk : j = k
    · simp [hjk] at hj
    · simpa [hjk] using hj
  · have hmem : k ∈ unfinished n tp := Finset.mem_filter.mpr ⟨Finset.mem_range.mpr hk, hnone⟩
    rw [← heq] at hmem
    simpa using (Finset.mem_filter.mp hmem).2

/-- **Every step takes from the steps that are left.** -/
theorem left_step (h : StepCase m effect s a s') (hI : Inv m n effect d₀ s) :
    s'.left n < s.left n := by
  cases h with
  | @pool a tp hadmits hstep =>
    by_cases ha : ∃ k, a = .finish k
    · obtain ⟨k, rfl⟩ := ha
      cases hstep with
      | @finish _ d hfin =>
        have hk := hI.lt_of_started (Handles.finish_eq_some hfin).1
        have hcard := card_unfinished_finish hk hfin
        obtain ⟨-, -, rfl⟩ := Handles.finish_eq_some hfin
        simp only [left, submits]
        omega
    · obtain ⟨hlt, houtcome⟩ := owner_step hadmits hstep hI.leaving fun k hk => ha ⟨k, hk⟩
      simp only [left, unfinished, houtcome]
      omega
  | @run k hstarted hran =>
    have hmem : ∀ j ∈ s.ran ++ [k], j ∈ List.range n := by
      intro j hj
      refine List.mem_range.mpr (hI.lt_of_started ?_)
      rcases List.mem_append.mp hj with hj | hj
      · exact hI.started j hj
      · rwa [List.mem_singleton.mp hj]
    have hnodup : (s.ran ++ [k]).Nodup := by
      have hdisj : List.Disjoint s.ran [k] := by
        intro j hj hjk
        exact hran (List.mem_singleton.mp hjk ▸ hj)
      exact hI.nodup.append (List.nodup_singleton k) hdisj
    have hle := (hnodup.subperm hmem).length_le
    rw [List.length_range, List.length_append, List.length_singleton] at hle
    simp only [left, List.length_append, List.length_singleton]
    omega

/-- A run of the scope has at most `9 * n + 4` steps. -/
theorem length_le (h : Run (Fires (PoolScope.step m effect)) (PoolScope.init n d₀) as s) :
    as.length ≤ 9 * n + 4 := by
  have hle := h.length_add_le (I := Inv m n effect d₀) (m := left n)
    (fun _ _ _ hI hst => hI.step (stepCase_of_step hst))
    (fun _ _ _ hI hst => left_step (stepCase_of_step hst) hI) Inv.init
  rw [left_init] at hle
  omega

/-- The step that the pool takes, the scope takes with it. -/
theorem exists_pool_step {b : ThreadPool.Act} (hadmits : s.admits b = true)
    (hstep : (s.tp.step m b).isSome = true) : ∃ a s', Fires (PoolScope.step m effect) s a s' := by
  obtain ⟨tp, htp⟩ := Option.isSome_iff_exists.mp hstep
  exact ⟨.pool b, { s with tp := tp, todo := s.todo - submits b }, by
    simp [Fires, step, hadmits, htp]⟩

/-- **Waiting for the front.**  Its thread has ended, or has its effect or its end to come. -/
theorem exists_step_of_front (hI : Inv m n effect d₀ s) (hm : 1 ≤ m) (hfront : s.tp.TakesFront) :
    ∃ a s', Fires (PoolScope.step m effect) s a s' := by
  obtain ⟨w, hA⟩ := hI.window
  have hused : s.tp.pc.used = false := by
    rcases hfront with ⟨k, hpc⟩ | ⟨closing, hpc⟩ <;> rw [hpc] <;> rfl
  have hhandles := hA.handles
  rw [hused] at hhandles
  have hpool := hhandles.pool_eq hA.fut
  have hne : s.tp.handles.pool ≠ [] :=
    hI.guarded.pool_ne_nil hm (ThreadPool.takes_iff.mpr hfront)
  obtain ⟨x, rest, hcons⟩ := List.exists_cons_of_ne_nil hne
  rw [hcons] at hpool
  obtain ⟨k, jobs, hactive, rfl, -⟩ := List.map_eq_cons_iff.mp hpool.symm
  have hstarted : k ∈ s.tp.handles.started := by
    rw [hhandles.started, w.range_started, hactive]
    exact List.mem_append_right _ List.mem_cons_self
  by_cases hran : k ∈ s.ran
  · cases houtcome : s.tp.handles.outcome k with
    | none =>
      refine exists_pool_step (b := .finish k) (decide_eq_true hran) ?_
      simp [ThreadPool.step, Handles.finish, hstarted, houtcome]
    | some o =>
      refine exists_pool_step (b := .joinFront) rfl ?_
      rcases hfront with ⟨k, hpc⟩ | ⟨closing, hpc⟩ <;>
        simp [ThreadPool.step, hpc, Handles.waitFront, hcons, houtcome]
  · exact ⟨.run k, _, by simp [Fires, step, hstarted, hran]; rfl⟩

/-- **Until the scope has been left somebody can take a step**, where `max_size` is not 0. -/
theorem exists_step (hI : Inv m n effect d₀ s) (hm : 1 ≤ m) (hpc : s.tp.pc ≠ .destroyed) :
    ∃ a s', Fires (PoolScope.step m effect) s a s' := by
  obtain ⟨w, hA⟩ := hI.window
  have hpop : s.tp.pc.used = true → s.tp.handles.pool ≠ [] := by
    intro hused hnil
    have hlen := hA.handles.length_pool hA.fut
    rw [hused, hnil, List.length_nil, Bool.toNat_true] at hlen
    omega
  cases hp : s.tp.pc with
  | idle =>
    by_cases htodo : s.todo = 0
    · exact exists_pool_step (b := .destroy) (decide_eq_true htodo) (by
        simp [ThreadPool.step, hp])
    · exact exists_pool_step (b := .doWork) (decide_eq_true (Nat.pos_of_ne_zero htodo)) (by
        simp [ThreadPool.step, hp])
  | workJoin k => exact exists_step_of_front hI hm (Or.inl ⟨k, hp⟩)
  | joinFront closing => exact exists_step_of_front hI hm (Or.inr ⟨closing, hp⟩)
  | workPop k | joinPop k =>
    obtain ⟨x, rest, hcons⟩ := List.exists_cons_of_ne_nil (hpop (by rw [hp]; rfl))
    exact exists_pool_step (b := .popFront) rfl (by
      simp [ThreadPool.step, hp, Handles.popFront, hcons])
  | workEmplace k => exact exists_pool_step (b := .emplaceBack) rfl (by simp [ThreadPool.step, hp])
  | joinTest closing =>
    refine exists_pool_step (b := .test) rfl ?_
    simp only [ThreadPool.step, hp]
    split <;> rfl
  | destroyed => exact absurd hp hpc

/-- Where no step is possible the scope has been left. -/
theorem Inv.destroyed_of_stuck (hI : Inv m n effect d₀ s) (hm : 1 ≤ m)
    (hstuck : ∀ a, s.step m effect a = none) : s.tp.pc = .destroyed := by
  by_contra hpc
  obtain ⟨a, s', hst⟩ := exists_step hI hm hpc
  rw [Fires, hstuck a] at hst
  exact absurd hst (by simp)

/-- **The scope is left, and each work has had its effect once.**  Where `max_size` is not 0 every
run is bounded and ends after `~ThreadPool`, and then the data is what the effects of the `n`
works, each once and in some order, make of it. -/
theorem scope_runs_works (hm : 1 ≤ m)
    (h : Run (Fires (PoolScope.step m effect)) (PoolScope.init n d₀) as s) :
    as.length ≤ 9 * n + 4 ∧
      ((∀ a, s.step m effect a = none) → s.tp.pc = .destroyed) ∧
      (s.tp.pc = .destroyed →
        s.ran.Perm (List.range n) ∧ s.data = s.ran.foldl (fun d k => effect k d) d₀) :=
  ⟨length_le h, (Inv.run h).destroyed_of_stuck hm, (Inv.run h).of_destroyed⟩

/-- Two works that append their numbers, of which the second comes first. -/
theorem scope_runs_works_two :
    ∃ as s, Run (Fires (PoolScope.step 2 fun k l => l ++ [k])) (PoolScope.init 2 []) as s ∧
      s.data = [1, 0] ∧ s.ran.Perm (List.range 2) := by
  obtain ⟨s, hrun, hpc, hdata⟩ := exists_run_of_exec (PoolScope.step 2 fun k l => l ++ [k])
    (PoolScope.init 2 [])
    [.pool .doWork, .pool .emplaceBack, .pool .doWork, .pool .emplaceBack, .run 1, .run 0,
      .pool (.finish 1), .pool .destroy, .pool (.finish 0), .pool .test, .pool .joinFront,
      .pool .popFront, .pool .test, .pool .joinFront, .pool .popFront, .pool .test]
    (fun s => s.tp.pc = .destroyed ∧ s.data = [1, 0]) ⟨_, rfl, rfl, rfl⟩
  exact ⟨_, s, hrun, hdata, ((scope_runs_works (by decide) hrun).2.2 hpc).1⟩

end PoolScope

end CxxConcurrency.Pools
