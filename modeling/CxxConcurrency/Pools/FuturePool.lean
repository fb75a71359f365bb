/-
# `FuturePool` of `async/future_pool.hh`

The owner calls `do_work` and finally runs the destructor; the works run on the threads that
`std::async` starts, and end when they like, by returning or by an exception.  `do_work` fetches
and removes the future at the front if the deque is full, then starts the new work and appends
its future.  `~FuturePool` fetches and removes them all.

`get()` rethrows the exception of its work.  It then leaves `do_work`, with the future used up
and still in the deque; in the destructor, which may not throw, it terminates the program.

As long as the works return, the pool simulates the same window as `ThreadPool`
(`FuturePool.simulates`).
-/
import CxxConcurrency.Lib.Run
import CxxConcurrency.Pools.Handles

namespace CxxConcurrency.Pools

open CxxConcurrency.Lib

/-! ## 1. The state and the steps -/

/-- Where the owner of the pool is. -/
inductive FuturePool.Pc
  /-- Between two calls on the pool. -/
  | idle
  /-- In `do_work` of work `k`, about to call `pool.front().get()`. -/
  | workGet (k : ℕ)
  /-- In `do_work` of work `k`, about to call `pool.pop_front()`. -/
  | workPop (k : ℕ)
  /-- In `do_work` of work `k`, about to call `std::async`. -/
  | workAsync (k : ℕ)
  /-- In `do_work` of work `k`, about to call `pool.push_back`. -/
  | workPush (k : ℕ)
  /-- In `~FuturePool`, about to test `!pool.empty()`. -/
  | drainTest
  /-- In `~FuturePool`, about to call `pool.front().get()`. -/
  | drainGet
  /-- In `~FuturePool`, about to call `pool.pop_front()`. -/
  | drainPop
  /-- `~FuturePool` has returned. -/
  | destroyed
  /-- An exception has left `~FuturePool`. -/
  | terminated
  deriving DecidableEq

/-- A `FuturePool` and its owner. -/
structure FuturePool where
  handles : Handles
  pc : FuturePool.Pc
  /-- How many calls of `do_work` have been made; the next one submits the work of this number. -/
  submitted : ℕ
  /-- The works whose exceptions have left `do_work`, in order. -/
  thrown : List ℕ

namespace FuturePool

/-- The pool just constructed. -/
def init : FuturePool := ⟨Handles.empty, .idle, 0, []⟩

/-- The label of a step. -/
inductive Act
  /-- The owner calls `do_work`, which compares `pool.size()` with `max_size`. -/
  | doWork
  /-- `~FuturePool` begins. -/
  | destroy
  /-- `pool.front().get()` returns or throws. -/
  | get
  /-- `pool.pop_front()`. -/
  | popFront
  /-- `std::async` starts the work. -/
  | async
  /-- `pool.push_back( std::move( fut ) )`. -/
  | pushBack
  /-- `~FuturePool` tests `!pool.empty()`, and returns where that is false. -/
  | test
  /-- Work `k` ends. -/
  | finish (k : ℕ) (o : Outcome)

/-- One step of a pool with `max_size = m`. -/
def step (m : ℕ) (s : FuturePool) : Act → Option FuturePool
  | .doWork =>
    match s.pc with
    | .idle =>
      some { s with
        pc := if m ≤ s.handles.pool.length then .workGet s.submitted else .workAsync s.submitted
        submitted := s.submitted + 1 }
    | _ => none
  | .destroy =>
    match s.pc with
    | .idle => some { s with pc := .drainTest }
    | _ => none
  | .get =>
    match s.pc with
    | .workGet k =>
      s.handles.waitFront.map fun
        | (.normal, d) => { s with handles := d, pc := .workPop k }
        | (.threw, d) =>
          { s with
            handles := d
            pc := .idle
            thrown := s.thrown ++ (s.handles.pool.head?.map Handle.work).toList }
    | .drainGet =>
      s.handles.waitFront.map fun
        | (.normal, d) => { s with handles := d, pc := .drainPop }
        | (.threw, d) => { s with handles := d, pc := .terminated }
    | _ => none
  | .popFront =>
    match s.pc with
    | .workPop k => s.handles.popFront.map fun d => { s with handles := d, pc := .workAsync k }
    | .drainPop => s.handles.popFront.map fun d => { s with handles := d, pc := .drainTest }
    | _ => none
  | .async =>
    match s.pc with
    | .workAsync k => some { s with handles := s.handles.async k, pc := .workPush k }
    | _ => none
  | .pushBack =>
    match s.pc with
    | .workPush _ => some { s with handles := s.handles.pushBack, pc := .idle }
    | _ => none
  | .test =>
    match s.pc with
    | .drainTest =>
      if s.handles.pool = [] then some { s with pc := .destroyed }
      else some { s with pc := .drainGet }
    | _ => none
  | .finish k o => (s.handles.finish k o).map fun d => { s with handles := d }

/-- The cases of a step. -/
inductive StepCase (m : ℕ) (s : FuturePool) : Act → FuturePool → Prop
  | full (hpc : s.pc = .idle) (hm : m ≤ s.handles.pool.length) :
      StepCase m s .doWork
        { s with pc := .workGet s.submitted, submitted := s.submitted + 1 }
  | room (hpc : s.pc = .idle) (hm : ¬ m ≤ s.handles.pool.length) :
      StepCase m s .doWork
        { s with pc := .workAsync s.submitted, submitted := s.submitted + 1 }
  | destroy (hpc : s.pc = .idle) : StepCase m s .destroy { s with pc := .drainTest }
  | workGet {k : ℕ} {d : Handles} (hpc : s.pc = .workGet k)
      (hwait : s.handles.waitFront = some (.normal, d)) :
      StepCase m s .get { s with handles := d, pc := .workPop k }
  | workThrow {k : ℕ} {d : Handles} (hpc : s.pc = .workGet k)
      (hwait : s.handles.waitFront = some (.threw, d)) :
      StepCase m s .get
        { s with
          handles := d
          pc := .idle
          thrown := s.thrown ++ (s.handles.pool.head?.map Handle.work).toList }
  | drainGet {d : Handles} (hpc : s.pc = .drainGet)
      (hwait : s.handles.waitFront = some (.normal, d)) :
      StepCase m s .get { s with handles := d, pc := .drainPop }
  | drainThrow {d : Handles} (hpc : s.pc = .drainGet)
      (hwait : s.handles.waitFront = some (.threw, d)) :
      StepCase m s .get { s with handles := d, pc := .terminated }
  | workPop {k : ℕ} {d : Handles} (hpc : s.pc = .workPop k)
      (hpop : s.handles.popFront = some d) :
      StepCase m s .popFront { s with handles := d, pc := .workAsync k }
  | drainPop {d : Handles} (hpc : s.pc = .drainPop) (hpop : s.handles.popFront = some d) :
      StepCase m s .popFront { s with handles := d, pc := .drainTest }
  | async {k : ℕ} (hpc : s.pc = .workAsync k) :
      StepCase m s .async { s with handles := s.handles.async k, pc := .workPush k }
  | pushBack {k : ℕ} (hpc : s.pc = .workPush k) :
      StepCase m s .pushBack { s with handles := s.handles.pushBack, pc := .idle }
  | drained (hpc : s.pc = .drainTest) (hempty : s.handles.pool = []) :
      StepCase m s .test { s with pc := .destroyed }
  | notEmpty (hpc : s.pc = .drainTest) (hempty : s.handles.pool ≠ []) :
      StepCase m s .test { s with pc := .drainGet }
  | finish {k : ℕ} {o : Outcome} {d : Handles} (hfin : s.handles.finish k o = some d) :
      StepCase m s (.finish k o) { s with handles := d }

/-- **Every step is one of the cases.** -/
theorem stepCase_of_step {m : ℕ} {s s' : FuturePool} {a : Act} (h : s.step m a = some s') :
    StepCase m s a s' := by
  cases a with
  | doWork =>
    simp only [step] at h
    split at h
    · rename_i hpc
      obtain rfl := Option.some.inj h
      by_cases hm : m ≤ s.handles.pool.length
      · rw [if_pos hm]
        exact .full hpc hm
      · rw [if_neg hm]
        exact .room hpc hm
    · exact absurd h (by simp)
  | destroy =>
    simp only [step] at h
    split at h
    · rename_i hpc
      obtain rfl := Option.some.inj h
      exact .destroy hpc
    · exact absurd h (by simp)
  | get =>
    simp only [step] at h
    split at h
    · rename_i k hpc
      obtain ⟨⟨o, d⟩, hwait, rfl⟩ := Option.map_eq_some_iff.mp h
      cases o with
      | normal => exact .workGet hpc hwait
      | threw => exact .workThrow hpc hwait
    · rename_i hpc
      obtain ⟨⟨o, d⟩, hwait, rfl⟩ := Option.map_eq_some_iff.mp h
      cases o with
      | normal => exact .drainGet hpc hwait
      | threw => exact .drainThrow hpc hwait
    · exact absurd h (by simp)
  | popFront =>
    simp only [step] at h
    split at h
    · rename_i k hpc
      obtain ⟨d, hpop, rfl⟩ := Option.map_eq_some_iff.mp h
      exact .workPop hpc hpop
    · rename_i hpc
      obtain ⟨d, hpop, rfl⟩ := Option.map_eq_some_iff.mp h
      exact .drainPop hpc hpop
    · exact absurd h (by simp)
  | async =>
    simp only [step] at h
    split at h
    · rename_i k hpc
      obtain rfl := Option.some.inj h
      exact .async hpc
    · exact absurd h (by simp)
  | pushBack =>
    simp only [step] at h
    split at h
    · rename_i k hpc
      obtain rfl := Option.some.inj h
      exact .pushBack hpc
    · exact absurd h (by simp)
  | test =>
    simp only [step] at h
    split at h
    · rename_i hpc
      split at h
      · rename_i hempty
        obtain rfl := Option.some.inj h
        exact .drained hpc hempty
      · rename_i hempty
        obtain rfl := Option.some.inj h
        exact .notEmpty hpc hempty
    · exact absurd h (by simp)
  | finish k o =>
    obtain ⟨d, hfin, rfl⟩ := Option.map_eq_some_iff.mp h
    exact .finish hfin

/-! ## 2. The pool is a window -/

variable {m : ℕ} {s s' : FuturePool} {a : Act} {w : Window m}

/-- Whether the handle at the front has been fetched and not yet removed. -/
def Pc.used : Pc → Bool
  | .workPop _ => true
  | .drainPop => true
  | _ => false

/-- What the owner's position says about the window, as for `ThreadPool`; `fut` is held only
between `std::async` and `push_back`, and while works return no exception leaves anything. -/
def Pc.Fits (pc : Pc) (submitted : ℕ) (fut : Option Handle) (w : Window m) : Prop :=
  match pc with
  | .workGet k => k = w.started ∧ submitted = w.started + 1 ∧ fut = none
  | .workPop k => k = w.started ∧ submitted = w.started + 1 ∧ fut = none
  | .workAsync k => k = w.started ∧ submitted = w.started + 1 ∧ fut = none ∧ w.active.length < m
  | .workPush _ => submitted = w.started
  | .destroyed => submitted = w.started ∧ fut = none ∧ w.active = []
  | .terminated => False
  | _ => submitted = w.started ∧ fut = none

/-- The pool is that of the window. -/
structure Abs (s : FuturePool) (w : Window m) : Prop where
  handles : Handles.Abs s.handles w s.pc.used
  fits : s.pc.Fits s.submitted s.handles.fut w

theorem Abs.init : Abs init (Window.empty : Window m) where
  handles := Handles.Abs.empty
  fits := ⟨rfl, rfl⟩

/-- The step of the window that a step of the pool takes. -/
def Act.op? : Act → Option Window.Op
  | .get => some .retire
  | .async => some .start
  | .finish k _ => some (.finish k)
  | _ => none

/-- The step is not the end of a work by an exception. -/
def Act.Normal (a : Act) : Prop := ∀ k, a ≠ .finish k .threw

/-- **Each step of the pool is a step of the window, or none.** -/
theorem Abs.step (h : StepCase m s a s') (ha : a.Normal) (hA : Abs s w) :
    ∃ w', Abs s' w' ∧
      match a.op? with
      | some op => Window.Step w op w'
      | none => w' = w := by
  obtain ⟨hhandles, hfits⟩ := hA
  cases h with
  | full hpc hm =>
    rw [hpc] at hhandles hfits
    obtain ⟨hsub, hfut⟩ := hfits
    exact ⟨w, ⟨hhandles, hsub, congrArg (· + 1) hsub, hfut⟩, rfl⟩
  | room hpc hm =>
    rw [hpc] at hhandles hfits
    obtain ⟨hsub, hfut⟩ := hfits
    have hlen := hhandles.length_pool hfut
    change _ = 0 + _ at hlen
    exact ⟨w, ⟨hhandles, hsub, congrArg (· + 1) hsub, hfut, by omega⟩, rfl⟩
  | destroy hpc =>
    rw [hpc] at hhandles hfits
    exact ⟨w, ⟨hhandles, hfits⟩, rfl⟩
  | workGet hpc hwait =>
    rw [hpc] at hhandles hfits
    obtain ⟨-, hfut', -, hw, hd⟩ := hhandles.waitFront hwait
    exact ⟨_, ⟨hd, hfits.1, hfits.2.1, hfut'.trans hfits.2.2⟩, .retire hw⟩
  | workThrow hpc hwait =>
    rw [hpc] at hhandles
    exact absurd (hhandles.waitFront hwait).1 (by simp)
  | drainGet hpc hwait =>
    rw [hpc] at hhandles hfits
    obtain ⟨-, hfut', -, hw, hd⟩ := hhandles.waitFront hwait
    exact ⟨_, ⟨hd, hfits.1, hfut'.trans hfits.2⟩, .retire hw⟩
  | drainThrow hpc hwait =>
    rw [hpc] at hhandles
    exact absurd (hhandles.waitFront hwait).1 (by simp)
  | workPop hpc hpop =>
    rw [hpc] at hhandles hfits
    obtain ⟨hfut', -, hroom, hd⟩ := hhandles.popFront hpop
    exact ⟨w, ⟨hd, hfits.1, hfits.2.1, hfut'.trans hfits.2.2, hroom⟩, rfl⟩
  | drainPop hpc hpop =>
    rw [hpc] at hhandles hfits
    obtain ⟨hfut', -, -, hd⟩ := hhandles.popFront hpop
    exact ⟨w, ⟨hd, hfits.1, hfut'.trans hfits.2⟩, rfl⟩
  | async hpc =>
    rw [hpc] at hhandles hfits
    obtain ⟨rfl, hsub, hfut, hroom⟩ := hfits
    obtain ⟨hw, hd⟩ := hhandles.start (s.handles.async w.started) hroom rfl rfl rfl
      (by simp [Handles.held, Handles.async, hfut])
    exact ⟨_, ⟨hd, hsub⟩, .start hw⟩
  | pushBack hpc =>
    rw [hpc] at hhandles hfits
    exact ⟨w, ⟨hhandles.pushBack, hfits, rfl⟩, rfl⟩
  | drained hpc hempty =>
    rw [hpc] at hhandles hfits
    exact ⟨w, ⟨hhandles, hfits.1, hfits.2, hhandles.active_nil hempty hfits.2⟩, rfl⟩
  | notEmpty hpc hempty =>
    rw [hpc] at hhandles hfits
    exact ⟨w, ⟨hhandles, hfits⟩, rfl⟩
  | @finish k o d hfin =>
    cases o with
    | threw => exact absurd rfl (ha k)
    | normal =>
      obtain ⟨hfut', -, -, hk, hd⟩ := hhandles.finish hfin
      refine ⟨_, ⟨hd, ?_⟩, .finish _ hk⟩
      change s.pc.Fits s.submitted d.fut (w.finish k hk)
      rw [hfut']
      exact hfits

/-- **The pool simulates the window** while works return. -/
theorem simulates (m : ℕ) :
    Simulates (Restrict (fun _ a => Act.Normal a) (Fires (step m))) (Window.Step (m := m)) Act.op?
      Abs where
  visible hA hst hop := by
    obtain ⟨w', hA', hw⟩ := hA.step (stepCase_of_step hst.2) hst.1
    rw [hop] at hw
    exact ⟨w', hw, hA'⟩
  silent hA hst hop := by
    obtain ⟨w', hA', hw⟩ := hA.step (stepCase_of_step hst.2) hst.1
    rw [hop] at hw
    exact hw ▸ hA'

/-- In every state a run reaches the pool is a window. -/
theorem Abs.run {as : List Act} (h : Run (Fires (FuturePool.step m)) FuturePool.init as s)
    (has : ∀ a ∈ as, a.Normal) : ∃ w : Window m, Abs s w := by
  obtain ⟨w, -, hA⟩ := (simulates m).run (h.restrict has) Abs.init
  exact ⟨w, hA⟩

/-- Works are started in turn. -/
theorem Abs.startsInTurn (hA : Abs s w) (ha : a.Normal) (h : StepCase m s a s') :
    Handles.StartsInTurn m s.handles s'.handles := by
  obtain ⟨w', -, hw⟩ := hA.step h ha
  obtain ⟨hhandles, hfits⟩ := hA
  refine hhandles.startsInTurn ?_
  cases h with
  | workGet hpc hwait =>
    rw [hpc] at hhandles
    exact Or.inl (hhandles.waitFront hwait).2.2.1
  | workThrow hpc hwait =>
    rw [hpc] at hhandles
    exact Or.inl (hhandles.waitFront hwait).2.2.1
  | drainGet hpc hwait =>
    rw [hpc] at hhandles
    exact Or.inl (hhandles.waitFront hwait).2.2.1
  | drainThrow hpc hwait =>
    rw [hpc] at hhandles
    exact Or.inl (hhandles.waitFront hwait).2.2.1
  | workPop hpc hpop =>
    rw [hpc] at hhandles
    exact Or.inl (hhandles.popFront hpop).2.1
  | drainPop hpc hpop =>
    rw [hpc] at hhandles
    exact Or.inl (hhandles.popFront hpop).2.1
  | async hpc =>
    rw [hpc] at hfits
    obtain ⟨rfl, -⟩ := hfits
    exact Or.inr ⟨rfl, w', hw⟩
  | @finish k o _ hfin =>
    cases o with
    | threw => exact absurd rfl (ha k)
    | normal => exact Or.inl (hhandles.finish hfin).2.2.1
  | _ => exact Or.inl rfl

/-- When `~FuturePool` has returned, every work is done. -/
theorem Abs.allDone_of_destroyed (hA : Abs s w) (hpc : s.pc = .destroyed) :
    s.handles.AllDone s.submitted := by
  obtain ⟨hhandles, hfits⟩ := hA
  rw [hpc] at hhandles hfits
  exact hfits.1 ▸ hhandles.allDone hfits.2.2

end FuturePool

end CxxConcurrency.Pools
