/-
# `ThreadPool` of `stdthread/thread_pool.hh`

The owner calls `do_work` and `join` and finally runs the destructor, which is a `join`; the
works are threads that end when they like.  `do_work` joins and removes the thread at the front
if the deque is full, and then emplaces a thread for the new work.

The pool simulates a window (`ThreadPool.simulates`): a join of the front is a retirement, an
emplacement a start, the end of a thread a finish, and the owner's other steps are silent.
-/
import CxxConcurrency.Lib.Run
import CxxConcurrency.Pools.Handles

namespace CxxConcurrency.Pools

open CxxConcurrency.Lib

/-! ## 1. The state and the steps -/

/-- Where the owner of the pool is. -/
inductive ThreadPool.Pc
  /-- Between two calls on the pool. -/
  | idle
  /-- In `do_work` of work `k`, about to call `pool.front().join()`. -/
  | workJoin (k : ℕ)
  /-- In `do_work` of work `k`, about to call `pool.pop_front()`. -/
  | workPop (k : ℕ)
  /-- In `do_work` of work `k`, about to call `pool.emplace_back`. -/
  | workEmplace (k : ℕ)
  /-- In `join()`, about to test `!pool.empty()`; `closing` if `~ThreadPool` made the call. -/
  | joinTest (closing : Bool)
  /-- In `join()`, about to call `pool.front().join()`. -/
  | joinFront (closing : Bool)
  /-- In `join()`, about to call `pool.pop_front()`. -/
  | joinPop (closing : Bool)
  /-- `~ThreadPool` has returned. -/
  | destroyed
  deriving DecidableEq

/-- A `ThreadPool` and its owner. -/
structure ThreadPool where
  handles : Handles
  pc : ThreadPool.Pc
  /-- How many calls of `do_work` have been made; the next one submits the work of this number. -/
  submitted : ℕ

namespace ThreadPool

/-- The pool just constructed. -/
def init : ThreadPool := ⟨Handles.empty, .idle, 0⟩

/-- The label of a step. -/
inductive Act
  /-- The owner calls `do_work`, which compares `pool.size()` with `max_size`. -/
  | doWork
  /-- The owner calls `join()`. -/
  | join
  /-- `~ThreadPool` begins, with its call of `join()`. -/
  | destroy
  /-- `pool.front().join()` returns. -/
  | joinFront
  /-- `pool.pop_front()`. -/
  | popFront
  /-- `pool.emplace_back( … )`, which starts the thread. -/
  | emplaceBack
  /-- `join()` tests `!pool.empty()`, and returns where that is false. -/
  | test
  /-- The thread of work `k` ends. -/
  | finish (k : ℕ)

/-- One step of a pool with `max_size = m`. -/
def step (m : ℕ) (s : ThreadPool) : Act → Option ThreadPool
  | .doWork =>
    match s.pc with
    | .idle =>
      some { s with
        pc := if m ≤ s.handles.pool.length then .workJoin s.submitted else .workEmplace s.submitted
        submitted := s.submitted + 1 }
    | _ => none
  | .join =>
    match s.pc with
    | .idle => some { s with pc := .joinTest false }
    | _ => none
  | .destroy =>
    match s.pc with
    | .idle => some { s with pc := .joinTest true }
    | _ => none
  | .joinFront =>
    match s.pc with
    | .workJoin k => s.handles.waitFront.map fun (_, d) => { s with handles := d, pc := .workPop k }
    | .joinFront closing =>
      s.handles.waitFront.map fun (_, d) => { s with handles := d, pc := .joinPop closing }
    | _ => none
  | .popFront =>
    match s.pc with
    | .workPop k => s.handles.popFront.map fun d => { s with handles := d, pc := .workEmplace k }
    | .joinPop closing =>
      s.handles.popFront.map fun d => { s with handles := d, pc := .joinTest closing }
    | _ => none
  | .emplaceBack =>
    match s.pc with
    | .workEmplace k => some { s with handles := s.handles.emplaceBack k, pc := .idle }
    | _ => none
  | .test =>
    match s.pc with
    | .joinTest closing =>
      if s.handles.pool = [] then some { s with pc := if closing then .destroyed else .idle }
      else some { s with pc := .joinFront closing }
    | _ => none
  | .finish k => (s.handles.finish k .normal).map fun d => { s with handles := d }

/-- The cases of a step. -/
inductive StepCase (m : ℕ) (s : ThreadPool) : Act → ThreadPool → Prop
  | full (hpc : s.pc = .idle) (hm : m ≤ s.handles.pool.length) :
      StepCase m s .doWork
        { s with pc := .workJoin s.submitted, submitted := s.submitted + 1 }
  | room (hpc : s.pc = .idle) (hm : ¬ m ≤ s.handles.pool.length) :
      StepCase m s .doWork
        { s with pc := .workEmplace s.submitted, submitted := s.submitted + 1 }
  | join (hpc : s.pc = .idle) : StepCase m s .join { s with pc := .joinTest false }
  | destroy (hpc : s.pc = .idle) : StepCase m s .destroy { s with pc := .joinTest true }
  | workJoin {k : ℕ} {o : Outcome} {d : Handles} (hpc : s.pc = .workJoin k)
      (hwait : s.handles.waitFront = some (o, d)) :
      StepCase m s .joinFront { s with handles := d, pc := .workPop k }
  | joinFront {closing : Bool} {o : Outcome} {d : Handles} (hpc : s.pc = .joinFront closing)
      (hwait : s.handles.waitFront = some (o, d)) :
      StepCase m s .joinFront { s with handles := d, pc := .joinPop closing }
  | workPop {k : ℕ} {d : Handles} (hpc : s.pc = .workPop k)
      (hpop : s.handles.popFront = some d) :
      StepCase m s .popFront { s with handles := d, pc := .workEmplace k }
  | joinPop {closing : Bool} {d : Handles} (hpc : s.pc = .joinPop closing)
      (hpop : s.handles.popFront = some d) :
      StepCase m s .popFront { s with handles := d, pc := .joinTest closing }
  | emplaceBack {k : ℕ} (hpc : s.pc = .workEmplace k) :
      StepCase m s .emplaceBack { s with handles := s.handles.emplaceBack k, pc := .idle }
  | joined {closing : Bool} (hpc : s.pc = .joinTest closing) (hempty : s.handles.pool = []) :
      StepCase m s .test { s with pc := if closing then .destroyed else .idle }
  | notEmpty {closing : Bool} (hpc : s.pc = .joinTest closing) (hempty : s.handles.pool ≠ []) :
      StepCase m s .test { s with pc := .joinFront closing }
  | finish {k : ℕ} {d : Handles} (hfin : s.handles.finish k .normal = some d) :
      StepCase m s (.finish k) { s with handles := d }

/-- **Every step is one of the cases.** -/
theorem stepCase_of_step {m : ℕ} {s s' : ThreadPool} {a : Act} (h : s.step m a = some s') :
    StepCase m s a s' := by
  cases a with
  | doWork =>
    simp only [step] at h
    split at h
    · rename_i hpc
      obtain rfl := Option.some.inj h
      by_cases hm : m ≤ s.handles.pool.length
      · rw [if_pos hm]
        exact .full hpc hm
      · rw [if_neg hm]
        exact .room hpc hm
    · exact absurd h (by simp)
  | join =>
    simp only [step] at h
    split at h
    · rename_i hpc
      obtain rfl := Option.some.inj h
      exact .join hpc
    · exact absurd h (by simp)
  | destroy =>
    simp only [step] at h
    split at h
    · rename_i hpc
      obtain rfl := Option.some.inj h
      exact .destroy hpc
    · exact absurd h (by simp)
  | joinFront =>
    simp only [step] at h
    split at h
    · rename_i k hpc
      obtain ⟨⟨o, d⟩, hwait, rfl⟩ := Option.map_eq_some_iff.mp h
      exact .workJoin hpc hwait
    · rename_i closing hpc
      obtain ⟨⟨o, d⟩, hwait, rfl⟩ := Option.map_eq_some_iff.mp h
      exact .joinFront hpc hwait
    · exact absurd h (by simp)
  | popFront =>
    simp only [step] at h
    split at h
    · rename_i k hpc
      obtain ⟨d, hpop, rfl⟩ := Option.map_eq_some_iff.mp h
      exact .workPop hpc hpop
    · rename_i closing hpc
      obtain ⟨d, hpop, rfl⟩ := Option.map_eq_some_iff.mp h
      exact .joinPop hpc hpop
    · exact absurd h (by simp)
  | emplaceBack =>
    simp only [step] at h
    split at h
    · rename_i k hpc
      obtain rfl := Option.some.inj h
      exact .emplaceBack hpc
    · exact absurd h (by simp)
  | test =>
    simp only [step] at h
    split at h
    · rename_i closing hpc
      split at h
      · rename_i hempty
        obtain rfl := Option.some.inj h
        exact .joined hpc hempty
      · rename_i hempty
        obtain rfl := Option.some.inj h
        exact .notEmpty hpc hempty
    · exact absurd h (by simp)
  | finish k =>
    obtain ⟨d, hfin, rfl⟩ := Option.map_eq_some_iff.mp h
    exact .finish hfin

/-! ## 2. The pool is a window -/

variable {m : ℕ} {s s' : ThreadPool} {a : Act} {w : Window m}

/-- Whether the handle at the front has been joined and not yet removed. -/
def Pc.used : Pc → Bool
  | .workPop _ => true
  | .joinPop _ => true
  | _ => false

/-- What the owner's position says about the window: the work of a `do_work` on its way is the
next to be started, there is room for it before it is emplaced, and nothing is open when a
`join()` of the destructor has returned. -/
def Pc.Fits (pc : Pc) (submitted : ℕ) (w : Window m) : Prop :=
  match pc with
  | .workJoin k => k = w.started ∧ submitted = w.started + 1
  | .workPop k => k = w.started ∧ submitted = w.started + 1
  | .workEmplace k => k = w.started ∧ submitted = w.started + 1 ∧ w.active.length < m
  | .destroyed => submitted = w.started ∧ w.active = []
  | _ => submitted = w.started

/-- The pool is that of the window. -/
structure Abs (s : ThreadPool) (w : Window m) : Prop where
  handles : Handles.Abs s.handles w s.pc.used
  fut : s.handles.fut = none
  fits : s.pc.Fits s.submitted w

theorem Abs.init : Abs init (Window.empty : Window m) where
  handles := Handles.Abs.empty
  fut := rfl
  fits := rfl

/-- The step of the window that a step of the pool takes. -/
def Act.op? : Act → Option Window.Op
  | .joinFront => some .retire
  | .emplaceBack => some .start
  | .finish k => some (.finish k)
  | _ => none

/-- **Each step of the pool is a step of the window, or none.** -/
theorem Abs.step (h : StepCase m s a s') (hA : Abs s w) :
    ∃ w', Abs s' w' ∧
      match a.op? with
      | some op => Window.Step w op w'
      | none => w' = w := by
  obtain ⟨hhandles, hfut, hfits⟩ := hA
  cases h with
  | full hpc hm =>
    rw [hpc] at hhandles hfits
    have hsub : s.submitted = w.started := hfits
    exact ⟨w, ⟨hhandles, hfut, hsub, congrArg (· + 1) hsub⟩, rfl⟩
  | room hpc hm =>
    rw [hpc] at hhandles hfits
    have hlen := hhandles.length_pool hfut
    change _ = 0 + _ at hlen
    have hsub : s.submitted = w.started := hfits
    exact ⟨w, ⟨hhandles, hfut, hsub, congrArg (· + 1) hsub, by omega⟩, rfl⟩
  | join hpc =>
    rw [hpc] at hhandles hfits
    exact ⟨w, ⟨hhandles, hfut, hfits⟩, rfl⟩
  | destroy hpc =>
    rw [hpc] at hhandles hfits
    exact ⟨w, ⟨hhandles, hfut, hfits⟩, rfl⟩
  | workJoin hpc hwait =>
    rw [hpc] at hhandles hfits
    obtain ⟨-, hfut', -, hw, hd⟩ := hhandles.waitFront hwait
    exact ⟨_, ⟨hd, hfut'.trans hfut, hfits⟩, .retire hw⟩
  | joinFront hpc hwait =>
    rw [hpc] at hhandles hfits
    obtain ⟨-, hfut', -, hw, hd⟩ := hhandles.waitFront hwait
    exact ⟨_, ⟨hd, hfut'.trans hfut, hfits⟩, .retire hw⟩
  | workPop hpc hpop =>
    rw [hpc] at hhandles hfits
    obtain ⟨hfut', -, hroom, hd⟩ := hhandles.popFront hpop
    exact ⟨w, ⟨hd, hfut'.trans hfut, hfits.1, hfits.2, hroom⟩, rfl⟩
  | joinPop hpc hpop =>
    rw [hpc] at hhandles hfits
    obtain ⟨hfut', -, -, hd⟩ := hhandles.popFront hpop
    exact ⟨w, ⟨hd, hfut'.trans hfut, hfits⟩, rfl⟩
  | emplaceBack hpc =>
    rw [hpc] at hhandles hfits
    obtain ⟨rfl, hsub, hroom⟩ := hfits
    obtain ⟨hw, hd⟩ := hhandles.start (s.handles.emplaceBack w.started) hroom rfl rfl rfl
      (by simp [Handles.held, Handles.emplaceBack, hfut])
    exact ⟨_, ⟨hd, hfut, hsub⟩, .start hw⟩
  | @joined closing hpc hempty =>
    rw [hpc] at hhandles hfits
    have hnil := hhandles.active_nil hempty hfut
    cases closing with
    | true => exact ⟨w, ⟨hhandles, hfut, hfits, hnil⟩, rfl⟩
    | false => exact ⟨w, ⟨hhandles, hfut, hfits⟩, rfl⟩
  | notEmpty hpc hempty =>
    rw [hpc] at hhandles hfits
    exact ⟨w, ⟨hhandles, hfut, hfits⟩, rfl⟩
  | finish hfin =>
    obtain ⟨hfut', -, -, hk, hd⟩ := hhandles.finish hfin
    exact ⟨_, ⟨hd, hfut'.trans hfut, hfits⟩, .finish _ hk⟩

/-- **The pool simulates the window.** -/
theorem simulates (m : ℕ) :
    Simulates (Fires (step m)) (Window.Step (m := m)) Act.op? Abs where
  visible hA hst hop := by
    obtain ⟨w', hA', hw⟩ := hA.step (stepCase_of_step hst)
    rw [hop] at hw
    exact ⟨w', hw, hA'⟩
  silent hA hst hop := by
    obtain ⟨w', hA', hw⟩ := hA.step (stepCase_of_step hst)
    rw [hop] at hw
    exact hw ▸ hA'

/-- In every state a run reaches the pool is a window. -/
theorem Abs.run {as : List Act} (h : Run (Fires (ThreadPool.step m)) ThreadPool.init as s) :
    ∃ w : Window m, Abs s w := by
  obtain ⟨w, -, hA⟩ := (simulates m).run h Abs.init
  exact ⟨w, hA⟩

/-- Works are started in turn. -/
theorem Abs.startsInTurn (hA : Abs s w) (h : StepCase m s a s') :
    Handles.StartsInTurn m s.handles s'.handles := by
  obtain ⟨w', -, hw⟩ := hA.step h
  refine hA.handles.startsInTurn ?_
  cases h with
  | workJoin hpc hwait =>
    have hhandles := hA.handles
    rw [hpc] at hhandles
    exact Or.inl (hhandles.waitFront hwait).2.2.1
  | joinFront hpc hwait =>
    have hhandles := hA.handles
    rw [hpc] at hhandles
    exact Or.inl (hhandles.waitFront hwait).2.2.1
  | workPop hpc hpop =>
    have hhandles := hA.handles
    rw [hpc] at hhandles
    exact Or.inl (hhandles.popFront hpop).2.1
  | joinPop hpc hpop =>
    have hhandles := hA.handles
    rw [hpc] at hhandles
    exact Or.inl (hhandles.popFront hpop).2.1
  | emplaceBack hpc =>
    have hfits := hA.fits
    rw [hpc] at hfits
    obtain ⟨rfl, -, -⟩ := hfits
    exact Or.inr ⟨rfl, w', hw⟩
  | finish hfin => exact Or.inl (hA.handles.finish hfin).2.2.1
  | _ => exact Or.inl rfl

/-- When `join()` returns, to its caller or in the destructor, every work is done. -/
theorem Abs.allDone_of_joined (hA : Abs s w) {closing : Bool} (hpc : s.pc = .joinTest closing)
    (hempty : s.handles.pool = []) : s.handles.AllDone s.submitted := by
  obtain ⟨hhandles, hfut, hfits⟩ := hA
  rw [hpc] at hhandles hfits
  exact hfits ▸ hhandles.allDone (hhandles.active_nil hempty hfut)

theorem Abs.allDone_of_destroyed (hA : Abs s w) (hpc : s.pc = .destroyed) :
    s.handles.AllDone s.submitted := by
  obtain ⟨hhandles, -, hfits⟩ := hA
  rw [hpc] at hhandles hfits
  exact hfits.1 ▸ hhandles.allDone hfits.2

end ThreadPool

end CxxConcurrency.Pools
