/-
# The `Spinlock` of `atomic/spin_lock.cpp`

Each thread repeats `lock()`, a critical section and `unlock()`.  `lock()` calls
`flag.test_and_set()` until that returns false and then prints a line; `unlock()` clears the flag
and then prints a line.  One step is one operation on the flag or one `printf`; the label of a
`test_and_set` carries the value it returned.

A `test_and_set` that fails writes the flag as well, but what it writes is what was there.  So
the flag says whether the lock has an owner, and the spinlock simulates a mutex
(`Spinlock.simulates`).
-/
import CxxConcurrency.Lib.Mutex
import CxxConcurrency.Lib.Run
import Mathlib.Logic.Function.Basic

namespace CxxConcurrency.Atomic

open CxxConcurrency.Lib

/-! ## 1. The state and the steps -/

/-- Where a thread is. -/
inductive Spinlock.Pc
  /-- About to call `test_and_set`, for the first time or again. -/
  | spin
  /-- `test_and_set` has returned false; about to print the line of `lock()`. -/
  | printLock
  /-- `lock()` has returned; `unlock()` comes next. -/
  | critical
  /-- The flag is cleared; about to print the line of `unlock()`. -/
  | printUnlock
  deriving DecidableEq

/-- A printed line. -/
inductive Spinlock.Line (ι : Type*)
  /-- `"LO %llu\n"` -/
  | lo (t : ι)
  /-- `"UN %llu\n"` -/
  | un (t : ι)

/-- A `Spinlock` and the threads that use it. -/
structure Spinlock (ι : Type*) where
  flag : Bool
  pc : ι → Spinlock.Pc
  /-- The lines printed so far. -/
  printed : List (Spinlock.Line ι)

namespace Spinlock

variable {ι : Type*}

/-- `ATOMIC_FLAG_INIT`, and no thread has called `lock()` yet. -/
def init : Spinlock ι := ⟨false, fun _ => .spin, []⟩

/-- What a thread does in a step. -/
inductive Event
  /-- `flag.test_and_set()` returns `old`. -/
  | testAndSet (old : Bool)
  /-- `printf( "LO …" )`. -/
  | printLock
  /-- `flag.clear()`. -/
  | clear
  /-- `printf( "UN …" )`. -/
  | printUnlock
  deriving DecidableEq

variable [DecidableEq ι]

/-- Thread `t` moves to `p`. -/
def setPc (s : Spinlock ι) (t : ι) (p : Pc) : Spinlock ι :=
  { s with pc := Function.update s.pc t p }

/-- One step of one thread. -/
def step (s : Spinlock ι) : ι × Event → Option (Spinlock ι)
  | (t, .testAndSet old) =>
    if s.pc t = .spin ∧ s.flag = old then
      some { s.setPc t (if old then .spin else .printLock) with flag := true }
    else none
  | (t, .printLock) =>
    if s.pc t = .printLock then
      some { s.setPc t .critical with printed := s.printed ++ [.lo t] }
    else none
  | (t, .clear) =>
    if s.pc t = .critical then some { s.setPc t .printUnlock with flag := false } else none
  | (t, .printUnlock) =>
    if s.pc t = .printUnlock then
      some { s.setPc t .spin with printed := s.printed ++ [.un t] }
    else none

/-- The cases of a step. -/
inductive StepCase (s : Spinlock ι) : ι × Event → Spinlock ι → Prop
  | testFailed {t : ι} (hpc : s.pc t = .spin) (hflag : s.flag = true) :
      StepCase s (t, .testAndSet true) { s.setPc t .spin with flag := true }
  | testOk {t : ι} (hpc : s.pc t = .spin) (hflag : s.flag = false) :
      StepCase s (t, .testAndSet false) { s.setPc t .printLock with flag := true }
  | printLock {t : ι} (hpc : s.pc t = .printLock) :
      StepCase s (t, .printLock) { s.setPc t .critical with printed := s.printed ++ [.lo t] }
  | clear {t : ι} (hpc : s.pc t = .critical) :
      StepCase s (t, .clear) { s.setPc t .printUnlock with flag := false }
  | printUnlock {t : ι} (hpc : s.pc t = .printUnlock) :
      StepCase s (t, .printUnlock) { s.setPc t .spin with printed := s.printed ++ [.un t] }

/-- **Every step is one of the cases.** -/
theorem stepCase_of_step {s s' : Spinlock ι} {a : ι × Event} (h : s.step a = some s') :
    StepCase s a s' := by
  obtain ⟨t, e⟩ := a
  cases e with
  | testAndSet old =>
    simp only [step] at h
    split at h
    · rename_i hc
      obtain rfl := Option.some.inj h
      cases old with
      | false => exact .testOk hc.1 hc.2
      | true => exact .testFailed hc.1 hc.2
    · exact absurd h (by simp)
  | printLock =>
    simp only [step] at h
    split at h
    · rename_i hpc
      obtain rfl := Option.some.inj h
      exact .printLock hpc
    · exact absurd h (by simp)
  | clear =>
    simp only [step] at h
    split at h
    · rename_i hpc
      obtain rfl := Option.some.inj h
      exact .clear hpc
    · exact absurd h (by simp)
  | printUnlock =>
    simp only [step] at h
    split at h
    · rename_i hpc
      obtain rfl := Option.some.inj h
      exact .printUnlock hpc
    · exact absurd h (by simp)

/-! ## 2. The spinlock is a mutex -/

variable {s s' : Spinlock ι} {a : ι × Event} {as : List (ι × Event)} {owner : Option ι}

/-- Whether a thread at this point has the lock. -/
def Pc.holds : Pc → Bool
  | .printLock => true
  | .critical => true
  | _ => false

omit [DecidableEq ι] in
/-- The step of the mutex that a step of the spinlock takes. -/
def op? : ι × Event → Option (MutexOp ι)
  | (t, .testAndSet false) => some (.acquire t)
  | (t, .clear) => some (.release t)
  | _ => none

/-- The spinlock is the mutex with this owner. -/
structure Abs (s : Spinlock ι) (owner : Option ι) : Prop where
  flag : s.flag = owner.isSome
  holds : ∀ t, (s.pc t).holds = true ↔ owner = some t

omit [DecidableEq ι] in
theorem Abs.init : Abs (init : Spinlock ι) none where
  flag := rfl
  holds t := by simp [Spinlock.init, Pc.holds]

/-- A step that leaves the flag and whether its thread has the lock is no step of the mutex. -/
theorem Abs.silent (hA : Abs s owner) {t : ι} {p : Pc} (hflag : s'.flag = s.flag)
    (hpc : s'.pc = Function.update s.pc t p) (hp : p.holds = (s.pc t).holds) : Abs s' owner where
  flag := hflag.trans hA.flag
  holds := by
    rw [hpc, Function.forall_update_iff s.pc fun u q => q.holds = true ↔ owner = some u, hp]
    exact ⟨hA.holds t, fun u _ => hA.holds u⟩

/-- **Each step of the spinlock is a step of the mutex, or none.** -/
theorem Abs.step (h : StepCase s a s') (hA : Abs s owner) :
    ∃ owner', Abs s' owner' ∧
      match op? a with
      | some op => MutexStep owner op owner'
      | none => owner' = owner := by
  cases h with
  | @testFailed t hpc hflag =>
    exact ⟨owner, hA.silent hflag.symm rfl (by rw [hpc]), rfl⟩
  | @testOk t hpc hflag =>
    -- a clear flag says that there is no owner
    obtain rfl : owner = none := by simpa [hA.flag] using hflag
    refine ⟨some t, ⟨rfl, ?_⟩, .acquire t⟩
    refine (Function.forall_update_iff s.pc fun u q => q.holds = true ↔ some t = some u).mpr
      ⟨by simp [Pc.holds], ?_⟩
    intro u hut
    have hu := hA.holds u
    simp only [reduceCtorEq, iff_false] at hu
    simp [hu, Ne.symm hut]
  | @printLock t hpc =>
    exact ⟨owner, hA.silent rfl rfl (by rw [hpc]; rfl), rfl⟩
  | @clear t hpc =>
    obtain rfl : owner = some t := (hA.holds t).mp (by rw [hpc]; rfl)
    refine ⟨none, ⟨rfl, ?_⟩, .release t⟩
    refine (Function.forall_update_iff s.pc fun u q => q.holds = true ↔ none = some u).mpr
      ⟨by simp [Pc.holds], ?_⟩
    intro u hut
    have hu := hA.holds u
    simp only [Option.some.injEq, Ne.symm hut, iff_false] at hu
    simp [hu]
  | @printUnlock t hpc =>
    exact ⟨owner, hA.silent rfl rfl (by rw [hpc]; rfl), rfl⟩

/-- **The spinlock simulates the mutex.** -/
theorem simulates : Simulates (Fires (step (ι := ι))) MutexStep op? Abs where
  visible hA hst hop := by
    obtain ⟨owner', hA', hstep⟩ := hA.step (stepCase_of_step hst)
    rw [hop] at hstep
    exact ⟨owner', hstep, hA'⟩
  silent hA hst hop := by
    obtain ⟨owner', hA', hstep⟩ := hA.step (stepCase_of_step hst)
    rw [hop] at hstep
    exact hstep ▸ hA'

/-! ## 3. Mutual exclusion -/

/-- In the steps `as`, a `test_and_set` of thread `t` has returned false and no `clear` by `t`
has followed. -/
def Holding (as : List (ι × Event)) (t : ι) : Prop :=
  ∃ before after, as = before ++ (t, .testAndSet false) :: after ∧ (t, .clear) ∉ after

omit [DecidableEq ι] in
theorem not_holding_nil (t : ι) : ¬ Holding [] t := by
  rintro ⟨before, after, has, -⟩
  simp at has

omit [DecidableEq ι] in
/-- What one more step does to the time between `test_and_set` and `clear`. -/
theorem holding_append_iff {t : ι} :
    Holding (as ++ [a]) t ↔ a = (t, .testAndSet false) ∨ (Holding as t ∧ a ≠ (t, .clear)) := by
  constructor
  · rintro ⟨before, after, has, hclear⟩
    rcases List.eq_nil_or_concat after with rfl | ⟨after', b, rfl⟩
    · obtain ⟨-, ha⟩ := List.append_inj' has rfl
      exact Or.inl (List.cons.inj ha).1
    · rw [List.concat_eq_append, ← List.cons_append, ← List.append_assoc] at has
      obtain ⟨has', ha⟩ := List.append_inj' has rfl
      obtain rfl : a = b := (List.cons.inj ha).1
      rw [List.concat_eq_append, List.mem_append, not_or] at hclear
      refine Or.inr ⟨⟨before, after', has', hclear.1⟩, ?_⟩
      rintro rfl
      exact hclear.2 List.mem_cons_self
  · rintro (rfl | ⟨⟨before, after, rfl, hclear⟩, ha⟩)
    · exact ⟨as, [], rfl, List.not_mem_nil⟩
    · refine ⟨before, after ++ [a], by simp, ?_⟩
      rw [List.mem_append, List.mem_singleton, not_or]
      exact ⟨hclear, Ne.symm ha⟩

/-- A thread holds the lock in the trace exactly where its position says so. -/
theorem holding_step (h : StepCase s a s') {t : ι}
    (ht : Holding as t ↔ (s.pc t).holds = true) :
    Holding (as ++ [a]) t ↔ (s'.pc t).holds = true := by
  rw [holding_append_iff, ht]
  by_cases hat : a.1 = t
  · subst hat
    cases h with
    | testFailed hpc => simp [setPc, hpc]
    | testOk hpc => simp [setPc, Pc.holds]
    | printLock hpc => simp [setPc, hpc, Pc.holds]
    | clear hpc => simp [setPc, Pc.holds]
    | printUnlock hpc => simp [setPc, hpc, Pc.holds]
  · have hpc : s'.pc t = s.pc t := by
      cases h <;> exact Function.update_of_ne (Ne.symm hat) _ _
    rw [hpc]
    obtain ⟨u, e⟩ := a
    simp [show u ≠ t from hat]

theorem holding_run (h : Run (Fires step) init as s) (t : ι) :
    Holding as t ↔ (s.pc t).holds = true := by
  refine h.trace_invariant (I := fun as s => ∀ t, Holding as t ↔ (s.pc t).holds = true) ?_ ?_ t
  · intro u
    simp [not_holding_nil, init, Pc.holds]
  · intro as s a s' _ hI hst u
    exact holding_step (stepCase_of_step hst) (hI u)

/-- **Mutual exclusion.**  In every state a run of any number of threads reaches, at most one
thread is between a `test_and_set` that returned false and its next `clear`, and the flag is set
exactly when there is one. -/
theorem spinlock_mutual_exclusion (h : Run (Fires step) (init : Spinlock ι) as s) :
    (∀ t u, Holding as t → Holding as u → t = u) ∧ (s.flag = true ↔ ∃ t, Holding as t) := by
  obtain ⟨owner, -, hA⟩ := simulates.run h Abs.init
  have howner : ∀ t, Holding as t ↔ owner = some t := by
    intro t
    rw [holding_run h t]
    exact hA.holds t
  constructor
  · intro t u ht hu
    exact Option.some.inj (((howner t).mp ht).symm.trans ((howner u).mp hu))
  · rw [hA.flag, Option.isSome_iff_exists]
    exact exists_congr fun t => (howner t).symm

/-- Thread 1 spins while thread 0 has the lock, and gets it afterwards. -/
theorem spinlock_mutual_exclusion_two_threads :
    ∃ s, Run (Fires step) (init : Spinlock (Fin 2))
        [(0, .testAndSet false), (1, .testAndSet true), (0, .printLock), (0, .clear),
          (1, .testAndSet false)] s ∧
      s.flag = true ∧ ∀ t : Fin 2, Holding [(0, .testAndSet false), (1, .testAndSet true),
        (0, .printLock), (0, .clear), (1, .testAndSet false)] t → t = 1 := by
  obtain ⟨s, hrun, hflag⟩ := exists_run_of_exec step (init : Spinlock (Fin 2))
    [(0, .testAndSet false), (1, .testAndSet true), (0, .printLock), (0, .clear),
      (1, .testAndSet false)]
    (fun s => s.flag = true) (by decide)
  obtain ⟨hone, -⟩ := spinlock_mutual_exclusion hrun
  refine ⟨s, hrun, hflag, ?_⟩
  intro t ht
  exact hone t 1 ht ⟨[(0, .testAndSet false), (1, .testAndSet true), (0, .printLock), (0, .clear)],
    [], rfl, List.not_mem_nil⟩

end Spinlock

end CxxConcurrency.Atomic
