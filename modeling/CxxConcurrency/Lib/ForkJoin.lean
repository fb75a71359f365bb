/-
# A program that creates threads and joins them

The main thread creates `n` threads, one after the other, and then waits for each of them in turn.
What the threads do among themselves is a `Program`: a step relation over what they share and over
where each of them is, where `none` says that a thread has not been created.

Three rules follow for such a process, whatever the threads do.

* `ForkJoin.invariant`: what the threads keep, and the creation of a thread keeps, holds in every
  state that is reached.
* `ForkJoin.length_le`: if every step of the threads takes from a measure, the runs are bounded;
  `ForkJoin.length_le_of_move` if every step takes from what one thread has left.
* `ForkJoin.Stuck.returned_iff`: where nobody can go on all threads have been created, and the main
  thread has returned just where all of them are done.
-/
import CxxConcurrency.Lib.Parties
import CxxConcurrency.Lib.Run
import Mathlib.Data.Fintype.Card
import Mathlib.Logic.Function.Basic

namespace CxxConcurrency.Lib

variable {n : ℕ} {σ W A : Type*}

/-- Where the main thread is. -/
inductive ForkJoin.Main
  /-- In the loop that creates, at thread `i`. -/
  | creating (i : ℕ)
  /-- In the loop that joins, at thread `j`. -/
  | joining (j : ℕ)
  | returned
  deriving DecidableEq

/-- What the threads do. -/
structure ForkJoin.Program (n : ℕ) (σ W A : Type*) where
  /-- Where a thread is that has just been created. -/
  start : W
  /-- Whether a thread has returned. -/
  done : W → Bool
  step : σ → (Fin n → Option W) → A → Option (σ × (Fin n → Option W))
  /-- The threads create no thread. -/
  created : ∀ {s w a s' w'}, step s w a = some (s', w') → ∀ i, (w' i).isSome = (w i).isSome
  /-- A thread that has returned stays where it is. -/
  ended : ∀ {s w a s' w'}, step s w a = some (s', w') →
    ∀ i, (w i).any done = true → (w' i).any done = true

/-- The state of a process that creates `n` threads and joins them. -/
structure ForkJoin (n : ℕ) (σ W : Type*) where
  shared : σ
  thread : Fin n → Option W
  main : ForkJoin.Main

namespace ForkJoin

/-- The label of a step. -/
inductive Act (A : Type*)
  /-- The main thread creates a thread, or the loop is over. -/
  | create
  | thread (a : A)
  /-- The join of a thread returns, or the loop is over. -/
  | join

/-- The process whose threads share `s`. -/
def init (n : ℕ) (W : Type*) (s : σ) : ForkJoin n σ W := ⟨s, fun _ => none, .creating 0⟩

/-- One step. -/
def step (P : Program n σ W A) (s : ForkJoin n σ W) : Act A → Option (ForkJoin n σ W)
  | .create =>
    match s.main with
    | .creating i =>
      if h : i < n then
        some { s with
          thread := Function.update s.thread ⟨i, h⟩ (some P.start)
          main := .creating (i + 1) }
      else some { s with main := .joining 0 }
    | _ => none
  | .thread a =>
    (P.step s.shared s.thread a).map fun (s', w') => { s with shared := s', thread := w' }
  | .join =>
    match s.main with
    | .joining j =>
      if h : j < n then
        if (s.thread ⟨j, h⟩).any P.done then some { s with main := .joining (j + 1) } else none
      else some { s with main := .returned }
    | _ => none

variable {P : Program n σ W A}

/-- The cases of a step. -/
inductive StepCase (P : Program n σ W A) (s : ForkJoin n σ W) : Act A → ForkJoin n σ W → Prop
  | create {i : ℕ} (hmain : s.main = .creating i) (hi : i < n) :
      StepCase P s .create
        { s with
          thread := Function.update s.thread ⟨i, hi⟩ (some P.start)
          main := .creating (i + 1) }
  | created {i : ℕ} (hmain : s.main = .creating i) (hi : ¬ i < n) :
      StepCase P s .create { s with main := .joining 0 }
  | thread {a : A} {s' : σ} {w' : Fin n → Option W}
      (hstep : P.step s.shared s.thread a = some (s', w')) :
      StepCase P s (.thread a) { s with shared := s', thread := w' }
  | join {j : ℕ} (hmain : s.main = .joining j) (hj : j < n)
      (hdone : (s.thread ⟨j, hj⟩).any P.done = true) :
      StepCase P s .join { s with main := .joining (j + 1) }
  | joined {j : ℕ} (hmain : s.main = .joining j) (hj : ¬ j < n) :
      StepCase P s .join { s with main := .returned }

variable {s s' : ForkJoin n σ W} {a : Act A} {as : List (Act A)} {s₀ : σ}

/-- **Every step is one of the cases.** -/
theorem stepCase_of_step (h : s.step P a = some s') : StepCase P s a s' := by
  cases a with
  | create =>
    simp only [step] at h
    split at h
    · rename_i i hmain
      split at h
      · rename_i hi
        obtain rfl := Option.some.inj h
        exact .create hmain hi
      · rename_i hi
        obtain rfl := Option.some.inj h
        exact .created hmain hi
    · exact absurd h (by simp)
  | thread a =>
    obtain ⟨⟨s', w'⟩, hstep, rfl⟩ := Option.map_eq_some_iff.mp h
    exact .thread hstep
  | join =>
    simp only [step] at h
    split at h
    · rename_i j hmain
      split at h
      · rename_i hj
        split at h
        · rename_i hdone
          obtain rfl := Option.some.inj h
          exact .join hmain hj hdone
        · exact absurd h (by simp)
      · rename_i hj
        obtain rfl := Option.some.inj h
        exact .joined hmain hj
    · exact absurd h (by simp)

/-! ## 1. What the main thread knows -/

/-- What the main thread knows of the threads. -/
def Main.Knows (P : Program n σ W A) (thread : Fin n → Option W) : Main → Prop
  | .creating i => i ≤ n ∧ ∀ j, (thread j).isSome = true ↔ j.val < i
  | .joining j => ∀ i, (thread i).isSome = true ∧ (i.val < j → (thread i).any P.done = true)
  | .returned => ∀ i, (thread i).any P.done = true

/-- **Every step keeps what the main thread knows.** -/
theorem knows_step (h : StepCase P s a s') (hk : s.main.Knows P s.thread) :
    s'.main.Knows P s'.thread := by
  cases h with
  | @create i hmain hi =>
    rw [hmain] at hk
    refine ⟨hi, (Function.forall_update_iff s.thread fun j o => o.isSome = true ↔
      j.val < i + 1).mpr ⟨by simp, fun j hj => (hk.2 j).trans ?_⟩⟩
    have hne : j.val ≠ i := fun h => hj (Fin.ext h)
    omega
  | created hmain hi =>
    rw [hmain] at hk
    refine fun j => ⟨(hk.2 j).mpr ?_, fun hlt => absurd hlt (Nat.not_lt_zero _)⟩
    have hlt := j.isLt
    omega
  | @thread a s' w' hstep =>
    have hcreated := P.created hstep
    have hended := P.ended hstep
    change s.main.Knows P w'
    cases hmain : s.main with
    | creating i =>
      rw [hmain] at hk
      exact ⟨hk.1, fun j => by rw [hcreated j]; exact hk.2 j⟩
    | joining j =>
      rw [hmain] at hk
      exact fun i => ⟨(hcreated i).trans (hk i).1, fun hlt => hended i ((hk i).2 hlt)⟩
    | returned =>
      rw [hmain] at hk
      exact fun i => hended i (hk i)
  | @join j hmain hj hdone =>
    rw [hmain] at hk
    refine fun i => ⟨(hk i).1, fun hlt => ?_⟩
    rcases Nat.lt_succ_iff_lt_or_eq.mp hlt with hlt | heq
    · exact (hk i).2 hlt
    · obtain rfl : i = ⟨j, hj⟩ := Fin.ext heq
      exact hdone
  | @joined j hmain hj =>
    rw [hmain] at hk
    exact fun i => (hk i).2 (lt_of_lt_of_le i.isLt (not_lt.mp hj))

theorem knows_run (h : Run (Fires (ForkJoin.step P)) (init n W s₀) as s) :
    s.main.Knows P s.thread :=
  h.invariant (I := fun s => s.main.Knows P s.thread)
    (fun _ _ _ hk hst => knows_step (stepCase_of_step hst) hk)
    ⟨Nat.zero_le _, fun j => by simp [init]⟩

/-- When the main thread has returned all threads are done. -/
theorem done_of_returned (h : Run (Fires (ForkJoin.step P)) (init n W s₀) as s)
    (hmain : s.main = .returned) (i : Fin n) : (s.thread i).any P.done = true := by
  have hk := knows_run h
  rw [hmain] at hk
  exact hk i

/-! ## 2. Invariants and measures of the threads -/

/-- The thread that is created next. -/
theorem Main.Knows.next_eq_none {thread : Fin n → Option W} {i : ℕ}
    (hk : (Main.creating i).Knows P thread) (hi : i < n) : thread ⟨i, hi⟩ = none :=
  Option.not_isSome_iff_eq_none.mp fun hsome => lt_irrefl i ((hk.2 ⟨i, hi⟩).mp hsome)

section Invariant

variable {I : σ → (Fin n → Option W) → Prop}

theorem invariant_step
    (hcreate : ∀ s w i, I s w → w i = none → I s (Function.update w i (some P.start)))
    (hstep : ∀ s w a s' w', I s w → P.step s w a = some (s', w') → I s' w')
    (h : StepCase P s a s') (hk : s.main.Knows P s.thread) (hI : I s.shared s.thread) :
    I s'.shared s'.thread := by
  cases h with
  | @create i hmain hi =>
    rw [hmain] at hk
    exact hcreate _ _ _ hI (hk.next_eq_none hi)
  | thread hstep' => exact hstep _ _ _ _ _ hI hstep'
  | created | join | joined => exact hI

/-- **The invariant rule for the threads.**  What their steps keep, and the creation of a thread
keeps, holds of every state that is reached. -/
theorem invariant (h₀ : I s₀ fun _ => none)
    (hcreate : ∀ s w i, I s w → w i = none → I s (Function.update w i (some P.start)))
    (hstep : ∀ s w a s' w', I s w → P.step s w a = some (s', w') → I s' w')
    (h : Run (Fires (ForkJoin.step P)) (init n W s₀) as s) : I s.shared s.thread := by
  have hboth : s.main.Knows P s.thread ∧ I s.shared s.thread := by
    refine h.invariant (I := fun s => s.main.Knows P s.thread ∧ I s.shared s.thread) ?_
      ⟨⟨Nat.zero_le _, fun j => by simp [init]⟩, h₀⟩
    rintro s a s' ⟨hk, hI⟩ hst
    have hcase := stepCase_of_step hst
    exact ⟨knows_step hcase hk, invariant_step hcreate hstep hcase hk hI⟩
  exact hboth.2

/-- How many steps the main thread has left. -/
def Main.left (n : ℕ) : Main → ℕ
  | .creating i => n - i + 1 + (n + 1)
  | .joining j => n - j + 1
  | .returned => 0

/-- A step takes from the measure of the threads, or from that of the main thread. -/
theorem left_step {m : σ → (Fin n → Option W) → ℕ}
    (hcreate : ∀ s w i, I s w → w i = none → m s (Function.update w i (some P.start)) ≤ m s w)
    (hstep : ∀ s w a s' w', I s w → P.step s w a = some (s', w') → m s' w' < m s w)
    (h : StepCase P s a s') (hk : s.main.Knows P s.thread) (hI : I s.shared s.thread) :
    m s'.shared s'.thread + s'.main.left n < m s.shared s.thread + s.main.left n := by
  cases h with
  | @create i hmain hi =>
    rw [hmain] at hk
    have hle := hcreate s.shared s.thread ⟨i, hi⟩ hI (hk.next_eq_none hi)
    simp only [hmain, Main.left]
    omega
  | @created i hmain hi =>
    rw [hmain] at hk
    have hle := hk.1
    simp only [hmain, Main.left]
    omega
  | thread hstep' => exact Nat.add_lt_add_right (hstep _ _ _ _ _ hI hstep') _
  | @join j hmain hj hdone =>
    simp only [hmain, Main.left]
    omega
  | @joined j hmain hj =>
    simp only [hmain, Main.left]
    omega

/-- **The bound.**  If each step of the threads takes from a measure that the creation of a thread
does not raise, a run has no more steps than the measure has at its beginning and the main thread
has. -/
theorem length_le {m : σ → (Fin n → Option W) → ℕ} (h₀ : I s₀ fun _ => none)
    (hcreate : ∀ s w i, I s w → w i = none → I s (Function.update w i (some P.start)) ∧
      m s (Function.update w i (some P.start)) ≤ m s w)
    (hstep : ∀ s w a s' w', I s w → P.step s w a = some (s', w') → I s' w' ∧ m s' w' < m s w)
    (h : Run (Fires (ForkJoin.step P)) (init n W s₀) as s) :
    as.length ≤ m s₀ (fun _ => none) + (2 * n + 2) := by
  have hle := h.length_add_le (I := fun s => s.main.Knows P s.thread ∧ I s.shared s.thread)
    (m := fun s => m s.shared s.thread + s.main.left n) ?_ ?_
    ⟨⟨Nat.zero_le _, fun j => by simp [init]⟩, h₀⟩
  · change _ + (_ + _) ≤ m s₀ (fun _ => none) + (n - 0 + 1 + (n + 1)) at hle
    omega
  · rintro s a s' ⟨hk, hI⟩ hst
    have hcase := stepCase_of_step hst
    exact ⟨knows_step hcase hk, invariant_step (fun s w i hI hw => (hcreate s w i hI hw).1)
      (fun s w a s' w' hI hst => (hstep s w a s' w' hI hst).1) hcase hk hI⟩
  · rintro s a s' ⟨hk, hI⟩ hst
    exact left_step (fun s w i hI hw => (hcreate s w i hI hw).2)
      (fun s w a s' w' hI hst => (hstep s w a s' w' hI hst).2) (stepCase_of_step hst) hk hI

end Invariant

/-- **The bound, thread by thread.**  If each step of the threads moves one thread and takes from
what that thread has left, a run has no more steps than all threads and the main thread have. -/
theorem length_le_of_move {m : Option W → ℕ} (hstart : m (some P.start) = m none)
    (hmove : ∀ s w a s' w', P.step s w a = some (s', w') → ∃ i p p', w i = some p ∧
      w' = Function.update w i (some p') ∧ m (some p') < m (some p))
    (h : Run (Fires (ForkJoin.step P)) (init n W s₀) as s) :
    as.length ≤ n * m none + (2 * n + 2) := by
  have hle := length_le (I := fun _ _ => True) (m := fun _ w => ∑ i, m (w i)) trivial ?_ ?_ h
  · change as.length ≤ (∑ _i : Fin n, m none) + _ at hle
    rwa [Finset.sum_const_nat fun _ _ => rfl, Finset.card_univ, Fintype.card_fin] at hle
  · intro _ w i _ hi
    have hsum := sum_update_add w m i (some P.start)
    rw [hi, hstart] at hsum
    exact ⟨trivial, (Nat.add_right_cancel hsum).le⟩
  · intro _ w _ _ _ _ hst
    obtain ⟨i, p, p', hp, rfl, hlt⟩ := hmove _ _ _ _ _ hst
    have hsum := sum_update_add w m i (some p')
    rw [hp] at hsum
    exact ⟨trivial, by omega⟩

/-! ## 3. Where nobody can go on -/

/-- No thread can go on. -/
def Stuck (P : Program n σ W A) (s : ForkJoin n σ W) : Prop := ∀ a, s.step P a = none

/-- A process that is not stuck can go on. -/
theorem exists_step_of_not_stuck (h : ¬ Stuck P s) : ∃ a s', Fires (ForkJoin.step P) s a s' := by
  obtain ⟨a, ha⟩ := not_forall.mp h
  obtain ⟨u, hu⟩ := Option.ne_none_iff_exists'.mp ha
  exact ⟨a, u, hu⟩

/-- Bounded runs get stuck. -/
theorem exists_stuck {b : ℕ}
    (hbound : ∀ as s, Run (Fires (ForkJoin.step P)) (init n W s₀) as s → as.length ≤ b) :
    ∃ as s, Run (Fires (ForkJoin.step P)) (init n W s₀) as s ∧ Stuck P s :=
  Run.exists_final hbound fun _ _ _ hS => exists_step_of_not_stuck hS

theorem Stuck.main (hS : Stuck P s) : s.main = .returned ∨ ∃ j, s.main = .joining j := by
  cases hmain : s.main with
  | creating i =>
    have hnone := hS .create
    simp only [step, hmain] at hnone
    split at hnone <;> exact absurd hnone (by simp)
  | joining j => exact Or.inr ⟨j, rfl⟩
  | returned => exact Or.inl rfl

/-- The threads have all been created. -/
theorem Stuck.isSome (hS : Stuck P s) (hk : s.main.Knows P s.thread) (i : Fin n) :
    (s.thread i).isSome = true := by
  rcases hS.main with hmain | ⟨j, hmain⟩
  · rw [hmain] at hk
    have hdone := hk i
    cases hi : s.thread i with
    | none => simp [hi] at hdone
    | some w => rfl
  · rw [hmain] at hk
    exact (hk i).1

/-- The threads cannot go on. -/
theorem Stuck.thread (hS : Stuck P s) (a : A) : P.step s.shared s.thread a = none :=
  Option.map_eq_none_iff.mp (hS (.thread a))

/-- **Where nobody can go on the main thread has returned just where all threads are done.** -/
theorem Stuck.returned_iff (hS : Stuck P s) (hk : s.main.Knows P s.thread) :
    s.main = .returned ↔ ∀ i, (s.thread i).any P.done = true := by
  constructor
  · intro hmain
    rw [hmain] at hk
    exact hk
  · intro hall
    refine hS.main.resolve_right ?_
    rintro ⟨j, hmain⟩
    have hnone := hS .join
    simp only [step, hmain] at hnone
    split at hnone
    · rw [if_pos (hall _)] at hnone
      exact absurd hnone (by simp)
    · exact absurd hnone (by simp)

/-! ## 4. Runs that exist -/

theorem fires_of_thread {w w' : Fin n → Option W} {b : A} {s s' : σ} (main : Main)
    (h : P.step s w b = some (s', w')) :
    Fires (ForkJoin.step P) ⟨s, w, main⟩ (.thread b) ⟨s', w', main⟩ := by
  simp [Fires, step, h]

/-- The main thread can create all threads before any of them takes a step. -/
theorem exists_run_create (P : Program n σ W A) (s₀ : σ) :
    ∃ as, Run (Fires (ForkJoin.step P)) (init n W s₀) as
      ⟨s₀, fun _ => some P.start, .joining 0⟩ := by
  have hloop : ∀ i ≤ n, ∃ as, Run (Fires (ForkJoin.step P)) (init n W s₀) as
      ⟨s₀, fun j => if j.val < i then some P.start else none, .creating i⟩ := by
    intro i hi
    induction i with
    | zero => exact ⟨[], by simpa [init] using Run.refl⟩
    | succ i ih =>
      obtain ⟨as, hrun⟩ := ih (Nat.le_of_succ_le hi)
      refine ⟨as ++ [.create], hrun.tail ?_⟩
      have hthread : Function.update (fun j : Fin n => if j.val < i then some P.start else none)
          ⟨i, hi⟩ (some P.start) = fun j => if j.val < i + 1 then some P.start else none := by
        funext j
        by_cases hj : j = ⟨i, hi⟩
        · subst hj
          simp
        · have hne : j.val ≠ i := fun heq => hj (Fin.ext heq)
          have hiff : j.val < i ↔ j.val < i + 1 := by omega
          simp [Function.update_of_ne hj, hiff]
      simp only [Fires, step, dif_pos (Nat.lt_of_succ_le hi), hthread]
  obtain ⟨as, hrun⟩ := hloop n le_rfl
  have hall : (fun j : Fin n => if j.val < n then some P.start else none)
      = fun _ => some P.start := funext fun j => if_pos j.isLt
  rw [hall] at hrun
  exact ⟨as ++ [.create], hrun.tail (by simp [Fires, step])⟩

/-- The main thread can join threads that are all done. -/
theorem exists_run_join {w : Fin n → Option W} (hdone : ∀ i, (w i).any P.done = true) (s : σ) :
    ∃ as, Run (Fires (ForkJoin.step P)) ⟨s, w, .joining 0⟩ as ⟨s, w, .returned⟩ := by
  have hloop : ∀ j ≤ n, ∃ as, Run (Fires (ForkJoin.step P)) ⟨s, w, .joining 0⟩ as
      ⟨s, w, .joining j⟩ := by
    intro j hj
    induction j with
    | zero => exact ⟨[], Run.refl⟩
    | succ j ih =>
      obtain ⟨as, hrun⟩ := ih (Nat.le_of_succ_le hj)
      refine ⟨as ++ [.join], hrun.tail ?_⟩
      simp only [Fires, step, dif_pos (Nat.lt_of_succ_le hj), if_pos (hdone _)]
  obtain ⟨as, hrun⟩ := hloop n le_rfl
  exact ⟨as ++ [.join], hrun.tail (by simp [Fires, step])⟩

end ForkJoin

end CxxConcurrency.Lib
