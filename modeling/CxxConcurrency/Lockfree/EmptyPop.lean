/-
# `Stack::pop` and the null pointer

The loop of `pop` tests `old_head`, so it ends where `old_head` is null; the line after it reads
`old_head->data` without a test.  `old_head` becomes null exactly where the `pop` reads the head,
by its `atomic_load` or by a failed compare-exchange, while the stack is empty.  In a run without
such a read no thread ever holds a null `old_head`; after such a read the only thing the thread
can do is to read through the null pointer (`noNull_of_nonEmpty_reads`).
-/
import CxxConcurrency.Lockfree.StackSize

namespace CxxConcurrency.Lockfree

open CxxConcurrency.Lib

variable {ι T : Type*} [DecidableEq ι] {s s' s₀ : Stack ι T} {t : ι} {e : ι × Event T}
  {tr : List (ι × Event T)}

/-! ## 1. Where `pop` reads the head -/

/-- The steps in which a `pop` reads the head into `old_head`. -/
inductive PopRead : Stack ι T → ι × Event T → Stack ι T → Prop
  /-- `auto old_head = std::atomic_load(&head);` -/
  | load {s : Stack ι T} {t : ι} (hpc : s.pc t = .idle) :
      PopRead s (t, .tau) (s.setPc t (.popTest s.head))
  /-- The compare-exchange fails: `old_head` becomes the current head. -/
  | casFail {s : Stack ι T} {t : ι} {a : Addr} {d : Option Addr} (hpc : s.pc t = .popCas a d) :
      PopRead s (t, .failed (s.head == some a)) (s.setPc t (.popTest s.head))

theorem PopRead.step (h : PopRead s e s') : Step s e s' := by
  cases h with
  | load hpc => exact Step.popLoad hpc
  | casFail hpc => exact Step.popCasFail hpc

theorem PopRead.pc_eq (h : PopRead s e s') : s'.pc e.1 = .popTest s.head := by
  cases h <;> exact Function.update_self _ _ _

/-- A step in which no `pop` reads the head of an empty stack. -/
def StepNonEmpty (s : Stack ι T) (e : ι × Event T) (s' : Stack ι T) : Prop :=
  Step s e s' ∧ (PopRead s e s' → s.head ≠ none)

/-! ## 2. No such read, no null pointer -/

/-- No `pop` has a null `old_head`, at the loop test or after the loop. -/
def NoNull (s : Stack ι T) : Prop := ∀ t, s.pc t ≠ .popTest none ∧ s.pc t ≠ .popData none

/-- **A step keeps `old_head` from being null**, but for a read of a null head. -/
theorem NoNull.step (h : NoNull s) (hst : StepNonEmpty s e s') : NoNull s' := by
  obtain ⟨hst, hread⟩ := hst
  intro u
  by_cases hu : u = e.1
  · subst hu
    cases hst with
    | popLoad hpc =>
      have hhead := hread (.load hpc)
      simp [Stack.setPc, hhead]
    | popCasFail hpc =>
      have hhead := hread (.casFail hpc)
      simp [Stack.setPc, hhead]
    | popTestNull hpc => exact absurd hpc (h _).1
    | makeShared | pushLoad | pushCasOk | pushCasFail | popTestNext | popCasOk | popData
    | sizeLoad | sizeNext | sizeReturn => simp [Stack.setPc]
  · rw [hst.pc_of_ne hu]
    exact h u

theorem NoNull.run (h₀ : s₀.Initial) (hrun : Run StepNonEmpty s₀ tr s) : NoNull s := by
  refine hrun.invariant (fun _ _ _ h hst => h.step hst) ?_
  intro t
  rw [h₀.idle t]
  simp

/-! ## 3. After such a read -/

/-- A thread that takes no step stays where it is. -/
theorem pc_eq_of_stepsOf (hrun : Run Step s₀ tr s) (ht : stepsOf t tr = 0) : s.pc t = s₀.pc t := by
  induction hrun with
  | refl => rfl
  | @tail u w tr e _ hst ih =>
    rw [stepsOf_append_singleton] at ht
    have hte : t ≠ e.1 := by
      rintro rfl
      simp at ht
    rw [hst.pc_of_ne hte, ih (by omega)]

/-- The only step of a `pop` with a null `old_head` at the loop test leaves the loop. -/
theorem step_of_popTest_none (hpc : s.pc t = .popTest none) {a : Event T}
    (hst : Step s (t, a) s') : s' = s.setPc t (.popData none) := by
  cases hst with
  | popTestNull => rfl
  | makeShared _ _ hpc' | pushLoad hpc' | pushCasOk hpc' | pushCasFail hpc' | popLoad hpc'
  | popTestNext hpc' | popCasOk hpc' | popCasFail hpc' | popData hpc' | sizeLoad hpc'
  | sizeNext hpc' | sizeReturn hpc' => exact absurd (hpc.symm.trans hpc') (by simp)

/-- **When `pop` reads through a null pointer.**  In a run in which no `pop` reads the head of an
empty stack, no `pop` ever has a null `old_head`.  After such a read, whatever the other threads
do, the next step of the thread leads it to `old_head->data` with `old_head` null. -/
theorem noNull_of_nonEmpty_reads (h₀ : s₀.Initial) :
    (∀ tr s, Run StepNonEmpty s₀ tr s → NoNull s) ∧
    ∀ tr s e s', Run Step s₀ tr s → PopRead s e s' → s.head = none →
      Step s e s' ∧ ∀ tr' w, Run Step s' tr' w → stepsOf e.1 tr' = 0 →
        Step w (e.1, .tau) (w.setPc e.1 (.popData none)) ∧
          ∀ a w', Step w (e.1, a) w' → w' = w.setPc e.1 (.popData none) := by
  refine ⟨fun tr s hrun => NoNull.run h₀ hrun, ?_⟩
  intro tr s e s' _ hread hhead
  refine ⟨hread.step, ?_⟩
  intro tr' w hrun hsteps
  have hpc : w.pc e.1 = .popTest none := by
    rw [pc_eq_of_stepsOf hrun hsteps, ← hhead]
    exact hread.pc_eq
  exact ⟨Step.popTestNull hpc, fun a w' hst => step_of_popTest_none hpc hst⟩

/-- Thread 0 pushes and thread 1 pops. -/
theorem noNull_of_nonEmpty_reads_push_pop :
    ∃ (tr : List (Fin 2 × Event ℕ)) (s : Stack (Fin 2) ℕ),
      Run StepNonEmpty ⟨fun _ => ⟨0, none⟩, none, fun _ => .idle⟩ tr s ∧
      s.pc 1 = .popData (some 0) ∧ NoNull s := by
  let s₀ : Stack (Fin 2) ℕ := ⟨fun _ => ⟨0, none⟩, none, fun _ => .idle⟩
  have h₀ : s₀.Initial := ⟨rfl, fun _ => rfl⟩
  have hpush := (((Run.refl : Run StepNonEmpty s₀ [] s₀).tail
    ⟨Step.makeShared (t := (0 : Fin 2)) 7 0 rfl (h₀.not_live 0), fun h => nomatch h.pc_eq⟩).tail
    ⟨Step.pushLoad (t := 0) rfl, fun h => nomatch h.pc_eq⟩).tail
    ⟨Step.pushCasOk (t := 0) rfl rfl, fun h => nomatch h.pc_eq⟩
  have hpop := ((hpush.tail ⟨Step.popLoad (t := 1) rfl, fun _ => Option.some_ne_none 0⟩).tail
    ⟨Step.popTestNext (t := 1) rfl, fun h => nomatch h.pc_eq⟩).tail
    ⟨Step.popCasOk (t := 1) rfl rfl, fun h => nomatch h.pc_eq⟩
  exact ⟨_, _, hpop, rfl, (noNull_of_nonEmpty_reads h₀).1 _ _ hpop⟩

/-- **`pop` of an empty stack reads through a null pointer.** -/
theorem pop_of_empty_reads_null :
    ¬ ∀ (n : ℕ) (s₀ s : Stack (Fin n) ℕ) (tr : List (Fin n × Event ℕ)), s₀.Initial →
      Run Step s₀ tr s → ∀ t, s.pc t ≠ .popData none := by
  intro hall
  let s₀ : Stack (Fin 1) ℕ := ⟨fun _ => ⟨0, none⟩, none, fun _ => .idle⟩
  have hpop := (Run.refl.tail (Step.popLoad (s := s₀) (t := 0) rfl)).tail
    (Step.popTestNull (t := 0) rfl)
  exact hall 1 s₀ _ _ ⟨rfl, fun _ => rfl⟩ hpop 0 rfl

end CxxConcurrency.Lockfree
