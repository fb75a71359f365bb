/-
# `push` and `pop` of a thread that runs alone

If all other threads are paused, a thread in `push` or `pop` completes its call in a bounded number
of steps.  Its snapshot of the head may be stale when the others are paused; then its next
compare-exchange fails and refreshes it, and the one after that succeeds, because nobody else
changes the head.  So five steps are enough (`Pc.aloneLeft`).

A failure without reason can be repeated as often as one likes, and the runs here have none.  The
one end that is not a return is the read of `old_head->data` with `old_head` null.
-/
import CxxConcurrency.Lib.Run
import CxxConcurrency.Lockfree.Stack

namespace CxxConcurrency.Lockfree

open CxxConcurrency.Lib

variable {ι T : Type*} [DecidableEq ι] {s s' : Stack ι T} {t : ι} {e : ι × Event T}
  {tr : List (ι × Event T)}

/-- The thread is in a call of `push` or `pop`. -/
def Pc.inCall : Pc T → Bool
  | .idle | .size _ _ => false
  | _ => true

/-- A step of thread `t` in a call of `push` or `pop`, and no failure without reason. -/
def AloneStep (t : ι) : Stack ι T → ι × Event T → Stack ι T → Prop :=
  Restrict (fun s e => e.1 = t ∧ e.2 ≠ .failed true ∧ (s.pc t).inCall = true) Step

/-- The steps a thread takes alone until it returns: two more for a snapshot that is stale, and in
`pop` four. -/
def Stack.aloneLeft (s : Stack ι T) (t : ι) : ℕ :=
  match s.pc t with
  | .idle | .size _ _ | .popData none => 0
  | .pushLoad _ _ => 2
  | .pushCas _ a => if s.head = s.next a then 1 else 2
  | .popTest none => 1
  | .popTest (some a) => if s.head = some a then 3 else 5
  | .popCas a _ => if s.head = some a then 2 else 4
  | .popData (some _) => 1

omit [DecidableEq ι] in
theorem aloneLeft_le (s : Stack ι T) (t : ι) : s.aloneLeft t ≤ 5 := by
  unfold Stack.aloneLeft
  split
  all_goals try split
  all_goals omega

omit [DecidableEq ι] in
/-- A thread that has just read the head in `pop` has at most three steps to go. -/
theorem aloneLeft_of_popTest_head (h : s.pc t = .popTest s.head) : s.aloneLeft t ≤ 3 := by
  unfold Stack.aloneLeft
  rw [h]
  cases hh : s.head with
  | none => simp
  | some a => simp

/-- **Every step alone takes from the steps that are left.** -/
theorem aloneLeft_step (h : AloneStep t s e s') : s'.aloneLeft t < s.aloneLeft t := by
  obtain ⟨⟨rfl, hspur, hcall⟩, hst⟩ := h
  cases hst with
  | makeShared _ _ hpc | popLoad hpc | sizeLoad hpc | sizeNext hpc | sizeReturn hpc =>
    rw [hpc] at hcall
    exact absurd hcall (by simp [Pc.inCall])
  | pushLoad hpc =>
    simp [Stack.aloneLeft, hpc, Stack.setPc, Stack.setNode, Stack.next]
  | pushCasOk hpc heq => simp [Stack.aloneLeft, hpc, heq, Stack.setPc]
  | @pushCasFail t v a hpc =>
    have hstale : s.head ≠ s.next a := fun heq => hspur (by simp [heq])
    have hold : s.aloneLeft t = 2 := by simp [Stack.aloneLeft, hpc, hstale]
    rw [hold]
    simp [Stack.aloneLeft, Stack.setPc, Stack.setNode, Stack.next]
  | popTestNull hpc => simp [Stack.aloneLeft, hpc, Stack.setPc]
  | @popTestNext t a hpc =>
    by_cases heq : s.head = some a
    · simp [Stack.aloneLeft, hpc, heq, Stack.setPc]
    · simp [Stack.aloneLeft, hpc, heq, Stack.setPc]
  | popCasOk hpc heq => simp [Stack.aloneLeft, hpc, heq, Stack.setPc, Stack.setHead]
  | @popCasFail t a d hpc =>
    have hstale : s.head ≠ some a := fun heq => hspur (by simp [heq])
    have hold : s.aloneLeft t = 4 := by simp [Stack.aloneLeft, hpc, hstale]
    have hnew := aloneLeft_of_popTest_head (s := s.setPc t (.popTest s.head)) (t := t)
      (Function.update_self _ _ _)
    change (s.setPc t (.popTest s.head)).aloneLeft t < s.aloneLeft t
    omega
  | popData hpc => simp [Stack.aloneLeft, hpc, Stack.setPc]

/-- A thread that leaves its call is between two calls. -/
theorem inCall_or_idle (h : AloneStep t s e s') :
    (s'.pc t).inCall = true ∨ s'.pc t = .idle := by
  obtain ⟨⟨rfl, -, hcall⟩, hst⟩ := h
  cases hst with
  | sizeLoad hpc | sizeNext hpc | sizeReturn hpc =>
    rw [hpc] at hcall
    exact absurd hcall (by simp [Pc.inCall])
  | makeShared | pushLoad | pushCasOk | pushCasFail | popLoad | popTestNull | popTestNext
  | popCasOk | popCasFail | popData => simp [Stack.setPc, Pc.inCall]

/-- **A thread in a call can take a step**, unless it is about to read through a null pointer. -/
theorem exists_alone_step (hcall : (s.pc t).inCall = true) (hnull : s.pc t ≠ .popData none) :
    ∃ e s', AloneStep t s e s' := by
  have hstep : ∀ {a : Event T} {s'}, Step s (t, a) s' → a ≠ .failed true →
      ∃ e s', AloneStep t s e s' := fun hst ha => ⟨_, _, ⟨⟨rfl, ha, hcall⟩, hst⟩⟩
  cases hpc : s.pc t with
  | idle | size =>
    rw [hpc] at hcall
    exact absurd hcall (by simp [Pc.inCall])
  | pushLoad => exact hstep (.pushLoad hpc) (by simp)
  | pushCas v a =>
    by_cases heq : s.head = s.next a
    · exact hstep (.pushCasOk hpc heq) (by simp)
    · exact hstep (.pushCasFail hpc) (by simp [heq])
  | popTest p =>
    cases p with
    | none => exact hstep (.popTestNull hpc) (by simp)
    | some a => exact hstep (.popTestNext hpc) (by simp)
  | popCas a d =>
    by_cases heq : s.head = some a
    · exact hstep (.popCasOk hpc heq) (by simp)
    · exact hstep (.popCasFail hpc) (by simp [heq])
  | popData p =>
    cases p with
    | none => exact absurd hpc hnull
    | some a => exact hstep (.popData hpc) (by simp)

/-- **`push` and `pop` are obstruction-free.**  Whatever state the other threads are paused in, a
thread in `push` or `pop` that runs alone takes at most five steps, and where it can take no more
it has returned or is about to read through a null pointer. -/
theorem alone_returns (hcall : (s.pc t).inCall = true) (hrun : Run (AloneStep t) s tr s') :
    tr.length ≤ 5 ∧
      ((∀ e s'', ¬ AloneStep t s' e s'') → s'.pc t = .idle ∨ s'.pc t = .popData none) := by
  have hle := hrun.length_add_le (I := fun _ => True) (m := fun s => s.aloneLeft t)
    (fun _ _ _ _ _ => trivial) (fun _ _ _ _ hst => aloneLeft_step hst) trivial
  have hbound := aloneLeft_le s t
  refine ⟨by omega, fun hstuck => ?_⟩
  have hend := hrun.invariant (I := fun s => (s.pc t).inCall = true ∨ s.pc t = .idle)
    (fun _ _ _ _ hst => inCall_or_idle hst) (Or.inl hcall)
  rcases hend with hin | hidle
  · by_contra hnot
    obtain ⟨e, s'', hst⟩ := exists_alone_step hin fun hnull => hnot (Or.inr hnull)
    exact hstuck e s'' hst
  · exact Or.inl hidle

/-- Thread 0 alone, in a `pop` whose snapshot is stale: address 0 has left the stack and address 1
is its head. -/
theorem alone_returns_stale :
    ∃ (s s' : Stack (Fin 1) ℕ) (tr : List (Fin 1 × Event ℕ)), s.pc 0 = .popTest (some 0) ∧
      s.head = some 1 ∧ Run (AloneStep 0) s tr s' ∧ s'.pc 0 = .idle ∧ tr.length ≤ 5 := by
  let s : Stack (Fin 1) ℕ := ⟨fun _ => ⟨7, none⟩, some 1, fun _ => .popTest (some 0)⟩
  have hcall : ∀ {u : Stack (Fin 1) ℕ} {a : Event ℕ} {v}, Step u (0, a) v → a ≠ .failed true →
      (u.pc 0).inCall = true → AloneStep 0 u (0, a) v := fun hst ha hin => ⟨⟨rfl, ha, hin⟩, hst⟩
  have hfail := ((Run.refl : Run (AloneStep 0) s [] s).tail
    (hcall (.popTestNext rfl) (by simp) rfl)).tail
      (hcall (.popCasFail rfl) (by simp [s, Stack.setPc]) rfl)
  have hrun := ((hfail.tail (hcall (.popTestNext rfl) (by simp) rfl)).tail
    (hcall (.popCasOk rfl rfl) (by simp) rfl)).tail (hcall (.popData rfl) (by simp) rfl)
  exact ⟨s, _, _, rfl, rfl, hrun, rfl, (alone_returns rfl hrun).1⟩

end CxxConcurrency.Lockfree
