/-
# How often the compare-exchanges of the stack fail

A compare-exchange that does not fail spuriously fails because the head is not what the thread
expects: its snapshot is stale.  Loading the head and failing both refresh the snapshot, nobody
else writes it, and the head changes only where a compare-exchange succeeds, whose thread then
leaves its loop.  So the number of stale snapshots pays for the failures: a failure takes one
away, a success brings at most one for each other thread, and every other step brings none
(`Inv.stale_step`).  It does not matter whether the head has returned to an earlier node: a
snapshot counts as stale only while it differs from the head.
-/
import CxxConcurrency.Lockfree.StackSize
import Mathlib.Data.Fintype.Card

namespace CxxConcurrency.Lockfree

open CxxConcurrency.Lib

variable {ι T : Type*} {s s' s₀ : Stack ι T} {t u : ι} {e : ι × Event T}
  {tr : List (ι × Event T)}

/-! ## 1. Stale snapshots -/

/-- The head that a thread in the loop of `push` or `pop` expects. -/
def Stack.expected? (s : Stack ι T) (t : ι) : Option (Option Addr) :=
  match s.pc t with
  | .pushCas _ a => some (s.next a)
  | .popTest p => some p
  | .popCas a _ => some (some a)
  | _ => none

/-- The head is not what the thread expects. -/
def Stack.Stale (s : Stack ι T) (t : ι) : Prop := ∃ p ∈ s.expected? t, p ≠ s.head

instance (s : Stack ι T) : DecidablePred s.Stale := fun t =>
  inferInstanceAs (Decidable (∃ p ∈ s.expected? t, p ≠ s.head))

/-- The threads whose snapshot is stale. -/
def Stack.stale [Fintype ι] (s : Stack ι T) : Finset ι := Finset.univ.filter s.Stale

@[simp] theorem mem_stale [Fintype ι] : t ∈ s.stale ↔ s.Stale t := by simp [Stack.stale]

/-- A thread outside the loops has no snapshot. -/
theorem not_stale_of_none (h : s.expected? t = none) : ¬ s.Stale t := by
  rintro ⟨p, hp, -⟩
  rw [h] at hp
  exact absurd hp (by simp)

/-- The snapshot of a thread that has just read the head is not stale. -/
theorem not_stale_of_head (h : s.expected? t = some s.head) : ¬ s.Stale t := by
  rintro ⟨p, hp, hne⟩
  rw [h] at hp
  exact hne (Option.mem_some.mp hp).symm

variable [DecidableEq ι]

/-- What another thread refers to is not written. -/
theorem Inv.mem_eq_of_ne (h : Inv s) (hst : Step s e s') (hu : u ≠ e.1) {b : Addr}
    (hb : b ∈ (s.pc u).refs) : s'.mem b = s.mem b := by
  have hstore : ∀ t v a, (s.pc t = .pushLoad v a ∨ s.pc t = .pushCas v a) → u ≠ t →
      (s.storeNext a).mem b = s.mem b := by
    intro t v a hpc hut
    refine Function.update_of_ne ?_ _ _
    rintro rfl
    refine (h.unshared t b ?_).refs u hut hb
    rcases hpc with hpc | hpc <;> rw [hpc] <;> rfl
  cases hst with
  | makeShared v a hpc hfree =>
    refine Function.update_of_ne ?_ _ _
    rintro rfl
    exact hfree (live_of_mem_refs hb)
  | pushLoad hpc => exact hstore _ _ _ (Or.inl hpc) hu
  | pushCasFail hpc => exact hstore _ _ _ (Or.inr hpc) hu
  | _ => rfl

/-- **Nobody else writes a thread's snapshot.** -/
theorem Inv.expected?_of_ne (h : Inv s) (hst : Step s e s') (hu : u ≠ e.1) :
    s'.expected? u = s.expected? u := by
  unfold Stack.expected?
  rw [hst.pc_of_ne hu]
  cases hpc : s.pc u with
  | pushCas v a =>
    have ha : a ∈ (s.pc u).refs := by rw [hpc]; exact List.mem_cons_self
    exact congrArg some (congrArg Node.next (h.mem_eq_of_ne hst hu ha))
  | idle | pushLoad | popTest | popCas | popData | size => rfl

/-- A step of another thread that leaves the head makes no snapshot stale. -/
theorem Inv.stale_of_ne (h : Inv s) (hst : Step s e s') (hu : u ≠ e.1) (hhead : s'.head = s.head)
    (hs : s'.Stale u) : s.Stale u := by
  unfold Stack.Stale at hs ⊢
  rwa [h.expected?_of_ne hst hu, hhead] at hs

/-! ## 2. What a step does to the number of stale snapshots -/

/-- A compare-exchange has failed. -/
def failed : ι × Event T → Bool
  | (_, .failed _) => true
  | _ => false

/-- A compare-exchange has succeeded. -/
def succeeded : ι × Event T → Bool
  | (_, .pushed _) => true
  | (_, .popped _) => true
  | _ => false

/-- **What a step does to the snapshot of its thread.**  A success leaves the loop; a failure that
is not spurious refreshes a stale snapshot; no other step makes the snapshot stale, and only a
success changes the head. -/
theorem Step.stale_cases (hst : Step s e s') (hspur : e.2 ≠ .failed true) :
    (failed e = false ∧ succeeded e = true ∧ ¬ s'.Stale e.1) ∨
    (failed e = true ∧ succeeded e = false ∧ s'.head = s.head ∧ s.Stale e.1 ∧ ¬ s'.Stale e.1) ∨
    (failed e = false ∧ succeeded e = false ∧ s'.head = s.head ∧
      (s'.Stale e.1 → s.Stale e.1)) := by
  cases hst with
  | pushCasOk | popCasOk =>
    refine Or.inl ⟨rfl, rfl, not_stale_of_none ?_⟩
    simp [Stack.expected?, Stack.setPc]
  | @pushCasFail t v a hpc =>
    refine Or.inr (Or.inl ⟨rfl, rfl, rfl, ⟨s.next a, by simp [Stack.expected?, hpc], ?_⟩,
      not_stale_of_head ?_⟩)
    · intro heq
      exact hspur (by simp [heq])
    · simp [Stack.expected?, Stack.setPc, Stack.setNode, Stack.next]
  | @popCasFail t a d hpc =>
    refine Or.inr (Or.inl ⟨rfl, rfl, rfl, ⟨some a, by simp [Stack.expected?, hpc], ?_⟩,
      not_stale_of_head ?_⟩)
    · intro heq
      exact hspur (by simp [heq])
    · simp [Stack.expected?, Stack.setPc]
  | pushLoad hpc =>
    refine Or.inr (Or.inr ⟨rfl, rfl, rfl, fun hs => absurd hs (not_stale_of_head ?_)⟩)
    simp [Stack.expected?, Stack.setPc, Stack.setNode, Stack.next]
  | popLoad hpc =>
    refine Or.inr (Or.inr ⟨rfl, rfl, rfl, fun hs => absurd hs (not_stale_of_head ?_)⟩)
    simp [Stack.expected?, Stack.setPc]
  | @popTestNext t a hpc =>
    refine Or.inr (Or.inr ⟨rfl, rfl, rfl, ?_⟩)
    simp [Stack.Stale, Stack.expected?, hpc, Stack.setPc]
  | makeShared | popTestNull | popData | sizeLoad | sizeNext | sizeReturn =>
    refine Or.inr (Or.inr ⟨rfl, rfl, rfl, fun hs => absurd hs (not_stale_of_none ?_)⟩)
    simp [Stack.expected?, Stack.setPc]

section Count

variable [Fintype ι]

/-- A step that leaves the head, after which its thread's snapshot is stale only if it was. -/
theorem Inv.stale_le (h : Inv s) (hst : Step s e s') (hhead : s'.head = s.head)
    (ht : s'.Stale e.1 → s.Stale e.1) : s'.stale.card ≤ s.stale.card := by
  refine Finset.card_le_card ?_
  intro u hu
  rw [mem_stale] at hu ⊢
  by_cases hue : u = e.1
  · subst hue
    exact ht hu
  · exact h.stale_of_ne hst hue hhead hu

/-- A step that refreshes the stale snapshot of its thread. -/
theorem Inv.stale_lt (h : Inv s) (hst : Step s e s') (hhead : s'.head = s.head)
    (hold : s.Stale e.1) (hnew : ¬ s'.Stale e.1) : s'.stale.card < s.stale.card := by
  refine Finset.card_lt_card (Finset.ssubset_iff_of_subset ?_ |>.mpr ?_)
  · intro u hu
    rw [mem_stale] at hu ⊢
    by_cases hue : u = e.1
    · subst hue
      exact absurd hu hnew
    · exact h.stale_of_ne hst hue hhead hu
  · exact ⟨e.1, mem_stale.mpr hold, fun hmem => hnew (mem_stale.mp hmem)⟩

omit [DecidableEq ι] in
/-- Where one thread has no stale snapshot, at most the others have one. -/
theorem stale_card_le (h : ¬ s.Stale t) : s.stale.card ≤ Fintype.card ι - 1 := by
  classical
  refine (Finset.card_le_card (t := Finset.univ.erase t) ?_).trans ?_
  · intro u hu
    refine Finset.mem_erase.mpr ⟨?_, Finset.mem_univ u⟩
    rintro rfl
    exact h (mem_stale.mp hu)
  · rw [Finset.card_erase_of_mem (Finset.mem_univ t), Finset.card_univ]

/-- **A failure takes a stale snapshot away, a success brings at most one for each other thread,
and every other step brings none.** -/
theorem Inv.stale_step (h : Inv s) (hst : Step s e s') (hspur : e.2 ≠ .failed true) :
    (if failed e then 1 else 0) + s'.stale.card ≤
      s.stale.card + (Fintype.card ι - 1) * (if succeeded e then 1 else 0) := by
  rcases hst.stale_cases hspur with ⟨hf, hs, hnew⟩ | ⟨hf, hs, hhead, hold, hnew⟩ |
    ⟨hf, hs, hhead, ht⟩
  · have hle := stale_card_le hnew
    simp only [hf, hs, if_true, Bool.false_eq_true, if_false]
    omega
  · have hlt := h.stale_lt hst hhead hold hnew
    simp only [hf, hs, if_true, Bool.false_eq_true, if_false]
    omega
  · have hle := h.stale_le hst hhead ht
    simp only [hf, hs, Bool.false_eq_true, if_false]
    omega

/-! ## 3. The bound -/

/-- **A failure is paid for by another thread's success**: of `N` threads, in a run without
spurious failures, at most `N - 1` compare-exchanges fail for each one that succeeds. -/
theorem failed_le_succeeded (h₀ : s₀.Initial) (hrun : Run Step s₀ tr s)
    (hspur : ∀ t, (t, .failed true) ∉ tr) :
    tr.countP failed ≤ (Fintype.card ι - 1) * tr.countP succeeded := by
  have hrestrict := hrun.restrict (C := fun e => e.2 ≠ .failed true) (by
    rintro ⟨t, a⟩ hmem rfl
    exact hspur t hmem)
  have hstart : s₀.stale.card = 0 := by
    refine Finset.card_eq_zero.mpr (Finset.eq_empty_of_forall_notMem ?_)
    intro t ht
    refine not_stale_of_none ?_ (mem_stale.mp ht)
    simp [Stack.expected?, h₀.idle t]
  have hle := hrestrict.countP_add_le_mul (I := Inv) (m := fun s => s.stale.card)
    (p := failed) (q := succeeded) (fun _ _ _ hI hst => hI.step hst.2)
    (fun _ _ _ hI hst => hI.stale_step hst.2 hst.1) (Inv.initial h₀)
  rw [hstart] at hle
  omega

end Count

/-- Thread 0 pushes, then both threads pop; thread 0 is the first to succeed, and thread 1 fails. -/
theorem failed_le_succeeded_two_pops :
    ∃ (tr : List (Fin 2 × Event ℕ)) (s : Stack (Fin 2) ℕ),
      Run Step ⟨fun _ => ⟨0, none⟩, none, fun _ => .idle⟩ tr s ∧ tr.countP failed = 1 ∧
      tr.countP failed ≤ (Fintype.card (Fin 2) - 1) * tr.countP succeeded := by
  let s₀ : Stack (Fin 2) ℕ := ⟨fun _ => ⟨0, none⟩, none, fun _ => .idle⟩
  have h₀ : s₀.Initial := ⟨rfl, fun _ => rfl⟩
  have hpush := ((Run.refl.tail (Step.makeShared (t := (0 : Fin 2)) 7 0 rfl (h₀.not_live 0))).tail
    (Step.pushLoad (t := 0) rfl)).tail (Step.pushCasOk (t := 0) rfl rfl)
  have htest := (((hpush.tail (Step.popLoad (t := 0) rfl)).tail
    (Step.popLoad (t := 1) rfl)).tail (Step.popTestNext (t := 0) rfl)).tail
    (Step.popTestNext (t := 1) rfl)
  have hpop : Run Step s₀ [(0, .tau), (0, .tau), (0, .pushed 7), (0, .tau), (1, .tau), (0, .tau),
      (1, .tau), (0, .popped 7), (1, .failed false)] _ :=
    (htest.tail (Step.popCasOk (t := 0) rfl rfl)).tail (Step.popCasFail (t := 1) rfl)
  exact ⟨_, _, hpop, rfl, failed_le_succeeded h₀ hpop (by simp)⟩

end CxxConcurrency.Lockfree
