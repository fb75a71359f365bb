/-
# `Stack::size` is a snapshot

`size` loads the head and then follows `next`, one node a step, while other threads push and pop.
A push writes the `next` of a node nobody else refers to, and `make_shared` constructs at an
address nobody refers to; so no step changes the chain ahead of the cursor (`Inv.chain_step`).
The cursor therefore walks the chain that the head started at the load: the nodes passed and the
nodes ahead are together as many as the stack had then (`Traversal`).
-/
import CxxConcurrency.Lockfree.StackInv

namespace CxxConcurrency.Lockfree

open CxxConcurrency.Lib

variable {ι T : Type*} [DecidableEq ι] {s s' s₀ : Stack ι T} {t : ι} {e : ι × Event T}
  {tr : List (ι × Event T)}

/-! ## 1. Chains that a step keeps -/

/-- **A step keeps every chain that starts at a live node, but at an unpublished one.** -/
theorem Inv.chain_step (h : Inv s) (hst : Step s e s') {p : Option Addr} {l : List Addr}
    (hl : Chain s.next p l) (hp : ∀ a, p = some a → s.Live a)
    (hnew : ∀ u a, (s.pc u).newElem? = some a → p ≠ some a) : Chain s'.next p l := by
  cases hst with
  | @makeShared u v a hpc hfree =>
    refine hl.congr ?_
    intro b hb
    have hba : b ≠ a := by
      rintro rfl
      exact hfree (hl.live hp b hb)
    exact congrArg Node.next (Function.update_of_ne hba _ _)
  | @pushLoad u v a hpc =>
    have ha : (s.pc u).newElem? = some a := by rw [hpc]; rfl
    exact (h.unshared u a ha).chain_storeNext hl hp (hnew u a ha)
  | @pushCasFail u v a hpc =>
    have ha : (s.pc u).newElem? = some a := by rw [hpc]; rfl
    exact (h.unshared u a ha).chain_storeNext hl hp (hnew u a ha)
  -- the other steps leave memory
  | _ => exact hl

omit [DecidableEq ι] in
/-- A pointer of a thread that is not in `push` points to no unpublished node. -/
theorem Inv.ne_newElem (h : Inv s) {p : Option Addr} (hp : ∀ a, p = some a → a ∈ (s.pc t).refs)
    (ht : (s.pc t).newElem? = none) : ∀ u a, (s.pc u).newElem? = some a → p ≠ some a := by
  intro u a hu hpa
  have htu : t ≠ u := by
    rintro rfl
    rw [ht] at hu
    exact absurd hu (by simp)
  exact (h.unshared u a hu).refs t htu (hp a hpa)

/-! ## 2. The traversal -/

/-- The number of steps of thread `t`. -/
def stepsOf (t : ι) (tr : List (ι × Event T)) : ℕ := tr.countP (·.1 = t)

theorem stepsOf_append_singleton :
    stepsOf t (tr ++ [e]) = stepsOf t tr + if e.1 = t then 1 else 0 := by
  unfold stepsOf
  rw [List.countP_append, List.countP_singleton]
  simp

/-- Thread `t` is in `size`, has passed `m` nodes, and has the others of the `n` nodes that the
stack had at the load ahead of it. -/
def Traversal (s : Stack ι T) (t : ι) (m n : ℕ) : Prop :=
  ∃ p l, s.pc t = .size p m ∧ Chain s.next p l ∧ m + l.length = n

/-- **A step of another thread leaves the traversal.** -/
theorem Traversal.step_of_ne (h : Inv s) (hst : Step s e s') {m n : ℕ} (hT : Traversal s t m n)
    (ht : t ≠ e.1) : Traversal s' t m n := by
  obtain ⟨p, l, hpc, hl, hlen⟩ := hT
  have hrefs : ∀ a, p = some a → a ∈ (s.pc t).refs := by
    rintro a rfl
    simp [hpc, Pc.refs]
  refine ⟨p, l, (hst.pc_of_ne ht).trans hpc, ?_, hlen⟩
  refine h.chain_step hst hl ?_ (h.ne_newElem hrefs (by rw [hpc]; rfl))
  intro a ha
  exact live_of_mem_refs (hrefs a ha)

/-- **A step of the thread itself** passes one node, or returns the number of all. -/
theorem Traversal.step_self {a : Event T} (hst : Step s (t, a) s') {m n : ℕ}
    (hT : Traversal s t m n) :
    (a = .tau ∧ m < n ∧ Traversal s' t (m + 1) n) ∨ (a = .sized n ∧ m = n) := by
  obtain ⟨p, l, hpc, hl, hlen⟩ := hT
  cases hst with
  | @sizeNext _ b k hpc' =>
    obtain ⟨rfl, rfl⟩ := Pc.size.inj (hpc.symm.trans hpc')
    obtain ⟨r, rfl, hr⟩ := chain_some_iff.mp hl
    rw [List.length_cons] at hlen
    refine Or.inl ⟨rfl, by omega, s.next b, r, ?_, hr, by omega⟩
    exact Function.update_self _ _ _
  | @sizeReturn _ k hpc' =>
    obtain ⟨rfl, rfl⟩ := Pc.size.inj (hpc.symm.trans hpc')
    obtain rfl := chain_none_iff.mp hl
    obtain rfl : m = n := hlen
    exact Or.inr ⟨rfl, rfl⟩
  | makeShared _ _ hpc' | pushLoad hpc' | pushCasOk hpc' | pushCasFail hpc' | popLoad hpc'
  | popTestNull hpc' | popTestNext hpc' | popCasOk hpc' | popCasFail hpc' | popData hpc'
  | sizeLoad hpc' => exact absurd (hpc.symm.trans hpc') (by simp)

/-- In the traversal the thread can take a step, whatever the others have done. -/
theorem Traversal.enabled {m n : ℕ} (hT : Traversal s t m n) : ∃ a s', Step s (t, a) s' := by
  obtain ⟨p, l, hpc, -, -⟩ := hT
  cases p with
  | none => exact ⟨_, _, Step.sizeReturn hpc⟩
  | some b => exact ⟨_, _, Step.sizeNext hpc⟩

/-- **Until `size` returns, a run is in the traversal.** -/
theorem Traversal.run {n : ℕ} (h₀ : Inv s₀) (hT₀ : Traversal s₀ t 0 n) (hrun : Run Step s₀ tr s)
    (hnot : ∀ k, (t, .sized k) ∉ tr) : Inv s ∧ Traversal s t (stepsOf t tr) n := by
  induction hrun with
  | refl => exact ⟨h₀, hT₀⟩
  | @tail u w tr e _ hst ih =>
    obtain ⟨hI, hT⟩ := ih fun k hk => hnot k (List.mem_append_left _ hk)
    refine ⟨hI.step hst, ?_⟩
    rw [stepsOf_append_singleton]
    obtain ⟨v, a⟩ := e
    by_cases hvt : v = t
    · subst hvt
      rw [if_pos rfl]
      rcases hT.step_self hst with ⟨-, -, hnext⟩ | ⟨rfl, -⟩
      · exact hnext
      · exact absurd (List.mem_append_right _ List.mem_cons_self) (hnot n)
    · rw [if_neg hvt]
      exact hT.step_of_ne hI hst (Ne.symm hvt)

/-- **`size` returns the length of the stack at its load of the head.**  From any reachable state
in which thread `t` calls `size` with the values `vs` on the stack, whatever the other threads do
until the call returns: the thread can always take a step, each of its first `vs.length` steps
passes a node, and the next one returns `vs.length`. -/
theorem size_is_snapshot (h₀ : s₀.Initial) (hrun : Run Step s₀ tr s) (hpc : s.pc t = .idle) :
    ∃ vs, s.Abs vs ∧ Step s (t, .tau) (s.setPc t (.size s.head 0)) ∧
      ∀ tr' s', Run Step (s.setPc t (.size s.head 0)) tr' s' → (∀ n, (t, .sized n) ∉ tr') →
        stepsOf t tr' ≤ vs.length ∧ (∃ a s'', Step s' (t, a) s'') ∧
          ∀ a s'', Step s' (t, a) s'' →
            (a = .tau ∧ stepsOf t tr' < vs.length) ∨
              (a = .sized vs.length ∧ stepsOf t tr' = vs.length) := by
  have hI : Inv s := Inv.run h₀ hrun
  obtain ⟨l, hl⟩ := hI.exists_head_chain
  have hload := Step.sizeLoad hpc
  refine ⟨l.map s.data, ⟨l, hl, rfl⟩, hload, ?_⟩
  intro tr' s' hrun' hnot
  rw [List.length_map]
  have hstart : Traversal (s.setPc t (.size s.head 0)) t 0 l.length :=
    ⟨s.head, l, Function.update_self _ _ _, hl, Nat.zero_add _⟩
  obtain ⟨-, hT⟩ := hstart.run (hI.step hload) hrun' hnot
  refine ⟨?_, hT.enabled, ?_⟩
  · obtain ⟨p, r, -, -, hlen⟩ := hT
    omega
  · intro a s'' hst
    rcases hT.step_self hst with ⟨htau, hlt, -⟩ | ⟨hsized, heq⟩
    · exact Or.inl ⟨htau, hlt⟩
    · exact Or.inr ⟨hsized, heq⟩

/-- Thread 0 pushes 7, thread 1 calls `size` and thread 0 takes the node off again: `size` has
passed it and returns 1. -/
theorem size_is_snapshot_during_pop :
    ∃ (tr tr' : List (ℕ × Event ℕ)) (s s' : Stack ℕ ℕ),
      Run Step ⟨fun _ => ⟨0, none⟩, none, fun _ => .idle⟩ tr s ∧ s.Abs [7] ∧
      Run Step (s.setPc 1 (.size s.head 0)) tr' s' ∧ s'.head = none ∧
      ∀ a s'', Step s' (1, a) s'' → a = .sized 1 := by
  let s₀ : Stack ℕ ℕ := ⟨fun _ => ⟨0, none⟩, none, fun _ => .idle⟩
  let s₁ : Stack ℕ ℕ := (s₀.setNode 0 ⟨7, none⟩).setPc 0 (.pushLoad 7 0)
  let s₂ : Stack ℕ ℕ := (s₁.storeNext 0).setPc 0 (.pushCas 7 0)
  let s : Stack ℕ ℕ := (s₂.setHead (some 0)).setPc 0 .idle
  have h₀ : s₀.Initial := ⟨rfl, fun _ => rfl⟩
  have hpush : Run Step s₀ _ s :=
    ((Run.refl.tail (Step.makeShared (t := 0) 7 0 rfl (h₀.not_live 0))).tail
      (Step.pushLoad (t := 0) rfl)).tail (Step.pushCasOk (t := 0) rfl rfl)
  have hpop : Run Step (s.setPc 1 (.size s.head 0)) _ _ :=
    (((Run.refl.tail (Step.popLoad (t := 0) rfl)).tail (Step.popTestNext (t := 0) rfl)).tail
      (Step.popCasOk (t := 0) rfl rfl)).tail (Step.sizeNext (t := 1) rfl)
  obtain ⟨vs, habs, hload, hsize⟩ := size_is_snapshot h₀ hpush (t := 1) rfl
  obtain rfl : vs = [7] := habs.unique ⟨[0], Chain.node Chain.null, rfl⟩
  refine ⟨_, _, _, _, hpush, habs, hpop, rfl, ?_⟩
  intro a s'' hst
  obtain ⟨-, -, hnext⟩ := hsize _ _ hpop (by simp)
  rcases hnext a s'' hst with ⟨-, hlt⟩ | ⟨hsized, -⟩
  · exact absurd hlt (by decide)
  · exact hsized

end CxxConcurrency.Lockfree
