/-
# The invariant of the CAS stack

Four facts hold in every reachable state of `Lockfree.Step`, and each compare-exchange needs
one of them.

* `chain`: from every live address the list reaches null.
* `unshared`: the node a `push` has made is referred to by that thread's `new_elem` alone, so
  writing its `next` (the load, and every failed compare-exchange) changes nobody else's list.
* `value`: that node holds the value of its call.
* `desired`: the `desired` argument of a `pop` still is `old_head->next`.  The thread holds
  `old_head`, so its address cannot be handed out again, and a node that is not some thread's
  `new_elem` is never written: this is why the head may leave and come back (A-B-A) without
  harm.

A step moves one thread, so `Inv.of_step` says once what it has to show.  Every step but three
only moves pointers the thread could already reach (`Inv.move`); the other three write one node
(`Inv.store`) or construct one (`Inv.alloc`).
-/
import CxxConcurrency.Lockfree.Stack

namespace CxxConcurrency.Lockfree

open CxxConcurrency.Lib

variable {ι T : Type*} {s s' : Stack ι T} {t u : ι}

/-! ## 1. The invariant -/

/-- Thread `t` alone refers to `a`, through a local. -/
structure Unshared (s : Stack ι T) (t : ι) (a : Addr) : Prop where
  head : s.head ≠ some a
  next : ∀ b, s.Live b → s.next b ≠ some a
  refs : ∀ u, u ≠ t → a ∉ (s.pc u).refs

/-- The invariant of the step relation. -/
structure Inv (s : Stack ι T) : Prop where
  chain : ∀ a, s.Live a → ∃ l, Chain s.next (some a) l
  unshared : ∀ t a, (s.pc t).newElem? = some a → Unshared s t a
  value : ∀ t v a, s.pc t = .pushLoad v a ∨ s.pc t = .pushCas v a → s.data a = v
  desired : ∀ t a d, s.pc t = .popCas a d → d = s.next a

/-- In an unused stack nothing is live. -/
theorem Stack.Initial.not_live (h : s.Initial) (a : Addr) : ¬ s.Live a := by
  intro ha
  refine ha.least (P := fun _ => False) ?_ (fun _ _ hf _ => hf)
  intro b hb
  rcases hb with hb | ⟨t, ht⟩
  · rw [h.head] at hb
    exact absurd hb (by simp)
  · rw [h.idle t] at ht
    exact absurd ht List.not_mem_nil

/-- An unused stack satisfies the invariant. -/
theorem Inv.initial (h : s.Initial) : Inv s := by
  refine ⟨fun a ha => absurd ha (h.not_live a), ?_, ?_, ?_⟩
  · intro t a ht
    rw [h.idle t] at ht
    exact absurd ht (by simp [Pc.newElem?])
  · rintro t v a (ht | ht) <;> exact absurd ((h.idle t).symm.trans ht) (by simp)
  · intro t a d ht
    exact absurd ((h.idle t).symm.trans ht) (by simp)

theorem live_of_mem_refs {a : Addr} (h : a ∈ (s.pc t).refs) : s.Live a :=
  .root (.inr ⟨t, h⟩)

theorem live_of_head {a : Addr} (h : s.head = some a) : s.Live a := .root (.inl h)

theorem mem_refs_of_newElem? {p : Pc T} {a : Addr} (h : p.newElem? = some a) : a ∈ p.refs := by
  cases p <;> simp_all [Pc.newElem?, Pc.refs]

/-- The chain from the head exists. -/
theorem Inv.exists_head_chain (h : Inv s) : ∃ l, Chain s.next s.head l := by
  cases hh : s.head with
  | none => exact ⟨[], Chain.null⟩
  | some a => exact h.chain a (live_of_head hh)

/-- An unshared address is on no chain but the one it starts. -/
theorem Unshared.notMem {a : Addr} (h : Unshared s t a) {p : Option Addr} {l : List Addr}
    (hl : Chain s.next p l) (hp : ∀ b, p = some b → s.Live b) (hne : p ≠ some a) : a ∉ l :=
  hl.notMem hp hne h.next

/-! ## 2. What a thread can reach, and what writing a node's `next` changes -/

/-- The addresses thread `t` can put into a pointer without `make_shared`: the head, the `next`
of a live node, or what a local of `t` already refers to. -/
def Reachable (s : Stack ι T) (t : ι) (a : Addr) : Prop :=
  s.head = some a ∨ (∃ b, s.Live b ∧ s.next b = some a) ∨ a ∈ (s.pc t).refs

theorem Reachable.live {a : Addr} (h : Reachable s t a) : s.Live a := by
  rcases h with h | ⟨b, hb, hba⟩ | h
  · exact live_of_head h
  · exact hb.next hba
  · exact live_of_mem_refs h

/-- What `t` can reach is not another thread's unpublished node. -/
theorem Reachable.ne_of_unshared {a b : Addr} (h : Reachable s t a) (hu : Unshared s u b)
    (htu : t ≠ u) : a ≠ b := by
  rintro rfl
  rcases h with h | ⟨b, hb, hba⟩ | h
  · exact hu.head h
  · exact hu.next b hb hba
  · exact hu.refs t htu h

/-- The head is copied into the `next` field of a node. -/
def Stack.storeNext (s : Stack ι T) (a : Addr) : Stack ι T := s.setNode a ⟨s.data a, s.head⟩

theorem storeNext_next_self {a : Addr} : (s.storeNext a).next a = s.head := by
  simp [Stack.storeNext, Stack.setNode, Stack.next]

theorem storeNext_next_of_ne {a b : Addr} (hb : b ≠ a) : (s.storeNext a).next b = s.next b := by
  simp [Stack.storeNext, Stack.setNode, Stack.next, Function.update_of_ne hb]

theorem storeNext_data {a b : Addr} : (s.storeNext a).data b = s.data b := by
  by_cases hb : b = a
  · subst hb
    simp [Stack.storeNext, Stack.setNode, Stack.data]
  · simp [Stack.storeNext, Stack.setNode, Stack.data, Function.update_of_ne hb]

/-- **Writing the `next` of an unpublished node keeps every other chain.** -/
theorem Unshared.chain_storeNext {a : Addr} (h : Unshared s t a) {p : Option Addr}
    {l : List Addr} (hl : Chain s.next p l) (hp : ∀ b, p = some b → s.Live b)
    (hne : p ≠ some a) : Chain (s.storeNext a).next p l :=
  hl.congr fun _ hb => storeNext_next_of_ne fun hba => h.notMem hl hp hne (hba ▸ hb)

variable [DecidableEq ι]

/-! ## 3. Steps of one thread -/

/-- After a step of thread `t` to the point `p` every root is the head, in the hands of `t`, or
was live before. -/
theorem root_cases {p : Pc T} (hpc : s'.pc = Function.update s.pc t p) {a : Addr}
    (ha : s'.Root a) : s'.head = some a ∨ a ∈ p.refs ∨ s.Live a := by
  rcases ha with ha | ⟨u, hu⟩
  · exact Or.inl ha
  · rw [hpc] at hu
    by_cases htu : u = t
    · subst htu
      rw [Function.update_self] at hu
      exact Or.inr (Or.inl hu)
    · rw [Function.update_of_ne htu] at hu
      exact Or.inr (Or.inr (live_of_mem_refs hu))

/-- A node stays unshared in a step of thread `t` that puts it in no other pointer. -/
theorem Unshared.frame {p : Pc T} {a : Addr} (hun : Unshared s u a)
    (hpc : s'.pc = Function.update s.pc t p) (hhead : s'.head ≠ some a)
    (hnext : ∀ b, s'.Live b → s'.next b ≠ some a) (hrefs : u ≠ t → a ∉ p.refs) :
    Unshared s' u a := by
  refine ⟨hhead, hnext, ?_⟩
  intro w hw
  rw [hpc]
  by_cases hwt : w = t
  · subst hwt
    rw [Function.update_self]
    exact hrefs (Ne.symm hw)
  · rw [Function.update_of_ne hwt]
    exact hun.refs w hw

/-- **What a step of one thread has to show.**  Thread `t` goes to the point `p`: the lists still
end, each fact about a thread holds of `t` at `p`, and the step leaves alone the nodes that the
other threads hold. -/
theorem Inv.of_step (h : Inv s) {p : Pc T} (hpc : s'.pc = Function.update s.pc t p)
    (hchain : ∀ a, s'.Live a → ∃ l, Chain s'.next (some a) l)
    (hown : ∀ a, p.newElem? = some a → Unshared s' t a)
    (hother : ∀ u a, u ≠ t → s.Live a → Unshared s u a → Unshared s' u a)
    (hvalue : ∀ v a, p = .pushLoad v a ∨ p = .pushCas v a → s'.data a = v)
    (hdesired : ∀ a d, p = .popCas a d → d = s'.next a)
    (hkeep : ∀ u a, u ≠ t → a ∈ (s.pc u).refs → s'.mem a = s.mem a) : Inv s' := by
  have hmem : ∀ u a, u ≠ t → a ∈ (s.pc u).refs → s'.data a = s.data a ∧ s'.next a = s.next a := by
    intro u a hu ha
    have hnode := hkeep u a hu ha
    exact ⟨congrArg Node.data hnode, congrArg Node.next hnode⟩
  refine ⟨hchain, ?_, ?_, ?_⟩
  · rw [hpc, Function.forall_update_iff s.pc fun u c => ∀ a, c.newElem? = some a → Unshared s' u a]
    refine ⟨hown, ?_⟩
    intro u hu a ha
    exact hother u a hu (live_of_mem_refs (mem_refs_of_newElem? ha)) (h.unshared u a ha)
  · rw [hpc, Function.forall_update_iff s.pc fun _ c => ∀ v a,
      c = .pushLoad v a ∨ c = .pushCas v a → s'.data a = v]
    refine ⟨hvalue, ?_⟩
    intro u hu v a ha
    have href : a ∈ (s.pc u).refs := by rcases ha with ha | ha <;> simp [ha, Pc.refs]
    exact (hmem u a hu href).1.trans (h.value u v a ha)
  · rw [hpc, Function.forall_update_iff s.pc fun _ c => ∀ a d, c = .popCas a d → d = s'.next a]
    refine ⟨hdesired, ?_⟩
    intro u hu a d ha
    have href : a ∈ (s.pc u).refs := by simp [ha, Pc.refs]
    exact (h.desired u a d ha).trans (hmem u a hu href).2.symm

/-! ## 4. Steps that only move pointers -/

/-- **A step that only moves pointers keeps the invariant.**  Thread `t` goes to a point `p`
with no unpublished node, and the head becomes `q`; every pointer involved was reachable
by `t`. -/
theorem Inv.move (h : Inv s) {p : Pc T} {q : Option Addr} (hnew : p.newElem? = none)
    (hrefs : ∀ a ∈ p.refs, Reachable s t a) (hq : ∀ a, q = some a → Reachable s t a)
    (hdes : ∀ a d, p = .popCas a d → d = s.next a) : Inv ((s.setHead q).setPc t p) := by
  have hlive : ∀ a, ((s.setHead q).setPc t p).Live a → s.Live a := by
    intro a ha
    refine ha.mono ?_
    intro b hb
    rcases root_cases (s := s) rfl hb with hb | hb | hb
    · exact (hq b hb).live
    · exact (hrefs b hb).live
    · exact hb
  refine h.of_step (p := p) rfl ?_ ?_ ?_ ?_ hdes ?_
  · intro a ha
    exact h.chain a (hlive a ha)
  · intro a ha
    exact absurd (hnew.symm.trans ha) (by simp)
  · intro u a hut _ hun
    refine hun.frame rfl ?_ ?_ ?_
    · intro hqa
      exact (hq a hqa).ne_of_unshared hun (Ne.symm hut) rfl
    · intro b hb
      exact hun.next b (hlive b hb)
    · intro _ ha
      exact (hrefs a ha).ne_of_unshared hun (Ne.symm hut) rfl
  · rintro v a (rfl | rfl) <;> exact absurd hnew (by simp [Pc.newElem?])
  · intro u a _ _
    rfl

/-! ## 5. Steps that write the unpublished node -/

/-- **The load of `push` and its failed compare-exchange keep the invariant.** -/
theorem Inv.store (h : Inv s) {v : T} {a : Addr}
    (hpc : s.pc t = .pushLoad v a ∨ s.pc t = .pushCas v a) :
    Inv ((s.storeNext a).setPc t (.pushCas v a)) := by
  have hmem : a ∈ (s.pc t).refs := by
    rcases hpc with hp | hp <;> simp [hp, Pc.refs]
  have hun : Unshared s t a := by
    refine h.unshared t a ?_
    rcases hpc with hp | hp <;> simp [hp, Pc.newElem?]
  have hself : ((s.storeNext a).setPc t (.pushCas v a)).next a = s.head := storeNext_next_self
  have hne : ∀ b, b ≠ a → ((s.storeNext a).setPc t (.pushCas v a)).next b = s.next b := by
    intro b hb
    exact storeNext_next_of_ne hb
  have hlive : ∀ b, ((s.storeNext a).setPc t (.pushCas v a)).Live b → s.Live b := by
    intro b hb
    refine hb.least ?_ ?_
    · intro c hc
      rcases root_cases (s := s) rfl hc with hc | hc | hc
      · exact live_of_head hc
      · obtain rfl : c = a := List.mem_singleton.mp hc
        exact live_of_mem_refs hmem
      · exact hc
    · intro c d hc hcd
      by_cases hca : c = a
      · subst hca
        exact live_of_head (hself ▸ hcd)
      · exact hc.next (hne c hca ▸ hcd)
  -- `a` now points to the head, which is nobody's unpublished node
  have hnext : ∀ u b, Unshared s u b → ∀ c,
      ((s.storeNext a).setPc t (.pushCas v a)).Live c →
        ((s.storeNext a).setPc t (.pushCas v a)).next c ≠ some b := by
    intro u b hub c hc hcb
    by_cases hca : c = a
    · subst hca
      exact hub.head (hself ▸ hcb)
    · exact hub.next c (hlive c hc) (hne c hca ▸ hcb)
  refine h.of_step (p := .pushCas v a) rfl ?_ ?_ ?_ ?_ (by simp) ?_
  · intro b hb
    by_cases hba : b = a
    · subst hba
      obtain ⟨l, hl⟩ := h.exists_head_chain
      refine ⟨b :: l, Chain.node ?_⟩
      rw [hself]
      exact hun.chain_storeNext hl (fun c hc => live_of_head hc) hun.head
    · obtain ⟨l, hl⟩ := h.chain b (hlive b hb)
      refine ⟨l, hun.chain_storeNext hl ?_ (by simpa using hba)⟩
      intro c hc
      rw [← Option.some.inj hc]
      exact hlive b hb
  · intro b hb
    obtain rfl : a = b := Option.some.inj hb
    exact hun.frame (p := .pushCas v a) rfl hun.head (hnext t a hun) (fun ht => absurd rfl ht)
  · intro u b hut _ hub
    refine hub.frame (p := .pushCas v a) rfl hub.head (hnext u b hub) ?_
    intro _ hb
    obtain rfl : b = a := List.mem_singleton.mp hb
    exact hub.refs t (Ne.symm hut) hmem
  · intro w b hwb
    obtain ⟨rfl, rfl⟩ : v = w ∧ a = b := by simpa using hwb
    exact storeNext_data.trans (h.value t v a hpc)
  · intro u b hut hb
    -- what another thread holds is not the unpublished node
    refine Function.update_of_ne ?_ _ _
    rintro rfl
    exact hun.refs u hut hb

/-! ## 6. The step that makes a node -/

/-- **`make_shared` at an address nothing refers to keeps the invariant.** -/
theorem Inv.alloc (h : Inv s) {v : T} {a : Addr} (hfree : ¬ s.Live a) :
    Inv ((s.setNode a ⟨v, none⟩).setPc t (.pushLoad v a)) := by
  set s' := (s.setNode a ⟨v, none⟩).setPc t (.pushLoad v a) with hs'
  have hself : s'.mem a = ⟨v, none⟩ := Function.update_self _ _ _
  have hmem : ∀ b, s.Live b → s'.mem b = s.mem b := by
    intro b hb
    refine Function.update_of_ne ?_ _ _
    rintro rfl
    exact hfree hb
  have hnexta : s'.next a = none := congrArg Node.next hself
  have hnext : ∀ b, s.Live b → s'.next b = s.next b := by
    intro b hb
    exact congrArg Node.next (hmem b hb)
  have hlive : ∀ b, s'.Live b → b = a ∨ s.Live b := by
    intro b hb
    refine hb.least (P := fun c => c = a ∨ s.Live c) ?_ ?_
    · intro c hc
      rcases root_cases (s := s) rfl hc with hc | hc | hc
      · exact Or.inr (live_of_head hc)
      · exact Or.inl (List.mem_singleton.mp hc)
      · exact Or.inr hc
    · rintro c d (rfl | hc) hcd
      · exact absurd (hnexta.symm.trans hcd) (by simp)
      · exact Or.inr (hc.next (hnext c hc ▸ hcd))
  refine h.of_step (p := .pushLoad v a) rfl ?_ ?_ ?_ ?_ (by simp) ?_
  · intro b hb
    rcases hlive b hb with rfl | hb'
    · refine ⟨[b], Chain.node ?_⟩
      rw [hnexta]
      exact Chain.null
    · obtain ⟨l, hl⟩ := h.chain b hb'
      refine ⟨l, hl.congr ?_⟩
      intro c hc
      exact hnext c (hl.live (fun d hd => Option.some.inj hd ▸ hb') c hc)
  · intro b hb
    obtain rfl : a = b := Option.some.inj hb
    -- nothing live refers to an address that is free
    refine ⟨fun hh => hfree (live_of_head hh), ?_, ?_⟩
    · intro c hc hca
      rcases hlive c hc with rfl | hc'
      · exact absurd (hnexta.symm.trans hca) (by simp)
      · exact hfree (hc'.next (hnext c hc' ▸ hca))
    · intro w hw hwa
      have hpcw : s'.pc w = s.pc w := Function.update_of_ne hw _ _
      exact hfree (live_of_mem_refs (hpcw ▸ hwa))
  · intro u b _ hb hub
    refine hub.frame (p := .pushLoad v a) rfl hub.head ?_ ?_
    · intro c hc hcb
      rcases hlive c hc with rfl | hc'
      · exact absurd (hnexta.symm.trans hcb) (by simp)
      · exact hub.next c hc' (hnext c hc' ▸ hcb)
    · intro _ hba
      exact hfree (List.mem_singleton.mp hba ▸ hb)
  · intro w b hwb
    obtain ⟨rfl, rfl⟩ : v = w ∧ a = b := by simpa using hwb
    exact congrArg Node.data hself
  · intro u b _ hb
    exact hmem b (live_of_mem_refs hb)

/-! ## 7. Every step, every run -/

/-- **Every step keeps the invariant.** -/
theorem Inv.step (h : Inv s) {e : ι × Event T} (hst : Step s e s') : Inv s' := by
  have hhead : ∀ t a, s.head = some a → Reachable s t a := fun _ _ hh => Or.inl hh
  cases hst with
  | makeShared v a hpc hfree => exact h.alloc hfree
  | pushLoad hpc => exact h.store (Or.inl hpc)
  | @pushCasOk t v a hpc heq =>
    refine h.move rfl (fun b hb => absurd hb List.not_mem_nil) ?_ (by simp)
    intro b hb
    exact Or.inr (Or.inr (by rw [hpc]; simpa [Pc.refs] using hb.symm))
  | pushCasFail hpc => exact h.store (Or.inr hpc)
  | @popLoad t hpc =>
    exact h.move (q := s.head) rfl (fun b hb => Or.inl (by simpa [Pc.refs] using hb)) (hhead t)
      (by simp)
  | @popTestNull t hpc =>
    exact h.move (q := s.head) rfl (by simp [Pc.refs]) (hhead t) (by simp)
  | @popTestNext t a hpc =>
    have ha : a ∈ (s.pc t).refs := by rw [hpc]; simp [Pc.refs]
    refine h.move (q := s.head) rfl ?_ (hhead t) ?_
    · intro b hb
      rcases List.mem_cons.mp hb with rfl | hb
      · exact Or.inr (Or.inr ha)
      · exact Or.inr (Or.inl ⟨a, live_of_mem_refs ha, by simpa using hb⟩)
    · intro b d hbd
      obtain ⟨rfl, rfl⟩ := by simpa using hbd
      rfl
  | @popCasOk t a d hpc heq =>
    have ha : a ∈ (s.pc t).refs := by rw [hpc]; exact List.mem_cons_self
    refine h.move rfl ?_ ?_ (by simp)
    · intro b hb
      obtain rfl : b = a := by simpa [Pc.refs] using hb
      exact Or.inl heq
    · intro b hb
      exact Or.inr (Or.inr (by rw [hpc]; simp [Pc.refs, hb]))
  | @popCasFail t a d hpc =>
    exact h.move (q := s.head) rfl (fun b hb => Or.inl (by simpa [Pc.refs] using hb)) (hhead t)
      (by simp)
  | @popData t a hpc =>
    exact h.move (q := s.head) rfl (by simp [Pc.refs]) (hhead t) (by simp)
  | @sizeLoad t hpc =>
    exact h.move (q := s.head) rfl (fun b hb => Or.inl (by simpa [Pc.refs] using hb)) (hhead t)
      (by simp)
  | @sizeNext t a n hpc =>
    have ha : a ∈ (s.pc t).refs := by rw [hpc]; simp [Pc.refs]
    refine h.move (q := s.head) rfl ?_ (hhead t) (by simp)
    intro b hb
    exact Or.inr (Or.inl ⟨a, live_of_mem_refs ha, by simpa [Pc.refs] using hb⟩)
  | @sizeReturn t n hpc =>
    exact h.move (q := s.head) rfl (by simp [Pc.refs]) (hhead t) (by simp)

/-- **Every reachable state satisfies the invariant.** -/
theorem Inv.run {s₀ : Stack ι T} {tr : List (ι × Event T)} (h₀ : s₀.Initial)
    (hrun : Run Step s₀ tr s) : Inv s :=
  hrun.invariant (fun _ _ _ hi hst => hi.step hst) (Inv.initial h₀)

end CxxConcurrency.Lockfree
