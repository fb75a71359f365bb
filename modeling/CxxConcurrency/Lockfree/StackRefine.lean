/-
# The CAS stack refines the sequential stack

`Inv.simulates`: under the invariant of `StackInv`, every step of the concurrent stack is
matched on the sequence of values of the chain by the sequential operation `linearize` reads
off the step, and by nothing where there is none.  `Simulates.run` lifts this to runs, and
`SeqStep.run_perm` turns the history of a run into the accounting of its values.

The data of a node never changes while anything refers to it (`Step.data_eq`), so the value a
`pop` returns, read after its compare-exchange, is the value that was on top when the
compare-exchange took it off.
-/
import CxxConcurrency.Lockfree.StackInv

namespace CxxConcurrency.Lockfree

open CxxConcurrency.Lib

variable {ι T : Type*} [DecidableEq ι] {s s' : Stack ι T}

/-! ## 1. What a step does to the sequence of values -/

/-- Writing an unpublished node leaves the sequence of values. -/
theorem abs_storeNext {t : ι} {a : Addr} {p : Pc T} {vs : List T} (h : Unshared s t a)
    (habs : s.Abs vs) : ((s.storeNext a).setPc t p).Abs vs := by
  obtain ⟨l, hl, rfl⟩ := habs
  refine ⟨l, h.chain_storeNext hl (fun b hb => live_of_head hb) h.head, ?_⟩
  exact List.map_congr_left fun b _ => storeNext_data.symm

/-- Constructing a node at a dead address leaves the sequence of values. -/
theorem abs_setNode {t : ι} {a : Addr} {n : Node T} {p : Pc T} {vs : List T}
    (hfree : ¬ s.Live a) (habs : s.Abs vs) : ((s.setNode a n).setPc t p).Abs vs := by
  obtain ⟨l, hl, rfl⟩ := habs
  have hmem : ∀ b ∈ l, (s.setNode a n).mem b = s.mem b := by
    intro b hb
    have hlive : s.Live b := hl.live (fun c hc => live_of_head hc) b hb
    exact Function.update_of_ne (fun hba : b = a => hfree (hba ▸ hlive)) _ _
  refine ⟨l, hl.congr fun b hb => congrArg Node.next (hmem b hb), ?_⟩
  exact List.map_congr_left fun b hb => congrArg Node.data (hmem b hb).symm

/-- **A successful compare-exchange of `push` pushes its call's value.** -/
theorem abs_push {t : ι} {v : T} {a : Addr} {vs : List T} (h : Inv s)
    (hpc : s.pc t = .pushCas v a) (heq : s.head = s.next a) (habs : s.Abs vs) :
    ((s.setHead (some a)).setPc t .idle).Abs (v :: vs) := by
  obtain ⟨l, hl, rfl⟩ := habs
  refine ⟨a :: l, Chain.node ?_, ?_⟩
  · show Chain s.next (s.next a) l
    rw [← heq]
    exact hl
  · show v :: l.map s.data = s.data a :: l.map s.data
    rw [h.value t v a (Or.inr hpc)]

/-- **A successful compare-exchange of `pop` pops the top**, and the top is the data of
`old_head`. -/
theorem abs_pop {t : ι} {a : Addr} {d : Option Addr} {vs : List T} (h : Inv s)
    (hpc : s.pc t = .popCas a d) (heq : s.head = some a) (habs : s.Abs vs) :
    ∃ rest, vs = s.data a :: rest ∧ ((s.setHead d).setPc t (.popData (some a))).Abs rest := by
  obtain ⟨l, hl, rfl⟩ := habs
  rw [heq] at hl
  obtain ⟨r, rfl, hr⟩ := chain_some_iff.mp hl
  refine ⟨r.map s.data, rfl, r, ?_, rfl⟩
  rw [← h.desired t a d hpc] at hr
  exact hr

/-- **Every step refines.**  Where `linearize` names an operation, the values move by it;
elsewhere they stay. -/
theorem Inv.simulates :
    Simulates (Step (ι := ι) (T := T)) SeqStep linearize fun s vs => Inv s ∧ s.Abs vs where
  visible := by
    rintro s e s' vs op ⟨hinv, habs⟩ hst hop
    cases hst with
    | pushCasOk hpc heq =>
      obtain rfl := Option.some.inj hop
      exact ⟨_, SeqStep.push _ _, hinv.step (.pushCasOk hpc heq), abs_push hinv hpc heq habs⟩
    | popCasOk hpc heq =>
      obtain rfl := Option.some.inj hop
      obtain ⟨rest, rfl, hrest⟩ := abs_pop hinv hpc heq habs
      exact ⟨rest, SeqStep.pop _ _, hinv.step (.popCasOk hpc heq), hrest⟩
    | _ => exact absurd hop (by simp [linearize])
  silent := by
    rintro s e s' vs ⟨hinv, habs⟩ hst hop
    refine ⟨hinv.step hst, ?_⟩
    cases hst with
    | makeShared v a hpc hfree => exact abs_setNode hfree habs
    | @pushLoad t v a hpc => exact abs_storeNext (hinv.unshared t a (by rw [hpc]; rfl)) habs
    | @pushCasFail t v a hpc => exact abs_storeNext (hinv.unshared t a (by rw [hpc]; rfl)) habs
    | pushCasOk => exact absurd hop (by simp [linearize])
    | popCasOk => exact absurd hop (by simp [linearize])
    -- the other steps change neither memory nor the head
    | _ => exact habs

/-! ## 2. What `pop` returns -/

/-- The data at a live address does not change. -/
theorem Step.data_eq {e : ι × Event T} (hst : Step s e s') {a : Addr} (ha : s.Live a) :
    s'.data a = s.data a := by
  cases hst with
  | makeShared v b hpc hfree =>
    have hne : a ≠ b := fun hab => hfree (hab ▸ ha)
    exact congrArg Node.data (Function.update_of_ne hne _ _)
  | pushLoad => exact storeNext_data
  | pushCasFail => exact storeNext_data
  | _ => rfl

/-- The values taken off by the compare-exchanges of `t`, in order. -/
def poppedBy (t : ι) (tr : List (ι × Event T)) : List T :=
  tr.filterMap fun e => match e with
    | (u, .popped v) => if u = t then some v else none
    | _ => none

/-- The values returned by the calls of `pop` of `t`, in order. -/
def returnedBy (t : ι) (tr : List (ι × Event T)) : List T :=
  tr.filterMap fun e => match e with
    | (u, .returned v) => if u = t then some v else none
    | _ => none

/-- The node a `pop` has taken off and not yet read. -/
def Pc.taken? : Pc T → Option Addr
  | .popData p => p
  | _ => none

/-- The value `t` has taken off and is about to return. -/
def Stack.pending (s : Stack ι T) (t : ι) : List T := ((s.pc t).taken?.map s.data).toList

/-- A step of another thread leaves what `t` is about to return. -/
theorem pending_of_ne {e : ι × Event T} (hst : Step s e s') {t : ι} (ht : t ≠ e.1) :
    s'.pending t = s.pending t := by
  rw [Stack.pending, Stack.pending, hst.pc_of_ne ht]
  cases hp : (s.pc t).taken? with
  | none => rfl
  | some a =>
    have ha : a ∈ (s.pc t).refs := by
      cases hq : s.pc t <;> simp_all [Pc.taken?, Pc.refs]
    simp only [Option.map_some, hst.data_eq (live_of_mem_refs ha)]

/-- One step keeps the books of thread `t`: what it takes off, it is about to return. -/
theorem pending_step {e : ι × Event T} (hst : Step s e s') (t : ι) :
    s.pending t ++ poppedBy t [e] = returnedBy t [e] ++ s'.pending t := by
  rcases e with ⟨u, e⟩
  by_cases ht : t = u
  · subst ht
    cases hst with
    | makeShared v a hpc => simp [Stack.pending, hpc, Stack.setPc, poppedBy, returnedBy, Pc.taken?]
    | pushLoad hpc | pushCasOk hpc | pushCasFail hpc | popLoad hpc | popTestNull hpc
    | popTestNext hpc | popCasOk hpc | popCasFail hpc | popData hpc | sizeLoad hpc
    | sizeNext hpc | sizeReturn hpc =>
      simp [Stack.pending, hpc, Stack.setPc, Stack.setHead, Stack.data, poppedBy, returnedBy,
        Pc.taken?]
  · rw [pending_of_ne hst ht]
    cases hst <;> simp [poppedBy, returnedBy, Ne.symm ht]

/-- **Each `pop` returns what it took off, once and in order.** -/
theorem pending_run {s₀ : Stack ι T} (h₀ : s₀.Initial) {tr : List (ι × Event T)}
    (hrun : Run Step s₀ tr s) (t : ι) : poppedBy t tr = returnedBy t tr ++ s.pending t := by
  induction hrun with
  | refl => simp [Stack.pending, h₀.idle t, Pc.taken?, poppedBy, returnedBy]
  | @tail u w tr e _ hst ih =>
    have happ : poppedBy t (tr ++ [e]) = poppedBy t tr ++ poppedBy t [e] := by
      simp only [poppedBy, List.filterMap_append]
    have happ' : returnedBy t (tr ++ [e]) = returnedBy t tr ++ returnedBy t [e] := by
      simp only [returnedBy, List.filterMap_append]
    rw [happ, happ', ih, List.append_assoc, List.append_assoc, pending_step hst t]

/-! ## 3. The refinement -/

/-- The values of the successful compare-exchanges of `push`, in order. -/
def pushedValues (tr : List (ι × Event T)) : List T :=
  tr.filterMap fun e => match e.2 with
    | .pushed v => some v
    | _ => none

/-- The values of the successful compare-exchanges of `pop`, in order. -/
def poppedValues (tr : List (ι × Event T)) : List T :=
  tr.filterMap fun e => match e.2 with
    | .popped v => some v
    | _ => none

omit [DecidableEq ι] in
theorem pushedValues_eq (tr : List (ι × Event T)) :
    pushedValues tr = (tr.filterMap linearize).filterMap StackOp.pushed? := by
  rw [List.filterMap_filterMap]
  refine List.filterMap_congr ?_
  intro e _
  rcases e with ⟨t, e⟩
  cases e <;> rfl

omit [DecidableEq ι] in
theorem poppedValues_eq (tr : List (ι × Event T)) :
    poppedValues tr = (tr.filterMap linearize).filterMap StackOp.popped? := by
  rw [List.filterMap_filterMap]
  refine List.filterMap_congr ?_
  intro e _
  rcases e with ⟨t, e⟩
  cases e <;> rfl

/-- A run has a sequential history, and ends in the values that history leaves. -/
theorem Inv.history {s₀ : Stack ι T} (h₀ : s₀.Initial) {tr : List (ι × Event T)}
    (hrun : Run Step s₀ tr s) :
    ∃ vs, s.Abs vs ∧ Run SeqStep ([] : List T) (tr.filterMap linearize) vs := by
  have habs : s₀.Abs [] := ⟨[], by rw [h₀.head]; exact Chain.null, rfl⟩
  obtain ⟨vs, hseq, -, hvs⟩ := Inv.simulates.run hrun ⟨Inv.initial h₀, habs⟩
  exact ⟨vs, hvs, hseq⟩

/-- **The CAS stack refines the sequential stack.**  In every state a run of any number of
threads reaches:

* the chain from the head is finite and meets no address twice;
* a step whose compare-exchange succeeds for `push` pushes its call's value, one that succeeds
  for `pop` pops the top, which is the data of `old_head`, and every other step leaves the
  values;
* the successful compare-exchanges so far are a history of the sequential stack that ends in
  the values of the chain, so that the values pushed are those popped and those still there,
  and every thread's calls of `pop` return what their compare-exchanges took off. -/
theorem casStack_refines_sequential {s₀ : Stack ι T} (h₀ : s₀.Initial)
    {tr : List (ι × Event T)} (hrun : Run Step s₀ tr s) :
    (∃ l, Chain s.next s.head l ∧ l.Nodup) ∧
    (∀ e s' vs, Step s e s' → s.Abs vs →
      (∀ t v, e = (t, .pushed v) →
        ∃ a, s.pc t = .pushCas v a ∧ s'.head = some a ∧ s'.Abs (v :: vs)) ∧
      (∀ t v, e = (t, .popped v) →
        ∃ a d rest, s.pc t = .popCas a d ∧ s.head = some a ∧ s.data a = v ∧
          vs = v :: rest ∧ s'.Abs rest) ∧
      (linearize e = none → s'.Abs vs)) ∧
    (∃ vs, s.Abs vs ∧ Run SeqStep ([] : List T) (tr.filterMap linearize) vs ∧
      (pushedValues tr).Perm (poppedValues tr ++ vs)) ∧
    (∀ t, poppedBy t tr = returnedBy t tr ++ s.pending t) := by
  have hinv : Inv s := Inv.run h₀ hrun
  refine ⟨?_, ?_, ?_, pending_run h₀ hrun⟩
  · obtain ⟨l, hl⟩ := hinv.exists_head_chain
    exact ⟨l, hl, hl.nodup⟩
  · intro e s' vs hst habs
    refine ⟨?_, ?_, fun hnone => (Inv.simulates.silent ⟨hinv, habs⟩ hst hnone).2⟩
    · rintro t v rfl
      cases hst with
      | @pushCasOk _ _ a hpc heq => exact ⟨a, hpc, rfl, abs_push hinv hpc heq habs⟩
    · rintro t v rfl
      cases hst with
      | @popCasOk _ a d hpc heq =>
        obtain ⟨rest, hvs, hrest⟩ := abs_pop hinv hpc heq habs
        exact ⟨a, d, rest, hpc, heq, rfl, hvs, hrest⟩
  · obtain ⟨vs, habs, hseq⟩ := Inv.history h₀ hrun
    refine ⟨vs, habs, hseq, ?_⟩
    rw [pushedValues_eq, poppedValues_eq]
    exact SeqStep.run_perm hseq

/-- Thread 0 pushes 7 onto the new stack, thread 1 pops it. -/
theorem casStack_refines_push_pop :
    ∃ (tr : List (ℕ × Event ℕ)) (s : Stack ℕ ℕ),
      Run Step ⟨fun _ => ⟨0, none⟩, none, fun _ => .idle⟩ tr s ∧
      pushedValues tr = [7] ∧ returnedBy 1 tr = [7] ∧
      (∃ l, Chain s.next s.head l ∧ l.Nodup) ∧
      poppedBy 1 tr = returnedBy 1 tr ++ s.pending 1 := by
  set s₀ : Stack ℕ ℕ := ⟨fun _ => ⟨0, none⟩, none, fun _ => .idle⟩ with hs₀
  have h₀ : s₀.Initial := ⟨rfl, fun _ => rfl⟩
  have hpush := ((Run.refl.tail (Step.makeShared (t := 0) 7 0 rfl (h₀.not_live 0))).tail
    (Step.pushLoad (t := 0) rfl)).tail (Step.pushCasOk (t := 0) rfl rfl)
  have hpop := (((hpush.tail (Step.popLoad (t := 1) rfl)).tail
    (Step.popTestNext (t := 1) rfl)).tail (Step.popCasOk (t := 1) rfl rfl)).tail
    (Step.popData (t := 1) rfl)
  obtain ⟨hchain, -, -, hret⟩ := casStack_refines_sequential h₀ hpop
  exact ⟨_, _, hpop, rfl, rfl, hchain, hret 1⟩

end CxxConcurrency.Lockfree
