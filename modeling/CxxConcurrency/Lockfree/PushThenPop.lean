/-
# The test case "push then pop" of `lockfree/stack.cpp`

The test posts a task for each value to a thread pool, which pushes the value, joins the pool and
compares `size()` with the number of the values.  Then it posts as many tasks that pop, joins and
compares `size()` with 0.  Any thread of the pool may run any task, and `join` waits until all tasks
are done.

While the tasks push, each value is in one place: not yet begun, in the hands of a thread, or on the
stack.  While they pop there are as many values on the stack as there are calls of `pop` that have
yet to take one (`Inv`).  So no `pop` reads the head of an empty stack, although `pop` itself does
not see to that, and the test passes in every order of the steps.
-/
import CxxConcurrency.Lib.Parties
import CxxConcurrency.Lockfree.Alone
import CxxConcurrency.Lockfree.Contention
import CxxConcurrency.Lockfree.EmptyPop
import CxxConcurrency.Lockfree.StackRefine
import Mathlib.Algebra.Order.BigOperators.Group.Finset
import Mathlib.Algebra.Order.Group.Multiset
import Mathlib.Data.Multiset.AddSub
import Mathlib.Tactic.Abel
import Mathlib.Tactic.Ring

namespace CxxConcurrency.Lockfree

open CxxConcurrency.Lib

/-! ## 1. The test -/

/-- Where the test is. -/
inductive Phase (T : Type*)
  /-- The first pool runs; `todo` are the values whose tasks have not begun. -/
  | pushing (todo : Multiset T)
  /-- The second pool runs; `todo` tasks have not begun. -/
  | popping (todo : ℕ)
  /-- The second `join` has returned. -/
  | done

/-- The stack of the test, and what its calls of `pop` have returned. -/
structure PushThenPop (ι T : Type*) where
  st : Stack ι T
  phase : Phase T
  returned : List T

namespace PushThenPop

variable {ι T : Type*}

/-- The test with the values `vs`. -/
def init (st : Stack ι T) (vs : Multiset T) : PushThenPop ι T := ⟨st, .pushing vs, []⟩

/-- What a `pop` assigns to its argument. -/
def assigned : Event T → List T
  | .returned v => [v]
  | _ => []

section

variable [DecidableEq ι]

/-- A step of the test with `n` values: a thread begins a task, or takes a step in one, or `join`
returns. -/
inductive Step (n : ℕ) : PushThenPop ι T → Option (ι × Event T) → PushThenPop ι T → Prop
  | push {s : PushThenPop ι T} {t : ι} {v : T} {todo : Multiset T} {a : Addr}
      (hphase : s.phase = .pushing (v ::ₘ todo)) (hpc : s.st.pc t = .idle)
      (hfree : ¬ s.st.Live a) :
      Step n s (some (t, .tau))
        { s with st := (s.st.setNode a ⟨v, none⟩).setPc t (.pushLoad v a), phase := .pushing todo }
  | pushJoin {s : PushThenPop ι T} (hphase : s.phase = .pushing 0)
      (hidle : ∀ t, s.st.pc t = .idle) : Step n s none { s with phase := .popping n }
  | pop {s : PushThenPop ι T} {t : ι} {k : ℕ} (hphase : s.phase = .popping (k + 1))
      (hpc : s.st.pc t = .idle) :
      Step n s (some (t, .tau))
        { s with st := s.st.setPc t (.popTest s.st.head), phase := .popping k }
  | popJoin {s : PushThenPop ι T} (hphase : s.phase = .popping 0)
      (hidle : ∀ t, s.st.pc t = .idle) : Step n s none { s with phase := .done }
  | task {s : PushThenPop ι T} {e : ι × Event T} {st : Stack ι T} (hpc : s.st.pc e.1 ≠ .idle)
      (hst : Lockfree.Step s.st e st) :
      Step n s (some e) { s with st := st, returned := s.returned ++ assigned e.2 }

end

/-! ## 2. Where the values are -/

/-- The value a thread is pushing. -/
def pushingValue : Pc T → Multiset T
  | .pushLoad v _ | .pushCas v _ => {v}
  | _ => 0

@[simp] theorem pushingValue_idle : pushingValue (.idle : Pc T) = 0 := rfl
@[simp] theorem pushingValue_pushLoad (v : T) (a : Addr) : pushingValue (.pushLoad v a) = {v} := rfl
@[simp] theorem pushingValue_pushCas (v : T) (a : Addr) : pushingValue (.pushCas v a) = {v} := rfl

/-- Whether a thread has yet to take a value off. -/
def taking : Pc T → ℕ
  | .popTest _ | .popCas _ _ => 1
  | _ => 0

@[simp] theorem taking_idle : taking (.idle : Pc T) = 0 := rfl
@[simp] theorem taking_popTest (p : Option Addr) : taking (.popTest p : Pc T) = 1 := rfl
@[simp] theorem taking_popCas (a : Addr) (d : Option Addr) : taking (.popCas a d : Pc T) = 1 := rfl
@[simp] theorem taking_popData (p : Option Addr) : taking (.popData p : Pc T) = 0 := rfl

/-- The thread is in a call of `push`, or in none. -/
def ofPush : Pc T → Prop
  | .idle | .pushLoad _ _ | .pushCas _ _ => True
  | _ => False

/-- The thread is in a call of `pop` with a snapshot that is not null, or in none. -/
def ofPop : Pc T → Prop
  | .idle | .popTest (some _) | .popCas _ _ | .popData (some _) => True
  | _ => False

variable [Fintype ι]

/-- Where the values `vs` are, by phase. -/
def Places (vs : Multiset T) (s : PushThenPop ι T) : Phase T → Prop
  | .pushing todo => (∀ t, ofPush (s.st.pc t)) ∧ s.returned = [] ∧
      ∃ l, s.st.Abs l ∧ (l : Multiset T) + (∑ t, pushingValue (s.st.pc t)) + todo = vs
  | .popping k => (∀ t, ofPop (s.st.pc t)) ∧
      ∃ l, s.st.Abs l ∧ l.length = k + ∑ t, taking (s.st.pc t) ∧
        (l : Multiset T) + (∑ t, (s.st.pending t : Multiset T)) + (s.returned : Multiset T) = vs
  | .done => (∀ t, s.st.pc t = .idle) ∧ s.st.Abs [] ∧ (s.returned : Multiset T) = vs

/-- The invariant of the test. -/
structure Inv (vs : Multiset T) (s : PushThenPop ι T) : Prop where
  stack : Lockfree.Inv s.st
  places : Places vs s s.phase

variable {vs : Multiset T} {s s' : PushThenPop ι T} {st : Stack ι T} {t : ι}

/-- While no thread is in a call none has a value to assign. -/
theorem sum_pending_of_idle (hidle : ∀ t, st.pc t = .idle) :
    (∑ t, (st.pending t : Multiset T)) = 0 := by
  refine Finset.sum_eq_zero fun t _ => ?_
  rw [Stack.pending, hidle t]
  rfl

omit [Fintype ι] in
/-- A thread that has taken nothing has nothing to assign. -/
theorem pending_of_taken (h : (st.pc t).taken? = none) : st.pending t = [] := by
  rw [Stack.pending, h]
  rfl

omit [Fintype ι] in
theorem pending_of_popData {a : Addr} (h : st.pc t = .popData (some a)) :
    st.pending t = [st.data a] := by
  rw [Stack.pending, h]
  rfl

omit [Fintype ι] in
/-- The head of a stack with a value is not null. -/
theorem head_ne_none {l : List T} (habs : st.Abs l) (hl : 0 < l.length) : st.head ≠ none := by
  intro hnull
  obtain ⟨as, has, rfl⟩ := habs
  rw [hnull] at has
  obtain rfl := chain_none_iff.mp has
  exact absurd hl (by simp)

omit [Fintype ι] in
theorem ofPop_popTest_head {p : Option Addr} (hp : p ≠ none) : ofPop (.popTest p : Pc T) := by
  cases p with
  | none => exact absurd rfl hp
  | some a => trivial

variable [DecidableEq ι]

/-! ## 3. The tasks that push -/

/-- A step of a task that pushes. -/
theorem push_task {e : ι × Event T} {todo : Multiset T} (hI : Lockfree.Inv s.st)
    (hP : Places vs s (.pushing todo)) (hpc : s.st.pc e.1 ≠ .idle) (hst : Lockfree.Step s.st e st) :
    Places vs { s with st := st, returned := s.returned ++ assigned e.2 } (.pushing todo) := by
  obtain ⟨hof, hret, l, habs, hsum⟩ := hP
  have hkeep : ∀ {p : Pc T}, st.pc = Function.update s.st.pc e.1 p → ofPush p →
      ∀ t, ofPush (st.pc t) := by
    intro p hp hofp
    rw [hp, Function.forall_update_iff s.st.pc fun _ q => ofPush q]
    exact ⟨hofp, fun t _ => hof t⟩
  have hofe := hof e.1
  cases hst with
  | makeShared _ _ hidle | popLoad hidle | sizeLoad hidle => exact absurd hidle hpc
  | @pushLoad t v a hp =>
    have hun := hI.unshared t a (by rw [hp]; rfl)
    have hval := sum_update_add s.st.pc pushingValue t (.pushCas v a)
    rw [hp] at hval
    exact ⟨hkeep rfl trivial, by simp [assigned, hret], l, abs_storeNext hun habs,
      by rw [← hsum, ← add_right_cancel hval]; rfl⟩
  | @pushCasFail t v a hp =>
    have hun := hI.unshared t a (by rw [hp]; rfl)
    have hval := sum_update_add s.st.pc pushingValue t (.pushCas v a)
    rw [hp] at hval
    exact ⟨hkeep rfl trivial, by simp [assigned, hret], l, abs_storeNext hun habs,
      by rw [← hsum, ← add_right_cancel hval]; rfl⟩
  | @pushCasOk t v a hp heq =>
    have hval := sum_update_add s.st.pc pushingValue t .idle
    simp only [hp, pushingValue_pushCas, pushingValue_idle, add_zero] at hval
    refine ⟨hkeep rfl trivial, by simp [assigned, hret], v :: l, abs_push hI hp heq habs, ?_⟩
    change ((v :: l : List T) : Multiset T)
      + (∑ u, pushingValue (Function.update s.st.pc t .idle u)) + todo = vs
    rw [← hsum, ← hval, ← Multiset.cons_coe, ← Multiset.singleton_add]
    abel
  | popTestNull hp | popTestNext hp | popCasOk hp _ | popCasFail hp | popData hp | sizeNext hp
  | sizeReturn hp =>
    rw [hp] at hofe
    exact hofe.elim

/-- A task that pushes begins. -/
theorem push_begin {v : T} {a : Addr} {todo : Multiset T}
    (hP : Places vs s (.pushing (v ::ₘ todo))) (hpc : s.st.pc t = .idle)
    (hfree : ¬ s.st.Live a) :
    Places vs { s with
      st := (s.st.setNode a ⟨v, none⟩).setPc t (.pushLoad v a), phase := .pushing todo }
      (.pushing todo) := by
  obtain ⟨hof, hret, l, habs, hsum⟩ := hP
  have hval := sum_update_add s.st.pc pushingValue t (.pushLoad v a)
  simp only [hpc, pushingValue_pushLoad, pushingValue_idle, add_zero] at hval
  refine ⟨?_, hret, l, abs_setNode hfree habs, ?_⟩
  · exact (Function.forall_update_iff s.st.pc fun _ q => ofPush q).mpr ⟨trivial, fun u _ => hof u⟩
  · change (l : Multiset T) + (∑ u, pushingValue (Function.update s.st.pc t (.pushLoad v a) u))
      + todo = vs
    rw [hval, ← hsum, ← Multiset.singleton_add]
    abel

/-! ## 4. The tasks that pop -/

/-- A step that moves thread `t` in the count of the values that are still to be taken. -/
theorem sum_taking_update (p : Pc T) :
    (∑ u, taking (Function.update s.st.pc t p u)) + taking (s.st.pc t)
      = (∑ u, taking (s.st.pc u)) + taking p :=
  sum_update_add s.st.pc taking t p

/-- What a step does to the values that have been taken and not yet assigned. -/
theorem sum_pending {e : ι × Event T} (hst : Lockfree.Step s.st e st) :
    (∑ u, (st.pending u : Multiset T)) + s.st.pending e.1
      = (∑ u, (s.st.pending u : Multiset T)) + st.pending e.1 :=
  sum_add_of_ne e.1 fun _ hu => congrArg _ (pending_of_ne hst hu)

omit [DecidableEq ι] in
/-- A thread that has yet to take a value off finds one. -/
theorem head_ne_none_of_taking {l : List T} {k : ℕ} (habs : s.st.Abs l)
    (hlen : l.length = k + ∑ u, taking (s.st.pc u)) (ht : taking (s.st.pc t) = 1) :
    s.st.head ≠ none := by
  have hle := Finset.single_le_sum (f := fun u => taking (s.st.pc u)) (fun _ _ => Nat.zero_le _)
    (Finset.mem_univ t)
  exact head_ne_none habs (by omega)

/-- A step of a task that pops. -/
theorem pop_task {e : ι × Event T} {k : ℕ} (hI : Lockfree.Inv s.st)
    (hP : Places vs s (.popping k)) (hpc : s.st.pc e.1 ≠ .idle) (hst : Lockfree.Step s.st e st) :
    Places vs { s with st := st, returned := s.returned ++ assigned e.2 } (.popping k) := by
  obtain ⟨hof, l, habs, hlen, hsum⟩ := hP
  have hkeep : ∀ {p : Pc T}, st.pc = Function.update s.st.pc e.1 p → ofPop p →
      ∀ t, ofPop (st.pc t) := by
    intro p hp hofp
    rw [hp, Function.forall_update_iff s.st.pc fun _ q => ofPop q]
    exact ⟨hofp, fun t _ => hof t⟩
  have hofe := hof e.1
  have hpending := sum_pending hst
  cases hst with
  | makeShared _ _ hidle | popLoad hidle | sizeLoad hidle => exact absurd hidle hpc
  | pushLoad hp | pushCasOk hp _ | pushCasFail hp | popTestNull hp | sizeNext hp | sizeReturn hp =>
    rw [hp] at hofe
    exact hofe.elim
  | @popTestNext t a hp =>
    have hval := sum_taking_update (s := s) (t := t) (.popCas a (s.st.next a))
    simp only [hp, taking_popTest, taking_popCas] at hval
    rw [pending_of_taken (by rw [hp]; rfl), pending_of_taken (by simp [Stack.setPc, Pc.taken?])]
      at hpending
    refine ⟨hkeep rfl trivial, l, habs, ?_, ?_⟩
    · change l.length = k + ∑ u, taking (Function.update s.st.pc t _ u)
      omega
    · rw [← hsum, ← add_right_cancel hpending]
      simp [assigned]
  | @popCasFail t a d hp =>
    have hval := sum_taking_update (s := s) (t := t) (.popTest s.st.head)
    simp only [hp, taking_popTest, taking_popCas] at hval
    have hhead := head_ne_none_of_taking (t := t) habs hlen (by rw [hp]; rfl)
    rw [pending_of_taken (by rw [hp]; rfl), pending_of_taken (by simp [Stack.setPc, Pc.taken?])]
      at hpending
    refine ⟨hkeep rfl (ofPop_popTest_head hhead), l, habs, ?_, ?_⟩
    · change l.length = k + ∑ u, taking (Function.update s.st.pc t _ u)
      omega
    · rw [← hsum, ← add_right_cancel hpending]
      simp [assigned]
  | @popCasOk t a d hp heq =>
    have hval := sum_taking_update (s := s) (t := t) (.popData (some a))
    simp only [hp, taking_popCas, taking_popData] at hval
    obtain ⟨rest, rfl, hrest⟩ := abs_pop hI hp heq habs
    -- the value goes from the stack into the hands of the thread
    rw [pending_of_taken (by rw [hp]; rfl),
      pending_of_popData (a := a) (by simp [Stack.setPc])] at hpending
    refine ⟨hkeep rfl trivial, rest, hrest, ?_, ?_⟩
    · change rest.length = k + ∑ u, taking (Function.update s.st.pc t _ u)
      rw [List.length_cons] at hlen
      omega
    · rw [Multiset.coe_nil, add_zero, Multiset.coe_singleton] at hpending
      rw [← hsum, hpending, ← Multiset.cons_coe (s.st.data a) rest, ← Multiset.singleton_add]
      simp only [assigned, List.append_nil]
      change (rest : Multiset T) + (_ + {s.st.data a}) + _ = _
      abel
  | @popData t a hp =>
    have hval := sum_taking_update (s := s) (t := t) .idle
    simp only [hp, taking_idle, taking_popData] at hval
    rw [pending_of_popData hp, pending_of_taken (by simp [Stack.setPc, Pc.taken?])] at hpending
    refine ⟨hkeep rfl trivial, l, habs, ?_, ?_⟩
    · change l.length = k + ∑ u, taking (Function.update s.st.pc t _ u)
      omega
    · rw [Multiset.coe_nil, add_zero] at hpending
      rw [← hsum, ← hpending, ← Multiset.coe_add]
      simp only [assigned]
      abel

/-- A task that pops begins. -/
theorem pop_begin {k : ℕ} (hP : Places vs s (.popping (k + 1))) (hpc : s.st.pc t = .idle) :
    Places vs { s with st := s.st.setPc t (.popTest s.st.head), phase := .popping k }
      (.popping k) := by
  obtain ⟨hof, l, habs, hlen, hsum⟩ := hP
  have hval := sum_taking_update (s := s) (t := t) (.popTest s.st.head)
  have hpending := sum_pending (Lockfree.Step.popLoad hpc)
  have hhead := head_ne_none habs (by omega)
  rw [pending_of_taken (by rw [hpc]; rfl), pending_of_taken (by simp [Stack.setPc, Pc.taken?])]
    at hpending
  rw [hpc] at hval
  refine ⟨?_, l, habs, ?_, ?_⟩
  · exact (Function.forall_update_iff s.st.pc fun _ q => ofPop q).mpr
      ⟨ofPop_popTest_head hhead, fun u _ => hof u⟩
  · change l.length = k + ∑ u, taking (Function.update s.st.pc t _ u)
    simp only [taking_idle, taking_popTest] at hval
    omega
  · rw [← hsum, ← add_right_cancel hpending]

/-! ## 5. The two `join`s -/

omit [DecidableEq ι] in
/-- The first `join` returns: all values are on the stack. -/
theorem push_join (hP : Places vs s (.pushing 0)) (hidle : ∀ t, s.st.pc t = .idle) :
    ∃ l, s.st.Abs l ∧ (l : Multiset T) = vs := by
  obtain ⟨-, -, l, habs, hsum⟩ := hP
  have hnone : (∑ t, pushingValue (s.st.pc t)) = 0 :=
    Finset.sum_eq_zero fun t _ => by rw [hidle t]; rfl
  rw [hnone, add_zero, add_zero] at hsum
  exact ⟨l, habs, hsum⟩

omit [DecidableEq ι] in
/-- The second pool begins with all values on the stack. -/
theorem places_popping (hP : Places vs s (.pushing 0)) (hidle : ∀ t, s.st.pc t = .idle) :
    Places vs { s with phase := .popping vs.card } (.popping vs.card) := by
  obtain ⟨l, habs, hl⟩ := push_join hP hidle
  have hnone : (∑ t, taking (s.st.pc t)) = 0 :=
    Finset.sum_eq_zero fun t _ => by rw [hidle t]; rfl
  refine ⟨fun t => ?_, l, habs, ?_, ?_⟩
  · change ofPop (s.st.pc t)
    rw [hidle t]
    trivial
  · change l.length = vs.card + ∑ t, taking (s.st.pc t)
    rw [hnone, add_zero, ← hl, Multiset.coe_card]
  · change (l : Multiset T) + (∑ t, (s.st.pending t : Multiset T)) + (s.returned : Multiset T) = vs
    rw [sum_pending_of_idle hidle, hP.2.1, hl, Multiset.coe_nil, add_zero, add_zero]

omit [DecidableEq ι] in
/-- The second `join` returns: the stack is empty, and every value has been assigned. -/
theorem places_done (hP : Places vs s (.popping 0)) (hidle : ∀ t, s.st.pc t = .idle) :
    Places vs { s with phase := .done } .done := by
  obtain ⟨-, l, habs, hlen, hsum⟩ := hP
  have hnone : (∑ t, taking (s.st.pc t)) = 0 :=
    Finset.sum_eq_zero fun t _ => by rw [hidle t]; rfl
  rw [hnone] at hlen
  obtain rfl := List.length_eq_zero_iff.mp hlen
  rw [sum_pending_of_idle hidle, Multiset.coe_nil, add_zero, zero_add] at hsum
  exact ⟨hidle, habs, hsum⟩

/-! ## 6. Every step, every run -/

variable {n : ℕ}

omit [Fintype ι] in
/-- A step of a task is a step on the stack. -/
theorem Step.stack {e : ι × Event T} (hst : Step n s (some e) s') :
    Lockfree.Step s.st e s'.st := by
  cases hst with
  | push _ hpc hfree => exact .makeShared _ _ hpc hfree
  | pop _ hpc => exact .popLoad hpc
  | task _ hst => exact hst

/-- **Every step keeps the invariant.** -/
theorem Inv.step {e : Option (ι × Event T)} (h : Inv vs s) (hst : Step vs.card s e s') :
    Inv vs s' := by
  obtain ⟨hI, hP⟩ := h
  cases hst with
  | push hphase hpc hfree =>
    rw [hphase] at hP
    exact ⟨hI.step (.makeShared _ _ hpc hfree), push_begin hP hpc hfree⟩
  | pushJoin hphase hidle =>
    rw [hphase] at hP
    exact ⟨hI, places_popping hP hidle⟩
  | pop hphase hpc =>
    rw [hphase] at hP
    exact ⟨hI.step (.popLoad hpc), pop_begin hP hpc⟩
  | popJoin hphase hidle =>
    rw [hphase] at hP
    exact ⟨hI, places_done hP hidle⟩
  | @task e st hpc hst =>
    refine ⟨hI.step hst, ?_⟩
    change Places vs { s with st := st, returned := s.returned ++ assigned e.2 } s.phase
    cases hphase : s.phase with
    | pushing todo =>
      rw [hphase] at hP
      exact push_task hI hP hpc hst
    | popping k =>
      rw [hphase] at hP
      exact pop_task hI hP hpc hst
    | done =>
      rw [hphase] at hP
      exact absurd (hP.1 e.1) hpc

omit [DecidableEq ι] in
theorem Inv.initial {st : Stack ι T} (h₀ : st.Initial) : Inv vs (init st vs) := by
  refine ⟨Lockfree.Inv.initial h₀, fun t => ?_, rfl, [], ?_, ?_⟩
  · change ofPush (st.pc t)
    rw [h₀.idle t]
    trivial
  · exact ⟨[], by rw [PushThenPop.init, h₀.head]; exact Chain.null, rfl⟩
  · have hnone : (∑ t, pushingValue (st.pc t)) = 0 :=
      Finset.sum_eq_zero fun t _ => by rw [h₀.idle t]; rfl
    change ((([] : List T) : Multiset T)) + (∑ t, pushingValue (st.pc t)) + vs = vs
    rw [hnone, Multiset.coe_nil, add_zero, zero_add]

/-- **Every reachable state satisfies the invariant.** -/
theorem Inv.run {tr : List (Option (ι × Event T))} (h₀ : st.Initial)
    (hrun : Run (Step vs.card) (init st vs) tr s) : Inv vs s :=
  hrun.invariant (fun _ _ _ h hst => h.step hst) (Inv.initial h₀)

/-! ## 7. No null pointer, and always a next step -/

omit [DecidableEq ι] in
/-- A thread is between two calls, or in one of `push` or `pop` that meets no null pointer. -/
theorem Places.cases {ph : Phase T} (hP : Places vs s ph) (t : ι) :
    s.st.pc t = .idle ∨
      (s.st.pc t).inCall = true ∧ s.st.pc t ≠ .popTest none ∧ s.st.pc t ≠ .popData none := by
  cases ph with
  | pushing todo =>
    have hof := hP.1 t
    cases hpc : s.st.pc t with
    | idle => exact Or.inl rfl
    | pushLoad | pushCas => exact Or.inr ⟨rfl, by simp, by simp⟩
    | popTest | popCas | popData | size =>
      rw [hpc] at hof
      exact hof.elim
  | popping k =>
    have hof := hP.1 t
    cases hpc : s.st.pc t with
    | idle => exact Or.inl rfl
    | popCas => exact Or.inr ⟨rfl, by simp, by simp⟩
    | popTest p | popData p =>
      rw [hpc] at hof
      cases p with
      | none => exact hof.elim
      | some a => exact Or.inr ⟨rfl, by simp, by simp⟩
    | pushLoad | pushCas | size =>
      rw [hpc] at hof
      exact hof.elim
  | done => exact Or.inl (hP.1 t)

omit [DecidableEq ι] in
/-- **No thread holds a null `old_head`.** -/
theorem Inv.noNull (h : Inv vs s) : NoNull s.st := by
  intro t
  rcases h.places.cases t with hidle | ⟨-, htest, hdata⟩
  · rw [hidle]
    exact ⟨by simp, by simp⟩
  · exact ⟨htest, hdata⟩

omit [DecidableEq ι] in
/-- `make_shared` finds an address that nothing refers to. -/
theorem exists_free (hI : Lockfree.Inv st) : ∃ a, ¬ st.Live a := by
  have hroots : {a | st.Root a}.Finite := by
    have hsub : {a | st.Root a} ⊆ {a | a ∈ st.head.toList} ∪ ⋃ t, {a | a ∈ (st.pc t).refs} := by
      rintro a (ha | ⟨t, ht⟩)
      · exact Or.inl (Option.mem_toList.mpr ha)
      · exact Or.inr (Set.mem_iUnion.mpr ⟨t, ht⟩)
    refine (Set.Finite.union ?_ ?_).subset hsub
    · exact st.head.toList.finite_toSet
    · exact Set.finite_iUnion fun t => (st.pc t).refs.finite_toSet
  have hfin := finite_live hroots fun a ha => hI.chain a (.root ha)
  exact hfin.exists_notMem

/-- **Before the test is done there is a next step**, and one that is no failure without reason. -/
theorem Inv.exists_step [Nonempty ι] (h : Inv vs s) (hphase : s.phase ≠ .done) :
    ∃ e s', Step vs.card s e s' ∧ ∀ t, e ≠ some (t, .failed true) := by
  by_cases hidle : ∀ t, s.st.pc t = .idle
  · obtain ⟨t⟩ := ‹Nonempty ι›
    cases hph : s.phase with
    | pushing todo =>
      induction todo using Multiset.induction with
      | empty => exact ⟨none, _, .pushJoin hph hidle, by simp⟩
      | cons v todo _ =>
        obtain ⟨a, ha⟩ := exists_free h.stack
        exact ⟨some (t, .tau), _, .push hph (hidle t) ha, by simp⟩
    | popping k =>
      cases k with
      | zero => exact ⟨none, _, .popJoin hph hidle, by simp⟩
      | succ k => exact ⟨some (t, .tau), _, .pop hph (hidle t), by simp⟩
    | done => exact absurd hph hphase
  · obtain ⟨t, ht⟩ := not_forall.mp hidle
    obtain ⟨hcall, -, hdata⟩ := (h.places.cases t).resolve_left ht
    obtain ⟨e, st, ⟨rfl, hspur, -⟩, hst⟩ := exists_alone_step hcall hdata
    refine ⟨some e, _, .task ht hst, ?_⟩
    rintro u heq
    exact hspur (by rw [Option.some.inj heq])

/-! ## 8. How many steps are left -/

/-- The steps a thread takes in its call, where each success of a compare-exchange is charged with
two for every other of the `c + 1` threads. -/
def weight (c : ℕ) : Pc T → ℕ
  | .idle | .size _ _ => 0
  | .popData _ => 1
  | .pushCas _ _ => 2 * c + 1
  | .pushLoad _ _ => 2 * c + 2
  | .popCas _ _ => 2 * c + 2
  | .popTest _ => 2 * c + 3

/-- The steps of the tasks that have not begun, with the `join`s. -/
def phaseLeft (n c : ℕ) : Phase T → ℕ
  | .pushing todo => todo.card * (2 * c + 3) + n * (2 * c + 4) + 2
  | .popping k => k * (2 * c + 4) + 1
  | .done => 0

/-- The steps that are left, where none fails without reason. -/
def left (n : ℕ) (s : PushThenPop ι T) : ℕ :=
  2 * s.st.stale.card + (∑ t, weight (Fintype.card ι - 1) (s.st.pc t)) +
    phaseLeft n (Fintype.card ι - 1) s.phase

omit [Fintype ι] in
/-- **What a step does to the weight of its thread.** -/
theorem weight_step {e : ι × Event T} {c : ℕ} {st' : Stack ι T} (hst : Lockfree.Step st e st')
    (hcall : (st.pc e.1).inCall = true) :
    weight c (st'.pc e.1) + 1 + 2 * c * (if succeeded e then 1 else 0) ≤
      weight c (st.pc e.1) + 2 * (if failed e then 1 else 0) := by
  cases hst with
  | makeShared _ _ hpc | popLoad hpc | sizeLoad hpc | sizeNext hpc | sizeReturn hpc =>
    rw [hpc] at hcall
    exact absurd hcall (by simp [Pc.inCall])
  | pushLoad hpc | pushCasOk hpc | pushCasFail hpc | popTestNull hpc | popTestNext hpc
  | popCasOk hpc | popCasFail hpc | popData hpc =>
    simp [hpc, Stack.setPc, Stack.setHead, weight, succeeded, failed] <;> omega

/-- What a step of one thread does to the weights of all. -/
theorem sum_weight_step {e : ι × Event T} {c : ℕ} (hst : Lockfree.Step s.st e st) :
    (∑ t, weight c (st.pc t)) + weight c (s.st.pc e.1)
      = (∑ t, weight c (s.st.pc t)) + weight c (st.pc e.1) :=
  sum_add_of_ne e.1 fun _ hu => congrArg _ (hst.pc_of_ne hu)

/-- **Every step takes from what is left**, but for a failure without reason. -/
theorem left_step {e : Option (ι × Event T)} (h : Inv vs s) (hst : Step vs.card s e s')
    (hspur : ∀ t, e ≠ some (t, .failed true)) : left vs.card s' < left vs.card s := by
  cases e with
  | none =>
    cases hst with
    | pushJoin hphase hidle =>
      simp only [left, hphase, phaseLeft, Multiset.card_zero]
      omega
    | popJoin hphase hidle =>
      simp only [left, hphase, phaseLeft]
      omega
  | some e =>
    have hstale := h.stack.stale_step hst.stack fun he => hspur e.1 (by rw [← he])
    have hsum := sum_weight_step (c := Fintype.card ι - 1) hst.stack
    unfold left
    generalize Fintype.card ι - 1 = c at hstale hsum ⊢
    cases hst with
    | push hphase hpc hfree =>
      rw [hphase]
      simp only [hpc, Stack.setPc, Function.update_self, weight, failed, succeeded, phaseLeft,
        Multiset.card_cons, Bool.false_eq_true, if_false, Nat.succ_mul] at hstale hsum ⊢
      omega
    | pop hphase hpc =>
      rw [hphase]
      simp only [hpc, Stack.setPc, Function.update_self, weight, failed, succeeded, phaseLeft,
        Bool.false_eq_true, if_false, Nat.succ_mul] at hstale hsum ⊢
      omega
    | task hpc hst =>
      have hown := weight_step (c := c) hst (h.places.cases e.1 |>.resolve_left hpc).1
      rw [Nat.mul_assoc] at hown
      dsimp only at hstale hsum ⊢
      omega

/-- A run without failures without reason is bounded. -/
theorem length_le [Nonempty ι] {tr : List (Option (ι × Event T))} (h₀ : st.Initial)
    (hrun : Run (Step vs.card) (init st vs) tr s)
    (hspur : ∀ t, some (t, .failed true) ∉ tr) :
    tr.length ≤ vs.card * (4 * Fintype.card ι + 3) + 2 := by
  have hrestrict := hrun.restrict (C := fun e => ∀ t, e ≠ some (t, .failed true)) (by
    rintro e hmem t rfl
    exact hspur t hmem)
  have hle := hrestrict.length_add_le (I := Inv vs) (m := left vs.card)
    (fun _ _ _ h hst => h.step hst.2) (fun _ _ _ h hst => left_step h hst.2 hst.1)
    (Inv.initial h₀)
  have hstale : st.stale = ∅ := by
    refine Finset.eq_empty_of_forall_notMem fun t ht => ?_
    exact not_stale_of_none (by simp [Stack.expected?, h₀.idle t]) (mem_stale.mp ht)
  have hweight : (∑ t, weight (Fintype.card ι - 1) (st.pc t)) = 0 :=
    Finset.sum_eq_zero fun t _ => by rw [h₀.idle t]; rfl
  have hleft : left vs.card (init st vs) = vs.card * (4 * Fintype.card ι + 3) + 2 := by
    obtain ⟨c, hc⟩ := Nat.exists_eq_succ_of_ne_zero (Fintype.card_ne_zero (α := ι))
    simp only [left, init, hstale, hweight, phaseLeft, Finset.card_empty]
    rw [hc, Nat.succ_sub_one, Nat.succ_eq_add_one]
    ring
  omega

omit [DecidableEq ι] [Fintype ι] in
/-- A stack with no values has a null head. -/
theorem head_of_abs_nil (h : st.Abs []) : st.head = none := by
  obtain ⟨as, has, hnil⟩ := h
  obtain rfl := List.map_eq_nil_iff.mp hnil.symm
  cases hhead : st.head with
  | none => rfl
  | some a =>
    rw [hhead] at has
    obtain ⟨r, hr, -⟩ := chain_some_iff.mp has
    exact absurd hr (by simp)

/-- **The test passes.**  Whatever the order of the steps of the threads of the two pools: no
thread reads through a null pointer; when the first `join` can return, the stack holds the values,
each once; when the second has returned, the stack is empty and the calls of `pop` have assigned
the values, each once.  Without failures without reason the test takes a bounded number of steps,
and until it is done there is a next one. -/
theorem push_then_pop [Nonempty ι] {tr : List (Option (ι × Event T))} (h₀ : st.Initial)
    (hrun : Run (Step vs.card) (init st vs) tr s) :
    NoNull s.st ∧
      (s.phase = .pushing 0 → (∀ t, s.st.pc t = .idle) →
        ∃ l, s.st.Abs l ∧ (l : Multiset T) = vs) ∧
      (s.phase = .done → s.st.head = none ∧ (s.returned : Multiset T) = vs) ∧
      ((∀ t, some (t, .failed true) ∉ tr) →
        tr.length ≤ vs.card * (4 * Fintype.card ι + 3) + 2) ∧
      (s.phase ≠ .done →
        ∃ e s', Step vs.card s e s' ∧ ∀ t, e ≠ some (t, .failed true)) := by
  have hI := Inv.run h₀ hrun
  refine ⟨hI.noNull, ?_, ?_, length_le h₀ hrun, hI.exists_step⟩
  · intro hphase hidle
    have hP := hI.places
    rw [hphase] at hP
    exact push_join hP hidle
  · intro hphase
    have hP := hI.places
    rw [hphase] at hP
    exact ⟨head_of_abs_nil hP.2.1, hP.2.2⟩

omit [Fintype ι] in
/-- A step of a thread that is at `p`. -/
theorem Step.task_of_pc {k : ℕ} {e : ι × Event T} {p : Pc T} (hpc : s.st.pc e.1 = p)
    (hp : p ≠ .idle) (hst : Lockfree.Step s.st e st) :
    Step k s (some e) { s with st := st, returned := s.returned ++ assigned e.2 } :=
  .task (hpc ▸ hp) hst

/-- Two threads and the values 7 and 8: each thread pushes and pops, and thread 1 fails once at
each, because thread 0 has been faster. -/
theorem push_then_pop_two :
    ∃ (tr : List (Option (Fin 2 × Event ℕ))) (s : PushThenPop (Fin 2) ℕ),
      Run (Step (Multiset.card {7, 8}))
        (init ⟨fun _ => ⟨0, none⟩, none, fun _ => .idle⟩ {7, 8}) tr s ∧
      some (1, .failed false) ∈ tr ∧ s.phase = .done ∧ s.st.head = none ∧
      (s.returned : Multiset ℕ) = {7, 8} ∧ tr.length ≤ 24 := by
  set st : Stack (Fin 2) ℕ := ⟨fun _ => ⟨0, none⟩, none, fun _ => .idle⟩ with hst
  have h₀ : st.Initial := ⟨rfl, fun _ => rfl⟩
  have hone := (Run.refl (s := init st {7, 8})).tail
    (Step.push (n := Multiset.card {7, 8}) (t := 0) rfl rfl (h₀.not_live 0))
  -- the only node so far is the one at 0
  have hfree : ¬ ((st.setNode 0 ⟨7, none⟩).setPc 0 (.pushLoad 7 0)).Live 1 := by
    intro hlive
    have hzero := hlive.least (P := (· = 0)) ?_ ?_
    · exact absurd hzero (by decide)
    · rintro a (hhead | hlocal)
      · exact absurd hhead nofun
      · rcases Fin.exists_fin_two.mp hlocal with h | h
        · exact List.mem_singleton.mp h
        · exact absurd h List.not_mem_nil
    · rintro a b rfl hnext
      exact absurd hnext nofun
  have hmade := hone.tail (Step.push (t := 1) (a := 1) rfl rfl hfree)
  have hloaded := (hmade.tail
    (Step.task_of_pc (e := (0, .tau)) (p := .pushLoad 7 0) rfl nofun (.pushLoad rfl))).tail
    (Step.task_of_pc (e := (1, .tau)) (p := .pushLoad 8 1) rfl nofun (.pushLoad rfl))
  have hpushed := ((hloaded.tail
    (Step.task_of_pc (e := (0, .pushed 7)) (p := .pushCas 7 0) rfl nofun (.pushCasOk rfl rfl))).tail
    (Step.task_of_pc (e := (1, .failed false)) (p := .pushCas 8 1) rfl nofun
      (.pushCasFail (v := 8) (a := 1) rfl))).tail
    (Step.task_of_pc (e := (1, .pushed 8)) (p := .pushCas 8 1) rfl nofun (.pushCasOk rfl rfl))
  have hread := (((hpushed.tail (Step.pushJoin rfl (Fin.forall_fin_two.mpr ⟨rfl, rfl⟩))).tail
    (Step.pop (t := 0) (k := 1) rfl rfl)).tail (Step.pop (t := 1) (k := 0) rfl rfl))
  have htested := (hread.tail
    (Step.task_of_pc (e := (0, .tau)) (p := .popTest (some 1)) rfl nofun (.popTestNext rfl))).tail
    (Step.task_of_pc (e := (1, .tau)) (p := .popTest (some 1)) rfl nofun (.popTestNext rfl))
  have htaken := (((htested.tail
    (Step.task_of_pc (e := (0, .popped 8)) (p := .popCas 1 (some 0)) rfl nofun
      (.popCasOk (a := 1) rfl rfl))).tail
    (Step.task_of_pc (e := (1, .failed false)) (p := .popCas 1 (some 0)) rfl nofun
      (.popCasFail (a := 1) rfl))).tail
    (Step.task_of_pc (e := (1, .tau)) (p := .popTest (some 0)) rfl nofun (.popTestNext rfl))).tail
    (Step.task_of_pc (e := (1, .popped 7)) (p := .popCas 0 none) rfl nofun
      (.popCasOk (a := 0) rfl rfl))
  have hdone := ((htaken.tail
    (Step.task_of_pc (e := (0, .returned 8)) (p := .popData (some 1)) rfl nofun
      (.popData (a := 1) rfl))).tail
    (Step.task_of_pc (e := (1, .returned 7)) (p := .popData (some 0)) rfl nofun
      (.popData (a := 0) rfl))).tail
    (Step.popJoin rfl (Fin.forall_fin_two.mpr ⟨rfl, rfl⟩))
  obtain ⟨-, -, hend, hlen, -⟩ := push_then_pop h₀ hdone
  refine ⟨_, _, hdone, by simp, rfl, (hend rfl).1, (hend rfl).2, hlen ?_⟩
  intro t
  simp

end PushThenPop

end CxxConcurrency.Lockfree
