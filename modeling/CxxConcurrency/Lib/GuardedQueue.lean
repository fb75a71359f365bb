/-
# Queues under a mutex

A deque can be asked whether it is empty, can be asked for its front, can lose its front and can
grow at its back; the front of the empty deque is not defined.  `GuardedQueue` is a class with
such a deque as its data: each method that is used adds an entry or removes one if there is one,
and does so when it runs alone.

The calls of a guarded queue, in the order in which they lock, are a run of the queue in which a
call is one step (`Serve`), and that queue is a `Fifo`.  This is `GuardedQueue.linear_of_run`, with
what follows for the entries that come out and for the calls that return nothing.
-/
import CxxConcurrency.Lib.Fifo
import CxxConcurrency.Lib.Monitor

namespace CxxConcurrency.Lib

/-! ## 1. The deque -/

variable {α : Type}

/-- The accesses to a deque. -/
inductive DequeOp (α : Type)
  | empty
  | front
  | popFront
  | emplaceBack (x : α)
  | clear

/-- What an access answers. -/
def DequeOp.Ans : DequeOp α → Type
  | .empty => Bool
  | .front => α
  | .popFront => Unit
  | .emplaceBack _ => Unit
  | .clear => Unit

/-- A deque, front first. -/
def deque (α : Type) : DataType (DequeOp α) DequeOp.Ans (List α) where
  run
    | .empty, d => some (d.isEmpty, d)
    | .front, [] => none
    | .front, x :: d => some (x, x :: d)
    | .popFront, [] => none
    | .popFront, _ :: d => some ((), d)
    | .emplaceBack x, d => some ((), d ++ [x])
    | .clear, _ => some ((), [])
  modifies
    | .empty => false
    | .front => false
    | .popFront => true
    | .emplaceBack _ => true
    | .clear => true

/-- What a method of a queue returns. -/
inductive Result (α : Type)
  | void
  | optional (o : Option α)

/-- The entry in it, if there is one. -/
def Result.value? : Result α → Option α
  | .void => none
  | .optional o => o

/-- A method of a class whose data is a deque. -/
abbrev DequeMethod (α : Type) := Method (DequeOp α) DequeOp.Ans (Result α)

/-! ## 2. The queue in which a call is one step -/

variable {ι κ : Type*} {adds : κ → Option α}

/-- A call takes effect at once, and returns what the label says; `adds` gives the entry that the
call adds, if it is one that adds. -/
inductive Serve (adds : κ → Option α) (q : Fifo α) : ι × κ × Result α → Fifo α → Prop
  | add {t : ι} {c : κ} {x : α} (hc : adds c = some x) : Serve adds q (t, c, .void) (q.push x)
  | remove {t : ι} {c : κ} {x : α} {q' : Fifo α} (hc : adds c = none)
      (hpop : q.pop? = some (x, q')) : Serve adds q (t, c, .optional (some x)) q'
  | none {t : ι} {c : κ} (hc : adds c = none) (hpop : q.pop? = none) :
      Serve adds q (t, c, .optional none) q

/-- The entries that the calls of a history add, in order. -/
def added (adds : κ → Option α) (h : List (ι × κ × Result α)) : List α :=
  h.filterMap fun e => adds e.2.1

/-- The entries that the calls of a history return, in order. -/
def removed (h : List (ι × κ × Result α)) : List α := h.filterMap fun e => e.2.2.value?

variable {h h₀ h₁ : List (ι × κ × Result α)} {e : ι × κ × Result α} {q q' : Fifo α}

theorem added_append_singleton : added adds (h ++ [e]) = added adds h ++ (adds e.2.1).toList := by
  rw [added, List.filterMap_append]
  cases hadds : adds e.2.1 <;> simp [added, hadds]

theorem removed_append_singleton : removed (h ++ [e]) = removed h ++ e.2.2.value?.toList := by
  rw [removed, List.filterMap_append]
  cases hvalue : e.2.2.value? <;> simp [removed, hvalue]

/-- What one call does to the logs. -/
theorem Serve.logs (hs : Serve adds q e q') :
    q'.added = q.added ++ (adds e.2.1).toList ∧ q'.removed = q.removed ++ e.2.2.value?.toList := by
  cases hs with
  | @add t c x hc => simp [hc, Result.value?]
  | @remove t c x q' hc hpop =>
    obtain ⟨-, hadded, hremoved⟩ := Fifo.pop?_eq_some hpop
    simp [hc, Result.value?, hadded, hremoved]
  | @none t c hc hpop => simp [hc, Result.value?]

/-- **The logs of the queue are those of the calls.** -/
theorem logs_of_serve (hrun : Run (Serve adds) Fifo.empty h q) :
    q.added = added adds h ∧ q.removed = removed h := by
  refine hrun.trace_invariant
    (I := fun h q => q.added = added adds h ∧ q.removed = removed h) ⟨rfl, rfl⟩ ?_
  rintro h q e q' - ⟨hadded, hremoved⟩ hs
  rw [added_append_singleton, removed_append_singleton, ← hadded, ← hremoved]
  exact hs.logs

/-- The entries returned are a prefix of those added. -/
theorem removed_prefix_of_serve (hrun : Run (Serve adds) Fifo.empty h q) :
    removed h <+: added adds h := by
  obtain ⟨hadded, hremoved⟩ := logs_of_serve hrun
  rw [← hadded, ← hremoved]
  exact q.removed_prefix_added

/-- A call returns nothing only when everything that was added has been removed. -/
theorem removed_eq_of_serve_none (hrun : Run (Serve adds) Fifo.empty (h₀ ++ e :: h₁) q)
    (he : e.2.2 = .optional none) : removed h₀ = added adds h₀ := by
  have hpre : h₀ ++ [e] <+: h₀ ++ e :: h₁ := ⟨h₁, by simp⟩
  obtain ⟨u, v, hu, hs⟩ := hrun.exists_step_of_prefix hpre
  obtain ⟨hadded, hremoved⟩ := logs_of_serve hu
  cases hs with
  | add hc => exact absurd he (by simp)
  | remove hc hpop => exact absurd he (by simp)
  | none hc hpop =>
    have hconserve := u.conserve
    rw [Fifo.pop?_eq_none_iff.mp hpop, List.append_nil] at hconserve
    rw [← hadded, ← hremoved, hconserve]

/-! ## 3. The class -/

/-- A class whose methods add to a deque and remove from it under a mutex. -/
structure GuardedQueue (κ : Type*) (α : Type) where
  method : κ → DequeMethod α
  /-- The entry a call adds, if it is one that adds. -/
  adds : κ → Option α
  /-- The calls that are made. -/
  Used : κ → Prop
  locks : ∀ c, Used c → (method c).locks = true
  /-- Alone, a call does what it does in one step. -/
  serves : ∀ c, Used c → ∀ (q : Fifo α) (P : Result α → List α → Prop),
    (∀ r q', Serve adds q ((), c, r) q' → P r q'.items) → (method c).body.wp (deque α) P q.items

/-- Who calls does not matter. -/
theorem Serve.of_caller {c : κ} {r : Result α} (t : ι) (hs : Serve adds q ((), c, r) q') :
    Serve adds q (t, c, r) q' := by
  cases hs with
  | add hc => exact .add hc
  | remove hc hpop => exact .remove hc hpop
  | none hc hpop => exact .none hc hpop

namespace GuardedQueue

/-- A method that adds `x`. -/
def add (x : α) : DequeMethod α := ⟨true, .op (.emplaceBack x) fun _ => .ret .void⟩

/-- A method that removes the front, if there is one. -/
def tryRemove : DequeMethod α where
  locks := true
  body := .op .empty fun (isEmpty : Bool) =>
    if isEmpty then .ret (.optional none)
    else .op .front fun (t : α) => .op .popFront fun _ => .ret (.optional (some t))

variable {P : Result α → List α → Prop}

theorem wp_add {x : α} {c : κ} (hc : adds c = some x)
    (hP : ∀ r q', Serve adds q ((), c, r) q' → P r q'.items) :
    (add x).body.wp (deque α) P q.items :=
  ⟨(), (q.push x).items, rfl, hP _ _ (.add hc)⟩

theorem wp_tryRemove {c : κ} (hc : adds c = none)
    (hP : ∀ r q', Serve adds q ((), c, r) q' → P r q'.items) :
    tryRemove.body.wp (deque α) P q.items := by
  cases hpop : q.pop? with
  | none =>
    have hitems := Fifo.pop?_eq_none_iff.mp hpop
    refine ⟨true, q.items, ?_, hP _ _ (.none hc hpop)⟩
    rw [hitems]
    rfl
  | some p =>
    obtain ⟨x, q'⟩ := p
    obtain ⟨hitems, -, -⟩ := Fifo.pop?_eq_some hpop
    rw [hitems]
    -- not empty, so the front is there to be copied and then to be popped
    exact ⟨false, x :: q'.items, rfl, x, x :: q'.items, rfl, (), q'.items, rfl,
      hP _ _ (.remove hc hpop)⟩

/-- The class whose methods are `add` and `tryRemove`. -/
def ofMethods (method : κ → DequeMethod α) (adds : κ → Option α) (Used : κ → Prop)
    (hmethod : ∀ c, Used c → method c = (adds c).elim tryRemove add) : GuardedQueue κ α where
  method := method
  adds := adds
  Used := Used
  locks c hc := by
    rw [hmethod c hc]
    cases adds c <;> rfl
  serves c hc q P hP := by
    rw [hmethod c hc]
    cases hadds : adds c with
    | none => exact wp_tryRemove hadds hP
    | some x => exact wp_add hadds hP

/-! ## 4. Any number of threads -/

variable [DecidableEq ι]

/-- A guarded queue with the threads that call its methods. -/
abbrev System (ι κ : Type*) (α : Type) :=
  Monitor ι κ (DequeOp α) DequeOp.Ans (Result α) (List α)

/-- A step in which a call, if one is made, is one that is used. -/
def Step (Q : GuardedQueue κ α) :
    System ι κ α → ι × Monitor.Event κ → System ι κ α → Prop :=
  Restrict (Monitor.Admits Q.Used) (Fires (Monitor.step (deque α) Q.method))

/-- What it is for a state to be that of a linearizable queue to which a call `c` adds `adds c`. -/
structure Linear (adds : κ → Option α) (s : System ι κ α) : Prop where
  /-- A thread at `front` or `popFront` has an entry there. -/
  nonempty : ∀ t c a next, (s.pc t).rest? = some (c, .op a next) →
    a = .front ∨ a = .popFront → s.data ≠ []
  /-- The calls return in the order in which they locked. -/
  order : ∃ pending, s.acquired = Monitor.calls s.returned ++ pending ∧ pending.length ≤ 1
  /-- In that order they are a run of the queue in which a call is one step. -/
  serves : ∃ q, Run (Serve adds) Fifo.empty s.returned q
  /-- The entries returned are a prefix of those added. -/
  fifo : removed s.returned <+: added adds s.returned
  /-- Where a call returned nothing, what had been added before it had been removed before it. -/
  none : ∀ h₀ e h₁, s.returned = h₀ ++ e :: h₁ → e.2.2 = .optional none →
    removed h₀ = added adds h₀

/-- What the mutex guards: the deque holds what the calls made one after the other leave. -/
def Guards (adds : κ → Option α) (d : List α) (h : List (ι × κ × Result α)) : Prop :=
  ∃ q, Run (Serve adds) Fifo.empty h q ∧ q.items = d

omit [DecidableEq ι] in
/-- Each method keeps what the mutex guards. -/
theorem wp_guards (Q : GuardedQueue κ α) {t : ι} {c : κ} {d : List α} (hc : Q.Used c)
    (hJ : Guards Q.adds d h) :
    (Q.method c).body.wp (deque α) (fun r d' => Guards Q.adds d' (h ++ [(t, c, r)])) d := by
  obtain ⟨q, hrun, rfl⟩ := hJ
  refine Q.serves c hc q _ ?_
  intro r q' hs
  exact ⟨q', hrun.tail (hs.of_caller t), rfl⟩

theorem inv_of_run (Q : GuardedQueue κ α) {es : List (ι × Monitor.Event κ)} {s : System ι κ α}
    (h : Run Q.Step (Monitor.init []) es s) :
    Monitor.Inv (deque α) Q.method (Guards Q.adds) s :=
  Monitor.Inv.run Q.locks ⟨Fifo.empty, Run.refl, rfl⟩ (fun _ _ _ _ hc hJ => Q.wp_guards hc hJ) h

/-- **A guarded queue is linearizable**, in every state that any interleaving reaches. -/
theorem linear_of_run (Q : GuardedQueue κ α) {es : List (ι × Monitor.Event κ)} {s : System ι κ α}
    (h : Run Q.Step (Monitor.init []) es s) : Linear Q.adds s := by
  have hI := Q.inv_of_run h
  obtain ⟨-, q, hserves, -⟩ := hI.last
  refine ⟨?_, hI.acquired_eq, ⟨q, hserves⟩, removed_prefix_of_serve hserves, ?_⟩
  · rintro t c a next hrest ha hnil
    obtain ⟨x, d, hrun⟩ := hI.defined hrest
    rw [hnil] at hrun
    rcases ha with rfl | rfl
    · exact absurd hrun (by simp [deque])
    · exact absurd hrun (by simp [deque])
  · intro h₀ e h₁ hsplit he
    rw [hsplit] at hserves
    exact removed_eq_of_serve_none hserves he

/-- Every state that any number of threads reach with the calls in `Used` is that of a linearizable
queue to which a call `c` adds `adds c`. -/
def Linearizable (method : κ → DequeMethod α) (Used : κ → Prop) (adds : κ → Option α) : Prop :=
  ∀ (ι : Type) [DecidableEq ι] (es : List (ι × Monitor.Event κ)) (s : System ι κ α),
    Run (Restrict (Monitor.Admits Used) (Fires (Monitor.step (deque α) method)))
      (Monitor.init []) es s → Linear adds s

theorem linearizable (Q : GuardedQueue κ α) : Linearizable Q.method Q.Used Q.adds :=
  fun _ _ _ _ h => Q.linear_of_run h

/-- A linearizable queue in an execution whose calls are in `Used`. -/
theorem Linearizable.exists_linear {ι : Type} [DecidableEq ι] {method : κ → DequeMethod α}
    {Used : κ → Prop} {adds : κ → Option α} {es : List (ι × Monitor.Event κ)}
    {r : List (ι × κ × Result α)} (hQ : Linearizable method Used adds)
    (hused : ∀ e ∈ es, ∀ c, e.2 = .call c → Used c)
    (hexec : (exec (Monitor.step (deque α) method) (Monitor.init []) es).map Monitor.returned
      = some r) :
    ∃ s, Run (Restrict (Monitor.Admits Used) (Fires (Monitor.step (deque α) method)))
      (Monitor.init []) es s ∧ s.returned = r ∧ Linear adds s := by
  obtain ⟨s, hs, hreturned⟩ := Option.map_eq_some_iff.mp hexec
  have hrun := (run_of_exec hs).restrict hused
  exact ⟨s, hrun, hreturned, hQ _ _ _ hrun⟩

end GuardedQueue

end CxxConcurrency.Lib
