/-
# From a mutex to a serial queue: `task_system/mutex_to_queue.cpp`

`StoreWithMutex::set` writes to its table at once.  `StoreWithQueue::set` enqueues a task that
does the same write when it is dequeued and invoked; the task captures the two parameters of its
`set` call by reference.

The serial queue guarantees the order: as long as no task is invoked after its call has returned,
the table is the one the mutex store has after the calls whose tasks have run
(`serial_queue_law`).  But `set` returns as soon as it has enqueued, its parameters end with the
call, and a task that is invoked later reads objects that are gone.  So the two stores agree on a
sequence of calls and drains exactly where no task is ever invoked (`queue_agrees_iff`).
-/
import CxxConcurrency.Lib.Fifo
import CxxConcurrency.Lib.Run
import Mathlib.Logic.Function.Basic

namespace CxxConcurrency.TaskSystem

open CxxConcurrency.Lib

/-! ## 1. The stores -/

/-- The content of a `std::unordered_map< std::string, std::string >`. -/
abbrev Table := String → Option String

/-- `tb.emplace( key, value )`: it inserts the pair unless the key is there. -/
def Table.emplace (tb : Table) (key value : String) : Table :=
  if (tb key).isSome then tb else Function.update tb key (some value)

/-- `struct StoreWithMutex`; each operation is one step, taken under the mutex. -/
structure StoreWithMutex where
  tb : Table

/-- `StoreWithMutex::set`. -/
def StoreWithMutex.set (s : StoreWithMutex) (key value : String) : StoreWithMutex :=
  { s with tb := s.tb.emplace key value }

/-- The store after a sequence of `set` calls. -/
def StoreWithMutex.setAll (s : StoreWithMutex) (passed : List (String × String)) :
    StoreWithMutex :=
  passed.foldl (fun s p => s.set p.1 p.2) s

/-- A by-value parameter of the `n`-th call of `StoreWithQueue::set`. -/
inductive Param
  | key (n : ℕ)
  | value (n : ℕ)
  deriving DecidableEq

/-- The closure `[ &key, &value, tb = &tb ]`: the two objects it refers to. -/
structure SetTask where
  key : Param
  value : Param

/-- `struct StoreWithQueue` and the parameters of the calls made on it. -/
structure StoreWithQueue where
  tb : Table
  q : Fifo SetTask
  /-- The parameter objects that are alive. -/
  params : Param → Option String
  /-- The pairs passed to the calls of `set` so far, in order. -/
  passed : List (String × String)
  /-- The pairs the invoked tasks have passed to `emplace`, in order. -/
  inserted : List (String × String)

namespace StoreWithQueue

def init : StoreWithQueue := ⟨fun _ => none, Fifo.empty, fun _ => none, [], []⟩

/-- `set( key, value )` is called: the parameters begin, and the closure is enqueued. -/
def set (s : StoreWithQueue) (key value : String) : StoreWithQueue :=
  { s with
    params := Function.update (Function.update s.params (.key s.passed.length) (some key))
      (.value s.passed.length) (some value)
    q := s.q.push ⟨.key s.passed.length, .value s.passed.length⟩
    passed := s.passed ++ [(key, value)] }

/-- The `n`-th call of `set` returns: its parameters end. -/
def ret (s : StoreWithQueue) (n : ℕ) : StoreWithQueue :=
  { s with params := Function.update (Function.update s.params (.key n) none) (.value n) none }

/-- `dequeue()`, and the invocation of the task it returns.  A task that refers to a parameter
that has ended has no next state; what `std::move` leaves in the parameters nobody reads. -/
def drain (s : StoreWithQueue) : Option StoreWithQueue :=
  match s.q.pop? with
  | none => some s
  | some (t, q) =>
    match s.params t.key, s.params t.value with
    | some key, some value =>
      some { s with q := q, tb := s.tb.emplace key value, inserted := s.inserted ++ [(key, value)] }
    | _, _ => none

/-- A step of the store's callers. -/
inductive Event
  | set (key value : String)
  | ret (n : ℕ)
  | drain

/-- One step. -/
def step (s : StoreWithQueue) : Event → Option StoreWithQueue
  | .set key value => some (s.set key value)
  | .ret n => some (s.ret n)
  | .drain => s.drain

/-! ## 2. The serial queue law -/

variable {s s' : StoreWithQueue} {es : List Event}

/-- The invariant of the deferred store: the queue holds the closures of the calls in order, a
parameter that is alive has the value passed, and the closures that have run did what the mutex
store does at once. -/
structure Inv (s : StoreWithQueue) : Prop where
  added : s.q.added = (List.range s.passed.length).map fun n => ⟨.key n, .value n⟩
  key : ∀ n k, s.params (.key n) = some k → s.passed[n]?.map Prod.fst = some k
  value : ∀ n v, s.params (.value n) = some v → s.passed[n]?.map Prod.snd = some v
  inserted : s.inserted = s.passed.take s.q.removed.length
  tb : s.tb = (StoreWithMutex.setAll ⟨fun _ => none⟩ s.inserted).tb

theorem Inv.init : Inv init where
  added := rfl
  key n k h := by simp [StoreWithQueue.init] at h
  value n v h := by simp [StoreWithQueue.init] at h
  inserted := rfl
  tb := rfl

/-- The task at the front is that of the oldest call whose task has not run. -/
theorem Inv.front (hI : Inv s) {t : SetTask} {q : Fifo SetTask} (hpop : s.q.pop? = some (t, q)) :
    t = ⟨.key s.q.removed.length, .value s.q.removed.length⟩ := by
  obtain ⟨hitems, -, -⟩ := Fifo.pop?_eq_some hpop
  have hfront : s.q.added[s.q.removed.length]? = some t := by
    rw [← s.q.conserve, hitems, List.getElem?_append_right le_rfl, Nat.sub_self]
    rfl
  rw [hI.added, List.getElem?_map] at hfront
  obtain ⟨n, hn, rfl⟩ := Option.map_eq_some_iff.mp hfront
  obtain ⟨hlt, hget⟩ := List.getElem?_eq_some_iff.mp hn
  rw [List.getElem_range] at hget
  rw [hget]

theorem removed_le_passed (hI : Inv s) : s.q.removed.length ≤ s.passed.length := by
  have hlen := congrArg List.length (s.q.conserve.trans hI.added)
  simp only [List.length_append, List.length_map, List.length_range] at hlen
  omega

/-- What is known of the pairs passed so far stays known. -/
theorem map_getElem?_append {β : Type} {l : List (String × String)} {p : String × String} {n : ℕ}
    {f : String × String → β} {b : β} (h : l[n]?.map f = some b) :
    (l ++ [p])[n]?.map f = some b := by
  obtain ⟨q, hq, rfl⟩ := Option.map_eq_some_iff.mp h
  rw [List.getElem?_append_left (List.getElem?_eq_some_iff.mp hq).1, hq, Option.map_some]

theorem Inv.set (hI : Inv s) (key value : String) : Inv (s.set key value) := by
  refine ⟨?_, ?_, ?_, ?_, hI.tb⟩
  · simp [StoreWithQueue.set, hI.added, List.range_succ]
  · intro n k hk
    by_cases hn : n = s.passed.length
    · subst hn
      simpa [StoreWithQueue.set, eq_comm] using hk
    · exact map_getElem?_append (hI.key n k (by simpa [StoreWithQueue.set, hn] using hk))
  · intro n v hv
    by_cases hn : n = s.passed.length
    · subst hn
      simpa [StoreWithQueue.set, eq_comm] using hv
    · exact map_getElem?_append (hI.value n v (by simpa [StoreWithQueue.set, hn] using hv))
  · change s.inserted = (s.passed ++ [(key, value)]).take s.q.removed.length
    rw [hI.inserted, List.take_append_of_le_length (removed_le_passed hI)]

theorem Inv.ret (hI : Inv s) (n : ℕ) : Inv (s.ret n) := by
  refine ⟨hI.added, fun i k hk => hI.key i k ?_, fun i v hv => hI.value i v ?_, hI.inserted,
    hI.tb⟩
  · by_cases hi : i = n
    · simp [StoreWithQueue.ret, hi] at hk
    · simpa [StoreWithQueue.ret, hi] using hk
  · by_cases hi : i = n
    · simp [StoreWithQueue.ret, hi] at hv
    · simpa [StoreWithQueue.ret, hi] using hv

theorem Inv.drain (hI : Inv s) (h : s.drain = some s') : Inv s' := by
  unfold StoreWithQueue.drain at h
  split at h
  · obtain rfl := Option.some.inj h
    exact hI
  · rename_i t q hpop
    split at h
    · rename_i key value hkey hvalue
      obtain rfl := Option.some.inj h
      obtain ⟨-, hadded, hremoved⟩ := Fifo.pop?_eq_some hpop
      obtain rfl := hI.front hpop
      -- the parameters read are those of the task's own call
      have hpair : s.passed[s.q.removed.length]? = some (key, value) := by
        obtain ⟨p, hp, hfst⟩ := Option.map_eq_some_iff.mp (hI.key _ _ hkey)
        have hsnd := hI.value _ _ hvalue
        rw [hp, Option.map_some, Option.some.injEq] at hsnd
        rw [hp, ← hfst, ← hsnd]
      have hinserted : s.inserted ++ [(key, value)] = s.passed.take q.removed.length := by
        rw [hremoved, List.length_append, List.length_singleton, List.take_add_one, hpair,
          hI.inserted]
        rfl
      refine ⟨hadded.trans hI.added, hI.key, hI.value, hinserted, ?_⟩
      change s.tb.emplace key value = _
      rw [hI.tb, StoreWithMutex.setAll, StoreWithMutex.setAll, List.foldl_append]
      rfl
    · exact absurd h (by simp)

/-- **Every step keeps the invariant.** -/
theorem Inv.step {e : Event} (h : s.step e = some s') (hI : Inv s) : Inv s' := by
  cases e with
  | set key value =>
    obtain rfl := Option.some.inj h
    exact hI.set key value
  | ret n =>
    obtain rfl := Option.some.inj h
    exact hI.ret n
  | drain => exact hI.drain h

/-- **The serial queue law.**  In every state reached without a read of a dead parameter, the
tasks that have run have inserted the pairs of their own calls, in the order of the calls, and
the table is the mutex store's after these calls. -/
theorem serial_queue_law (h : Run (Fires step) init es s) :
    s.inserted = s.passed.take s.q.removed.length ∧
      s.tb = (StoreWithMutex.setAll ⟨fun _ => none⟩ s.inserted).tb := by
  have hI : Inv s := h.invariant (fun _ _ _ hI hst => hI.step hst) Inv.init
  exact ⟨hI.inserted, hI.tb⟩

/-! ## 3. Calls that return before anything else happens -/

/-- A step of a sequence in which each call of `set` returns before the next step. -/
inductive Op
  | set (key value : String)
  | drain
  deriving DecidableEq

/-- The events of such a sequence, where `n` calls have been made before. -/
def events : ℕ → List Op → List Event
  | _, [] => []
  | n, .set key value :: ops => .set key value :: .ret n :: events (n + 1) ops
  | n, .drain :: ops => .drain :: events n ops

/-- The pairs passed to the calls of a sequence. -/
def passedBy (ops : List Op) : List (String × String) :=
  ops.filterMap fun
    | .set key value => some (key, value)
    | .drain => none

/-- The queue store agrees with the mutex store on the sequence: every task invoked reads objects
that are alive and inserts the pair of its own call, and once the queue is empty the table is
that of the mutex store. -/
def Agrees (ops : List Op) : Prop :=
  ∃ s, exec step init (events 0 ops) = some s ∧
    s.inserted = (passedBy ops).take s.q.removed.length ∧
    (s.q.items = [] → s.tb = (StoreWithMutex.setAll ⟨fun _ => none⟩ (passedBy ops)).tb)

/-- No drain step comes after a call of `set`. -/
def NoDrainAfterSet (ops : List Op) : Prop := ops.Pairwise fun a b => a ≠ .drain → b ≠ .drain

/-- When a call of `set` has returned, its parameters are gone. -/
theorem params_ret_set (hdead : ∀ p, s.params p = none) (key value : String) (p : Param) :
    ((s.set key value).ret s.passed.length).params p = none := by
  cases p with
  | key n => by_cases hn : n = s.passed.length <;> simp [set, ret, hn, hdead]
  | value n => by_cases hn : n = s.passed.length <;> simp [set, ret, hn, hdead]

theorem length_passed_set (key value : String) :
    ((s.set key value).ret s.passed.length).passed.length = s.passed.length + 1 :=
  List.length_append

/-- Calls alone leave everything to be done. -/
theorem exec_events_of_not_drain {ops : List Op} {s : StoreWithQueue} (hno : .drain ∉ ops) :
    ∃ s', exec step s (events s.passed.length ops) = some s' ∧ s'.inserted = s.inserted ∧
      s'.q.removed = s.q.removed ∧ s'.q.items.length = s.q.items.length + ops.length := by
  induction ops generalizing s with
  | nil => exact ⟨s, rfl, rfl, rfl, rfl⟩
  | cons op ops ih =>
    cases op with
    | drain => exact absurd List.mem_cons_self hno
    | set key value =>
      obtain ⟨s', hexec, hinserted, hremoved, hlen⟩ := ih
        (s := (s.set key value).ret s.passed.length) fun hmem => hno (List.mem_cons_of_mem _ hmem)
      rw [length_passed_set] at hexec
      refine ⟨s', hexec, hinserted, hremoved, ?_⟩
      rw [hlen, List.length_cons]
      change (s.q.items ++ [_]).length + _ = _
      rw [List.length_append, List.length_singleton]
      omega

/-- A drain after a call reads parameters that are gone. -/
theorem exec_events_of_drain {ops : List Op} {s : StoreWithQueue}
    (hdead : ∀ p, s.params p = none) (hne : s.q.items ≠ []) (hmem : .drain ∈ ops) :
    exec step s (events s.passed.length ops) = none := by
  induction ops generalizing s with
  | nil => exact absurd hmem List.not_mem_nil
  | cons op ops ih =>
    cases op with
    | drain =>
      have hdrain : s.drain = none := by
        unfold drain
        split
        · rename_i hpop
          exact absurd (Fifo.pop?_eq_none_iff.mp hpop) hne
        · split
          · rename_i hkey _
            rw [hdead] at hkey
            exact absurd hkey (by simp)
          · rfl
      simp [events, exec, step, hdrain]
    | set key value =>
      have hmem' : .drain ∈ ops := (List.mem_cons.mp hmem).resolve_left (by simp)
      have hrest := ih (s := (s.set key value).ret s.passed.length)
        (params_ret_set hdead key value) (by simp [set, ret]) hmem'
      rw [length_passed_set] at hrest
      exact hrest

/-- Drains of the empty queue do nothing. -/
theorem agrees_drain_cons (ops : List Op) : Agrees (.drain :: ops) ↔ Agrees ops := Iff.rfl

/-- After a call, the stores agree if and only if nothing is drained any more. -/
theorem agrees_set_cons (key value : String) (ops : List Op) :
    Agrees (.set key value :: ops) ↔ .drain ∉ ops := by
  constructor
  · rintro ⟨s, hexec, -, -⟩ hmem
    have hnone : exec step ((init.set key value).ret 0) (events 1 ops) = none :=
      exec_events_of_drain (params_ret_set (fun _ => rfl) key value) (by simp [set, ret]) hmem
    rw [show exec step init (events 0 (.set key value :: ops)) = none from hnone] at hexec
    exact absurd hexec (by simp)
  · intro hno
    obtain ⟨s, hexec, hinserted, hremoved, hlen⟩ := exec_events_of_not_drain
      (s := (init.set key value).ret 0) hno
    refine ⟨s, hexec, ?_, ?_⟩
    · rw [hinserted, hremoved]
      rfl
    · intro hitems
      rw [hitems] at hlen
      simp [set, ret] at hlen
      omega

/-- **When the queue store agrees with the mutex store**: exactly where no drain step comes after
a call of `set`, so that no task is ever invoked. -/
theorem queue_agrees_iff : ∀ ops : List Op, Agrees ops ↔ NoDrainAfterSet ops := by
  intro ops
  induction ops with
  | nil =>
    constructor
    · intro _
      exact List.Pairwise.nil
    · intro _
      exact ⟨init, rfl, rfl, fun _ => rfl⟩
  | cons op ops ih =>
    cases op with
    | drain =>
      rw [agrees_drain_cons, ih]
      simp [NoDrainAfterSet]
    | set key value =>
      rw [agrees_set_cons]
      constructor
      · intro hno
        refine List.pairwise_cons.mpr ⟨fun b hb _ hdrain => hno (hdrain ▸ hb), ?_⟩
        exact List.pairwise_of_forall_mem_list fun a _ b hb _ hdrain => hno (hdrain ▸ hb)
      · intro hpair hmem
        exact (List.pairwise_cons.mp hpair).1 .drain hmem (by simp) rfl

/-- **The task of a call that has returned reads what is gone.** -/
theorem queue_disagrees_after_one_call :
    ¬ ∀ ops, Agrees ops := by
  intro hall
  obtain ⟨s, hexec, -⟩ := hall [.set "a" "1", .drain]
  have hnone : exec step init (events 0 [.set "a" "1", .drain]) = none := rfl
  rw [hnone] at hexec
  exact absurd hexec (by simp)

end StoreWithQueue

end CxxConcurrency.TaskSystem
