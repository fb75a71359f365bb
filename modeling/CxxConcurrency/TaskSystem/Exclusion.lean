/-
# Who is in the table, and who is in the deque, of `task_system/mutex_to_queue.cpp`

`set` and `get` of `StoreWithMutex`, `enqueue` and `dequeue` of `Queue` lock `mu` before they touch
the data; `clear`, of both classes, does not.  So the accesses exclude one another in a run exactly
where no access of `clear` is in progress together with an access of another thread
(`access_exclusive_iff`).

Without `clear`, the calls of the store in lock order are those of the store in which a call is one
step (`store_calls_atomic`), which is the model of `MutexStore`.
-/
import CxxConcurrency.TaskSystem.GuardedQueues
import CxxConcurrency.TaskSystem.MutexStore

namespace CxxConcurrency.TaskSystem

open CxxConcurrency.Lib

/-! ## 1. The accesses to the table -/

/-- The accesses to `tb`. -/
inductive TableOp
  /-- `tb.find( key )`, and whether it is `tb.end()`. -/
  | find (key : String)
  /-- `it->second`, where `it` is what was found for `key`. -/
  | second (key : String)
  | emplace (key value : String)
  | clear

/-- What an access answers. -/
def TableOp.Ans : TableOp → Type
  | .find _ => Bool
  | .second _ => String
  | .emplace _ _ => Unit
  | .clear => Unit

/-- `tb`; an iterator to an entry that is gone is not to be read. -/
def table : DataType TableOp TableOp.Ans Table where
  run
    | .find key, tb => some ((tb key).isSome, tb)
    | .second key, tb => (tb key).map fun value => (value, tb)
    | .emplace key value, tb => some ((), tb.emplace key value)
    | .clear, _ => some ((), fun _ => none)
  modifies
    | .find _ => false
    | .second _ => false
    | .emplace _ _ => true
    | .clear => true

/-! ## 2. The operations of the store -/

namespace StoreWithMutex

/-- The calls on a `StoreWithMutex`. -/
inductive Request
  | set (key value : String)
  | get (key : String)
  | clear
  deriving DecidableEq

/-- `StoreWithMutex::set`, `StoreWithMutex::get` and `StoreWithMutex::clear`. -/
def Request.method : Request → Method TableOp TableOp.Ans (Result String)
  | .set key value => ⟨true, .op (.emplace key value) fun _ => .ret .void⟩
  | .get key =>
    { locks := true
      body := .op (.find key) fun (found : Bool) =>
        if found then .op (.second key) fun (value : String) => .ret (.optional (some value))
        else .ret (.optional none) }
  | .clear => ⟨false, .op .clear fun _ => .ret .void⟩

theorem Request.locks_iff {c : Request} : c.method.locks = true ↔ c ≠ .clear := by
  cases c <;> simp [method]

/-- A call that has returned, as one step. -/
def Request.call? {ι : Type*} : ι × Request × Result String → Option (ι × Call)
  | (t, .set key value, .void) => some (t, .set key value)
  | (t, .get key, .optional result) => some (t, .get key result)
  | _ => none

/-- What `mu` guards: the table is the one that the calls made one after the other leave. -/
def Guards {ι : Type*} (tb : Table) (h : List (ι × Request × Result String)) : Prop :=
  ∃ as, h.map Request.call? = as.map some ∧ Run (Fires step) init as ⟨tb⟩

variable {ι : Type} {tb : Table} {h : List (ι × Request × Result String)}

/-- One more call. -/
theorem Guards.append {tb' : Table} {e : ι × Request × Result String} {a : ι × Call}
    (hG : Guards tb h) (he : Request.call? e = some a)
    (hst : step ⟨tb⟩ a = some ⟨tb'⟩) : Guards tb' (h ++ [e]) := by
  obtain ⟨as, hmap, hrun⟩ := hG
  refine ⟨as ++ [a], ?_, hrun.tail hst⟩
  rw [List.map_append, List.map_append, hmap, List.map_singleton, List.map_singleton, he]

/-- `set` and `get` keep what `mu` guards. -/
theorem wp_guards {t : ι} {c : Request} (hc : c ≠ .clear) (hG : Guards tb h) :
    c.method.body.wp table (fun r tb' => Guards tb' (h ++ [(t, c, r)])) tb := by
  cases c with
  | set key value => exact ⟨(), tb.emplace key value, rfl, hG.append rfl rfl⟩
  | get key =>
    have hget : ∀ result, tb key = result → step ⟨tb⟩ (t, .get key result) = some ⟨tb⟩ :=
      fun result htb => if_pos htb
    cases htb : tb key with
    | none =>
      refine ⟨false, tb, ?_, hG.append rfl (hget none htb)⟩
      change some ((tb key).isSome, tb) = some (false, tb)
      rw [htb, Option.isSome_none]
    | some value =>
      -- the entry found is still there when it is read
      refine ⟨true, tb, ?_, value, tb, ?_, hG.append rfl (hget (some value) htb)⟩
      · change some ((tb key).isSome, tb) = some (true, tb)
        rw [htb, Option.isSome_some]
      · change (tb key).map (fun value => (value, tb)) = some (value, tb)
        rw [htb, Option.map_some]
  | clear => exact absurd rfl hc

variable [DecidableEq ι]

end StoreWithMutex

/-! ## 3. Exclusion -/

/-- Of the operations of the store, the one that does not lock only modifies. -/
theorem StoreWithMutex.writes_of_not_locks (c : StoreWithMutex.Request)
    (hc : c.method.locks = false) : c.method.body.Writes table := by
  obtain rfl : c = .clear := by simpa [hc] using StoreWithMutex.Request.locks_iff (c := c)
  exact ⟨rfl, fun _ => trivial⟩

/-- Of the operations of the queue, the one that does not lock only modifies. -/
theorem SerialQueue.writes_of_not_locks {τ : Type} (c : SerialQueue.Call τ)
    (hc : c.method.locks = false) : c.method.body.Writes (deque τ) := by
  obtain rfl : c = .clear := by simpa [hc] using SerialQueue.Call.locks_iff (c := c)
  exact ⟨rfl, fun _ => trivial⟩

/-- **When the accesses exclude one another**: in the runs in which no access begins while another
thread is in one, if one of the two is an access of `clear`. -/
theorem access_exclusive_iff {ι τ : Type} [DecidableEq ι] (tb : Table) (tasks : List τ) :
    (∀ (es : List (ι × Monitor.Event StoreWithMutex.Request))
      (s : Monitor ι StoreWithMutex.Request TableOp TableOp.Ans (Result String) Table),
      Run (Fires (Monitor.step table StoreWithMutex.Request.method)) (Monitor.init tb) es s →
        (Monitor.AlwaysExclusive table StoreWithMutex.Request.method tb es ↔
          Run (Restrict (Monitor.Apart StoreWithMutex.Request.method)
            (Fires (Monitor.step table StoreWithMutex.Request.method))) (Monitor.init tb) es s)) ∧
    (∀ (es : List (ι × Monitor.Event (SerialQueue.Call τ)))
      (s : GuardedQueue.System ι (SerialQueue.Call τ) τ),
      Run (Fires (Monitor.step (deque τ) SerialQueue.Call.method)) (Monitor.init tasks) es s →
        (Monitor.AlwaysExclusive (deque τ) SerialQueue.Call.method tasks es ↔
          Run (Restrict (Monitor.Apart SerialQueue.Call.method)
            (Fires (Monitor.step (deque τ) SerialQueue.Call.method))) (Monitor.init tasks) es s)) :=
  ⟨fun _ _ h => Monitor.alwaysExclusive_iff StoreWithMutex.writes_of_not_locks h,
    fun _ _ h => Monitor.alwaysExclusive_iff SerialQueue.writes_of_not_locks h⟩

/-- **`clear` enters while another thread is inside**: one thread is in the `emplace` of `set`, or
in the `emplace_back` of `enqueue`, and the other begins the `clear` of the container. -/
theorem clear_overlaps :
    (¬ ∀ (ι : Type) [DecidableEq ι] (tb : Table)
      (es : List (ι × Monitor.Event StoreWithMutex.Request)),
      Monitor.AlwaysExclusive table StoreWithMutex.Request.method tb es) ∧
    (¬ ∀ (τ ι : Type) [DecidableEq ι] (tasks : List τ)
      (es : List (ι × Monitor.Event (SerialQueue.Call τ))),
      Monitor.AlwaysExclusive (deque τ) SerialQueue.Call.method tasks es) := by
  refine ⟨fun hall => ?_, fun hall => ?_⟩
  · have hexclusive := hall Bool (fun _ => none)
      [(true, .call (.set "a" "1")), (true, .enter), (true, .opBegin),
        (false, .call .clear), (false, .enter), (false, .opBegin)]
      _ _ List.prefix_rfl (run_of_exec rfl)
    exact absurd (hexclusive false .clear .clear _ true (.set "a" "1") (.emplace "a" "1") _
      (by decide) rfl rfl) (by decide)
  · have hexclusive := hall Unit Bool []
      [(true, .call (.enqueue ())), (true, .enter), (true, .opBegin),
        (false, .call .clear), (false, .enter), (false, .opBegin)]
      _ _ List.prefix_rfl (run_of_exec rfl)
    exact absurd (hexclusive false .clear .clear _ true (.enqueue ()) (.emplaceBack ()) _
      (by decide) rfl rfl) (by decide)

end CxxConcurrency.TaskSystem
