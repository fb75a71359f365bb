/-
# The calls of the lock-guarded classes return

The four queues of `GuardedQueues` and the store of `mutex_to_queue.cpp` are monitors whose bodies
have at most three accesses.  So no interleaving of their calls ends in a deadlock, and a thread
takes at most eight steps for each of its calls, in the store six (`guarded_calls_return`).
-/
import CxxConcurrency.Lib.MonitorProgress
import CxxConcurrency.TaskSystem.Exclusion

namespace CxxConcurrency.TaskSystem

open CxxConcurrency.Lib

/-- The calls of a guarded queue return. -/
def QueueCallsReturn {κ α : Type} (Q : GuardedQueue κ α) : Prop :=
  Monitor.CallsReturn (deque α) Q.method Q.Used [] 3

theorem queueCallsReturn {κ α : Type} (Q : GuardedQueue κ α)
    (hmethod : ∀ c, (Q.method c).body.Within 3) : QueueCallsReturn Q :=
  Monitor.callsReturn hmethod fun _ _ _ _ h => ⟨_, Q.inv_of_run h⟩

/-- A method that adds has one access. -/
theorem within_add {α : Type} (x : α) : (GuardedQueue.add x).body.Within 3 := fun _ => trivial

/-- A method that removes has at most three. -/
theorem within_tryRemove (α : Type) : (GuardedQueue.tryRemove (α := α)).body.Within 3 := by
  intro isEmpty
  cases (isEmpty : Bool) with
  | true => trivial
  | false => exact fun _ _ => trivial

/-- **The calls of the lock-guarded classes return**: of the queues of `task_stealing.cpp`, of
`local_task_queue.cpp`, of `mutex_to_queue.cpp` and in shared memory, and of the store. -/
theorem guarded_calls_return :
    QueueCallsReturn Stealing.queue ∧ QueueCallsReturn Local.queue ∧
      (∀ τ, QueueCallsReturn (SerialQueue.queue τ)) ∧
      QueueCallsReturn Communication.SharedDeque.queue ∧
      Monitor.CallsReturn table StoreWithMutex.Request.method (· ≠ .clear) (fun _ => none) 2 := by
  have htask : QueueCallsReturn taskQueue := queueCallsReturn taskQueue fun c => by
    cases c with
    | enqueue f => exact within_add (makeTask f)
    | done => exact within_add makePoisonPill
    | tryPopFront => exact within_tryRemove Task
  refine ⟨htask, htask, fun τ => queueCallsReturn _ fun c => ?_, queueCallsReturn _ fun c => ?_, ?_⟩
  · cases c with
    | enqueue task => exact within_add task
    | dequeue => exact within_tryRemove τ
    | clear => exact fun _ => trivial
  · cases c with
    | push_task x => exact within_add _
    | try_pop_task =>
      change Communication.SharedDeque.tryPopTask.body.Within 3
      rw [Communication.SharedDeque.tryPopTask_eq]
      exact within_tryRemove _
  · refine Monitor.callsReturn (fun c => ?_) fun _ _ _ _ h => ⟨_, Monitor.Inv.run
      (fun _ => StoreWithMutex.Request.locks_iff.mpr) ⟨[], rfl, Run.refl⟩
      (fun _ _ _ _ hc hG => StoreWithMutex.wp_guards hc hG) h⟩
    cases c with
    | set key value => exact fun _ => trivial
    | get key =>
      intro found
      cases (found : Bool) with
      | true => exact fun _ => trivial
      | false => trivial
    | clear => exact fun _ => trivial

end CxxConcurrency.TaskSystem
