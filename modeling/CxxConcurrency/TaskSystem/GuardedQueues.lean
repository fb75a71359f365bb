/-
# The lock-guarded queues

`Queue` of `task_stealing.cpp`, of `local_task_queue.cpp` and of `mutex_to_queue.cpp`: a
`std::deque` and a mutex.  A call that adds locks and appends; a call that removes locks, checks
that the deque is not empty, copies its front and pops it, which are three accesses.

Each of them, and the queue in shared memory, is a `GuardedQueue`, so its calls are those of a
queue in which a call is one step (`queues_linearizable`).  This is what the models of the pools
rest on, where `enqueue`, `done` and `tryPopFront` are `Fifo.push` and `Fifo.pop?`.

`Queue::clear` of `mutex_to_queue.cpp` does not lock, and is no call of the `GuardedQueue`.
-/
import CxxConcurrency.Communication.SharedDeque
import CxxConcurrency.TaskSystem.Task

namespace CxxConcurrency.TaskSystem

open CxxConcurrency.Lib

/-! ## 1. `task_stealing.cpp` and `local_task_queue.cpp` -/

/-- The calls on a `Queue`, which both files define alike. -/
inductive QueueCall
  | enqueue (f : Callable)
  | done
  | tryPopFront
  deriving DecidableEq

/-- `Queue::enqueue( fun )`, `Queue::done()` and `Queue::tryPopFront()`. -/
def QueueCall.method : QueueCall → DequeMethod Task
  | .enqueue f => GuardedQueue.add (makeTask f)
  | .done => GuardedQueue.add makePoisonPill
  | .tryPopFront => GuardedQueue.tryRemove

/-- What a call adds. -/
def QueueCall.adds : QueueCall → Option Task
  | .enqueue f => some (makeTask f)
  | .done => some makePoisonPill
  | .tryPopFront => none

/-- A `Queue` of tasks and pills. -/
def taskQueue : GuardedQueue QueueCall Task :=
  GuardedQueue.ofMethods QueueCall.method QueueCall.adds (fun _ => True) fun c _ => by
    cases c <;> rfl

/-- `Queue` of `task_stealing.cpp`. -/
def Stealing.queue : GuardedQueue QueueCall Task := taskQueue

/-- `Queue` of `local_task_queue.cpp`. -/
def Local.queue : GuardedQueue QueueCall Task := taskQueue

/-! ## 2. `mutex_to_queue.cpp` -/

namespace SerialQueue

variable {τ : Type}

/-- The calls on a `Queue` of tasks `τ`. -/
inductive Call (τ : Type)
  | enqueue (task : τ)
  | dequeue
  | clear
  deriving DecidableEq

/-- `Queue::enqueue( task )`, `Queue::dequeue()` and `Queue::clear()`. -/
def Call.method : Call τ → DequeMethod τ
  | .enqueue task => GuardedQueue.add task
  | .dequeue => GuardedQueue.tryRemove
  | .clear => ⟨false, .op .clear fun _ => .ret .void⟩

/-- What a call adds. -/
def Call.adds : Call τ → Option τ
  | .enqueue task => some task
  | .dequeue => none
  | .clear => none

theorem Call.locks_iff {c : Call τ} : c.method.locks = true ↔ c ≠ .clear := by
  cases c <;> simp [method, GuardedQueue.add, GuardedQueue.tryRemove]

/-- `Queue`, as long as nobody calls `clear`. -/
def queue (τ : Type) : GuardedQueue (Call τ) τ :=
  GuardedQueue.ofMethods Call.method Call.adds (· ≠ .clear) fun c hc => by
    cases c with
    | enqueue task => rfl
    | dequeue => rfl
    | clear => exact absurd rfl hc

end SerialQueue

/-! ## 3. All of them -/

/-- **The lock-guarded queues are linearizable.**  In every interleaving of the calls of any number
of threads, no front is taken of the empty deque, the calls are in lock order those of a queue in
which each is one step, the entries that come out are a prefix of those that the calls were given,
and a call returns nothing only when everything given before it had come out.  What a call gives
the queue is its argument, or the pill. -/
theorem queues_linearizable :
    GuardedQueue.Linearizable Stealing.queue.method (fun _ => True) (fun c =>
      match c with
      | .enqueue f => some (makeTask f)
      | .done => some makePoisonPill
      | .tryPopFront => none) ∧
    GuardedQueue.Linearizable Local.queue.method (fun _ => True) (fun c =>
      match c with
      | .enqueue f => some (makeTask f)
      | .done => some makePoisonPill
      | .tryPopFront => none) ∧
    (∀ τ, GuardedQueue.Linearizable (SerialQueue.queue τ).method (· ≠ .clear) (fun c =>
      match c with
      | .enqueue task => some task
      | .dequeue => none
      | .clear => none)) ∧
    GuardedQueue.Linearizable Communication.SharedDeque.queue.method (fun _ => True) (fun c =>
      match c with
      | .push_task x => some ⟨x⟩
      | .try_pop_task => none) := by
  refine ⟨?_, ?_, ?_, ?_⟩
  · exact Stealing.queue.linearizable
  · exact Local.queue.linearizable
  · exact fun τ => (SerialQueue.queue τ).linearizable
  · exact Communication.SharedDeque.queue.linearizable

/-- In each queue the call that locks first is not the one made first: a consumer finds the pill of
`done()` and another finds nothing; an entry overtakes another; a `dequeue` comes too early; a
value pushed while another process is in `try_pop_task` waits for the next. -/
theorem queues_linearizable_three_callers :
    (∃ s : GuardedQueue.System (Fin 3) QueueCall Task,
      Run (Restrict (Monitor.Admits fun _ => True)
          (Fires (Monitor.step (deque Task) Stealing.queue.method))) (Monitor.init [])
        [(2, .call .tryPopFront), (0, .call .done), (0, .enter), (1, .call .tryPopFront),
          (0, .opBegin), (0, .opEnd), (0, .leave), (1, .enter), (1, .opBegin), (1, .opEnd),
          (1, .opBegin), (1, .opEnd), (1, .opBegin), (1, .opEnd), (1, .leave), (2, .enter),
          (2, .opBegin), (2, .opEnd), (2, .leave)] s ∧
        s.returned = [(0, .done, .void), (1, .tryPopFront, .optional (some makePoisonPill)),
          (2, .tryPopFront, .optional none)] ∧
        GuardedQueue.Linear QueueCall.adds s) ∧
    (∃ s : GuardedQueue.System (Fin 3) QueueCall Task,
      Run (Restrict (Monitor.Admits fun _ => True)
          (Fires (Monitor.step (deque Task) Local.queue.method))) (Monitor.init [])
        [(1, .call (.enqueue (.work 1))), (0, .call (.enqueue (.work 0))), (0, .enter),
          (2, .call .tryPopFront), (0, .opBegin), (0, .opEnd), (0, .leave), (1, .enter),
          (1, .opBegin), (1, .opEnd), (1, .leave), (2, .enter), (2, .opBegin), (2, .opEnd),
          (2, .opBegin), (2, .opEnd), (2, .opBegin), (2, .opEnd), (2, .leave)] s ∧
        s.returned = [(0, .enqueue (.work 0), .void), (1, .enqueue (.work 1), .void),
          (2, .tryPopFront, .optional (some (makeTask (.work 0))))] ∧
        GuardedQueue.Linear QueueCall.adds s) ∧
    (∃ s : GuardedQueue.System (Fin 3) (SerialQueue.Call ℕ) ℕ,
      Run (Restrict (Monitor.Admits (· ≠ .clear))
          (Fires (Monitor.step (deque ℕ) (SerialQueue.queue ℕ).method))) (Monitor.init [])
        [(0, .call (.enqueue 5)), (1, .call .dequeue), (1, .enter), (1, .opBegin), (1, .opEnd),
          (1, .leave), (0, .enter), (2, .call .dequeue), (0, .opBegin), (0, .opEnd), (0, .leave),
          (2, .enter), (2, .opBegin), (2, .opEnd), (2, .opBegin), (2, .opEnd), (2, .opBegin),
          (2, .opEnd), (2, .leave)] s ∧
        s.returned = [(1, .dequeue, .optional none), (0, .enqueue 5, .void),
          (2, .dequeue, .optional (some 5))] ∧
        GuardedQueue.Linear SerialQueue.Call.adds s) ∧
    (∃ s : GuardedQueue.System (Fin 3) Communication.SharedDeque.Call
        Communication.SharedDeque.Task,
      Run (Restrict (Monitor.Admits fun _ => True)
          (Fires (Monitor.step (deque _) Communication.SharedDeque.queue.method)))
        (Monitor.init [])
        [(2, .call .try_pop_task), (0, .call (.push_task 7)), (0, .enter), (0, .opBegin),
          (0, .opEnd), (0, .leave), (1, .call (.push_task 8)), (2, .enter), (2, .opBegin),
          (2, .opEnd), (2, .opBegin), (2, .opEnd), (2, .opBegin), (2, .opEnd), (2, .leave),
          (1, .enter), (1, .opBegin), (1, .opEnd), (1, .leave)] s ∧
        s.returned = [(0, .push_task 7, .void), (2, .try_pop_task, .optional (some ⟨7⟩)),
          (1, .push_task 8, .void)] ∧
        GuardedQueue.Linear Communication.SharedDeque.adds s) := by
  obtain ⟨hstealing, hlocal, hserial, hshared⟩ := queues_linearizable
  refine ⟨?_, ?_, ?_, ?_⟩
  · exact hstealing.exists_linear (by simp) rfl
  · exact hlocal.exists_linear (by simp) rfl
  · exact (hserial ℕ).exists_linear (by simp) rfl
  · exact hshared.exists_linear (by simp) rfl

end CxxConcurrency.TaskSystem
