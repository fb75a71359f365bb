/-
# The queue in shared memory of `communication/boost_interprocess_deque.cpp`

`Queue` opens or creates the segment named `work-queue` and finds or constructs in it a deque and
an `interprocess_mutex`, which all processes share; `push_task` and `try_pop_task` hold the mutex.
The condition variable beside them is not used.
-/
import CxxConcurrency.Lib.GuardedQueue

namespace CxxConcurrency.Communication.SharedDeque

open CxxConcurrency.Lib

/-- `struct Task`. -/
structure Task where
  value : BitVec 32
  deriving DecidableEq, Repr

/-- The calls on a `Queue`. -/
inductive Call
  | push_task (x : BitVec 32)
  | try_pop_task
  deriving DecidableEq

/-- `Queue::push_task( x )`. -/
def pushTask (x : BitVec 32) : DequeMethod Task := GuardedQueue.add ⟨x⟩

/-- `Queue::try_pop_task()`: the optional is filled where the deque is not empty. -/
def tryPopTask : DequeMethod Task where
  locks := true
  body := .op .empty fun (isEmpty : Bool) =>
    if !isEmpty then
      .op .front fun (t : Task) => .op .popFront fun _ => .ret (.optional (some t))
    else .ret (.optional none)

/-- It is `tryRemove` with the branches the other way round. -/
theorem tryPopTask_eq : tryPopTask = GuardedQueue.tryRemove := by
  refine congrArg (fun next => Method.mk true (Body.op DequeOp.empty next)) (funext ?_)
  intro isEmpty
  cases isEmpty with
  | false => rfl
  | true => rfl

/-- The method of a call. -/
def method : Call → DequeMethod Task
  | .push_task x => pushTask x
  | .try_pop_task => tryPopTask

/-- What a call adds. -/
def adds : Call → Option Task
  | .push_task x => some ⟨x⟩
  | .try_pop_task => none

/-- `Queue`. -/
def queue : GuardedQueue Call Task :=
  GuardedQueue.ofMethods method adds (fun _ => True) fun c _ => by
    cases c with
    | push_task x => rfl
    | try_pop_task => exact tryPopTask_eq

end CxxConcurrency.Communication.SharedDeque
