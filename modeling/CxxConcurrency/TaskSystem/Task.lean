/-
# Tasks and pills

`TaskStatus`, `Task`, `makeTask` and `makePoisonPill`, which `task_stealing.cpp` and
`local_task_queue.cpp` define alike.  A `std::function<void()>` matters to the pools only as
the thing a worker invokes, so the callable of the `k`-th submission is named by `k`.
-/
import Mathlib.Data.List.Basic

namespace CxxConcurrency.TaskSystem

/-- `enum class TaskStatus`. -/
inductive TaskStatus
  | Normal
  | PoisonPill
  deriving DecidableEq, Repr

/-- A `std::function<void()>`: the empty lambda, or the callable submitted as number `k`. -/
inductive Callable
  | empty
  | work (k : ℕ)
  deriving DecidableEq, Repr

/-- `std::pair<TaskStatus, std::function<void()>>`. -/
structure Task where
  status : TaskStatus
  fn : Callable
  deriving DecidableEq, Repr

/-- `makeTask(f)`. -/
def makeTask (f : Callable) : Task := ⟨.Normal, f⟩

/-- `makePoisonPill()`. -/
def makePoisonPill : Task := ⟨.PoisonPill, .empty⟩

/-- The submission an invocation runs, if it is not the empty lambda. -/
def Callable.id? : Callable → Option ℕ
  | .empty => none
  | .work k => some k

/-- The submission a Normal task stands for. -/
def Task.normal? (t : Task) : Option ℕ :=
  match t.status with
  | .Normal => t.fn.id?
  | .PoisonPill => none

@[simp] theorem makeTask_status (f : Callable) : (makeTask f).status = .Normal := rfl
@[simp] theorem makePoisonPill_status : makePoisonPill.status = .PoisonPill := rfl
@[simp] theorem normal?_makeTask (k : ℕ) : (makeTask (.work k)).normal? = some k := rfl
@[simp] theorem normal?_makePoisonPill : makePoisonPill.normal? = none := rfl

@[simp] theorem makePoisonPill_ne_makeTask (f : Callable) : makePoisonPill ≠ makeTask f := by
  simp [makePoisonPill, makeTask]

@[simp] theorem makeTask_ne_makePoisonPill (f : Callable) : makeTask f ≠ makePoisonPill :=
  (makePoisonPill_ne_makeTask f).symm

@[simp] theorem makeTask_work_inj {j k : ℕ} :
    makeTask (.work j) = makeTask (.work k) ↔ j = k := by
  simp [makeTask]

end CxxConcurrency.TaskSystem
