/-
# The sequential stack

The abstract object a concurrent stack is compared with: a list of values, top first, and the
two operations on it.  `SeqStep` is the step relation, so a run of it is a sequential history;
`run_perm` is the accounting of such a history: every value pushed has been popped or is still
on the stack, each exactly once.
-/
import CxxConcurrency.Lib.Run
import Mathlib.Data.List.Perm.Basic

namespace CxxConcurrency.Lib

variable {T : Type*}

/-- An operation of the stack, with the value it pushes or returns. -/
inductive StackOp (T : Type*)
  | push (v : T)
  | pop (v : T)

/-- The value an operation pushes, if it pushes one. -/
def StackOp.pushed? : StackOp T → Option T
  | .push v => some v
  | .pop _ => none

/-- The value an operation pops, if it pops one. -/
def StackOp.popped? : StackOp T → Option T
  | .push _ => none
  | .pop v => some v

/-- One operation of the sequential stack. -/
inductive SeqStep : List T → StackOp T → List T → Prop
  | push (v : T) (vs : List T) : SeqStep vs (.push v) (v :: vs)
  | pop (v : T) (vs : List T) : SeqStep (v :: vs) (.pop v) vs

/-- **No value is lost or popped twice**: in a sequential history from the empty stack, the
values pushed are the values popped and the values still there, counted with multiplicity. -/
theorem SeqStep.run_perm {ops : List (StackOp T)} {vs : List T}
    (h : Run SeqStep ([] : List T) ops vs) :
    (ops.filterMap StackOp.pushed?).Perm (ops.filterMap StackOp.popped? ++ vs) := by
  induction h with
  | refl => exact List.Perm.refl _
  | @tail us ws ops op _ hst ih =>
    rw [List.filterMap_append, List.filterMap_append]
    cases hst with
    | push v =>
      show (ops.filterMap StackOp.pushed? ++ [v]).Perm
        (ops.filterMap StackOp.popped? ++ [] ++ v :: us)
      rw [List.append_nil]
      refine (ih.append_right [v]).trans ?_
      rw [List.append_assoc]
      exact (List.perm_append_singleton v us).append_left _
    | pop v =>
      show (ops.filterMap StackOp.pushed? ++ []).Perm
        (ops.filterMap StackOp.popped? ++ [v] ++ ws)
      rw [List.append_nil, List.append_assoc]
      exact ih

end CxxConcurrency.Lib
