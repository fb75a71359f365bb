/-
# The CAS stack of `lockfree/stack.cpp`, as a step relation

`Stack<T>` is a `head` pointer to a list of `Node<T>`; `push`, `pop` and `size` read and change
it with `std::atomic_load` and `std::atomic_compare_exchange_weak` on `shared_ptr`.  Each
thread is at one of the points of `Pc`, with the `shared_ptr`s its locals hold, and one step is
one atomic operation on shared memory: `make_shared`, an `atomic_load`, one evaluation of
`old_head->next`, one compare-exchange, one read of `old_head->data`.

Memory is a total function from addresses to nodes: what is stored at an address that no
`shared_ptr` refers to means nothing, and `make_shared` may hand out any such address
(`Stack.Live` is the set of addresses that are referred to).  So an address can leave the list
and come back as another node, and whether that can fool a compare-exchange is a theorem about
this relation, not an assumption in it.

A compare-exchange may fail without reason; a failed one writes the current head into its
`expected` argument.  `push` passes `new_elem->next` for that argument, `pop` its local
`old_head`.
-/
import CxxConcurrency.Lib.Chain
import CxxConcurrency.Lib.Lifo
import Mathlib.Logic.Function.Basic

namespace CxxConcurrency.Lockfree

open CxxConcurrency.Lib

/-! ## 1. Nodes, program points, the shared state -/

/-- An address `make_shared` can return. -/
abbrev Addr := ℕ

/-- `Node<T>`. -/
structure Node (T : Type*) where
  data : T
  next : Option Addr

/-- Where a thread is, with the values of its locals. -/
inductive Pc (T : Type*)
  /-- Between two calls. -/
  | idle
  /-- `push`: `new_elem` is made, its `next` still null; about to `atomic_load` the head. -/
  | pushLoad (val : T) (newElem : Addr)
  /-- `push`: about to compare-exchange the head from `new_elem->next` to `new_elem`. -/
  | pushCas (val : T) (newElem : Addr)
  /-- `pop`: at the loop test, about to evaluate `old_head && ... old_head->next`. -/
  | popTest (oldHead : Option Addr)
  /-- `pop`: the arguments are evaluated; about to compare-exchange. -/
  | popCas (oldHead : Addr) (desired : Option Addr)
  /-- `pop`: out of the loop, about to read `old_head->data`. -/
  | popData (oldHead : Option Addr)
  /-- `size`: at the loop test, `p` the cursor and `sz` the count so far. -/
  | size (p : Option Addr) (sz : ℕ)

variable {ι T : Type*}

/-- The addresses a thread's local `shared_ptr`s refer to. -/
def Pc.refs : Pc T → List Addr
  | .idle => []
  | .pushLoad _ a => [a]
  | .pushCas _ a => [a]
  | .popTest p => p.toList
  | .popCas a p => a :: p.toList
  | .popData p => p.toList
  | .size p _ => p.toList

/-- The node a thread has made and not yet published. -/
def Pc.newElem? : Pc T → Option Addr
  | .pushLoad _ a => some a
  | .pushCas _ a => some a
  | _ => none

/-- Shared memory and the threads. -/
structure Stack (ι T : Type*) where
  mem : Addr → Node T
  head : Option Addr
  pc : ι → Pc T

/-- The `next` field stored at an address. -/
def Stack.next (s : Stack ι T) (a : Addr) : Option Addr := (s.mem a).next

/-- The `data` field stored at an address. -/
def Stack.data (s : Stack ι T) (a : Addr) : T := (s.mem a).data

/-- The addresses that the head or a thread's local refers to. -/
def Stack.Root (s : Stack ι T) (a : Addr) : Prop := s.head = some a ∨ ∃ t, a ∈ (s.pc t).refs

/-- The addresses some `shared_ptr` refers to: the head, a local, or a live node's `next`. -/
abbrev Stack.Live (s : Stack ι T) : Addr → Prop := Lib.Live s.next s.Root

/-- Thread `t` moves to the point `p`. -/
def Stack.setPc [DecidableEq ι] (s : Stack ι T) (t : ι) (p : Pc T) : Stack ι T :=
  { s with pc := Function.update s.pc t p }

/-- `make_shared` constructs a node at `a`, or a node's `next` is assigned. -/
def Stack.setNode (s : Stack ι T) (a : Addr) (n : Node T) : Stack ι T :=
  { s with mem := Function.update s.mem a n }

/-- The head is replaced. -/
def Stack.setHead (s : Stack ι T) (p : Option Addr) : Stack ι T := { s with head := p }

/-- A new stack that no thread has called yet; memory holds anything. -/
structure Stack.Initial (s : Stack ι T) : Prop where
  head : s.head = none
  idle : ∀ t, s.pc t = .idle

/-! ## 2. The steps -/

/-- What a step shows. -/
inductive Event (T : Type*)
  /-- No effect on the stack. -/
  | tau
  /-- A compare-exchange of `push` succeeded; the call's value is `v`. -/
  | pushed (v : T)
  /-- A compare-exchange of `pop` succeeded; `v` is the data of the node taken off. -/
  | popped (v : T)
  /-- A compare-exchange failed; `spurious` if the head was the expected value. -/
  | failed (spurious : Bool)
  /-- `pop` assigns `v` to its argument and returns. -/
  | returned (v : T)
  /-- `size` returns `n`. -/
  | sized (n : ℕ)

variable [DecidableEq ι]

/-- One atomic operation of one thread. -/
inductive Step : Stack ι T → ι × Event T → Stack ι T → Prop
  /-- `auto new_elem = std::make_shared<Node<T>>(val);` at any address nothing refers to. -/
  | makeShared {s : Stack ι T} {t : ι} (v : T) (a : Addr)
      (hpc : s.pc t = .idle) (hfree : ¬ s.Live a) :
      Step s (t, .tau) ((s.setNode a ⟨v, none⟩).setPc t (.pushLoad v a))
  /-- `new_elem->next = std::atomic_load(&head);` -/
  | pushLoad {s : Stack ι T} {t : ι} {v : T} {a : Addr} (hpc : s.pc t = .pushLoad v a) :
      Step s (t, .tau) ((s.setNode a ⟨s.data a, s.head⟩).setPc t (.pushCas v a))
  /-- The compare-exchange of `push` succeeds: the head becomes `new_elem`. -/
  | pushCasOk {s : Stack ι T} {t : ι} {v : T} {a : Addr} (hpc : s.pc t = .pushCas v a)
      (heq : s.head = s.next a) :
      Step s (t, .pushed v) ((s.setHead (some a)).setPc t .idle)
  /-- The compare-exchange of `push` fails: `new_elem->next` becomes the current head. -/
  | pushCasFail {s : Stack ι T} {t : ι} {v : T} {a : Addr} (hpc : s.pc t = .pushCas v a) :
      Step s (t, .failed (s.head == s.next a))
        ((s.setNode a ⟨s.data a, s.head⟩).setPc t (.pushCas v a))
  /-- `auto old_head = std::atomic_load(&head);` -/
  | popLoad {s : Stack ι T} {t : ι} (hpc : s.pc t = .idle) :
      Step s (t, .tau) (s.setPc t (.popTest s.head))
  /-- `old_head` is null: the loop is left. -/
  | popTestNull {s : Stack ι T} {t : ι} (hpc : s.pc t = .popTest none) :
      Step s (t, .tau) (s.setPc t (.popData none))
  /-- `old_head` is not null: `old_head->next` is read for the argument `desired`. -/
  | popTestNext {s : Stack ι T} {t : ι} {a : Addr} (hpc : s.pc t = .popTest (some a)) :
      Step s (t, .tau) (s.setPc t (.popCas a (s.next a)))
  /-- The compare-exchange of `pop` succeeds: the head becomes `desired`. -/
  | popCasOk {s : Stack ι T} {t : ι} {a : Addr} {d : Option Addr} (hpc : s.pc t = .popCas a d)
      (heq : s.head = some a) :
      Step s (t, .popped (s.data a)) ((s.setHead d).setPc t (.popData (some a)))
  /-- The compare-exchange of `pop` fails: `old_head` becomes the current head. -/
  | popCasFail {s : Stack ι T} {t : ι} {a : Addr} {d : Option Addr}
      (hpc : s.pc t = .popCas a d) :
      Step s (t, .failed (s.head == some a)) (s.setPc t (.popTest s.head))
  /-- `val = old_head->data;` and the return.  From `popData none` there is no step: reading
  through a null pointer has no defined outcome. -/
  | popData {s : Stack ι T} {t : ι} {a : Addr} (hpc : s.pc t = .popData (some a)) :
      Step s (t, .returned (s.data a)) (s.setPc t .idle)
  /-- `auto p = std::atomic_load(&head)` with `sz` zero. -/
  | sizeLoad {s : Stack ι T} {t : ι} (hpc : s.pc t = .idle) :
      Step s (t, .tau) (s.setPc t (.size s.head 0))
  /-- `p = p->next, ++sz`. -/
  | sizeNext {s : Stack ι T} {t : ι} {a : Addr} {n : ℕ} (hpc : s.pc t = .size (some a) n) :
      Step s (t, .tau) (s.setPc t (.size (s.next a) (n + 1)))
  /-- `p` is null: `return sz`. -/
  | sizeReturn {s : Stack ι T} {t : ι} {n : ℕ} (hpc : s.pc t = .size none n) :
      Step s (t, .sized n) (s.setPc t .idle)

/-- A thread moves in its own steps only. -/
theorem Step.pc_of_ne {s s' : Stack ι T} {e : ι × Event T} (hst : Step s e s') {t : ι}
    (ht : t ≠ e.1) : s'.pc t = s.pc t := by
  cases hst <;> exact Function.update_of_ne ht _ _

/-! ## 3. The abstraction -/

/-- The values on the chain from the head, top first. -/
def Stack.Abs (s : Stack ι T) (vs : List T) : Prop :=
  ∃ l, Chain s.next s.head l ∧ vs = l.map s.data

/-- The sequential operation a step stands for: a successful compare-exchange is the push or
the pop, every other step is none. -/
def linearize : ι × Event T → Option (StackOp T)
  | (_, .pushed v) => some (.push v)
  | (_, .popped v) => some (.pop v)
  | _ => none

omit [DecidableEq ι] in
/-- The chain from the head gives at most one sequence of values. -/
theorem Stack.Abs.unique {s : Stack ι T} {vs ws : List T} (h : s.Abs vs) (h' : s.Abs ws) :
    vs = ws := by
  obtain ⟨l, hl, rfl⟩ := h
  obtain ⟨l', hl', rfl⟩ := h'
  rw [hl.unique hl']

end CxxConcurrency.Lockfree
