/-
# A FIFO queue that remembers its history

`Fifo α` is a queue together with the log of everything ever added and the log of everything
ever removed.  The conservation law `removed ++ items = added` is a field, so a queue that
loses, duplicates or reorders an entry cannot be built: what has been removed is always a
prefix of what was added (`Fifo.removed_prefix_added`), in the same order, and what is left is the
rest.

`push` is `emplace_back`, `pop?` is "if not empty, copy the front and pop it".  A system of
several queues is a family of them, in which a step updates one member; the last section says
what that does to the logs of every member.
-/
import CxxConcurrency.Lib.Parties
import Mathlib.Data.List.Infix
import Mathlib.Logic.Function.Basic
import Mathlib.Tactic.TypeStar

namespace CxxConcurrency.Lib

variable {α β : Type*}

/-- A queue with the logs of its additions and removals. -/
@[ext] structure Fifo (α : Type*) where
  /-- The entries in the queue, front first. -/
  items : List α
  /-- Everything ever added, in order. -/
  added : List α
  /-- Everything ever removed, in order. -/
  removed : List α
  /-- Nothing is lost, duplicated or reordered. -/
  conserve : removed ++ items = added

namespace Fifo

/-- The empty queue that nothing was ever added to. -/
def empty : Fifo α := ⟨[], [], [], rfl⟩

/-- Add an entry at the back. -/
def push (q : Fifo α) (x : α) : Fifo α :=
  ⟨q.items ++ [x], q.added ++ [x], q.removed, by rw [← List.append_assoc, q.conserve]⟩

/-- Remove the entry at the front, if there is one. -/
def pop? (q : Fifo α) : Option (α × Fifo α) :=
  match h : q.items with
  | [] => none
  | x :: rest => some (x, ⟨rest, q.added, q.removed ++ [x], by simp [← q.conserve, h]⟩)

@[simp] theorem empty_items : (empty : Fifo α).items = [] := rfl
@[simp] theorem empty_added : (empty : Fifo α).added = [] := rfl
@[simp] theorem empty_removed : (empty : Fifo α).removed = [] := rfl
@[simp] theorem push_items (q : Fifo α) (x : α) : (q.push x).items = q.items ++ [x] := rfl
@[simp] theorem push_added (q : Fifo α) (x : α) : (q.push x).added = q.added ++ [x] := rfl
@[simp] theorem push_removed (q : Fifo α) (x : α) : (q.push x).removed = q.removed := rfl

/-- **What `pop?` does**: it fails on the empty queue only. -/
theorem pop?_eq_none_iff {q : Fifo α} : q.pop? = none ↔ q.items = [] := by
  unfold pop?
  split <;> simp_all

/-- **What `pop?` does**: it moves the front entry to the removal log, and nothing else. -/
theorem pop?_eq_some {q q' : Fifo α} {x : α} (h : q.pop? = some (x, q')) :
    q.items = x :: q'.items ∧ q'.added = q.added ∧ q'.removed = q.removed ++ [x] := by
  unfold pop? at h
  split at h
  · exact absurd h (by simp)
  · rename_i y rest hitems
    simp only [Option.some.injEq, Prod.mk.injEq] at h
    obtain ⟨rfl, rfl⟩ := h
    exact ⟨hitems, rfl, rfl⟩

/-- The entry at the front is the first one added that has not been removed. -/
theorem added_of_pop {q q' : Fifo α} {x : α} (h : q.pop? = some (x, q')) :
    q.added[q.removed.length]? = some x := by
  obtain ⟨hitems, -, -⟩ := pop?_eq_some h
  rw [← q.conserve, hitems, List.getElem?_append_right le_rfl, Nat.sub_self]
  rfl

/-- A push does not move what has been added before. -/
theorem added_push_of_some {q : Fifo α} {x y : α} {k : ℕ} (h : q.added[k]? = some y) :
    (q.push x).added[k]? = some y := by
  rw [push_added, List.getElem?_append_left (List.getElem?_eq_some_iff.mp h).1, h]

/-- What has been removed is a prefix of what was added. -/
theorem removed_prefix_added (q : Fifo α) : q.removed <+: q.added := ⟨q.items, q.conserve⟩

/-- Everything ever added has been removed or is still in the queue. -/
theorem mem_added_iff {q : Fifo α} {x : α} : x ∈ q.added ↔ x ∈ q.removed ∨ x ∈ q.items := by
  rw [← q.conserve, List.mem_append]

/-- The entries of one kind that have been removed are a prefix of those added. -/
theorem filterMap_removed_prefix_added (q : Fifo α) (f : α → Option β) :
    q.removed.filterMap f <+: q.added.filterMap f := by
  obtain ⟨t, ht⟩ := q.removed_prefix_added
  exact ⟨t.filterMap f, by rw [← ht, List.filterMap_append]⟩

/-- A queue whose last addition is `x` either has `x` at its back, or has been emptied. -/
theorem closed_cases {q : Fifo α} {l : List α} {x : α} (h : q.added = l ++ [x]) :
    (q.items = [] ∧ q.removed = l ++ [x]) ∨
      ∃ rest, q.items = rest ++ [x] ∧ q.removed ++ rest = l := by
  have hcons := q.conserve.trans h
  rcases List.eq_nil_or_concat q.items with hnil | ⟨rest, y, hitems⟩
  · exact Or.inl ⟨hnil, by rwa [hnil, List.append_nil] at hcons⟩
  · rw [hitems, List.concat_eq_append, ← List.append_assoc] at hcons
    obtain ⟨hl, hy⟩ := List.append_inj' hcons rfl
    obtain rfl : y = x := by simpa using hy
    exact Or.inr ⟨rest, by rw [hitems, List.concat_eq_append], hl⟩

/-! ## A family of queues -/

section Family

variable {ι : Type*} [DecidableEq ι] (f : ι → Fifo α) {i : ι} {q : Fifo α} {x : α}

/-- A push into queue `i` is an addition to queue `i`, and to no other. -/
theorem added_update_push (i : ι) (x : α) (j : ι) :
    (Function.update f i ((f i).push x) j).added
      = (f j).added ++ if j = i then [x] else [] := by
  by_cases hji : j = i
  · subst hji
    rw [Function.update_self, push_added, if_pos rfl]
  · rw [Function.update_of_ne hji, if_neg hji, List.append_nil]

/-- A push removes nothing. -/
theorem removed_update_push (i : ι) (x : α) (j : ι) :
    (Function.update f i ((f i).push x) j).removed = (f j).removed := by
  by_cases hji : j = i
  · subst hji
    rw [Function.update_self, push_removed]
  · rw [Function.update_of_ne hji]

/-- A pop adds nothing. -/
theorem added_update_pop (h : (f i).pop? = some (x, q)) (j : ι) :
    (Function.update f i q j).added = (f j).added := by
  by_cases hji : j = i
  · subst hji
    rw [Function.update_self]
    exact (pop?_eq_some h).2.1
  · rw [Function.update_of_ne hji]

/-- A pop from queue `i` is a removal from queue `i`, and from no other. -/
theorem removed_update_pop (h : (f i).pop? = some (x, q)) (j : ι) :
    (Function.update f i q j).removed = (f j).removed ++ if j = i then [x] else [] := by
  by_cases hji : j = i
  · subst hji
    rw [Function.update_self, if_pos rfl]
    exact (pop?_eq_some h).2.2
  · rw [Function.update_of_ne hji, if_neg hji, List.append_nil]

variable [Fintype ι]

/-- After a push there is one more entry in all queues together. -/
theorem sum_length_update_push (i : ι) (x : α) :
    ∑ j, (Function.update f i ((f i).push x) j).items.length
      = (∑ j, (f j).items.length) + 1 := by
  have hsum := sum_update_add f (fun q => q.items.length) i ((f i).push x)
  have hlen : ((f i).push x).items.length = (f i).items.length + 1 := by simp
  omega

/-- After a pop there is one entry fewer. -/
theorem sum_length_update_pop (h : (f i).pop? = some (x, q)) :
    (∑ j, (Function.update f i q j).items.length) + 1 = ∑ j, (f j).items.length := by
  have hsum := sum_update_add f (fun q => q.items.length) i q
  have hlen : (f i).items.length = q.items.length + 1 := by simp [(pop?_eq_some h).1]
  omega

end Family

end Fifo

end CxxConcurrency.Lib
