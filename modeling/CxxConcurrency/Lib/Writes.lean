/-
# Histories of writes to a map

A history is the list of the pairs written, oldest first.  What a map holds for a key after a
history is the value of the latest write to the key if writes replace (`lastWrite`), and that of
the first if they do not (`firstWrite`).
-/
import Mathlib.Data.List.Basic
import Mathlib.Tactic.TypeStar

namespace CxxConcurrency.Lib

variable {K V : Type*} [DecidableEq K]

/-- The value of the first write to a key. -/
def firstWrite (k : K) (ws : List (K × V)) : Option V := (ws.find? (·.1 = k)).map Prod.snd

/-- The value of the latest write to a key. -/
def lastWrite (k : K) (ws : List (K × V)) : Option V := firstWrite k ws.reverse

variable {k : K} {ws : List (K × V)}

@[simp] theorem firstWrite_nil : firstWrite k ([] : List (K × V)) = none := rfl
@[simp] theorem lastWrite_nil : lastWrite k ([] : List (K × V)) = none := rfl

/-- One more write is the first one only if there was none. -/
theorem firstWrite_append_singleton (k' : K) (v : V) :
    firstWrite k (ws ++ [(k', v)]) = (firstWrite k ws).or (if k' = k then some v else none) := by
  unfold firstWrite
  rw [List.find?_append]
  cases ws.find? (·.1 = k) with
  | some w => rfl
  | none => by_cases hk : k' = k <;> simp [hk]

/-- One more write is the latest one. -/
theorem lastWrite_append_singleton (k' : K) (v : V) :
    lastWrite k (ws ++ [(k', v)]) = if k' = k then some v else lastWrite k ws := by
  unfold lastWrite firstWrite
  rw [List.reverse_append, List.reverse_singleton, List.singleton_append, List.find?_cons]
  by_cases hk : k' = k <;> simp [hk]

/-- There is a first write unless the key has not been written. -/
theorem firstWrite_eq_none_iff : firstWrite k ws = none ↔ ∀ w ∈ ws, w.1 ≠ k := by
  simp [firstWrite, List.find?_eq_none]

/-- There is a latest write unless the key has not been written. -/
theorem lastWrite_eq_none_iff : lastWrite k ws = none ↔ ∀ w ∈ ws, w.1 ≠ k := by
  simp [lastWrite, firstWrite_eq_none_iff]

/-- The latest write is one of the writes. -/
theorem mem_of_lastWrite {v : V} (h : lastWrite k ws = some v) : (k, v) ∈ ws := by
  obtain ⟨⟨k', v'⟩, hfind, rfl⟩ := Option.map_eq_some_iff.mp h
  obtain rfl : k' = k := by simpa using List.find?_some hfind
  exact List.mem_reverse.mp (List.mem_of_find?_eq_some hfind)

end CxxConcurrency.Lib
