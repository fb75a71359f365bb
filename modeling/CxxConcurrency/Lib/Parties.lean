/-
# Counting over a family of parties

The state of a system of several parties is a family indexed by the parties, and a step of one
party updates one member.  A count that is summed over the parties changes by what the one
member contributes.
-/
import Mathlib.Algebra.BigOperators.Group.Finset.Basic

namespace CxxConcurrency.Lib

variable {ι α M : Type*} [DecidableEq ι] [AddCommMonoid M]

/-- **What a change of one member does to a sum**, without subtraction. -/
theorem sum_add_of_mem {f g : ι → M} {s : Finset ι} {i : ι} (hi : i ∈ s)
    (h : ∀ j ∈ s, j ≠ i → g j = f j) : (∑ j ∈ s, g j) + f i = (∑ j ∈ s, f j) + g i := by
  have hrest : ∑ j ∈ s.erase i, g j = ∑ j ∈ s.erase i, f j :=
    Finset.sum_congr rfl fun j hj => h j (Finset.mem_of_mem_erase hj) (Finset.ne_of_mem_erase hj)
  rw [← Finset.add_sum_erase s g hi, ← Finset.add_sum_erase s f hi, hrest]
  ac_rfl

variable [Fintype ι]

/-- What a change of one member does to the sum over all. -/
theorem sum_add_of_ne {f g : ι → M} (i : ι) (h : ∀ j, j ≠ i → g j = f j) :
    (∑ j, g j) + f i = (∑ j, f j) + g i :=
  sum_add_of_mem (Finset.mem_univ i) fun j _ => h j

/-- What updating one member does to a sum. -/
theorem sum_update_add (f : ι → α) (g : α → M) (i : ι) (b : α) :
    (∑ j, g (Function.update f i b j)) + g (f i) = (∑ j, g (f j)) + g b := by
  have hsum := sum_add_of_ne (f := fun j => g (f j)) (g := fun j => g (Function.update f i b j)) i
    fun j hj => by rw [Function.update_of_ne hj]
  rwa [Function.update_self] at hsum

end CxxConcurrency.Lib
