/-
# A cyclic barrier

A barrier for a number of parties lets nobody pass until so many have arrived; then it lets all of
them pass and starts anew.  That the parties at the barrier are as many as have arrived since it
last started is a field of `Barrier`, so how many have passed is read off the number of arrivals
(`Barrier.arrived_eq`): always whole rounds.
-/
import Mathlib.Data.Finset.Card
import Mathlib.Tactic.TypeStar

namespace CxxConcurrency.Lib

/-- A barrier for `count` parties. -/
structure Barrier (ι : Type*) where
  count : ℕ
  /-- The parties that wait at the barrier. -/
  waiting : Finset ι
  /-- How many parties have arrived. -/
  arrived : ℕ
  pos : 0 < count
  card_waiting : waiting.card = arrived % count

namespace Barrier

variable {ι : Type*}

/-- A barrier at which nobody has arrived. -/
def init (count : ℕ) (pos : 0 < count) : Barrier ι := ⟨count, ∅, 0, pos, by simp⟩

/-- All that have arrived have passed in whole rounds, or wait. -/
theorem arrived_eq (b : Barrier ι) :
    b.arrived = b.count * (b.arrived / b.count) + b.waiting.card := by
  rw [b.card_waiting, Nat.div_add_mod]

/-- One more arrival that completes a round. -/
theorem succ_mod_of_full {a c : ℕ} (h : a % c + 1 = c) : (a + 1) % c = 0 := by
  cases c with
  | zero => exact absurd h (Nat.succ_ne_zero _)
  | succ c => exact Nat.succ_mod_succ_eq_zero_iff.mpr (Nat.succ.inj h)

/-- One more arrival that does not. -/
theorem succ_mod_of_room {a c : ℕ} (h : a % c + 1 < c) : (a + 1) % c = a % c + 1 := by
  conv_lhs => rw [← Nat.div_add_mod a c, Nat.add_assoc, Nat.mul_add_mod, Nat.mod_eq_of_lt h]

variable [DecidableEq ι]

/-- Party `t` arrives; the parties that may pass now, and the barrier it leaves. -/
def wait? (b : Barrier ι) (t : ι) : Option (Finset ι × Barrier ι) :=
  if ht : t ∈ b.waiting then none
  else if hfull : b.waiting.card + 1 = b.count then
    some (insert t b.waiting, ⟨b.count, ∅, b.arrived + 1, b.pos, by
      rw [b.card_waiting] at hfull
      rw [Finset.card_empty, succ_mod_of_full hfull]⟩)
  else
    some (∅, ⟨b.count, insert t b.waiting, b.arrived + 1, b.pos, by
      have hlt := Nat.mod_lt b.arrived b.pos
      rw [b.card_waiting] at hfull
      rw [Finset.card_insert_of_notMem ht, b.card_waiting, succ_mod_of_room (by omega)]⟩)

variable {b b' : Barrier ι} {t : ι} {pass : Finset ι}

theorem wait?_isSome (ht : t ∉ b.waiting) : ∃ pass b', b.wait? t = some (pass, b') := by
  unfold wait?
  rw [dif_neg ht]
  split
  · exact ⟨_, _, rfl⟩
  · exact ⟨_, _, rfl⟩

/-- **What `wait?` does**: the last party of a round lets all of it pass, and another one waits. -/
theorem wait?_eq_some (h : b.wait? t = some (pass, b')) :
    t ∉ b.waiting ∧ b'.count = b.count ∧ b'.arrived = b.arrived + 1 ∧
      (pass = insert t b.waiting ∧ b'.waiting = ∅ ∨
        pass = ∅ ∧ b'.waiting = insert t b.waiting) := by
  unfold wait? at h
  split at h
  · exact absurd h (by simp)
  · rename_i ht
    split at h
    · obtain ⟨rfl, rfl⟩ := Prod.mk.inj (Option.some.inj h)
      exact ⟨ht, rfl, rfl, Or.inl ⟨rfl, rfl⟩⟩
    · obtain ⟨rfl, rfl⟩ := Prod.mk.inj (Option.some.inj h)
      exact ⟨ht, rfl, rfl, Or.inr ⟨rfl, rfl⟩⟩

end Barrier

end CxxConcurrency.Lib
