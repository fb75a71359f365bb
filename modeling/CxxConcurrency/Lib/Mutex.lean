/-
# Locks as transition systems

`MutexStep` is a mutex reduced to what it is for: it has an owner or none, a party acquires it
where it has none and the owner releases it.  A lock implemented by other means is one where it
simulates this system (`Simulates`); what follows then is that at most one party is the owner,
because an `Option` holds at most one.  In a program whose parties have critical sections the
owner is the party that is inside one (`Owns`).

`SharedMutex` is a reader-writer lock: who holds it exclusively and who holds it shared.  That
an exclusive holder is the only holder is a field, so a state in which a writer coexists with a
reader cannot be built.
-/
import Mathlib.Data.Finset.Basic
import Mathlib.Tactic.TypeStar

namespace CxxConcurrency.Lib

variable {ι : Type*}

/-! ## 1. A mutex -/

/-- An operation on a mutex. -/
inductive MutexOp (ι : Type*)
  | acquire (t : ι)
  | release (t : ι)

/-- The step relation of a mutex over its owner. -/
inductive MutexStep : Option ι → MutexOp ι → Option ι → Prop
  | acquire (t : ι) : MutexStep none (.acquire t) (some t)
  | release (t : ι) : MutexStep (some t) (.release t) none

/-- `mu` is owned by the party that is inside its critical section, and by none if no party is. -/
def Owns (inside : ι → Bool) (mu : Option ι) : Prop := ∀ p, inside p = true ↔ mu = some p

namespace Owns

variable {inside inside' : ι → Bool} {mu : Option ι} {p q : ι}

/-- **At most one party is inside.** -/
theorem unique (h : Owns inside mu) (hp : inside p = true) (hq : inside q = true) : p = q :=
  Option.some.inj (((h p).mp hp).symm.trans ((h q).mp hq))

theorem outside (h : Owns inside mu) (hp : inside p = true) (hqp : q ≠ p) : inside q = false := by
  cases hq : inside q with
  | false => rfl
  | true => exact absurd (h.unique hq hp) hqp

/-- A step after which the same parties are inside. -/
theorem congr (h : Owns inside mu) (hin : ∀ q, inside' q = inside q) : Owns inside' mu := by
  intro q
  rw [hin q]
  exact h q

/-- `p` acquires the mutex and goes inside. -/
theorem acquire (h : Owns inside none) (hp : inside' p = true)
    (hrest : ∀ q, q ≠ p → inside' q = inside q) : Owns inside' (some p) := by
  intro q
  by_cases hqp : q = p
  · subst hqp
    exact iff_of_true hp rfl
  · rw [hrest q hqp, h q]
    exact iff_of_false (by simp) fun heq => hqp (Option.some.inj heq).symm

/-- `p` goes outside and releases the mutex. -/
theorem release (h : Owns inside mu) (hp : inside p = true) (hp' : inside' p = false)
    (hrest : ∀ q, q ≠ p → inside' q = inside q) : Owns inside' none := by
  intro q
  refine iff_of_false ?_ (by simp)
  by_cases hqp : q = p
  · subst hqp
    simp [hp']
  · rw [hrest q hqp, h.outside hp hqp]
    simp

end Owns

/-! ## 2. A reader-writer lock -/

/-- Who holds a reader-writer lock. -/
structure SharedMutex (ι : Type*) where
  exclusive : Option ι
  shared : Finset ι
  /-- An exclusive holder coexists with no other holder. -/
  alone : exclusive ≠ none → shared = ∅

namespace SharedMutex

/-- The lock that nobody holds. -/
def free : SharedMutex ι := ⟨none, ∅, fun h => absurd rfl h⟩

variable [DecidableEq ι]

/-- `lock()` by `t`, which waits until nobody holds the lock. -/
def lock? (l : SharedMutex ι) (t : ι) : Option (SharedMutex ι) :=
  if l.exclusive = none ∧ l.shared = ∅ then some ⟨some t, ∅, fun _ => rfl⟩ else none

/-- `unlock()` by `t`. -/
def unlock? (l : SharedMutex ι) (t : ι) : Option (SharedMutex ι) :=
  if l.exclusive = some t then some free else none

/-- `lock_shared()` by `t`, which waits until nobody holds the lock exclusively. -/
def lockShared? (l : SharedMutex ι) (t : ι) : Option (SharedMutex ι) :=
  if l.exclusive = none then some ⟨none, insert t l.shared, fun h => absurd rfl h⟩ else none

/-- `unlock_shared()` by `t`. -/
def unlockShared? (l : SharedMutex ι) (t : ι) : Option (SharedMutex ι) :=
  if t ∈ l.shared then
    some ⟨l.exclusive, l.shared.erase t, fun h => by rw [l.alone h, Finset.erase_empty]⟩
  else none

variable {l l' : SharedMutex ι} {t : ι}

theorem lock?_eq_some (h : l.lock? t = some l') :
    l.exclusive = none ∧ l.shared = ∅ ∧ l'.exclusive = some t ∧ l'.shared = ∅ := by
  unfold lock? at h
  split at h
  · rename_i hfree
    obtain rfl := Option.some.inj h
    exact ⟨hfree.1, hfree.2, rfl, rfl⟩
  · exact absurd h (by simp)

theorem unlock?_eq_some (h : l.unlock? t = some l') :
    l.exclusive = some t ∧ l.shared = ∅ ∧ l'.exclusive = none ∧ l'.shared = ∅ := by
  unfold unlock? at h
  split at h
  · rename_i howner
    obtain rfl := Option.some.inj h
    exact ⟨howner, l.alone (by simp [howner]), rfl, rfl⟩
  · exact absurd h (by simp)

theorem lockShared?_eq_some (h : l.lockShared? t = some l') :
    l.exclusive = none ∧ l'.exclusive = none ∧ l'.shared = insert t l.shared := by
  unfold lockShared? at h
  split at h
  · rename_i hfree
    obtain rfl := Option.some.inj h
    exact ⟨hfree, rfl, rfl⟩
  · exact absurd h (by simp)

theorem unlockShared?_eq_some (h : l.unlockShared? t = some l') :
    t ∈ l.shared ∧ l'.exclusive = l.exclusive ∧ l'.shared = l.shared.erase t := by
  unfold unlockShared? at h
  split at h
  · rename_i hmem
    obtain rfl := Option.some.inj h
    exact ⟨hmem, rfl, rfl⟩
  · exact absurd h (by simp)

omit [DecidableEq ι] in
/-- **While somebody holds the lock shared, nobody holds it exclusively.** -/
theorem exclusive_eq_none_of_shared (ht : t ∈ l.shared) : l.exclusive = none := by
  by_contra hne
  rw [l.alone hne] at ht
  exact absurd ht (Finset.notMem_empty t)

end SharedMutex

end CxxConcurrency.Lib
