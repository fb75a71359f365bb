/-
# The atomic counter of `lockfree/counter.cpp`

The works of a `ThreadPool` call `inc()` on one counter, and after the scope of the pool the test
compares `value()` with the number of the works.  `v++` on an `std::atomic<int>` is one atomic
step, so no call is lost; and it wraps around without undefined behaviour, so with `2 ^ 31` works
the comparison fails.
-/
import CxxConcurrency.Pools.Scope
import Mathlib.Algebra.Group.Nat.Defs

namespace CxxConcurrency.Lockfree

open CxxConcurrency.Lib CxxConcurrency.Pools

/-- `class Counter`. -/
structure Counter where
  v : BitVec 32

namespace Counter

/-- The counter just constructed. -/
def init : Counter := ⟨0⟩

/-- `inc()`. -/
def inc (c : Counter) : Counter := ⟨c.v + 1⟩

/-- `value()`. -/
def value (c : Counter) : ℤ := c.v.toInt

/-- The counter counts the calls, modulo `2 ^ 32`. -/
theorem v_foldl_inc {α : Type*} (l : List α) (c : Counter) :
    (l.foldl (fun c _ => c.inc) c).v = c.v + BitVec.ofNat 32 l.length := by
  induction l generalizing c with
  | nil => simp
  | cons x l ih =>
    have hlen : BitVec.ofNat 32 (l.length + 1) = 1 + BitVec.ofNat 32 l.length := by
      rw [Nat.add_comm, BitVec.ofNat_add]
      rfl
    rw [List.foldl_cons, ih, List.length_cons, hlen, inc, BitVec.add_assoc]

/-- The value is the number of the calls as long as an `int` can hold it. -/
theorem value_ofNat_iff (n : ℕ) : value ⟨BitVec.ofNat 32 n⟩ = n ↔ n < 2 ^ 31 := by
  rw [value, BitVec.toInt_ofNat']
  constructor
  · intro h
    have hlt := Int.bmod_lt (x := n) (m := 2 ^ 32) (by decide)
    omega
  · intro h
    rw [Int.bmod_eq_of_le] <;> omega

variable {m n : ℕ} {s : PoolScope Counter} {as : List PoolScope.Act}

/-- **The counter counts the works.**  The test ends whatever the order of the steps, where
`max_size` is not 0, and its comparison holds exactly where an `int` can hold the number of the
works. -/
theorem counts_works_iff (hm : 1 ≤ m)
    (h : Run (Fires (PoolScope.step m fun _ => inc)) (PoolScope.init n init) as s) :
    as.length ≤ 9 * n + 4 ∧
      ((∀ a, s.step m (fun _ => inc) a = none) → s.tp.pc = .destroyed) ∧
      (s.tp.pc = .destroyed → (s.data.value = n ↔ n < 2 ^ 31)) := by
  have hI := PoolScope.Inv.run h
  refine ⟨PoolScope.length_le h, hI.destroyed_of_stuck hm, fun hpc => ?_⟩
  obtain ⟨hperm, hdata⟩ := hI.of_destroyed hpc
  have hv : s.data = ⟨BitVec.ofNat 32 n⟩ := by
    rw [hdata]
    refine congrArg Counter.mk ((v_foldl_inc s.ran init).trans ?_)
    rw [hperm.length_eq, List.length_range]
    exact BitVec.zero_add _
  rw [hv]
  exact value_ofNat_iff n

/-- Two works, the second of which is the first to count. -/
theorem counts_works_iff_two :
    ∃ as s, Run (Fires (PoolScope.step 2 fun _ => inc)) (PoolScope.init 2 init) as s ∧
      s.tp.pc = .destroyed ∧ s.ran = [1, 0] ∧ s.data.value = (2 : ℕ) := by
  obtain ⟨s, hrun, hpc, hran⟩ := exists_run_of_exec (PoolScope.step 2 fun _ => inc)
    (PoolScope.init 2 init)
    [.pool .doWork, .pool .emplaceBack, .pool .doWork, .pool .emplaceBack, .run 1,
      .pool (.finish 1), .pool .destroy, .pool .test, .run 0, .pool (.finish 0), .pool .joinFront,
      .pool .popFront, .pool .test, .pool .joinFront, .pool .popFront, .pool .test]
    (fun s => s.tp.pc = .destroyed ∧ s.ran = [1, 0]) ⟨_, rfl, rfl, rfl⟩
  exact ⟨_, s, hrun, hpc, hran, ((counts_works_iff (by decide) hrun).2.2 hpc).mpr (by decide)⟩

end Counter

end CxxConcurrency.Lockfree
