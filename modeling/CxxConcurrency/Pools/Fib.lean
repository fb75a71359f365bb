/-
# `fib`, the work of the pools

The works that the pools are given call a recursive `int fib( int )`, of which there are two
versions.  Those beside `ThreadPool`, the counter, the stack and the spin lock stop at `0` and `1`;
those beside the task queues stop at every number up to `2`.  Signed overflow has no defined
result, so `fib` has a value only where the Fibonacci number is an `int`, and the first version
none below `0`, where nothing stops it before the argument overflows (`fib_value_iff`).

The models of the pools take it that the works return.  For the works of `test_pool` in
`local_task_queue.cpp` this says what the arguments of `test_pool` must be (`works_return_iff`).
-/
import Mathlib.Algebra.Order.Group.Unbundled.Int
import Mathlib.Data.Nat.Fib.Basic
import Mathlib.Tactic.NormNum.NatFib

namespace CxxConcurrency.Pools

/-! ## 1. The function -/

/-- The numbers an `int` can hold. -/
def IsInt (x : ℤ) : Prop := -2 ^ 31 ≤ x ∧ x < 2 ^ 31

instance (x : ℤ) : Decidable (IsInt x) := inferInstanceAs (Decidable (_ ∧ _))

/-- The result of an operation on `int`, if it is one. -/
def int? (x : ℤ) : Option ℤ := if IsInt x then some x else none

/-- `base( n ) ? 1 : fib( n - 1 ) + fib( n - 2 )`, with at most `fuel` calls one in the other. -/
def fibWith (base : ℤ → Bool) : ℕ → ℤ → Option ℤ
  | 0, _ => none
  | fuel + 1, n =>
    if base n then some 1
    else do
      let a ← fibWith base fuel (← int? (n - 1))
      let b ← fibWith base fuel (← int? (n - 2))
      int? (a + b)

/-- `fib` of `thread_pool.cpp`, `counter.cpp`, `stack.cpp`, `parallel_cells.cpp`, `spin_lock.cpp`
and `shared_mutex.cpp`, and `fib_` of `future_perf.cpp`. -/
def fib : ℕ → ℤ → Option ℤ := fibWith fun n => n = 1 || n = 0

/-- `fib` of `local_task_queue.cpp` and of `task_stealing.cpp`. -/
def taskFib : ℕ → ℤ → Option ℤ := fibWith fun n => !(n > 2)

variable {p : ℤ → Bool} {fuel k : ℕ} {b n v x : ℤ}

theorem int?_eq_some : int? x = some v ↔ IsInt x ∧ x = v := by
  unfold int?
  split <;> simp_all

/-- What a call that does not stop the recursion returns. -/
theorem fibWith_eq_some (hn : p n = false) :
    fibWith p (fuel + 1) n = some v ↔
      ∃ a c, IsInt (n - 1) ∧ fibWith p fuel (n - 1) = some a ∧
        IsInt (n - 2) ∧ fibWith p fuel (n - 2) = some c ∧ IsInt (a + c) ∧ a + c = v := by
  simp only [fibWith, hn, Bool.false_eq_true, if_false, Option.bind_eq_bind,
    Option.bind_eq_some_iff, int?_eq_some]
  constructor
  · rintro ⟨_, ⟨h1, rfl⟩, a, ha, _, ⟨h2, rfl⟩, c, hc, hsum, hv⟩
    exact ⟨a, c, h1, ha, h2, hc, hsum, hv⟩
  · rintro ⟨a, c, h1, ha, h2, hc, hsum, hv⟩
    exact ⟨_, ⟨h1, rfl⟩, a, ha, _, ⟨h2, rfl⟩, c, hc, hsum, hv⟩

/-! ## 2. Its values -/

/-- The version stops at `b` and `b + 1`, and not above. -/
structure StopsAt (p : ℤ → Bool) (b : ℤ) : Prop where
  int : IsInt b
  first : p b = true
  second : p (b + 1) = true
  above : ∀ n, b + 1 < n → p n = false

/-- **What it returns**: the Fibonacci number, which is an `int`. -/
theorem eq_fib_of_returns (hb : StopsAt p b) (h : fibWith p fuel (b + k) = some v) :
    v = Nat.fib (k + 1) ∧ v < 2 ^ 31 := by
  induction k using Nat.strong_induction_on generalizing fuel v with
  | h k ih =>
    cases fuel with
    | zero => exact absurd h (by simp [fibWith])
    | succ fuel =>
      match k with
      | 0 =>
        rw [Nat.cast_zero, Int.add_zero, fibWith, if_pos hb.first] at h
        obtain rfl := Option.some.inj h
        decide
      | 1 =>
        rw [Nat.cast_one, fibWith, if_pos hb.second] at h
        obtain rfl := Option.some.inj h
        decide
      | k + 2 =>
        obtain ⟨a, c, -, ha, -, hc, hsum, rfl⟩ :=
          (fibWith_eq_some (hb.above _ (by push_cast; omega))).mp h
        have hn1 : b + ((k + 2 : ℕ) : ℤ) - 1 = b + ((k + 1 : ℕ) : ℤ) := by push_cast; omega
        have hn2 : b + ((k + 2 : ℕ) : ℤ) - 2 = b + (k : ℤ) := by push_cast; omega
        rw [hn1] at ha
        rw [hn2] at hc
        refine ⟨?_, hsum.2⟩
        rw [(ih (k + 1) (by omega) ha).1, (ih k (by omega) hc).1, Nat.fib_add_two (n := k + 1)]
        push_cast
        omega

/-- **Where it returns**: as long as the result is an `int`, with `k + 1` calls one in the other. -/
theorem returns_of_lt (hb : StopsAt p b) (hfuel : k < fuel) (hint : b + k < 2 ^ 31)
    (hlt : Nat.fib (k + 1) < 2 ^ 31) : fibWith p fuel (b + k) = some (Nat.fib (k + 1) : ℤ) := by
  induction k using Nat.strong_induction_on generalizing fuel with
  | h k ih =>
    obtain ⟨fuel, rfl⟩ := Nat.exists_eq_add_one_of_ne_zero (Nat.ne_zero_of_lt hfuel)
    have hlow := hb.int.1
    match k with
    | 0 => simp [fibWith, hb.first]
    | 1 => simp [fibWith, hb.second]
    | k + 2 =>
      have hadd : Nat.fib (k + 2 + 1) = Nat.fib (k + 1) + Nat.fib (k + 1 + 1) := Nat.fib_add_two
      have hn1 : b + ((k + 2 : ℕ) : ℤ) - 1 = b + ((k + 1 : ℕ) : ℤ) := by push_cast; omega
      have hn2 : b + ((k + 2 : ℕ) : ℤ) - 2 = b + (k : ℤ) := by push_cast; omega
      push_cast at hint
      rw [hadd] at hlt
      rw [hadd, fibWith_eq_some (hb.above _ (by push_cast; omega)), hn1, hn2]
      refine ⟨_, _, ⟨?_, ?_⟩, ih (k + 1) (by omega) (by omega) (by push_cast; omega) (by omega),
        ⟨?_, ?_⟩, ih k (by omega) (by omega) (by omega) (by omega), ⟨?_, ?_⟩, ?_⟩
      all_goals push_cast
      all_goals omega

/-- The largest Fibonacci number that is an `int`. -/
theorem fib_lt_iff : Nat.fib (k + 1) < 2 ^ 31 ↔ k ≤ 45 := by
  constructor
  · intro h
    by_contra hk
    have hmono : Nat.fib 47 ≤ Nat.fib (k + 1) := Nat.fib_mono (by omega)
    norm_num at hmono
    omega
  · intro h
    have hmono : Nat.fib (k + 1) ≤ Nat.fib 46 := Nat.fib_mono (by omega)
    norm_num at hmono
    omega

/-- From the number where it stops, up. -/
theorem fibWith_value_iff (hb : StopsAt p b) (hint : b + 45 < 2 ^ 31) :
    (∃ fuel, fibWith p fuel (b + k) = some v) ↔ k ≤ 45 ∧ v = Nat.fib (k + 1) := by
  constructor
  · rintro ⟨fuel, h⟩
    obtain ⟨rfl, hlt⟩ := eq_fib_of_returns hb h
    exact ⟨fib_lt_iff.mp (by omega), rfl⟩
  · rintro ⟨hk, rfl⟩
    exact ⟨k + 1, returns_of_lt hb (Nat.lt_succ_self k) (by omega) (fib_lt_iff.mpr hk)⟩

/-- Nothing stops the first version below `0`. -/
theorem fib_of_neg (hn : n < 0) (fuel : ℕ) : fib fuel n = none := by
  induction fuel generalizing n with
  | zero => rfl
  | succ fuel ih =>
    refine Option.eq_none_iff_forall_ne_some.mpr fun v h => ?_
    have hbase : (decide (n = 1) || decide (n = 0)) = false := by
      simp only [Bool.or_eq_false_iff, decide_eq_false_iff_not]
      omega
    obtain ⟨a, -, -, ha, -⟩ := (fibWith_eq_some (p := fun n => n = 1 || n = 0) hbase).mp h
    exact absurd ((ih (n := n - 1) (by omega)).symm.trans ha) (by simp)

/-- **The values of both versions.**  The first has a value exactly from `0` to `45`, the second
exactly up to `46`. -/
theorem fib_value_iff (n v : ℤ) :
    ((∃ fuel, fib fuel n = some v) ↔ 0 ≤ n ∧ n ≤ 45 ∧ v = Nat.fib (n.toNat + 1)) ∧
      ((∃ fuel, taskFib fuel n = some v) ↔ n ≤ 46 ∧
        v = (if n ≤ 2 then 1 else Nat.fib n.toNat : ℕ)) := by
  constructor
  · have hstops : StopsAt (fun n => n = 1 || n = 0) 0 := by
      refine ⟨by decide, by decide, by decide, fun n hn => ?_⟩
      simp only [Bool.or_eq_false_iff, decide_eq_false_iff_not]
      omega
    rcases lt_or_ge n 0 with hn | hn
    · refine iff_of_false ?_ (by omega)
      rintro ⟨fuel, h⟩
      exact absurd ((fib_of_neg hn fuel).symm.trans h) (by simp)
    · obtain ⟨k, rfl⟩ := Int.eq_ofNat_of_zero_le hn
      have hiff := fibWith_value_iff (k := k) (v := v) hstops (by decide)
      rw [Int.zero_add] at hiff
      rw [fib, hiff, Int.toNat_natCast]
      omega
  · have hstops : StopsAt (fun n => !(n > 2)) 1 := by
      refine ⟨by decide, by decide, by decide, fun n hn => ?_⟩
      simpa using hn
    rcases le_or_gt n 2 with hn | hn
    · rw [if_pos hn]
      have hbase : (!decide (n > 2)) = true := by simpa using hn
      constructor
      · rintro ⟨fuel, h⟩
        cases fuel with
        | zero => exact absurd h (by simp [taskFib, fibWith])
        | succ fuel =>
          rw [taskFib, fibWith, if_pos hbase] at h
          exact ⟨by omega, (Option.some.inj h).symm⟩
      · rintro ⟨-, rfl⟩
        exact ⟨1, by rw [taskFib, fibWith, if_pos hbase, Nat.cast_one]⟩
    · obtain ⟨k, hk⟩ := Int.eq_ofNat_of_zero_le (by omega : 0 ≤ n - 1)
      obtain rfl : n = 1 + (k : ℤ) := by omega
      have hiff := fibWith_value_iff (k := k) (v := v) hstops (by decide)
      have htoNat : (1 + (k : ℤ)).toNat = k + 1 := by omega
      rw [taskFib, hiff, if_neg (by omega), htoNat]
      omega

/-! ## 3. The works of `test_pool` -/

variable {mi mx : ℤ} {idx numWorks : ℕ}

/-- `fib( mi + idx % ( mx - mi ) )`: the work `idx` of `test_pool`, and with `mi` and `mx` the
smallest workload and one more than the largest that of the benchmarks of `task_stealing.cpp`. -/
def work (mi mx : ℤ) (idx fuel : ℕ) : Option ℤ := do
  let d ← int? (mx - mi)
  if d = 0 then none
  else taskFib fuel (← int? (mi + (idx : ℤ).tmod d))

/-- `idx % d` of a number that is not negative. -/
theorem natCast_tmod (idx : ℕ) (d : ℤ) : (idx : ℤ).tmod d = (idx % d.natAbs : ℕ) := by
  cases d with
  | ofNat d => rfl
  | negSucc d => rfl

/-- When one work returns. -/
theorem work_returns_iff (hmi : IsInt mi) :
    (∃ fuel v, work mi mx idx fuel = some v) ↔
      IsInt (mx - mi) ∧ mx ≠ mi ∧ mi + (idx % (mx - mi).natAbs : ℕ) ≤ 46 := by
  constructor
  · rintro ⟨fuel, v, h⟩
    obtain ⟨d, hd, h⟩ := Option.bind_eq_some_iff.mp h
    obtain ⟨hint, rfl⟩ := int?_eq_some.mp hd
    split at h
    · exact absurd h (by simp)
    · rename_i hne
      obtain ⟨n, hn, h⟩ := Option.bind_eq_some_iff.mp h
      obtain ⟨-, rfl⟩ := int?_eq_some.mp hn
      have hle := ((fib_value_iff _ v).2.mp ⟨fuel, h⟩).1
      rw [natCast_tmod] at hle
      exact ⟨hint, fun heq => hne (by omega), hle⟩
  · rintro ⟨hint, hne, hle⟩
    obtain ⟨v, fuel, h⟩ : ∃ v fuel, taskFib fuel (mi + (idx % (mx - mi).natAbs : ℕ)) = some v :=
      ⟨_, (fib_value_iff _ _).2.mpr ⟨hle, rfl⟩⟩
    have hlow := hmi.1
    have harg : IsInt (mi + (idx % (mx - mi).natAbs : ℕ)) := ⟨by omega, by omega⟩
    refine ⟨fuel, v, Option.bind_eq_some_iff.mpr ⟨mx - mi, int?_eq_some.mpr ⟨hint, rfl⟩, ?_⟩⟩
    rw [if_neg (by omega), natCast_tmod]
    exact Option.bind_eq_some_iff.mpr ⟨_, int?_eq_some.mpr ⟨harg, rfl⟩, h⟩

/-- **When the works return.**  All of the first `numWorks` works have a value exactly where `mi`
and `mx` differ, their difference is an `int`, and the largest of the arguments is at most `46`. -/
theorem works_return_iff (hmi : IsInt mi) :
    (∀ idx < numWorks, ∃ fuel v, work mi mx idx fuel = some v) ↔
      numWorks = 0 ∨ IsInt (mx - mi) ∧ mx ≠ mi ∧
        mi + (min (numWorks - 1) ((mx - mi).natAbs - 1) : ℕ) ≤ 46 := by
  simp only [work_returns_iff hmi]
  constructor
  · intro h
    refine (Nat.eq_zero_or_pos numWorks).imp_right fun hpos => ?_
    obtain ⟨hint, hne, -⟩ := h 0 hpos
    -- the work with the largest argument
    obtain ⟨-, -, hle⟩ := h (min (numWorks - 1) ((mx - mi).natAbs - 1)) (by omega)
    rw [Nat.mod_eq_of_lt (by omega)] at hle
    exact ⟨hint, hne, hle⟩
  · rintro (rfl | ⟨hint, hne, hle⟩) idx hidx
    · exact absurd hidx (Nat.not_lt_zero idx)
    · have hmod : idx % (mx - mi).natAbs < (mx - mi).natAbs := Nat.mod_lt _ (by omega)
      have hself := Nat.mod_le idx (mx - mi).natAbs
      exact ⟨hint, hne, by omega⟩

/-- The works of `bench()`. -/
theorem works_return_bench :
    IsInt 20 ∧ ∀ idx < 200, ∃ fuel v, work 20 42 idx fuel = some v :=
  ⟨by decide, (works_return_iff (by decide)).mpr (Or.inr (by decide))⟩

end CxxConcurrency.Pools
