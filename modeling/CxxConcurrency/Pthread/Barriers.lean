/-
# `execute` of `pthread/barriers.cpp`

The main thread initialises the barrier for `c` threads, creates `n` workers and joins them; a
worker waits at the barrier and returns.  The file takes one constant for both numbers and says
why: if they do not match, all workers can be blocked forever.

They need not match: `execute` returns exactly where `c` divides `n` (`execute_returns_iff`).
Otherwise it never does, and `n % c` workers stay blocked.
-/
import CxxConcurrency.Lib.Barrier
import CxxConcurrency.Lib.ForkJoin
import CxxConcurrency.Lib.Parties
import Mathlib.Data.Fintype.Card

namespace CxxConcurrency.Pthread.Barriers

open CxxConcurrency.Lib

/-! ## 1. The workers -/

/-- Where a worker is. -/
inductive Worker
  /-- About to call `pthread_barrier_wait`. -/
  | start
  /-- In `pthread_barrier_wait`, blocked. -/
  | blocked
  /-- In `pthread_barrier_wait`, about to return. -/
  | released
  | exited
  deriving DecidableEq

/-- What a worker does in a step. -/
inductive Act (n : ℕ)
  /-- `pthread_barrier_wait( &barrier )` -/
  | wait (i : Fin n)
  /-- It returns from `pthread_barrier_wait`, and ends. -/
  | exit (i : Fin n)
  deriving DecidableEq

variable {n c : ℕ}

/-- A worker that may pass. -/
def Worker.release : Worker → Worker
  | .blocked => .released
  | p => p

/-- The workers when worker `i` has arrived and those in `pass` may pass. -/
def arrive (w : Fin n → Option Worker) (i : Fin n) (pass : Finset (Fin n)) (j : Fin n) :
    Option Worker :=
  if j = i then some (if i ∈ pass then .released else .blocked)
  else if j ∈ pass then (w j).map Worker.release
  else w j

/-- One step of a worker. -/
def step (b : Barrier (Fin n)) (w : Fin n → Option Worker) :
    Act n → Option (Barrier (Fin n) × (Fin n → Option Worker))
  | .wait i =>
    match w i with
    | some .start => (b.wait? i).map fun (pass, b') => (b', arrive w i pass)
    | _ => none
  | .exit i =>
    match w i with
    | some .released => some (b, Function.update w i (some .exited))
    | _ => none

variable {b b' : Barrier (Fin n)} {w w' : Fin n → Option Worker} {i j : Fin n}
  {pass : Finset (Fin n)} {a : Act n}

/-- The cases of a step. -/
inductive StepCase (b : Barrier (Fin n)) (w : Fin n → Option Worker) :
    Act n → Barrier (Fin n) → (Fin n → Option Worker) → Prop
  | wait {i : Fin n} {pass : Finset (Fin n)} {b' : Barrier (Fin n)} (hi : w i = some .start)
      (hwait : b.wait? i = some (pass, b')) : StepCase b w (.wait i) b' (arrive w i pass)
  | exit {i : Fin n} (hi : w i = some .released) :
      StepCase b w (.exit i) b (Function.update w i (some .exited))

/-- **Every step is one of the cases.** -/
theorem stepCase_of_step (h : step b w a = some (b', w')) : StepCase b w a b' w' := by
  cases a with
  | wait i =>
    simp only [step] at h
    split at h
    · rename_i hi
      obtain ⟨⟨pass, b₁⟩, hwait, heq⟩ := Option.map_eq_some_iff.mp h
      obtain ⟨rfl, rfl⟩ := Prod.mk.inj heq
      exact .wait hi hwait
    · exact absurd h (by simp)
  | exit i =>
    simp only [step] at h
    split at h
    · rename_i hi
      obtain ⟨rfl, rfl⟩ := Prod.mk.inj (Option.some.inj h)
      exact .exit hi
    · exact absurd h (by simp)

section Arrive

theorem arrive_self : arrive w i pass i = some (if i ∈ pass then .released else .blocked) :=
  if_pos rfl

theorem arrive_of_mem (hji : j ≠ i) (hj : j ∈ pass) :
    arrive w i pass j = (w j).map Worker.release := by
  rw [arrive, if_neg hji, if_pos hj]

theorem arrive_of_notMem (hji : j ≠ i) (hj : j ∉ pass) : arrive w i pass j = w j := by
  rw [arrive, if_neg hji, if_neg hj]

/-- What does not tell a worker released from a worker blocked does not tell that it has been let
pass. -/
theorem arrive_congr {α : Type*} (g : Option Worker → α)
    (hg : g (some .released) = g (some .blocked)) (j : Fin n) :
    g (arrive w i pass j) = g (Function.update w i (some .blocked) j) := by
  rcases eq_or_ne j i with rfl | hji
  · rw [arrive_self, Function.update_self]
    split
    · exact hg
    · rfl
  · rw [Function.update_of_ne hji]
    by_cases hj : j ∈ pass
    · rw [arrive_of_mem hji hj]
      rcases w j with _ | (_ | _ | _ | _)
      · rfl
      · rfl
      · exact hg
      · rfl
      · rfl
    · rw [arrive_of_notMem hji hj]

end Arrive

/-- Whether a worker has returned. -/
def Worker.done : Worker → Bool
  | .exited => true
  | _ => false

/-- What a step leaves: the workers created, and those that have returned. -/
theorem StepCase.frame (h : StepCase b w a b' w') (j : Fin n) :
    (w' j).isSome = (w j).isSome ∧
      ((w j).any Worker.done = true → (w' j).any Worker.done = true) := by
  cases h with
  | @wait i pass _ hi hwait =>
    rw [arrive_congr Option.isSome rfl j, arrive_congr (fun o => o.any Worker.done) rfl j]
    rcases eq_or_ne j i with rfl | hji
    · simp [hi, Worker.done]
    · simp [Function.update_of_ne hji]
  | @exit i hi =>
    rcases eq_or_ne j i with rfl | hji
    · simp [hi, Worker.done]
    · simp [Function.update_of_ne hji]

/-- The workers of `execute`. -/
def worker (n : ℕ) : ForkJoin.Program n (Barrier (Fin n)) Worker (Act n) where
  start := .start
  done := Worker.done
  step := step
  created h i := ((stepCase_of_step h).frame i).1
  ended h i := ((stepCase_of_step h).frame i).2

/-- The process in `execute`, after `pthread_barrier_init( &barrier, nullptr, c )`. -/
def Process.init (n c : ℕ) (hc : 0 < c) : ForkJoin n (Barrier (Fin n)) Worker :=
  ForkJoin.init n Worker (Barrier.init c hc)

/-! ## 2. Who is at the barrier -/

/-- Whether a worker has arrived at the barrier. -/
def arrived : Option Worker → ℕ
  | none | some .start => 0
  | some .blocked | some .released | some .exited => 1

/-- The invariant of the workers. -/
structure Inv (c : ℕ) (b : Barrier (Fin n)) (w : Fin n → Option Worker) : Prop where
  count : b.count = c
  waiting : ∀ i, i ∈ b.waiting ↔ w i = some .blocked
  arrived : b.arrived = ∑ i, arrived (w i)

theorem Inv.init (hc : 0 < c) : Inv c (Barrier.init c hc) fun _ : Fin n => none where
  count := rfl
  waiting i := by simp [Barrier.init]
  arrived := by simp [Barrier.init, Barriers.arrived]

/-- A worker that moves without a change of the barrier. -/
theorem Inv.move (hI : Inv c b w) {p : Worker} (hp : p ≠ .blocked) (hi : w i ≠ some .blocked)
    (harrived : Barriers.arrived (some p) = Barriers.arrived (w i)) :
    Inv c b (Function.update w i (some p)) where
  count := hI.count
  waiting := (Function.forall_update_iff w fun j o => j ∈ b.waiting ↔ o = some .blocked).mpr
    ⟨iff_of_false (fun h => hi ((hI.waiting i).mp h)) fun h => hp (Option.some.inj h),
      fun j _ => hI.waiting j⟩
  arrived := by
    have hsum := sum_update_add w Barriers.arrived i (some p)
    have hold := hI.arrived
    omega

/-- A worker arrives at the barrier. -/
theorem Inv.wait (hI : Inv c b w) (hi : w i = some .start)
    (hwait : b.wait? i = some (pass, b')) : Inv c b' (arrive w i pass) := by
  obtain ⟨-, hcount, harrived, hpass⟩ := Barrier.wait?_eq_some hwait
  refine ⟨hcount.trans hI.count, fun j => ?_, ?_⟩
  · rcases hpass with ⟨rfl, hw⟩ | ⟨rfl, hw⟩
    · -- the round is complete, and nobody waits any more
      rw [hw]
      refine iff_of_false (Finset.notMem_empty j) ?_
      rcases eq_or_ne j i with rfl | hji
      · simp [arrive_self]
      · by_cases hj : j ∈ insert i b.waiting
        · have hblocked := (hI.waiting j).mp ((Finset.mem_insert.mp hj).resolve_left hji)
          simp [arrive_of_mem hji hj, hblocked, Worker.release]
        · rw [arrive_of_notMem hji hj]
          exact fun h => hj (Finset.mem_insert_of_mem ((hI.waiting j).mpr h))
    · rw [hw, Finset.mem_insert, hI.waiting j]
      rcases eq_or_ne j i with rfl | hji
      · simp [arrive_self]
      · simp [arrive_of_notMem hji (Finset.notMem_empty j), hji]
  · have hsum := sum_update_add w Barriers.arrived i (some .blocked)
    rw [hi] at hsum
    change _ + 0 = _ + 1 at hsum
    have hold := hI.arrived
    rw [Finset.sum_congr rfl fun j _ => arrive_congr Barriers.arrived rfl j]
    omega

/-- **Every step keeps the invariant.** -/
theorem Inv.step (h : StepCase b w a b' w') (hI : Inv c b w) : Inv c b' w' := by
  cases h with
  | wait hi hwait => exact hI.wait hi hwait
  | exit hi => exact hI.move (by simp) (by simp [hi]) (by rw [hi]; rfl)

/-- How many steps a worker has left. -/
def left : Option Worker → ℕ
  | none | some .start => 2
  | some .blocked | some .released => 1
  | some .exited => 0

theorem left_step (h : StepCase b w a b' w') : ∑ i, left (w' i) < ∑ i, left (w i) := by
  cases h with
  | @wait i pass _ hi hwait =>
    have hsum := sum_update_add w left i (some .blocked)
    rw [hi] at hsum
    change _ + 2 = _ + 1 at hsum
    rw [Finset.sum_congr rfl fun j _ => arrive_congr left rfl j]
    omega
  | @exit i hi =>
    have hsum := sum_update_add w left i (some .exited)
    rw [hi] at hsum
    change _ + 1 = _ + 0 at hsum
    omega

/-! ## 3. How a run ends -/

/-- The workers that are blocked are those that wait at the barrier. -/
theorem Inv.blocked_eq (hI : Inv c b w) :
    (Finset.univ.filter fun i => w i = some .blocked) = b.waiting := by
  ext i
  rw [Finset.mem_filter, hI.waiting i]
  exact and_iff_right (Finset.mem_univ i)

/-- Once all have arrived, the barrier holds back the last round if it is not complete. -/
theorem Inv.card_blocked (hI : Inv c b w) (hall : ∀ i, Barriers.arrived (w i) = 1) :
    (Finset.univ.filter fun i => w i = some .blocked).card = n % c := by
  rw [hI.blocked_eq, b.card_waiting, hI.count, hI.arrived, Finset.sum_const_nat fun i _ => hall i,
    Finset.card_univ, Fintype.card_fin, Nat.mul_one]

variable {s : ForkJoin n (Barrier (Fin n)) Worker} {as : List (ForkJoin.Act (Act n))}

theorem Inv.run {hc : 0 < c}
    (h : Run (Fires (ForkJoin.step (worker n))) (Process.init n c hc) as s) :
    Inv c s.shared s.thread :=
  ForkJoin.invariant (Inv.init hc)
    (fun _ _ _ hI hi => hI.move (by simp [worker]) (by simp [hi]) (by rw [hi]; rfl))
    (fun _ _ _ _ _ hI hst => hI.step (stepCase_of_step hst)) h

/-- A run of `execute` has at most `4 * n + 2` steps. -/
theorem length_le {hc : 0 < c}
    (h : Run (Fires (ForkJoin.step (worker n))) (Process.init n c hc) as s) :
    as.length ≤ 4 * n + 2 := by
  have hle := ForkJoin.length_le (I := fun _ _ => True) (m := fun _ w => ∑ i, left (w i)) trivial
    (fun _ w i _ hi => ⟨trivial, by
      have hsum := sum_update_add w left i (some .start)
      rw [hi] at hsum
      change _ + 2 = _ + 2 at hsum
      exact (Nat.add_right_cancel hsum).le⟩)
    (fun _ _ _ _ _ _ hst => ⟨trivial, left_step (stepCase_of_step hst)⟩) h
  have hinit : ∑ _i : Fin n, left none = n * 2 := by
    rw [Finset.sum_const_nat fun _ _ => rfl, Finset.card_univ, Fintype.card_fin]
    rfl
  change as.length ≤ (∑ _i : Fin n, left none) + _ at hle
  omega

/-- In the end every worker is blocked or has returned. -/
theorem blocked_or_exited (hI : Inv c s.shared s.thread) (hS : ForkJoin.Stuck (worker n) s)
    (hsome : (s.thread i).isSome = true) :
    s.thread i = some .blocked ∨ s.thread i = some .exited := by
  obtain ⟨p, hp⟩ := Option.isSome_iff_exists.mp hsome
  rw [hp]
  cases p with
  | blocked => exact Or.inl rfl
  | exited => exact Or.inr rfl
  | start =>
    have hnot : i ∉ s.shared.waiting := fun h => by simp [(hI.waiting i).mp h] at hp
    obtain ⟨pass, b, hwait⟩ := Barrier.wait?_isSome hnot
    exact absurd (hS.thread (.wait i)) (by simp [worker, step, hp, hwait])
  | released => exact absurd (hS.thread (.exit i)) (by simp [worker, step, hp])

/-- In the end the workers that are blocked are those of an incomplete round. -/
theorem card_blocked_of_stuck (hI : Inv c s.shared s.thread)
    (hk : s.main.Knows (worker n) s.thread) (hS : ForkJoin.Stuck (worker n) s) :
    (Finset.univ.filter fun i => s.thread i = some .blocked).card = n % c :=
  hI.card_blocked fun i => by
    rcases blocked_or_exited hI hS (hS.isSome hk i) with h | h <;> rw [h] <;> rfl

theorem returned_iff_of_stuck (hI : Inv c s.shared s.thread)
    (hk : s.main.Knows (worker n) s.thread) (hS : ForkJoin.Stuck (worker n) s) :
    s.main = .returned ↔ c ∣ n := by
  rw [hS.returned_iff hk, Nat.dvd_iff_mod_eq_zero, ← card_blocked_of_stuck hI hk hS,
    Finset.card_eq_zero, Finset.filter_eq_empty_iff]
  refine forall_congr' fun i => ?_
  rcases blocked_or_exited hI hS (hS.isSome hk i) with h | h
  · simp [h, worker, Worker.done]
  · simp [h, worker, Worker.done]

/-- `execute` returns only if the rounds are complete. -/
theorem dvd_of_returned {hc : 0 < c}
    (h : Run (Fires (ForkJoin.step (worker n))) (Process.init n c hc) as s)
    (hmain : s.main = .returned) : c ∣ n := by
  have hexit : ∀ i, s.thread i = some .exited := by
    intro i
    have hdone := ForkJoin.done_of_returned h hmain i
    rcases hi : s.thread i with _ | (_ | _ | _ | _) <;>
      simp_all [worker, Worker.done]
  have hcard := (Inv.run h).card_blocked fun i => by rw [hexit i]; rfl
  rw [Finset.filter_eq_empty_iff.mpr fun i _ => by simp [hexit i], Finset.card_empty] at hcard
  exact Nat.dvd_of_mod_eq_zero hcard.symm

/-- **Nobody passes the barrier alone.**  In every state the workers that have passed are whole
rounds, and those that are blocked are the rest of those that have arrived. -/
theorem passed_in_rounds (hc : 0 < c)
    (h : Run (Fires (ForkJoin.step (worker n))) (Process.init n c hc) as s) :
    (∑ i, arrived (s.thread i)) = c * (s.shared.arrived / c)
        + (Finset.univ.filter fun i => s.thread i = some .blocked).card ∧
      (Finset.univ.filter fun i => s.thread i = some .blocked).card < c := by
  have hI := Inv.run h
  have harrived := s.shared.arrived_eq
  rw [hI.count] at harrived
  rw [hI.blocked_eq, ← hI.arrived]
  refine ⟨harrived, ?_⟩
  rw [s.shared.card_waiting, hI.count]
  exact Nat.mod_lt _ hc

/-- Two of three workers have passed a barrier for two. -/
theorem passed_in_rounds_three :
    ∃ as s, Run (Fires (ForkJoin.step (worker 3))) (Process.init 3 2 (by decide)) as s ∧
      (∑ i, arrived (s.thread i)) = 3 ∧
      (Finset.univ.filter fun i => s.thread i = some .blocked).card < 2 := by
  obtain ⟨s, hrun, hsum⟩ := exists_run_of_exec (ForkJoin.step (worker 3))
    (Process.init 3 2 (by decide))
    [.create, .create, .thread (.wait 1), .create, .thread (.wait 0), .thread (.exit 1),
      .thread (.wait 2)]
    (fun s => (∑ i, arrived (s.thread i)) = 3) ⟨_, rfl, rfl⟩
  exact ⟨_, s, hrun, hsum, (passed_in_rounds (by decide) hrun).2⟩

/-- **When `execute` returns**: exactly where the count of the barrier divides the number of the
threads.  Every run ends, and if the count does not divide the number, it ends with the rest of the
threads blocked in `pthread_barrier_wait` and the main thread in `pthread_join`. -/
theorem execute_returns_iff (n : ℕ) (hc : 0 < c) :
    ((∃ as s, Run (Fires (ForkJoin.step (worker n))) (Process.init n c hc) as s ∧
        s.main = .returned) ↔ c ∣ n) ∧
      ∀ as s, Run (Fires (ForkJoin.step (worker n))) (Process.init n c hc) as s →
        as.length ≤ 4 * n + 2 ∧ (ForkJoin.Stuck (worker n) s →
          (Finset.univ.filter fun i => s.thread i = some .blocked).card = n % c ∧
          (s.main = .returned ↔ c ∣ n)) := by
  refine ⟨⟨?_, fun hdvd => ?_⟩, fun as s h => ⟨length_le h, fun hS => ?_⟩⟩
  · rintro ⟨as, s, h, hmain⟩
    exact dvd_of_returned h hmain
  · obtain ⟨as, s, h, hS⟩ : ∃ as s, Run (Fires (ForkJoin.step (worker n))) (Process.init n c hc)
        as s ∧ ForkJoin.Stuck (worker n) s := ForkJoin.exists_stuck fun as s h => length_le h
    exact ⟨as, s, h, (returned_iff_of_stuck (Inv.run h) (ForkJoin.knows_run h) hS).mpr hdvd⟩
  · exact ⟨card_blocked_of_stuck (Inv.run h) (ForkJoin.knows_run h) hS,
      returned_iff_of_stuck (Inv.run h) (ForkJoin.knows_run h) hS⟩

theorem execute_returns_iff_four :
    (∃ as s, Run (Fires (ForkJoin.step (worker 4))) (Process.init 4 4 (by decide)) as s ∧
        s.main = .returned) ∧
      ¬ ∃ as s, Run (Fires (ForkJoin.step (worker 4))) (Process.init 4 3 (by decide)) as s ∧
        s.main = .returned :=
  ⟨(execute_returns_iff 4 (by decide)).1.mpr (by decide),
    fun h => absurd ((execute_returns_iff 4 (by decide)).1.mp h) (by decide)⟩

end CxxConcurrency.Pthread.Barriers
