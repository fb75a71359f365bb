/-
# `execute` of `pthread/rwlocks.cpp`

Each of `n` workers locks the one reader-writer lock for reading, unlocks it, locks it for writing
and unlocks it.  The file says that without the first `pthread_rwlock_unlock` the
`pthread_rwlock_wrlock` blocks forever; `missing` says which workers leave it out, and for the
program as it is it is `fun _ => false`.

`execute` returns in every order of the steps exactly where no worker leaves the unlock out
(`execute_returns_iff_unlocked`): a worker that does waits for itself, and no other worker gets to
write any more.
-/
import CxxConcurrency.Lib.ForkJoin
import CxxConcurrency.Lib.Mutex

namespace CxxConcurrency.Pthread.Rwlocks

open CxxConcurrency.Lib

/-! ## 1. The workers -/

/-- Where a worker is. -/
inductive Worker
  /-- About to call `pthread_rwlock_rdlock`. -/
  | rdlock
  /-- About to call the first `pthread_rwlock_unlock`. -/
  | rdunlock
  /-- About to call `pthread_rwlock_wrlock`. -/
  | wrlock
  /-- About to call the second `pthread_rwlock_unlock`. -/
  | wrunlock
  | exited
  deriving DecidableEq

variable {n : ℕ}

/-- One step of worker `i`, which is its next call. -/
def step (missing : Fin n → Bool) (l : SharedMutex (Fin n)) (w : Fin n → Option Worker)
    (i : Fin n) : Option (SharedMutex (Fin n) × (Fin n → Option Worker)) :=
  match w i with
  | some .rdlock => (l.lockShared? i).map fun l' =>
      (l', Function.update w i (some (if missing i then .wrlock else .rdunlock)))
  | some .rdunlock => (l.unlockShared? i).map fun l' => (l', Function.update w i (some .wrlock))
  | some .wrlock => (l.lock? i).map fun l' => (l', Function.update w i (some .wrunlock))
  | some .wrunlock => (l.unlock? i).map fun l' => (l', Function.update w i (some .exited))
  | _ => none

variable {missing : Fin n → Bool} {l l' : SharedMutex (Fin n)} {w w' : Fin n → Option Worker}
  {i j : Fin n}

/-- The cases of a step. -/
inductive StepCase (missing : Fin n → Bool) (l : SharedMutex (Fin n)) (w : Fin n → Option Worker)
    (i : Fin n) : SharedMutex (Fin n) → (Fin n → Option Worker) → Prop
  | rdlock {l' : SharedMutex (Fin n)} (hi : w i = some .rdlock) (hl : l.lockShared? i = some l') :
      StepCase missing l w i l'
        (Function.update w i (some (if missing i then .wrlock else .rdunlock)))
  | rdunlock {l' : SharedMutex (Fin n)} (hi : w i = some .rdunlock)
      (hl : l.unlockShared? i = some l') :
      StepCase missing l w i l' (Function.update w i (some .wrlock))
  | wrlock {l' : SharedMutex (Fin n)} (hi : w i = some .wrlock) (hl : l.lock? i = some l') :
      StepCase missing l w i l' (Function.update w i (some .wrunlock))
  | wrunlock {l' : SharedMutex (Fin n)} (hi : w i = some .wrunlock) (hl : l.unlock? i = some l') :
      StepCase missing l w i l' (Function.update w i (some .exited))

/-- **Every step is one of the cases.** -/
theorem stepCase_of_step (h : step missing l w i = some (l', w')) :
    StepCase missing l w i l' w' := by
  unfold step at h
  split at h
  · rename_i hi
    obtain ⟨l₁, hl, heq⟩ := Option.map_eq_some_iff.mp h
    obtain ⟨rfl, rfl⟩ := Prod.mk.inj heq
    exact .rdlock hi hl
  · rename_i hi
    obtain ⟨l₁, hl, heq⟩ := Option.map_eq_some_iff.mp h
    obtain ⟨rfl, rfl⟩ := Prod.mk.inj heq
    exact .rdunlock hi hl
  · rename_i hi
    obtain ⟨l₁, hl, heq⟩ := Option.map_eq_some_iff.mp h
    obtain ⟨rfl, rfl⟩ := Prod.mk.inj heq
    exact .wrlock hi hl
  · rename_i hi
    obtain ⟨l₁, hl, heq⟩ := Option.map_eq_some_iff.mp h
    obtain ⟨rfl, rfl⟩ := Prod.mk.inj heq
    exact .wrunlock hi hl
  · exact absurd h (by simp)

/-- How many calls a worker has left. -/
def left : Option Worker → ℕ
  | none | some .rdlock => 4
  | some .rdunlock => 3
  | some .wrlock => 2
  | some .wrunlock => 1
  | some .exited => 0

/-- **A step takes one worker on**, and leaves the others where they are. -/
theorem StepCase.move (h : StepCase missing l w i l' w') :
    ∃ p p', w i = some p ∧ w' = Function.update w i (some p') ∧
      left (some p') < left (some p) := by
  cases h with
  | rdlock hi _ =>
    refine ⟨_, _, hi, rfl, ?_⟩
    split <;> simp [left]
  | rdunlock hi _ | wrlock hi _ | wrunlock hi _ => exact ⟨_, _, hi, rfl, by simp [left]⟩

/-- Whether a worker has returned. -/
def Worker.done : Worker → Bool
  | .exited => true
  | _ => false

/-- The workers of `execute`. -/
def worker (missing : Fin n → Bool) :
    ForkJoin.Program n (SharedMutex (Fin n)) Worker (Fin n) where
  start := .rdlock
  done := Worker.done
  step := step missing
  created {_ w a _ _} h i := by
    obtain ⟨p, p', hp, rfl, -⟩ := (stepCase_of_step h).move
    rcases eq_or_ne i a with rfl | hia
    · simp [hp]
    · rw [Function.update_of_ne hia]
  ended {_ w a _ _} h i hi := by
    obtain ⟨p, p', hp, rfl, hlt⟩ := (stepCase_of_step h).move
    rcases eq_or_ne i a with rfl | hia
    · -- a worker that has returned has no call left
      rw [hp] at hi
      cases p <;> simp_all [Worker.done, left]
    · rwa [Function.update_of_ne hia]

/-- The process in `execute`. -/
def Process.init (n : ℕ) : ForkJoin n (SharedMutex (Fin n)) Worker :=
  ForkJoin.init n Worker SharedMutex.free

/-! ## 2. Who holds the lock -/

/-- Whether a worker holds the lock for reading. -/
def reads (missing : Bool) : Option Worker → Prop
  | some .rdunlock => True
  | some .wrlock => missing = true
  | _ => False

/-- The invariant of the workers. -/
structure Inv (missing : Fin n → Bool) (l : SharedMutex (Fin n)) (w : Fin n → Option Worker) :
    Prop where
  shared : ∀ i, i ∈ l.shared ↔ reads (missing i) (w i)
  exclusive : ∀ i, l.exclusive = some i ↔ w i = some .wrunlock
  /-- A worker that has left the unlock out does not get to write. -/
  missing : ∀ i, missing i = true → w i ≠ some .rdunlock ∧ w i ≠ some .wrunlock ∧
    w i ≠ some .exited

/-- Worker `i` moves, and the lock changes for it alone. -/
theorem Inv.update (hI : Inv missing l w) {p : Worker}
    (hshared : ∀ j, j ≠ i → (j ∈ l'.shared ↔ j ∈ l.shared))
    (hi : i ∈ l'.shared ↔ reads (missing i) (some p))
    (hexcl : ∀ j, j ≠ i → (l'.exclusive = some j ↔ l.exclusive = some j))
    (hexcl' : l'.exclusive = some i ↔ p = .wrunlock)
    (hp : missing i = true → p ≠ .rdunlock ∧ p ≠ .wrunlock ∧ p ≠ .exited) :
    Inv missing l' (Function.update w i (some p)) where
  shared := (Function.forall_update_iff w fun j o => j ∈ l'.shared ↔ reads (missing j) o).mpr
    ⟨hi, fun j hj => (hshared j hj).trans (hI.shared j)⟩
  exclusive := (Function.forall_update_iff w fun j o => l'.exclusive = some j ↔
    o = some .wrunlock).mpr
    ⟨by simpa using hexcl', fun j hj => (hexcl j hj).trans (hI.exclusive j)⟩
  missing := (Function.forall_update_iff w fun j o => missing j = true →
    o ≠ some .rdunlock ∧ o ≠ some .wrunlock ∧ o ≠ some .exited).mpr
    ⟨by simpa using hp, fun j _ => hI.missing j⟩

/-- **Every step keeps the invariant.** -/
theorem Inv.step (h : StepCase missing l w i l' w') (hI : Inv missing l w) :
    Inv missing l' w' := by
  cases h with
  | rdlock hi hl =>
    obtain ⟨hnone, hnone', hset⟩ := SharedMutex.lockShared?_eq_some hl
    refine hI.update (fun j hj => ?_) ?_ (fun j _ => by rw [hnone, hnone']) ?_ ?_
    · rw [hset, Finset.mem_insert]
      exact or_iff_right hj
    · rw [hset]
      cases hm : missing i <;> simp [reads]
    · rw [hnone']
      cases missing i <;> simp
    · intro hm
      simp [hm]
  | rdunlock hi hl =>
    obtain ⟨hmem, hexcl, hset⟩ := SharedMutex.unlockShared?_eq_some hl
    have hm : missing i = false := by
      by_contra hne
      exact (hI.missing i (eq_true_of_ne_false hne)).1 hi
    have hnone := SharedMutex.exclusive_eq_none_of_shared hmem
    refine hI.update (fun j hj => ?_) ?_ (fun j _ => by rw [hexcl]) ?_ ?_
    · rw [hset, Finset.mem_erase]
      exact and_iff_right hj
    · rw [hset]
      simp [reads, hm]
    · rw [hexcl, hnone]
      simp
    · intro hm'
      rw [hm] at hm'
      exact absurd hm' (by simp)
  | wrlock hi hl =>
    obtain ⟨hnone, hempty, hexcl, hset⟩ := SharedMutex.lock?_eq_some hl
    have hm : missing i = false := by
      -- a worker that has left the unlock out holds the lock for reading itself
      by_contra hne
      have hmem : i ∈ l.shared := (hI.shared i).mpr (by rw [hi]; exact eq_true_of_ne_false hne)
      rw [hempty] at hmem
      exact absurd hmem (Finset.notMem_empty i)
    refine hI.update (fun j _ => by rw [hset, hempty]) ?_ (fun j hj => ?_) ?_ ?_
    · rw [hset]
      simp [reads]
    · rw [hexcl, hnone]
      simp [Ne.symm hj]
    · simp [hexcl]
    · intro hm'
      rw [hm] at hm'
      exact absurd hm' (by simp)
  | wrunlock hi hl =>
    obtain ⟨howner, hempty, hexcl, hset⟩ := SharedMutex.unlock?_eq_some hl
    refine hI.update (fun j _ => by rw [hset, hempty]) ?_ (fun j hj => ?_) ?_ ?_
    · rw [hset]
      simp [reads]
    · rw [hexcl, howner]
      simp [Ne.symm hj]
    · simp [hexcl]
    · intro hm
      exact absurd hi (hI.missing i hm).2.1

theorem Inv.init : Inv missing SharedMutex.free fun _ : Fin n => none where
  shared i := by simp [SharedMutex.free, reads]
  exclusive i := by simp [SharedMutex.free]
  missing i _ := by simp

variable {s : ForkJoin n (SharedMutex (Fin n)) Worker} {as : List (ForkJoin.Act (Fin n))}

theorem Inv.run (h : Run (Fires (ForkJoin.step (worker missing))) (Process.init n) as s) :
    Inv missing s.shared s.thread :=
  ForkJoin.invariant Inv.init
    (fun l w i hI hi => hI.update (fun _ _ => Iff.rfl)
      (by rw [hI.shared i, hi]; simp [reads, worker]) (fun _ _ => Iff.rfl)
      (by rw [hI.exclusive i, hi]; simp [worker]) (by simp [worker]))
    (fun _ _ _ _ _ hI hst => hI.step (stepCase_of_step hst)) h

/-- While a worker holds the lock for writing nobody holds it for reading. -/
theorem not_reads_of_writer (hI : Inv missing s.shared s.thread)
    (hi : s.thread i = some .wrunlock) : ¬ reads (missing j) (s.thread j) := by
  intro hj
  have howner := (hI.exclusive i).mpr hi
  rw [SharedMutex.exclusive_eq_none_of_shared ((hI.shared j).mpr hj)] at howner
  exact absurd howner (by simp)

/-- While a worker writes, one that leaves the first unlock out has not locked for reading yet. -/
theorem before_rdlock_of_writer (hI : Inv missing s.shared s.thread)
    (hi : s.thread i = some .wrunlock) (hmissing : missing j = true) :
    s.thread j = none ∨ s.thread j = some .rdlock := by
  have hreads : ¬ reads (missing j) (s.thread j) := not_reads_of_writer hI hi
  obtain ⟨hrdunlock, hwrunlock, hexited⟩ := hI.missing j hmissing
  cases hj : s.thread j with
  | none => exact Or.inl rfl
  | some p =>
    cases p with
    | rdlock => exact Or.inr rfl
    | rdunlock => exact absurd hj hrdunlock
    | wrlock =>
      rw [hj] at hreads
      exact absurd hmissing hreads
    | wrunlock => exact absurd hj hwrunlock
    | exited => exact absurd hj hexited

/-- **A writer is alone.**  Between the return of `pthread_rwlock_wrlock` and the call of
`pthread_rwlock_unlock` no other worker is between its own; and none that leaves the first unlock
out, and so never gives its lock back, has come past `pthread_rwlock_rdlock`. -/
theorem writer_alone
    (h : Run (Fires (ForkJoin.step (worker missing))) (Process.init n) as s) {i j : Fin n}
    (hi : s.thread i = some .wrunlock) :
    s.thread j ≠ some .rdunlock ∧
      (missing j = true → s.thread j = none ∨ s.thread j = some .rdlock) ∧
      (s.thread j = some .wrunlock → j = i) := by
  have hI := Inv.run h
  refine ⟨fun hj => ?_, before_rdlock_of_writer hI hi, fun hj => ?_⟩
  · have hreads : ¬ reads (missing j) (s.thread j) := not_reads_of_writer hI hi
    rw [hj] at hreads
    exact hreads trivial
  · exact Option.some.inj (((hI.exclusive j).mpr hj).symm.trans ((hI.exclusive i).mpr hi))

/-- Worker 0 writes; worker 1 unlocks and waits to write, worker 2, which leaves the unlock out, has
not locked yet. -/
theorem writer_alone_three :
    ∃ as s, Run (Fires (ForkJoin.step (worker fun i : Fin 3 => decide (i = 2)))) (Process.init 3)
        as s ∧
      s.thread 0 = some .wrunlock ∧ s.thread 1 = some .wrlock ∧ s.thread 2 = some .rdlock ∧
      s.thread 1 ≠ some .rdunlock ∧ (s.thread 2 = none ∨ s.thread 2 = some .rdlock) := by
  obtain ⟨s, hrun, h0, h1, h2⟩ := exists_run_of_exec
    (ForkJoin.step (worker fun i : Fin 3 => decide (i = 2))) (Process.init 3)
    [.create, .thread 0, .create, .thread 0, .thread 1, .create, .thread 1, .thread 0]
    (fun s => s.thread 0 = some .wrunlock ∧ s.thread 1 = some .wrlock ∧
      s.thread 2 = some .rdlock) ⟨_, rfl, rfl, rfl, rfl⟩
  exact ⟨_, s, hrun, h0, h1, h2, (writer_alone hrun h0).1, (writer_alone hrun h0).2.1 rfl⟩

/-! ## 3. How a run ends -/

/-- A run of `execute` has at most `6 * n + 2` steps. -/
theorem length_le (h : Run (Fires (ForkJoin.step (worker missing))) (Process.init n) as s) :
    as.length ≤ 6 * n + 2 := by
  have hle := ForkJoin.length_le_of_move (m := left) rfl
    (fun _ _ i _ _ hst => ⟨i, (stepCase_of_step hst).move⟩) h
  change as.length ≤ n * 4 + _ at hle
  omega

/-- In the end nobody holds the lock for writing: the writer would unlock it. -/
theorem exclusive_of_stuck (hI : Inv missing s.shared s.thread)
    (hS : ForkJoin.Stuck (worker missing) s) : s.shared.exclusive = none := by
  by_contra hne
  obtain ⟨i, howner⟩ := Option.ne_none_iff_exists'.mp hne
  have hi := (hI.exclusive i).mp howner
  exact absurd (hS.thread i) (by simp [worker, step, hi, SharedMutex.unlock?, howner])

/-- In the end every worker waits for the write lock or has returned. -/
theorem wrlock_or_exited (hI : Inv missing s.shared s.thread)
    (hS : ForkJoin.Stuck (worker missing) s) (hsome : (s.thread i).isSome = true) :
    s.thread i = some .wrlock ∨ s.thread i = some .exited := by
  have hfree := exclusive_of_stuck hI hS
  obtain ⟨p, hp⟩ := Option.isSome_iff_exists.mp hsome
  rw [hp]
  cases p with
  | wrlock => exact Or.inl rfl
  | exited => exact Or.inr rfl
  | rdlock =>
    exact absurd (hS.thread i) (by simp [worker, step, hp, SharedMutex.lockShared?, hfree])
  | rdunlock =>
    have hmem : i ∈ s.shared.shared := (hI.shared i).mpr (by rw [hp]; trivial)
    exact absurd (hS.thread i) (by simp [worker, step, hp, SharedMutex.unlockShared?, hmem])
  | wrunlock =>
    rw [(hI.exclusive i).mpr hp] at hfree
    exact absurd hfree (by simp)

/-- A worker that waits for the write lock waits for one that has left the unlock out. -/
theorem exists_missing_of_wrlock (hI : Inv missing s.shared s.thread)
    (hk : s.main.Knows (worker missing) s.thread) (hS : ForkJoin.Stuck (worker missing) s)
    (hi : s.thread i = some .wrlock) : ∃ j, missing j = true := by
  have hfree := exclusive_of_stuck hI hS
  obtain ⟨j, hj⟩ : s.shared.shared.Nonempty := by
    by_contra hempty
    rw [Finset.not_nonempty_iff_eq_empty] at hempty
    exact absurd (hS.thread i) (by simp [worker, step, hi, SharedMutex.lock?, hfree, hempty])
  have hreads := (hI.shared j).mp hj
  rcases wrlock_or_exited hI hS (hS.isSome hk j) with hj' | hj'
  · rw [hj'] at hreads
    exact ⟨j, hreads⟩
  · rw [hj'] at hreads
    exact hreads.elim

/-- **What the end looks like.**  The workers that have left the unlock out wait for the write
lock, and the main thread has returned just where there is none. -/
theorem of_stuck (h : Run (Fires (ForkJoin.step (worker missing))) (Process.init n) as s)
    (hS : ForkJoin.Stuck (worker missing) s) :
    (∀ i, missing i = true → s.thread i = some .wrlock) ∧
      (s.main = .returned ↔ ∀ i, missing i = false) := by
  have hI := Inv.run h
  have hk := ForkJoin.knows_run h
  have hend := fun i => wrlock_or_exited (i := i) hI hS (hS.isSome hk i)
  refine ⟨fun i hm => (hend i).resolve_right (hI.missing i hm).2.2, ?_⟩
  rw [hS.returned_iff hk]
  refine ⟨fun hdone i => ?_, fun hall i => ?_⟩
  · by_contra hm
    have hi := (hend i).resolve_right (hI.missing i (eq_true_of_ne_false hm)).2.2
    have hdone := hdone i
    rw [hi] at hdone
    exact absurd hdone Bool.false_ne_true
  · rcases hend i with hi | hi
    · obtain ⟨j, hj⟩ := exists_missing_of_wrlock hI hk hS hi
      rw [hall j] at hj
      exact absurd hj (by decide)
    · rw [hi]
      rfl

/-- `execute` returns only if no worker leaves the unlock out. -/
theorem unlocked_of_returned
    (h : Run (Fires (ForkJoin.step (worker missing))) (Process.init n) as s)
    (hmain : s.main = .returned) (i : Fin n) : missing i = false := by
  by_contra hm
  obtain ⟨-, -, hnot⟩ := (Inv.run h).missing i (eq_true_of_ne_false hm)
  have hdone := ForkJoin.done_of_returned h hmain i
  rcases hi : s.thread i with _ | (_ | _ | _ | _ | _) <;> simp_all [worker, Worker.done]

/-- **When `execute` returns**: exactly where every worker unlocks the read lock.  Every run ends,
and the workers that leave the unlock out end blocked in `pthread_rwlock_wrlock`. -/
theorem execute_returns_iff_unlocked (missing : Fin n → Bool) :
    ((∃ as s, Run (Fires (ForkJoin.step (worker missing))) (Process.init n) as s ∧
        s.main = .returned) ↔ ∀ i, missing i = false) ∧
      ∀ as s, Run (Fires (ForkJoin.step (worker missing))) (Process.init n) as s →
        as.length ≤ 6 * n + 2 ∧ (ForkJoin.Stuck (worker missing) s →
          (∀ i, missing i = true → s.thread i = some .wrlock) ∧
          (s.main = .returned ↔ ∀ i, missing i = false)) := by
  refine ⟨⟨?_, fun hall => ?_⟩, fun as s h => ⟨length_le h, of_stuck h⟩⟩
  · rintro ⟨as, s, h, hmain⟩
    exact unlocked_of_returned h hmain
  · obtain ⟨as, s, h, hS⟩ : ∃ as s, Run (Fires (ForkJoin.step (worker missing))) (Process.init n)
        as s ∧ ForkJoin.Stuck (worker missing) s := ForkJoin.exists_stuck fun as s h => length_le h
    exact ⟨as, s, h, (of_stuck h hS).2.mpr hall⟩

end CxxConcurrency.Pthread.Rwlocks
