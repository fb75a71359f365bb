/-
# Queues that are gone while a thief holds their address

A worker keeps raw pointers to all sibling queues.  `~Queue` waits for its own worker only, so
the elements of `qs` can be destroyed while another worker has already chosen one of them with
`chooseSibling()`, or chooses one that is gone.  Its next `tryPopFront()` then locks a mutex that
has been destroyed (`Pool.UsesDestroyed`).

A run is free of this as long as no queue is destroyed while a worker is about to pop it and no
worker chooses a queue that has been destroyed; destroying the queues only after the last worker
has exited is enough (`no_use_after_last_exit`).  The standard leaves the order in which a vector
destroys its elements open, so a run may take any.
-/
import CxxConcurrency.TaskSystem.Stealing.Pool

namespace CxxConcurrency.TaskSystem.Stealing

open CxxConcurrency.Lib

variable {n : ℕ} {s s' : Pool n} {a : Act n} {as : List (Act n)}

/-! ## 1. The queue a worker is about to pop -/

/-- The queue on which worker `j` makes its next step, where that is a `tryPopFront()`. -/
def Pool.target (s : Pool n) (j : Fin n) : Option (Fin n) :=
  match s.worker j with
  | .top => some j
  | .steal p => some p
  | _ => none

/-- The next step of worker `j` is a `tryPopFront()` on a destroyed queue. -/
def Pool.UsesDestroyed (s : Pool n) (j : Fin n) : Prop :=
  ∃ p, s.target j = some p ∧ s.alive p = false

instance {j : Fin n} : Decidable (s.UsesDestroyed j) :=
  inferInstanceAs (Decidable (∃ p, s.target j = some p ∧ s.alive p = false))

/-- A worker with a target can do nothing but pop it. -/
theorem alive_of_target {j p : Fin n} (h : StepCase s (.work j) s') (hp : s.target j = some p) :
    s.alive p = true := by
  cases h with
  | popOwn hw halive => exact (by simpa [Pool.target, hw] using hp : j = p) ▸ halive
  | popOwnNone hw halive => exact (by simpa [Pool.target, hw] using hp : j = p) ▸ halive
  | popSibling hw halive => exact (by simpa [Pool.target, hw] using hp : _ = p) ▸ halive
  | popSiblingNone hw halive => exact (by simpa [Pool.target, hw] using hp : _ = p) ▸ halive
  | exit hw => simp [Pool.target, hw] at hp
  | runOwn hw => simp [Pool.target, hw] at hp
  | chooseNone hw => simp [Pool.target, hw] at hp
  | choose hw => simp [Pool.target, hw] at hp
  | runStolen hw => simp [Pool.target, hw] at hp
  | dropStolen hw => simp [Pool.target, hw] at hp

/-- Worker `j`'s step is undefined where it uses a destroyed queue. -/
theorem no_step_of_usesDestroyed {j : Fin n} (h : s.UsesDestroyed j) :
    ¬ PoolStep s (.work j) s' := by
  rintro hst
  obtain ⟨p, hp, hdead⟩ := h
  rw [alive_of_target (stepCase_of_step hst) hp] at hdead
  exact absurd hdead (by simp)

/-! ## 2. Which steps keep the targets alive -/

/-- The step destroys no queue that a worker has chosen, and chooses no queue that has been
destroyed. -/
def keepsTargets (s : Pool n) : Act n → Bool
  | .destroy i => ∀ j, s.worker j ≠ .steal i
  | .work j =>
    match s.worker j with
    | .empty => ∀ p, (siblings n j)[s.siblingIdx]? = some p → s.alive p = true
    | _ => true
  | _ => true

theorem keepsTargets_destroy_iff {i : Fin n} :
    keepsTargets s (.destroy i) = true ↔ ∀ j, s.worker j ≠ .steal i := by
  simp [keepsTargets]

theorem keepsTargets_choose_iff {j : Fin n} (hw : s.worker j = .empty) :
    keepsTargets s (.work j) = true ↔
      ∀ p, (siblings n j)[s.siblingIdx]? = some p → s.alive p = true := by
  simp [keepsTargets, hw]

/-- A queue that has been destroyed was destroyed now or before. -/
theorem alive_cases (h : StepCase s a s') {p : Fin n} (hp : s'.alive p = false) :
    s.alive p = false ∨ (a = .destroy p ∧ s.worker p = .exited) := by
  cases h with
  | @destroy i _ hexit _ =>
    by_cases hpi : p = i
    · subst hpi
      exact Or.inr ⟨rfl, hexit⟩
    · exact Or.inl (by simpa [hpi] using hp)
  | _ => exact Or.inl hp

/-- An exited worker stays so. -/
theorem exited_stays (h : StepCase s a s') {j : Fin n} (hj : s.worker j = .exited) :
    s'.worker j = .exited := by
  by_cases ha : a = .work j
  · subst ha
    cases h <;> simp_all
  · rwa [worker_of_ne h ha]

/-- The two facts that keep destroyed queues alone: their workers have exited, and no worker has
chosen one of them. -/
structure Apart (s : Pool n) : Prop where
  dead : ∀ i, s.alive i = false → s.worker i = .exited
  chosen : ∀ j p, s.worker j = .steal p → s.alive p = true

theorem Apart.init (siblingIdx queueIdx : ℕ) : Apart (Pool.init n siblingIdx queueIdx) where
  dead i hi := by simp [Pool.init] at hi
  chosen j p hj := by simp [Pool.init] at hj

/-- The workers of destroyed queues have exited, whatever else happens. -/
theorem dead_step (h : StepCase s a s') (hs : ∀ i, s.alive i = false → s.worker i = .exited)
    (i : Fin n) (hi : s'.alive i = false) : s'.worker i = .exited := by
  rcases alive_cases h hi with hdead | ⟨-, hexit⟩
  · exact exited_stays h (hs i hdead)
  · exact exited_stays h hexit

/-- **A step that keeps the targets alive keeps destroyed queues alone.** -/
theorem Apart.step (h : StepCase s a s') (hC : keepsTargets s a = true) (hA : Apart s) :
    Apart s' where
  dead := dead_step h hA.dead
  chosen j p hj := by
    by_contra hdead
    have hdead' : s'.alive p = false := by simpa using hdead
    by_cases ha : a = .work j
    · subst ha
      cases h with
      | @choose _ p' hw hp =>
        obtain rfl : p' = p := by simpa [Pool.setWorker] using hj
        exact hdead ((keepsTargets_choose_iff hw).mp hC _ hp)
      | _ => simp [Pool.setWorker] at hj
    · rw [worker_of_ne h ha] at hj
      rcases alive_cases h hdead' with hold | ⟨rfl, -⟩
      · rw [hA.chosen j p hj] at hold
        exact absurd hold (by simp)
      · exact keepsTargets_destroy_iff.mp hC j hj

/-- No worker is about to pop a queue that has been left alone. -/
theorem Apart.not_usesDestroyed (hA : Apart s) (j : Fin n) : ¬ s.UsesDestroyed j := by
  rintro ⟨p, hp, hdead⟩
  unfold Pool.target at hp
  split at hp
  · rename_i hw
    obtain rfl := Option.some.inj hp
    rw [hA.dead j hdead] at hw
    exact absurd hw (by simp)
  · rename_i q hw
    obtain rfl := Option.some.inj hp
    rw [hA.chosen j q hw] at hdead
    exact absurd hdead (by simp)
  · exact absurd hp (by simp)

/-- A step that does not keep the targets alive leaves a worker about to use a destroyed
queue. -/
theorem usesDestroyed_of_step (h : StepCase s a s') (hC : keepsTargets s a = false) :
    ∃ j, s'.UsesDestroyed j := by
  cases h with
  | @destroy i _ _ _ =>
    have hnot : ¬ ∀ j, s.worker j ≠ .steal i := by
      intro hall
      simp [keepsTargets_destroy_iff.mpr hall] at hC
    obtain ⟨j, hj⟩ := not_forall.mp hnot
    exact ⟨j, i, by simp [Pool.target, not_not.mp hj], by simp⟩
  | @choose i p hw hp =>
    have hdead : s.alive p = false := by
      by_contra halive
      have hall : keepsTargets s (.work i) = true := by
        refine (keepsTargets_choose_iff hw).mpr ?_
        intro q hq
        obtain rfl : p = q := Option.some.inj (hp.symm.trans hq)
        simpa using halive
      simp [hall] at hC
    exact ⟨i, p, by simp [Pool.target, Pool.setWorker], hdead⟩
  | chooseNone hw hsib => simp [keepsTargets, hw, hsib] at hC
  | _ => simp_all [keepsTargets]

/-! ## 3. The lifetime of the queues -/

/-- **When no destroyed queue is used.**  In a run whose steps keep the targets alive no worker
is ever about to pop a destroyed queue, and the first step that does not leaves one that is. -/
theorem destroyed_queue_unused {siblingIdx queueIdx : ℕ}
    (h : Run (Restrict (fun s a => keepsTargets s a = true) PoolStep)
      (Pool.init n siblingIdx queueIdx) as s) :
    (∀ j, ¬ s.UsesDestroyed j) ∧
    ∀ a s', PoolStep s a s' → keepsTargets s a = false → ∃ j, s'.UsesDestroyed j := by
  have hA : Apart s :=
    h.invariant (fun _ _ _ hA hst => hA.step (stepCase_of_step hst.2) hst.1) (Apart.init _ _)
  constructor
  · exact hA.not_usesDestroyed
  · intro a s' hst hC
    exact usesDestroyed_of_step (stepCase_of_step hst) hC

/-- Two queues whose workers exit, each on its own pill, before the first is destroyed. -/
theorem destroyed_queue_unused_two_queues :
    ∃ s, Run (Restrict (fun s a => keepsTargets s a = true) PoolStep) (Pool.init 2 0 0)
        [.close, .next, .next, .next, .work 0, .work 0, .work 1, .work 1, .destroy 0,
          .destroy 1] s ∧
      s.alive 0 = false ∧ ∀ j, ¬ s.UsesDestroyed j := by
  obtain ⟨s, hrun, hdead⟩ := exists_restricted_run_of_exec
    (fun s a => keepsTargets s a = true) (Pool.step .Random) (Pool.init 2 0 0)
    [.close, .next, .next, .next, .work 0, .work 0, .work 1, .work 1, .destroy 0,
      .destroy 1]
    (fun s => s.alive 0 = false) (by decide)
  exact ⟨s, hrun, hdead, (destroyed_queue_unused hrun).1⟩

/-- **A thief can use a destroyed queue**: worker 1 has chosen queue 0 and is suspended while
worker 0 exits on its pill and queue 0 is destroyed. -/
theorem thief_uses_destroyed_queue :
    ¬ ∀ (n : ℕ) (as : List (Act n)) (s : Pool n), 0 < n → Run PoolStep (Pool.init n 0 0) as s →
      ∀ j, ¬ s.UsesDestroyed j := by
  intro hall
  obtain ⟨s, hrun, huse⟩ := exists_run_of_exec (Pool.step .Random) (Pool.init 2 0 0)
    [.work 1, .work 1, .close, .next, .next, .next, .work 0, .work 0, .destroy 0]
    (fun s => s.UsesDestroyed 1) (by decide)
  exact hall 2 _ s (by decide) hrun 1 huse

/-- Where no queue is destroyed before the last worker has exited, a step leaves all queues alive
or all workers exited. -/
theorem allAlive_or_allExited_step (h : StepCase s a s')
    (hC : ∀ i, a = .destroy i → ∀ j, s.worker j = .exited)
    (hI : (∀ i, s.alive i = true) ∨ ∀ j, s.worker j = .exited) :
    (∀ i, s'.alive i = true) ∨ ∀ j, s'.worker j = .exited := by
  rcases hI with halive | hexit
  · by_cases ha : ∃ i, a = .destroy i
    · obtain ⟨i, rfl⟩ := ha
      right
      intro j
      exact exited_stays h (hC i rfl j)
    · left
      intro i
      by_contra hdead
      rcases alive_cases h (by simpa using hdead) with hold | ⟨hd, -⟩
      · simp [halive i] at hold
      · exact ha ⟨i, hd⟩
  · right
    intro j
    exact exited_stays h (hexit j)

/-- It is enough that no queue is destroyed before the last worker has exited. -/
theorem no_use_after_last_exit {siblingIdx queueIdx : ℕ}
    (h : Run (Restrict (fun s a => ∀ i, a = .destroy i → ∀ j, s.worker j = .exited) PoolStep)
      (Pool.init n siblingIdx queueIdx) as s) (j : Fin n) : ¬ s.UsesDestroyed j := by
  have hend : (∀ i, s.alive i = true) ∨ ∀ j, s.worker j = .exited :=
    h.invariant (I := fun s => (∀ i, s.alive i = true) ∨ ∀ j, s.worker j = .exited)
      (fun _ _ _ hI hst => allAlive_or_allExited_step (stepCase_of_step hst.2) hst.1 hI)
      (Or.inl fun _ => rfl)
  rintro ⟨p, hp, hdead⟩
  rcases hend with halive | hexit
  · simp [halive p] at hdead
  · simp [Pool.target, hexit j] at hp

end CxxConcurrency.TaskSystem.Stealing
