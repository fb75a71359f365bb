/-
# What has run when every worker has exited

`Early` speaks of the tasks posted before the first `join()`: no such task stands behind a pill
in any log.  So once worker `i` has popped its pill they are all out of queue `i`, and once
every worker has exited they have all been executed.

Posts after a `join()` go behind the pill, and nothing says that anybody will take them: they
have been executed at most once, and otherwise they are still in a queue.
-/
import CxxConcurrency.TaskSystem.Stealing.Conservation
import Mathlib.Data.List.TakeWhile

namespace CxxConcurrency.TaskSystem.Stealing

open CxxConcurrency.Lib

variable {n : ℕ} {s s' : Pool n} {a : Act n} {as : List (Act n)}

/-! ## 1. The posts before the first `join()` -/

/-- The call puts pills out: `join()`, or the `join()` of `~Pool`. -/
def Act.isJoin : Act n → Bool
  | .join => true
  | .close => true
  | _ => false

/-- The call submits a task. -/
def Act.isPost : Act n → Bool
  | .post _ => true
  | _ => false

/-- How many tasks have been posted. -/
def posted (as : List (Act n)) : ℕ := as.countP Act.isPost

/-- How many tasks were posted before the first `join()`. -/
def early (as : List (Act n)) : ℕ := posted (as.takeWhile (!·.isJoin))

/-- Every `post` precedes the first `join()`. -/
def PostsFirst (as : List (Act n)) : Prop := ∀ a ∈ as.dropWhile (!·.isJoin), a.isPost = false

instance : Decidable (PostsFirst as) :=
  inferInstanceAs (Decidable (∀ a ∈ as.dropWhile (!·.isJoin), a.isPost = false))

theorem early_eq_posted (h : PostsFirst as) : early as = posted as := by
  have hdrop : posted (as.dropWhile (!·.isJoin)) = 0 :=
    List.countP_eq_zero.mpr fun a ha => by simp [h a ha]
  have hsplit : posted as = early as + posted (as.dropWhile (!·.isJoin)) := by
    rw [early, posted, posted, posted, ← List.countP_append, List.takeWhile_append_dropWhile]
  omega

/-- After the first `join()`, nothing is early any more. -/
theorem early_append_of_joined (h : ∃ b ∈ as, b.isJoin = true) : early (as ++ [a]) = early as := by
  obtain ⟨b, hb, hjoin⟩ := h
  have hlt : (as.takeWhile (!·.isJoin)).length ≠ as.length := by
    intro hlen
    have hall := List.takeWhile_eq_self_iff.mp
      ((List.takeWhile_prefix (!·.isJoin)).eq_of_length hlen) b hb
    simp [hjoin] at hall
  rw [early, early, List.takeWhile_append, if_neg hlt]

/-- Until the first `join()`, every `post` is early. -/
theorem early_append_of_not_joined (h : ∀ b ∈ as, b.isJoin = false) :
    early (as ++ [a]) = early as + if a.isPost then 1 else 0 := by
  have hall : as.takeWhile (!·.isJoin) = as :=
    List.takeWhile_eq_self_iff.mpr fun b hb => by simp [h b hb]
  rw [early, early, List.takeWhile_append, hall, if_pos rfl, posted, posted, List.countP_append]
  cases a <;> simp [Act.isJoin, Act.isPost]

/-- In a pool with queues, each `post` is recorded. -/
theorem posts_length_step (hn : 0 < n) (h : StepCase s a s') :
    s'.posts.length = s.posts.length + if a.isPost then 1 else 0 := by
  cases h with
  | post i _ => exact List.length_append
  | postNone hn' => omega
  | _ => rfl

theorem posts_length (hn : 0 < n) {siblingIdx queueIdx : ℕ}
    (h : Run PoolStep (Pool.init n siblingIdx queueIdx) as s) : s.posts.length = posted as := by
  refine h.trace_invariant (I := fun as s => s.posts.length = posted as) rfl ?_
  intro as s a s' _ hI hst
  rw [posts_length_step hn (stepCase_of_step hst), hI, posted, posted, List.countP_append]
  simp [List.countP_singleton]

/-- What the queues look like to the early tasks. -/
structure Early (as : List (Act n)) (s : Pool n) : Prop where
  le : early as ≤ s.posts.length
  /-- Before the first `join()` there is no pill. -/
  fresh : (∀ b ∈ as, b.isJoin = false) →
    s.owner = .calls ∧ early as = s.posts.length ∧ ∀ i, makePoisonPill ∉ (s.tasks i).added
  /-- No early task stands behind a pill. -/
  behind : ∀ i, (s.tasks i).added.Pairwise fun t u =>
    t = makePoisonPill → ∀ k < early as, u ≠ makeTask (.work k)

theorem Early.init (siblingIdx queueIdx : ℕ) : Early [] (Pool.init n siblingIdx queueIdx) where
  le := Nat.zero_le _
  fresh _ := ⟨rfl, rfl, fun _ => List.not_mem_nil⟩
  behind _ := List.Pairwise.nil

/-- A step of the early phase adds no pill. -/
theorem fresh_step (h : StepCase s a s') (howner : s.owner = .calls)
    (hpill : ∀ i, makePoisonPill ∉ (s.tasks i).added) (i : Fin n) :
    makePoisonPill ∉ (s'.tasks i).added := by
  rcases added_cases h with ⟨hadded, -⟩ | ⟨j, draw, -, -, hadded⟩ |
    ⟨j, k, closing, -, hjoin, -⟩
  · exact hadded i ▸ hpill i
  · rw [hadded, List.mem_append]
    rintro (hmem | hmem)
    · exact hpill i hmem
    · split_ifs at hmem <;> simp at hmem
  · rw [hjoin] at howner
    exact absurd howner (by simp)

/-- A step after the first `join()` puts no early task behind a pill. -/
theorem behind_step (h : StepCase s a s') (hE : Early as s) (i : Fin n) :
    (s'.tasks i).added.Pairwise fun t u =>
      t = makePoisonPill → ∀ k < early as, u ≠ makeTask (.work k) := by
  rcases added_cases h with ⟨hadded, -⟩ | ⟨j, draw, -, -, hadded⟩ |
    ⟨j, k, closing, -, -, -, hadded⟩
  · rw [hadded]
    exact hE.behind i
  · rw [hadded]
    refine List.pairwise_append.mpr ⟨hE.behind i, by split_ifs <;> simp, ?_⟩
    -- the new task comes after all early ones
    intro t _ u hu _ k hk
    have hle := hE.le
    split_ifs at hu
    · obtain rfl := List.mem_singleton.mp hu
      simp only [ne_eq, makeTask_work_inj]
      omega
    · exact absurd hu List.not_mem_nil
  · rw [hadded]
    refine List.pairwise_append.mpr ⟨hE.behind i, by split_ifs <;> simp, ?_⟩
    intro t _ u hu _ k _
    split_ifs at hu
    · obtain rfl := List.mem_singleton.mp hu
      exact makePoisonPill_ne_makeTask _
    · exact absurd hu List.not_mem_nil

/-- **Every step keeps the early tasks in front of the pills.** -/
theorem Early.step (hn : 0 < n) (h : StepCase s a s') (hE : Early as s) :
    Early (as ++ [a]) s' := by
  have hposts := posts_length_step hn h
  have hle := hE.le
  by_cases hjoined : ∃ b ∈ as, b.isJoin = true
  · have hearly := early_append_of_joined (a := a) hjoined
    refine ⟨by omega, ?_, fun i => hearly ▸ behind_step h hE i⟩
    intro hnone
    obtain ⟨b, hb, hjoin⟩ := hjoined
    rw [hnone b (List.mem_append_left _ hb)] at hjoin
    exact absurd hjoin (by simp)
  · have hnone : ∀ b ∈ as, b.isJoin = false := by
      intro b hb
      simpa using fun hjoin => hjoined ⟨b, hb, hjoin⟩
    obtain ⟨howner, hall, hpill⟩ := hE.fresh hnone
    have hearly := early_append_of_not_joined (a := a) hnone
    have hpill' := fresh_step h howner hpill
    refine ⟨by omega, ?_, ?_⟩
    · intro hnone'
      refine ⟨?_, by omega, hpill'⟩
      have ha := hnone' a (by simp)
      cases h with
      | join => simp [Act.isJoin] at ha
      | close => simp [Act.isJoin] at ha
      | done hjoin => rw [hjoin] at howner; exact absurd howner (by simp)
      | joined hjoin => rw [hjoin] at howner; exact absurd howner (by simp)
      | _ => exact howner
    · intro i
      exact List.pairwise_of_forall_mem_list fun t ht u _ hpt =>
        absurd (hpt ▸ ht) (hpill' i)

theorem Early.run (hn : 0 < n) {siblingIdx queueIdx : ℕ}
    (h : Run PoolStep (Pool.init n siblingIdx queueIdx) as s) : Early as s :=
  h.trace_invariant (Early.init _ _) fun _ _ _ _ _ hE hst => hE.step hn (stepCase_of_step hst)

/-! ## 2. When every worker has exited -/

/-- Behind the pill its worker has popped, a queue holds no early task. -/
theorem early_notMem_items (hI : Inv s) (hE : Early as s) {i : Fin n}
    (hexit : s.worker i = .exited) {k : ℕ} (hk : k < early as) :
    makeTask (.work k) ∉ (s.tasks i).items := by
  intro hmem
  have hbehind := hE.behind i
  rw [← (s.tasks i).conserve, List.pairwise_append] at hbehind
  exact hbehind.2.2 _ (hI.exited i hexit) _ hmem rfl k hk rfl

/-- No worker that has exited holds a task. -/
theorem inHands_of_exited (hexit : ∀ i, s.worker i = .exited) (k : ℕ) : s.inHands k = 0 := by
  simp [Pool.inHands, hexit, Worker.hand]

/-- **The early tasks have been executed, once each.** -/
theorem executed_early (hI : Inv s) (hE : Early as s) (hexit : ∀ i, s.worker i = .exited) {k : ℕ}
    (hk : k < early as) : s.executed.count k = 1 := by
  have hqueues : s.inQueues k = 0 :=
    Finset.sum_eq_zero fun i _ =>
      List.count_eq_zero.mpr (early_notMem_items hI hE (hexit i) hk)
  have hhands := inHands_of_exited hexit k
  have hplaced := hI.placed k
  rw [if_pos (lt_of_lt_of_le hk hE.le)] at hplaced
  simp only [Pool.places] at hplaced
  omega

/-- A task in a queue's log was posted. -/
theorem Inv.lt_posts (hI : Inv s) {i : Fin n} {k : ℕ}
    (hmem : makeTask (.work k) ∈ (s.tasks i).added) : k < s.posts.length := by
  have hk : k ∈ s.postedTo i := by
    rw [← hI.posted i]
    exact List.mem_filterMap.mpr ⟨_, hmem, rfl⟩
  exact List.mem_range.mp (List.mem_of_mem_filter hk)

/-- **Conservation and completion.**  In every state a run reaches, each posted task is in
exactly one place, once, and what has been taken from a queue is a prefix of what was posted to
it.  If no `post` comes after a `join()`, then once all workers have exited every posted task
has been executed once and no queue holds a Normal task.

A deque that has been destroyed with its queue counts as it was at that moment. -/
theorem stealing_conserves_tasks (hn : 0 < n) {siblingIdx queueIdx : ℕ}
    (h : Run PoolStep (Pool.init n siblingIdx queueIdx) as s) :
    (∀ k < posted as, s.inQueues k + s.inHands k + s.executed.count k = 1) ∧
    (∀ i, s.takenFrom i <+: s.postedTo i) ∧
    (PostsFirst as → (∀ i, s.worker i = .exited) →
      (∀ k < posted as, s.executed.count k = 1) ∧
        ∀ i, ∀ t ∈ (s.tasks i).items, t.status ≠ .Normal) := by
  have hI := Inv.run h
  have hE := Early.run hn h
  have hposts := posts_length hn h
  refine ⟨?_, ?_, ?_⟩
  · intro k hk
    have hplaced := hI.placed k
    rwa [if_pos (hposts ▸ hk)] at hplaced
  · intro i
    rw [← hI.posted i]
    exact (s.tasks i).filterMap_removed_prefix_added Task.normal?
  · intro hfirst hexit
    have hearly : early as = posted as := early_eq_posted hfirst
    constructor
    · intro k hk
      exact executed_early hI hE hexit (hearly ▸ hk)
    · intro i t ht hnormal
      have hmem : t ∈ (s.tasks i).added := Fifo.mem_added_iff.mpr (Or.inr ht)
      rcases hI.shape i t hmem with rfl | ⟨k, rfl⟩
      · exact absurd hnormal (by simp)
      · have hk : k < early as := by
          rw [hearly, ← hposts]
          exact hI.lt_posts hmem
        exact early_notMem_items hI hE (hexit i) hk ht

/-- Two queues and two tasks: worker 1 steals the task at the front of queue 0. -/
theorem stealing_conserves_stolen_task :
    ∃ s, Run PoolStep (Pool.init 2 0 0)
        [.post 0, .post 0, .work 1, .work 1, .work 1, .work 0, .join, .next, .next, .work 0,
          .work 1, .work 0, .work 0, .work 1, .work 1] s ∧
      s.executed.count 0 = 1 ∧ s.executed.count 1 = 1 ∧ s.executed = [1, 0] := by
  obtain ⟨s, hrun, hexit, hlog⟩ := exists_run_of_exec (Pool.step .Random)
    (Pool.init 2 0 0)
    [.post 0, .post 0, .work 1, .work 1, .work 1, .work 0, .join, .next, .next, .work 0,
      .work 1, .work 0, .work 0, .work 1, .work 1]
    (fun s => (∀ i, s.worker i = .exited) ∧ s.executed = [1, 0]) (by decide)
  obtain ⟨-, -, hend⟩ := stealing_conserves_tasks (by decide) hrun
  obtain ⟨hexec, -⟩ := hend (by decide) hexit
  exact ⟨s, hrun, hexec 0 (by decide), hexec 1 (by decide), hlog⟩

/-- **What survives an explicit `join()`.**  Once all workers have exited, every task posted
before the first `join()` has been executed once, and a task posted after one has either been
executed once or still is in a queue, untouched. -/
theorem early_posts_survive_join (hn : 0 < n) {siblingIdx queueIdx : ℕ}
    (h : Run PoolStep (Pool.init n siblingIdx queueIdx) as s)
    (hexit : ∀ i, s.worker i = .exited) :
    (∀ k < early as, s.executed.count k = 1) ∧
    ∀ k < posted as, (s.executed.count k = 1 ∧ s.inQueues k = 0) ∨
      (s.executed.count k = 0 ∧ s.inQueues k = 1) := by
  have hI := Inv.run h
  constructor
  · intro k hk
    exact executed_early hI (Early.run hn h) hexit hk
  · intro k hk
    have hplaced := hI.placed k
    rw [if_pos ((posts_length hn h) ▸ hk), Pool.places, inHands_of_exited hexit k] at hplaced
    omega

/-- A pool of one queue: `post`, `join()`, `post`, then `~Pool`. -/
theorem early_posts_survive_join_once :
    ∃ s, Run PoolStep (Pool.init 1 0 0)
        [.post 0, .join, .next, .next, .post 0, .close, .next, .next, .work 0, .work 0, .work 0,
          .work 0, .destroy 0] s ∧
      s.executed.count 0 = 1 ∧ s.executed = [0] := by
  obtain ⟨s, hrun, hexit, hlog⟩ := exists_run_of_exec (Pool.step .Random)
    (Pool.init 1 0 0)
    [.post 0, .join, .next, .next, .post 0, .close, .next, .next, .work 0, .work 0,
      .work 0, .work 0, .destroy 0]
    (fun s => (∀ i, s.worker i = .exited) ∧ s.executed = [0]) (by decide)
  obtain ⟨hearly, -⟩ := early_posts_survive_join (by decide) hrun hexit
  exact ⟨s, hrun, hearly 0 (by decide), hlog⟩

/-- **A task posted after `join()` can be dropped**: the worker exits at the first pill, and
`~Pool` destroys the queue with the task in it. -/
theorem post_after_join_dropped :
    ¬ ∀ (n : ℕ) (as : List (Act n)) (s : Pool n), 0 < n → Run PoolStep (Pool.init n 0 0) as s →
      (∀ i, s.worker i = .exited ∧ s.alive i = false) →
      ∀ k < posted as, s.executed.count k = 1 := by
  intro hall
  obtain ⟨s, hrun, hend, hlog⟩ := exists_run_of_exec (Pool.step .Random)
    (Pool.init 1 0 0)
    [.join, .next, .next, .post 0, .close, .next, .next, .work 0, .work 0, .destroy 0]
    (fun s => (∀ i, s.worker i = .exited ∧ s.alive i = false) ∧ s.executed = [])
    (by decide)
  have hcount := hall 1 _ s (by decide) hrun hend 0 (by decide)
  rw [hlog] at hcount
  exact absurd hcount (by decide)

end CxxConcurrency.TaskSystem.Stealing
