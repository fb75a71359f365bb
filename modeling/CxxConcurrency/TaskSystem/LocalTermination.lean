/-
# `test_pool` ends

A worker of `task_system/local_task_queue.cpp` that finds its queue empty looks again, so a run of
`test_pool` can be as long as one likes.  What a worker does in vain leaves the pool as it is, and
the steps that change it are bounded: the main thread has a fixed number to take, and every task
and every pill costs its worker two (`left_step`).

Where no step changes the pool any more, `test_pool` has joined every worker: the main thread
can wait only for a worker that has its pill still to come (`exists_move`).
-/
import CxxConcurrency.Lib.Parties
import CxxConcurrency.TaskSystem.LocalQueue
import Mathlib.Data.Fintype.Card

namespace CxxConcurrency.TaskSystem.Local

open CxxConcurrency.Lib

variable {n k : ℕ} {s s' : TestPool n} {a : Act n} {as : List (Act n)}

/-- The steps of `test_pool` that change it. -/
abbrev PoolMoves (k : ℕ) : TestPool n → Act n → TestPool n → Prop :=
  Moves (Fires (TestPool.step k))

/-! ## 1. The steps that are left -/

/-- The steps of the main thread that are left, and two of a worker for each task and each pill
that has not been added yet. -/
def Main.left (n k : ℕ) : Main → ℕ
  | .enqueuing idx => 3 * (k - idx) + 1 + (3 * n + 1 + n)
  | .closing c => 3 * (n - c) + 1 + n
  | .destroying c => n - c

/-- The steps a worker needs for what it has in hand. -/
def Worker.left : Worker → ℕ
  | .got _ => 1
  | _ => 0

/-- The steps that are left; an entry of a queue is popped and looked at. -/
def TestPool.left (k : ℕ) (s : TestPool n) : ℕ :=
  s.main.left n k + 2 * (∑ j, (s.tasks j).items.length) + ∑ j, (s.worker j).left

theorem left_init : (TestPool.init n).left k = 3 * k + 4 * n + 2 := by
  have htasks : ∑ j, ((TestPool.init n).tasks j).items.length = 0 :=
    Finset.sum_eq_zero fun _ _ => rfl
  have hworker : ∑ j, ((TestPool.init n).worker j).left = 0 := Finset.sum_eq_zero fun _ _ => rfl
  rw [TestPool.left, htasks, hworker]
  change 3 * (k - 0) + 1 + (3 * n + 1 + n) + 2 * 0 + 0 = _
  omega

/-- **A step looks in vain, or takes from the steps that are left.** -/
theorem left_step (h : StepCase k s a s') : s' = s ∨ s'.left k < s.left k := by
  cases h with
  | popNone => exact Or.inl rfl
  | @enqueue idx hmain hk hlt =>
    have hsum := Fifo.sum_length_update_push s.tasks ⟨idx % n, hlt⟩ (makeTask (.work idx))
    refine Or.inr ?_
    simp only [TestPool.left, TestPool.enqueue, TestPool.setTasks, hmain, Main.left]
    omega
  | @enqueued idx hmain hk =>
    refine Or.inr ?_
    simp only [TestPool.left, hmain, Main.left]
    omega
  | @done c hmain hc =>
    have hsum := Fifo.sum_length_update_push s.tasks ⟨c, hc⟩ makePoisonPill
    refine Or.inr ?_
    simp only [TestPool.left, TestPool.done, TestPool.setTasks, hmain, Main.left]
    omega
  | @closed c hmain hc =>
    refine Or.inr ?_
    simp only [TestPool.left, hmain, Main.left]
    omega
  | @joined c hmain hc _ =>
    refine Or.inr ?_
    simp only [TestPool.left, hmain, Main.left]
    omega
  | @pop j t q hw hpop =>
    have hqueue := Fifo.sum_length_update_pop s.tasks hpop
    have hworker := sum_update_add s.worker Worker.left j (.got t)
    rw [hw] at hworker
    change _ + 0 = _ + 1 at hworker
    refine Or.inr ?_
    simp only [TestPool.left, TestPool.setTasks, TestPool.setWorker]
    omega
  | @exit j t hw _ =>
    have hworker := sum_update_add s.worker Worker.left j .exited
    rw [hw] at hworker
    change _ + 1 = _ + 0 at hworker
    refine Or.inr ?_
    simp only [TestPool.left, TestPool.setWorker]
    omega
  | @run j t hw _ =>
    have hworker := sum_update_add s.worker Worker.left j .top
    rw [hw] at hworker
    change _ + 1 = _ + 0 at hworker
    refine Or.inr ?_
    simp only [TestPool.left, TestPool.setWorker, TestPool.invoke]
    omega

/-- What is left never grows. -/
theorem left_run (h : Run (Fires (TestPool.step k)) (TestPool.init n) as s) :
    s.left k ≤ 3 * k + 4 * n + 2 := by
  refine h.invariant (I := fun s => s.left k ≤ 3 * k + 4 * n + 2) ?_ left_init.le
  intro s a s' hle hst
  rcases left_step (stepCase_of_step hst) with rfl | hlt
  · exact hle
  · omega

/-! ## 2. Where no step changes the pool -/

/-- The workers that have been joined have exited. -/
def TestPool.Joined (s : TestPool n) : Prop :=
  ∀ c, s.main = .destroying c → ∀ j : Fin n, j.val < c → s.worker j = .exited

/-- **Every step keeps what the main thread knows of the workers it has joined.** -/
theorem Joined.step (h : StepCase k s a s') (hJ : s.Joined) : s'.Joined := by
  intro c hc j hj
  cases h with
  | enqueue => exact absurd hc (by simp)
  | enqueued => exact absurd hc (by simp)
  | done => exact absurd hc (by simp)
  | closed =>
    obtain rfl := Main.destroying.inj hc
    exact absurd hj (Nat.not_lt_zero _)
  | @joined c' hmain hc' hexit =>
    obtain rfl := Main.destroying.inj hc
    rcases Nat.lt_succ_iff_lt_or_eq.mp hj with hlt | heq
    · exact hJ c' hmain j hlt
    · obtain rfl : j = ⟨c', hc'⟩ := Fin.ext heq
      exact hexit
  | popNone => exact hJ c hc j hj
  | @pop i _ _ hw _ | @exit i _ hw _ | @run i _ hw _ =>
    have hexit := hJ c hc j hj
    rcases eq_or_ne j i with rfl | hji
    · rw [hw] at hexit
      exact absurd hexit (by simp)
    · simpa [TestPool.setWorker, TestPool.setTasks, TestPool.invoke, hji] using hexit

theorem Joined.run (h : Run (Fires (TestPool.step k)) (TestPool.init n) as s) : s.Joined :=
  h.invariant (fun _ _ _ hJ hst => Joined.step (stepCase_of_step hst) hJ)
    fun _ hc => absurd hc (by simp [TestPool.init])

/-- The cases are steps. -/
theorem step_of_stepCase (h : StepCase k s a s') : s.step k a = some s' := by
  cases h with
  | enqueue hmain hk hlt => simp [TestPool.step, TestPool.mainNext, hmain, hk, hlt]
  | enqueued hmain hk => simp [TestPool.step, TestPool.mainNext, hmain, hk]
  | done hmain hc | closed hmain hc => simp [TestPool.step, TestPool.mainNext, hmain, hc]
  | joined hmain hc hexit => simp [TestPool.step, TestPool.mainNext, hmain, hc, hexit]
  | pop hw hpop | popNone hw hpop => simp [TestPool.step, TestPool.workNext, hw, hpop]
  | exit hw ht | run hw ht => simp [TestPool.step, TestPool.workNext, hw, ht]

/-- A worker that has not exited although `done()` has been called on its queue moves. -/
theorem exists_move_of_worker (hI : Inv k s) {j : Fin n} (hdone : s.main.isDone j = true)
    (hw : s.worker j ≠ .exited) : ∃ s', PoolMoves k s (.work j) s' := by
  have hmove : ∀ {p : Worker} (u : TestPool n), s.worker j ≠ p → u.worker j = p → u ≠ s := by
    rintro p u hne hu rfl
    exact hne hu
  cases hwj : s.worker j with
  | top =>
    obtain ⟨⟨t, q⟩, hpop⟩ := Option.ne_none_iff_exists'.mp fun hnone =>
      hI.items_ne_nil hdone hwj (Fifo.pop?_eq_none_iff.mp hnone)
    refine ⟨_, step_of_stepCase (.pop hwj hpop), ?_⟩
    exact hmove (p := .got t) _ (by simp [hwj]) (by simp [TestPool.setWorker])
  | got t =>
    by_cases ht : t.status = .PoisonPill
    · refine ⟨_, step_of_stepCase (.exit hwj ht), ?_⟩
      exact hmove (p := .exited) _ hw (by simp [TestPool.setWorker])
    · refine ⟨_, step_of_stepCase (.run hwj ht), ?_⟩
      exact hmove (p := .top) _ (by simp [hwj]) (by simp [TestPool.setWorker])
  | exited => exact absurd hwj hw

/-- **Until `children` has been destroyed some step changes the pool.** -/
theorem exists_move (hn : 0 < n) (hI : Inv k s) (hmain : s.main ≠ .destroying n)
    (hc : ∀ c, s.main = .destroying c → c ≤ n) : ∃ a s', PoolMoves k s a s' := by
  have hmove : ∀ {p : Main} (u : TestPool n), s.main ≠ p → u.main = p → u ≠ s := by
    rintro p u hne hu rfl
    exact hne hu
  cases hm : s.main with
  | enqueuing idx =>
    refine ⟨.main, ?_⟩
    by_cases hk : idx < k
    · refine ⟨_, step_of_stepCase (.enqueue hm hk (Nat.mod_lt idx hn)), ?_⟩
      exact hmove (p := .enqueuing (idx + 1)) _ (by simp [hm]) rfl
    · refine ⟨_, step_of_stepCase (.enqueued hm hk), ?_⟩
      exact hmove (p := .closing 0) _ (by simp [hm]) rfl
  | closing c =>
    refine ⟨.main, ?_⟩
    by_cases hlt : c < n
    · refine ⟨_, step_of_stepCase (.done hm hlt), ?_⟩
      exact hmove (p := .closing (c + 1)) _ (by simp [hm]) rfl
    · refine ⟨_, step_of_stepCase (.closed hm hlt), ?_⟩
      exact hmove (p := .destroying 0) _ (by simp [hm]) rfl
  | destroying c =>
    have hlt : c < n := lt_of_le_of_ne (hc c hm) fun heq => hmain (heq ▸ hm)
    by_cases hexit : s.worker ⟨c, hlt⟩ = .exited
    · refine ⟨.main, _, step_of_stepCase (.joined hm hlt hexit), ?_⟩
      exact hmove (p := .destroying (c + 1)) _ (by simp [hm]) rfl
    · exact ⟨_, exists_move_of_worker hI (by rw [hm]; rfl) hexit⟩

/-- The main thread joins no more children than there are. -/
theorem destroying_le (h : Run (Fires (TestPool.step k)) (TestPool.init n) as s) :
    ∀ c, s.main = .destroying c → c ≤ n := by
  refine h.invariant (I := fun s => ∀ c, s.main = .destroying c → c ≤ n) ?_ ?_
  · intro s a s' hI hst c hc
    cases stepCase_of_step hst with
    | closed =>
      obtain rfl := Main.destroying.inj hc
      exact Nat.zero_le n
    | joined _ hlt _ =>
      obtain rfl := Main.destroying.inj hc
      exact hlt
    | enqueue | enqueued | done => exact absurd hc (by simp)
    | _ => exact hI c hc
  · intro c hc
    exact absurd hc (by simp [TestPool.init])

/-- **`test_pool` ends.**  From every state a run reaches no more than `3 * k + 4 * n + 2` steps
change the pool, and where none does `test_pool` has destroyed its children: every worker has
exited and has run its share. -/
theorem test_pool_ends (hn : 0 < n)
    (h : Run (Fires (TestPool.step k)) (TestPool.init n) as s) :
    (∀ bs s', Run (PoolMoves k) s bs s' → bs.length ≤ 3 * k + 4 * n + 2) ∧
      ((∀ a s', ¬ PoolMoves k s a s') →
        s.main = .destroying n ∧ ∀ j, s.worker j = .exited ∧ s.executed j = share n k j) := by
  constructor
  · intro bs s' hrun
    have hle := hrun.length_add_le (I := fun _ => True) (m := fun s => s.left k)
      (fun _ _ _ _ _ => trivial)
      (fun _ _ _ _ hst => (left_step (stepCase_of_step hst.1)).resolve_left hst.2) trivial
    have hleft := left_run h
    omega
  · intro hrest
    have hmain : s.main = .destroying n := by
      by_contra hne
      obtain ⟨a, s', hmove⟩ := exists_move hn (Inv.run h) hne (destroying_le h)
      exact hrest a s' hmove
    refine ⟨hmain, fun j => ?_⟩
    have hexit := Joined.run h n hmain j j.isLt
    exact ⟨hexit, ((Inv.run h).of_exited hexit).2⟩

/-- One worker and one work, from the beginning: nothing changes after nine steps. -/
theorem test_pool_ends_one :
    (∀ bs s', Run (PoolMoves 1) (TestPool.init 1) bs s' → bs.length ≤ 9) ∧
      ∃ as s, Run (Fires (TestPool.step 1)) (TestPool.init 1) as s ∧ s.executed 0 = [0] := by
  refine ⟨(test_pool_ends (by decide) Run.refl).1, ?_⟩
  obtain ⟨s, hrun, hexec⟩ := exists_run_of_exec (TestPool.step 1) (TestPool.init 1)
    [.main, .work 0, .work 0, .work 0, .main, .main, .main, .work 0, .work 0, .main]
    (fun s => s.executed 0 = [0]) (by decide)
  exact ⟨_, s, hrun, hexec⟩

end CxxConcurrency.TaskSystem.Local
