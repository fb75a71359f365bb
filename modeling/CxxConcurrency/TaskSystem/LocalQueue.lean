/-
# The pool of local queues of `task_system/local_task_queue.cpp`

`test_pool` constructs `numWorker` queues, each with a worker thread of its own, enqueues
`numWorks` tasks round robin, and puts a pill into every queue.  A worker pops its own queue and
no other, and leaves its loop at the pill.

The main thread and the workers are the parties; `enqueue`, `done` and `tryPopFront` hold the
queue's mutex and are one step each.  What worker `j` pops is what was added to queue `j`, in
that order, and what is added to it are the indices `j`, `j + n`, `j + 2n`, … and then the pill.
So a worker runs its share in order, finds the pill behind exactly that, and the number of steps
it has left can be read off its queue.
-/
import CxxConcurrency.Lib.Fifo
import CxxConcurrency.Lib.Run
import CxxConcurrency.TaskSystem.Task
import Mathlib.Algebra.BigOperators.Group.Finset.Piecewise
import Mathlib.Data.Fintype.Basic
import Mathlib.Data.List.Sort
import Mathlib.Logic.Function.Basic

namespace CxxConcurrency.TaskSystem.Local

open CxxConcurrency.Lib

/-! ## 1. The state -/

/-- Where a worker is in the loop `doWork`. -/
inductive Worker
  /-- About to call `tryPopFront()`. -/
  | top
  /-- It popped `t`, about to look at the status. -/
  | got (t : Task)
  /-- The thread function has returned. -/
  | exited
  deriving DecidableEq

/-- Where the main thread is in `test_pool`. -/
inductive Main
  /-- In the loop that enqueues, with work `idx` next. -/
  | enqueuing (idx : ℕ)
  /-- In the loop that calls `done()`, with child `c` next. -/
  | closing (c : ℕ)
  /-- `children` is being destroyed, with the `th.join()` of child `c` next. -/
  | destroying (c : ℕ)
  deriving DecidableEq

/-- `test_pool` with `n` workers. -/
structure TestPool (n : ℕ) where
  /-- The deque of each child, with its history. -/
  tasks : Fin n → Fifo Task
  worker : Fin n → Worker
  main : Main
  /-- The works each worker has run, in order. -/
  executed : Fin n → List ℕ

variable {n k : ℕ}

/-- `std::vector< Queue > children( numWorker )` has been constructed. -/
def TestPool.init (n : ℕ) : TestPool n where
  tasks _ := Fifo.empty
  worker _ := .top
  main := .enqueuing 0
  executed _ := []

/-- The deque of child `j` becomes `q`. -/
def TestPool.setTasks (s : TestPool n) (j : Fin n) (q : Fifo Task) : TestPool n :=
  { s with tasks := Function.update s.tasks j q }

/-- Worker `j` moves to `w`. -/
def TestPool.setWorker (s : TestPool n) (j : Fin n) (w : Worker) : TestPool n :=
  { s with worker := Function.update s.worker j w }

/-- `std::invoke( t )` returns on worker `j`. -/
def TestPool.invoke (s : TestPool n) (j : Fin n) (f : Callable) : TestPool n :=
  { s with executed := Function.update s.executed j (s.executed j ++ f.id?.toList) }

/-- `Queue::done()` on child `j`. -/
def TestPool.done (s : TestPool n) (j : Fin n) : TestPool n :=
  s.setTasks j ((s.tasks j).push makePoisonPill)

/-- `Queue::enqueue( fun )` on child `j`, where `fun` is work `idx`. -/
def TestPool.enqueue (s : TestPool n) (j : Fin n) (idx : ℕ) : TestPool n :=
  s.setTasks j ((s.tasks j).push (makeTask (.work idx)))

/-! ## 2. The steps -/

/-- The party that moves. -/
inductive Act (n : ℕ)
  | main
  | work (j : Fin n)
  deriving DecidableEq

/-- The next step of `test_pool` with `numWorks = k`. -/
def TestPool.mainNext (k : ℕ) (s : TestPool n) : Option (TestPool n) :=
  match s.main with
  | .enqueuing idx =>
    if idx < k then
      if h : idx % n < n then some { s.enqueue ⟨idx % n, h⟩ idx with main := .enqueuing (idx + 1) }
      else none
    else some { s with main := .closing 0 }
  | .closing c =>
    if h : c < n then some { s.done ⟨c, h⟩ with main := .closing (c + 1) }
    else some { s with main := .destroying 0 }
  | .destroying c =>
    if h : c < n then
      if s.worker ⟨c, h⟩ = .exited then some { s with main := .destroying (c + 1) } else none
    else none

/-- The next step of worker `j`, the loop `doWork`. -/
def TestPool.workNext (s : TestPool n) (j : Fin n) : Option (TestPool n) :=
  match s.worker j with
  | .top =>
    match (s.tasks j).pop? with
    | some (t, q) => some ((s.setTasks j q).setWorker j (.got t))
    | none => some s
  | .got t =>
    if t.status = .PoisonPill then some (s.setWorker j .exited)
    else some ((s.invoke j t.fn).setWorker j .top)
  | .exited => none

/-- One step of the pool. -/
def TestPool.step (k : ℕ) (s : TestPool n) : Act n → Option (TestPool n)
  | .main => s.mainNext k
  | .work j => s.workNext j

/-- The cases of a step, one for each operation of a party. -/
inductive StepCase (k : ℕ) (s : TestPool n) : Act n → TestPool n → Prop
  | enqueue {idx : ℕ} (hmain : s.main = .enqueuing idx) (hk : idx < k) (h : idx % n < n) :
      StepCase k s .main { s.enqueue ⟨idx % n, h⟩ idx with main := .enqueuing (idx + 1) }
  | enqueued {idx : ℕ} (hmain : s.main = .enqueuing idx) (hk : ¬ idx < k) :
      StepCase k s .main { s with main := .closing 0 }
  | done {c : ℕ} (hmain : s.main = .closing c) (h : c < n) :
      StepCase k s .main { s.done ⟨c, h⟩ with main := .closing (c + 1) }
  | closed {c : ℕ} (hmain : s.main = .closing c) (h : ¬ c < n) :
      StepCase k s .main { s with main := .destroying 0 }
  | joined {c : ℕ} (hmain : s.main = .destroying c) (h : c < n)
      (hexit : s.worker ⟨c, h⟩ = .exited) :
      StepCase k s .main { s with main := .destroying (c + 1) }
  | pop {j : Fin n} {t : Task} {q : Fifo Task} (hw : s.worker j = .top)
      (hpop : (s.tasks j).pop? = some (t, q)) :
      StepCase k s (.work j) ((s.setTasks j q).setWorker j (.got t))
  | popNone {j : Fin n} (hw : s.worker j = .top) (hpop : (s.tasks j).pop? = none) :
      StepCase k s (.work j) s
  | exit {j : Fin n} {t : Task} (hw : s.worker j = .got t) (ht : t.status = .PoisonPill) :
      StepCase k s (.work j) (s.setWorker j .exited)
  | run {j : Fin n} {t : Task} (hw : s.worker j = .got t) (ht : t.status ≠ .PoisonPill) :
      StepCase k s (.work j) ((s.invoke j t.fn).setWorker j .top)

/-- **Every step is one of the cases.** -/
theorem stepCase_of_step {s s' : TestPool n} {a : Act n} (h : s.step k a = some s') :
    StepCase k s a s' := by
  cases a with
  | main =>
    simp only [TestPool.step, TestPool.mainNext] at h
    split at h
    · rename_i idx hmain
      split at h
      · rename_i hk
        split at h
        · rename_i hlt
          obtain rfl := Option.some.inj h
          exact .enqueue hmain hk hlt
        · exact absurd h (by simp)
      · rename_i hk
        obtain rfl := Option.some.inj h
        exact .enqueued hmain hk
    · rename_i c hmain
      split at h
      · rename_i hc
        obtain rfl := Option.some.inj h
        exact .done hmain hc
      · rename_i hc
        obtain rfl := Option.some.inj h
        exact .closed hmain hc
    · rename_i c hmain
      split at h
      · rename_i hc
        split at h
        · rename_i hexit
          obtain rfl := Option.some.inj h
          exact .joined hmain hc hexit
        · exact absurd h (by simp)
      · exact absurd h (by simp)
  | work j =>
    simp only [TestPool.step, TestPool.workNext] at h
    split at h
    · rename_i hw
      split at h
      · rename_i t q hpop
        obtain rfl := Option.some.inj h
        exact .pop hw hpop
      · rename_i hpop
        obtain rfl := Option.some.inj h
        exact .popNone hw hpop
    · rename_i t hw
      split at h
      · rename_i ht
        obtain rfl := Option.some.inj h
        exact .exit hw ht
      · rename_i ht
        obtain rfl := Option.some.inj h
        exact .run hw ht
    · exact absurd h (by simp)

/-! ## 3. What the main thread puts into a queue -/

/-- The works round robin gives to worker `j` among the first `k`, in order. -/
def share (n k j : ℕ) : List ℕ := ((List.range k).map fun r => j + r * n).filter (· < k)

/-- They are the indices below `k` that leave the remainder `j`. -/
theorem share_eq_filter {j : ℕ} (hj : j < n) :
    share n k j = (List.range k).filter fun idx => idx % n = j := by
  have hn : 0 < n := Nat.zero_lt_of_lt hj
  refine List.Pairwise.eq_of_mem_iff (r := (· < ·)) ?_ ?_ ?_
  · refine List.Pairwise.filter _ (List.pairwise_map.mpr ?_)
    exact List.pairwise_lt_range.imp fun hlt =>
      Nat.add_lt_add_left (Nat.mul_lt_mul_of_pos_right hlt hn) j
  · exact List.pairwise_lt_range.filter _
  · intro idx
    simp only [share, List.mem_filter, List.mem_map, List.mem_range, decide_eq_true_eq]
    constructor
    · rintro ⟨⟨r, _, rfl⟩, hk⟩
      exact ⟨hk, by rw [Nat.add_mul_mod_self_right, Nat.mod_eq_of_lt hj]⟩
    · rintro ⟨hk, hmod⟩
      refine ⟨⟨idx / n, lt_of_le_of_lt (Nat.div_le_self _ _) hk, ?_⟩, hk⟩
      rw [← hmod, Nat.mod_add_div']

/-- How many works the main thread has enqueued. -/
def Main.sent (k : ℕ) : Main → ℕ
  | .enqueuing idx => idx
  | _ => k

/-- Whether the main thread has called `done()` on child `j`. -/
def Main.isDone (j : ℕ) : Main → Bool
  | .enqueuing _ => false
  | .closing c => j < c
  | .destroying _ => true

/-- The works among the first `m` that go to worker `j`, as tasks. -/
def shareTasks (n m j : ℕ) : List Task :=
  ((List.range m).filter fun idx => idx % n = j).map fun idx => makeTask (.work idx)

theorem shareTasks_succ (m j : ℕ) :
    shareTasks n (m + 1) j
      = shareTasks n m j ++ if m % n = j then [makeTask (.work m)] else [] := by
  rw [shareTasks, shareTasks, List.range_succ, List.filter_append, List.map_append]
  by_cases hj : m % n = j <;> simp [hj]

theorem pill_notMem_shareTasks (m j : ℕ) : makePoisonPill ∉ shareTasks n m j := by
  simp [shareTasks]

/-! ## 4. The invariant -/

/-- What a worker has popped since it ran its last task. -/
def Worker.taken : Worker → List Task
  | .top => []
  | .got t => [t]
  | .exited => [makePoisonPill]

/-- The invariant of `test_pool`. -/
structure Inv (k : ℕ) (s : TestPool n) : Prop where
  sent : s.main.sent k ≤ k
  /-- What has been added to each queue. -/
  added : ∀ j, (s.tasks j).added = shareTasks n (s.main.sent k) j
    ++ if s.main.isDone j then [makePoisonPill] else []
  /-- What has been popped has been run, or is in hand. -/
  removed : ∀ j, (s.tasks j).removed
    = ((s.executed j).map fun idx => makeTask (.work idx)) ++ (s.worker j).taken

theorem Inv.init : Inv k (TestPool.init n) where
  sent := Nat.zero_le _
  added j := by simp [TestPool.init, Main.sent, Main.isDone, shareTasks]
  removed j := by simp [TestPool.init, Worker.taken]

variable {s s' : TestPool n} {a : Act n} {as : List (Act n)}

/-- Whatever has been added is a pill or a work. -/
theorem Inv.shape (hI : Inv k s) {j : Fin n} {t : Task} (ht : t ∈ (s.tasks j).added) :
    t = makePoisonPill ∨ ∃ idx, t = makeTask (.work idx) := by
  rw [hI.added j, List.mem_append] at ht
  rcases ht with ht | ht
  · obtain ⟨idx, -, rfl⟩ := List.mem_map.mp ht
    exact Or.inr ⟨idx, rfl⟩
  · split_ifs at ht
    · exact Or.inl (List.mem_singleton.mp ht)
    · exact absurd ht List.not_mem_nil

/-- What a worker has in hand was added to its queue. -/
theorem Inv.mem_added_of_got (hI : Inv k s) {j : Fin n} {t : Task} (hw : s.worker j = .got t) :
    t ∈ (s.tasks j).added := by
  refine (s.tasks j).removed_prefix_added.subset ?_
  rw [hI.removed j, hw]
  exact List.mem_append_right _ List.mem_cons_self

/-- What a step of the main thread adds to the queues. -/
theorem Inv.added_step (h : StepCase k s a s') (hI : Inv k s) (j : Fin n) :
    (s'.tasks j).added = shareTasks n (s'.main.sent k) j
      ++ if s'.main.isDone j then [makePoisonPill] else [] := by
  have hj := hI.added j
  cases h with
  | @enqueue idx hmain hk hlt =>
    rw [hmain] at hj
    refine (Fifo.added_update_push s.tasks ⟨idx % n, hlt⟩ (makeTask (.work idx)) j).trans ?_
    change (s.tasks j).added = shareTasks n idx j ++ [] at hj
    change _ = shareTasks n (idx + 1) j ++ []
    rw [hj, List.append_nil, List.append_nil, shareTasks_succ]
    simp [Fin.ext_iff, eq_comm]
  | @enqueued idx hmain hk =>
    have hsent := hI.sent
    rw [hmain] at hj hsent
    obtain rfl : idx = k := le_antisymm hsent (not_lt.mp hk)
    simpa [Main.sent, Main.isDone] using hj
  | @done c hmain hc =>
    rw [hmain] at hj
    refine (Fifo.added_update_push s.tasks ⟨c, hc⟩ makePoisonPill j).trans ?_
    rw [hj, List.append_assoc]
    refine congrArg _ ?_
    rcases lt_trichotomy (j : ℕ) c with hlt | heq | hgt
    · simp [Main.isDone, hlt, Nat.lt_succ_of_lt hlt, Fin.ext_iff, hlt.ne]
    · simp [Main.isDone, heq, Fin.ext_iff]
    · simp [Main.isDone, not_lt.mpr hgt.le, Nat.not_lt.mpr hgt, Fin.ext_iff, hgt.ne']
  | @closed c hmain hc =>
    rw [hmain] at hj
    simpa [Main.sent, Main.isDone, lt_of_lt_of_le j.isLt (not_lt.mp hc)] using hj
  | joined hmain hc _ =>
    rw [hmain] at hj
    exact hj
  | pop _ hpop => exact (Fifo.added_update_pop s.tasks hpop j).trans hj
  | _ => exact hj

/-- What a worker pops and runs. -/
theorem Inv.removed_step (h : StepCase k s a s') (hI : Inv k s) (j : Fin n) :
    (s'.tasks j).removed
      = ((s'.executed j).map fun idx => makeTask (.work idx)) ++ (s'.worker j).taken := by
  have hj := hI.removed j
  cases h with
  | enqueue _ _ hlt => exact (Fifo.removed_update_push s.tasks ⟨_, hlt⟩ _ j).trans hj
  | done _ hc => exact (Fifo.removed_update_push s.tasks ⟨_, hc⟩ _ j).trans hj
  | @pop i t q hw hpop =>
    refine (Fifo.removed_update_pop s.tasks hpop j).trans ?_
    rw [hj]
    by_cases hji : j = i
    · subst hji
      simp [TestPool.setTasks, TestPool.setWorker, hw, Worker.taken]
    · simp [TestPool.setTasks, TestPool.setWorker, hji]
  | @exit i t hw ht =>
    by_cases hji : j = i
    · subst hji
      obtain rfl | ⟨idx, rfl⟩ := hI.shape (hI.mem_added_of_got hw)
      · rw [hw] at hj
        simpa [TestPool.setWorker, Worker.taken] using hj
      · exact absurd ht (by simp)
    · simpa [TestPool.setWorker, hji] using hj
  | @run i t hw ht =>
    by_cases hji : j = i
    · subst hji
      obtain rfl | ⟨idx, rfl⟩ := hI.shape (hI.mem_added_of_got hw)
      · exact absurd rfl ht
      · rw [hw] at hj
        simpa [TestPool.setWorker, TestPool.invoke, Worker.taken, makeTask, Callable.id?] using hj
    · simpa [TestPool.setWorker, TestPool.invoke, hji] using hj
  | _ => exact hj

/-- **Every step keeps the invariant.** -/
theorem Inv.step (h : StepCase k s a s') (hI : Inv k s) : Inv k s' where
  sent := by
    have hsent := hI.sent
    cases h with
    | enqueue _ hk _ => exact hk
    | enqueued => exact le_rfl
    | done => exact le_rfl
    | closed => exact le_rfl
    | joined => exact le_rfl
    | _ => exact hsent
  added := hI.added_step h
  removed := hI.removed_step h

theorem Inv.run (h : Run (Fires (TestPool.step k)) (TestPool.init n) as s) : Inv k s :=
  h.invariant (fun _ _ _ hI hst => hI.step (stepCase_of_step hst)) Inv.init

/-! ## 5. What a worker has run -/

/-- The works in a list of tasks. -/
theorem filterMap_normal?_map (l : List ℕ) :
    (l.map fun idx => makeTask (.work idx)).filterMap Task.normal? = l := by
  simp [List.filterMap_map, Function.comp_def]

/-- Once `done()` has been called on a child, nothing more is added to its queue. -/
theorem Inv.added_of_isDone (hI : Inv k s) {j : Fin n} (hdone : s.main.isDone j = true) :
    (s.tasks j).added = shareTasks n k j ++ [makePoisonPill] := by
  have hsent : s.main.sent k = k := by
    cases hmain : s.main with
    | enqueuing idx => simp [hmain, Main.isDone] at hdone
    | closing c => rfl
    | destroying c => rfl
  rw [hI.added j, hsent, if_pos hdone]

/-- Only `done()` adds a pill. -/
theorem Inv.isDone_of_mem (hI : Inv k s) {j : Fin n} (hpill : makePoisonPill ∈ (s.tasks j).added) :
    s.main.isDone j = true := by
  by_contra hnot
  rw [hI.added j, if_neg hnot, List.append_nil] at hpill
  exact pill_notMem_shareTasks _ _ hpill

/-- A worker runs its share in order. -/
theorem Inv.executed_prefix_share (hI : Inv k s) (j : Fin n) : s.executed j <+: share n k j := by
  have hremoved : (s.tasks j).removed.filterMap Task.normal?
      = s.executed j ++ (s.worker j).taken.filterMap Task.normal? := by
    rw [hI.removed j, List.filterMap_append, filterMap_normal?_map]
  have hadded : (s.tasks j).added.filterMap Task.normal?
      = (List.range (s.main.sent k)).filter fun idx => idx % n = j := by
    rw [hI.added j, List.filterMap_append, shareTasks, filterMap_normal?_map]
    split_ifs <;> simp
  have hrange : ∀ m ≤ k, List.range m <+: List.range k := by
    intro m hm
    rw [← Nat.add_sub_of_le hm, List.range_add]
    exact List.prefix_append _ _
  calc s.executed j <+: (s.tasks j).removed.filterMap Task.normal? :=
        hremoved ▸ List.prefix_append _ _
    _ <+: (s.tasks j).added.filterMap Task.normal? := (s.tasks j).filterMap_removed_prefix_added _
    _ = (List.range (s.main.sent k)).filter fun idx => idx % n = j := hadded
    _ <+: (List.range k).filter fun idx => idx % n = j :=
        (hrange _ hI.sent).filter _
    _ = share n k j := (share_eq_filter j.isLt).symm

/-- **When a worker exits**, it has popped everything and run its whole share. -/
theorem Inv.of_exited (hI : Inv k s) {j : Fin n} (hexit : s.worker j = .exited) :
    (s.tasks j).removed = shareTasks n k j ++ [makePoisonPill] ∧
      s.executed j = share n k j := by
  have hremoved := hI.removed j
  rw [hexit, Worker.taken] at hremoved
  have hpill : makePoisonPill ∈ (s.tasks j).removed :=
    hremoved ▸ List.mem_append_right _ List.mem_cons_self
  have hdone := hI.isDone_of_mem ((s.tasks j).removed_prefix_added.subset hpill)
  rcases Fifo.closed_cases (hI.added_of_isDone hdone) with ⟨-, hall⟩ | ⟨rest, -, hrest⟩
  · refine ⟨hall, ?_⟩
    have hmap := (List.append_inj' (hremoved.symm.trans hall) rfl).1
    rw [share_eq_filter j.isLt, ← filterMap_normal?_map (s.executed j), hmap, shareTasks,
      filterMap_normal?_map]
  · exact absurd (hrest ▸ List.mem_append_left _ hpill) (pill_notMem_shareTasks _ _)

/-- **Until a worker has popped its pill**, the pill is the last entry of its queue. -/
theorem Inv.pill_last (hI : Inv k s) {j : Fin n} (hdone : s.main.isDone j = true)
    (hpill : makePoisonPill ∉ (s.tasks j).removed) :
    ∃ rest, (s.tasks j).items = rest ++ [makePoisonPill] ∧ makePoisonPill ∉ rest := by
  rcases Fifo.closed_cases (hI.added_of_isDone hdone) with ⟨-, hall⟩ | ⟨rest, hitems, hrest⟩
  · exact absurd (hall ▸ List.mem_append_right _ List.mem_cons_self) hpill
  · exact ⟨rest, hitems, fun hmem =>
      pill_notMem_shareTasks k j (hrest ▸ List.mem_append_right _ hmem)⟩

/-! ## 6. The way to the pill -/

/-- The steps worker `j` takes until it has emptied its queue: a pop and a run for each entry,
and a run for what it has in hand. -/
def TestPool.stepsLeft (s : TestPool n) (j : Fin n) : ℕ :=
  2 * (s.tasks j).items.length +
    match s.worker j with
    | .got _ => 1
    | _ => 0

/-- `done()` is not undone. -/
theorem isDone_step (h : StepCase k s a s') {j : Fin n} (hdone : s.main.isDone j = true) :
    s'.main.isDone j = true := by
  cases h with
  | enqueue hmain => simp [hmain, Main.isDone] at hdone
  | enqueued hmain => simp [hmain, Main.isDone] at hdone
  | @done c hmain hc =>
    have hlt : (j : ℕ) < c := by simpa [hmain, Main.isDone] using hdone
    simpa [Main.isDone] using Nat.lt_succ_of_lt hlt
  | closed => rfl
  | joined => rfl
  | _ => exact hdone

/-- Between its exits, a worker whose queue has its pill finds something to pop. -/
theorem Inv.items_ne_nil (hI : Inv k s) {j : Fin n} (hdone : s.main.isDone j = true)
    (hw : s.worker j = .top) : (s.tasks j).items ≠ [] := by
  have hpill : makePoisonPill ∉ (s.tasks j).removed := by
    rw [hI.removed j, hw]
    simp [Worker.taken]
  obtain ⟨rest, hitems, -⟩ := hI.pill_last hdone hpill
  simp [hitems]

/-- **Each step of the worker brings it closer to its pill**, and no other step takes it back. -/
theorem stepsLeft_step (h : StepCase k s a s') (hI : Inv k s) {j : Fin n}
    (hdone : s.main.isDone j = true) :
    (if a = .work j then 1 else 0) + s'.stepsLeft j ≤ s.stepsLeft j := by
  cases h with
  | @enqueue idx hmain => simp [hmain, Main.isDone] at hdone
  | enqueued hmain => simp [hmain, Main.isDone] at hdone
  | @done c hmain hc =>
    have hjc : j ≠ ⟨c, hc⟩ := by
      rintro rfl
      simp [hmain, Main.isDone] at hdone
    simp [TestPool.stepsLeft, TestPool.done, TestPool.setTasks, hjc]
  | closed => simp [TestPool.stepsLeft]
  | joined => simp [TestPool.stepsLeft]
  | @pop i t q hw hpop =>
    by_cases hji : j = i
    · subst hji
      have hlen := congrArg List.length (Fifo.pop?_eq_some hpop).1
      simp only [List.length_cons] at hlen
      simp [TestPool.stepsLeft, TestPool.setTasks, TestPool.setWorker, hw, hlen]
      omega
    · simp [TestPool.stepsLeft, TestPool.setTasks, TestPool.setWorker, hji, Ne.symm hji]
  | @popNone i hw hpop =>
    have hij : i ≠ j := by
      rintro rfl
      exact hI.items_ne_nil hdone hw (Fifo.pop?_eq_none_iff.mp hpop)
    simp [hij]
  | @exit i t hw _ =>
    by_cases hji : j = i
    · subst hji
      simp [TestPool.stepsLeft, TestPool.setWorker, hw]
      omega
    · simp [TestPool.stepsLeft, TestPool.setWorker, hji, Ne.symm hji]
  | @run i t hw _ =>
    by_cases hji : j = i
    · subst hji
      simp [TestPool.stepsLeft, TestPool.setWorker, TestPool.invoke, hw]
      omega
    · simp [TestPool.stepsLeft, TestPool.setWorker, TestPool.invoke, hji, Ne.symm hji]

/-- A worker that has not exited can always take a step. -/
theorem exists_step_of_not_exited {j : Fin n} (hw : s.worker j ≠ .exited) :
    ∃ s', s.step k (.work j) = some s' := by
  cases hwj : s.worker j with
  | top =>
    simp only [TestPool.step, TestPool.workNext, hwj]
    split <;> exact ⟨_, rfl⟩
  | got t =>
    simp only [TestPool.step, TestPool.workNext, hwj]
    split <;> exact ⟨_, rfl⟩
  | exited => exact absurd hwj hw

/-- **Every worker gets to its pill.**  After `done()` on its queue worker `j` can take a step
until it has exited, it takes no more than `stepsLeft`, and when it has taken them it has
exited. -/
theorem Inv.worker_exits (hI : Inv k s) {j : Fin n} (hdone : s.main.isDone j = true)
    (h : Run (Fires (TestPool.step k)) s as s') :
    as.countP (· = .work j) ≤ s.stepsLeft j ∧
    (s'.worker j ≠ .exited → ∃ s'', s'.step k (.work j) = some s'') ∧
    (as.countP (· = .work j) = s.stepsLeft j → s'.worker j = .exited) := by
  have hkeep : ∀ (s : TestPool n) a t, (Inv k s ∧ s.main.isDone j = true) →
      Fires (TestPool.step k) s a t → Inv k t ∧ t.main.isDone j = true := by
    rintro s a t ⟨hJ, hJdone⟩ hst
    exact ⟨hJ.step (stepCase_of_step hst), isDone_step (stepCase_of_step hst) hJdone⟩
  have hcount := h.countP_add_le (m := fun s => s.stepsLeft j) (p := (· = .work j)) hkeep
    (fun _ _ _ hJ hst => by simpa using stepsLeft_step (stepCase_of_step hst) hJ.1 hJ.2)
    ⟨hI, hdone⟩
  obtain ⟨hI', hdone'⟩ := h.invariant hkeep ⟨hI, hdone⟩
  refine ⟨by omega, exists_step_of_not_exited, ?_⟩
  intro hall
  have hzero : s'.stepsLeft j = 0 := by omega
  cases hw : s'.worker j with
  | top =>
    have hitems := List.length_pos_iff.mpr (hI'.items_ne_nil hdone' hw)
    simp only [TestPool.stepsLeft] at hzero
    omega
  | got t => simp [TestPool.stepsLeft, hw] at hzero
  | exited => rfl

/-! ## 7. The pool -/

/-- Each work is in one share. -/
theorem sum_count_share {idx : ℕ} (hn : 0 < n) (hk : idx < k) :
    ∑ j : Fin n, (share n k j).count idx = 1 := by
  have hmod : idx % n < n := Nat.mod_lt _ hn
  rw [Finset.sum_eq_single ⟨idx % n, hmod⟩]
  · rw [share_eq_filter hmod, List.count_filter (by simp)]
    exact List.count_eq_one_of_mem List.nodup_range (List.mem_range.mpr hk)
  · intro j _ hj
    rw [share_eq_filter j.isLt]
    refine List.count_eq_zero.mpr ?_
    intro hmem
    refine hj (Fin.ext ?_)
    simpa [eq_comm] using (List.mem_filter.mp hmem).2
  · intro hnot
    exact absurd (Finset.mem_univ _) hnot

/-- **Each worker runs its share in order and shuts down.**  In every state a run reaches worker
`j` has run a prefix of `j`, `j + n`, `j + 2n`, …, and all of it when it has exited; after
`done()` on its queue, until it has popped its pill, the pill is the last entry of the queue and
the only one, worker `j` exits when it has popped exactly the entries then left, and it gets
there.  So when all have exited each work has been run once. -/
theorem localQueue_runs_shares (hn : 0 < n)
    (h : Run (Fires (TestPool.step k)) (TestPool.init n) as s) :
    (∀ j, s.executed j <+: share n k j ∧ (s.worker j = .exited → s.executed j = share n k j)) ∧
    (∀ j : Fin n, s.main.isDone j = true → makePoisonPill ∉ (s.tasks j).removed →
      (∃ rest, (s.tasks j).items = rest ++ [makePoisonPill] ∧ makePoisonPill ∉ rest) ∧
      ∀ bs s', Run (Fires (TestPool.step k)) s bs s' →
        (s'.worker j = .exited → (s'.tasks j).removed = (s.tasks j).removed ++ (s.tasks j).items) ∧
        (s'.worker j ≠ .exited → ∃ s'', s'.step k (.work j) = some s'') ∧
        bs.countP (· = .work j) ≤ s.stepsLeft j ∧
        (bs.countP (· = .work j) = s.stepsLeft j → s'.worker j = .exited)) ∧
    ((∀ j, s.worker j = .exited) → ∀ idx < k, ∑ j, (s.executed j).count idx = 1) := by
  have hI : Inv k s := Inv.run h
  refine ⟨?_, ?_, ?_⟩
  · intro j
    constructor
    · exact hI.executed_prefix_share j
    · intro hexit
      exact (hI.of_exited hexit).2
  · intro j hdone hremoved
    refine ⟨hI.pill_last hdone hremoved, ?_⟩
    intro bs s' hrun
    obtain ⟨hle, henabled, hall⟩ := hI.worker_exits hdone hrun
    refine ⟨?_, henabled, hle, hall⟩
    intro hexit
    rw [((Inv.run (h.append hrun)).of_exited hexit).1, (s.tasks j).conserve,
      hI.added_of_isDone hdone]
  · intro hexit idx hidx
    rw [← sum_count_share hn hidx]
    exact Finset.sum_congr rfl fun j _ => by rw [(hI.of_exited (hexit j)).2]

/-- Two workers and three works: worker 1 has exited before worker 0 has begun, and worker 0 exits
when it has popped the two works left to it and the pill. -/
theorem localQueue_runs_three_works :
    ∃ s s', Run (Fires (TestPool.step 3)) (TestPool.init 2)
        [.main, .main, .main, .main, .work 1, .main, .work 1, .main, .work 1, .work 1] s ∧
      Run (Fires (TestPool.step 3)) s
        [.work 0, .work 0, .work 0, .work 0, .work 0, .work 0] s' ∧
      s'.worker 0 = .exited ∧ s'.worker 1 = .exited ∧
      (s'.tasks 0).removed = [makeTask (.work 0), makeTask (.work 2), makePoisonPill] ∧
      s'.executed 0 = [0, 2] ∧ s'.executed 1 = [1] := by
  obtain ⟨s, hrun, hdone, hpill, hleft, hitems, hexit, s', hexec, hexit'⟩ :=
    exists_run_of_exec (TestPool.step 3) (TestPool.init 2)
      [.main, .main, .main, .main, .work 1, .main, .work 1, .main, .work 1, .work 1]
      (fun s => s.main.isDone (0 : Fin 2) = true ∧ makePoisonPill ∉ (s.tasks 0).removed ∧
        s.stepsLeft 0 = 6 ∧
        (s.tasks 0).removed ++ (s.tasks 0).items
          = [makeTask (.work 0), makeTask (.work 2), makePoisonPill] ∧
        s.worker 1 = .exited ∧
        ∃ s' ∈ exec (TestPool.step 3) s
          [.work 0, .work 0, .work 0, .work 0, .work 0, .work 0], s'.worker 1 = .exited)
      (by decide)
  have hrun' := run_of_exec (Option.mem_def.mp hexec)
  obtain ⟨-, hclosed, -⟩ := localQueue_runs_shares (by decide) hrun
  obtain ⟨-, hwork⟩ := hclosed 0 hdone hpill
  obtain ⟨hremoved, -, -, hall⟩ := hwork _ _ hrun'
  have hexit₀ : s'.worker 0 = .exited := hall (by rw [hleft]; decide)
  obtain ⟨hshare, -, -⟩ := localQueue_runs_shares (by decide) (hrun.append hrun')
  exact ⟨s, s', hrun, hrun', hexit₀, hexit', (hremoved hexit₀).trans hitems,
    (hshare 0).2 hexit₀, (hshare 1).2 hexit'⟩

end CxxConcurrency.TaskSystem.Local
