/-
# The pill meant for a worker

`Pool::join()` puts one pill into every queue, and a worker leaves its loop when it pops a pill
from its own queue.  A thief looks at the status of a task only after it has popped it, and
lays a stolen pill down without running anything: the pill is gone.  Where it was the only one
in the queue, and the queue's own worker has not had one, that worker has nothing left to exit
on, and the `th->join()` of `~Queue` waits forever (`stranded_never_exits`).

This is the only way in which a worker loses its pill: in a run without such a steal every
queue that has been given a pill keeps one until its own worker has popped one.
-/
import CxxConcurrency.TaskSystem.Stealing.Conservation

namespace CxxConcurrency.TaskSystem.Stealing

open CxxConcurrency.Lib

variable {n : ℕ} {s s' : Pool n} {a : Act n} {as : List (Act n)}

/-! ## 1. Workers and their pills -/

/-- The worker has popped a pill from its own queue. -/
def Worker.served : Worker n → Bool
  | .exited => true
  | .got t => t.status = .PoisonPill
  | _ => false

/-- `Pool::join()` has put a pill in every queue. -/
def Pool.AllPilled (s : Pool n) : Prop := ∀ i, makePoisonPill ∈ (s.tasks i).added

/-- Worker `i` has popped a pill from its own queue, or has one there to pop. -/
def Pool.PillLeft (s : Pool n) (i : Fin n) : Prop :=
  (s.worker i).served = true ∨ makePoisonPill ∈ (s.tasks i).items

/-- The step is the `tryPopFront()` of a thief, and it takes the last pill of a queue whose own
worker has not popped one. -/
def stealsLastPill (s : Pool n) : Act n → Bool
  | .work j =>
    match s.worker j with
    | .steal i =>
      (s.tasks i).items.head? = some makePoisonPill && makePoisonPill ∉ (s.tasks i).items.tail
        && !(s.worker i).served
    | _ => false
  | _ => false

instance : Decidable s.AllPilled :=
  inferInstanceAs (Decidable (∀ i, makePoisonPill ∈ (s.tasks i).added))

instance {i : Fin n} : Decidable (s.PillLeft i) :=
  inferInstanceAs (Decidable (_ ∨ _))

theorem stealsLastPill_iff {j i : Fin n} (hw : s.worker j = .steal i) :
    stealsLastPill s (.work j) = true ↔
      (∃ rest, (s.tasks i).items = makePoisonPill :: rest ∧ makePoisonPill ∉ rest) ∧
        (s.worker i).served = false := by
  cases hitems : (s.tasks i).items <;> simp [stealsLastPill, hw, hitems]

/-! ## 2. Runs in which no thief takes a last pill -/

/-- A worker that has popped its pill does nothing but exit. -/
theorem served_step (h : StepCase s a s') {j : Fin n} (hj : (s.worker j).served = true) :
    (s'.worker j).served = true := by
  by_cases ha : a = .work j
  · subst ha
    cases h with
    | exit => simp [Pool.setWorker, Worker.served]
    | runOwn hw ht => simp [hw, Worker.served, ht] at hj
    | popOwn hw => simp [hw, Worker.served] at hj
    | popOwnNone hw => simp [hw, Worker.served] at hj
    | chooseNone hw => simp [hw, Worker.served] at hj
    | choose hw => simp [hw, Worker.served] at hj
    | popSibling hw => simp [hw, Worker.served] at hj
    | popSiblingNone hw => simp [hw, Worker.served] at hj
    | runStolen hw => simp [hw, Worker.served] at hj
    | dropStolen hw => simp [hw, Worker.served] at hj
  · rwa [worker_of_ne h ha]

/-- **Every step but the theft of a last pill leaves a pill for its worker.** -/
theorem pillLeft_step (h : StepCase s a s') (hC : stealsLastPill s a = false) {j : Fin n}
    (hj : makePoisonPill ∈ (s.tasks j).added → s.PillLeft j)
    (hadded' : makePoisonPill ∈ (s'.tasks j).added) : s'.PillLeft j := by
  rcases tasks_cases h j with htasks | ⟨-, t, htasks⟩ | ⟨i, t, rfl, hpop, hparty⟩
  · rw [htasks] at hadded'
    exact (hj hadded').imp (served_step h) (fun hmem => htasks ▸ hmem)
  · rw [htasks, Fifo.push_added, List.mem_append] at hadded'
    have hitems : (s'.tasks j).items = (s.tasks j).items ++ [t] := by rw [htasks, Fifo.push_items]
    rcases hadded' with hold | hnew
    · exact (hj hold).imp (served_step h) (fun hmem => hitems ▸ List.mem_append_left _ hmem)
    · exact Or.inr (hitems ▸ List.mem_append_right _ hnew)
  · obtain ⟨hitems, hadded, -⟩ := Fifo.pop?_eq_some hpop
    rcases hj (hadded ▸ hadded') with hserved | hmem
    · exact Or.inl (served_step h hserved)
    · rw [hitems, List.mem_cons] at hmem
      by_cases hrest : makePoisonPill ∈ (s'.tasks j).items
      · exact Or.inr hrest
      · obtain rfl : makePoisonPill = t := hmem.resolve_right hrest
        rcases hparty with ⟨rfl, -, hw'⟩ | ⟨hw, -⟩
        · exact Or.inl (by rw [hw']; rfl)
        · -- a thief took the last pill, so the worker has had one
          refine Or.inl (served_step h ?_)
          by_contra hserved
          have hsteals : stealsLastPill s (.work i) = true :=
            (stealsLastPill_iff hw).mpr ⟨⟨_, hitems, hrest⟩, by simpa using hserved⟩
          simp [hsteals] at hC

/-- The theft of a last pill leaves its worker without one. -/
theorem stranded_of_stealsLastPill (h : StepCase s a s') (hC : stealsLastPill s a = true) :
    ∃ i, makePoisonPill ∈ (s'.tasks i).added ∧ ¬ s'.PillLeft i := by
  cases a with
  | work j =>
    cases hw : s.worker j with
    | steal i =>
      obtain ⟨⟨rest, hitems, hrest⟩, hserved⟩ := (stealsLastPill_iff hw).mp hC
      have hpill : makePoisonPill ∈ (s.tasks i).added := Fifo.mem_added_iff.mpr
        (Or.inr (hitems ▸ List.mem_cons_self))
      refine ⟨i, ?_⟩
      cases h with
      | @popSibling _ p t q hp _ hpop =>
        obtain rfl : p = i := by simpa [hw] using hp.symm
        obtain ⟨hitems', hadded, -⟩ := Fifo.pop?_eq_some hpop
        have htasks : ((s.setTasks p q).setWorker j (.stole t)).tasks p = q :=
          Function.update_self _ _ _
        rw [hitems] at hitems'
        obtain ⟨-, rfl⟩ := List.cons.inj hitems'
        refine ⟨by rwa [htasks, hadded], ?_⟩
        rintro (hserved' | hmem)
        · by_cases hpj : p = j
          · simp [Pool.setWorker, hpj, Worker.served] at hserved'
          · simp [Pool.setWorker, Pool.setTasks, hpj, hserved] at hserved'
        · exact hrest (htasks ▸ hmem)
      | popSiblingNone hp _ hpop =>
        obtain rfl := Worker.steal.inj (hw.symm.trans hp)
        simp [Fifo.pop?_eq_none_iff.mp hpop] at hitems
      | _ => simp_all
    | _ => simp [stealsLastPill, hw] at hC
  | _ => simp [stealsLastPill] at hC

/-! ## 3. A worker without a pill -/

/-- Once `~Pool` is past its `join()`, a worker without a pill stays without one. -/
theorem stranded_step (h : StepCase s a s') (hI : Inv s) (howner : s.owner = .destroying)
    {j : Fin n} (hj : ¬ s.PillLeft j) : s'.owner = .destroying ∧ ¬ s'.PillLeft j := by
  have hserved : ¬ (s.worker j).served = true := fun hs => hj (Or.inl hs)
  have hpill : makePoisonPill ∉ (s.tasks j).items := fun hmem => hj (Or.inr hmem)
  have howner' : s'.owner = .destroying := by
    cases h with
    | post _ hcalls => exact absurd (hcalls.symm.trans howner) (by simp)
    | join hcalls => exact absurd (hcalls.symm.trans howner) (by simp)
    | close hcalls => exact absurd (hcalls.symm.trans howner) (by simp)
    | done hjoin => exact absurd (hjoin.symm.trans howner) (by simp)
    | joined hjoin => exact absurd (hjoin.symm.trans howner) (by simp)
    | _ => exact howner
  refine ⟨howner', ?_⟩
  rintro (hserved' | hmem)
  · by_cases ha : a = .work j
    · subst ha
      cases h with
      | @popOwn _ t q _ _ hpop =>
        -- only a pill would have served the worker
        obtain ⟨hitems, -, -⟩ := Fifo.pop?_eq_some hpop
        have ht : t ∈ (s.tasks j).items := hitems ▸ List.mem_cons_self
        have hstatus : t.status = .PoisonPill := by
          simpa [Pool.setWorker, Worker.served] using hserved'
        exact hpill (hI.eq_pill (Fifo.mem_added_iff.mpr (Or.inr ht)) hstatus ▸ ht)
      | exit hw ht => exact hserved (by simp [hw, Worker.served, ht])
      | _ => simp [Pool.setWorker, Worker.served] at hserved'
    · exact hserved (by rwa [worker_of_ne h ha] at hserved')
  · rcases tasks_cases h j with htasks | ⟨hne, -⟩ | ⟨i, t, -, hpop, -⟩
    · exact hpill (htasks ▸ hmem)
    · exact hne howner
    · exact hpill ((Fifo.pop?_eq_some hpop).1 ▸ List.mem_cons_of_mem _ hmem)

/-- **The hang.**  A worker that has no pill when `~Pool` is past its `join()` never exits, so
the `th->join()` of its `~Queue` never returns. -/
theorem stranded_never_exits {siblingIdx queueIdx : ℕ} {bs : List (Act n)}
    (h : Run PoolStep (Pool.init n siblingIdx queueIdx) as s) (howner : s.owner = .destroying)
    {i : Fin n} (hi : ¬ s.PillLeft i) (h' : Run PoolStep s bs s') : s'.worker i ≠ .exited := by
  have hend : Inv s' ∧ s'.owner = .destroying ∧ ¬ s'.PillLeft i :=
    h'.invariant (I := fun s => Inv s ∧ s.owner = .destroying ∧ ¬ s.PillLeft i)
      (fun _ _ _ hJ hst => ⟨hJ.1.step (stepCase_of_step hst),
        stranded_step (stepCase_of_step hst) hJ.1 hJ.2.1 hJ.2.2⟩) ⟨Inv.run h, howner, hi⟩
  intro hexit
  exact hend.2.2 (Or.inl (by simp [hexit, Worker.served]))

/-- Worker 1 has taken the pill of worker 0. -/
theorem stranded_never_exits_two_queues :
    ∃ as s, Run PoolStep (Pool.init 2 0 0) as s ∧
      ∀ bs s', Run PoolStep s bs s' → s'.worker 0 ≠ .exited := by
  obtain ⟨s, hrun, howner, hleft⟩ := exists_run_of_exec (Pool.step .Random)
    (Pool.init 2 0 0) [.work 1, .work 1, .close, .next, .next, .next, .work 1]
    (fun s => s.owner = .destroying ∧ ¬ s.PillLeft 0) (by decide)
  exact ⟨_, s, hrun, fun _ _ hrun' => stranded_never_exits hrun howner hleft hrun'⟩

/-! ## 4. Shutdown -/

/-- **Who keeps a pill.**  In a run in which no thief takes the last pill of a queue whose own
worker has not popped one, once `join()` has put a pill in every queue each worker has popped
its own or has one to pop; and the first such theft leaves its worker without. -/
theorem pillLeft_unless_stolen {siblingIdx queueIdx : ℕ}
    (h : Run (Restrict (fun s a => stealsLastPill s a = false) PoolStep)
      (Pool.init n siblingIdx queueIdx) as s) :
    (s.AllPilled → ∀ i, s.PillLeft i) ∧
    ∀ a s', PoolStep s a s' → stealsLastPill s a = true →
      ∃ i, makePoisonPill ∈ (s'.tasks i).added ∧ ¬ s'.PillLeft i := by
  have hleft : ∀ i, makePoisonPill ∈ (s.tasks i).added → s.PillLeft i :=
    h.invariant (I := fun s => ∀ i, makePoisonPill ∈ (s.tasks i).added → s.PillLeft i)
      (fun _ _ _ hI hst i => pillLeft_step (stepCase_of_step hst.2) hst.1 (hI i))
      (fun i hi => absurd hi List.not_mem_nil)
  constructor
  · intro hall i
    exact hleft i (hall i)
  · intro a s' hst hC
    exact stranded_of_stealsLastPill (stepCase_of_step hst) hC

/-- Two queues: worker 0 exits on its own pill, worker 1 finds the queue of worker 0 empty. -/
theorem pillLeft_unless_stolen_two_queues :
    ∃ s, Run (Restrict (fun s a => stealsLastPill s a = false) PoolStep) (Pool.init 2 0 0)
        [.work 1, .work 1, .join, .next, .work 0, .next, .work 0, .work 1, .next] s ∧
      s.worker 1 = .top ∧ ∀ i, s.PillLeft i := by
  obtain ⟨s, hrun, hall, hw⟩ := exists_restricted_run_of_exec
    (fun s a => stealsLastPill s a = false) (Pool.step .Random)
    (Pool.init 2 0 0)
    [.work 1, .work 1, .join, .next, .work 0, .next, .work 0, .work 1, .next]
    (fun s => s.AllPilled ∧ s.worker 1 = .top) (by decide)
  exact ⟨s, hrun, hw, (pillLeft_unless_stolen hrun).1 hall⟩

/-- **A thief can take the last pill**: worker 1 has seen its own queue empty and chosen queue 0
when the pills go out, and is the first to pop queue 0. -/
theorem thief_takes_last_pill :
    ¬ ∀ (n : ℕ) (as : List (Act n)) (s : Pool n), 0 < n → Run PoolStep (Pool.init n 0 0) as s →
      s.AllPilled → ∀ i, s.PillLeft i := by
  intro hall
  obtain ⟨s, hrun, hpilled, hleft⟩ := exists_run_of_exec (Pool.step .Random)
    (Pool.init 2 0 0) [.work 1, .work 1, .close, .next, .next, .next, .work 1]
    (fun s => s.AllPilled ∧ ¬ s.PillLeft 0) (by decide)
  exact hleft (hall 2 _ s (by decide) hrun hpilled 0)

end CxxConcurrency.TaskSystem.Stealing
