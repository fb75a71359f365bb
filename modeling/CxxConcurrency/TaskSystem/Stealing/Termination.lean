/-
# When `~Pool` ends

Once `~Pool` has put its pills out and nobody posts any more, the queues only get shorter.  Two
things can still go wrong: a thief takes the last pill of a queue (`Shutdown.lean`), and a queue is
destroyed that a worker has chosen (`Lifetime.lean`).  `Careful` leaves both out.

Then a worker that comes back to its own queue finds something there, if only its pill, so it never
looks in vain and every step takes from what is left (`stepsLeft_step`).  A worker that has not
exited can always go on (`exists_work`), so a careful run that gets no further has destroyed the
pool, or each worker that has not exited is about to take a last pill (`destructor_ends`).
-/
import CxxConcurrency.TaskSystem.Stealing.Cursor
import CxxConcurrency.TaskSystem.Stealing.Lifetime
import CxxConcurrency.TaskSystem.Stealing.Shutdown

namespace CxxConcurrency.TaskSystem.Stealing

open CxxConcurrency.Lib

variable {n : ℕ} {s s' : Pool n} {a : Act n} {as : List (Act n)}

/-! ## 1. Careful steps -/

/-- The step destroys a queue. -/
def Act.isDestroy : Act n → Bool
  | .destroy _ => true
  | _ => false

/-- No thief takes a last pill, and no queue is destroyed before the last worker has exited. -/
def Careful (s : Pool n) (a : Act n) : Prop :=
  stealsLastPill s a = false ∧ (a.isDestroy = true → ∀ j, s.worker j = .exited)

instance : Decidable (Careful s a) :=
  inferInstanceAs (Decidable (_ ∧ (_ → _)))

/-- The step relation of the careful steps. -/
abbrev CarefulStep : Pool n → Act n → Pool n → Prop := Restrict Careful PoolStep

/-- What the owner has put out so far. -/
def Owner.Pilled (s : Pool n) : Owner → Prop
  | .calls => True
  | .joining k _ => ∀ i : Fin n, i.val < k → makePoisonPill ∈ (s.tasks i).added
  | .destroying => s.AllPilled

/-- The invariant of the careful runs. -/
structure CarefulInv (s : Pool n) : Prop where
  pilled : s.owner.Pilled s
  left : ∀ i, makePoisonPill ∈ (s.tasks i).added → s.PillLeft i
  alive : (∀ i, s.alive i = true) ∨ ∀ j, s.worker j = .exited
  /-- The cursor is below the number of siblings, if there are any. -/
  idx : 2 ≤ n → s.siblingIdx + 1 < n

theorem CarefulInv.init {siblingIdx queueIdx : ℕ} (hidx : 2 ≤ n → siblingIdx + 1 < n) :
    CarefulInv (Pool.init n siblingIdx queueIdx) where
  pilled := trivial
  left _ hi := absurd hi List.not_mem_nil
  alive := Or.inl fun _ => rfl
  idx := hidx

/-- A step takes nothing back that has been added. -/
theorem mem_added_step (h : StepCase s a s') {i : Fin n} {t : Task}
    (ht : t ∈ (s.tasks i).added) : t ∈ (s'.tasks i).added := by
  rcases added_cases h with ⟨hadded, -⟩ | ⟨j, draw, -, -, hadded⟩ | ⟨j, k, c, -, -, -, hadded⟩
  · exact hadded i ▸ ht
  · rw [hadded]
    exact List.mem_append_left _ ht
  · rw [hadded]
    exact List.mem_append_left _ ht

theorem pilled_step (h : StepCase s a s') (hP : s.owner.Pilled s) : s'.owner.Pilled s' := by
  have hkeep := fun i => mem_added_step h (i := i) (t := makePoisonPill)
  cases h with
  | post i howner =>
    rw [howner] at hP
    change s.owner.Pilled _
    rw [howner]
    trivial
  | postNone => exact hP
  | join | close => exact fun i hi => absurd hi (Nat.not_lt_zero _)
  | @done k closing howner hk =>
    rw [howner] at hP
    intro i hi
    rcases Nat.lt_succ_iff_lt_or_eq.mp hi with hlt | heq
    · exact hkeep i (hP i hlt)
    · obtain rfl : i = ⟨k, hk⟩ := Fin.ext heq
      simp [Pool.done, Pool.setTasks]
  | @joined k closing howner hk =>
    rw [howner] at hP
    cases closing with
    | true => exact fun i => hP i (lt_of_lt_of_le i.isLt (not_lt.mp hk))
    | false => trivial
  | _ =>
    revert hP
    change s.owner.Pilled s → s.owner.Pilled _
    cases s.owner with
    | calls => exact id
    | joining k closing => exact fun hP i hi => hkeep i (hP i hi)
    | destroying => exact fun hP i => hkeep i (hP i)

/-- `LookNext` keeps the cursor in bounds. -/
theorem siblingIdx_step (h : StepCase s a s') (hidx : 2 ≤ n → s.siblingIdx + 1 < n) (hn : 2 ≤ n) :
    s'.siblingIdx + 1 < n := by
  cases h with
  | @choose i p hw hp =>
    have hpos : 0 < n - 1 := by omega
    have hlt := Nat.mod_lt (s.siblingIdx + 1) hpos
    change (s.siblingIdx + 1) % (siblings n i).length + 1 < n
    rw [length_siblings]
    omega
  | _ => exact hidx hn

/-- **Every careful step keeps the invariant.** -/
theorem CarefulInv.step (h : CarefulStep s a s') (hI : CarefulInv s) : CarefulInv s' := by
  obtain ⟨⟨hsteal, hdestroy⟩, hst⟩ := h
  have hcase := stepCase_of_step hst
  refine ⟨pilled_step hcase hI.pilled, fun i => pillLeft_step hcase hsteal (hI.left i), ?_,
    siblingIdx_step hcase hI.idx⟩
  refine allAlive_or_allExited_step hcase ?_ hI.alive
  rintro i rfl
  exact hdestroy rfl

theorem CarefulInv.run {siblingIdx queueIdx : ℕ} (hidx : 2 ≤ n → siblingIdx + 1 < n)
    (h : Run CarefulStep (Pool.init n siblingIdx queueIdx) as s) : CarefulInv s :=
  h.invariant (fun _ _ _ hI hst => hI.step hst) (CarefulInv.init hidx)

/-! ## 2. What is left -/

/-- The steps a worker takes until it is back at its own queue. -/
def Worker.left : Worker n → ℕ
  | .got _ | .steal _ | .stole _ => 1
  | .empty => 2
  | .top | .exited => 0

/-- The steps that are left to a pool that is being destroyed: an entry of a queue is popped and
looked at. -/
def Pool.stepsLeft (s : Pool n) : ℕ :=
  2 * (∑ i, (s.tasks i).items.length) + (∑ i, (s.worker i).left) + ∑ i, (s.alive i).toNat

/-- A worker that has not had a pill finds one in its own queue, so it does not look in vain. -/
theorem CarefulInv.items_ne_nil (hI : CarefulInv s) (howner : s.owner = .destroying) {i : Fin n}
    (hw : s.worker i = .top) : (s.tasks i).items ≠ [] := by
  have hpilled := hI.pilled
  rw [howner] at hpilled
  rcases hI.left i (hpilled i) with hserved | hmem
  · rw [hw] at hserved
    exact absurd hserved (by simp [Worker.served])
  · exact List.ne_nil_of_mem hmem

/-- A worker moves on towards its own queue. -/
theorem sum_left_lt {i : Fin n} {w w' : Worker n} (hw : s.worker i = w)
    (hlt : w'.left < w.left) :
    ∑ j, (Function.update s.worker i w' j).left < ∑ j, (s.worker j).left := by
  have hsum := sum_update_add s.worker Worker.left i w'
  rw [hw] at hsum
  omega

/-- **A careful step of a pool that is being destroyed takes from the steps that are left.** -/
theorem stepsLeft_step (h : CarefulStep s a s') (hI : CarefulInv s)
    (howner : s.owner = .destroying) : s'.stepsLeft < s.stepsLeft := by
  cases stepCase_of_step h.2 with
  | postNone => exact absurd h.2 (by simp [Fires, Pool.step, howner])
  | post _ hcalls | join hcalls | close hcalls | done hcalls _ | joined hcalls _ =>
    rw [howner] at hcalls
    exact absurd hcalls (by simp)
  | @destroy i _ _ halive =>
    have hsum := sum_update_add s.alive Bool.toNat i false
    rw [halive] at hsum
    change _ + 1 = _ + 0 at hsum
    simp only [Pool.stepsLeft]
    omega
  | @popOwn i t q hw _ hpop =>
    have hitems := Fifo.sum_length_update_pop s.tasks hpop
    have hworker := sum_update_add s.worker Worker.left i (.got t)
    rw [hw] at hworker
    change _ + 0 = _ + 1 at hworker
    simp only [Pool.stepsLeft, Pool.setTasks, Pool.setWorker]
    omega
  | popOwnNone hw _ hpop =>
    exact absurd (Fifo.pop?_eq_none_iff.mp hpop) (hI.items_ne_nil howner hw)
  | @popSibling i p t q hw _ hpop =>
    have hitems := Fifo.sum_length_update_pop s.tasks hpop
    have hworker := sum_update_add s.worker Worker.left i (.stole t)
    rw [hw] at hworker
    change _ + 1 = _ + 1 at hworker
    simp only [Pool.stepsLeft, Pool.setTasks, Pool.setWorker]
    omega
  | exit hw _ | runOwn hw _ | chooseNone hw _ | choose hw _ | popSiblingNone hw _ _
  | runStolen hw _ | dropStolen hw _ =>
    refine Nat.add_lt_add_right (Nat.add_lt_add_left ?_ _) _
    exact sum_left_lt hw (by simp [Worker.left])

/-- The owner does not leave the destructor. -/
theorem destroying_step (h : PoolStep s a s') (howner : s.owner = .destroying) :
    s'.owner = .destroying := by
  cases stepCase_of_step h with
  | post _ hcalls | join hcalls | close hcalls | done hcalls _ | joined hcalls _ =>
    rw [howner] at hcalls
    exact absurd hcalls (by simp)
  | _ => exact howner

/-! ## 3. Where a careful run ends -/

/-- `tryPopFront()` on a queue that has not been destroyed returns. -/
theorem exists_tryPopFront {i p : Fin n} (got : Task → Worker n) (miss : Worker n)
    (halive : s.alive p = true) : ∃ s', s.tryPopFront i p got miss = some s' := by
  unfold Pool.tryPopFront
  rw [if_pos halive]
  split <;> exact ⟨_, rfl⟩

/-- **A worker that has not exited can go on** while all queues are alive. -/
theorem exists_work (halive : ∀ i, s.alive i = true) (hidx : 2 ≤ n → s.siblingIdx + 1 < n)
    {i : Fin n} (hw : s.worker i ≠ .exited) : ∃ s', PoolStep s (.work i) s' := by
  simp only [Fires, Pool.step, Pool.workNext]
  cases hwi : s.worker i with
  | top => exact exists_tryPopFront _ _ (halive i)
  | got t =>
    simp only
    split <;> exact ⟨_, rfl⟩
  | empty =>
    simp only
    rcases chooseSibling_cases (siblings n i) 0 s.siblingIdx with
      ⟨hc, -⟩ | ⟨p, hc, -⟩ | ⟨-, hne, hnone⟩
    · rw [hc]
      exact ⟨_, rfl⟩
    · rw [hc]
      exact ⟨_, rfl⟩
    · have hpos := List.length_pos_iff.mpr hne
      have hle := List.getElem?_eq_none_iff.mp hnone
      rw [length_siblings] at hpos hle
      have hlt := hidx (by omega)
      omega
  | steal p => exact exists_tryPopFront _ _ (halive p)
  | stole t =>
    simp only
    split <;> exact ⟨_, rfl⟩
  | exited => exact absurd hwi hw

/-- Where no careful step is possible the pool is gone, or a last pill is about to be taken by
every worker there is. -/
theorem CarefulInv.of_stuck (hI : CarefulInv s) (howner : s.owner = .destroying)
    (hstuck : ∀ a s', ¬ CarefulStep s a s') :
    (∀ i, s.worker i = .exited ∧ s.alive i = false) ∨
      ((∃ i, s.worker i ≠ .exited) ∧
        ∀ i, s.worker i ≠ .exited → stealsLastPill s (.work i) = true) := by
  by_cases hall : ∀ i, s.worker i = .exited
  · refine Or.inl fun i => ⟨hall i, ?_⟩
    by_contra halive
    have halive : s.alive i = true := eq_true_of_ne_false halive
    exact hstuck (.destroy i) _ ⟨⟨rfl, fun _ => hall⟩, by
      simp only [Fires, Pool.step]
      rw [if_pos ⟨howner, hall i, halive⟩]⟩
  · refine Or.inr ⟨not_forall.mp hall, fun i hi => ?_⟩
    obtain ⟨s', hst⟩ := exists_work (hI.alive.resolve_right hall) hI.idx hi
    by_contra hsteal
    have hcareful : Careful s (.work i) :=
      ⟨eq_false_of_ne_true hsteal, fun h => absurd h (by simp [Act.isDestroy])⟩
    exact hstuck (.work i) s' ⟨hcareful, hst⟩

/-- **When `~Pool` ends.**  From a state in which `~Pool` is past its `join()`, the runs in which
no thief takes a last pill and no queue is destroyed before the last worker has exited are bounded.
Where such a run gets no further, every worker has exited and every queue has been destroyed,
unless each worker that is left is about to take a last pill. -/
theorem destructor_ends {siblingIdx queueIdx : ℕ} (hidx : 2 ≤ n → siblingIdx + 1 < n)
    (h : Run CarefulStep (Pool.init n siblingIdx queueIdx) as s) (howner : s.owner = .destroying) :
    (∀ bs s', Run CarefulStep s bs s' → bs.length ≤ s.stepsLeft) ∧
      ((∀ a s', ¬ CarefulStep s a s') →
        (∀ i, s.worker i = .exited ∧ s.alive i = false) ∨
        ((∃ i, s.worker i ≠ .exited) ∧
          ∀ i, s.worker i ≠ .exited → stealsLastPill s (.work i) = true)) := by
  have hI := CarefulInv.run hidx h
  refine ⟨fun bs s' hrun => ?_, hI.of_stuck howner⟩
  have hle := hrun.length_add_le (I := fun s => CarefulInv s ∧ s.owner = .destroying)
    (m := Pool.stepsLeft)
    (fun _ _ _ hJ hst => ⟨hJ.1.step hst, destroying_step hst.2 hJ.2⟩)
    (fun _ _ _ hJ hst => stepsLeft_step hst hJ.1 hJ.2) ⟨hI, howner⟩
  omega

/-- Two queues and one task in hand: the task, the two pills and the two queues are left, and after
as many steps the pool is gone. -/
theorem destructor_ends_two :
    ∃ as s bs t, Run CarefulStep (Pool.init 2 0 0) as s ∧ Run CarefulStep s bs t ∧
      bs.length = 7 ∧ (∀ bs' t', Run CarefulStep s bs' t' → bs'.length ≤ 7) ∧
      ∀ i, t.worker i = .exited ∧ t.alive i = false := by
  obtain ⟨s, hrun, howner, hleft, hexec⟩ := exists_restricted_run_of_exec Careful
    (Pool.step .Random) (Pool.init 2 0 0) [.post 0, .close, .work 0, .next, .next, .next]
    (fun s => s.owner = .destroying ∧ s.stepsLeft = 7 ∧
      ∃ t ∈ exec (guarded Careful (Pool.step .Random)) s
        [.work 1, .work 0, .work 0, .work 1, .work 0, .destroy 1, .destroy 0],
        t.owner = .destroying ∧ ∀ i, t.worker i = .exited) (by decide)
  obtain ⟨t, hrun', howner', hexit⟩ := exists_restricted_run_of_exec Careful _ _ _ _ hexec
  have hbound : ∀ bs' t', Run CarefulStep s bs' t' → bs'.length ≤ 7 :=
    hleft ▸ (destructor_ends (by decide) hrun howner).1
  -- a further step would be the eighth
  have hstuck : ∀ a t', ¬ CarefulStep t a t' := fun a t' hst =>
    absurd (hbound _ t' (hrun'.tail hst)) (by simp)
  refine ⟨_, s, _, t, hrun, hrun', rfl, hbound, ?_⟩
  obtain ⟨-, hend⟩ := destructor_ends (by decide) (hrun.append hrun') howner'
  rcases hend hstuck with hgone | ⟨⟨i, hi⟩, -⟩
  · exact hgone
  · exact absurd (hexit i) hi

end CxxConcurrency.TaskSystem.Stealing
