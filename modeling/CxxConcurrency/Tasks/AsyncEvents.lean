/-
# The two events of `tasks/async_events.cpp`

`compute_1` and `compute_2` start a worker, count, signal an event, store their count and join the
worker; the worker waits for the event and counts.  The event of the first pair is an atomic flag
that the worker polls.  That of the second is a condition variable: `cv.wait( lk )` without a
predicate, and `notify_one()` without the mutex.

The flag keeps what it was told, so it does not matter who comes first (`Flag.Inv`).  A
notification that finds nobody waiting is gone, and a wakeup need not come from a notification.
So the second event does what the first does exactly in the runs in which the worker waits when
it is notified, and is not woken before (`one_shot_events`).
-/
import CxxConcurrency.Lib.Run

namespace CxxConcurrency.Tasks

open CxxConcurrency.Lib

/-- Where `compute_1` or `compute_2` is. -/
inductive Compute
  /-- In its loop; `flag.store( true )` or `cv.notify_one()` comes next. -/
  | loop
  /-- It has signalled; the write of `workload[0]` comes next. -/
  | write
  /-- In `th.join()`. -/
  | join
  | returned
  deriving DecidableEq

/-! ## 1. The flag -/

/-- Where `worker_1` is. -/
inductive Flag.Worker
  /-- In `while ( !flag )`. -/
  | spin
  /-- In its loop. -/
  | loop
  /-- About to write `workload_1[1]`. -/
  | write
  | returned
  deriving DecidableEq

/-- `compute_1` and `worker_1`. -/
structure Flag where
  flag : Bool
  /-- `workload_1` -/
  workload : ℕ × ℕ
  compute : Compute
  worker : Flag.Worker

namespace Flag

/-- `compute_1` has started its thread. -/
def init : Flag := ⟨false, (0, 0), .loop, .spin⟩

/-- The label of a step. -/
inductive Event
  /-- `flag.store( true )`, after the loop of `compute_1`. -/
  | store
  /-- `workload_1[0] = sum` -/
  | computeWrite
  /-- `th.join()` returns. -/
  | join
  /-- `worker_1` reads `seen` from the flag. -/
  | load (seen : Bool)
  /-- The loop of `worker_1`. -/
  | sum
  /-- `workload_1[1] = sum`, where `sum` is not 0. -/
  | workerWrite
  deriving DecidableEq

/-- One step. -/
def step (s : Flag) : Event → Option Flag
  | .store => if s.compute = .loop then some { s with flag := true, compute := .write } else none
  | .computeWrite =>
    if s.compute = .write then
      some { s with workload := (0xFFFFF, s.workload.2), compute := .join }
    else none
  | .join =>
    if s.compute = .join ∧ s.worker = .returned then some { s with compute := .returned }
    else none
  | .load seen =>
    if s.worker = .spin ∧ s.flag = seen then
      some { s with worker := if seen then .loop else .spin }
    else none
  | .sum => if s.worker = .loop then some { s with worker := .write } else none
  | .workerWrite =>
    if s.worker = .write then
      some { s with workload := (s.workload.1, 0xFFFF), worker := .returned }
    else none

/-- The flag is set once `compute_1` has signalled, and no worker leaves its loop before. -/
structure Inv (s : Flag) : Prop where
  flag : s.flag = true ↔ s.compute ≠ .loop
  worker : s.worker ≠ .spin → s.flag = true

theorem Inv.init : Inv init where
  flag := by simp [Flag.init]
  worker h := absurd rfl h

/-- **Every step keeps the invariant.** -/
theorem Inv.step {s s' : Flag} {e : Event} (h : s.step e = some s') (hI : Inv s) : Inv s' := by
  obtain ⟨hflag, hworker⟩ := hI
  cases e with
  | store =>
    simp only [Flag.step, Option.ite_none_right_eq_some, Option.some.injEq] at h
    obtain ⟨-, rfl⟩ := h
    exact ⟨by simp, fun _ => rfl⟩
  | computeWrite =>
    simp only [Flag.step, Option.ite_none_right_eq_some, Option.some.injEq] at h
    obtain ⟨hpc, rfl⟩ := h
    have hset : s.flag = true := hflag.mpr (by simp [hpc])
    exact ⟨by simp [hset], fun _ => hset⟩
  | join =>
    simp only [Flag.step, Option.ite_none_right_eq_some, Option.some.injEq] at h
    obtain ⟨⟨hpc, -⟩, rfl⟩ := h
    have hset : s.flag = true := hflag.mpr (by simp [hpc])
    exact ⟨by simp [hset], fun _ => hset⟩
  | load seen =>
    simp only [Flag.step, Option.ite_none_right_eq_some, Option.some.injEq] at h
    obtain ⟨⟨-, hseen⟩, rfl⟩ := h
    refine ⟨hflag, ?_⟩
    cases seen with
    | true => exact fun _ => hseen
    | false => exact fun hne => absurd rfl hne
  | sum =>
    simp only [Flag.step, Option.ite_none_right_eq_some, Option.some.injEq] at h
    obtain ⟨hpc, rfl⟩ := h
    exact ⟨hflag, fun _ => hworker (by simp [hpc])⟩
  | workerWrite =>
    simp only [Flag.step, Option.ite_none_right_eq_some, Option.some.injEq] at h
    obtain ⟨hpc, rfl⟩ := h
    exact ⟨hflag, fun _ => hworker (by simp [hpc])⟩

theorem Inv.run {s : Flag} {es : List Event} (h : Run (Fires Flag.step) Flag.init es s) : Inv s :=
  h.invariant (fun _ _ _ hI hst => hI.step hst) Inv.init

/-- `worker_1` has started its loop before `compute_1` has signalled. -/
def Early (s : Flag) : Prop := s.compute = .loop ∧ s.worker ≠ .spin

/-- `compute_1` has signalled and waits for `worker_1`, which polls a flag that is not set. -/
def Lost (s : Flag) : Prop := s.compute = .join ∧ s.worker = .spin ∧ s.flag = false

/-- The flag is an event that neither comes early nor is lost. -/
theorem Inv.reliable {s : Flag} (hI : Inv s) : ¬ Early s ∧ ¬ Lost s := by
  constructor
  · rintro ⟨hloop, hspin⟩
    exact hI.flag.mp (hI.worker hspin) hloop
  · rintro ⟨hjoin, -, hflag⟩
    rw [hI.flag.mpr (by simp [hjoin])] at hflag
    exact absurd hflag (by simp)

end Flag

/-! ## 2. The condition variable -/

/-- Where `worker_2` is. -/
inductive Cond.Worker
  /-- About to lock `m`. -/
  | lock
  /-- `m` is locked; `cv.wait( lk )` comes next. -/
  | wait
  /-- In `cv.wait( lk )`, which has released `m` and blocks. -/
  | waiting
  /-- A notification has reached it. -/
  | notified
  /-- It has woken up and is about to lock `m` again. -/
  | woken
  /-- In its loop. -/
  | loop
  /-- About to write `workload_2[1]`. -/
  | write
  /-- About to release `m`. -/
  | unlock
  | returned
  deriving DecidableEq

/-- `compute_2` and `worker_2`. -/
structure Cond where
  /-- Whether `m` is locked. -/
  m : Bool
  /-- `workload_2` -/
  workload : ℕ × ℕ
  compute : Compute
  worker : Cond.Worker

namespace Cond

/-- `compute_2` has started its thread. -/
def init : Cond := ⟨false, (0, 0), .loop, .lock⟩

/-- The label of a step. -/
inductive Event
  /-- `cv.notify_one()`, after the loop of `compute_2`. -/
  | notify
  /-- `workload_2[0] = sum` -/
  | computeWrite
  /-- `th.join()` returns. -/
  | join
  /-- `std::unique_lock<std::mutex> lk( m )` -/
  | lock
  /-- `cv.wait( lk )` releases `m` and blocks. -/
  | wait
  /-- `worker_2` wakes up, without a notification if `spurious`. -/
  | wake (spurious : Bool)
  /-- `cv.wait( lk )` locks `m` again and returns. -/
  | relock
  /-- The loop of `worker_2`. -/
  | sum
  /-- `workload_2[1] = sum`, where `sum` is not 0. -/
  | workerWrite
  /-- `lk` is destroyed. -/
  | unlock
  deriving DecidableEq

/-- One step. -/
def step (s : Cond) : Event → Option Cond
  | .notify =>
    if s.compute = .loop then
      some { s with
        compute := .write
        worker := if s.worker = .waiting then .notified else s.worker }
    else none
  | .computeWrite =>
    if s.compute = .write then
      some { s with workload := (0xFFFFF, s.workload.2), compute := .join }
    else none
  | .join =>
    if s.compute = .join ∧ s.worker = .returned then some { s with compute := .returned }
    else none
  | .lock =>
    if s.worker = .lock ∧ s.m = false then some { s with m := true, worker := .wait } else none
  | .wait => if s.worker = .wait then some { s with m := false, worker := .waiting } else none
  | .wake spurious =>
    if s.worker = (if spurious then .waiting else .notified) then
      some { s with worker := .woken }
    else none
  | .relock =>
    if s.worker = .woken ∧ s.m = false then some { s with m := true, worker := .loop } else none
  | .sum => if s.worker = .loop then some { s with worker := .write } else none
  | .workerWrite =>
    if s.worker = .write then
      some { s with workload := (s.workload.1, 0xFFFF), worker := .unlock }
    else none
  | .unlock =>
    if s.worker = .unlock then some { s with m := false, worker := .returned } else none

variable {s s' : Cond} {e : Event} {es : List Event}

/-- The cases of a step. -/
inductive StepCase (s : Cond) : Event → Cond → Prop
  | notify (hpc : s.compute = .loop) :
      StepCase s .notify { s with
        compute := .write
        worker := if s.worker = .waiting then .notified else s.worker }
  | computeWrite (hpc : s.compute = .write) :
      StepCase s .computeWrite { s with workload := (0xFFFFF, s.workload.2), compute := .join }
  | join (hpc : s.compute = .join) (hworker : s.worker = .returned) :
      StepCase s .join { s with compute := .returned }
  | lock (hpc : s.worker = .lock) (hm : s.m = false) :
      StepCase s .lock { s with m := true, worker := .wait }
  | wait (hpc : s.worker = .wait) : StepCase s .wait { s with m := false, worker := .waiting }
  | wake {spurious : Bool} (hpc : s.worker = if spurious then .waiting else .notified) :
      StepCase s (.wake spurious) { s with worker := .woken }
  | relock (hpc : s.worker = .woken) (hm : s.m = false) :
      StepCase s .relock { s with m := true, worker := .loop }
  | sum (hpc : s.worker = .loop) : StepCase s .sum { s with worker := .write }
  | workerWrite (hpc : s.worker = .write) :
      StepCase s .workerWrite { s with workload := (s.workload.1, 0xFFFF), worker := .unlock }
  | unlock (hpc : s.worker = .unlock) :
      StepCase s .unlock { s with m := false, worker := .returned }

/-- **Every step is one of the cases.** -/
theorem stepCase_of_step (h : s.step e = some s') : StepCase s e s' := by
  cases e <;> obtain ⟨hpc, h⟩ := Option.ite_none_right_eq_some.mp h <;>
    obtain rfl := Option.some.inj h
  case notify => exact .notify hpc
  case computeWrite => exact .computeWrite hpc
  case join => exact .join hpc.1 hpc.2
  case lock => exact .lock hpc.1 hpc.2
  case wait => exact .wait hpc
  case wake spurious => exact .wake hpc
  case relock => exact .relock hpc.1 hpc.2
  case sum => exact .sum hpc
  case workerWrite => exact .workerWrite hpc
  case unlock => exact .unlock hpc

/-- Whether `worker_2` still has to be woken: it waits, or is about to. -/
def Worker.before : Worker → Bool
  | .lock => true
  | .wait => true
  | .waiting => true
  | _ => false

/-- Whether `worker_2` has started its loop. -/
def Worker.started : Worker → Bool
  | .loop => true
  | .write => true
  | .unlock => true
  | .returned => true
  | _ => false

/-- `worker_2` has started its loop before `compute_2` has signalled. -/
def Early (s : Cond) : Prop := s.compute = .loop ∧ s.worker.started = true

/-- `compute_2` has signalled and waits for `worker_2`, which waits, or is about to, for a
notification that has been made. -/
def Lost (s : Cond) : Prop := s.compute = .join ∧ s.worker.before = true

/-- `worker_2` waits when it is notified, and before that it is not woken without a
notification. -/
def InTime (s : Cond) (e : Event) : Prop :=
  (e = .notify → s.worker ≠ .lock ∧ s.worker ≠ .wait) ∧ (e = .wake true → s.compute ≠ .loop)

instance : Decidable (InTime s e) :=
  inferInstanceAs (Decidable ((e = .notify → s.worker ≠ .lock ∧ s.worker ≠ .wait) ∧
    (e = .wake true → s.compute ≠ .loop)))

/-- **In time, every step keeps this**: `worker_2` is woken when `compute_2` has signalled. -/
theorem inTime_step (h : StepCase s e s') (hC : InTime s e)
    (hs : s.compute = .loop ↔ s.worker.before = true) :
    s'.compute = .loop ↔ s'.worker.before = true := by
  cases h with
  | notify hpc =>
    obtain ⟨hlock, hwait⟩ := hC.1 rfl
    -- of the points before the wakeup only the wait itself is left
    have hbefore := hs.mp hpc
    cases hw : s.worker <;> simp_all [Worker.before]
  | computeWrite hpc | join hpc => simpa [hpc] using hs
  | lock hpc | wait hpc | relock hpc | sum hpc | workerWrite hpc | unlock hpc =>
    simpa [hpc, Worker.before] using hs
  | @wake spurious hpc =>
    cases spurious with
    | true =>
      have hloop := hs.mpr (by simp [hpc, Worker.before])
      exact absurd hloop (hC.2 rfl)
    | false => simpa [hpc, Worker.before] using hs

theorem inTime_run (h : Run (Restrict InTime (Fires step)) init es s) :
    s.compute = .loop ↔ s.worker.before = true :=
  h.invariant (I := fun s => s.compute = .loop ↔ s.worker.before = true)
    (fun _ _ _ hs hst => inTime_step (stepCase_of_step hst.2) hst.1 hs)
    (by simp [init, Worker.before])

/-- In time, the condition variable is an event that neither comes early nor is lost. -/
theorem reliable_of_inTime (h : Run (Restrict InTime (Fires step)) init es s) :
    ¬ Early s ∧ ¬ Lost s := by
  have hs := inTime_run h
  constructor
  · rintro ⟨hloop, hstarted⟩
    have hbefore := hs.mp hloop
    cases hw : s.worker <;> simp_all [Worker.before, Worker.started]
  · rintro ⟨hjoin, hbefore⟩
    have hloop := hs.mpr hbefore
    exact absurd (hjoin.symm.trans hloop) (by simp)

/-! ## 3. Out of time -/

/-- Whether `worker_2` has locked `m`. -/
def Worker.holds : Worker → Bool
  | .wait => true
  | .loop => true
  | .write => true
  | .unlock => true
  | _ => false

/-- `worker_2` is the only thread that locks `m`. -/
theorem m_eq_holds_step (h : StepCase s e s') (hs : s.m = s.worker.holds) :
    s'.m = s'.worker.holds := by
  cases h with
  | notify => cases hw : s.worker <;> simp_all [Worker.holds]
  | computeWrite | join => exact hs
  | lock | wait | relock | unlock => rfl
  | sum hpc | workerWrite hpc => simpa [hpc, Worker.holds] using hs
  | @wake spurious hpc => cases spurious <;> simpa [hpc, Worker.holds] using hs

theorem m_eq_holds (h : Run (Fires step) init es s) : s.m = s.worker.holds :=
  h.invariant (I := fun s => s.m = s.worker.holds)
    (fun _ _ _ hs hst => m_eq_holds_step (stepCase_of_step hst) hs) rfl

/-- **A step out of time breaks the law**: a run that goes on from it leads to a worker that has
started early, or to one that waits for a notification that is lost. -/
theorem broken_of_not_inTime (hrun : Run (Fires step) init es s) (h : s.step e = some s')
    (hC : ¬ InTime s e) : ∃ es' u, Run (Fires step) s' es' u ∧ (Early u ∨ Lost u) := by
  cases stepCase_of_step h with
  | notify hpc =>
    have hw : s.worker = .lock ∨ s.worker = .wait := by
      by_contra hno
      exact hC ⟨fun _ => not_or.mp hno, by simp⟩
    have hwaits : s.worker ≠ .waiting ∧ s.worker.before = true := by
      rcases hw with hw | hw <;> simp [hw, Worker.before]
    refine ⟨[.computeWrite],
      { s with workload := (0xFFFFF, s.workload.2), compute := .join }, Run.single ?_,
      Or.inr ⟨rfl, hwaits.2⟩⟩
    simp [Fires, step, hwaits.1]
  | @wake spurious hw =>
    have hloop : spurious = true ∧ s.compute = .loop := by
      by_contra hno
      refine hC ⟨by simp, fun heq hloop => hno ⟨?_, hloop⟩⟩
      simpa using heq
    obtain ⟨rfl, hloop⟩ := hloop
    have hfree : s.m = false := by
      rw [m_eq_holds hrun, hw]
      rfl
    exact ⟨[.relock], { s with m := true, worker := .loop },
      Run.single (by simp [Fires, step, hfree]), Or.inl ⟨hloop, rfl⟩⟩
  | computeWrite | join | lock | wait | relock | sum | workerWrite | unlock =>
    exact absurd ⟨by simp, by simp⟩ hC

end Cond

/-! ## 4. Both events -/

/-- **When the events are reliable.**  The flag never comes early and is never lost.  The
condition variable is so in the runs in which `worker_2` waits when it is notified and is not woken
before; from any other step a run goes on to a state in which it is not. -/
theorem one_shot_events (fs : List Flag.Event) (f : Flag) (es : List Cond.Event) (s : Cond) :
    (Run (Fires Flag.step) Flag.init fs f → ¬ Flag.Early f ∧ ¬ Flag.Lost f) ∧
    (Run (Restrict Cond.InTime (Fires Cond.step)) Cond.init es s →
      ¬ Cond.Early s ∧ ¬ Cond.Lost s) ∧
    (∀ e s', Run (Fires Cond.step) Cond.init es s → s.step e = some s' → ¬ Cond.InTime s e →
      ∃ es' u, Run (Fires Cond.step) s' es' u ∧ (Cond.Early u ∨ Cond.Lost u)) :=
  ⟨fun h => (Flag.Inv.run h).reliable, fun h => Cond.reliable_of_inTime h,
    fun _ _ hrun h hC => Cond.broken_of_not_inTime hrun h hC⟩

/-- The worker waits, is notified, and wakes up. -/
theorem one_shot_events_in_time :
    ∃ s, Run (Restrict Cond.InTime (Fires Cond.step)) Cond.init
        [.lock, .wait, .notify, .wake false, .relock, .computeWrite] s ∧
      s.worker = .loop ∧ ¬ Cond.Early s ∧ ¬ Cond.Lost s := by
  obtain ⟨s, hrun, hw⟩ := exists_restricted_run_of_exec Cond.InTime Cond.step Cond.init
    [.lock, .wait, .notify, .wake false, .relock, .computeWrite] (fun s => s.worker = .loop)
    (by decide)
  exact ⟨s, hrun, hw, (one_shot_events [] Flag.init _ s).2.1 hrun⟩

/-- **The condition variable fails both ways**: woken by nothing, the worker starts early, and a
notification before the wait is lost. -/
theorem cond_unreliable :
    (¬ ∀ es s, Run (Fires Cond.step) Cond.init es s → ¬ Cond.Early s) ∧
      ¬ ∀ es s, Run (Fires Cond.step) Cond.init es s → ¬ Cond.Lost s := by
  constructor
  · intro hall
    have hrun : Run (Fires Cond.step) Cond.init [.lock, .wait, .wake true, .relock] _ :=
      run_of_exec rfl
    exact hall _ _ hrun ⟨rfl, rfl⟩
  · intro hall
    have hrun : Run (Fires Cond.step) Cond.init [.notify, .computeWrite, .lock, .wait] _ :=
      run_of_exec rfl
    exact hall _ _ hrun ⟨rfl, rfl⟩

end CxxConcurrency.Tasks
