/-
# The one-shot event of `tasks/async_future_promise.cpp`

`compute` starts a thread, counts, sets the promise, stores its count, joins the thread and prints
both cells of `workload`; the worker waits for the future, counts and stores.  The cells have no
value before they are stored to.  The state of the promise is kept, so the event does what the
flag of `async_events.cpp` does, and nobody polls: whatever the order of the steps, `compute`
returns after a bounded number of them and prints both counts (`compute_prints`).

The bounds of the loops, `0xFFFFF` and `0xFFFF`, are parameters.
-/
import CxxConcurrency.Lib.Run

namespace CxxConcurrency.Tasks

open CxxConcurrency.Lib

/-- Where `compute` is. -/
inductive Promise.Compute
  /-- It constructs the thread next. -/
  | start
  /-- Before the test `i < 0xFFFFF`. -/
  | loop (i sum : ℕ)
  /-- `p.set_value()` has returned; the write of `workload[0]` comes next. -/
  | write (sum : ℕ)
  /-- In `th.join()`. -/
  | join
  | print
  | returned
  deriving DecidableEq

/-- Where `worker` is. -/
inductive Promise.Worker
  /-- The thread has not been constructed. -/
  | unborn
  /-- In `fut.wait()`. -/
  | wait
  /-- Before the test `i < 0xFFFF`; the write of `workload[1]` comes after the loop. -/
  | loop (i sum : ℕ)
  | returned
  deriving DecidableEq

/-- Who takes a step. -/
inductive Promise.Party
  | compute
  | worker
  deriving DecidableEq

/-- `compute` and `worker`. -/
structure Promise where
  /-- Whether the promise has been set. -/
  ready : Bool
  /-- `workload[0]` and `workload[1]` -/
  workload : Option ℕ × Option ℕ
  compute : Promise.Compute
  worker : Promise.Worker
  printed : Option (ℕ × ℕ)

namespace Promise

/-- `compute` has been called. -/
def init : Promise := ⟨false, (none, none), .start, .unborn, none⟩

/-- One step, where `compute` counts to `n` and `worker` to `m`. -/
def step (n m : ℕ) (s : Promise) : Party → Option Promise
  | .compute =>
    match s.compute with
    | .start => some { s with compute := .loop 0 0, worker := .wait }
    | .loop i sum =>
      if i < n then some { s with compute := .loop (i + 1) (sum + 1) }
      else some { s with ready := true, compute := .write sum }
    | .write sum => some { s with workload := (some sum, s.workload.2), compute := .join }
    | .join => if s.worker = .returned then some { s with compute := .print } else none
    | .print =>
      match s.workload with
      | (some a, some b) => some { s with printed := some (a, b), compute := .returned }
      | _ => none
    | .returned => none
  | .worker =>
    match s.worker with
    | .unborn => none
    | .wait => if s.ready then some { s with worker := .loop 0 0 } else none
    | .loop i sum =>
      if i < m then some { s with worker := .loop (i + 1) (sum + 1) }
      else some { s with workload := (s.workload.1, some sum), worker := .returned }
    | .returned => none

variable {n m : ℕ} {s s' : Promise} {a : Party} {as : List Party}

/-- The cases of a step. -/
inductive StepCase (n m : ℕ) (s : Promise) : Party → Promise → Prop
  | start (hc : s.compute = .start) :
      StepCase n m s .compute { s with compute := .loop 0 0, worker := .wait }
  | count {i sum : ℕ} (hc : s.compute = .loop i sum) (hi : i < n) :
      StepCase n m s .compute { s with compute := .loop (i + 1) (sum + 1) }
  | setValue {i sum : ℕ} (hc : s.compute = .loop i sum) (hi : n ≤ i) :
      StepCase n m s .compute { s with ready := true, compute := .write sum }
  | write {sum : ℕ} (hc : s.compute = .write sum) :
      StepCase n m s .compute { s with workload := (some sum, s.workload.2), compute := .join }
  | join (hc : s.compute = .join) (hw : s.worker = .returned) :
      StepCase n m s .compute { s with compute := .print }
  | print {x y : ℕ} (hc : s.compute = .print) (hcells : s.workload = (some x, some y)) :
      StepCase n m s .compute { s with printed := some (x, y), compute := .returned }
  | wake (hw : s.worker = .wait) (hready : s.ready = true) :
      StepCase n m s .worker { s with worker := .loop 0 0 }
  | workerCount {i sum : ℕ} (hw : s.worker = .loop i sum) (hi : i < m) :
      StepCase n m s .worker { s with worker := .loop (i + 1) (sum + 1) }
  | workerWrite {i sum : ℕ} (hw : s.worker = .loop i sum) (hi : m ≤ i) :
      StepCase n m s .worker
        { s with workload := (s.workload.1, some sum), worker := .returned }

/-- **Every step is one of the cases.** -/
theorem stepCase_of_step (h : s.step n m a = some s') : StepCase n m s a s' := by
  cases a with
  | compute =>
    simp only [step] at h
    split at h
    · rename_i hc
      obtain rfl := Option.some.inj h
      exact .start hc
    · rename_i i sum hc
      split at h
      · rename_i hi
        obtain rfl := Option.some.inj h
        exact .count hc hi
      · rename_i hi
        obtain rfl := Option.some.inj h
        exact .setValue hc (Nat.le_of_not_lt hi)
    · rename_i sum hc
      obtain rfl := Option.some.inj h
      exact .write hc
    · rename_i hc
      obtain ⟨hw, h⟩ := Option.ite_none_right_eq_some.mp h
      obtain rfl := Option.some.inj h
      exact .join hc hw
    · rename_i hc
      split at h
      · rename_i x y hcells
        obtain rfl := Option.some.inj h
        exact .print hc hcells
      · exact absurd h (by simp)
    · exact absurd h (by simp)
  | worker =>
    simp only [step] at h
    split at h
    · exact absurd h (by simp)
    · rename_i hw
      obtain ⟨hready, h⟩ := Option.ite_none_right_eq_some.mp h
      obtain rfl := Option.some.inj h
      exact .wake hw hready
    · rename_i i sum hw
      split at h
      · rename_i hi
        obtain rfl := Option.some.inj h
        exact .workerCount hw hi
      · rename_i hi
        obtain rfl := Option.some.inj h
        exact .workerWrite hw (Nat.le_of_not_lt hi)
    · exact absurd h (by simp)

/-! ## 1. The invariant -/

/-- What holds where `compute` is. -/
def ComputeInv (n m : ℕ) (s : Promise) : Prop :=
  match s.compute with
  | .start => s.ready = false ∧ s.worker = .unborn
  | .loop i sum => sum = i ∧ i ≤ n ∧ s.ready = false ∧ s.worker = .wait
  | .write sum => sum = n ∧ s.ready = true ∧ s.worker ≠ .unborn
  | .join => s.workload.1 = some n ∧ s.ready = true ∧ s.worker ≠ .unborn
  | .print => s.workload.1 = some n ∧ s.ready = true ∧ s.worker = .returned
  | .returned => s.printed = some (n, m) ∧ s.ready = true ∧ s.worker = .returned

/-- What holds where `worker` is. -/
def WorkerInv (m : ℕ) (s : Promise) : Prop :=
  match s.worker with
  | .unborn => True
  | .wait => True
  | .loop i sum => sum = i ∧ i ≤ m ∧ s.ready = true
  | .returned => s.workload.2 = some m

/-- What holds of both. -/
structure Inv (n m : ℕ) (s : Promise) : Prop where
  compute : ComputeInv n m s
  worker : WorkerInv m s

/-- **One step.** -/
theorem Inv.step (h : StepCase n m s a s') (hI : Inv n m s) : Inv n m s' := by
  obtain ⟨hcompute, hworker⟩ := hI
  cases h with
  | start hc => exact ⟨⟨rfl, Nat.zero_le n, (by simp_all [ComputeInv]), rfl⟩, trivial⟩
  | count hc hi =>
    simp only [ComputeInv, hc] at hcompute
    exact ⟨⟨by rw [hcompute.1], hi, hcompute.2.2⟩, hworker⟩
  | setValue hc hi =>
    simp only [ComputeInv, hc] at hcompute
    obtain ⟨rfl, hle, -, hw⟩ := hcompute
    exact ⟨⟨Nat.le_antisymm hle hi, rfl, by simp [hw]⟩, by simp [WorkerInv, hw]⟩
  | write hc =>
    simp only [ComputeInv, hc] at hcompute
    obtain ⟨rfl, hrest⟩ := hcompute
    exact ⟨⟨rfl, hrest⟩, hworker⟩
  | join hc hw =>
    simp only [ComputeInv, hc] at hcompute
    exact ⟨⟨hcompute.1, hcompute.2.1, hw⟩, hworker⟩
  | print hc hcells =>
    simp only [ComputeInv, hc] at hcompute
    obtain ⟨hfirst, hready, hw⟩ := hcompute
    refine ⟨⟨?_, hready, hw⟩, hworker⟩
    simp only [WorkerInv, hw, hcells, Option.some.injEq] at hworker
    simp only [hcells, Option.some.injEq] at hfirst
    rw [hfirst, hworker]
  | wake hw hready =>
    refine ⟨?_, ⟨rfl, Nat.zero_le m, hready⟩⟩
    cases hc : s.compute <;> simp_all [ComputeInv]
  | workerCount hw hi =>
    simp only [WorkerInv, hw] at hworker
    refine ⟨?_, ⟨by rw [hworker.1], hi, hworker.2.2⟩⟩
    cases hc : s.compute <;> simp_all [ComputeInv]
  | workerWrite hw hi =>
    simp only [WorkerInv, hw] at hworker
    obtain ⟨rfl, hle, hready⟩ := hworker
    refine ⟨?_, congrArg some (Nat.le_antisymm hle hi)⟩
    cases hc : s.compute <;> simp_all [ComputeInv]

/-- **Every run.** -/
theorem Inv.run (h : Run (Fires (Promise.step n m)) init as s) : Inv n m s :=
  h.invariant (fun _ _ _ hI hst => hI.step (stepCase_of_step hst)) ⟨⟨rfl, rfl⟩, trivial⟩

/-! ## 2. It returns -/

/-- What `compute` has left. -/
def Compute.left (n : ℕ) : Compute → ℕ
  | .start => n + 5
  | .loop i _ => n - i + 4
  | .write _ => 3
  | .join => 2
  | .print => 1
  | .returned => 0

/-- What `worker` has left. -/
def Worker.left (m : ℕ) : Worker → ℕ
  | .unborn => m + 2
  | .wait => m + 2
  | .loop i _ => m - i + 1
  | .returned => 0

/-- What both have left. -/
def left (n m : ℕ) (s : Promise) : ℕ := s.compute.left n + s.worker.left m

/-- A step takes from it. -/
theorem left_step (h : StepCase n m s a s') (hI : Inv n m s) : s'.left n m < s.left n m := by
  cases h with
  | start hc =>
    have hw := hI.compute
    simp only [ComputeInv, hc] at hw
    simp [left, hc, hw.2, Compute.left, Worker.left]
  | count hc hi | setValue hc hi =>
    simp only [left, hc, Compute.left]
    omega
  | write hc | join hc | print hc => simp [left, hc, Compute.left]
  | wake hw => simp [left, hw, Worker.left]
  | workerCount hw hi | workerWrite hw hi =>
    simp only [left, hw, Worker.left]
    omega

/-- Where nobody can go on `compute` has returned. -/
theorem Inv.returned_of_stuck (hI : Inv n m s) (hstuck : ∀ a, s.step n m a = none) :
    s.compute = .returned := by
  have hcompute := hstuck .compute
  have hworker := hstuck .worker
  obtain ⟨hc, hw⟩ := hI
  cases hpc : s.compute with
  | returned => rfl
  | start | write => simp [Promise.step, hpc] at hcompute
  | loop i sum =>
    simp only [Promise.step, hpc] at hcompute
    split at hcompute <;> exact absurd hcompute (by simp)
  | join =>
    simp only [ComputeInv, hpc] at hc
    simp only [Promise.step, hpc, ite_eq_right_iff, reduceCtorEq, imp_false] at hcompute
    -- the worker has been told, and has not returned
    cases hpw : s.worker with
    | unborn => exact absurd hpw hc.2.2
    | wait => simp [Promise.step, hpw, hc.2.1] at hworker
    | loop i sum =>
      simp only [Promise.step, hpw] at hworker
      split at hworker <;> exact absurd hworker (by simp)
    | returned => exact absurd hpw hcompute
  | print =>
    simp only [ComputeInv, hpc] at hc
    simp only [WorkerInv, hc.2.2] at hw
    have hcells : s.workload = (some n, some m) := Prod.ext hc.1 hw
    simp [Promise.step, hpc, hcells] at hcompute

/-- **`compute` returns and prints both counts.**  Whatever the order of the steps, the worker does
not count before the promise has been set, the run is bounded, where nobody can go on `compute` has
returned, and then it has printed the two counts. -/
theorem compute_prints (h : Run (Fires (Promise.step n m)) init as s) :
    (s.ready = false → s.worker = .unborn ∨ s.worker = .wait) ∧
      as.length ≤ n + m + 7 ∧
      ((∀ a, s.step n m a = none) → s.compute = .returned) ∧
      (s.compute = .returned → s.printed = some (n, m)) := by
  have hI := Inv.run h
  refine ⟨fun hready => ?_, ?_, hI.returned_of_stuck, fun hc => ?_⟩
  · have hc := hI.compute
    cases hpc : s.compute <;> simp_all [ComputeInv]
  · have hle := h.length_add_le (I := Inv n m) (m := left n m)
      (fun _ _ _ hI hst => hI.step (stepCase_of_step hst))
      (fun _ _ _ hI hst => left_step (stepCase_of_step hst) hI) ⟨⟨rfl, rfl⟩, trivial⟩
    have hstart : left n m init = n + 5 + (m + 2) := rfl
    omega
  · have hprinted := hI.compute
    simp only [ComputeInv, hc] at hprinted
    exact hprinted.1

/-- Two loops of one round each. -/
theorem compute_prints_one :
    ∃ as s, Run (Fires (Promise.step 1 1)) init as s ∧ s.printed = some (1, 1) := by
  obtain ⟨s, hrun, hc⟩ := exists_run_of_exec (Promise.step 1 1) init
    [.compute, .compute, .compute, .worker, .compute, .worker, .worker, .compute, .compute]
    (fun s => s.compute = .returned) ⟨_, rfl, rfl⟩
  exact ⟨_, s, hrun, (compute_prints hrun).2.2.2 hc⟩

end Promise

end CxxConcurrency.Tasks
