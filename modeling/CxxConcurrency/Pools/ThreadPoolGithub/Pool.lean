/-
# `ThreadPoolGithub::ThreadPool` of `stdthread/ThreadPool.hh`

Any number of workers, any number of threads that call `enqueue`, and the owner of the pool, which
runs the destructor.  They share the task queue, its mutex, the condition variable and `stop`.

A step is one access to these, or the call of one task.  `condition.wait(lock, pred)` is a loop:
the predicate is evaluated under the mutex, a worker for which it is false releases the mutex and
waits in the same step, and a worker that is woken, by a notification or spuriously, takes the
mutex again and evaluates the predicate again.  The worker that `notify_one` wakes is chosen by
the label of the step.

The workers that the constructor has not started yet are workers that have not made their first
step.  A task is the callable that `enqueue` was given; its number is its place in the order of
the calls of `tasks.emplace`.  It is called through a `std::packaged_task`, so what it gives, a
value or an exception, goes to its future.

After `~ThreadPool` has returned the steps have no defined meaning; they go on here as before.
-/
import CxxConcurrency.Lib.Fifo
import CxxConcurrency.Lib.Mutex
import CxxConcurrency.Lib.Run
import Mathlib.Data.Fintype.Basic

namespace CxxConcurrency.Pools.ThreadPoolGithub

open CxxConcurrency.Lib

/-! ## 1. The state -/

/-- Where a worker is. -/
inductive Worker (τ : Type*)
  /-- About to lock the mutex, at the top of the loop or woken in `condition.wait`. -/
  | lock
  /-- In `condition.wait`, about to evaluate the predicate. -/
  | test
  /-- In `condition.wait`, waiting. -/
  | waiting
  /-- About to evaluate `this->stop && this->tasks.empty()`. -/
  | check
  /-- About to move the task from the front of the queue and to pop it. -/
  | take
  /-- At the end of the block, with task `k`. -/
  | unlock (k : ℕ) (f : τ)
  /-- About to call task `k`. -/
  | run (k : ℕ) (f : τ)
  /-- At `return`, about to unlock the mutex. -/
  | ret
  | exited

/-- Where a thread that calls `enqueue` is, with the callable of the call. -/
inductive Client (τ : Type*)
  /-- Between two calls. -/
  | idle
  /-- It has the future of the task, and is about to lock the mutex. -/
  | lock (f : τ)
  /-- About to test `stop`. -/
  | check (f : τ)
  | emplace (f : τ)
  /-- At the end of the block; the task is task `k`. -/
  | unlock (k : ℕ) (f : τ)
  /-- About to call `condition.notify_one`. -/
  | notify (k : ℕ) (f : τ)
  /-- The call throws, and is about to unlock the mutex. -/
  | unwind (f : τ)

/-- Where the owner is. -/
inductive Owner
  /-- Before the destructor. -/
  | alive
  | lock
  | setStop
  | unlock
  | notifyAll
  /-- In the loop over the workers, at worker `j`. -/
  | join (j : ℕ)
  /-- The destructor has returned. -/
  | destroyed
  deriving DecidableEq

/-- Who takes a step. -/
inductive Party (n : ℕ) (ι : Type*)
  | worker (i : Fin n)
  | client (c : ι)
  | owner

/-- A pool with `n` workers. -/
structure ThreadPool (n : ℕ) (ι τ β : Type*) where
  tasks : Fifo τ
  /-- The owner of `queue_mutex`. -/
  queueMutex : Option (Party n ι)
  stop : Bool
  worker : Fin n → Worker τ
  client : ι → Client τ
  owner : Owner
  /-- What the future of each task holds, once it is ready. -/
  future : ℕ → Option β
  /-- The calls of each client that have ended, with the future that `enqueue` has returned;
  `none` where it has thrown. -/
  outcomes : ι → List (τ × Option ℕ)

variable {n : ℕ} {ι τ β : Type*}

/-- The pool just constructed. -/
def ThreadPool.init : ThreadPool n ι τ β where
  tasks := Fifo.empty
  queueMutex := none
  stop := false
  worker _ := .lock
  client _ := .idle
  owner := .alive
  future _ := none
  outcomes _ := []

def Worker.isWaiting : Worker τ → Bool
  | .waiting => true
  | _ => false

def Worker.isExited : Worker τ → Bool
  | .exited => true
  | _ => false

/-- Whether the worker holds the mutex. -/
def Worker.inside : Worker τ → Bool
  | .test | .check | .take | .unlock _ _ | .ret => true
  | .lock | .waiting | .run _ _ | .exited => false

/-- Whether the client holds the mutex. -/
def Client.inside : Client τ → Bool
  | .check _ | .emplace _ | .unlock _ _ | .unwind _ => true
  | .idle | .lock _ | .notify _ _ => false

/-- Whether the owner holds the mutex. -/
def Owner.inside : Owner → Bool
  | .setStop | .unlock => true
  | .alive | .lock | .notifyAll | .join _ | .destroyed => false

/-- A worker after `notify_all`. -/
def Worker.notified : Worker τ → Worker τ
  | .waiting => .lock
  | p => p

/-! ## 2. The steps -/

/-- The label of a step. -/
inductive Act (n : ℕ) (ι τ : Type*)
  /-- A party locks the mutex. -/
  | lock (p : Party n ι)
  /-- A party unlocks the mutex at the end of its block. -/
  | unlock (p : Party n ι)
  /-- `[this] { return this->stop || !this->tasks.empty(); }`; a worker for which this is false
  waits. -/
  | test (i : Fin n)
  /-- A worker wakes spuriously. -/
  | wake (i : Fin n)
  /-- `if (this->stop && this->tasks.empty())` -/
  | check (i : Fin n)
  /-- `task = std::move(this->tasks.front()); this->tasks.pop();` -/
  | take (i : Fin n)
  /-- `task()`, which is task `k`. -/
  | run (i : Fin n) (k : ℕ)
  /-- The worker returns. -/
  | ret (i : Fin n)
  /-- A call of `enqueue` begins. -/
  | call (c : ι) (f : τ)
  /-- `if (stop)` -/
  | checkStop (c : ι)
  /-- `tasks.emplace([task]() { (*task)(); })` -/
  | emplace (c : ι)
  /-- `condition.notify_one()`, which wakes this worker, and `return res`. -/
  | notifyOne (c : ι) (w : Option (Fin n))
  /-- The exception leaves `enqueue`. -/
  | unwind (c : ι)
  /-- `~ThreadPool` begins. -/
  | destroy
  /-- `stop = true` -/
  | setStop
  /-- `condition.notify_all()` -/
  | notifyAll
  /-- `worker.join()` returns, or the loop over the workers is over. -/
  | join

/-- Who takes the step. -/
def Act.party : Act n ι τ → Party n ι
  | .lock p | .unlock p => p
  | .test i | .wake i | .check i | .take i | .run i _ | .ret i => .worker i
  | .call c _ | .checkStop c | .emplace c | .notifyOne c _ | .unwind c => .client c
  | .destroy | .setStop | .notifyAll | .join => .owner

namespace ThreadPool

/-- Worker `i` moves to `p`. -/
def setWorker (s : ThreadPool n ι τ β) (i : Fin n) (p : Worker τ) : ThreadPool n ι τ β :=
  { s with worker := Function.update s.worker i p }

variable [DecidableEq ι]

/-- Client `c` moves to `p`. -/
def setClient (s : ThreadPool n ι τ β) (c : ι) (p : Client τ) : ThreadPool n ι τ β :=
  { s with client := Function.update s.client c p }

/-- The call of client `c` ends. -/
def endCall (s : ThreadPool n ι τ β) (c : ι) (f : τ) (res : Option ℕ) : ThreadPool n ι τ β :=
  { s.setClient c .idle with
    outcomes := Function.update s.outcomes c (s.outcomes c ++ [(f, res)]) }

omit [DecidableEq ι] in
@[simp] theorem setWorker_worker (s : ThreadPool n ι τ β) (i : Fin n) (p : Worker τ) :
    (s.setWorker i p).worker = Function.update s.worker i p := rfl

omit [DecidableEq ι] in
@[simp] theorem setWorker_client (s : ThreadPool n ι τ β) (i : Fin n) (p : Worker τ) :
    (s.setWorker i p).client = s.client := rfl

@[simp] theorem setClient_worker (s : ThreadPool n ι τ β) (c : ι) (p : Client τ) :
    (s.setClient c p).worker = s.worker := rfl

@[simp] theorem setClient_client (s : ThreadPool n ι τ β) (c : ι) (p : Client τ) :
    (s.setClient c p).client = Function.update s.client c p := rfl

/-- One step of a pool whose tasks give what `eval` says. -/
def step (eval : τ → β) (s : ThreadPool n ι τ β) : Act n ι τ → Option (ThreadPool n ι τ β)
  | .lock p =>
    match s.queueMutex with
    | some _ => none
    | none =>
      match p with
      | .worker i =>
        match s.worker i with
        | .lock => some { s.setWorker i .test with queueMutex := some p }
        | _ => none
      | .client c =>
        match s.client c with
        | .lock f => some { s.setClient c (.check f) with queueMutex := some p }
        | _ => none
      | .owner =>
        match s.owner with
        | .lock => some { s with owner := .setStop, queueMutex := some p }
        | _ => none
  | .unlock (.worker i) =>
    match s.worker i with
    | .unlock k f => some { s.setWorker i (.run k f) with queueMutex := none }
    | _ => none
  | .unlock (.client c) =>
    match s.client c with
    | .unlock k f => some { s.setClient c (.notify k f) with queueMutex := none }
    | _ => none
  | .unlock .owner =>
    match s.owner with
    | .unlock => some { s with owner := .notifyAll, queueMutex := none }
    | _ => none
  | .test i =>
    match s.worker i with
    | .test =>
      if s.stop = false ∧ s.tasks.items.isEmpty then
        some { s.setWorker i .waiting with queueMutex := none }
      else some (s.setWorker i .check)
    | _ => none
  | .wake i =>
    match s.worker i with
    | .waiting => some (s.setWorker i .lock)
    | _ => none
  | .check i =>
    match s.worker i with
    | .check =>
      if s.stop = true ∧ s.tasks.items.isEmpty then some (s.setWorker i .ret)
      else some (s.setWorker i .take)
    | _ => none
  | .take i =>
    match s.worker i with
    | .take =>
      s.tasks.pop?.map fun (f, q) =>
        { s.setWorker i (.unlock s.tasks.removed.length f) with tasks := q }
    | _ => none
  | .run i k =>
    match s.worker i with
    | .run j f =>
      if j = k then
        some { s.setWorker i .lock with future := Function.update s.future k (some (eval f)) }
      else none
    | _ => none
  | .ret i =>
    match s.worker i with
    | .ret => some { s.setWorker i .exited with queueMutex := none }
    | _ => none
  | .call c f =>
    match s.client c with
    | .idle => some (s.setClient c (.lock f))
    | _ => none
  | .checkStop c =>
    match s.client c with
    | .check f => some (s.setClient c (if s.stop then .unwind f else .emplace f))
    | _ => none
  | .emplace c =>
    match s.client c with
    | .emplace f =>
      some { s.setClient c (.unlock s.tasks.added.length f) with tasks := s.tasks.push f }
    | _ => none
  | .notifyOne c w =>
    match s.client c, w with
    | .notify k f, some i =>
      match s.worker i with
      | .waiting => some ((s.setWorker i .lock).endCall c f (some k))
      | _ => none
    | .notify k f, none =>
      if ∀ i, (s.worker i).isWaiting = false then some (s.endCall c f (some k)) else none
    | _, _ => none
  | .unwind c =>
    match s.client c with
    | .unwind f => some { s.endCall c f none with queueMutex := none }
    | _ => none
  | .destroy =>
    match s.owner with
    | .alive => some { s with owner := .lock }
    | _ => none
  | .setStop =>
    match s.owner with
    | .setStop => some { s with owner := .unlock, stop := true }
    | _ => none
  | .notifyAll =>
    match s.owner with
    | .notifyAll => some { s with owner := .join 0, worker := fun i => (s.worker i).notified }
    | _ => none
  | .join =>
    match s.owner with
    | .join j =>
      if h : j < n then
        if (s.worker ⟨j, h⟩).isExited then some { s with owner := .join (j + 1) } else none
      else some { s with owner := .destroyed }
    | _ => none

/-- The cases of a step. -/
inductive StepCase (eval : τ → β) (s : ThreadPool n ι τ β) :
    Act n ι τ → ThreadPool n ι τ β → Prop
  | lockWorker {i : Fin n} (hmu : s.queueMutex = none) (hi : s.worker i = .lock) :
      StepCase eval s (.lock (.worker i))
        { s.setWorker i .test with queueMutex := some (.worker i) }
  | lockClient {c : ι} {f : τ} (hmu : s.queueMutex = none) (hc : s.client c = .lock f) :
      StepCase eval s (.lock (.client c))
        { s.setClient c (.check f) with queueMutex := some (.client c) }
  | lockOwner (hmu : s.queueMutex = none) (ho : s.owner = .lock) :
      StepCase eval s (.lock .owner) { s with owner := .setStop, queueMutex := some .owner }
  | unlockWorker {i : Fin n} {k : ℕ} {f : τ} (hi : s.worker i = .unlock k f) :
      StepCase eval s (.unlock (.worker i)) { s.setWorker i (.run k f) with queueMutex := none }
  | unlockClient {c : ι} {k : ℕ} {f : τ} (hc : s.client c = .unlock k f) :
      StepCase eval s (.unlock (.client c)) { s.setClient c (.notify k f) with queueMutex := none }
  | unlockOwner (ho : s.owner = .unlock) :
      StepCase eval s (.unlock .owner) { s with owner := .notifyAll, queueMutex := none }
  | wait {i : Fin n} (hi : s.worker i = .test) (hstop : s.stop = false)
      (hempty : s.tasks.items = []) :
      StepCase eval s (.test i) { s.setWorker i .waiting with queueMutex := none }
  | pass {i : Fin n} (hi : s.worker i = .test) (hpass : s.stop = true ∨ s.tasks.items ≠ []) :
      StepCase eval s (.test i) (s.setWorker i .check)
  | wake {i : Fin n} (hi : s.worker i = .waiting) : StepCase eval s (.wake i) (s.setWorker i .lock)
  | leave {i : Fin n} (hi : s.worker i = .check) (hstop : s.stop = true)
      (hempty : s.tasks.items = []) : StepCase eval s (.check i) (s.setWorker i .ret)
  | stay {i : Fin n} (hi : s.worker i = .check) (hstay : s.stop = false ∨ s.tasks.items ≠ []) :
      StepCase eval s (.check i) (s.setWorker i .take)
  | take {i : Fin n} {f : τ} {q : Fifo τ} (hi : s.worker i = .take)
      (hpop : s.tasks.pop? = some (f, q)) :
      StepCase eval s (.take i)
        { s.setWorker i (.unlock s.tasks.removed.length f) with tasks := q }
  | run {i : Fin n} {k : ℕ} {f : τ} (hi : s.worker i = .run k f) :
      StepCase eval s (.run i k)
        { s.setWorker i .lock with future := Function.update s.future k (some (eval f)) }
  | ret {i : Fin n} (hi : s.worker i = .ret) :
      StepCase eval s (.ret i) { s.setWorker i .exited with queueMutex := none }
  | call {c : ι} {f : τ} (hc : s.client c = .idle) :
      StepCase eval s (.call c f) (s.setClient c (.lock f))
  | refuse {c : ι} {f : τ} (hc : s.client c = .check f) (hstop : s.stop = true) :
      StepCase eval s (.checkStop c) (s.setClient c (.unwind f))
  | accept {c : ι} {f : τ} (hc : s.client c = .check f) (hstop : s.stop = false) :
      StepCase eval s (.checkStop c) (s.setClient c (.emplace f))
  | emplace {c : ι} {f : τ} (hc : s.client c = .emplace f) :
      StepCase eval s (.emplace c)
        { s.setClient c (.unlock s.tasks.added.length f) with tasks := s.tasks.push f }
  | notifyOne {c : ι} {i : Fin n} {k : ℕ} {f : τ} (hc : s.client c = .notify k f)
      (hi : s.worker i = .waiting) :
      StepCase eval s (.notifyOne c (some i)) ((s.setWorker i .lock).endCall c f (some k))
  | notifyNone {c : ι} {k : ℕ} {f : τ} (hc : s.client c = .notify k f)
      (hnone : ∀ i, (s.worker i).isWaiting = false) :
      StepCase eval s (.notifyOne c none) (s.endCall c f (some k))
  | unwind {c : ι} {f : τ} (hc : s.client c = .unwind f) :
      StepCase eval s (.unwind c) { s.endCall c f none with queueMutex := none }
  | destroy (ho : s.owner = .alive) : StepCase eval s .destroy { s with owner := .lock }
  | setStop (ho : s.owner = .setStop) :
      StepCase eval s .setStop { s with owner := .unlock, stop := true }
  | notifyAll (ho : s.owner = .notifyAll) :
      StepCase eval s .notifyAll
        { s with owner := .join 0, worker := fun i => (s.worker i).notified }
  | join {j : ℕ} (ho : s.owner = .join j) (hj : j < n)
      (hexit : (s.worker ⟨j, hj⟩).isExited = true) :
      StepCase eval s .join { s with owner := .join (j + 1) }
  | joined {j : ℕ} (ho : s.owner = .join j) (hj : ¬ j < n) :
      StepCase eval s .join { s with owner := .destroyed }

variable {eval : τ → β} {s s' : ThreadPool n ι τ β} {a : Act n ι τ} {as : List (Act n ι τ)}

/-- **A step in which a mutex is locked or unlocked is one of the cases.** -/
theorem stepCase_of_mutex {p : Party n ι} (ha : a = .lock p ∨ a = .unlock p)
    (h : s.step eval a = some s') : StepCase eval s a s' := by
  rcases ha with rfl | rfl
  · simp only [step] at h
    split at h
    · exact absurd h (by simp)
    · rename_i hmu
      cases p with
      | worker i =>
        simp only at h
        split at h
        · rename_i hi
          obtain rfl := Option.some.inj h
          exact .lockWorker hmu hi
        · exact absurd h (by simp)
      | client c =>
        simp only at h
        split at h
        · rename_i f hc
          obtain rfl := Option.some.inj h
          exact .lockClient hmu hc
        · exact absurd h (by simp)
      | owner =>
        simp only at h
        split at h
        · rename_i ho
          obtain rfl := Option.some.inj h
          exact .lockOwner hmu ho
        · exact absurd h (by simp)
  · cases p with
    | worker i =>
      simp only [step] at h
      split at h
      · rename_i k f hi
        obtain rfl := Option.some.inj h
        exact .unlockWorker hi
      · exact absurd h (by simp)
    | client c =>
      simp only [step] at h
      split at h
      · rename_i k f hc
        obtain rfl := Option.some.inj h
        exact .unlockClient hc
      · exact absurd h (by simp)
    | owner =>
      simp only [step] at h
      split at h
      · rename_i ho
        obtain rfl := Option.some.inj h
        exact .unlockOwner ho
      · exact absurd h (by simp)

/-- A step of a worker is one of the cases. -/
theorem stepCase_of_worker {i : Fin n} (ha : a.party = .worker i) (h : s.step eval a = some s') :
    StepCase eval s a s' := by
  cases a with
  | lock p => exact stepCase_of_mutex (Or.inl rfl) h
  | unlock p => exact stepCase_of_mutex (Or.inr rfl) h
  | test i =>
    simp only [step] at h
    split at h
    · rename_i hi
      split at h
      · rename_i htest
        obtain rfl := Option.some.inj h
        exact .wait hi htest.1 (List.isEmpty_iff.mp htest.2)
      · rename_i htest
        obtain rfl := Option.some.inj h
        rw [Decidable.not_and_iff_or_not, Bool.not_eq_false, List.isEmpty_iff] at htest
        exact .pass hi htest
    · exact absurd h (by simp)
  | wake i =>
    simp only [step] at h
    split at h
    · rename_i hi
      obtain rfl := Option.some.inj h
      exact .wake hi
    · exact absurd h (by simp)
  | check i =>
    simp only [step] at h
    split at h
    · rename_i hi
      split at h
      · rename_i hcheck
        obtain rfl := Option.some.inj h
        exact .leave hi hcheck.1 (List.isEmpty_iff.mp hcheck.2)
      · rename_i hcheck
        obtain rfl := Option.some.inj h
        rw [Decidable.not_and_iff_or_not, Bool.not_eq_true, List.isEmpty_iff] at hcheck
        exact .stay hi hcheck
    · exact absurd h (by simp)
  | take i =>
    simp only [step] at h
    split at h
    · rename_i hi
      obtain ⟨⟨f, q⟩, hpop, rfl⟩ := Option.map_eq_some_iff.mp h
      exact .take hi hpop
    · exact absurd h (by simp)
  | run i k =>
    simp only [step] at h
    split at h
    · rename_i j f hi
      obtain ⟨rfl, rfl⟩ : _ ∧ _ := by simpa using h
      exact .run hi
    · exact absurd h (by simp)
  | ret i =>
    simp only [step] at h
    split at h
    · rename_i hi
      obtain rfl := Option.some.inj h
      exact .ret hi
    · exact absurd h (by simp)
  | call | checkStop | emplace | notifyOne | unwind | destroy | setStop | notifyAll | join =>
    exact absurd ha nofun

/-- A step of a client is one of the cases. -/
theorem stepCase_of_client {c : ι} (ha : a.party = .client c) (h : s.step eval a = some s') :
    StepCase eval s a s' := by
  cases a with
  | lock p => exact stepCase_of_mutex (Or.inl rfl) h
  | unlock p => exact stepCase_of_mutex (Or.inr rfl) h
  | call c f =>
    simp only [step] at h
    split at h
    · rename_i hc
      obtain rfl := Option.some.inj h
      exact .call hc
    · exact absurd h (by simp)
  | checkStop c =>
    simp only [step] at h
    split at h
    · rename_i f hc
      obtain rfl := Option.some.inj h
      cases hstop : s.stop with
      | true => exact .refuse hc hstop
      | false => exact .accept hc hstop
    · exact absurd h (by simp)
  | emplace c =>
    simp only [step] at h
    split at h
    · rename_i f hc
      obtain rfl := Option.some.inj h
      exact .emplace hc
    · exact absurd h (by simp)
  | notifyOne c w =>
    simp only [step] at h
    split at h
    · rename_i k f i hc
      split at h
      · rename_i hi
        obtain rfl := Option.some.inj h
        exact .notifyOne hc hi
      · exact absurd h (by simp)
    · rename_i k f hc
      obtain ⟨hnone, rfl⟩ : _ ∧ _ := by simpa using h
      exact .notifyNone hc hnone
    · exact absurd h (by simp)
  | unwind c =>
    simp only [step] at h
    split at h
    · rename_i f hc
      obtain rfl := Option.some.inj h
      exact .unwind hc
    · exact absurd h (by simp)
  | test | wake | check | take | run | ret | destroy | setStop | notifyAll | join =>
    exact absurd ha nofun

/-- A step of the owner is one of the cases. -/
theorem stepCase_of_owner (ha : a.party = .owner) (h : s.step eval a = some s') :
    StepCase eval s a s' := by
  cases a with
  | lock p => exact stepCase_of_mutex (Or.inl rfl) h
  | unlock p => exact stepCase_of_mutex (Or.inr rfl) h
  | destroy =>
    simp only [step] at h
    split at h
    · rename_i ho
      obtain rfl := Option.some.inj h
      exact .destroy ho
    · exact absurd h (by simp)
  | setStop =>
    simp only [step] at h
    split at h
    · rename_i ho
      obtain rfl := Option.some.inj h
      exact .setStop ho
    · exact absurd h (by simp)
  | notifyAll =>
    simp only [step] at h
    split at h
    · rename_i ho
      obtain rfl := Option.some.inj h
      exact .notifyAll ho
    · exact absurd h (by simp)
  | join =>
    simp only [step] at h
    split at h
    · rename_i j ho
      split at h
      · rename_i hj
        obtain ⟨hexit, rfl⟩ : _ ∧ _ := by simpa using h
        exact .join ho hj hexit
      · rename_i hj
        obtain rfl := Option.some.inj h
        exact .joined ho hj
    · exact absurd h (by simp)
  | test | wake | check | take | run | ret | call | checkStop | emplace | notifyOne | unwind =>
    exact absurd ha nofun

/-- **Every step is one of the cases.** -/
theorem stepCase_of_step (h : s.step eval a = some s') : StepCase eval s a s' := by
  cases ha : a.party with
  | worker i => exact stepCase_of_worker ha h
  | client c => exact stepCase_of_client ha h
  | owner => exact stepCase_of_owner ha h

/-- `notify_one` can always be called: it wakes a worker that waits, or nobody. -/
theorem exists_notifyOne (eval : τ → β) {c : ι} {k : ℕ} {f : τ} (hc : s.client c = .notify k f) :
    ∃ w t, s.step eval (.notifyOne c w) = some t := by
  by_cases hwait : ∀ i, (s.worker i).isWaiting = false
  · exact ⟨none, s.endCall c f (some k), by simp [step, hc, hwait]⟩
  · obtain ⟨i, hi⟩ := not_forall.mp hwait
    cases hw : s.worker i with
    | waiting =>
      exact ⟨some i, (s.setWorker i .lock).endCall c f (some k), by simp [step, hc, hw]⟩
    | _ =>
      rw [hw] at hi
      exact absurd rfl hi

end ThreadPool

end CxxConcurrency.Pools.ThreadPoolGithub
