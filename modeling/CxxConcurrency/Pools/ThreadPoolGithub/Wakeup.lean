/-
# No wakeup of `ThreadPoolGithub::ThreadPool` is lost

`enqueue` unlocks the mutex before it calls `notify_one`, and `notify_one` wakes one worker at
most, which may not even be needed any more.  While a worker waits there are all the same as many
parties on their way to the queue as it has tasks (`ThreadPool.NoLostWakeup`): workers that are
going to evaluate the predicate or have found it true, and clients that are going to notify.

So a pool at rest, where no party can move unless a call begins, a worker wakes spuriously or the
destructor begins, has an empty queue if it has a worker (`ThreadPool.AtRest.empty`).  Once `stop`
is set a worker waits only until the destructor's `notify_all` (`ThreadPool.Inv.owner_of_waiting`).
-/
import CxxConcurrency.Lib.Parties
import CxxConcurrency.Pools.ThreadPoolGithub.Refine

namespace CxxConcurrency.Pools.ThreadPoolGithub

open CxxConcurrency.Lib

variable {n : ℕ} {ι τ β : Type*}

/-! ## 1. Who is on the way to the queue -/

/-- Whether a worker is going to look at the queue before it waits. -/
def Worker.awake : Worker τ → ℕ
  | .lock | .test | .check | .take => 1
  | .waiting | .unlock _ _ | .run _ _ | .ret | .exited => 0

/-- Whether a client has added a task and is going to notify. -/
def Client.notifying : Client τ → ℕ
  | .unlock _ _ | .notify _ _ => 1
  | .idle | .lock _ | .check _ | .emplace _ | .unwind _ => 0

namespace ThreadPool

variable [Fintype ι]

/-- How many parties are on the way to the queue. -/
def awake (s : ThreadPool n ι τ β) : ℕ :=
  (∑ i, (s.worker i).awake) + ∑ c, (s.client c).notifying

/-- While a worker waits, there is a party on the way for every task in the queue. -/
def NoLostWakeup (s : ThreadPool n ι τ β) : Prop :=
  ∀ i, (s.worker i).isWaiting = true → s.tasks.items.length ≤ s.awake

variable {s s' : ThreadPool n ι τ β}

theorem awake_setWorker {i : Fin n} {p₀ : Worker τ} (p : Worker τ) (hi : s.worker i = p₀) :
    (s.setWorker i p).awake + p₀.awake = s.awake + p.awake := by
  subst hi
  have hsum := sum_update_add s.worker Worker.awake i p
  rw [awake, awake, setWorker_worker, setWorker_client]
  omega

/-- A worker that moves to where it does not wait. -/
theorem NoLostWakeup.moveWorker (hN : NoLostWakeup s) {i : Fin n} {p p₀ : Worker τ} {q : Fifo τ}
    {mu : Option (Party n ι)} {fut : ℕ → Option β} (hi : s.worker i = p₀)
    (hp : p.isWaiting = false)
    (hle : q.items.length + p₀.awake ≤ s.tasks.items.length + p.awake) :
    NoLostWakeup { s.setWorker i p with tasks := q, queueMutex := mu, future := fut } := by
  refine (Function.forall_update_iff s.worker fun _ p' => p'.isWaiting = true →
    q.items.length ≤ (s.setWorker i p).awake).mpr ⟨fun h => ?_, fun j _ hj => ?_⟩
  · rw [hp] at h
    exact absurd h (by simp)
  · have hold := hN j hj
    have hawake := awake_setWorker p hi
    omega

variable [DecidableEq ι]

theorem awake_setClient {c : ι} {p₀ : Client τ} (p : Client τ) (hc : s.client c = p₀) :
    (s.setClient c p).awake + p₀.notifying = s.awake + p.notifying := by
  subst hc
  have hsum := sum_update_add s.client Client.notifying c p
  rw [awake, awake, setClient_worker, setClient_client]
  omega

/-- A client that moves. -/
theorem NoLostWakeup.moveClient (hN : NoLostWakeup s) {c : ι} {p p₀ : Client τ} {q : Fifo τ}
    {mu : Option (Party n ι)} {out : ι → List (τ × Option ℕ)} (hc : s.client c = p₀)
    (hle : q.items.length + p₀.notifying ≤ s.tasks.items.length + p.notifying) :
    NoLostWakeup { s.setClient c p with tasks := q, queueMutex := mu, outcomes := out } := by
  intro j hj
  change q.items.length ≤ (s.setClient c p).awake
  have hold := hN j hj
  have hawake := awake_setClient p hc
  omega

variable {eval : τ → β} {a : Act n ι τ} {as : List (Act n ι τ)}

/-- **Every step keeps this.** -/
theorem NoLostWakeup.step (h : StepCase eval s a s') (hN : NoLostWakeup s) : NoLostWakeup s' := by
  cases h with
  | @lockWorker i hmu hi => exact hN.moveWorker (p := .test) hi rfl le_rfl
  | @unlockWorker i k f hi => exact hN.moveWorker (p := .run k f) hi rfl le_rfl
  | @pass i hi => exact hN.moveWorker (p := .check) hi rfl le_rfl
  | @wake i hi => exact hN.moveWorker (p := .lock) hi rfl (Nat.le_succ _)
  | @stay i hi => exact hN.moveWorker (p := .take) hi rfl le_rfl
  | @ret i hi => exact hN.moveWorker (p := .exited) hi rfl le_rfl
  | @run i k f hi => exact hN.moveWorker (p := .lock) hi rfl (Nat.le_succ _)
  | @wait i hi hstop hempty | @leave i hi hstop hempty =>
    intro j _
    change s.tasks.items.length ≤ _
    rw [hempty]
    exact Nat.zero_le _
  | @take i f q hi hpop =>
    obtain ⟨hitems, -, -⟩ := Fifo.pop?_eq_some hpop
    refine hN.moveWorker (p := .unlock _ f) hi rfl ?_
    rw [hitems]
    exact le_rfl
  | @lockClient c f hmu hc => exact hN.moveClient (p := .check f) hc le_rfl
  | @unlockClient c k f hc => exact hN.moveClient (p := .notify k f) hc le_rfl
  | @call c f hc => exact hN.moveClient (p := .lock f) hc le_rfl
  | @refuse c f hc => exact hN.moveClient (p := .unwind f) hc le_rfl
  | @accept c f hc => exact hN.moveClient (p := .emplace f) hc le_rfl
  | @unwind c f hc => exact hN.moveClient (p := .idle) hc le_rfl
  | @emplace c f hc =>
    refine hN.moveClient (p := .unlock _ f) hc ?_
    rw [Fifo.push_items, List.length_append]
    exact le_rfl
  | @notifyOne c i k f hc hi =>
    -- the worker that is woken takes the place of the client
    intro j _
    have hold := hN i (by rw [hi]; rfl)
    have hworker := awake_setWorker .lock hi
    have hclient := awake_setClient (s := s.setWorker i .lock) .idle hc
    change _ + 0 = _ + 1 at hworker
    change _ + 1 = _ + 0 at hclient
    change s.tasks.items.length ≤ ((s.setWorker i .lock).setClient c .idle).awake
    omega
  | notifyNone hc hnone =>
    intro j hj
    exact absurd (hj.symm.trans (hnone j)) (by simp)
  | notifyAll =>
    intro j hj
    change (s.worker j).notified.isWaiting = true at hj
    cases hw : s.worker j <;> rw [hw] at hj <;> exact absurd hj (by simp [Worker.notified,
      Worker.isWaiting])
  | _ => exact hN

theorem NoLostWakeup.run (h : Run (Fires (ThreadPool.step eval)) (init : ThreadPool n ι τ β) as s) :
    NoLostWakeup s :=
  h.invariant (fun _ _ _ hN hst => hN.step (stepCase_of_step hst))
    fun _ h => absurd h (by simp [init, Worker.isWaiting])

omit [Fintype ι] [DecidableEq ι] in
/-- A worker waits in a stopped pool only until `notify_all`. -/
theorem Inv.owner_of_waiting (hI : Inv s) {i : Fin n} (hi : s.worker i = .waiting)
    (hstop : s.stop = true) : s.owner = .unlock ∨ s.owner = .notifyAll := by
  have hk := hI.owner
  cases ho : s.owner with
  | unlock => exact Or.inl rfl
  | notifyAll => exact Or.inr rfl
  | alive | lock | setStop =>
    rw [ho] at hk
    exact absurd (hstop.symm.trans hk) (by simp)
  | join j =>
    rw [ho] at hk
    have hwait := (hk.2 i).1
    rw [hi] at hwait
    exact absurd hwait (by simp [Worker.isWaiting])
  | destroyed =>
    rw [ho] at hk
    have hexit := hk.2 i
    rw [hi] at hexit
    exact absurd hexit (by simp [Worker.isExited])

/-- **No wakeup is lost**: while a worker waits, there is for every task in the queue a worker that
is going to look at the queue, or a client that is going to notify; and if the pool is stopped, the
owner is going to notify all. -/
theorem no_wakeup_lost (h : Run (Fires (ThreadPool.step eval)) (init : ThreadPool n ι τ β) as s)
    {i : Fin n} (hi : s.worker i = .waiting) :
    s.tasks.items.length ≤ s.awake ∧
      (s.stop = true → s.owner = .unlock ∨ s.owner = .notifyAll) :=
  ⟨NoLostWakeup.run h i (by rw [hi]; rfl), (Inv.run h).owner_of_waiting hi⟩

/-- Both workers wait, two tasks are added before the first notification, and the destructor sets
`stop`. -/
theorem no_wakeup_lost_two :
    ∃ as s, Run (Fires (ThreadPool.step (· + 1))) (init : ThreadPool 2 Bool ℕ ℕ) as s ∧
      s.tasks.items.length = 2 ∧ 2 ≤ s.awake ∧ s.stop = true ∧
      (s.owner = .unlock ∨ s.owner = .notifyAll) := by
  obtain ⟨s, hrun, hlen, hi, hstop⟩ := exists_run_of_exec (ThreadPool.step (· + 1))
    (init : ThreadPool 2 Bool ℕ ℕ)
    [.lock (.worker 0), .test 0, .lock (.worker 1), .test 1, .call true 7, .call false 8,
      .lock (.client true), .checkStop true, .emplace true, .unlock (.client true), .destroy,
      .lock (.client false), .checkStop false, .emplace false, .unlock (.client false),
      .lock .owner, .setStop]
    (fun s => s.tasks.items.length = 2 ∧ s.worker 0 = .waiting ∧ s.stop = true)
    ⟨_, rfl, rfl, rfl, rfl⟩
  obtain ⟨hle, howner⟩ := no_wakeup_lost hrun hi
  rw [hlen] at hle
  exact ⟨_, s, hrun, hlen, hle, hstop, howner hstop⟩

end ThreadPool

/-! ## 2. A pool at rest -/

/-- A step that the pool does not make by itself: a call begins, a worker wakes spuriously, or the
destructor begins. -/
def Act.external : Act n ι τ → Bool
  | .call _ _ | .wake _ | .destroy => true
  | _ => false

namespace ThreadPool

variable [DecidableEq ι] {eval : τ → β} {s s' : ThreadPool n ι τ β} {a : Act n ι τ}
  {as : List (Act n ι τ)}

/-- No party can move by itself. -/
def AtRest (eval : τ → β) (s : ThreadPool n ι τ β) : Prop :=
  ∀ a : Act n ι τ, a.external = false → s.step eval a = none

/-- A party inside the mutex can always move. -/
theorem AtRest.outside (hQ : AtRest eval s) (hI : Inv s) (p : Party n ι) : s.inside p = false := by
  by_contra hne
  have hp := eq_true_of_ne_false hne
  cases p with
  | worker i =>
    change (s.worker i).inside = true at hp
    cases hi : s.worker i with
    | test =>
      have hnone := hQ (.test i) rfl
      simp only [step, hi] at hnone
      split at hnone <;> exact absurd hnone (by simp)
    | check =>
      have hnone := hQ (.check i) rfl
      simp only [step, hi] at hnone
      split at hnone <;> exact absurd hnone (by simp)
    | take =>
      have hnone := hQ (.take i) rfl
      simp only [step, hi, Option.map_eq_none_iff, Fifo.pop?_eq_none_iff] at hnone
      have hk := hI.worker i
      rw [hi] at hk
      exact hk hnone
    | unlock k f => exact absurd (hQ (.unlock (.worker i)) rfl) (by simp [step, hi])
    | ret => exact absurd (hQ (.ret i) rfl) (by simp [step, hi])
    | lock | waiting | run | exited =>
      rw [hi] at hp
      exact absurd hp (by simp [Worker.inside])
  | client c =>
    change (s.client c).inside = true at hp
    cases hc : s.client c with
    | check f => exact absurd (hQ (.checkStop c) rfl) (by simp [step, hc])
    | emplace f => exact absurd (hQ (.emplace c) rfl) (by simp [step, hc])
    | unlock k f => exact absurd (hQ (.unlock (.client c)) rfl) (by simp [step, hc])
    | unwind f => exact absurd (hQ (.unwind c) rfl) (by simp [step, hc])
    | idle | lock | notify =>
      rw [hc] at hp
      exact absurd hp (by simp [Client.inside])
  | owner =>
    change s.owner.inside = true at hp
    cases ho : s.owner with
    | setStop => exact absurd (hQ .setStop rfl) (by simp [step, ho])
    | unlock => exact absurd (hQ (.unlock .owner) rfl) (by simp [step, ho])
    | alive | lock | notifyAll | join | destroyed =>
      rw [ho] at hp
      exact absurd hp (by simp [Owner.inside])

theorem AtRest.queueMutex (hQ : AtRest eval s) (hI : Inv s) : s.queueMutex = none := by
  cases hmu : s.queueMutex with
  | none => rfl
  | some p => exact absurd ((hI.owned p).mpr hmu) (by simp [hQ.outside hI p])

/-- At rest every worker waits or has returned. -/
theorem AtRest.worker (hQ : AtRest eval s) (hI : Inv s) (i : Fin n) :
    (s.worker i).isWaiting = true ∨ (s.worker i).isExited = true := by
  have hout : (s.worker i).inside = false := hQ.outside hI (.worker i)
  cases hi : s.worker i with
  | waiting => exact Or.inl rfl
  | exited => exact Or.inr rfl
  | lock =>
    exact absurd (hQ (.lock (.worker i)) rfl) (by simp [step, hi, hQ.queueMutex hI])
  | run k f => exact absurd (hQ (.run i k) rfl) (by simp [step, hi])
  | test | check | take | unlock | ret =>
    rw [hi] at hout
    exact absurd hout (by simp [Worker.inside])

/-- At rest no call is going on. -/
theorem AtRest.client (hQ : AtRest eval s) (hI : Inv s) (c : ι) : s.client c = .idle := by
  have hout : (s.client c).inside = false := hQ.outside hI (.client c)
  cases hc : s.client c with
  | idle => rfl
  | lock f =>
    exact absurd (hQ (.lock (.client c)) rfl) (by simp [step, hc, hQ.queueMutex hI])
  | notify k f =>
    obtain ⟨w, t, hst⟩ := exists_notifyOne eval hc
    exact absurd (hQ (.notifyOne c w) rfl) (by simp [hst])
  | check | emplace | unlock | unwind =>
    rw [hc] at hout
    exact absurd hout (by simp [Client.inside])

/-- At rest the destructor has not begun or has returned. -/
theorem AtRest.owner (hQ : AtRest eval s) (hI : Inv s) :
    s.owner = .alive ∨ s.owner = .destroyed := by
  have hout : s.owner.inside = false := hQ.outside hI .owner
  cases ho : s.owner with
  | alive => exact Or.inl rfl
  | destroyed => exact Or.inr rfl
  | lock => exact absurd (hQ (.lock .owner) rfl) (by simp [step, ho, hQ.queueMutex hI])
  | notifyAll => exact absurd (hQ .notifyAll rfl) (by simp [step, ho])
  | join j =>
    have hk := hI.owner
    rw [ho] at hk
    by_cases hj : j < n
    · -- no worker waits any more, so worker `j` has returned
      have hexit := (hQ.worker hI ⟨j, hj⟩).resolve_left (by simp [(hk.2 ⟨j, hj⟩).1])
      exact absurd (hQ .join rfl) (by simp [step, ho, hj, hexit])
    · exact absurd (hQ .join rfl) (by simp [step, ho, hj])
  | setStop | unlock =>
    rw [ho] at hout
    exact absurd hout (by simp [Owner.inside])

/-- **At rest the queue of a pool with a worker is empty.** -/
theorem AtRest.empty [Fintype ι] (hQ : AtRest eval s) (hI : Inv s) (hN : NoLostWakeup s)
    (hn : 0 < n) : s.tasks.items = [] := by
  rcases hQ.worker hI ⟨0, hn⟩ with hwait | hexit
  · have hle := hN ⟨0, hn⟩ hwait
    have hworkers : ∑ i, (s.worker i).awake = 0 := by
      refine Finset.sum_eq_zero fun i _ => ?_
      rcases hQ.worker hI i with h | h
      all_goals cases hi : s.worker i <;> simp_all [Worker.isWaiting, Worker.isExited, Worker.awake]
    have hclients : ∑ c, (s.client c).notifying = 0 :=
      Finset.sum_eq_zero fun c _ => by rw [hQ.client hI c]; rfl
    rw [awake, hworkers, hclients] at hle
    exact List.eq_nil_of_length_eq_zero (Nat.le_zero.mp hle)
  · exact ((hI.worker ⟨0, hn⟩).exited hexit).2

theorem AtRest.hand (hQ : AtRest eval s) (hI : Inv s) (i : Fin n) : (s.worker i).hand = none := by
  rcases hQ.worker hI i with h | h
  all_goals cases hi : s.worker i <;> simp_all [Worker.isWaiting, Worker.isExited, Worker.hand]

end ThreadPool

end CxxConcurrency.Pools.ThreadPoolGithub
