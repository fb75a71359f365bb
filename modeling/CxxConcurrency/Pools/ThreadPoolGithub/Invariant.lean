/-
# What is known where in `ThreadPoolGithub::ThreadPool`

`ThreadPool.Inv` says of every party what it knows at the place where it is.  The queue and `stop`
change under the mutex only, so what a party has learnt inside the mutex is true until it unlocks
it.  What a worker that has returned knows stays true because a stopped pool takes no task, and
what the owner knows of the workers stays true because no worker waits once `stop` is set.
-/
import CxxConcurrency.Pools.ThreadPoolGithub.Pool

namespace CxxConcurrency.Pools.ThreadPoolGithub

open CxxConcurrency.Lib

variable {n : ℕ} {ι τ β : Type*}

/-! ## 1. Who is inside -/

/-- Whether a party holds the mutex. -/
def ThreadPool.inside (s : ThreadPool n ι τ β) : Party n ι → Bool
  | .worker i => (s.worker i).inside
  | .client c => (s.client c).inside
  | .owner => s.owner.inside

/-- The mutex is owned by the party that is inside. -/
def ThreadPool.Owned (s : ThreadPool n ι τ β) : Prop := Owns s.inside s.queueMutex

namespace ThreadPool.Owned

variable {s : ThreadPool n ι τ β}

section Worker

variable {i : Fin n} {p : Worker τ}

theorem inside_worker_ne {q : Party n ι} (hq : q ≠ .worker i) :
    (s.setWorker i p).inside q = s.inside q := by
  cases q with
  | worker j =>
    have hji : j ≠ i := fun h => hq (h ▸ rfl)
    simp [inside, setWorker, Function.update_of_ne hji]
  | client c => rfl
  | owner => rfl

theorem inside_worker_self : (s.setWorker i p).inside (.worker i) = p.inside := by
  simp [inside, setWorker]

theorem lockWorker (hO : Owned s) (hmu : s.queueMutex = none) (hp : p.inside = true) :
    Owned { s.setWorker i p with queueMutex := some (.worker i) } := by
  rw [Owned, hmu] at hO
  exact hO.acquire (inside_worker_self.trans hp) fun _ => inside_worker_ne

theorem unlockWorker (hO : Owned s) (hi : (s.worker i).inside = true) (hp : p.inside = false) :
    Owned { s.setWorker i p with queueMutex := none } :=
  Owns.release (p := .worker i) hO hi (inside_worker_self.trans hp) fun _ => inside_worker_ne

theorem moveWorker (hO : Owned s) (hp : p.inside = (s.worker i).inside) :
    Owned (s.setWorker i p) := by
  refine hO.congr fun q => ?_
  by_cases hq : q = .worker i
  · subst hq
    exact inside_worker_self.trans hp
  · exact inside_worker_ne hq

end Worker

section Client

variable [DecidableEq ι] {c : ι} {p : Client τ}

theorem inside_client_ne {q : Party n ι} (hq : q ≠ .client c) :
    (s.setClient c p).inside q = s.inside q := by
  cases q with
  | worker j => rfl
  | client d =>
    have hdc : d ≠ c := fun h => hq (h ▸ rfl)
    simp [inside, setClient, Function.update_of_ne hdc]
  | owner => rfl

theorem inside_client_self : (s.setClient c p).inside (.client c) = p.inside := by
  simp [inside, setClient]

theorem lockClient (hO : Owned s) (hmu : s.queueMutex = none) (hp : p.inside = true) :
    Owned { s.setClient c p with queueMutex := some (.client c) } := by
  rw [Owned, hmu] at hO
  exact hO.acquire (inside_client_self.trans hp) fun _ => inside_client_ne (s := s)

theorem unlockClient (hO : Owned s) (hc : (s.client c).inside = true) (hp : p.inside = false) :
    Owned { s.setClient c p with queueMutex := none } :=
  Owns.release (p := .client c) hO hc (inside_client_self.trans hp)
    fun _ => inside_client_ne (s := s)

theorem moveClient (hO : Owned s) (hp : p.inside = (s.client c).inside) :
    Owned (s.setClient c p) := by
  refine hO.congr fun q => ?_
  by_cases hq : q = .client c
  · subst hq
    exact inside_client_self.trans hp
  · exact inside_client_ne hq

end Client

section Owner

variable {p : Owner}

theorem inside_owner_ne {q : Party n ι} (hq : q ≠ .owner) :
    ThreadPool.inside { s with owner := p } q = s.inside q := by
  cases q with
  | owner => exact absurd rfl hq
  | _ => rfl

theorem lockOwner (hO : Owned s) (hmu : s.queueMutex = none) (hp : p.inside = true) :
    Owned { s with owner := p, queueMutex := some .owner } := by
  rw [Owned, hmu] at hO
  exact Owns.acquire (p := .owner) hO hp fun _ => inside_owner_ne

theorem unlockOwner (hO : Owned s) (ho : s.owner.inside = true) (hp : p.inside = false) :
    Owned { s with owner := p, queueMutex := none } :=
  Owns.release (p := .owner) hO ho hp fun _ => inside_owner_ne

theorem moveOwner (hO : Owned s) (hp : p.inside = s.owner.inside) :
    Owned { s with owner := p } := by
  refine hO.congr fun q => ?_
  cases q with
  | owner => exact hp
  | _ => rfl

end Owner

variable [DecidableEq ι] {eval : τ → β} {s' : ThreadPool n ι τ β} {a : Act n ι τ}

/-- Every step keeps this. -/
theorem step (h : StepCase eval s a s') (hO : Owned s) : Owned s' := by
  cases h with
  | lockWorker hmu hi => exact hO.lockWorker hmu rfl
  | lockClient hmu hc => exact hO.lockClient hmu rfl
  | lockOwner hmu ho => exact hO.lockOwner hmu rfl
  | unlockWorker hi | wait hi | ret hi => exact hO.unlockWorker (by rw [hi]; rfl) rfl
  | unlockClient hc | unwind hc => exact hO.unlockClient (by rw [hc]; rfl) rfl
  | unlockOwner ho => exact hO.unlockOwner (by rw [ho]; rfl) rfl
  | pass hi | wake hi | leave hi | stay hi | take hi | run hi =>
    exact hO.moveWorker (by rw [hi]; rfl)
  | call hc | refuse hc | accept hc | emplace hc | notifyNone hc =>
    exact hO.moveClient (by rw [hc]; rfl)
  | notifyOne hc hi =>
    exact (hO.moveWorker (by rw [hi]; rfl)).moveClient
      (by change _ = (s.client _).inside; rw [hc]; rfl)
  | destroy ho | setStop ho | join ho | joined ho => exact hO.moveOwner (by rw [ho]; rfl)
  | notifyAll ho =>
    refine hO.congr fun q => ?_
    cases q with
    | worker i =>
      change (s.worker i).notified.inside = (s.worker i).inside
      cases s.worker i <;> rfl
    | client c => rfl
    | owner =>
      change _ = s.owner.inside
      rw [ho]
      rfl

end ThreadPool.Owned

/-! ## 2. What the parties know -/

/-- What a worker knows. -/
def Worker.Knows (tasks : Fifo τ) (stop : Bool) : Worker τ → Prop
  | .check => stop = true ∨ tasks.items ≠ []
  | .take => tasks.items ≠ []
  | .ret | .exited => stop = true ∧ tasks.items = []
  | _ => True

/-- What a client knows. -/
def Client.Knows (tasks : Fifo τ) (stop : Bool) : Client τ → Prop
  | .emplace _ => stop = false
  | .unlock k f | .notify k f => tasks.added[k]? = some f
  | _ => True

/-- What the owner knows. -/
def Owner.Knows (stop : Bool) (worker : Fin n → Worker τ) : Owner → Prop
  | .alive | .lock | .setStop => stop = false
  | .unlock | .notifyAll => stop = true
  | .join j => stop = true ∧ ∀ i, (worker i).isWaiting = false ∧
      (i.val < j → (worker i).isExited = true)
  | .destroyed => stop = true ∧ ∀ i, (worker i).isExited = true

/-- The invariant of a pool. -/
structure ThreadPool.Inv (s : ThreadPool n ι τ β) : Prop where
  owned : s.Owned
  worker : ∀ i, (s.worker i).Knows s.tasks s.stop
  client : ∀ c, (s.client c).Knows s.tasks s.stop
  owner : s.owner.Knows s.stop s.worker
  /-- The future that a call has returned is that of the task with the callable of the call. -/
  outcomes : ∀ c f k, (f, some k) ∈ s.outcomes c → s.tasks.added[k]? = some f

/-- A worker outside the mutex knows nothing, unless it has returned. -/
theorem Worker.knows_of_outside {p : Worker τ} {tasks : Fifo τ} {stop : Bool}
    (hp : p.inside = false) (hexit : p.isExited = true → stop = true ∧ tasks.items = []) :
    p.Knows tasks stop := by
  cases p with
  | exited => exact hexit rfl
  | lock | waiting | run => trivial
  | test | check | take | unlock | ret => exact absurd hp (by simp [inside])

/-- A client outside the mutex knows only which task it has added. -/
theorem Client.Knows.of_outside {p : Client τ} {tasks tasks' : Fifo τ} {stop stop' : Bool}
    (hk : p.Knows tasks stop) (hp : p.inside = false)
    (hadded : ∀ (k : ℕ) f, tasks.added[k]? = some f → tasks'.added[k]? = some f) :
    p.Knows tasks' stop' := by
  cases p with
  | notify k f => exact hadded k f hk
  | idle | lock => trivial
  | check | emplace | unlock | unwind => exact absurd hp (by simp [inside])

theorem Worker.Knows.exited {p : Worker τ} {tasks : Fifo τ} {stop : Bool}
    (hk : p.Knows tasks stop) (hp : p.isExited = true) : stop = true ∧ tasks.items = [] := by
  cases p with
  | exited => exact hk
  | _ => exact absurd hp (by simp [isExited])

/-- What the owner knows stays true when a worker moves that has not returned, unless it waits. -/
theorem Owner.Knows.move {o : Owner} {stop : Bool} {worker : Fin n → Worker τ} {i : Fin n}
    {p : Worker τ} (hk : o.Knows stop worker) (hi : (worker i).isExited = false)
    (hp : stop = true → p.isWaiting = false) : o.Knows stop (Function.update worker i p) := by
  cases o with
  | join j =>
    refine ⟨hk.1, (Function.forall_update_iff worker fun i' p' =>
      p'.isWaiting = false ∧ (i'.val < j → p'.isExited = true)).mpr ⟨?_, fun i' _ => hk.2 i'⟩⟩
    refine ⟨hp hk.1, fun hij => ?_⟩
    have hexit := (hk.2 i).2 hij
    rw [hi] at hexit
    exact absurd hexit (by simp)
  | destroyed =>
    have hexit := hk.2 i
    rw [hi] at hexit
    exact absurd hexit (by simp)
  | alive | lock | setStop | unlock | notifyAll => exact hk

/-! ## 3. Every step keeps the invariant -/

namespace ThreadPool

variable {s s' : ThreadPool n ι τ β} {mu : Option (Party n ι)}

/-- A worker that moves while the queue and `stop` stay as they are. -/
theorem Inv.moveWorker (hI : Inv s) {i : Fin n} {p : Worker τ} {fut : ℕ → Option β}
    (hO : Owned { s.setWorker i p with queueMutex := mu })
    (hi : (s.worker i).isExited = false) (hp : p.Knows s.tasks s.stop)
    (hwait : s.stop = true → p.isWaiting = false) :
    Inv { s.setWorker i p with queueMutex := mu, future := fut } where
  owned := hO
  worker := (Function.forall_update_iff s.worker fun _ p' => p'.Knows s.tasks s.stop).mpr
    ⟨hp, fun j _ => hI.worker j⟩
  client := hI.client
  owner := hI.owner.move hi hwait
  outcomes := hI.outcomes

/-- The owner moves, while `stop` stays as it is. -/
theorem Inv.moveOwner (hI : Inv s) {p : Owner} (hO : Owned { s with owner := p, queueMutex := mu })
    (hp : p.Knows s.stop s.worker) : Inv { s with owner := p, queueMutex := mu } where
  owned := hO
  worker := hI.worker
  client := hI.client
  owner := hp
  outcomes := hI.outcomes

/-- A party that is outside while worker `i` is inside. -/
theorem Inv.worker_outside (hI : Inv s) {p : Party n ι} (hp : s.inside p = true) {j : Fin n}
    (hj : .worker j ≠ p) : (s.worker j).inside = false := by
  have howned : Owns s.inside s.queueMutex := hI.owned
  exact howned.outside hp hj

theorem Inv.client_outside (hI : Inv s) {p : Party n ι} (hp : s.inside p = true) {c : ι}
    (hc : .client c ≠ p) : (s.client c).inside = false := by
  have howned : Owns s.inside s.queueMutex := hI.owned
  exact howned.outside hp hc

variable [DecidableEq ι]

/-- A client that moves while the queue and `stop` stay as they are. -/
theorem Inv.moveClient (hI : Inv s) {c : ι} {p : Client τ}
    (hO : Owned { s.setClient c p with queueMutex := mu }) (hp : p.Knows s.tasks s.stop) :
    Inv { s.setClient c p with queueMutex := mu } where
  owned := hO
  worker := hI.worker
  client := (Function.forall_update_iff s.client fun _ p' => p'.Knows s.tasks s.stop).mpr
    ⟨hp, fun d _ => hI.client d⟩
  owner := hI.owner
  outcomes := hI.outcomes

/-- A call that ends. -/
theorem Inv.endCall (hI : Inv s) {c : ι} {f : τ} {res : Option ℕ}
    (hO : Owned { s.setClient c .idle with queueMutex := mu })
    (hres : ∀ k, res = some k → s.tasks.added[k]? = some f) :
    Inv { s.endCall c f res with queueMutex := mu } where
  owned := hO
  worker := hI.worker
  client := (hI.moveClient hO trivial).client
  owner := hI.owner
  outcomes := by
    refine (Function.forall_update_iff s.outcomes fun _ l =>
      ∀ g k, (g, some k) ∈ l → s.tasks.added[k]? = some g).mpr ⟨?_, fun d _ => hI.outcomes d⟩
    intro g k hmem
    rcases List.mem_append.mp hmem with hold | hnew
    · exact hI.outcomes c g k hold
    · obtain ⟨rfl, hk⟩ := Prod.mk.inj (List.mem_singleton.mp hnew)
      exact hres k hk.symm

variable {eval : τ → β} {a : Act n ι τ} {as : List (Act n ι τ)}

omit [DecidableEq ι] in
/-- `tasks.front()` and `tasks.pop()` by worker `i`. -/
theorem Inv.take (hI : Inv s) {i : Fin n} {f : τ} {q : Fifo τ} (hi : s.worker i = .take)
    (hpop : s.tasks.pop? = some (f, q))
    (hO : Owned (s.setWorker i (.unlock s.tasks.removed.length f))) :
    Inv { s.setWorker i (.unlock s.tasks.removed.length f) with tasks := q } := by
  obtain ⟨hitems, hadded, -⟩ := Fifo.pop?_eq_some hpop
  have hin : s.inside (.worker i) = true := by
    change (s.worker i).inside = true
    rw [hi]
    rfl
  refine ⟨hO, ?_, ?_, hI.owner.move (by rw [hi]; rfl) fun _ => rfl, ?_⟩
  · refine (Function.forall_update_iff s.worker fun _ p' => p'.Knows q s.stop).mpr
      ⟨trivial, fun j hj => ?_⟩
    refine Worker.knows_of_outside (hI.worker_outside hin fun h => hj (Party.worker.inj h)) ?_
    intro hexit
    -- a worker that has returned has left an empty queue
    rw [((hI.worker j).exited hexit).2] at hitems
    exact absurd hitems (by simp)
  · intro c
    refine (hI.client c).of_outside (hI.client_outside hin (by simp)) fun k g hk => ?_
    rw [hadded]
    exact hk
  · intro c g k hmem
    change q.added[k]? = some g
    rw [hadded]
    exact hI.outcomes c g k hmem

/-- `tasks.emplace` by client `c`. -/
theorem Inv.emplace (hI : Inv s) {c : ι} {f : τ} (hc : s.client c = .emplace f)
    (hO : Owned (s.setClient c (.unlock s.tasks.added.length f))) :
    Inv { s.setClient c (.unlock s.tasks.added.length f) with tasks := s.tasks.push f } := by
  have hin : s.inside (.client c) = true := by
    change (s.client c).inside = true
    rw [hc]
    rfl
  have hstop : s.stop = false := by
    have hk := hI.client c
    rwa [hc] at hk
  have hold : ∀ (k : ℕ) g, s.tasks.added[k]? = some g → (s.tasks.push f).added[k]? = some g :=
    fun _ _ hk => Fifo.added_push_of_some hk
  refine ⟨hO, ?_, ?_, hI.owner, fun d g k hmem => hold k g (hI.outcomes d g k hmem)⟩
  · intro i
    refine Worker.knows_of_outside (hI.worker_outside hin (by simp)) ?_
    intro hexit
    rw [((hI.worker i).exited hexit).1] at hstop
    exact absurd hstop (by simp)
  · refine (Function.forall_update_iff s.client fun _ p' => p'.Knows (s.tasks.push f) s.stop).mpr
      ⟨?_, fun d hd => ?_⟩
    · change (s.tasks.push f).added[s.tasks.added.length]? = some f
      rw [Fifo.push_added, List.getElem?_concat_length]
    · exact (hI.client d).of_outside (hI.client_outside hin fun h => hd (Party.client.inj h)) hold

omit [DecidableEq ι] in
/-- `stop = true` by the owner. -/
theorem Inv.setStop (hI : Inv s) (ho : s.owner = .setStop)
    (hO : Owned { s with owner := .unlock }) :
    Inv { s with owner := .unlock, stop := true } := by
  have hin : s.inside .owner = true := by
    change s.owner.inside = true
    rw [ho]
    rfl
  refine ⟨hO, fun i => ?_, fun c => ?_, rfl, hI.outcomes⟩
  · refine Worker.knows_of_outside (hI.worker_outside hin (by simp)) fun hexit => ?_
    exact ⟨rfl, ((hI.worker i).exited hexit).2⟩
  · exact (hI.client c).of_outside (hI.client_outside hin (by simp)) fun _ _ => id

/-- **Every step keeps the invariant.** -/
theorem Inv.step (h : StepCase eval s a s') (hI : Inv s) : Inv s' := by
  have hO := hI.owned.step h
  cases h with
  | @lockWorker i hmu hi => exact hI.moveWorker hO (by rw [hi]; rfl) trivial fun _ => rfl
  | @unlockWorker i k f hi => exact hI.moveWorker hO (by rw [hi]; rfl) trivial fun _ => rfl
  | @wait i hi hstop hempty =>
    refine hI.moveWorker hO (by rw [hi]; rfl) trivial fun h => ?_
    rw [hstop] at h
    exact absurd h (by simp)
  | @pass i hi hpass => exact hI.moveWorker hO (by rw [hi]; rfl) hpass fun _ => rfl
  | @wake i hi => exact hI.moveWorker hO (by rw [hi]; rfl) trivial fun _ => rfl
  | @leave i hi hstop hempty =>
    exact hI.moveWorker hO (by rw [hi]; rfl) ⟨hstop, hempty⟩ fun _ => rfl
  | @stay i hi hstay =>
    refine hI.moveWorker hO (by rw [hi]; rfl) ?_ fun _ => rfl
    -- the predicate was true, and the queue is empty only where `stop` is set
    have hk := hI.worker i
    rw [hi] at hk
    rcases hstay with hstop | hne
    · exact hk.resolve_left (by simp [hstop])
    · exact hne
  | @take i f q hi hpop => exact hI.take hi hpop hO
  | @run i k f hi => exact hI.moveWorker hO (by rw [hi]; rfl) trivial fun _ => rfl
  | @ret i hi =>
    have hk := hI.worker i
    rw [hi] at hk
    exact hI.moveWorker hO (by rw [hi]; rfl) hk fun _ => rfl
  | lockClient | call | refuse => exact hI.moveClient hO trivial
  | @unlockClient c k f hc =>
    have hk := hI.client c
    rw [hc] at hk
    exact hI.moveClient hO hk
  | accept hc hstop => exact hI.moveClient hO hstop
  | @emplace c f hc => exact hI.emplace hc hO
  | @notifyOne c i k f hc hi =>
    have hk := hI.client c
    rw [hc] at hk
    have hI' : Inv (s.setWorker i .lock) :=
      hI.moveWorker (hI.owned.moveWorker (by rw [hi]; rfl)) (by rw [hi]; rfl) trivial fun _ => rfl
    refine hI'.endCall hO fun j hj => ?_
    obtain rfl := Option.some.inj hj
    exact hk
  | @notifyNone c k f hc hnone =>
    have hk := hI.client c
    rw [hc] at hk
    refine hI.endCall hO fun j hj => ?_
    obtain rfl := Option.some.inj hj
    exact hk
  | unwind hc => exact hI.endCall hO fun _ hj => absurd hj (by simp)
  | lockOwner hmu ho | destroy ho =>
    have hk := hI.owner
    rw [ho] at hk
    exact hI.moveOwner hO hk
  | unlockOwner ho =>
    have hk := hI.owner
    rw [ho] at hk
    exact hI.moveOwner hO hk
  | setStop ho => exact hI.setStop ho hO
  | notifyAll ho =>
    have hk := hI.owner
    rw [ho] at hk
    refine ⟨hO, fun i => ?_, hI.client, ⟨hk, fun i => ⟨?_, fun hlt => absurd hlt (by simp)⟩⟩,
      hI.outcomes⟩
    · have hki := hI.worker i
      change (s.worker i).notified.Knows s.tasks s.stop
      cases hi : s.worker i <;> rw [hi] at hki <;> exact hki
    · cases hi : s.worker i <;> simp [hi, Worker.notified, Worker.isWaiting]
  | @join j ho hj hexit =>
    have hk := hI.owner
    rw [ho] at hk
    refine hI.moveOwner hO ⟨hk.1, fun i => ⟨(hk.2 i).1, fun hlt => ?_⟩⟩
    rcases Nat.lt_succ_iff_lt_or_eq.mp hlt with hlt | heq
    · exact (hk.2 i).2 hlt
    · obtain rfl : i = ⟨j, hj⟩ := Fin.ext heq
      exact hexit
  | @joined j ho hj =>
    have hk := hI.owner
    rw [ho] at hk
    exact hI.moveOwner hO
      ⟨hk.1, fun i => (hk.2 i).2 (lt_of_lt_of_le i.isLt (not_lt.mp hj))⟩

omit [DecidableEq ι] in
theorem Inv.init : Inv (ThreadPool.init : ThreadPool n ι τ β) where
  owned p := by cases p <;> simp [inside, ThreadPool.init, Worker.inside, Client.inside,
    Owner.inside]
  worker _ := trivial
  client _ := trivial
  owner := rfl
  outcomes c f k hmem := absurd hmem (by simp [ThreadPool.init])

theorem Inv.run (h : Run (Fires (ThreadPool.step eval)) ThreadPool.init as s) : Inv s :=
  h.invariant (fun _ _ _ hI hst => hI.step (stepCase_of_step hst)) Inv.init

end ThreadPool

end CxxConcurrency.Pools.ThreadPoolGithub
