/-
# The calls of `ThreadPoolGithub::ThreadPool::enqueue`

A client sees of the pool what its calls of `enqueue` return: a future for each callable, in the
order of its calls (`ThreadPool.calls_eq`), and in each future that is ready what its own callable
gives, whenever and by whomever it is got (`ThreadPool.Gets`).  This is the program of
`async/future_perf.cpp` for the pool, which calls `enqueue` for every work and then `get` on every
future.

What becomes of a call is settled when it locks the mutex (`ThreadPool.CallFrom`): it throws just
where `stop` is set, and then changes neither the queue nor a future.  No call has thrown before
the pool is stopped (`ThreadPool.Refused`), and a stopped pool takes no task
(`ThreadPool.Stopped`).
-/
import CxxConcurrency.Pools.ThreadPoolGithub.Refine

namespace CxxConcurrency.Pools.ThreadPoolGithub

open CxxConcurrency.Lib

variable {n : ℕ} {ι τ β : Type*} [DecidableEq ι]

/-! ## 1. The calls of a client -/

/-- The callable with which client `c` calls `enqueue` in a step. -/
def Act.called? (c : ι) : Act n ι τ → Option τ
  | .call d f => if d = c then some f else none
  | _ => none

/-- The callable of the call of `enqueue` that is going on. -/
def Client.call? : Client τ → Option τ
  | .idle => none
  | .lock f | .check f | .emplace f | .unlock _ f | .notify _ f | .unwind f => some f

namespace ThreadPool

variable {eval : τ → β} {s s' : ThreadPool n ι τ β} {a : Act n ι τ} {as : List (Act n ι τ)}

/-- The callables of the calls of a client that have ended, and of the one that is going on. -/
def calls (s : ThreadPool n ι τ β) (c : ι) : List τ :=
  (s.outcomes c).map Prod.fst ++ (s.client c).call?.toList

theorem calls_setClient {c d : ι} {p p₀ : Client τ} (hd : s.client d = p₀)
    (hp : p.call? = p₀.call?) : (s.setClient d p).calls c = s.calls c := by
  by_cases hcd : c = d
  · subst hcd hd
    simp [calls, setClient, hp]
  · simp [calls, setClient, Function.update_of_ne hcd]

theorem calls_endCall {c d : ι} {f : τ} {res : Option ℕ} (hd : (s.client d).call? = some f) :
    (s.endCall d f res).calls c = s.calls c := by
  by_cases hcd : c = d
  · subst hcd
    rw [calls, calls, hd]
    simp [endCall, setClient, Client.call?]
  · simp [calls, endCall, setClient, Function.update_of_ne hcd]

theorem calls_call {c d : ι} {f : τ} (hd : s.client d = .idle) :
    (s.setClient d (.lock f)).calls c = s.calls c ++ (if d = c then [f] else []) := by
  by_cases hcd : c = d
  · subst hcd
    simp [calls, setClient, hd, Client.call?]
  · simp [calls, setClient, Function.update_of_ne hcd, Ne.symm hcd]

theorem calls_step (h : StepCase eval s a s') (c : ι) :
    s'.calls c = s.calls c ++ (a.called? c).toList := by
  cases h with
  | @call d f hd =>
    rw [calls_call hd]
    by_cases hdc : d = c <;> simp [Act.called?, hdc]
  | @lockClient d f hmu hd =>
    exact (calls_setClient (p := .check f) hd rfl).trans (List.append_nil _).symm
  | @unlockClient d k f hd =>
    exact (calls_setClient (p := .notify k f) hd rfl).trans (List.append_nil _).symm
  | @refuse d f hd =>
    exact (calls_setClient (p := .unwind f) hd rfl).trans (List.append_nil _).symm
  | @accept d f hd =>
    exact (calls_setClient (p := .emplace f) hd rfl).trans (List.append_nil _).symm
  | @emplace d f hd =>
    exact (calls_setClient (p := .unlock _ f) hd rfl).trans (List.append_nil _).symm
  | @notifyOne d i k f hd =>
    exact (calls_endCall (s := s.setWorker i .lock) (congrArg Client.call? hd)).trans
      (List.append_nil _).symm
  | @notifyNone d k f hd | @unwind d f hd =>
    exact (calls_endCall (congrArg Client.call? hd)).trans (List.append_nil _).symm
  | _ => exact (List.append_nil _).symm

/-- **The outcomes of a client are those of its calls**, in order, but for the one going on. -/
theorem calls_eq (h : Run (Fires (ThreadPool.step eval)) (init : ThreadPool n ι τ β) as s)
    (c : ι) : s.calls c = as.filterMap (Act.called? c) := by
  refine h.trace_invariant (I := fun as s => s.calls c = as.filterMap (Act.called? c)) rfl ?_
  intro as s a s' _ ih hst
  rw [calls_step (stepCase_of_step hst), ih, List.filterMap_append]
  cases ha : a.called? c <;> simp [ha]

/-! ## 2. A pool that is stopped -/

/-- A call throws only where `stop` is set. -/
structure Refused (s : ThreadPool n ι τ β) : Prop where
  unwind : ∀ c f, s.client c = .unwind f → s.stop = true
  thrown : ∀ c f, (f, none) ∈ s.outcomes c → s.stop = true

theorem Refused.move (hR : Refused s) (c : ι) (p : Client τ)
    (hp : ∀ f, p = .unwind f → s.stop = true) : Refused (s.setClient c p) where
  unwind := (Function.forall_update_iff s.client fun _ p' => ∀ f, p' = .unwind f →
    s.stop = true).mpr ⟨hp, fun d _ => hR.unwind d⟩
  thrown := hR.thrown

theorem Refused.endCall (hR : Refused s) (c : ι) (f : τ) (res : Option ℕ)
    (hres : res = none → s.stop = true) : Refused (s.endCall c f res) where
  unwind := (hR.move c .idle nofun).unwind
  thrown := by
    refine (Function.forall_update_iff s.outcomes fun _ l => ∀ g, (g, none) ∈ l →
      s.stop = true).mpr ⟨fun g hmem => ?_, fun d _ => hR.thrown d⟩
    rcases List.mem_append.mp hmem with hold | hnew
    · exact hR.thrown c g hold
    · exact hres (Prod.mk.inj (List.mem_singleton.mp hnew)).2.symm

/-- Every step keeps this. -/
theorem Refused.step (h : StepCase eval s a s') (hR : Refused s) : Refused s' := by
  cases h with
  | @lockClient c f => exact ⟨(hR.move c (.check f) nofun).unwind, hR.thrown⟩
  | @unlockClient c k f => exact ⟨(hR.move c (.notify k f) nofun).unwind, hR.thrown⟩
  | @call c f => exact hR.move c (.lock f) nofun
  | @accept c f => exact hR.move c (.emplace f) nofun
  | @emplace c f => exact ⟨(hR.move c (.unlock _ f) nofun).unwind, hR.thrown⟩
  | @refuse c f hc hstop => exact hR.move c (.unwind f) fun _ _ => hstop
  | @notifyOne c i k f | @notifyNone c k f =>
    have hend := hR.endCall c f (some k) nofun
    exact ⟨hend.unwind, hend.thrown⟩
  | @unwind c f hc =>
    have hend := hR.endCall c f none fun _ => hR.unwind c f hc
    exact ⟨hend.unwind, hend.thrown⟩
  | setStop => exact ⟨fun _ _ _ => rfl, fun _ _ _ => rfl⟩
  | _ => exact ⟨hR.unwind, hR.thrown⟩

theorem Refused.run (h : Run (Fires (ThreadPool.step eval)) (init : ThreadPool n ι τ β) as s) :
    Refused s :=
  h.invariant (fun _ _ _ hR hst => hR.step (stepCase_of_step hst))
    ⟨fun _ _ hc => absurd hc (by simp [init]), fun _ _ hmem => absurd hmem (by simp [init])⟩

end ThreadPool

/-- A client that has passed the test of `stop`, in a call that will not throw. -/
def Client.accepted : Client τ → Bool
  | .emplace _ | .unlock _ _ | .notify _ _ => true
  | .idle | .lock _ | .check _ | .unwind _ => false

namespace ThreadPool

variable {eval : τ → β} {s s' t : ThreadPool n ι τ β} {a : Act n ι τ} {as : List (Act n ι τ)}

/-- What may become of a pool that is stopped: no task is added, and where a client has not passed
the test of `stop` it does not pass it, so that all its calls throw. -/
structure Stopped (s s' : ThreadPool n ι τ β) : Prop where
  stop : s'.stop = true
  added : s'.tasks.added = s.tasks.added
  client : ∀ c, (s.client c).accepted = false → (s'.client c).accepted = false
  thrown : ∀ c, (s.client c).accepted = false →
    ∃ fs : List τ, s'.outcomes c = s.outcomes c ++ fs.map fun f => (f, none)

omit [DecidableEq ι] in
theorem Stopped.refl (hstop : s.stop = true) : Stopped s s :=
  ⟨hstop, rfl, fun _ h => h, fun _ _ => ⟨[], (List.append_nil _).symm⟩⟩

omit [DecidableEq ι] in
theorem Stopped.trans (h₁ : Stopped s s') (h₂ : Stopped s' t) : Stopped s t where
  stop := h₂.stop
  added := h₂.added.trans h₁.added
  client c hc := h₂.client c (h₁.client c hc)
  thrown c hc := by
    obtain ⟨fs, hfs⟩ := h₁.thrown c hc
    obtain ⟨gs, hgs⟩ := h₂.thrown c (h₁.client c hc)
    exact ⟨fs ++ gs, by rw [hgs, hfs, List.append_assoc, List.map_append]⟩

theorem Stopped.setClient (hstop : s.stop = true) (c : ι) (p : Client τ)
    (hp : (s.client c).accepted = false → p.accepted = false) : Stopped s (s.setClient c p) where
  stop := hstop
  added := rfl
  client := (Function.forall_update_iff s.client fun d p' => (s.client d).accepted = false →
    p'.accepted = false).mpr ⟨hp, fun _ _ h => h⟩
  thrown _ _ := ⟨[], (List.append_nil _).symm⟩

theorem Stopped.endCall (hstop : s.stop = true) (c : ι) (f : τ) (res : Option ℕ)
    (hres : (s.client c).accepted = false → res = none) : Stopped s (s.endCall c f res) where
  stop := hstop
  added := rfl
  client := (Stopped.setClient hstop c .idle fun _ => rfl).client
  thrown := by
    refine (Function.forall_update_iff s.outcomes fun d l => (s.client d).accepted = false →
      ∃ fs : List τ, l = s.outcomes d ++ fs.map fun f => (f, none)).mpr ⟨fun hc => ?_, fun d _ _ =>
        ⟨[], (List.append_nil _).symm⟩⟩
    rw [hres hc]
    exact ⟨[f], rfl⟩

/-- A step of a stopped pool. -/
theorem Stopped.step (h : StepCase eval s a s') (hI : Inv s) (hstop : s.stop = true) :
    Stopped s s' := by
  cases h with
  | @lockClient c f =>
    have hmove := Stopped.setClient hstop c (.check f) fun _ => rfl
    exact ⟨hmove.stop, hmove.added, hmove.client, hmove.thrown⟩
  | @unlockClient c k f hc =>
    have hmove := Stopped.setClient hstop c (.notify k f) fun h => by
      rw [hc] at h
      exact absurd h (by simp [Client.accepted])
    exact ⟨hmove.stop, hmove.added, hmove.client, hmove.thrown⟩
  | @call c f => exact Stopped.setClient hstop c (.lock f) fun _ => rfl
  | @refuse c f hc => exact Stopped.setClient hstop c (.unwind f) fun _ => rfl
  | @accept c f hc hopen =>
    rw [hstop] at hopen
    exact absurd hopen (by simp)
  | @emplace c f hc =>
    have hopen := hI.client c
    rw [hc] at hopen
    exact absurd (hstop.symm.trans hopen) (by simp)
  | @notifyOne c i k f hc | @notifyNone c k f hc =>
    have hend := Stopped.endCall hstop c f (some k) fun h => by
      rw [hc] at h
      exact absurd h (by simp [Client.accepted])
    exact ⟨hend.stop, hend.added, hend.client, hend.thrown⟩
  | @unwind c f =>
    have hend := Stopped.endCall hstop c f none fun _ => rfl
    exact ⟨hend.stop, hend.added, hend.client, hend.thrown⟩
  | @take i f q hi hpop =>
    obtain ⟨-, hadded, -⟩ := Fifo.pop?_eq_some hpop
    exact ⟨hstop, hadded, fun _ h => h, fun _ _ => ⟨[], (List.append_nil _).symm⟩⟩
  | setStop => exact ⟨rfl, rfl, fun _ h => h, fun _ _ => ⟨[], (List.append_nil _).symm⟩⟩
  | _ => exact ⟨hstop, rfl, fun _ h => h, fun _ _ => ⟨[], (List.append_nil _).symm⟩⟩

/-- **A stopped pool takes no task.** -/
theorem Stopped.run (h : Run (Fires (ThreadPool.step eval)) s as s') (hI : Inv s)
    (hstop : s.stop = true) : Inv s' ∧ Stopped s s' := by
  refine h.invariant (I := fun t => Inv t ∧ Stopped s t) ?_ ⟨hI, .refl hstop⟩
  intro t a t' ⟨hI, hS⟩ hst
  have hcase := stepCase_of_step hst
  exact ⟨hI.step hcase, hS.trans (.step hcase hI hS.stop)⟩

end ThreadPool

/-! ## 3. A call that has locked the mutex -/

/-- Where the call for `f` may be, once it has locked the mutex where `stop` was `stopped`; until
it unlocks the mutex `stop` stays what it was. -/
def Client.Past (f : τ) (stopped stop : Bool) : Client τ → Prop
  | .check g => g = f ∧ stop = stopped
  | .unwind g => g = f ∧ stopped = true
  | .emplace g | .unlock _ g | .notify _ g => g = f ∧ stopped = false
  | .idle | .lock _ => False

namespace ThreadPool

variable {eval : τ → β} {s s' t t' s₁ : ThreadPool n ι τ β} {a : Act n ι τ} {as : List (Act n ι τ)}
  {c : ι} {f : τ}

/-- A step of another party leaves a client where it is. -/
theorem client_of_other (h : StepCase eval s a s') (ha : a.party ≠ .client c) :
    s'.client c = s.client c ∧ s'.outcomes c = s.outcomes c := by
  have hne : ∀ d : ι, a.party = .client d → c ≠ d := fun d hd hcd => ha (hcd ▸ hd)
  cases h with
  | @lockClient d | @unlockClient d | @call d | @refuse d | @accept d | @emplace d =>
    exact ⟨Function.update_of_ne (hne d rfl) _ _, rfl⟩
  | @notifyOne d | @notifyNone d | @unwind d =>
    exact ⟨Function.update_of_ne (hne d rfl) _ _, Function.update_of_ne (hne d rfl) _ _⟩
  | _ => exact ⟨rfl, rfl⟩

/-- While a client is inside the mutex no other party changes the queue or `stop`. -/
theorem queue_of_other (h : StepCase eval s a s') (hI : Inv s) (hc : s.inside (.client c) = true)
    (ha : a.party ≠ .client c) : s'.tasks = s.tasks ∧ s'.stop = s.stop := by
  have hout : s.inside a.party = false := Owns.outside hI.owned hc ha
  cases h with
  | @take i f q hi =>
    change (s.worker i).inside = false at hout
    rw [hi] at hout
    exact absurd hout (by simp [Worker.inside])
  | @emplace d f hd =>
    change (s.client d).inside = false at hout
    rw [hd] at hout
    exact absurd hout (by simp [Client.inside])
  | setStop ho =>
    change s.owner.inside = false at hout
    rw [ho] at hout
    exact absurd hout (by simp [Owner.inside])
  | _ => exact ⟨rfl, rfl⟩

/-- What has become, in state `t`, of the call for `f` with which client `c` locks the mutex in
state `s`: it is going on, and with `stop` set the queue is still the same; or it has ended, and
has thrown just where `stop` was set. -/
inductive CallFrom (s : ThreadPool n ι τ β) (c : ι) (f : τ) (t : ThreadPool n ι τ β) : Prop
  | going (hout : t.outcomes c = s.outcomes c) (hpast : (t.client c).Past f s.stop t.stop)
      (htasks : s.stop = true → t.tasks = s.tasks)
  | ended {res : Option ℕ} {rest : List (τ × Option ℕ)}
      (hout : t.outcomes c = s.outcomes c ++ (f, res) :: rest) (hres : res = none ↔ s.stop = true)

theorem outcomes_step (h : StepCase eval s a s') (c : ι) :
    ∃ l, s'.outcomes c = s.outcomes c ++ l := by
  cases h with
  | @notifyOne d i k f | @notifyNone d k f | @unwind d f =>
    by_cases hcd : c = d
    · subst hcd
      exact ⟨_, Function.update_self _ _ _⟩
    · exact ⟨[], (Function.update_of_ne hcd _ _).trans (List.append_nil _).symm⟩
  | _ => exact ⟨[], (List.append_nil _).symm⟩

end ThreadPool

/-- Outside the mutex the call has passed the test. -/
theorem Client.Past.of_outside {p : Client τ} {f : τ} {stopped stop : Bool}
    (hp : p.Past f stopped stop) (hout : p.inside = false) (stop' : Bool) :
    stopped = false ∧ p.Past f stopped stop' := by
  cases p with
  | notify k g => exact ⟨hp.2, hp⟩
  | idle | lock g => exact absurd hp id
  | check | emplace | unlock | unwind => exact absurd hout (by simp [inside])

namespace ThreadPool

variable {eval : τ → β} {s s' t t' s₁ : ThreadPool n ι τ β} {a : Act n ι τ}
  {as bs : List (Act n ι τ)} {c : ι} {f : τ} {stopped : Bool}

/-- A step of another party. -/
theorem CallFrom.other (h : StepCase eval t a t') (hI : Inv t) (ha : a.party ≠ .client c)
    (hC : CallFrom s c f t) : CallFrom s c f t' := by
  obtain ⟨hclient, houtcomes⟩ := client_of_other h ha
  cases hC with
  | ended hout hres => exact .ended (houtcomes.trans hout) hres
  | going hout hpast htasks =>
    rw [← houtcomes] at hout
    rw [← hclient] at hpast
    cases hin : (t.client c).inside with
    | true =>
      obtain ⟨hkeep, hstop⟩ := queue_of_other h hI hin ha
      rw [← hstop] at hpast
      exact .going hout hpast fun hs => hkeep.trans (htasks hs)
    | false =>
      rw [← hclient] at hin
      obtain ⟨hopen, hpast'⟩ := hpast.of_outside hin t'.stop
      exact .going hout hpast' fun hs => absurd (hs.symm.trans hopen) (by simp)

/-- The call goes on. -/
theorem CallFrom.moveClient (hout : t.outcomes c = s.outcomes c) {p : Client τ} {q : Fifo τ}
    {mu : Option (Party n ι)} (hpast : p.Past f s.stop t.stop)
    (htasks : s.stop = true → q = s.tasks) :
    CallFrom s c f { t.setClient c p with tasks := q, queueMutex := mu } := by
  refine .going hout ?_ htasks
  change (Function.update t.client c p c).Past f s.stop t.stop
  rw [Function.update_self]
  exact hpast

/-- The call ends. -/
theorem CallFrom.endCall (hout : t.outcomes c = s.outcomes c) {res : Option ℕ}
    {mu : Option (Party n ι)} (hres : res = none ↔ s.stop = true) :
    CallFrom s c f { t.endCall c f res with queueMutex := mu } := by
  have hend : (t.endCall c f res).outcomes c = s.outcomes c ++ [(f, res)] := by
    change Function.update t.outcomes c (t.outcomes c ++ [(f, res)]) c = _
    rw [Function.update_self, hout]
  exact .ended hend hres

/-- A step of the client. -/
theorem CallFrom.own (h : StepCase eval t a t') (ha : a.party = .client c)
    (hC : CallFrom s c f t) : CallFrom s c f t' := by
  cases hC with
  | ended hout hres =>
    obtain ⟨l, hl⟩ := outcomes_step h c
    rw [hout, List.append_assoc] at hl
    exact .ended hl hres
  | going hout hpast htasks =>
    cases h with
    | @lockClient d g hmu hd | @call d g hd =>
      obtain rfl := Party.client.inj ha
      rw [hd] at hpast
      exact absurd hpast id
    | @refuse d g hd hstop =>
      obtain rfl := Party.client.inj ha
      rw [hd] at hpast
      obtain ⟨rfl, hsame⟩ := hpast
      exact .moveClient (p := .unwind g) hout ⟨rfl, hsame.symm.trans hstop⟩ htasks
    | @accept d g hd hstop =>
      obtain rfl := Party.client.inj ha
      rw [hd] at hpast
      obtain ⟨rfl, hsame⟩ := hpast
      exact .moveClient (p := .emplace g) hout ⟨rfl, hsame.symm.trans hstop⟩ htasks
    | @emplace d g hd =>
      obtain rfl := Party.client.inj ha
      rw [hd] at hpast
      obtain ⟨rfl, hopen⟩ := hpast
      exact .moveClient (p := .unlock _ g) hout ⟨rfl, hopen⟩ (by simp [hopen])
    | @unlockClient d k g hd =>
      obtain rfl := Party.client.inj ha
      rw [hd] at hpast
      obtain ⟨rfl, hopen⟩ := hpast
      exact .moveClient (p := .notify k g) hout ⟨rfl, hopen⟩ htasks
    | @notifyOne d i k g hd =>
      obtain rfl := Party.client.inj ha
      rw [hd] at hpast
      obtain ⟨rfl, hopen⟩ := hpast
      exact .endCall (t := t.setWorker i .lock) hout (by simp [hopen])
    | @notifyNone d k g hd =>
      obtain rfl := Party.client.inj ha
      rw [hd] at hpast
      obtain ⟨rfl, hopen⟩ := hpast
      exact .endCall hout (by simp [hopen])
    | @unwind d g hd =>
      obtain rfl := Party.client.inj ha
      rw [hd] at hpast
      obtain ⟨rfl, hstop⟩ := hpast
      exact .endCall hout (by simp [hstop])
    | _ => exact absurd ha nofun

/-- **Every step keeps this.** -/
theorem CallFrom.step (h : StepCase eval t a t') (hI : Inv t) (hC : CallFrom s c f t) :
    CallFrom s c f t' := by
  by_cases ha : a.party = .client c
  · exact hC.own h ha
  · exact hC.other h hI ha

theorem CallFrom.run (h : Run (Fires (ThreadPool.step eval)) (init : ThreadPool n ι τ β) as s)
    (hc : s.client c = .lock f) (hlock : s.step eval (.lock (.client c)) = some s₁)
    (hrun : Run (Fires (ThreadPool.step eval)) s₁ bs t) : CallFrom s c f t := by
  have hstart : Inv s₁ ∧ CallFrom s c f s₁ := by
    have hcase := stepCase_of_step hlock
    refine ⟨(Inv.run h).step hcase, ?_⟩
    cases hcase with
    | lockClient hmu hd =>
      obtain rfl := Client.lock.inj (hc.symm.trans hd)
      exact .moveClient (p := .check f) rfl ⟨rfl, rfl⟩ fun _ => rfl
  refine (hrun.invariant (I := fun t => Inv t ∧ CallFrom s c f t) ?_ hstart).2
  intro t a t' ⟨hI, hC⟩ hst
  have hcase := stepCase_of_step hst
  exact ⟨hI.step hcase, hC.step hcase hI⟩

end ThreadPool

/-! ## 4. The futures -/

namespace ThreadPool

variable {eval : τ → β} {s t : ThreadPool n ι τ β} {as : List (Act n ι τ)} {c : ι} {f : τ}

/-- The calls of a client that have returned, with their futures. -/
def returned (s : ThreadPool n ι τ β) (c : ι) : List (τ × ℕ) :=
  (s.outcomes c).filterMap fun e => e.2.map (e.1, ·)

omit [DecidableEq ι] in
theorem mem_returned {e : τ × ℕ} (he : e ∈ s.returned c) : (e.1, some e.2) ∈ s.outcomes c := by
  obtain ⟨⟨g, res⟩, hmem, hres⟩ := List.mem_filterMap.mp he
  obtain ⟨k, rfl, rfl⟩ := Option.map_eq_some_iff.mp hres
  exact hmem

omit [DecidableEq ι] in
/-- Where no call has thrown, all that have ended have returned. -/
theorem map_fst_returned (hthrown : ∀ f, (f, none) ∉ s.outcomes c) :
    (s.returned c).map Prod.fst = (s.outcomes c).map Prod.fst := by
  rw [returned, List.map_filterMap, ← List.filterMap_eq_map]
  refine List.filterMap_congr fun e he => ?_
  obtain ⟨g, res⟩ := e
  cases res with
  | some k => rfl
  | none => exact absurd he (hthrown g)

/-- A thread calls `get()` on the futures of the tasks `ks`, one after the other, and gets `rs`.
Each `get()` returns in a state in which the future is ready, whatever steps have come before. -/
inductive Gets (eval : τ → β) : ThreadPool n ι τ β → List ℕ → List β → Prop
  | nil {s : ThreadPool n ι τ β} : Gets eval s [] []
  | cons {s t : ThreadPool n ι τ β} {as : List (Act n ι τ)} {k : ℕ} {b : β} {ks : List ℕ}
      {rs : List β} (hrun : Run (Fires (ThreadPool.step eval)) s as t) (hb : t.future k = some b)
      (hrest : Gets eval t ks rs) : Gets eval s (k :: ks) (b :: rs)

theorem outcomes_run (h : Run (Fires (ThreadPool.step eval)) s as t) (c : ι) :
    s.outcomes c <+: t.outcomes c := by
  refine h.invariant (I := fun t => s.outcomes c <+: t.outcomes c) ?_ List.prefix_rfl
  intro t a t' hpre hst
  obtain ⟨l, hl⟩ := outcomes_step (stepCase_of_step hst) c
  exact hpre.trans ⟨l, hl.symm⟩

/-- **A future that is ready holds what the callable of its call gives.** -/
theorem value_of_outcome (h : Run (Fires (ThreadPool.step eval)) (init : ThreadPool n ι τ β) as s)
    {k : ℕ} {b : β} (hmem : (f, some k) ∈ s.outcomes c) (hb : s.future k = some b) :
    b = eval f := by
  have hvalue := (tasks_run_at_most_once h).2.2 k b hb
  rw [(Inv.run h).outcomes c f k hmem] at hvalue
  exact (Option.some.inj hvalue).symm

/-- **Whoever gets the futures of calls gets what their callables give**, in the same order. -/
theorem Gets.eq_map {es : List (τ × ℕ)} {rs : List β} (hg : Gets eval s (es.map Prod.snd) rs)
    (h : Run (Fires (ThreadPool.step eval)) (init : ThreadPool n ι τ β) as s)
    (hes : ∀ e ∈ es, (e.1, some e.2) ∈ s.outcomes c) : rs = es.map fun e => eval e.1 := by
  induction es generalizing s as rs with
  | nil =>
    cases hg
    rfl
  | cons e es ih =>
    cases hg with
    | cons hrun hb hrest =>
      have hall := h.append hrun
      have hmem : ∀ e' ∈ e :: es, (e'.1, some e'.2) ∈ _ := fun e' he' =>
        (outcomes_run hrun c).subset (hes e' he')
      rw [value_of_outcome hall (hmem e List.mem_cons_self) hb,
        ih hrest hall fun e' he' => hmem e' (List.mem_cons_of_mem e he'), List.map_cons]

/-- The calls that have ended come first. -/
theorem map_fst_outcomes_prefix
    (h : Run (Fires (ThreadPool.step eval)) (init : ThreadPool n ι τ β) as s) (c : ι) :
    (s.outcomes c).map Prod.fst <+: as.filterMap (Act.called? c) := by
  rw [← calls_eq h c]
  exact List.prefix_append _ _

/-- Between two calls all have ended. -/
theorem map_fst_outcomes
    (h : Run (Fires (ThreadPool.step eval)) (init : ThreadPool n ι τ β) as s)
    (hc : s.client c = .idle) : (s.outcomes c).map Prod.fst = as.filterMap (Act.called? c) := by
  rw [← calls_eq h c, calls, hc]
  exact (List.append_nil _).symm

end ThreadPool

end CxxConcurrency.Pools.ThreadPoolGithub
