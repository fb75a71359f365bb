/-
# `ThreadPoolGithub::ThreadPool` comes to rest

Every step that the pool makes by itself takes from `ThreadPool.work`, which a call of `enqueue`, a
spurious wakeup and the begin of the destructor raise by a constant.  So left alone the pool comes
to rest whatever the order of the steps is, and at rest all its tasks have been called and all
futures are ready, if there is a worker; and the destructor has returned, if it has begun.
-/
import CxxConcurrency.Pools.ThreadPoolGithub.Calls
import CxxConcurrency.Pools.ThreadPoolGithub.Wakeup

namespace CxxConcurrency.Pools.ThreadPoolGithub

open CxxConcurrency.Lib

variable {n : ℕ} {ι τ β : Type*}

/-! ## 1. What is left to do -/

/-- How many steps a worker makes before it waits or returns. -/
def Worker.work : Worker τ → ℕ
  | .waiting | .exited => 0
  | .take | .ret => 1
  | .check => 2
  | .test => 3
  | .lock => 4
  | .run _ _ => 5
  | .unlock _ _ => 6

/-- How many steps a client makes in its call, and the worker that it wakes and the one that takes
its task. -/
def Client.work : Client τ → ℕ
  | .idle => 0
  | .unwind _ => 1
  | .notify _ _ => 5
  | .unlock _ _ => 6
  | .emplace _ => 13
  | .check _ => 14
  | .lock _ => 15

/-- How many steps the owner makes in the destructor, and the workers that it wakes. -/
def Owner.work (n : ℕ) : Owner → ℕ
  | .destroyed => 0
  | .join j => n - j + 1
  | .notifyAll => 5 * n + 2
  | .unlock => 5 * n + 3
  | .setStop => 5 * n + 4
  | .lock | .alive => 5 * n + 5

namespace ThreadPool

variable [Fintype ι]

/-- What the parties are going to do. -/
def partiesWork (s : ThreadPool n ι τ β) : ℕ :=
  (∑ i, (s.worker i).work) + (∑ c, (s.client c).work) + s.owner.work n

/-- A bound on the number of steps that a pool makes before it is at rest. -/
def work (s : ThreadPool n ι τ β) : ℕ := 6 * s.tasks.items.length + s.partiesWork

variable {s s' : ThreadPool n ι τ β}

theorem partiesWork_setWorker {i : Fin n} {p₀ : Worker τ} (p : Worker τ) (hi : s.worker i = p₀) :
    (s.setWorker i p).partiesWork + p₀.work = s.partiesWork + p.work := by
  subst hi
  have hsum := sum_update_add s.worker Worker.work i p
  rw [partiesWork, partiesWork, setWorker_worker, setWorker_client]
  change _ + _ + s.owner.work n + _ = _
  omega

theorem partiesWork_setOwner {p₀ : Owner} (p : Owner) (ho : s.owner = p₀) :
    partiesWork { s with owner := p } + p₀.work n = s.partiesWork + p.work n := by
  subst ho
  simp only [partiesWork]
  omega

/-- `notify_all` gives every worker at most the steps to the next wait. -/
theorem sum_notified_le (worker : Fin n → Worker τ) :
    ∑ i, (worker i).notified.work ≤ (∑ i, (worker i).work) + 4 * n := by
  calc ∑ i, (worker i).notified.work
      ≤ ∑ i, ((worker i).work + 4) := by
        refine Finset.sum_le_sum fun i _ => ?_
        cases worker i <;> simp [Worker.notified, Worker.work]
    _ = (∑ i, (worker i).work) + 4 * n := by
        rw [Finset.sum_add_distrib, Finset.sum_const_nat fun _ _ => rfl, Finset.card_univ,
          Fintype.card_fin, Nat.mul_comm]

variable [DecidableEq ι]

theorem partiesWork_setClient {c : ι} {p₀ : Client τ} (p : Client τ) (hc : s.client c = p₀) :
    (s.setClient c p).partiesWork + p₀.work = s.partiesWork + p.work := by
  subst hc
  have hsum := sum_update_add s.client Client.work c p
  rw [partiesWork, partiesWork, setClient_worker, setClient_client]
  change _ + _ + s.owner.work n + _ = _
  omega

omit [DecidableEq ι] in
theorem work_moveWorker {i : Fin n} {p p₀ : Worker τ} {q : Fifo τ} {mu : Option (Party n ι)}
    {fut : ℕ → Option β} (hi : s.worker i = p₀)
    (hlt : 6 * q.items.length + p.work < 6 * s.tasks.items.length + p₀.work) :
    work { s.setWorker i p with tasks := q, queueMutex := mu, future := fut } < s.work := by
  have hparties := partiesWork_setWorker p hi
  change 6 * q.items.length + (s.setWorker i p).partiesWork < s.work
  rw [work]
  omega

theorem work_moveClient {c : ι} {p p₀ : Client τ} {q : Fifo τ} {mu : Option (Party n ι)}
    {out : ι → List (τ × Option ℕ)} (hc : s.client c = p₀)
    (hlt : 6 * q.items.length + p.work < 6 * s.tasks.items.length + p₀.work) :
    work { s.setClient c p with tasks := q, queueMutex := mu, outcomes := out } < s.work := by
  have hparties := partiesWork_setClient p hc
  change 6 * q.items.length + (s.setClient c p).partiesWork < s.work
  rw [work]
  omega

theorem work_endCall {c : ι} {f : τ} {res : Option ℕ} {p₀ : Client τ} {mu : Option (Party n ι)}
    (hc : s.client c = p₀) (hlt : 0 < p₀.work) :
    work { s.endCall c f res with queueMutex := mu } < s.work := by
  have hparties := partiesWork_setClient .idle hc
  change _ + _ = _ + 0 at hparties
  change 6 * s.tasks.items.length + (s.setClient c .idle).partiesWork < s.work
  rw [work]
  omega

omit [DecidableEq ι] in
theorem work_moveOwner {p p₀ : Owner} {stop : Bool} {mu : Option (Party n ι)} (ho : s.owner = p₀)
    (hlt : p.work n < p₀.work n) :
    work { s with owner := p, stop := stop, queueMutex := mu } < s.work := by
  have hparties := partiesWork_setOwner p ho
  change 6 * s.tasks.items.length + partiesWork { s with owner := p } < s.work
  rw [work]
  omega

variable {eval : τ → β} {a : Act n ι τ} {as bs : List (Act n ι τ)}

/-- **A step that the pool makes by itself takes from its work.** -/
theorem work_step (h : StepCase eval s a s') (ha : a.external = false) : s'.work < s.work := by
  cases h with
  | @lockWorker i hmu hi => exact work_moveWorker (p := .test) hi (Nat.lt_succ_self _)
  | @unlockWorker i k f hi => exact work_moveWorker (p := .run k f) hi (Nat.lt_succ_self _)
  | @pass i hi => exact work_moveWorker (p := .check) hi (Nat.lt_succ_self _)
  | @wait i hi =>
    exact work_moveWorker (p := .waiting) hi (Nat.lt_add_of_pos_right (Nat.succ_pos 2))
  | @leave i hi => exact work_moveWorker (p := .ret) hi (Nat.lt_succ_self _)
  | @stay i hi => exact work_moveWorker (p := .take) hi (Nat.lt_succ_self _)
  | @ret i hi => exact work_moveWorker (p := .exited) hi (Nat.lt_succ_self _)
  | @run i k f hi => exact work_moveWorker (p := .lock) hi (Nat.lt_succ_self _)
  | @take i f q hi hpop =>
    obtain ⟨hitems, -, -⟩ := Fifo.pop?_eq_some hpop
    refine work_moveWorker (p := .unlock _ f) hi ?_
    rw [hitems, List.length_cons]
    simp only [Worker.work]
    omega
  | @lockClient c f hmu hc => exact work_moveClient (p := .check f) hc (Nat.lt_succ_self _)
  | @unlockClient c k f hc => exact work_moveClient (p := .notify k f) hc (Nat.lt_succ_self _)
  | @accept c f hc => exact work_moveClient (p := .emplace f) hc (Nat.lt_succ_self _)
  | @refuse c f hc => exact work_moveClient (p := .unwind f) hc (by simp only [Client.work]; omega)
  | unwind hc | notifyNone hc => exact work_endCall hc (by simp [Client.work])
  | @emplace c f hc =>
    refine work_moveClient (p := .unlock _ f) hc ?_
    rw [Fifo.push_items, List.length_append, List.length_singleton]
    simp only [Client.work]
    omega
  | @notifyOne c i k f hc hi =>
    have hworker := partiesWork_setWorker .lock hi
    have hclient := partiesWork_setClient (s := s.setWorker i .lock) .idle hc
    change _ + 0 = _ + 4 at hworker
    change _ + 5 = _ + 0 at hclient
    change 6 * s.tasks.items.length + ((s.setWorker i .lock).setClient c .idle).partiesWork
      < s.work
    rw [work]
    omega
  | lockOwner hmu ho => exact work_moveOwner ho (Nat.lt_succ_self _)
  | unlockOwner ho => exact work_moveOwner ho (Nat.lt_succ_self _)
  | setStop ho => exact work_moveOwner ho (Nat.lt_succ_self _)
  | notifyAll ho =>
    have hsum := sum_notified_le s.worker
    simp only [work, partiesWork, ho, Owner.work]
    omega
  | @join j ho hj => exact work_moveOwner ho (by simp only [Owner.work]; omega)
  | @joined j ho hj => exact work_moveOwner ho (Nat.succ_pos _)
  | call | wake | destroy => exact absurd ha (by simp [Act.external])

/-- Another step adds at most 15 to it. -/
theorem work_external (h : StepCase eval s a s') (ha : a.external = true) :
    s'.work ≤ s.work + 15 := by
  cases h with
  | @call c f hc =>
    have hparties := partiesWork_setClient (.lock f) hc
    change _ + 0 = _ + 15 at hparties
    change 6 * s.tasks.items.length + (s.setClient c (.lock f)).partiesWork ≤ _
    rw [work]
    omega
  | @wake i hi =>
    have hparties := partiesWork_setWorker .lock hi
    change _ + 0 = _ + 4 at hparties
    change 6 * s.tasks.items.length + (s.setWorker i .lock).partiesWork ≤ _
    rw [work]
    omega
  | destroy ho =>
    have hparties := partiesWork_setOwner .lock ho
    change _ + (5 * n + 5) = _ + (5 * n + 5) at hparties
    change 6 * s.tasks.items.length + partiesWork { s with owner := .lock } ≤ _
    rw [work]
    omega
  | _ => exact absurd ha (by simp [Act.external])

/-! ## 2. A pool that is left alone -/

/-- A run all of whose steps the pool makes by itself. -/
abbrev Alone (eval : τ → β) (s : ThreadPool n ι τ β) (as : List (Act n ι τ))
    (s' : ThreadPool n ι τ β) : Prop :=
  Run (Restrict (fun _ a => a.external = false) (Fires (ThreadPool.step eval))) s as s'

/-- A pool left alone makes no more steps than its work. -/
theorem length_le_work (h : Alone eval s as s') : as.length ≤ s.work := by
  have hle := h.countP_add_le (I := fun _ => True) (m := work) (p := fun _ => true)
    (fun _ _ _ _ _ => trivial) (fun _ _ _ _ hst => by
      have hlt := work_step (stepCase_of_step hst.2) hst.1
      rw [if_pos rfl]
      omega) trivial
  rw [List.countP_true] at hle
  omega

/-- **There is no livelock**: in every run the number of the steps that the pool makes by itself is
bounded by that of the workers and that of the others. -/
theorem steps_le (h : Run (Fires (ThreadPool.step eval)) (init : ThreadPool n ι τ β) as s) :
    as.countP (fun a => !a.external) + s.work ≤ 9 * n + 5 + 15 * as.countP Act.external := by
  have hinit : (init : ThreadPool n ι τ β).work = 9 * n + 5 := by
    simp [work, partiesWork, init, Worker.work, Client.work, Owner.work]
    omega
  rw [← hinit]
  refine h.countP_add_le_mul (I := fun _ => True) (fun _ _ _ _ _ => trivial) ?_ trivial
  intro t a t' _ hst
  cases ha : a.external with
  | true =>
    have hle := work_external (stepCase_of_step hst) ha
    simpa using hle
  | false =>
    have hlt := work_step (stepCase_of_step hst) ha
    simp only [Bool.not_false, if_true, Bool.false_eq_true, if_false]
    omega

/-- Two calls begin, a worker wakes spuriously, and the destructor begins. -/
theorem steps_le_two :
    ∃ as s, Run (Fires (ThreadPool.step (· + 1))) (init : ThreadPool 2 Bool ℕ ℕ) as s ∧
      as.countP (fun a => !a.external) = 6 ∧ as.countP Act.external = 4 ∧ 6 + s.work ≤ 83 := by
  obtain ⟨s, hrun⟩ : ∃ s, Run (Fires (ThreadPool.step (· + 1))) (init : ThreadPool 2 Bool ℕ ℕ)
      [.lock (.worker 0), .test 0, .call true 7, .wake 0, .lock (.client true), .checkStop true,
        .call false 8, .emplace true, .destroy, .unlock (.client true)] s := ⟨_, run_of_exec rfl⟩
  exact ⟨_, s, hrun, rfl, rfl, steps_le hrun⟩

/-- A pool left alone can come to rest. -/
theorem exists_atRest (s : ThreadPool n ι τ β) : ∃ as s', Alone eval s as s' ∧ AtRest eval s' := by
  refine Run.exists_final (b := s.work) (fun as t h => length_le_work h) fun as t _ hrest => ?_
  obtain ⟨a, ha⟩ := not_forall.mp hrest
  obtain ⟨hext, hsome⟩ := Classical.not_imp.mp ha
  obtain ⟨u, hu⟩ := Option.ne_none_iff_exists'.mp hsome
  exact ⟨a, u, hext, hu⟩

omit [Fintype ι] in
/-- A pool whose parties all wait, or are done, is at rest. -/
theorem atRest_of_idle (hw : ∀ i, (s.worker i).isWaiting = true ∨ (s.worker i).isExited = true)
    (hc : ∀ c, s.client c = .idle) (ho : s.owner = .alive ∨ s.owner = .destroyed) :
    AtRest eval s := by
  intro a ha
  have hworker : ∀ i, s.worker i = .waiting ∨ s.worker i = .exited := by
    intro i
    have hi := hw i
    cases h : s.worker i with
    | waiting => exact Or.inl rfl
    | exited => exact Or.inr rfl
    | _ =>
      rw [h] at hi
      exact absurd hi (by simp [Worker.isWaiting, Worker.isExited])
  cases a with
  | call | wake | destroy => exact absurd ha (by simp [Act.external])
  | lock p =>
    simp only [step]
    split
    · rfl
    · cases p with
      | worker i => rcases hworker i with hi | hi <;> simp [hi]
      | client c => simp [hc c]
      | owner => rcases ho with ho | ho <;> simp [ho]
  | unlock p =>
    cases p with
    | worker i => rcases hworker i with hi | hi <;> simp [step, hi]
    | client c => simp [step, hc c]
    | owner => rcases ho with ho | ho <;> simp [step, ho]
  | test i | check i | take i | run i | ret i =>
    rcases hworker i with hi | hi <;> simp [step, hi]
  | checkStop c | emplace c | unwind c => simp [step, hc c]
  | notifyOne c w => simp [step, hc c]
  | setStop | notifyAll | join => rcases ho with ho | ho <;> simp [step, ho]

omit [Fintype ι] in
/-- The destructor goes on. -/
theorem owner_ne_alive (h : Run (Fires (ThreadPool.step eval)) s as s') (ho : s.owner ≠ .alive) :
    s'.owner ≠ .alive := by
  refine h.invariant (I := fun t : ThreadPool n ι τ β => t.owner ≠ .alive) ?_ ho
  intro t a t' ht hst
  cases stepCase_of_step hst with
  | lockOwner | unlockOwner | destroy | setStop | notifyAll | join | joined => nofun
  | _ => exact ht

/-- **Left alone, a pool comes to rest**: it makes no more than a known number of steps, in
whatever order, and when it cannot go on no call is going on, the destructor has returned if it
has begun, and every future that a call has returned holds what the callable of the call gives,
if there is a worker. -/
theorem left_alone_comes_to_rest
    (h : Run (Fires (ThreadPool.step eval)) (init : ThreadPool n ι τ β) as s) :
    (∀ bs t, Alone eval s bs t → bs.length ≤ s.work) ∧
      (∃ bs t, Alone eval s bs t ∧ AtRest eval t) ∧
      ∀ bs t, Alone eval s bs t → AtRest eval t →
        (∀ c, t.client c = .idle) ∧ (s.owner ≠ .alive → t.owner = .destroyed) ∧
        (0 < n → t.tasks.items = [] ∧
          ∀ c f k, (f, some k) ∈ t.outcomes c → t.future k = some (eval f)) := by
  refine ⟨fun bs t => length_le_work, exists_atRest s, fun bs t halone hrest => ?_⟩
  have hrun := halone.mono fun _ _ _ hst => hst.2
  have hall := h.append hrun
  have hI := Inv.run hall
  refine ⟨hrest.client hI, fun ho => ?_, fun hn => ?_⟩
  · exact (hrest.owner hI).resolve_left (owner_ne_alive hrun ho)
  · have hempty := hrest.empty hI (NoLostWakeup.run hall) hn
    exact ⟨hempty, (all_run hall hempty (hrest.hand hI)).2.2⟩

theorem left_alone_comes_to_rest_one :
    ∃ as s, Run (Fires (ThreadPool.step (· + 1))) (init : ThreadPool 1 Unit ℕ ℕ) as s ∧
      s.tasks.items = [7] ∧ ∃ bs t, Alone (· + 1) s bs t ∧ t.tasks.items = [] := by
  obtain ⟨s, hrun, hitems⟩ := exists_run_of_exec (ThreadPool.step (· + 1))
    (init : ThreadPool 1 Unit ℕ ℕ)
    [.lock (.worker 0), .test 0, .call () 7, .lock (.client ()), .checkStop (), .emplace ()]
    (fun s => s.tasks.items = [7]) ⟨_, rfl, rfl⟩
  obtain ⟨-, ⟨bs, t, halone, hrest⟩, hend⟩ := left_alone_comes_to_rest hrun
  exact ⟨_, s, hrun, hitems, bs, t, halone, ((hend bs t halone hrest).2.2 (by decide)).1⟩

/-- **What `enqueue` is for.**  In every state that a run reaches, the calls of a client that have
ended are the first of its calls, and a future that one has returned holds, once it is ready, what
the callable of that call gives.  So a client that has made its calls and gets their futures, in
order and whatever goes on meanwhile, gets in the order of the calls what the callables give; and
when a pool that has a worker is at rest, all of them are ready. -/
theorem map_futures (h : Run (Fires (ThreadPool.step eval)) (init : ThreadPool n ι τ β) as s)
    (c : ι) :
    (∀ (m : ℕ) f k, (s.outcomes c)[m]? = some (f, some k) →
      (as.filterMap (Act.called? c))[m]? = some f ∧ ∀ b, s.future k = some b → b = eval f) ∧
      (s.client c = .idle → s.stop = false →
        ∀ rs, Gets eval s ((s.returned c).map Prod.snd) rs →
          rs = (as.filterMap (Act.called? c)).map eval) ∧
      (0 < n → s.stop = false → AtRest eval s →
        (s.outcomes c).map (fun e => e.2.bind s.future)
          = (as.filterMap (Act.called? c)).map fun f => some (eval f)) := by
  have hI := Inv.run h
  have hthrown : s.stop = false → ∀ f, (f, none) ∉ s.outcomes c := fun hopen f hmem =>
    absurd ((Refused.run h).thrown c f hmem) (by simp [hopen])
  refine ⟨fun m f k hm => ⟨?_, fun b hb => ?_⟩, fun hc hopen rs hg => ?_, fun hn hopen hrest => ?_⟩
  · obtain ⟨l, hl⟩ := map_fst_outcomes_prefix h c
    have hlt := (List.getElem?_eq_some_iff.mp hm).1
    rw [← hl, List.getElem?_append_left (by simpa using hlt), List.getElem?_map, hm]
    rfl
  · exact value_of_outcome h (List.mem_of_getElem? hm) hb
  · rw [hg.eq_map h fun e he => mem_returned he, ← map_fst_outcomes h hc,
      ← map_fst_returned (hthrown hopen), List.map_map]
    rfl
  · have hempty := hrest.empty hI (NoLostWakeup.run h) hn
    have hfuture := (all_run h hempty (hrest.hand hI)).2.2
    rw [← map_fst_outcomes h (hrest.client hI c), List.map_map]
    refine List.map_congr_left fun e he => ?_
    obtain ⟨f, res⟩ := e
    cases res with
    | some k => exact hfuture c f k he
    | none => exact absurd he (hthrown hopen f)

/-- Two clients: the tasks are called out of order, and the first client gets its two futures. -/
theorem map_futures_two :
    ∃ as s, Run (Fires (ThreadPool.step (· + 1))) (init : ThreadPool 2 Bool ℕ ℕ) as s ∧
      (∃ rs, Gets (· + 1) s [0, 2] rs) ∧ (∀ rs, Gets (· + 1) s [0, 2] rs → rs = [8, 10]) ∧
      ∃ bs t, Run (Fires (ThreadPool.step (· + 1))) s bs t ∧
        (t.outcomes true).map (fun e => e.2.bind t.future) = [some 8, some 10] := by
  obtain ⟨s, hrun, hc, hopen, hreturned, t, hrun', h₀, h₂, u, hrun'', hopen', hw, hc', ho⟩ :
      ∃ s, Run (Fires (ThreadPool.step (· + 1))) (init : ThreadPool 2 Bool ℕ ℕ)
        [.lock (.worker 0), .test 0, .lock (.worker 1), .test 1, .call true 7, .call false 8,
          .lock (.client true), .checkStop true, .emplace true, .unlock (.client true),
          .lock (.client false), .notifyOne true (some 0), .checkStop false, .emplace false,
          .unlock (.client false), .call true 9, .lock (.client true), .checkStop true,
          .emplace true, .unlock (.client true), .notifyOne true (some 1),
          .notifyOne false none] s ∧
        s.client true = .idle ∧ s.stop = false ∧ (s.returned true).map Prod.snd = [0, 2] ∧
        ∃ t, Run (Fires (ThreadPool.step (· + 1))) s
          [.lock (.worker 0), .test 0, .check 0, .take 0, .unlock (.worker 0), .lock (.worker 1),
            .test 1, .check 1, .take 1, .unlock (.worker 1), .run 1 1, .lock (.worker 1), .test 1,
            .check 1, .take 1, .unlock (.worker 1), .run 1 2, .run 0 0] t ∧
          t.future 0 = some 8 ∧ t.future 2 = some 10 ∧
          ∃ u, Run (Fires (ThreadPool.step (· + 1))) t
            [.lock (.worker 0), .test 0, .lock (.worker 1), .test 1] u ∧ u.stop = false ∧
            (∀ i, (u.worker i).isWaiting = true) ∧ (∀ c, u.client c = .idle) ∧
            u.owner = .alive :=
    ⟨_, run_of_exec rfl, rfl, rfl, rfl, _, run_of_exec rfl, rfl, rfl, _, run_of_exec rfl, rfl,
      Fin.forall_fin_two.mpr ⟨rfl, rfl⟩, Bool.forall_bool.mpr ⟨rfl, rfl⟩, rfl⟩
  have hrest : AtRest (· + 1) u := atRest_of_idle (fun i => Or.inl (hw i)) hc' (Or.inl ho)
  obtain ⟨-, hgets, -⟩ := map_futures hrun true
  obtain ⟨-, -, hend⟩ := map_futures (hrun.append (hrun'.append hrun'')) true
  rw [hreturned] at hgets
  exact ⟨_, s, hrun, ⟨_, .cons hrun' h₀ (.cons Run.refl h₂ .nil)⟩, hgets hc hopen, _, u,
    hrun'.append hrun'', hend (by decide) hopen' hrest⟩

end ThreadPool

end CxxConcurrency.Pools.ThreadPoolGithub
