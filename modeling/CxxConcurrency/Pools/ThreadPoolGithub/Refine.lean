/-
# `ThreadPoolGithub::ThreadPool` is a queue with servers

The pool refines a service whose servers are the workers: `tasks.emplace` is a submission, the
move of the front a take, the return of a task its end, `stop = true` the closing, and the return
of a worker its leave.  All other steps are silent (`ThreadPool.simulates`).

So no task is called twice and a future holds what its own callable gives
(`ThreadPool.tasks_run_at_most_once`), and when nothing is left all tasks have been called
(`ThreadPool.all_run`).
-/
import CxxConcurrency.Lib.Service
import CxxConcurrency.Pools.ThreadPoolGithub.Invariant

namespace CxxConcurrency.Pools.ThreadPoolGithub

open CxxConcurrency.Lib

variable {n : ℕ} {ι τ β : Type*}

/-! ## 1. The simulation -/

/-- The task in the hands of a worker. -/
def Worker.hand : Worker τ → Option (ℕ × τ)
  | .unlock k f => some (k, f)
  | .run k f => some (k, f)
  | _ => none

/-- What a step does to the service. -/
def Act.event? : Act n ι τ → Option (Service.Event (Fin n))
  | .emplace _ => some .submit
  | .take i => some (.take i)
  | .run i k => some (.finish i k)
  | .setStop => some .close
  | .ret i => some (.leave i)
  | _ => none

namespace ThreadPool

/-- The service that a pool is. -/
def service (s : ThreadPool n ι τ β) : Service (Fin n) τ β where
  queue := s.tasks
  hand i := (s.worker i).hand
  result := s.future
  closed := s.stop
  left i := (s.worker i).isExited

variable {s s' : ThreadPool n ι τ β} {i : Fin n} {p p₀ : Worker τ}

theorem hand_setWorker :
    (s.setWorker i p).service.hand = Function.update s.service.hand i p.hand := by
  funext j
  exact Function.apply_update (fun _ => Worker.hand) s.worker i p j

theorem left_setWorker :
    (s.setWorker i p).service.left = Function.update s.service.left i p.isExited := by
  funext j
  exact Function.apply_update (fun _ => Worker.isExited) s.worker i p j

theorem left_setWorker_same (hi : s.worker i = p₀) (hexit : p.isExited = p₀.isExited) :
    (s.setWorker i p).service.left = s.service.left := by
  subst hi
  rw [left_setWorker, hexit]
  exact Function.update_eq_self i s.service.left

theorem hand_setWorker_same (hi : s.worker i = p₀) (hhand : p.hand = p₀.hand) :
    (s.setWorker i p).service.hand = s.service.hand := by
  subst hi
  rw [hand_setWorker, hhand]
  exact Function.update_eq_self i s.service.hand

/-- A worker that moves and holds the same leaves the service as it is. -/
theorem service_setWorker (hi : s.worker i = p₀) (hhand : p.hand = p₀.hand)
    (hexit : p.isExited = p₀.isExited) : (s.setWorker i p).service = s.service :=
  congrArg₂ (fun h l => (⟨s.tasks, h, s.future, s.stop, l⟩ : Service (Fin n) τ β))
    (hand_setWorker_same hi hhand) (left_setWorker_same hi hexit)

variable [DecidableEq ι] {eval : τ → β} {a : Act n ι τ} {as : List (Act n ι τ)}

/-- **Each step of the pool is a step of the service, or none.** -/
theorem service_step (h : StepCase eval s a s') (hI : Inv s) :
    match a.event? with
    | some e => Service.Step eval s.service e s'.service
    | none => s'.service = s.service := by
  cases h with
  | lockWorker hmu hi =>
    exact service_setWorker (p := .test) hi rfl rfl
  | unlockWorker hi =>
    exact service_setWorker (p := .run _ _) hi rfl rfl
  | wait hi =>
    exact service_setWorker (p := .waiting) hi rfl rfl
  | pass hi =>
    exact service_setWorker (p := .check) hi rfl rfl
  | wake hi =>
    exact service_setWorker (p := .lock) hi rfl rfl
  | leave hi =>
    exact service_setWorker (p := .ret) hi rfl rfl
  | stay hi =>
    exact service_setWorker (p := .take) hi rfl rfl
  | lockClient | lockOwner | unlockClient | unlockOwner | call | refuse | accept | notifyNone |
    unwind | destroy | join | joined => rfl
  | notifyOne hc hi =>
    exact service_setWorker (p := .lock) hi rfl rfl
  | notifyAll ho =>
    refine congrArg₂ (fun h l => (⟨s.tasks, h, s.future, s.stop, l⟩ : Service (Fin n) τ β))
      (funext fun i => ?_) (funext fun i => ?_)
    · change (s.worker i).notified.hand = (s.worker i).hand
      cases s.worker i <;> rfl
    · change (s.worker i).notified.isExited = (s.worker i).isExited
      cases s.worker i <;> rfl
  | @take i f q hi hpop =>
    change Service.Step eval s.service (.take i)
      ⟨q, (s.setWorker i (.unlock s.tasks.removed.length f)).service.hand, s.future, s.stop,
        (s.setWorker i (.unlock s.tasks.removed.length f)).service.left⟩
    rw [hand_setWorker, left_setWorker_same (p := .unlock _ f) hi rfl]
    exact .take (congrArg Worker.hand hi) hpop
  | @run i k f hi =>
    change Service.Step eval s.service (.finish i k)
      ⟨s.tasks, (s.setWorker i .lock).service.hand, Function.update s.future k (some (eval f)),
        s.stop, (s.setWorker i .lock).service.left⟩
    rw [hand_setWorker, left_setWorker_same (p := .lock) hi rfl]
    exact .finish (congrArg Worker.hand hi)
  | @ret i hi =>
    change Service.Step eval s.service (.leave i)
      ⟨s.tasks, (s.setWorker i .exited).service.hand, s.future, s.stop,
        (s.setWorker i .exited).service.left⟩
    have hk := hI.worker i
    rw [hi] at hk
    rw [left_setWorker, hand_setWorker_same (p := .exited) hi rfl]
    exact .leave hk.1 hk.2 (congrArg Worker.hand hi)
  | @emplace c f hc =>
    have hopen := hI.client c
    rw [hc] at hopen
    exact Service.Step.submit hopen
  | setStop ho => exact Service.Step.close

/-- **The pool simulates the service.** -/
theorem simulates (eval : τ → β) :
    Simulates (Fires (ThreadPool.step (n := n) (ι := ι) eval)) (Service.Step eval) Act.event?
      (fun s t => Inv s ∧ t = s.service) where
  visible := by
    rintro s a s' t e ⟨hI, rfl⟩ hst he
    have hserve := service_step (stepCase_of_step hst) hI
    rw [he] at hserve
    exact ⟨_, hserve, hI.step (stepCase_of_step hst), rfl⟩
  silent := by
    rintro s a s' t ⟨hI, rfl⟩ hst he
    have hserve := service_step (stepCase_of_step hst) hI
    rw [he] at hserve
    exact ⟨hI.step (stepCase_of_step hst), hserve.symm⟩

/-- **Every run of the pool is a run of the service.** -/
theorem service_run (h : Run (Fires (ThreadPool.step eval)) (init : ThreadPool n ι τ β) as s) :
    Run (Service.Step eval) Service.init (as.filterMap Act.event?) s.service := by
  obtain ⟨t, hrun, -, rfl⟩ := (simulates eval).run h ⟨Inv.init, rfl⟩
  exact hrun

end ThreadPool

/-! ## 2. What becomes of the tasks -/

/-- The task that is called in a step. -/
def Act.ran? : Act n ι τ → Option ℕ
  | .run _ k => some k
  | _ => none

namespace ThreadPool

variable [DecidableEq ι] {eval : τ → β} {s s' : ThreadPool n ι τ β} {a : Act n ι τ}
  {as : List (Act n ι τ)}

omit [DecidableEq ι] in
/-- The tasks called are the jobs finished. -/
theorem filterMap_finished (as : List (Act n ι τ)) :
    (as.filterMap Act.event?).filterMap Service.Event.finished? = as.filterMap Act.ran? := by
  rw [List.filterMap_filterMap]
  refine List.filterMap_congr fun a _ => ?_
  cases a <;> rfl

/-- **A task is called at most once, and its future holds what it gave**: the futures that are
ready are those of the tasks that have been called. -/
theorem tasks_run_at_most_once
    (h : Run (Fires (ThreadPool.step eval)) (init : ThreadPool n ι τ β) as s) :
    (as.filterMap Act.ran?).Nodup ∧
      (∀ k, k ∈ as.filterMap Act.ran? ↔ (s.future k).isSome = true) ∧
      ∀ k b, s.future k = some b → s.tasks.added[k]?.map eval = some b := by
  have hrun := service_run h
  have hcount := Service.count_finished hrun
  rw [filterMap_finished] at hcount
  refine ⟨List.nodup_iff_count_le_one.mpr fun k => ?_, fun k => ?_, (Service.Inv.run hrun).result⟩
  · rw [hcount k]
    split_ifs
    all_goals omega
  · rw [← List.count_pos_iff, hcount k]
    change (0 < if (s.future k).isSome = true then 1 else 0) ↔ _
    split_ifs with hk <;> simp [hk]

/-- **Every run of the pool is one of a queue with servers.**  At most one party is inside the
mutex, and the queue is not empty when its front is taken; a task is called at most once, and a
future that is ready holds what its own callable gives. -/
theorem pool_serves
    (h : Run (Fires (ThreadPool.step eval)) (init : ThreadPool n ι τ β) as s) :
    Run (Service.Step eval) Service.init (as.filterMap Act.event?) s.service ∧
      (∀ p q, s.inside p = true → s.inside q = true → p = q) ∧
      (∀ i, s.worker i = .take → s.tasks.items ≠ []) ∧ (as.filterMap Act.ran?).Nodup ∧
      ∀ k b, s.future k = some b → s.tasks.added[k]?.map eval = some b := by
  have hI := Inv.run h
  obtain ⟨hnodup, -, hfuture⟩ := tasks_run_at_most_once h
  refine ⟨service_run h, fun p q => Owns.unique hI.owned, fun i hi => ?_, hnodup, hfuture⟩
  have hk := hI.worker i
  rwa [hi] at hk

/-- Two clients and two workers: the task added last is called first. -/
theorem pool_serves_two :
    ∃ as s, Run (Fires (ThreadPool.step (· + 1))) (init : ThreadPool 2 Bool ℕ ℕ) as s ∧
      as.filterMap Act.ran? = [1, 0] ∧ s.future 0 = some 9 ∧ s.future 1 = some 8 ∧
      Run (Service.Step (· + 1)) Service.init
        [.submit, .submit, .take 0, .take 1, .finish 1 1, .finish 0 0] s.service ∧
      (as.filterMap Act.ran?).Nodup := by
  obtain ⟨s, hrun, h₀, h₁⟩ :
      ∃ s, Run (Fires (ThreadPool.step (· + 1))) (init : ThreadPool 2 Bool ℕ ℕ)
        [.call true 7, .call false 8, .lock (.client false), .checkStop false, .emplace false,
          .unlock (.client false), .lock (.client true), .checkStop true, .emplace true,
          .notifyOne false none, .unlock (.client true), .lock (.worker 0), .test 0, .check 0,
          .take 0, .unlock (.worker 0), .lock (.worker 1), .test 1, .check 1, .take 1,
          .unlock (.worker 1), .run 1 1, .run 0 0] s ∧ s.future 0 = some 9 ∧ s.future 1 = some 8 :=
    ⟨_, run_of_exec rfl, rfl, rfl⟩
  obtain ⟨hserve, -, -, hnodup, -⟩ := pool_serves hrun
  exact ⟨_, s, hrun, rfl, h₀, h₁, hserve, hnodup⟩

/-- **When nothing is left, every task has been called once**, and every future is ready. -/
theorem all_run (h : Run (Fires (ThreadPool.step eval)) (init : ThreadPool n ι τ β) as s)
    (hempty : s.tasks.items = []) (hhands : ∀ i, (s.worker i).hand = none) :
    (as.filterMap Act.ran?).Perm (List.range s.tasks.added.length) ∧
      (∀ k, s.future k = s.tasks.added[k]?.map eval) ∧
      ∀ c f k, (f, some k) ∈ s.outcomes c → s.future k = some (eval f) := by
  have hrun := service_run h
  have hresult := (Service.Inv.run hrun).result_eq hempty hhands
  refine ⟨?_, hresult, fun c f k hmem => ?_⟩
  · rw [← filterMap_finished]
    exact Service.finished_perm hrun hempty hhands
  · rw [show s.future k = _ from hresult k]
    change s.tasks.added[k]?.map eval = some (eval f)
    rw [(Inv.run h).outcomes c f k hmem]
    rfl

omit [DecidableEq ι] in
/-- When `~ThreadPool` has returned no worker has a task. -/
theorem Inv.hand_of_destroyed (hI : Inv s) (hd : s.owner = .destroyed) (i : Fin n) :
    (s.worker i).hand = none := by
  have howner := hI.owner
  rw [hd] at howner
  have hexit := howner.2 i
  cases hi : s.worker i <;> simp_all [Worker.isExited, Worker.hand]

/-- **When `~ThreadPool` has returned, every task has been called exactly once**, and every future
is ready, just where the pool has a worker or has never been given a task. -/
theorem destroyed_all_run_iff
    (h : Run (Fires (ThreadPool.step eval)) (init : ThreadPool n ι τ β) as s)
    (hd : s.owner = .destroyed) :
    ((as.filterMap Act.ran?).Perm (List.range s.tasks.added.length) ∧
      ∀ k f, s.tasks.added[k]? = some f → s.future k = some (eval f))
    ↔ (0 < n ∨ s.tasks.added = []) := by
  constructor
  · rintro ⟨hperm, -⟩
    rcases Nat.eq_zero_or_pos n with rfl | hn
    · -- without a worker nothing is ever called
      have hnil : as.filterMap Act.ran? = [] := by
        refine List.filterMap_eq_nil_iff.mpr fun a _ => ?_
        cases a with
        | run i => exact i.elim0
        | _ => rfl
      rw [hnil] at hperm
      exact Or.inr (List.eq_nil_of_length_eq_zero (by simpa using hperm.length_eq.symm))
    · exact Or.inl hn
  · intro hor
    have hI := Inv.run h
    have hempty : s.tasks.items = [] := by
      rcases hor with hn | hnil
      · have howner := hI.owner
        rw [hd] at howner
        exact ((hI.worker ⟨0, hn⟩).exited (howner.2 ⟨0, hn⟩)).2
      · exact (List.append_eq_nil_iff.mp (s.tasks.conserve.trans hnil)).2
    obtain ⟨hperm, hfuture, -⟩ := all_run h hempty (hI.hand_of_destroyed hd)
    exact ⟨hperm, fun k f hk => by rw [hfuture k, hk]; rfl⟩

theorem destroyed_all_run_iff_one :
    ∃ as s, Run (Fires (ThreadPool.step (· + 1))) (init : ThreadPool 1 Unit ℕ ℕ) as s ∧
      s.owner = .destroyed ∧ (as.filterMap Act.ran?).Perm (List.range 1) ∧ s.future 0 = some 8 := by
  obtain ⟨s, hrun, hd, hadded⟩ := exists_run_of_exec (ThreadPool.step (· + 1))
    (init : ThreadPool 1 Unit ℕ ℕ)
    [.call () 7, .lock (.client ()), .checkStop (), .emplace (), .unlock (.client ()),
      .notifyOne () none, .lock (.worker 0), .test 0, .check 0, .destroy, .take 0,
      .unlock (.worker 0), .lock .owner, .setStop, .run 0 0, .unlock .owner, .notifyAll,
      .lock (.worker 0), .test 0, .check 0, .ret 0, .join, .join]
    (fun s => s.owner = .destroyed ∧ s.tasks.added = [7]) ⟨_, rfl, rfl, rfl⟩
  obtain ⟨hperm, hfuture⟩ := (destroyed_all_run_iff hrun hd).mpr (Or.inl (by decide))
  rw [hadded] at hperm
  exact ⟨_, s, hrun, hd, hperm, hfuture 0 7 (by rw [hadded]; rfl)⟩

end ThreadPool

end CxxConcurrency.Pools.ThreadPoolGithub
