/-
# The scope of `rwlocks/call_once.cpp`

The test case declares a pool `tp` and then a `Worker w`, enqueues calls of `w.work()`, and ends.
Locals are destroyed in the reverse order of their declaration: first `w`, while the pool still
runs, and then `tp`, whose destructor lets the threads empty the queue and joins them.  A task
that is still in the queue then, or in the hands of a thread, runs on a `Worker` that is gone.

`Scope` is this scope with any number of threads and tasks; the main thread and the threads of the
pool are the parties.  If nothing is left to run when `w` is destroyed, nothing is run afterwards
(`Left`).  If something is, the scope does not end without running it (`tasks_run_alive_iff`).

On a destroyed `Worker` the steps of `Worker::work` have no defined meaning; they go on here as
before, so that runs with such steps can be spoken of.
-/
import CxxConcurrency.Lib.Run
import Mathlib.Data.Fintype.Basic
import Mathlib.Logic.Function.Basic

namespace CxxConcurrency.Rwlocks

open CxxConcurrency.Lib

/-! ## 1. The state and the steps -/

/-- Where a thread of the pool is. -/
inductive Scope.Thread
  /-- At the top of its loop, in `condition.wait`. -/
  | top
  /-- It took task `i` from the queue and is about to call it. -/
  | got (i : ℕ)
  /-- In `Worker::work`, at `std::call_once`. -/
  | callOnce (i : ℕ)
  /-- In `Worker::work`, in `init_resource`. -/
  | initResource (i : ℕ)
  /-- The thread function has returned. -/
  | exited
  deriving DecidableEq

/-- A `std::once_flag`. -/
inductive Scope.Once
  | notCalled
  | running
  | called
  deriving DecidableEq

/-- Where the main thread is. -/
inductive Scope.Main
  /-- In the loop that enqueues, with task `i` next. -/
  | enqueuing (i : ℕ)
  /-- `w` is destroyed; `~ThreadPool` is about to set `stop`. -/
  | stopping
  /-- `~ThreadPool` is about to join thread `j`. -/
  | joining (j : ℕ)
  /-- The scope has ended. -/
  | ended
  deriving DecidableEq

/-- The scope of the test case, with `m` threads. -/
structure Scope (m : ℕ) where
  tasks : List ℕ
  stop : Bool
  thread : Fin m → Scope.Thread
  /-- Whether `w` has not been destroyed. -/
  alive : Bool
  /-- `w.resource_flag` -/
  flag : Scope.Once
  /-- Whether `w.resource_ptr` owns a `Resource`. -/
  resource : Bool
  main : Scope.Main

namespace Scope

variable {m : ℕ}

/-- `tp` and `w` have been constructed. -/
def init (m : ℕ) : Scope m := ⟨[], false, fun _ => .top, true, .notCalled, false, .enqueuing 0⟩

/-- The label of a step. -/
inductive Act (m : ℕ)
  /-- `tp.enqueue( [&w]() { w.work(); } )` -/
  | enqueue
  /-- The loop is over, and `w` is destroyed with the `Resource` it owns. -/
  | destroyWorker
  /-- `~ThreadPool` sets `stop`. -/
  | stop
  /-- `worker.join()` returns, or the loop over the threads is over. -/
  | join
  /-- Thread `t` takes the task at the front. -/
  | take (t : Fin m)
  /-- Thread `t` finds `stop` set and the queue empty. -/
  | exit (t : Fin m)
  /-- Thread `t` calls its task, which calls `w.work()`. -/
  | call (t : Fin m)
  /-- `std::call_once` on thread `t` looks at the flag, once no other thread is in
  `init_resource`. -/
  | callOnce (t : Fin m)
  /-- `init_resource` on thread `t`, after which `call_once` and `work` return. -/
  | initResource (t : Fin m)
  deriving DecidableEq

/-- Thread `t` moves to `p`. -/
def setThread (s : Scope m) (t : Fin m) (p : Thread) : Scope m :=
  { s with thread := Function.update s.thread t p }

/-- One step of a scope that enqueues `k` tasks. -/
def step (k : ℕ) (s : Scope m) : Act m → Option (Scope m)
  | .enqueue =>
    match s.main with
    | .enqueuing i =>
      if i < k then some { s with tasks := s.tasks ++ [i], main := .enqueuing (i + 1) } else none
    | _ => none
  | .destroyWorker =>
    match s.main with
    | .enqueuing i =>
      if i < k then none
      else some { s with alive := false, resource := false, main := .stopping }
    | _ => none
  | .stop =>
    match s.main with
    | .stopping => some { s with stop := true, main := .joining 0 }
    | _ => none
  | .join =>
    match s.main with
    | .joining j =>
      if h : j < m then
        if s.thread ⟨j, h⟩ = .exited then some { s with main := .joining (j + 1) } else none
      else some { s with main := .ended }
    | _ => none
  | .take t =>
    match s.thread t, s.tasks with
    | .top, i :: rest => some { s.setThread t (.got i) with tasks := rest }
    | _, _ => none
  | .exit t =>
    if s.thread t = .top ∧ s.stop = true ∧ s.tasks = [] then some (s.setThread t .exited) else none
  | .call t =>
    match s.thread t with
    | .got i => some (s.setThread t (.callOnce i))
    | _ => none
  | .callOnce t =>
    match s.thread t, s.flag with
    | .callOnce i, .notCalled => some { s.setThread t (.initResource i) with flag := .running }
    | .callOnce _, .called => some (s.setThread t .top)
    | _, _ => none
  | .initResource t =>
    match s.thread t with
    | .initResource _ => some { s.setThread t .top with flag := .called, resource := true }
    | _ => none

/-- The cases of a step. -/
inductive StepCase (k : ℕ) (s : Scope m) : Act m → Scope m → Prop
  | enqueue {i : ℕ} (hmain : s.main = .enqueuing i) (hi : i < k) :
      StepCase k s .enqueue { s with tasks := s.tasks ++ [i], main := .enqueuing (i + 1) }
  | destroyWorker {i : ℕ} (hmain : s.main = .enqueuing i) (hi : ¬ i < k) :
      StepCase k s .destroyWorker { s with alive := false, resource := false, main := .stopping }
  | stop (hmain : s.main = .stopping) :
      StepCase k s .stop { s with stop := true, main := .joining 0 }
  | join {j : ℕ} (hmain : s.main = .joining j) (hj : j < m) (hexit : s.thread ⟨j, hj⟩ = .exited) :
      StepCase k s .join { s with main := .joining (j + 1) }
  | joined {j : ℕ} (hmain : s.main = .joining j) (hj : ¬ j < m) :
      StepCase k s .join { s with main := .ended }
  | take {t : Fin m} {i : ℕ} {rest : List ℕ} (ht : s.thread t = .top)
      (htasks : s.tasks = i :: rest) :
      StepCase k s (.take t) { s.setThread t (.got i) with tasks := rest }
  | exit {t : Fin m} (ht : s.thread t = .top) (hstop : s.stop = true) (htasks : s.tasks = []) :
      StepCase k s (.exit t) (s.setThread t .exited)
  | call {t : Fin m} {i : ℕ} (ht : s.thread t = .got i) :
      StepCase k s (.call t) (s.setThread t (.callOnce i))
  | callFirst {t : Fin m} {i : ℕ} (ht : s.thread t = .callOnce i) (hflag : s.flag = .notCalled) :
      StepCase k s (.callOnce t) { s.setThread t (.initResource i) with flag := .running }
  | callAgain {t : Fin m} {i : ℕ} (ht : s.thread t = .callOnce i) (hflag : s.flag = .called) :
      StepCase k s (.callOnce t) (s.setThread t .top)
  | initResource {t : Fin m} {i : ℕ} (ht : s.thread t = .initResource i) :
      StepCase k s (.initResource t) { s.setThread t .top with flag := .called, resource := true }

variable {k : ℕ} {s s' : Scope m} {a : Act m} {as : List (Act m)}

/-- **Every step is one of the cases.** -/
theorem stepCase_of_step (h : s.step k a = some s') : StepCase k s a s' := by
  cases a with
  | enqueue =>
    simp only [step] at h
    split at h
    · rename_i i hmain
      obtain ⟨hi, rfl⟩ : _ ∧ _ := by simpa using h
      exact .enqueue hmain hi
    · exact absurd h (by simp)
  | destroyWorker =>
    simp only [step] at h
    split at h
    · rename_i i hmain
      split at h
      · exact absurd h (by simp)
      · rename_i hi
        obtain rfl := Option.some.inj h
        exact .destroyWorker hmain hi
    · exact absurd h (by simp)
  | stop =>
    simp only [step] at h
    split at h
    · rename_i hmain
      obtain rfl := Option.some.inj h
      exact .stop hmain
    · exact absurd h (by simp)
  | join =>
    simp only [step] at h
    split at h
    · rename_i j hmain
      split at h
      · rename_i hj
        split at h
        · rename_i hexit
          obtain rfl := Option.some.inj h
          exact .join hmain hj hexit
        · exact absurd h (by simp)
      · rename_i hj
        obtain rfl := Option.some.inj h
        exact .joined hmain hj
    · exact absurd h (by simp)
  | take t =>
    simp only [step] at h
    split at h
    · rename_i i rest ht htasks
      obtain rfl := Option.some.inj h
      exact .take ht htasks
    · exact absurd h (by simp)
  | exit t =>
    simp only [step, Option.ite_none_right_eq_some, Option.some.injEq] at h
    obtain ⟨⟨ht, hstop, htasks⟩, rfl⟩ := h
    exact .exit ht hstop htasks
  | call t =>
    simp only [step] at h
    split at h
    · rename_i i ht
      obtain rfl := Option.some.inj h
      exact .call ht
    · exact absurd h (by simp)
  | callOnce t =>
    simp only [step] at h
    split at h
    · rename_i i ht hflag
      obtain rfl := Option.some.inj h
      exact .callFirst ht hflag
    · rename_i i ht hflag
      obtain rfl := Option.some.inj h
      exact .callAgain ht hflag
    · exact absurd h (by simp)
  | initResource t =>
    simp only [step] at h
    split at h
    · rename_i i ht
      obtain rfl := Option.some.inj h
      exact .initResource ht
    · exact absurd h (by simp)

/-! ## 2. A worker that is destroyed when nothing is left to run -/

/-- The thread executes `Worker::work`. -/
def Thread.inWork : Thread → Bool
  | .callOnce _ => true
  | .initResource _ => true
  | _ => false

/-- The thread has a task that it has not finished. -/
def Thread.busy : Thread → Bool
  | .top => false
  | .exited => false
  | _ => true

/-- A task executes `Worker::work` on a `Worker` that has been destroyed. -/
def UsesDestroyed (s : Scope m) : Prop := s.alive = false ∧ ∃ t, (s.thread t).inWork = true

/-- No task is left, in the queue or in the hands of a thread. -/
def NothingLeft (s : Scope m) : Prop := s.tasks = [] ∧ ∀ t, (s.thread t).busy = false

/-- `w` is destroyed only when no task is left. -/
def WhenNothingLeft (s : Scope m) (a : Act m) : Prop := a = .destroyWorker → NothingLeft s

instance : DecidablePred (NothingLeft (m := m)) := fun s =>
  inferInstanceAs (Decidable (s.tasks = [] ∧ ∀ t, (s.thread t).busy = false))

instance (s : Scope m) (a : Act m) : Decidable (WhenNothingLeft s a) :=
  inferInstanceAs (Decidable (a = .destroyWorker → NothingLeft s))

/-- Once `w` is destroyed nothing is left, and nothing is enqueued. -/
def Left (s : Scope m) : Prop := s.alive = false → NothingLeft s ∧ ∀ i, s.main ≠ .enqueuing i

/-- **Every such step keeps this.** -/
theorem Left.step (h : StepCase k s a s') (hC : WhenNothingLeft s a) (hL : Left s) : Left s' := by
  intro halive
  cases h with
  | enqueue hmain => exact absurd hmain ((hL halive).2 _)
  | destroyWorker => exact ⟨hC rfl, by simp⟩
  | stop | join | joined => exact ⟨(hL halive).1, by simp⟩
  | take _ htasks => exact absurd ((hL halive).1.1.symm.trans htasks) (by simp)
  | exit =>
    obtain ⟨⟨htasks, hbusy⟩, hmain⟩ := hL halive
    refine ⟨⟨htasks, ?_⟩, hmain⟩
    exact (Function.forall_update_iff s.thread fun _ p => p.busy = false).mpr
      ⟨rfl, fun u _ => hbusy u⟩
  | @call t i ht | @callFirst t i ht | @callAgain t i ht | @initResource t i ht =>
    have hbusy := (hL halive).1.2 t
    rw [ht] at hbusy
    exact absurd hbusy (by simp [Thread.busy])

theorem Left.run (h : Run (Restrict WhenNothingLeft (Fires (Scope.step k))) (Scope.init m) as s) :
    Left s := by
  refine h.invariant (fun _ _ _ hL hst => hL.step (stepCase_of_step hst.2) hst.1) ?_
  intro halive
  exact absurd halive (by simp [Scope.init])

theorem Left.not_usesDestroyed (hL : Left s) : ¬ UsesDestroyed s := by
  rintro ⟨halive, t, hwork⟩
  have hbusy := (hL halive).1.2 t
  cases ht : s.thread t <;> simp_all [Thread.inWork, Thread.busy]

/-! ## 3. A worker that is destroyed before -/

/-- What is known of the threads that have exited, and of those that have been joined. -/
structure Joined (s : Scope m) : Prop where
  stop : s.stop = true → ∀ i, s.main ≠ .enqueuing i
  exited : ∀ t, s.thread t = .exited → s.stop = true ∧ s.tasks = []
  joining : ∀ j, s.main = .joining j → ∀ t : Fin m, t.val < j → s.thread t = .exited
  ended : s.main = .ended → ∀ t, s.thread t = .exited

/-- A thread that has exited takes no step. -/
theorem exited_of_step (h : StepCase k s a s') {u : Fin m} (hu : s.thread u = .exited) :
    s'.thread u = .exited := by
  have hmove : ∀ (t : Fin m) (p : Thread), s.thread t ≠ .exited →
      Function.update s.thread t p u = .exited := by
    intro t p ht
    have hut : u ≠ t := by
      rintro rfl
      exact ht hu
    rw [Function.update_of_ne hut]
    exact hu
  cases h with
  | take ht | exit ht | call ht | callFirst ht | callAgain ht | initResource ht =>
    exact hmove _ _ (by simp [ht])
  | enqueue | destroyWorker | stop | join | joined => exact hu

/-- A thread that takes a step other than its exit has not exited. -/
theorem exited_of_move {t : Fin m} {p : Thread} (hp : p ≠ .exited) {u : Fin m}
    (hu : Function.update s.thread t p u = .exited) : s.thread u = .exited := by
  have hut : u ≠ t := by
    rintro rfl
    rw [Function.update_self] at hu
    exact hp hu
  rwa [Function.update_of_ne hut] at hu

/-- **Every step keeps this.** -/
theorem Joined.step (h : StepCase k s a s') (hJ : Joined s) : Joined s' := by
  have hkeep : ∀ u, s.thread u = .exited → s'.thread u = .exited := fun u => exited_of_step h
  have hjoining : ∀ j, s.main = .joining j → ∀ t : Fin m, t.val < j → s'.thread t = .exited :=
    fun j hj t ht => hkeep t (hJ.joining j hj t ht)
  have hended : s.main = .ended → ∀ t, s'.thread t = .exited :=
    fun he t => hkeep t (hJ.ended he t)
  cases h with
  | enqueue hmain hi =>
    have hstop : ∀ t, s.thread t ≠ .exited :=
      fun t ht => hJ.stop (hJ.exited t ht).1 _ hmain
    exact ⟨fun hs => absurd hmain (hJ.stop hs _), fun t ht => absurd ht (hstop t), by simp,
      by simp⟩
  | destroyWorker => exact ⟨by simp, hJ.exited, by simp, by simp⟩
  | stop => exact ⟨by simp, fun t ht => ⟨rfl, (hJ.exited t ht).2⟩, by simp, by simp⟩
  | @join j hmain hj hexit =>
    refine ⟨by simp, hJ.exited, ?_, by simp⟩
    intro j' hj' t ht
    obtain rfl : j + 1 = j' := Main.joining.inj hj'
    rcases Nat.lt_succ_iff_lt_or_eq.mp ht with hlt | heq
    · exact hJ.joining j hmain t hlt
    · obtain rfl : t = ⟨j, hj⟩ := Fin.ext heq
      exact hexit
  | @joined j hmain hj =>
    exact ⟨by simp, hJ.exited, by simp,
      fun _ t => hJ.joining j hmain t (lt_of_lt_of_le t.isLt (not_lt.mp hj))⟩
  | take ht htasks =>
    refine ⟨hJ.stop, ?_, hjoining, hended⟩
    intro u hu
    have hempty := (hJ.exited u (exited_of_move (by simp) hu)).2
    exact absurd (hempty.symm.trans htasks) (by simp)
  | exit ht hstop htasks => exact ⟨hJ.stop, fun u _ => ⟨hstop, htasks⟩, hjoining, hended⟩
  | call | callFirst | callAgain | initResource =>
    exact ⟨hJ.stop, fun u hu => hJ.exited u (exited_of_move (by simp) hu), hjoining, hended⟩

theorem Joined.run (h : Run (Fires (Scope.step k)) (Scope.init m) as s) : Joined s :=
  h.invariant (fun _ _ _ hJ hst => hJ.step (stepCase_of_step hst))
    ⟨by simp [Scope.init], by simp [Scope.init], by simp [Scope.init], by simp [Scope.init]⟩

/-- At the end of the scope nothing is left. -/
theorem Joined.nothingLeft (hJ : Joined s) (hm : 0 < m) (hmain : s.main = .ended) :
    NothingLeft s := by
  have hexited := hJ.ended hmain
  refine ⟨(hJ.exited ⟨0, hm⟩ (hexited _)).2, ?_⟩
  intro t
  rw [hexited t]
  rfl

/-- **What is left when `w` is destroyed stays left until a task runs on it.** -/
theorem left_step (h : StepCase k s a s') (halive : s.alive = false) (hleft : ¬ NothingLeft s)
    (hs : ¬ UsesDestroyed s) (hs' : ¬ UsesDestroyed s') :
    s'.alive = false ∧ ¬ NothingLeft s' := by
  have hwork : ∀ t, (s.thread t).inWork = false := by
    intro t
    by_contra ht
    exact hs ⟨halive, t, by simpa using ht⟩
  cases h with
  | enqueue => exact ⟨halive, fun hn => absurd hn.1 (by simp)⟩
  | destroyWorker => exact ⟨rfl, hleft⟩
  | stop | join | joined => exact ⟨halive, hleft⟩
  | @take t =>
    refine ⟨halive, fun hn => ?_⟩
    have hbusy := hn.2 t
    simp [setThread, Thread.busy] at hbusy
  | @exit t ht _ htasks =>
    refine ⟨halive, fun hn => hleft ⟨htasks, ?_⟩⟩
    obtain ⟨-, hrest⟩ :=
      (Function.forall_update_iff s.thread fun _ p => p.busy = false).mp hn.2
    -- the thread that exits had no task either
    intro u
    rcases eq_or_ne u t with rfl | hut
    · rw [ht]
      rfl
    · exact hrest u hut
  | @call t i =>
    exact absurd ⟨halive, t, by simp [setThread, Thread.inWork]⟩ hs'
  | @callFirst t i ht | @callAgain t i ht | @initResource t i ht =>
    have hw := hwork t
    rw [ht] at hw
    exact absurd hw (by simp [Thread.inWork])

/-- The steps `as` lead through a state in which a task runs on the destroyed `Worker`. -/
def PassesUse (m k : ℕ) (as : List (Act m)) : Prop :=
  ∃ bs u, bs <+: as ∧ Run (Fires (Scope.step k)) (Scope.init m) bs u ∧ UsesDestroyed u

/-- Until a task runs on the destroyed `Worker`, either it was destroyed when nothing was left, or
something still is. -/
theorem passesUse_or (h : Run (Fires (Scope.step k)) (Scope.init m) as s) :
    PassesUse m k as ∨ Run (Restrict WhenNothingLeft (Fires (Scope.step k))) (Scope.init m) as s ∨
      (s.alive = false ∧ ¬ NothingLeft s) := by
  refine h.trace_invariant (I := fun as s => PassesUse m k as ∨
    Run (Restrict WhenNothingLeft (Fires (Scope.step k))) (Scope.init m) as s ∨
      (s.alive = false ∧ ¬ NothingLeft s)) (Or.inr (Or.inl Run.refl)) ?_
  rintro as s a s' hrun (⟨bs, u, hbs, hu⟩ | hrestricted | ⟨halive, hleft⟩) hst
  · exact Or.inl ⟨bs, u, hbs.trans (List.prefix_append _ _), hu⟩
  · by_cases hC : WhenNothingLeft s a
    · exact Or.inr (Or.inl (hrestricted.tail ⟨hC, hst⟩))
    · obtain ⟨rfl, hleft⟩ := Classical.not_imp.mp hC
      cases stepCase_of_step hst with
      | destroyWorker => exact Or.inr (Or.inr ⟨rfl, hleft⟩)
  · by_cases hs : UsesDestroyed s
    · exact Or.inl ⟨as, s, List.prefix_append _ _, hrun, hs⟩
    · by_cases hs' : UsesDestroyed s'
      · exact Or.inl ⟨_, s', List.prefix_rfl, hrun.tail hst, hs'⟩
      · exact Or.inr (Or.inr (left_step (stepCase_of_step hst) halive hleft hs hs'))

/-! ## 4. When the tasks do not outlive the worker -/

/-- **When no task outlives the `Worker`.**  Where `w` is destroyed only when no task is left, in
the queue or in the hands of a thread, no task ever runs on a destroyed `Worker`.  A run that
comes to the end of the scope, with a thread in the pool, is free of such tasks only then. -/
theorem tasks_run_alive_iff (m k : ℕ) :
    (∀ as s, Run (Restrict WhenNothingLeft (Fires (Scope.step k))) (Scope.init m) as s →
      ¬ UsesDestroyed s) ∧
    (0 < m → ∀ as s, Run (Fires (Scope.step k)) (Scope.init m) as s → s.main = .ended →
      ((∀ bs u, bs <+: as → Run (Fires (Scope.step k)) (Scope.init m) bs u → ¬ UsesDestroyed u) ↔
        Run (Restrict WhenNothingLeft (Fires (Scope.step k))) (Scope.init m) as s)) := by
  refine ⟨fun as s hrun => (Left.run hrun).not_usesDestroyed, ?_⟩
  intro hm as s hrun hmain
  constructor
  · intro hfree
    rcases passesUse_or hrun with ⟨bs, u, hbs, hu, huse⟩ | hrestricted | ⟨-, hleft⟩
    · exact absurd huse (hfree bs u hbs hu)
    · exact hrestricted
    · exact absurd ((Joined.run hrun).nothingLeft hm hmain) hleft
  · intro hrestricted bs u hbs hu
    obtain ⟨v, hv⟩ := hrestricted.exists_state_of_prefix hbs
    obtain rfl : u = v := hu.unique (hv.mono fun _ _ _ hst => hst.2)
    exact (Left.run hv).not_usesDestroyed

/-- One thread and one task, which is done before `w` is destroyed. -/
theorem tasks_run_alive_one :
    ∃ s, Run (Restrict WhenNothingLeft (Fires (Scope.step 1))) (Scope.init 1)
        [.enqueue, .take 0, .call 0, .callOnce 0, .initResource 0, .destroyWorker, .stop, .exit 0,
          .join, .join] s ∧ s.main = .ended ∧
      ∀ bs u, bs <+: [.enqueue, .take 0, .call 0, .callOnce 0, .initResource 0, .destroyWorker,
          .stop, .exit 0, .join, .join] →
        Run (Fires (Scope.step 1)) (Scope.init 1) bs u → ¬ UsesDestroyed u := by
  obtain ⟨s, hrun, hmain⟩ := exists_restricted_run_of_exec WhenNothingLeft (Scope.step 1)
    (Scope.init 1) [.enqueue, .take 0, .call 0, .callOnce 0, .initResource 0, .destroyWorker,
      .stop, .exit 0, .join, .join] (fun s => s.main = .ended) (by decide)
  obtain ⟨-, hiff⟩ := tasks_run_alive_iff 1 1
  have hfires := hrun.mono fun _ _ _ hst => hst.2
  exact ⟨s, hrun, hmain, (hiff (by decide) _ s hfires hmain).mpr hrun⟩

/-- **A task can outlive the `Worker`**: it is still in the queue when `w` is destroyed. -/
theorem task_outlives_worker :
    ¬ ∀ m k : ℕ, 0 < m → ∀ as s, Run (Fires (Scope.step k)) (Scope.init m) as s →
      ¬ UsesDestroyed s := by
  intro hall
  have hrun : Run (Fires (Scope.step 1)) (Scope.init 1)
      [.enqueue, .destroyWorker, .take 0, .call 0] _ := run_of_exec rfl
  exact hall 1 1 (by decide) _ _ hrun ⟨rfl, 0, rfl⟩

end Scope

end CxxConcurrency.Rwlocks
