/-
# `init_resource` runs once, and the scope of `rwlocks/call_once.cpp` ends

Where the `Worker` is destroyed only when no task is left, its tasks run as the file says.  At most
one thread is ever in `init_resource`, while the flag says so, and from its end on the flag says
`called` (`Once.Inv`); every task that has been enqueued is in the queue, in the hands of a thread,
or has been called once (`Counted`).  The threads that come to `std::call_once` meanwhile wait for
the one in `init_resource`, which can always go on; so nobody waits forever, and `~ThreadPool`
returns (`init_resource_once`).

In the other runs a task can run on a `Worker` that is gone (`Rwlocks.CallOnce`).
-/
import CxxConcurrency.Lib.Parties
import CxxConcurrency.Rwlocks.CallOnce
import Mathlib.Algebra.Order.BigOperators.Group.Finset

namespace CxxConcurrency.Rwlocks.Scope

open CxxConcurrency.Lib

variable {m k : ℕ} {s s' : Scope m} {a : Act m} {as : List (Act m)}

/-! ## 1. Counting the threads and the steps -/

/-- A call of `init_resource` returns. -/
def inits : Act m → Bool
  | .initResource _ => true
  | _ => false

/-- A task is called. -/
def calls : Act m → Bool
  | .call _ => true
  | _ => false

/-- Whether a thread is in `init_resource`. -/
def Thread.initialising : Thread → ℕ
  | .initResource _ => 1
  | _ => 0

/-- Whether a thread is at `std::call_once`. -/
def Thread.asking : Thread → ℕ
  | .callOnce _ => 1
  | _ => 0

/-- Whether a thread has a task that it has not called. -/
def Thread.holding : Thread → ℕ
  | .got _ => 1
  | _ => 0

/-- What a move of thread `t` does to a count of the threads. -/
theorem sum_setThread (w : Thread → ℕ) (s : Scope m) (t : Fin m) (p : Thread) :
    (∑ u, w ((s.setThread t p).thread u)) + w (s.thread t) = (∑ u, w (s.thread u)) + w p :=
  sum_update_add s.thread w t p

/-- A move of thread `t` between two places that count the same. -/
theorem sum_setThread_eq (w : Thread → ℕ) {t : Fin m} {p q : Thread} (ht : s.thread t = q)
    (hw : w p = w q) : (∑ u, w ((s.setThread t p).thread u)) = ∑ u, w (s.thread u) := by
  have hsum := sum_setThread w s t p
  rw [ht, hw] at hsum
  exact Nat.add_right_cancel hsum

/-! ## 2. What the flag says -/

/-- What the flag says of the threads and of the steps so far. -/
structure Once.Inv (as : List (Act m)) (s : Scope m) : Prop where
  running : ∑ t, (s.thread t).initialising = if s.flag = .running then 1 else 0
  called : as.countP inits = if s.flag = .called then 1 else 0
  resource : s.alive = true → (s.resource = true ↔ s.flag = .called)
  /-- Before anybody is in `init_resource`, every task that has been called is at the flag. -/
  asking : s.flag = .notCalled → as.countP calls = ∑ t, (s.thread t).asking
  passed : s.flag ≠ .notCalled → 0 < as.countP calls

theorem Once.Inv.init : Once.Inv [] (Scope.init m) where
  running := Finset.sum_eq_zero fun _ _ => rfl
  called := rfl
  resource := by simp [Scope.init]
  asking _ := (Finset.sum_eq_zero fun _ _ => rfl).symm
  passed hf := absurd rfl hf

/-- A thread counts in the sum over all. -/
theorem le_sum_thread (w : Thread → ℕ) (s : Scope m) (t : Fin m) :
    w (s.thread t) ≤ ∑ u, w (s.thread u) :=
  Finset.single_le_sum (f := fun u => w (s.thread u)) (fun _ _ => Nat.zero_le _)
    (Finset.mem_univ t)

/-- **Every step keeps this.** -/
theorem Once.Inv.step (h : StepCase k s a s') (hI : Once.Inv as s) :
    Once.Inv (as ++ [a]) s' := by
  obtain ⟨hrunning, hcalled, hresource, hasking, hpassed⟩ := hI
  have hmono : 0 < as.countP calls → 0 < (as ++ [a]).countP calls := by
    intro hpos
    rw [countP_append_singleton]
    exact Nat.add_pos_left hpos _
  cases h with
  | enqueue | stop | join | joined =>
    exact ⟨hrunning, by rw [countP_append_singleton, hcalled]; rfl, hresource,
      fun hf => by rw [countP_append_singleton, hasking hf]; rfl, hmono ∘ hpassed⟩
  | destroyWorker =>
    exact ⟨hrunning, by rw [countP_append_singleton, hcalled]; rfl, nofun,
      fun hf => by rw [countP_append_singleton, hasking hf]; rfl, hmono ∘ hpassed⟩
  | take ht | exit ht =>
    refine ⟨Eq.trans (sum_setThread_eq Thread.initialising ht rfl) hrunning,
      by rw [countP_append_singleton, hcalled]; rfl, hresource, fun hf => ?_, hmono ∘ hpassed⟩
    rw [countP_append_singleton, hasking hf]
    exact Eq.symm (sum_setThread_eq Thread.asking ht rfl)
  | @call t i ht =>
    refine ⟨Eq.trans (sum_setThread_eq Thread.initialising ht rfl) hrunning,
      by rw [countP_append_singleton, hcalled]; rfl, hresource, fun hf => ?_, hmono ∘ hpassed⟩
    have hsum := sum_setThread Thread.asking s t (.callOnce i)
    rw [ht] at hsum
    rw [countP_append_singleton, hasking hf]
    exact hsum.symm
  | @callFirst t i ht hflag =>
    have hsum := sum_setThread Thread.initialising s t (.initResource i)
    have hle := le_sum_thread Thread.asking s t
    rw [ht, hrunning, hflag] at hsum
    rw [ht, ← hasking hflag] at hle
    refine ⟨hsum, ?_, ?_, fun hf => absurd hf (by simp), fun _ => hmono hle⟩
    · rw [countP_append_singleton, hcalled, hflag]
      rfl
    · rw [hflag] at hresource
      simpa [setThread] using hresource
  | @callAgain t i ht hflag =>
    refine ⟨Eq.trans (sum_setThread_eq Thread.initialising ht rfl) hrunning,
      by rw [countP_append_singleton, hcalled]; rfl, hresource, fun hf => ?_, hmono ∘ hpassed⟩
    exact absurd (hflag.symm.trans hf) (by simp)
  | @initResource t i ht =>
    have hsum := sum_setThread Thread.initialising s t .top
    have hle := le_sum_thread Thread.initialising s t
    rw [ht] at hsum hle
    -- the thread is in `init_resource`, so the flag says `running`
    have hflag : s.flag = .running := by
      by_contra hne
      rw [hrunning, if_neg hne] at hle
      exact absurd hle (Nat.not_succ_le_zero 0)
    rw [hrunning, hflag] at hsum
    refine ⟨Nat.add_right_cancel hsum, ?_, by simp, fun hf => absurd hf (by simp),
      fun _ => hmono (hpassed (by simp [hflag]))⟩
    rw [countP_append_singleton, hcalled, hflag]
    rfl

theorem Once.Inv.run (h : Run (Fires (Scope.step k)) (Scope.init m) as s) : Once.Inv as s :=
  h.trace_invariant Once.Inv.init fun _ _ _ _ _ hI hst => hI.step (stepCase_of_step hst)

/-! ## 3. Where the tasks are -/

/-- How many of `k` tasks have been enqueued. -/
def Main.enqueued (k : ℕ) : Main → ℕ
  | .enqueuing i => i
  | _ => k

/-- Where the tasks are that have been enqueued. -/
structure Counted (k : ℕ) (as : List (Act m)) (s : Scope m) : Prop where
  enqueuing : ∀ i, s.main = .enqueuing i → i ≤ k
  tasks : as.countP calls + s.tasks.length + ∑ t, (s.thread t).holding = s.main.enqueued k
  stopped : ∀ j, s.main = .joining j → s.stop = true

theorem Counted.init : Counted k [] (Scope.init m) where
  enqueuing i hi := by
    obtain rfl := Main.enqueuing.inj hi
    exact Nat.zero_le k
  tasks := (congrArg (0 + 0 + ·) (Finset.sum_eq_zero fun _ _ => rfl)).trans rfl
  stopped j hj := absurd hj (by simp [Scope.init])

/-- **Every step keeps this.** -/
theorem Counted.step (h : StepCase k s a s') (hI : Counted k as s) : Counted k (as ++ [a]) s' := by
  obtain ⟨henqueuing, htasks, hstopped⟩ := hI
  cases h with
  | @enqueue i hmain hi =>
    rw [hmain] at htasks
    refine ⟨fun j hj => ?_, ?_, by simp⟩
    · obtain rfl := Main.enqueuing.inj hj
      exact hi
    · rw [countP_append_singleton, List.length_append]
      change as.countP calls + 0 + (s.tasks.length + 1) + (∑ u, (s.thread u).holding) = i + 1
      change _ = i at htasks
      omega
  | @destroyWorker i hmain hi =>
    obtain rfl : i = k := le_antisymm (henqueuing i hmain) (not_lt.mp hi)
    rw [hmain] at htasks
    exact ⟨by simp, by rw [countP_append_singleton]; exact htasks, by simp⟩
  | stop hmain =>
    rw [hmain] at htasks
    exact ⟨by simp, by rw [countP_append_singleton]; exact htasks, fun _ _ => rfl⟩
  | join hmain =>
    rw [hmain] at htasks
    exact ⟨by simp, by rw [countP_append_singleton]; exact htasks, fun _ _ => hstopped _ hmain⟩
  | joined hmain =>
    rw [hmain] at htasks
    exact ⟨by simp, by rw [countP_append_singleton]; exact htasks, by simp⟩
  | @take t i rest ht hcons =>
    have hsum := sum_setThread Thread.holding s t (.got i)
    rw [ht] at hsum
    change _ + 0 = _ + 1 at hsum
    rw [hcons, List.length_cons] at htasks
    refine ⟨henqueuing, ?_, hstopped⟩
    rw [countP_append_singleton]
    change as.countP calls + 0 + rest.length +
      (∑ u, ((s.setThread t (.got i)).thread u).holding) = s.main.enqueued k
    omega
  | exit ht | callFirst ht | callAgain ht | initResource ht =>
    refine ⟨henqueuing, ?_, hstopped⟩
    rw [countP_append_singleton]
    exact Eq.trans (congrArg (as.countP calls + s.tasks.length + ·)
      (sum_setThread_eq Thread.holding ht rfl)) htasks
  | @call t i ht =>
    have hsum := sum_setThread Thread.holding s t (.callOnce i)
    rw [ht] at hsum
    change _ + 1 = _ + 0 at hsum
    refine ⟨henqueuing, ?_, hstopped⟩
    rw [countP_append_singleton]
    change as.countP calls + 1 + s.tasks.length +
      (∑ u, ((s.setThread t (.callOnce i)).thread u).holding) = s.main.enqueued k
    omega

theorem Counted.run (h : Run (Fires (Scope.step k)) (Scope.init m) as s) : Counted k as s :=
  h.trace_invariant Counted.init fun _ _ _ _ _ hI hst => hI.step (stepCase_of_step hst)

/-! ## 4. How many steps are left -/

/-- The steps that a thread has left, and one for its exit. -/
def Thread.left : Thread → ℕ
  | .top => 1
  | .got _ => 4
  | .callOnce _ => 3
  | .initResource _ => 2
  | .exited => 0

/-- The steps that the main thread has left, with those of the tasks it has yet to enqueue. -/
def Main.left (m k : ℕ) : Main → ℕ
  | .enqueuing i => 5 * (k - i) + m + 3
  | .stopping => m + 2
  | .joining j => m - j + 1
  | .ended => 0

/-- The steps that are left. -/
def left (k : ℕ) (s : Scope m) : ℕ :=
  4 * s.tasks.length + (∑ t, (s.thread t).left) + s.main.left m k

theorem sum_left_lt {t : Fin m} {p q : Thread} (ht : s.thread t = q) (hpq : p.left < q.left) :
    ∑ u, ((s.setThread t p).thread u).left < ∑ u, (s.thread u).left := by
  have hsum := sum_setThread Thread.left s t p
  rw [ht] at hsum
  omega

/-- **Every step takes from the steps that are left.** -/
theorem left_lt (h : StepCase k s a s') : s'.left k < s.left k := by
  cases h with
  | @enqueue i hmain hi =>
    simp only [left, hmain, Main.left, List.length_append, List.length_singleton]
    omega
  | @destroyWorker i hmain hi =>
    simp only [left, hmain, Main.left]
    omega
  | stop hmain | joined hmain =>
    simp only [left, hmain, Main.left]
    omega
  | @join j hmain hj hexit =>
    simp only [left, hmain, Main.left]
    omega
  | @take t i rest ht hcons =>
    have hsum := sum_setThread Thread.left s t (.got i)
    rw [ht] at hsum
    change _ + 1 = _ + 4 at hsum
    change 4 * rest.length + (∑ u, ((s.setThread t (.got i)).thread u).left) + s.main.left m k < _
    simp only [left, hcons, List.length_cons]
    omega
  | exit ht | call ht | callFirst ht | callAgain ht | initResource ht =>
    exact Nat.add_lt_add_right (Nat.add_lt_add_left
      (sum_left_lt ht (by simp [Thread.left])) (4 * s.tasks.length)) (s.main.left m k)

theorem left_init : left k (Scope.init m) = 5 * k + 2 * m + 3 := by
  have hthreads : (∑ t, ((Scope.init m).thread t).left) = m := by
    change (∑ _t : Fin m, 1) = m
    rw [Finset.sum_const_nat fun _ _ => rfl, Finset.card_univ, Fintype.card_fin, Nat.mul_one]
  rw [left, hthreads]
  change 0 + m + (5 * (k - 0) + m + 3) = _
  omega

/-- A run of the scope has at most `5 * k + 2 * m + 3` steps. -/
theorem length_le (h : Run (Fires (Scope.step k)) (Scope.init m) as s) :
    as.length ≤ 5 * k + 2 * m + 3 := by
  have hle := h.length_add_le (I := fun _ => True) (m := left k) (fun _ _ _ _ _ => trivial)
    (fun _ _ _ _ hst => left_lt (stepCase_of_step hst)) trivial
  rw [left_init] at hle
  omega

/-! ## 5. How the scope ends -/

/-- While the flag says `running` some thread is in `init_resource`. -/
theorem Once.Inv.exists_initialising (hI : Once.Inv as s) (hflag : s.flag = .running) :
    ∃ t i, s.thread t = .initResource i := by
  have hsum := hI.running
  rw [hflag, if_pos rfl] at hsum
  by_contra hnone
  have hzero : ∑ t, (s.thread t).initialising = 0 := by
    refine Finset.sum_eq_zero fun t _ => ?_
    cases ht : s.thread t with
    | initResource i => exact absurd ⟨t, i, ht⟩ hnone
    | top | got | callOnce | exited => rfl
  omega

/-- A thread that has a task can go on, or another can. -/
theorem exists_busy_step (hO : Once.Inv as s) {t : Fin m} (ht : (s.thread t).busy = true) :
    ∃ a, a ≠ .destroyWorker ∧ s.step k a ≠ none := by
  cases hpc : s.thread t with
  | got i => exact ⟨.call t, by simp, by simp [step, hpc]⟩
  | callOnce i =>
    cases hflag : s.flag with
    | notCalled | called => exact ⟨.callOnce t, by simp, by simp [step, hpc, hflag]⟩
    | running =>
      -- the thread waits for the one in `init_resource`
      obtain ⟨u, j, hu⟩ := hO.exists_initialising hflag
      exact ⟨.initResource u, by simp, by simp [step, hu]⟩
  | initResource i => exact ⟨.initResource t, by simp, by simp [step, hpc]⟩
  | top | exited =>
    rw [hpc] at ht
    exact absurd ht (by simp [Thread.busy])

/-- A thread that has not exited can go on, or another can. -/
theorem exists_thread_step (hO : Once.Inv as s) (hstop : s.stop = true) {t : Fin m}
    (ht : s.thread t ≠ .exited) : ∃ a, a ≠ .destroyWorker ∧ s.step k a ≠ none := by
  cases hpc : s.thread t with
  | top =>
    cases htasks : s.tasks with
    | nil => exact ⟨.exit t, by simp, by simp [step, hpc, hstop, htasks]⟩
    | cons i rest => exact ⟨.take t, by simp, by simp [step, hpc, htasks]⟩
  | got | callOnce | initResource => exact exists_busy_step hO (by rw [hpc]; rfl)
  | exited => exact absurd hpc ht

/-- Where a task is left and the pool has a thread, somebody can go on. -/
theorem exists_step_of_left (hO : Once.Inv as s) (hJ : Joined s) (hm : 0 < m) {i : ℕ}
    (hmain : s.main = .enqueuing i) (hleft : ¬ NothingLeft s) :
    ∃ a, a ≠ .destroyWorker ∧ s.step k a ≠ none := by
  by_cases hbusy : ∃ t, (s.thread t).busy = true
  · obtain ⟨t, ht⟩ := hbusy
    exact exists_busy_step hO ht
  · -- every thread waits for a task, and there is one in the queue
    have hidle : ∀ t, (s.thread t).busy = false := fun t =>
      eq_false_of_ne_true fun ht => hbusy ⟨t, ht⟩
    have htop : s.thread ⟨0, hm⟩ = .top := by
      have hfree := hidle ⟨0, hm⟩
      cases hpc : s.thread ⟨0, hm⟩ with
      | top => rfl
      | exited => exact absurd hmain (hJ.stop (hJ.exited _ hpc).1 i)
      | got | callOnce | initResource =>
        rw [hpc] at hfree
        exact absurd hfree (by simp [Thread.busy])
    cases htasks : s.tasks with
    | nil => exact absurd ⟨htasks, hidle⟩ hleft
    | cons i rest => exact ⟨.take ⟨0, hm⟩, by simp, by simp [step, htop, htasks]⟩

/-- **Where nobody can go on the scope has ended**, or `w` is about to be destroyed. -/
theorem ended_of_stuck (hO : Once.Inv as s) (hC : Counted k as s)
    (hS : ∀ a, a ≠ .destroyWorker → s.step k a = none) :
    s.main = .ended ∨ ∃ i, s.main = .enqueuing i ∧ ¬ i < k := by
  cases hmain : s.main with
  | enqueuing i =>
    refine Or.inr ⟨i, rfl, fun hi => ?_⟩
    have hnone := hS .enqueue (by simp)
    simp only [step, hmain] at hnone
    rw [if_pos hi] at hnone
    exact absurd hnone (by simp)
  | stopping =>
    have hnone := hS .stop (by simp)
    simp only [step, hmain] at hnone
    exact absurd hnone (by simp)
  | joining j =>
    have hnone := hS .join (by simp)
    simp only [step, hmain] at hnone
    split at hnone
    · rename_i hj
      split at hnone
      · exact absurd hnone (by simp)
      · rename_i hexit
        obtain ⟨a, hne, ha⟩ := exists_thread_step (k := k) hO (hC.stopped j hmain) hexit
        exact absurd (hS a hne) ha
    · exact absurd hnone (by simp)
  | ended => exact Or.inl rfl

/-- Where nobody can go on who keeps `w` until no task is left, the scope of a pool with a thread
has ended. -/
theorem ended_of_careful_stuck (hO : Once.Inv as s) (hC : Counted k as s) (hJ : Joined s)
    (hm : 0 < m) (hS : ∀ a, WhenNothingLeft s a → s.step k a = none) : s.main = .ended := by
  have hother : ∀ a, a ≠ .destroyWorker → s.step k a = none := fun a hne =>
    hS a fun ha => absurd ha hne
  rcases ended_of_stuck hO hC hother with hended | ⟨i, hmain, hi⟩
  · exact hended
  · by_cases hleft : NothingLeft s
    · have hnone := hS .destroyWorker fun _ => hleft
      simp only [step, hmain] at hnone
      rw [if_neg hi] at hnone
      exact absurd hnone (by simp)
    · obtain ⟨a, hne, ha⟩ := exists_step_of_left (k := k) hO hJ hm hmain hleft
      exact absurd (hother a hne) ha

/-- At the end of the scope every task has been called, and `init_resource` has run if there was
one. -/
theorem counts_of_ended (hO : Once.Inv as s) (hC : Counted k as s) (hJ : Joined s) (hm : 0 < m)
    (hmain : s.main = .ended) : as.countP calls = k ∧ as.countP inits = min k 1 := by
  obtain ⟨hempty, -⟩ := hJ.nothingLeft hm hmain
  have hexited := hJ.ended hmain
  have hzero : ∀ w : Thread → ℕ, w .exited = 0 → (∑ t, w (s.thread t)) = 0 :=
    fun w hw => Finset.sum_eq_zero fun t _ => by rw [hexited t, hw]
  have hcalls : as.countP calls = k := by
    have htasks := hC.tasks
    rw [hempty, hmain, hzero Thread.holding rfl] at htasks
    exact htasks
  refine ⟨hcalls, ?_⟩
  cases hflag : s.flag with
  | notCalled =>
    have hnone := hO.asking hflag
    rw [hzero Thread.asking rfl] at hnone
    have hinits := hO.called
    rw [hflag] at hinits
    change _ = 0 at hinits
    omega
  | running =>
    have hrunning := hO.running
    rw [hflag, hzero Thread.initialising rfl] at hrunning
    exact absurd hrunning (by simp)
  | called =>
    have hinits := hO.called
    rw [hflag, if_pos rfl] at hinits
    have hpos := hO.passed (by simp [hflag])
    omega

/-- While `w` is there a call of `work` returns only with the resource made. -/
theorem resource_of_return (hO : Once.Inv as s) (h : StepCase k s a s') (halive : s.alive = true)
    {t : Fin m} (ht : (s.thread t).inWork = true) (ht' : (s'.thread t).inWork = false) :
    s'.resource = true := by
  have hmove : ∀ {u : Fin m} {p : Thread}, t ≠ u →
      ((s.setThread u p).thread t).inWork = (s.thread t).inWork := fun hne =>
    congrArg Thread.inWork (Function.update_of_ne hne _ _)
  cases h with
  | enqueue | destroyWorker | stop | join | joined =>
    exact absurd (ht.symm.trans ht') (by simp)
  | @callAgain u i hu hflag => exact (hO.resource halive).mpr hflag
  | initResource => rfl
  | @take u i _ hu | @exit u hu | @call u i hu =>
    have hne : t ≠ u := by
      rintro rfl
      rw [hu] at ht
      exact absurd ht (by simp [Thread.inWork])
    exact absurd (ht.symm.trans ((hmove hne).symm.trans ht')) (by simp)
  | @callFirst u i hu hflag =>
    by_cases hne : t = u
    · subst hne
      exact absurd ht' (by simp [setThread, Thread.inWork])
    · exact absurd (ht.symm.trans ((hmove hne).symm.trans ht')) (by simp)

/-- **`init_resource` runs once, and the scope ends.**  In every run of a scope with `m` threads
and `k` tasks in which `w` is destroyed only when no task is left: `init_resource` has returned at
most once; a call of `work` returns only after that, with `w` there and the resource made; the run
is bounded; and if the pool has a thread, such a run that gets no further has left the scope, every
task has been called and `init_resource` has run if there was a task. -/
theorem init_resource_once
    (h : Run (Restrict WhenNothingLeft (Fires (Scope.step k))) (Scope.init m) as s) :
    as.countP inits ≤ 1 ∧
      (∀ a s' t, s.step k a = some s' → (s.thread t).inWork = true →
        (s'.thread t).inWork = false → s.alive = true ∧ s'.resource = true) ∧
      as.length ≤ 5 * k + 2 * m + 3 ∧
      (0 < m → (∀ a, WhenNothingLeft s a → s.step k a = none) → s.main = .ended) ∧
      (s.main = .ended → 0 < m → as.countP calls = k ∧ as.countP inits = min k 1) := by
  have hrun := h.mono fun _ _ _ hst => hst.2
  have hO := Once.Inv.run hrun
  have hC := Counted.run hrun
  have hJ := Joined.run hrun
  refine ⟨?_, fun a s' t hst ht ht' => ?_, length_le hrun,
    fun hm hS => ended_of_careful_stuck hO hC hJ hm hS, fun hmain hm => ?_⟩
  · rw [hO.called]
    split <;> decide
  · have halive : s.alive = true := by
      by_contra hne
      exact (Left.run h).not_usesDestroyed ⟨eq_false_of_ne_true hne, t, ht⟩
    exact ⟨halive, resource_of_return hO (stepCase_of_step hst) halive ht ht'⟩
  · exact counts_of_ended hO hC hJ hm hmain

/-- Two threads come to the flag; the second waits for the first, and `w` is destroyed when both
have returned. -/
theorem init_resource_once_two :
    ∃ as s, Run (Restrict WhenNothingLeft (Fires (Scope.step 2))) (Scope.init 2) as s ∧
      s.main = .ended ∧ as.countP calls = 2 ∧ as.countP inits = min 2 1 := by
  obtain ⟨s, hrun, hmain⟩ := exists_restricted_run_of_exec WhenNothingLeft (Scope.step 2)
    (Scope.init 2) [.enqueue, .enqueue, .take 0, .take 1, .call 0, .call 1, .callOnce 0,
      .initResource 0, .callOnce 1, .destroyWorker, .stop, .exit 0, .exit 1, .join, .join, .join]
    (fun s => s.main = .ended) (by decide)
  exact ⟨_, s, hrun, hmain, (init_resource_once hrun).2.2.2.2 hmain (by decide)⟩

end CxxConcurrency.Rwlocks.Scope
