/-
# The test case of `rwlocks/shared_mutex.cpp`

The test posts a task for each `i` to a thread pool, which reads the key `i`, computes `fib(i)` and
writes it to the key `i`.  Then it joins the pool and compares the size of the map and one entry.
Any thread of the pool may run any task that has not begun.

At the granularity of `Resource`, in which a write first inserts the key with the value 0, the test
passes in every order of the steps (`test_passes`): a task has its key to itself, so its `read`
finds nothing and returns `-1`; a thread that holds the lock can always go on and whoever waits for
it gets it in the end; and the map ends up with the entries of all tasks.
-/
import CxxConcurrency.Lib.Parties
import CxxConcurrency.Rwlocks.Resource
import Mathlib.Data.Fintype.Basic

namespace CxxConcurrency.Rwlocks

open CxxConcurrency.Lib

/-! ## 1. The test -/

/-- The task a thread runs, and the call of it that is next or in progress. -/
inductive ResourceTest.Job
  | read (i : ℤ)
  | write (i : ℤ)
  deriving DecidableEq

/-- The resource of the test, and the tasks. -/
structure ResourceTest (ι : Type*) where
  res : Resource ι
  /-- The tasks that have not begun. -/
  todo : Finset ℤ
  job : ι → Option ResourceTest.Job

namespace ResourceTest

/-- What a thread does in a step. -/
inductive Act
  /-- It begins the task `i`. -/
  | take (i : ℤ)
  /-- It takes a step in a call. -/
  | call (e : Resource.Event)
  deriving DecidableEq

/-- Whether the task is at the call that a step begins; `f` is `fib`. -/
def Allows (f : ℤ → ℤ) (j : Option Job) : Resource.Event → Prop
  | .lockShared k => j = some (.read k)
  | .lock k v => j = some (.write k) ∧ v = f k
  | _ => True

instance (f : ℤ → ℤ) (j : Option Job) : ∀ e, Decidable (Allows f j e)
  | .lockShared k => inferInstanceAs (Decidable (j = some (.read k)))
  | .lock k v => inferInstanceAs (Decidable (j = some (.write k) ∧ v = f k))
  | .find | .value | .returned _ _ | .subscript | .assign | .unlock _ _ => isTrue trivial

/-- The task after a step: where `read` returns it comes to `write`, and where `write` does it is
over. -/
def Job.after : Resource.Event → Option Job → Option Job
  | .returned k _, _ => some (.write k)
  | .unlock _ _, _ => none
  | _, j => j

variable {ι : Type*} [DecidableEq ι]

/-- The tasks have been posted. -/
def init (tasks : Finset ℤ) : ResourceTest ι := ⟨Resource.init, tasks, fun _ => none⟩

/-- One step of one thread. -/
def step (f : ℤ → ℤ) (s : ResourceTest ι) : ι × Act → Option (ResourceTest ι)
  | (t, .take i) =>
    if s.job t = none ∧ i ∈ s.todo then
      some { s with todo := s.todo.erase i, job := Function.update s.job t (some (.read i)) }
    else none
  | (t, .call e) =>
    if Allows f (s.job t) e then
      (s.res.step (t, e)).map fun r =>
        { s with res := r, job := Function.update s.job t (Job.after e (s.job t)) }
    else none

variable {f : ℤ → ℤ} {tasks : Finset ℤ} {s s' : ResourceTest ι} {a : ι × Act}
  {as : List (ι × Act)} {t u : ι} {m m' : ℤ → Option ℤ} {j j' : Option Job}
  {p p' : Resource.Pc}

/-- The cases of a step. -/
inductive StepCase (f : ℤ → ℤ) (s : ResourceTest ι) : ι × Act → ResourceTest ι → Prop
  | take {t : ι} {i : ℤ} (hjob : s.job t = none) (hi : i ∈ s.todo) :
      StepCase f s (t, .take i)
        { s with todo := s.todo.erase i, job := Function.update s.job t (some (.read i)) }
  | call {t : ι} {e : Resource.Event} {r : Resource ι} (he : Allows f (s.job t) e)
      (hst : Resource.StepCase s.res (t, e) r) :
      StepCase f s (t, .call e)
        { s with res := r, job := Function.update s.job t (Job.after e (s.job t)) }

/-- **Every step is one of the cases.** -/
theorem stepCase_of_step (h : s.step f a = some s') : StepCase f s a s' := by
  obtain ⟨t, a⟩ := a
  cases a with
  | take i =>
    obtain ⟨⟨hjob, hi⟩, h⟩ := Option.ite_none_right_eq_some.mp h
    obtain rfl := Option.some.inj h
    exact .take hjob hi
  | call e =>
    obtain ⟨he, h⟩ := Option.ite_none_right_eq_some.mp h
    obtain ⟨r, hr, rfl⟩ := Option.map_eq_some_iff.mp h
    exact .call he (Resource.stepCase_of_step hr)

/-! ## 2. The invariant -/

/-- The key of the task a thread runs. -/
def Job.key? : Option Job → Option ℤ
  | none => none
  | some (.read i) => some i
  | some (.write i) => some i

/-- Where a thread is in its task, and what its key has in the map. -/
def Agrees (f : ℤ → ℤ) (m : ℤ → Option ℤ) : Option Job → Resource.Pc → Prop
  | none, .idle => True
  | some (.read i), .idle => m i = none
  | some (.read i), .find k => k = i ∧ m i = none
  | some (.read i), .value k found => k = i ∧ found = false ∧ m i = none
  | some (.read i), .unlockShared k v => k = i ∧ v = -1 ∧ m i = none
  | some (.write i), .idle => m i = none
  | some (.write i), .subscript k v => k = i ∧ v = f i ∧ m i = none
  | some (.write i), .assign k v => k = i ∧ v = f i
  | some (.write i), .unlock k v => k = i ∧ v = f i ∧ m i = some (f i)
  | _, _ => False

/-- Only the key of the task matters. -/
theorem Agrees.congr (hm : ∀ i, Job.key? j = some i → m' i = m i) (h : Agrees f m j p) :
    Agrees f m' j p := by
  rcases j with _ | (i | i)
  · cases p <;> exact h
  all_goals
    have hi := hm i rfl
    cases p <;> simp_all [Agrees]

/-- A thread that runs no task is in no call. -/
theorem Agrees.idle (h : Agrees f m none p) : p = .idle := by
  cases p with
  | idle => rfl
  | _ => exact h.elim

/-- The tasks are not begun, run by one thread each, or done, and the map has the entries of those
that are done. -/
structure Inv (f : ℤ → ℤ) (tasks : Finset ℤ) (s : ResourceTest ι) : Prop where
  locked : Resource.Locked s.res
  agrees : ∀ t, Agrees f s.res.m (s.job t) (s.res.pc t)
  todo : s.todo ⊆ tasks
  key : ∀ t i, Job.key? (s.job t) = some i → i ∈ tasks ∧ i ∉ s.todo
  unique : ∀ t u i, Job.key? (s.job t) = some i → Job.key? (s.job u) = some i → t = u
  fresh : ∀ i, i ∈ s.todo ∨ i ∉ tasks → s.res.m i = none
  done : ∀ i ∈ tasks, i ∉ s.todo → (∀ t, Job.key? (s.job t) ≠ some i) → s.res.m i = some (f i)

omit [DecidableEq ι] in
theorem Inv.init : Inv f tasks (init tasks : ResourceTest ι) where
  locked := Resource.Locked.init
  agrees _ := trivial
  todo := subset_rfl
  key _ _ h := absurd h (by simp [ResourceTest.init, Job.key?])
  unique _ _ _ h := absurd h (by simp [ResourceTest.init, Job.key?])
  fresh _ _ := rfl
  done i hi hni := absurd hi hni

/-- **A step in a call**: it keeps to the key of the task, and where the task is over it has left
the entry. -/
theorem Inv.of_call (hI : Inv f tasks s) (hlocked : Resource.Locked s'.res)
    (htodo : s'.todo = s.todo) (hjob : s'.job = Function.update s.job t j')
    (hpc : ∀ u, u ≠ t → s'.res.pc u = s.res.pc u)
    (hm : ∀ i, Job.key? (s.job t) ≠ some i → s'.res.m i = s.res.m i)
    (hkey : Job.key? j' = Job.key? (s.job t) ∨
      j' = none ∧ ∀ i, Job.key? (s.job t) = some i → s'.res.m i = some (f i))
    (hagrees : Agrees f s'.res.m j' (s'.res.pc t)) : Inv f tasks s' := by
  have hkeys : ∀ u i, Job.key? (s'.job u) = some i → Job.key? (s.job u) = some i := by
    rw [hjob]
    intro u i hu
    rcases eq_or_ne u t with rfl | hut
    · rw [Function.update_self] at hu
      rcases hkey with heq | ⟨rfl, -⟩
      · rwa [heq] at hu
      · exact absurd hu (by simp [Job.key?])
    · rwa [Function.update_of_ne hut] at hu
  refine ⟨hlocked, fun u => ?_, htodo ▸ hI.todo, fun u i hu => htodo ▸ hI.key u i (hkeys u i hu),
    fun u w i hu hw => hI.unique u w i (hkeys u i hu) (hkeys w i hw), fun i hi => ?_,
    fun i hi hni hrun => ?_⟩
  · rcases eq_or_ne u t with rfl | hut
    · rw [hjob, Function.update_self]
      exact hagrees
    · rw [hjob, Function.update_of_ne hut, hpc u hut]
      -- the other threads have other keys
      exact (hI.agrees u).congr fun i hu => hm i fun ht => hut (hI.unique u t i hu ht)
  · rw [htodo] at hi
    refine (hm i fun ht => ?_).trans (hI.fresh i hi)
    obtain ⟨hmem, hnot⟩ := hI.key t i ht
    exact hi.elim hnot fun h => h hmem
  · rw [htodo] at hni
    by_cases ht : Job.key? (s.job t) = some i
    · rcases hkey with heq | ⟨-, hover⟩
      · refine absurd (heq.trans ht) ?_
        have hrun' := hrun t
        rwa [hjob, Function.update_self] at hrun'
      · exact hover i ht
    · rw [hm i ht]
      refine hI.done i hi hni fun u => ?_
      rcases eq_or_ne u t with rfl | hut
      · exact ht
      · have hrun' := hrun u
        rwa [hjob, Function.update_of_ne hut] at hrun'

/-- A thread that begins a task. -/
theorem Inv.take (hI : Inv f tasks s) {i : ℤ} (hjob : s.job t = none) (hi : i ∈ s.todo) :
    Inv f tasks { s with
      todo := s.todo.erase i, job := Function.update s.job t (some (.read i)) } := by
  have hidle : s.res.pc t = .idle := (hjob ▸ hI.agrees t).idle
  have hkeys : ∀ u k, Job.key? (Function.update s.job t (some (.read i)) u) = some k →
      u = t ∧ k = i ∨ u ≠ t ∧ Job.key? (s.job u) = some k := by
    intro u k hu
    rcases eq_or_ne u t with rfl | hut
    · rw [Function.update_self] at hu
      exact Or.inl ⟨rfl, (Option.some.inj hu).symm⟩
    · rw [Function.update_of_ne hut] at hu
      exact Or.inr ⟨hut, hu⟩
  refine ⟨hI.locked, fun u => ?_, (Finset.erase_subset _ _).trans hI.todo, fun u k hu => ?_,
    fun u w k hu hw => ?_, fun k hk => ?_, fun k hk hnk hrun => ?_⟩
  · change Agrees f s.res.m (Function.update s.job t (some (.read i)) u) (s.res.pc u)
    rcases eq_or_ne u t with rfl | hut
    · rw [Function.update_self, hidle]
      exact hI.fresh i (Or.inl hi)
    · rw [Function.update_of_ne hut]
      exact hI.agrees u
  · rcases hkeys u k hu with ⟨rfl, rfl⟩ | ⟨-, hold⟩
    · exact ⟨hI.todo hi, Finset.notMem_erase k s.todo⟩
    · obtain ⟨hmem, hnot⟩ := hI.key u k hold
      exact ⟨hmem, fun h => hnot (Finset.mem_of_mem_erase h)⟩
  · rcases hkeys u k hu with ⟨rfl, rfl⟩ | ⟨-, hold⟩ <;>
      rcases hkeys w k hw with ⟨rfl, hki⟩ | ⟨-, hold'⟩
    · rfl
    · exact absurd hi (hI.key w k hold').2
    · exact absurd hi (hki ▸ (hI.key u k hold).2)
    · exact hI.unique u w k hold hold'
  · exact hI.fresh k (hk.imp_left fun h => Finset.mem_of_mem_erase h)
  · rcases eq_or_ne k i with rfl | hki
    · refine absurd ?_ (hrun t)
      change Job.key? (Function.update s.job t (some (.read k)) t) = some k
      rw [Function.update_self]
      rfl
    · refine hI.done k hk (fun h => hnk (Finset.mem_erase.mpr ⟨hki, h⟩)) fun u => ?_
      rcases eq_or_ne u t with rfl | hut
      · rw [hjob]
        simp [Job.key?]
      · have hrun' : Job.key? (Function.update s.job t (some (.read i)) u) ≠ some k := hrun u
        rwa [Function.update_of_ne hut] at hrun'

/-- **What a step in a call does**, by the call the task is at. -/
theorem call_spec {r : Resource ι} {e : Resource.Event} (he : Allows f j e)
    (hst : Resource.StepCase s.res (t, e) r) (ht : Agrees f s.res.m j (s.res.pc t)) :
    (∀ i, Job.key? j ≠ some i → r.m i = s.res.m i) ∧
      (Job.key? (Job.after e j) = Job.key? j ∨
        Job.after e j = none ∧ ∀ i, Job.key? j = some i → r.m i = some (f i)) ∧
      Agrees f r.m (Job.after e j) (r.pc t) := by
  cases hst with
  | lockShared hpc hlock =>
    obtain rfl := he
    rw [hpc] at ht
    refine ⟨fun _ _ => rfl, Or.inl rfl, ?_⟩
    simpa [Resource.setPc, Job.after, Agrees] using ht
  | find hpc =>
    rw [hpc] at ht
    rcases j with _ | (i | i)
    · exact ht.elim
    · obtain ⟨rfl, hnone⟩ := ht
      exact ⟨fun _ _ => rfl, Or.inl rfl, by simp [Resource.setPc, Job.after, Agrees, hnone]⟩
    · exact ht.elim
  | hit hpc hm =>
    rw [hpc] at ht
    rcases j with _ | (i | i)
    · exact ht.elim
    · exact absurd ht.2.1 (by simp)
    · exact ht.elim
  | miss hpc =>
    rw [hpc] at ht
    rcases j with _ | (i | i)
    · exact ht.elim
    · obtain ⟨rfl, -, hnone⟩ := ht
      exact ⟨fun _ _ => rfl, Or.inl rfl, by simp [Resource.setPc, Job.after, Agrees, hnone]⟩
    · exact ht.elim
  | returned hpc hlock =>
    rw [hpc] at ht
    rcases j with _ | (i | i)
    · exact ht.elim
    · obtain ⟨rfl, -, hnone⟩ := ht
      exact ⟨fun _ _ => rfl, Or.inl rfl, by simp [Resource.setPc, Job.after, Agrees, hnone]⟩
    · exact ht.elim
  | lock hpc hlock =>
    obtain ⟨rfl, rfl⟩ := he
    rw [hpc] at ht
    refine ⟨fun _ _ => rfl, Or.inl rfl, ?_⟩
    simpa [Resource.setPc, Job.after, Agrees] using ht
  | present hpc hm =>
    rw [hpc] at ht
    rcases j with _ | (i | i)
    · exact ht.elim
    · exact ht.elim
    · obtain ⟨rfl, -, hnone⟩ := ht
      exact absurd hm (by simp [hnone])
  | absent hpc hm =>
    rw [hpc] at ht
    rcases j with _ | (i | i)
    · exact ht.elim
    · exact ht.elim
    · obtain ⟨rfl, rfl, hnone⟩ := ht
      refine ⟨fun i hi => Function.update_of_ne (fun h => hi (by rw [h]; rfl)) _ _, Or.inl rfl, ?_⟩
      simp [Resource.setPc, Job.after, Agrees]
  | assign hpc =>
    rw [hpc] at ht
    rcases j with _ | (i | i)
    · exact ht.elim
    · exact ht.elim
    · obtain ⟨rfl, rfl⟩ := ht
      refine ⟨fun i hi => Function.update_of_ne (fun h => hi (by rw [h]; rfl)) _ _, Or.inl rfl, ?_⟩
      simp [Resource.setPc, Resource.setEntry, Job.after, Agrees]
  | unlock hpc hlock =>
    rw [hpc] at ht
    rcases j with _ | (i | i)
    · exact ht.elim
    · exact ht.elim
    · obtain ⟨rfl, rfl, hsome⟩ := ht
      refine ⟨fun _ _ => rfl, Or.inr ⟨rfl, fun i hi => ?_⟩, ?_⟩
      · obtain rfl := Option.some.inj hi
        exact hsome
      · simp [Resource.setPc, Job.after, Agrees]

/-- **One step.** -/
theorem Inv.step (h : StepCase f s a s') (hI : Inv f tasks s) : Inv f tasks s' := by
  cases h with
  | take hjob hi => exact hI.take hjob hi
  | @call t e r he hst =>
    obtain ⟨hm, hkey, hagrees⟩ := call_spec he hst (hI.agrees t)
    exact hI.of_call (hI.locked.step hst) rfl rfl (fun u hu => Resource.pc_of_ne hst hu) hm hkey
      hagrees

/-- **Every run.** -/
theorem Inv.run (h : Run (Fires (ResourceTest.step f)) (ResourceTest.init tasks) as s) :
    Inv f tasks s :=
  h.invariant (fun _ _ _ hI hst => hI.step (stepCase_of_step hst)) Inv.init

/-! ## 3. The steps that are left -/

/-- The steps a thread has left in its task. -/
def left : Option Job → Resource.Pc → ℕ
  | none, _ => 0
  | some (.read _), .find _ => 7
  | some (.read _), .value _ _ => 6
  | some (.read _), .unlockShared _ _ => 5
  | some (.read _), _ => 8
  | some (.write _), .subscript _ _ => 3
  | some (.write _), .assign _ _ => 2
  | some (.write _), .unlock _ _ => 1
  | some (.write _), _ => 4

/-- A step in a call takes one. -/
theorem left_call {r : Resource ι} {e : Resource.Event} (he : Allows f j e)
    (hst : Resource.StepCase s.res (t, e) r) (ht : Agrees f s.res.m j (s.res.pc t)) :
    left (Job.after e j) (r.pc t) + 1 = left j (s.res.pc t) := by
  cases hst with
  | lockShared hpc | lock hpc =>
    simp_all [Allows, Resource.setPc, Job.after, left]
  | find hpc | hit hpc | miss hpc | returned hpc | present hpc | absent hpc | assign hpc
  | unlock hpc =>
    rw [hpc] at ht ⊢
    rcases j with _ | (i | i) <;>
      simp_all [Agrees, Resource.setPc, Resource.setEntry, Job.after, left]

variable [Fintype ι]

/-- The steps that are left. -/
def stepsLeft (s : ResourceTest ι) : ℕ := 9 * s.todo.card + ∑ t, left (s.job t) (s.res.pc t)

/-- **A step takes one.** -/
theorem stepsLeft_step (h : StepCase f s a s') (hI : Inv f tasks s) :
    s'.stepsLeft + 1 = s.stepsLeft := by
  cases h with
  | @take t i hjob hi =>
    have hidle : s.res.pc t = .idle := (hjob ▸ hI.agrees t).idle
    have hsum := sum_add_of_ne (f := fun u => left (s.job u) (s.res.pc u))
      (g := fun u => left (Function.update s.job t (some (.read i)) u) (s.res.pc u)) t
      fun u hu => by rw [Function.update_of_ne hu]
    have hcard := Finset.card_erase_add_one hi
    have hbefore : left (s.job t) (s.res.pc t) = 0 := by rw [hjob]; rfl
    have hafter : left (some (.read i)) (s.res.pc t) = 8 := by rw [hidle]; rfl
    simp only [Function.update_self] at hsum
    simp only [stepsLeft]
    omega
  | @call t e r he hst =>
    have hleft := left_call he hst (hI.agrees t)
    have hsum := sum_add_of_ne (f := fun u => left (s.job u) (s.res.pc u))
      (g := fun u => left (Function.update s.job t (Job.after e (s.job t)) u) (r.pc u)) t
      fun u hu => by rw [Function.update_of_ne hu, Resource.pc_of_ne hst hu]
    simp only [Function.update_self] at hsum
    simp only [stepsLeft]
    omega

/-! ## 4. The test passes -/

omit [Fintype ι] in
/-- A thread that has locked can take the next step of its call. -/
theorem Inv.exists_step_of_inside (hI : Inv f tasks s) (hpc : s.res.pc t ≠ .idle) :
    ∃ a, (s.step f a).isSome = true := by
  obtain ⟨hlocked, hagrees, -⟩ := hI
  have ht := hagrees t
  have hcan : ∀ e, Allows f (s.job t) e → (s.res.step (t, e)).isSome = true →
      ∃ a, (s.step f a).isSome = true := fun e he hst =>
    ⟨(t, .call e), by simpa [ResourceTest.step, he] using hst⟩
  cases hp : s.res.pc t with
  | idle => exact absurd hp hpc
  | find k => exact hcan .find trivial (by simp [Resource.step, hp])
  | value k found =>
    refine hcan .value trivial ?_
    rw [hp] at ht
    rcases hj : s.job t with _ | (i | i) <;> rw [hj] at ht
    · exact ht.elim
    · obtain ⟨-, rfl, -⟩ := ht
      simp [Resource.step, hp]
    · exact ht.elim
  | unlockShared k v =>
    have hmem : t ∈ s.res.shm.shared := (hlocked.shared t).mpr (by rw [hp]; rfl)
    exact hcan (.returned k v) trivial
      (by simp [Resource.step, hp, SharedMutex.unlockShared?, hmem])
  | subscript k v => exact hcan .subscript trivial (by simp [Resource.step, hp])
  | assign k v => exact hcan .assign trivial (by simp [Resource.step, hp])
  | unlock k v =>
    have howner : s.res.shm.exclusive = some t := (hlocked.exclusive t).mpr (by rw [hp]; rfl)
    exact hcan (.unlock k v) trivial (by simp [Resource.step, hp, SharedMutex.unlock?, howner])

omit [Fintype ι] in
/-- Where nobody can go on, the tasks are done: a thread that waits for the lock would get it. -/
theorem Inv.done_of_stuck [Nonempty ι] (hI : Inv f tasks s) (hstuck : ∀ a, s.step f a = none) :
    s.todo = ∅ ∧ ∀ t, s.job t = none := by
  have hidle : ∀ t, s.res.pc t = .idle := fun t => by
    by_contra hpc
    obtain ⟨a, ha⟩ := hI.exists_step_of_inside hpc
    rw [hstuck a] at ha
    exact absurd ha (by simp)
  have hshared : s.res.shm.shared = ∅ := Finset.eq_empty_iff_forall_notMem.mpr fun t ht =>
    absurd ((hI.locked.shared t).mp ht) (by simp [hidle, Resource.Pc.read?])
  have hexclusive : s.res.shm.exclusive = none := Option.eq_none_iff_forall_ne_some.mpr fun t ht =>
    absurd ((hI.locked.exclusive t).mp ht) (by simp [hidle, Resource.Pc.write?])
  have hjob : ∀ t, s.job t = none := fun t => by
    rcases hj : s.job t with _ | (i | i)
    · rfl
    · have hnone := hstuck (t, .call (.lockShared i))
      exact absurd hnone (by simp [ResourceTest.step, Allows, hj, Resource.step, hidle,
        SharedMutex.lockShared?, hexclusive])
    · have hnone := hstuck (t, .call (.lock i (f i)))
      exact absurd hnone (by simp [ResourceTest.step, Allows, hj, Resource.step, hidle,
        SharedMutex.lock?, hexclusive, hshared])
  refine ⟨Finset.eq_empty_iff_forall_notMem.mpr fun i hi => ?_, hjob⟩
  obtain ⟨t⟩ := ‹Nonempty ι›
  have hnone := hstuck (t, .take i)
  exact absurd hnone (by simp [ResourceTest.step, hjob, hi])

omit [Fintype ι] [DecidableEq ι] in
/-- When the tasks are done the map has their entries. -/
theorem Inv.m_of_done (hI : Inv f tasks s) (htodo : s.todo = ∅) (hjob : ∀ t, s.job t = none)
    (i : ℤ) : s.res.m i = if i ∈ tasks then some (f i) else none := by
  split
  · rename_i hi
    exact hI.done i hi (by simp [htodo]) fun t => by simp [hjob, Job.key?]
  · rename_i hi
    exact hI.fresh i (Or.inr hi)

/-- **The test passes.**  Whatever the order of the steps: each `read` returns `-1`; no run has more
than nine steps for each task; where nobody can go on all tasks are done; and then the map has the
entries of the tasks and no others. -/
theorem test_passes [Nonempty ι] (h : Run (Fires (ResourceTest.step f)) (init tasks) as s) :
    (∀ t k v, (s.step f (t, .call (.returned k v))).isSome = true → v = -1) ∧
      as.length ≤ 9 * tasks.card ∧
      ((∀ a, s.step f a = none) → s.todo = ∅ ∧ ∀ t, s.job t = none) ∧
      (s.todo = ∅ → (∀ t, s.job t = none) →
        ∀ i, s.res.m i = if i ∈ tasks then some (f i) else none) := by
  have hI := Inv.run h
  refine ⟨fun t k v hst => ?_, ?_, hI.done_of_stuck, hI.m_of_done⟩
  · obtain ⟨s', hs'⟩ := Option.isSome_iff_exists.mp hst
    cases stepCase_of_step hs' with
    | call he hstep =>
      cases hstep with
      | returned hpc =>
        have ht := hI.agrees t
        rw [hpc] at ht
        rcases hj : s.job t with _ | (i | i) <;> rw [hj] at ht
        · exact ht.elim
        · exact ht.2.1
        · exact ht.elim
  · have hle := h.length_add_le (I := Inv f tasks) (m := stepsLeft)
      (fun _ _ _ hI hst => hI.step (stepCase_of_step hst))
      (fun _ _ _ hI hst => Nat.lt_of_succ_le (stepsLeft_step (stepCase_of_step hst) hI).le)
      Inv.init
    have hstart : (init tasks : ResourceTest ι).stepsLeft = 9 * tasks.card := by
      simp [stepsLeft, init, left]
    omega

/-- Two threads run the tasks 0 and 1: both read, then thread 1 writes, and then thread 0. -/
theorem test_passes_two :
    ∃ as s, Run (Fires (ResourceTest.step (ι := Fin 2) fun i => i + 5)) (init {0, 1}) as s ∧
      s.res.m 1 = some 6 := by
  obtain ⟨s, hrun, htodo, hjob⟩ := exists_run_of_exec
    (ResourceTest.step (ι := Fin 2) fun i => i + 5) (init {0, 1})
    [(0, .take 0), (1, .take 1), (0, .call (.lockShared 0)), (1, .call (.lockShared 1)),
      (0, .call .find), (1, .call .find), (0, .call .value), (0, .call (.returned 0 (-1))),
      (1, .call .value), (1, .call (.returned 1 (-1))), (1, .call (.lock 1 6)),
      (1, .call .subscript), (1, .call .assign), (1, .call (.unlock 1 6)), (0, .call (.lock 0 5)),
      (0, .call .subscript), (0, .call .assign), (0, .call (.unlock 0 5))]
    (fun s => s.todo = ∅ ∧ ∀ t, s.job t = none) (by decide)
  exact ⟨_, s, hrun, ((test_passes hrun).2.2.2 htodo hjob 1).trans (by decide)⟩

end ResourceTest

end CxxConcurrency.Rwlocks
