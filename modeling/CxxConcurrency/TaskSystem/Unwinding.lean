/-
# A construction that fails, in `task_stealing.cpp` and `local_task_queue.cpp`

The constructors of both pools start one thread for each queue, and starting a thread can throw.
The exception leaves the constructor through the destructors of the queues built so far, and
`~Queue` joins the thread of its queue.  Pills are sent by `~Pool` or by the loop over `done()`
after the construction, and neither runs.

`Construction` is this path over any kind of queues and workers (`Workers`): threads start until
one fails, then the queues are destroyed, in any order, while the threads that have started run.
Where workers stay in their loops as long as nobody adds to the queues (`Quiet`), as those of both
pools do, the exception gets out exactly where no thread has started (`unwinds_iff`).
-/
import CxxConcurrency.TaskSystem.LocalQueue
import CxxConcurrency.TaskSystem.Stealing.Pool
import Mathlib.Data.Fintype.Card

namespace CxxConcurrency.TaskSystem

open CxxConcurrency.Lib

/-! ## 1. The path of the exception -/

/-- `n` queues and their workers. -/
structure Workers (n : ℕ) where
  State : Type
  /-- No thread has started. -/
  init : State
  /-- The next step of worker `i`. -/
  workNext : State → Fin n → Option State
  tasks : State → Fin n → Fifo Task
  /-- The thread function of worker `i` has returned. -/
  exited : State → Fin n → Bool
  /-- `~Queue` of queue `i` returns. -/
  release : State → Fin n → State

/-- Where the constructing thread is. -/
inductive Phase (n : ℕ)
  /-- In the constructor, about to start thread `i`. -/
  | starting (i : ℕ)
  /-- The exception is on its way, between two destructors. -/
  | unwinding
  /-- In `~Queue` of queue `i`. -/
  | joining (i : Fin n)
  /-- The exception has left the constructor. -/
  | unwound
  deriving DecidableEq

/-- How many threads have started, where the start of thread `k` fails. -/
def Phase.started {n : ℕ} (k : ℕ) : Phase n → ℕ
  | .starting i => i
  | _ => k

/-- A pool under construction. -/
structure Construction {n : ℕ} (W : Workers n) where
  workers : W.State
  phase : Phase n
  /-- The queues whose destructor has returned. -/
  destroyed : Fin n → Bool

namespace Construction

variable {n : ℕ}

/-- The label of a step. -/
inductive Act (n : ℕ)
  /-- A thread starts. -/
  | start
  /-- The start of a thread throws. -/
  | fail
  /-- `~Queue` of queue `i` is called. -/
  | destroy (i : Fin n)
  /-- `~Queue` returns, after the thread of its queue has ended, if it has one. -/
  | joined
  /-- All queues are destroyed, and the exception leaves the constructor. -/
  | leave
  /-- Worker `i` takes its next step. -/
  | work (i : Fin n)

/-- The constructor begins. -/
def begin (W : Workers n) : Construction W := ⟨W.init, .starting 0, fun _ => false⟩

/-- One step, where the start of thread `k` throws and the first `built` queues are built then. -/
def step (W : Workers n) (k built : ℕ) (s : Construction W) : Act n → Option (Construction W)
  | .start =>
    match s.phase with
    | .starting i => if i < k then some { s with phase := .starting (i + 1) } else none
    | _ => none
  | .fail => if s.phase = .starting k then some { s with phase := .unwinding } else none
  | .destroy i =>
    if s.phase = .unwinding ∧ i.val < built ∧ s.destroyed i = false then
      some { s with phase := .joining i }
    else none
  | .joined =>
    match s.phase with
    | .joining i =>
      if k ≤ i.val ∨ W.exited s.workers i = true then
        some ⟨W.release s.workers i, .unwinding, Function.update s.destroyed i true⟩
      else none
    | _ => none
  | .leave =>
    if s.phase = .unwinding ∧ ∀ i : Fin n, i.val < built → s.destroyed i = true then
      some { s with phase := .unwound }
    else none
  | .work i =>
    if i.val < s.phase.started k then
      (W.workNext s.workers i).map fun w => { s with workers := w }
    else none

variable {W : Workers n} {k built : ℕ} {s s' : Construction W} {a : Act n} {as : List (Act n)}

/-- The cases of a step. -/
inductive StepCase (k built : ℕ) (s : Construction W) : Act n → Construction W → Prop
  | start {i : ℕ} (hphase : s.phase = .starting i) (hi : i < k) :
      StepCase k built s .start { s with phase := .starting (i + 1) }
  | fail (hphase : s.phase = .starting k) :
      StepCase k built s .fail { s with phase := .unwinding }
  | destroy {i : Fin n} (hphase : s.phase = .unwinding) (hi : i.val < built)
      (hd : s.destroyed i = false) :
      StepCase k built s (.destroy i) { s with phase := .joining i }
  | joined {i : Fin n} (hphase : s.phase = .joining i)
      (hexit : k ≤ i.val ∨ W.exited s.workers i = true) :
      StepCase k built s .joined
        ⟨W.release s.workers i, .unwinding, Function.update s.destroyed i true⟩
  | leave (hphase : s.phase = .unwinding)
      (hall : ∀ i : Fin n, i.val < built → s.destroyed i = true) :
      StepCase k built s .leave { s with phase := .unwound }
  | work {i : Fin n} {w : W.State} (hi : i.val < s.phase.started k)
      (hw : W.workNext s.workers i = some w) :
      StepCase k built s (.work i) { s with workers := w }

/-- **Every step is one of the cases.** -/
theorem stepCase_of_step (h : s.step W k built a = some s') : StepCase k built s a s' := by
  cases a with
  | start =>
    simp only [step] at h
    split at h
    · rename_i i hphase
      split at h
      · rename_i hi
        obtain rfl := Option.some.inj h
        exact .start hphase hi
      · exact absurd h (by simp)
    · exact absurd h (by simp)
  | fail =>
    simp only [step] at h
    split at h
    · rename_i hphase
      obtain rfl := Option.some.inj h
      exact .fail hphase
    · exact absurd h (by simp)
  | destroy i =>
    simp only [step] at h
    split at h
    · rename_i hc
      obtain rfl := Option.some.inj h
      exact .destroy hc.1 hc.2.1 hc.2.2
    · exact absurd h (by simp)
  | joined =>
    simp only [step] at h
    split at h
    · rename_i i hphase
      split at h
      · rename_i hexit
        obtain rfl := Option.some.inj h
        exact .joined hphase hexit
      · exact absurd h (by simp)
    · exact absurd h (by simp)
  | leave =>
    simp only [step] at h
    split at h
    · rename_i hc
      obtain rfl := Option.some.inj h
      exact .leave hc.1 hc.2
    · exact absurd h (by simp)
  | work i =>
    simp only [step] at h
    split at h
    · rename_i hi
      obtain ⟨w, hw, rfl⟩ := Option.map_eq_some_iff.mp h
      exact .work hi hw
    · exact absurd h (by simp)

/-- `~Queue` waits for a worker that has not exited, whose queue holds no pill and will never be
given one. -/
def Stuck (k built : ℕ) (s : Construction W) : Prop :=
  ∃ i : Fin n, s.phase = .joining i ∧ i.val < k ∧ W.exited s.workers i = false ∧
    ∀ as s', Run (Fires (step W k built)) s as s' → makePoisonPill ∉ (W.tasks s'.workers i).items

/-- However the workers run, no destructor is stuck, and the exception can get out. -/
def Unwinds (W : Workers n) (k built : ℕ) : Prop :=
  ∀ as s, Run (Fires (step W k built)) (begin W) as s →
    ¬ Stuck k built s ∧ ∃ bs s', Run (Fires (step W k built)) s bs s' ∧ s'.phase = .unwound

/-! ## 2. Workers that stay in their loops -/

/-- As long as nobody adds to the queues, they are empty and no worker exits; `I` is the invariant
that says so. -/
structure Quiet (W : Workers n) (I : W.State → Prop) : Prop where
  init : I W.init
  work : ∀ s i s', I s → W.workNext s i = some s' → I s'
  release : ∀ s i, I s → I (W.release s i)
  exited : ∀ s i, I s → W.exited s i = false
  tasks : ∀ s i, I s → (W.tasks s i).items = []

variable {I : W.State → Prop}

/-- The constructing thread adds to no queue. -/
theorem Quiet.step (hQ : Quiet W I) (h : StepCase k built s a s') (hI : I s.workers) :
    I s'.workers := by
  cases h with
  | joined => exact hQ.release _ _ hI
  | work hi hw => exact hQ.work _ _ _ hI hw
  | start | fail | destroy | leave => exact hI

theorem Quiet.run (hQ : Quiet W I) (h : Run (Fires (Construction.step W k built)) s as s')
    (hI : I s.workers) : I s'.workers :=
  h.invariant (fun _ _ _ hI hst => hQ.step (stepCase_of_step hst) hI) hI

/-- No queue whose thread has started is destroyed, and the exception does not get out. -/
def Held (k : ℕ) (s : Construction W) : Prop :=
  s.phase ≠ .unwound ∧ ∀ i : Fin n, i.val < k → s.destroyed i = false

/-- **Every step keeps the queues with a thread.** -/
theorem Held.step (hQ : Quiet W I) (hI : I s.workers) (hkn : k < n) (hk : 0 < k)
    (hkb : k ≤ built) (h : StepCase k built s a s') (hH : Held k s) : Held k s' := by
  obtain ⟨hphase, hkeep⟩ := hH
  cases h with
  | start | fail | destroy => exact ⟨by simp, hkeep⟩
  | @joined i _ hexit =>
    have hi : k ≤ i.val := hexit.resolve_right (by rw [hQ.exited _ _ hI]; simp)
    refine ⟨by simp, ?_⟩
    intro j hj
    have hji : j ≠ i := by
      rintro rfl
      omega
    exact (Function.update_of_ne hji _ _).trans (hkeep j hj)
  | leave _ hall =>
    -- queue 0 has a thread, so it is not destroyed
    have hzero := hkeep ⟨0, by omega⟩ hk
    rw [hall ⟨0, by omega⟩ (hk.trans_le hkb)] at hzero
    exact absurd hzero (by simp)
  | work => exact ⟨hphase, hkeep⟩

/-- **Where a thread has started, the exception never gets out.** -/
theorem Quiet.held (hQ : Quiet W I) (hkn : k < n) (hk : 0 < k) (hkb : k ≤ built)
    (h : Run (Fires (Construction.step W k built)) (begin W) as s) : Held k s := by
  refine h.trace_invariant (I := fun _ s => Held k s) ⟨by simp [begin], fun _ _ => rfl⟩ ?_
  intro as s a s' hrun hH hst
  exact hH.step hQ (hQ.run hrun hQ.init) hkn hk hkb (stepCase_of_step hst)

/-- The threads start one after the other. -/
theorem run_start (W : Workers n) (k built : ℕ) {j : ℕ} (hj : j ≤ k) :
    Run (Fires (step W k built)) (begin W) (List.replicate j .start)
      { begin W with phase := .starting j } := by
  induction j with
  | zero => exact Run.refl
  | succ j ih =>
    rw [List.replicate_succ']
    refine (ih (by omega)).tail ?_
    simp [Fires, step, Nat.lt_of_succ_le hj]

/-- **Where a thread has started, a destructor is stuck.** -/
theorem Quiet.exists_stuck (hQ : Quiet W I) (hkn : k < n) (hk : 0 < k) (hkb : k ≤ built) :
    ∃ as s, Run (Fires (Construction.step W k built)) (begin W) as s ∧ Stuck k built s := by
  have hfail : Fires (Construction.step W k built) { begin W with phase := .starting k } .fail
      { begin W with phase := .unwinding } := by simp [Fires, Construction.step]
  have hdestroy : Fires (Construction.step W k built) { begin W with phase := .unwinding }
      (.destroy ⟨0, by omega⟩) { begin W with phase := .joining ⟨0, by omega⟩ } := by
    have hb : 0 < built := by omega
    simp [Fires, Construction.step, begin, hb]
  have hrun := ((run_start W k built le_rfl).tail hfail).tail hdestroy
  refine ⟨_, _, hrun, ⟨0, by omega⟩, rfl, hk, hQ.exited _ _ hQ.init, ?_⟩
  intro bs s' hrest
  rw [hQ.tasks _ _ (hQ.run hrest hQ.init)]
  exact List.not_mem_nil

/-! ## 3. A construction whose first thread fails -/

/-- The queues that are built and not destroyed. -/
def left (built : ℕ) (s : Construction W) : Finset (Fin n) :=
  Finset.univ.filter fun i => i.val < built ∧ s.destroyed i = false

/-- Where no thread has started, the destructors return one after the other. -/
theorem exists_unwound_of_unwinding (built : ℕ) (hphase : s.phase = .unwinding) :
    ∃ bs s', Run (Fires (step W 0 built)) s bs s' ∧ s'.phase = .unwound := by
  generalize hc : (left built s).card = c
  induction c generalizing s with
  | zero =>
    have hall : ∀ i : Fin n, i.val < built → s.destroyed i = true := by
      intro i hi
      have hnone : i ∉ left built s := by
        rw [Finset.card_eq_zero.mp hc]
        exact Finset.notMem_empty i
      simpa [left, hi] using hnone
    have hleave : Fires (step W 0 built) s .leave { s with phase := .unwound } := by
      unfold Fires step
      exact if_pos ⟨hphase, hall⟩
    exact ⟨_, _, Run.single hleave, rfl⟩
  | succ c ih =>
    obtain ⟨i, hi⟩ := Finset.card_pos.mp (show 0 < (left built s).card by omega)
    obtain ⟨-, hb, hd⟩ := Finset.mem_filter.mp hi
    let s₁ : Construction W := { s with phase := .joining i }
    let s₂ : Construction W :=
      ⟨W.release s.workers i, .unwinding, Function.update s.destroyed i true⟩
    have hdestroy : Fires (step W 0 built) s (.destroy i) s₁ := by
      unfold Fires step
      exact if_pos ⟨hphase, hb, hd⟩
    have hjoined : Fires (step W 0 built) s₁ .joined s₂ := by
      unfold Fires step
      exact if_pos (Or.inl (Nat.zero_le _))
    have hleft : left built s₂ = (left built s).erase i := by
      ext j
      by_cases hji : j = i
      · subst hji
        simp [left, s₂]
      · simp [left, s₂, hji]
    obtain ⟨bs, s', hrest, hend⟩ := ih (s := s₂) rfl (by
      rw [hleft, Finset.card_erase_of_mem hi, hc, Nat.add_sub_cancel])
    exact ⟨_, s', ((Run.single hdestroy).tail hjoined).append hrest, hend⟩

/-- Threads up to the one that fails have started. -/
theorem started_le (h : Run (Fires (step W k built)) (begin W) as s) : s.phase.started k ≤ k := by
  refine h.invariant (I := fun s => s.phase.started k ≤ k) ?_ (Nat.zero_le k)
  intro s a s' hs hst
  cases stepCase_of_step hst with
  | start hphase hi => exact hi
  | work => exact hs
  | fail | destroy | joined | leave => exact le_rfl

theorem unwinds_zero (W : Workers n) (built : ℕ) : Unwinds W 0 built := by
  intro as s hrun
  refine ⟨fun ⟨i, _, hi, _⟩ => absurd hi (Nat.not_lt_zero _), ?_⟩
  have hle := started_le hrun
  cases hphase : s.phase with
  | starting i =>
    rw [hphase] at hle
    obtain rfl : i = 0 := Nat.le_zero.mp hle
    have hfail : Fires (step W 0 built) s .fail { s with phase := .unwinding } := by
      unfold Fires step
      exact if_pos hphase
    obtain ⟨bs, s', hrest, hend⟩ :=
      exists_unwound_of_unwinding built (s := { s with phase := .unwinding }) rfl
    exact ⟨_, s', (Run.single hfail).append hrest, hend⟩
  | unwinding => exact exists_unwound_of_unwinding built hphase
  | joining i =>
    have hjoined : Fires (step W 0 built) s .joined
        ⟨W.release s.workers i, .unwinding, Function.update s.destroyed i true⟩ := by
      unfold Fires step
      rw [hphase]
      exact if_pos (Or.inl (Nat.zero_le _))
    obtain ⟨bs, s', hrest, hend⟩ := exists_unwound_of_unwinding built
      (s := ⟨W.release s.workers i, .unwinding, Function.update s.destroyed i true⟩) rfl
    exact ⟨_, s', (Run.single hjoined).append hrest, hend⟩
  | unwound => exact ⟨[], s, Run.refl, hphase⟩

/-- **When a failing construction unwinds**: exactly where the first thread fails. -/
theorem Quiet.unwinds_iff (hQ : Quiet W I) (hkn : k < n) (hkb : k ≤ built) :
    Unwinds W k built ↔ k = 0 := by
  constructor
  · intro hU
    by_contra hk
    obtain ⟨as, s, hrun, hstuck⟩ := hQ.exists_stuck hkn (Nat.pos_of_ne_zero hk) hkb
    exact (hU as s hrun).1 hstuck
  · rintro rfl
    exact unwinds_zero W built

end Construction

/-! ## 4. The two pools -/

/-- The queues of `Pool` in `task_stealing.cpp`; `siblingIdx` is the static cursor of
`chooseSibling` when the constructor begins. -/
def Workers.pool (n siblingIdx : ℕ) : Workers n where
  State := Stealing.Pool n
  init := Stealing.Pool.init n siblingIdx 0
  workNext := Stealing.Pool.workNext
  tasks := Stealing.Pool.tasks
  exited s i := s.worker i = .exited
  release s i := { s with alive := Function.update s.alive i false }

/-- The queues of `test_pool` in `local_task_queue.cpp`. -/
def Workers.testPool (n : ℕ) : Workers n where
  State := Local.TestPool n
  init := Local.TestPool.init n
  workNext := Local.TestPool.workNext
  tasks := Local.TestPool.tasks
  exited s i := s.worker i = .exited
  release s _ := s

/-- **The workers of `Pool` stay in their loops**: with all queues empty they pop nothing, from
their own queue or another. -/
theorem Workers.pool_quiet (n siblingIdx : ℕ) : Construction.Quiet (Workers.pool n siblingIdx)
    fun s => (∀ i, (s.tasks i).items = []) ∧
      ∀ i, s.worker i = .top ∨ s.worker i = .empty ∨ ∃ p, s.worker i = .steal p where
  init := ⟨fun _ => rfl, fun _ => Or.inl rfl⟩
  work := by
    rintro s i s' ⟨hitems, hworker⟩ hst
    have hpop : ∀ {j t q}, (s.tasks j).pop? ≠ some (t, q) := by
      intro j t q hsome
      rw [Fifo.pop?_eq_none_iff.mpr (hitems j)] at hsome
      exact absurd hsome (by simp)
    have hmove : ∀ w : Stealing.Worker n, (w = .top ∨ w = .empty ∨ ∃ p, w = .steal p) →
        ∀ j, Function.update s.worker i w j = .top ∨ Function.update s.worker i w j = .empty ∨
          ∃ p, Function.update s.worker i w j = .steal p := by
      intro w hw
      exact (Function.forall_update_iff s.worker
        fun _ w => w = .top ∨ w = .empty ∨ ∃ p, w = .steal p).mpr ⟨hw, fun j _ => hworker j⟩
    have hnot : ∀ t, s.worker i ≠ .got t ∧ s.worker i ≠ .stole t := by
      intro t
      rcases hworker i with hw | hw | ⟨p, hw⟩ <;> rw [hw] <;> simp
    cases Stealing.stepCase_of_workNext hst with
    | popOwn _ _ hsome => exact absurd hsome hpop
    | popSibling _ _ hsome => exact absurd hsome hpop
    | exit hw => exact absurd hw (hnot _).1
    | runOwn hw => exact absurd hw (hnot _).1
    | runStolen hw => exact absurd hw (hnot _).2
    | dropStolen hw => exact absurd hw (hnot _).2
    | popOwnNone => exact ⟨hitems, hmove _ (Or.inr (Or.inl rfl))⟩
    | chooseNone => exact ⟨hitems, hmove _ (Or.inl rfl)⟩
    | choose => exact ⟨hitems, hmove _ (Or.inr (Or.inr ⟨_, rfl⟩))⟩
    | popSiblingNone => exact ⟨hitems, hmove _ (Or.inl rfl)⟩
  release _ _ h := h
  exited := by
    rintro s i ⟨-, hworker⟩
    refine decide_eq_false ?_
    rcases hworker i with hw | hw | ⟨p, hw⟩ <;> rw [hw] <;> simp
  tasks _ i h := h.1 i

/-- **The workers of `test_pool` stay in their loops.** -/
theorem Workers.testPool_quiet (n : ℕ) : Construction.Quiet (Workers.testPool n)
    fun s => (∀ i, (s.tasks i).items = []) ∧ ∀ i, s.worker i = .top where
  init := ⟨fun _ => rfl, fun _ => rfl⟩
  work := by
    rintro s i s' ⟨hitems, hworker⟩ hst
    have hcase : Local.StepCase 0 s (.work i) s' := Local.stepCase_of_step (k := 0) hst
    cases hcase with
    | @pop _ t q _ hsome =>
      rw [Fifo.pop?_eq_none_iff.mpr (hitems i)] at hsome
      exact absurd hsome (by simp)
    | popNone => exact ⟨hitems, hworker⟩
    | exit hw => exact absurd ((hworker i).symm.trans hw) (by simp)
    | run hw => exact absurd ((hworker i).symm.trans hw) (by simp)
  release _ _ h := h
  exited := by
    rintro s i ⟨-, hworker⟩
    refine decide_eq_false ?_
    rw [hworker i]
    simp
  tasks _ i h := h.1 i

/-- **When a failing construction unwinds**: for both pools exactly where it is the first thread
that fails to start.  Where another one fails, the exception gets out in no run. -/
theorem construction_unwinds_iff {n k : ℕ} (hk : k < n) (siblingIdx : ℕ) :
    (Construction.Unwinds (Workers.pool n siblingIdx) k n ↔ k = 0) ∧
    (Construction.Unwinds (Workers.testPool n) k k ↔ k = 0) ∧
    (0 < k →
      (∀ as s, Run (Fires (Construction.step (Workers.pool n siblingIdx) k n))
        (Construction.begin _) as s → s.phase ≠ .unwound) ∧
      ∀ as s, Run (Fires (Construction.step (Workers.testPool n) k k))
        (Construction.begin _) as s → s.phase ≠ .unwound) := by
  have hpool := Workers.pool_quiet n siblingIdx
  have htest := Workers.testPool_quiet n
  refine ⟨hpool.unwinds_iff hk hk.le, htest.unwinds_iff hk le_rfl, ?_⟩
  intro hpos
  refine ⟨?_, ?_⟩
  · intro as s hrun
    exact (hpool.held hk hpos hk.le hrun).1
  · intro as s hrun
    exact (htest.held hk hpos le_rfl hrun).1

/-- Of three threads the second fails to start. -/
theorem construction_unwinds_iff_three :
    ¬ Construction.Unwinds (Workers.pool 3 0) 1 3 ∧
      ¬ Construction.Unwinds (Workers.testPool 3) 1 1 := by
  obtain ⟨hpool, htest, -⟩ := construction_unwinds_iff (n := 3) (k := 1) (by decide) 0
  exact ⟨fun h => absurd (hpool.mp h) (by decide), fun h => absurd (htest.mp h) (by decide)⟩

/-- **A construction can hang**: of two threads the second fails to start, and the destructor of
queue 0 waits for the first. -/
theorem construction_hangs :
    ¬ ∀ n k : ℕ, k < n → Construction.Unwinds (Workers.pool n 0) k n ∧
      Construction.Unwinds (Workers.testPool n) k k := by
  intro hall
  obtain ⟨as, s, hrun, hstuck⟩ :=
    (Workers.pool_quiet 2 0).exists_stuck (show 1 < 2 by decide) one_pos (show 1 ≤ 2 by decide)
  exact ((hall 2 1 (by decide)).1 as s hrun).1 hstuck

end CxxConcurrency.TaskSystem
