/-
# `FuturePool::do_work` when works throw

`pool.front().get()` uses the future up and then rethrows the exception of its work, before
`pool.pop_front()`: the used future stays at the front, and the next `do_work` calls `get()` on
it, which has no defined outcome.

Until that happens nothing in the pool depends on how a work has ended.  So the steps of the pool
are those of a pool whose works all return (`StepCase.forget`), and what `Abs` says of the window
holds.  The first `get()` that throws leaves `do_work` `max_size` calls after its work was
submitted, and it is the last (`Failed`).
-/
import CxxConcurrency.Pools.FuturePool

namespace CxxConcurrency.Pools

open CxxConcurrency.Lib

/-! ## 1. Forgetting how the works ended -/

namespace Handles

variable {d d' : Handles} {o : Outcome}

/-- The deque, with every work that has finished taken to have returned. -/
def forget (d : Handles) : Handles :=
  { d with outcome := fun k => (d.outcome k).map fun _ => .normal }

/-- What waiting for the front does: it uses up the handle, whose work has ended. -/
theorem waitFront_eq_some (h : d.waitFront = some (o, d')) :
    ∃ x rest, d.pool = x :: rest ∧ x.valid = true ∧ d.outcome x.work = some o ∧
      d' = { d with pool := ⟨x.work, false⟩ :: rest, joined := d.joined ++ [x.work] } := by
  unfold Handles.waitFront at h
  split at h
  · exact absurd h (by simp)
  · rename_i x rest hpool
    split at h
    · rename_i hvalid
      obtain ⟨o', ho, heq⟩ := Option.map_eq_some_iff.mp h
      obtain ⟨rfl, rfl⟩ := Prod.mk.inj heq
      exact ⟨x, rest, hpool, hvalid, ho, rfl⟩
    · exact absurd h (by simp)

theorem forget_waitFront (h : d.waitFront = some (o, d')) :
    d.forget.waitFront = some (.normal, d'.forget) := by
  obtain ⟨x, rest, hpool, hvalid, ho, rfl⟩ := waitFront_eq_some h
  simp [Handles.waitFront, forget, hpool, hvalid, ho]

/-- What removing the front does. -/
theorem popFront_eq_some (h : d.popFront = some d') :
    ∃ x rest, d.pool = x :: rest ∧ d' = { d with pool := rest } := by
  unfold Handles.popFront at h
  split at h
  · exact absurd h (by simp)
  · rename_i x rest hpool
    exact ⟨x, rest, hpool, (Option.some.inj h).symm⟩

theorem forget_popFront (h : d.popFront = some d') : d.forget.popFront = some d'.forget := by
  obtain ⟨x, rest, hpool, rfl⟩ := popFront_eq_some h
  simp [Handles.popFront, forget, hpool]

/-- What the end of a work does: it had not ended before. -/
theorem finish_eq_some {k : ℕ} (h : d.finish k o = some d') :
    k ∈ d.started ∧ d.outcome k = none ∧
      d' = { d with outcome := Function.update d.outcome k (some o) } := by
  unfold Handles.finish at h
  split at h
  · rename_i hk
    exact ⟨hk.1, hk.2, (Option.some.inj h).symm⟩
  · exact absurd h (by simp)

theorem forget_finish {k : ℕ} (h : d.finish k o = some d') :
    d.forget.finish k .normal = some d'.forget := by
  obtain ⟨hstarted, hnone, rfl⟩ := finish_eq_some h
  have hk : k ∈ d.forget.started ∧ d.forget.outcome k = none :=
    ⟨hstarted, by simp [forget, hnone]⟩
  unfold Handles.finish
  rw [if_pos hk]
  refine congrArg (fun outcome => some { d with outcome := outcome }) (funext fun j => ?_)
  by_cases hjk : j = k
  · subst hjk
    simp
  · simp [forget, hjk]

/-- A work that has ended has ended for good. -/
theorem outcome_finish {k j : ℕ} {o' : Outcome} (h : d.finish k o = some d')
    (hj : d.outcome j = some o') : d'.outcome j = some o' := by
  obtain ⟨-, hnone, rfl⟩ := finish_eq_some h
  have hjk : j ≠ k := by
    rintro rfl
    rw [hnone] at hj
    exact absurd hj (by simp)
  exact (Function.update_of_ne hjk _ _).trans hj

end Handles

namespace FuturePool

variable {m : ℕ} {s s' : FuturePool} {a : Act} {as : List Act}

/-- The pool, with every work that has finished taken to have returned. -/
def forget (s : FuturePool) : FuturePool := { s with handles := s.handles.forget }

/-- The step, if it is the end of a work, with the work returning. -/
def Act.forget : Act → Act
  | .finish k _ => .finish k .normal
  | a => a

theorem Act.forget_normal (a : Act) : a.forget.Normal := by
  intro k
  cases a <;> simp [Act.forget]

/-- **A step that lets no exception out is a step of the pool whose works return.** -/
theorem StepCase.forget (h : StepCase m s a s')
    (hthrow : ∀ d, a = .get → s.handles.waitFront ≠ some (.threw, d)) :
    StepCase m s.forget a.forget s'.forget := by
  cases h with
  | full hpc hm => exact .full hpc hm
  | room hpc hm => exact .room hpc hm
  | destroy hpc => exact .destroy hpc
  | workGet hpc hwait => exact .workGet hpc (Handles.forget_waitFront hwait)
  | workThrow hpc hwait => exact absurd hwait (hthrow _ rfl)
  | drainGet hpc hwait => exact .drainGet hpc (Handles.forget_waitFront hwait)
  | drainThrow hpc hwait => exact absurd hwait (hthrow _ rfl)
  | workPop hpc hpop => exact .workPop hpc (Handles.forget_popFront hpop)
  | drainPop hpc hpop => exact .drainPop hpc (Handles.forget_popFront hpop)
  | async hpc => exact .async hpc
  | pushBack hpc => exact .pushBack hpc
  | drained hpc hempty => exact .drained hpc hempty
  | notEmpty hpc hempty => exact .notEmpty hpc hempty
  | finish hfin => exact .finish (Handles.forget_finish hfin)

/-! ## 2. Before and after an exception leaves `do_work` -/

/-- No exception has left anything: the pool is a window, all works fetched have returned, and
`do_work` waits for the front only if the deque is full. -/
structure Intact (m : ℕ) (s : FuturePool) : Prop where
  window : ∃ w : Window m, Abs s.forget w
  joined : ∀ j ∈ s.handles.joined, s.handles.outcome j = some .normal
  full : ∀ k, s.pc = .workGet k → m ≤ s.handles.pool.length
  thrown : s.thrown = []

/-- What is known of an intact pool, in terms of the pool itself. -/
theorem Intact.exists_window (h : Intact m s) : ∃ w : Window m,
    Handles.Abs s.handles.forget w s.pc.used ∧ s.pc.Fits s.submitted s.handles.fut w := by
  obtain ⟨w, hhandles, hfits⟩ := h.window
  exact ⟨w, hhandles, hfits⟩

/-- The exception of work `r` has left the `do_work` of work `r + m`, and nothing has been started
since: the used future is at the front of the deque, which is full. -/
structure Failed (m r : ℕ) (s : FuturePool) : Prop where
  front : ∃ rest, s.handles.pool = ⟨r, false⟩ :: rest
  full : m ≤ s.handles.pool.length
  threw : s.handles.outcome r = some .threw
  before : ∀ j < r, s.handles.outcome j = some .normal
  started : s.handles.started = List.range (r + m)
  thrown : s.thrown = [r]
  pc : (s.pc = .idle ∧ s.submitted = r + m + 1) ∨ (∃ k, s.pc = .workGet k) ∨
    s.pc = .drainTest ∨ s.pc = .drainGet

/-- **The next `get()` has no defined outcome.** -/
theorem Failed.waitFront_eq_none {r : ℕ} (h : Failed m r s) : s.handles.waitFront = none := by
  obtain ⟨rest, hpool⟩ := h.front
  simp [Handles.waitFront, hpool]

/-- **The exception that leaves `do_work`** is that of the work submitted `m` calls before. -/
theorem Intact.throw (h : Intact m s) {k : ℕ} {d : Handles} (hpc : s.pc = .workGet k)
    (hwait : s.handles.waitFront = some (.threw, d)) :
    ∃ r, Failed m r
      { s with
        handles := d
        pc := .idle
        thrown := s.thrown ++ (s.handles.pool.head?.map Handle.work).toList } := by
  obtain ⟨w, hhandles, hfits⟩ := h.exists_window
  rw [hpc] at hhandles hfits
  obtain ⟨-, hsub, hfut⟩ := hfits
  obtain ⟨-, -, -, hw, hd⟩ := hhandles.waitFront (Handles.forget_waitFront hwait)
  have hlen : s.handles.pool.length = 0 + w.active.length := hhandles.length_pool hfut
  have hfull := h.full k hpc
  have hle := w.started_le
  have hge := w.retired_le
  rw [Window.length_active] at hlen
  have hstarted : w.started = w.retired + m := by omega
  have hjoined : s.handles.joined = List.range w.retired := hhandles.joined
  obtain ⟨x, rest, hpool, -, ho, rfl⟩ := Handles.waitFront_eq_some hwait
  -- the front is the oldest work not yet fetched
  have hx : x.work = w.retired := by
    have hlast : s.handles.joined ++ [x.work] = List.range (w.retired + 1) := hd.joined
    rw [hjoined, List.range_succ] at hlast
    simpa using List.append_cancel_left hlast
  refine ⟨w.retired, ⟨rest, by rw [hx]⟩, ?_, hx ▸ ho, ?_, ?_, ?_, Or.inl ⟨rfl, ?_⟩⟩
  · rw [hpool] at hfull
    exact hfull
  · intro j hj
    exact h.joined j (hjoined ▸ List.mem_range.mpr hj)
  · rw [← hstarted]
    exact hhandles.started
  · rw [h.thrown, hpool, ← hx]
    rfl
  · rw [← hstarted]
    exact hsub

/-! ## 3. Every step, every run -/

/-- **A step that lets no exception out keeps the pool intact.** -/
theorem Intact.step (h : Intact m s) (hst : StepCase m s a s')
    (hthrow : ∀ d, a = .get → s.handles.waitFront ≠ some (.threw, d)) : Intact m s' := by
  refine ⟨?_, ?_, ?_, ?_⟩
  · obtain ⟨w, hA⟩ := h.window
    obtain ⟨w', hA', -⟩ := hA.step (hst.forget hthrow) a.forget_normal
    exact ⟨w', hA'⟩
  · have hget : ∀ d, s.handles.waitFront = some (.normal, d) →
        ∀ j ∈ d.joined, d.outcome j = some .normal := by
      intro d hwait j hj
      obtain ⟨x, rest, -, -, ho, rfl⟩ := Handles.waitFront_eq_some hwait
      rcases List.mem_append.mp hj with hold | hnew
      · exact h.joined j hold
      · rwa [List.mem_singleton.mp hnew]
    have hremove : ∀ d, s.handles.popFront = some d →
        ∀ j ∈ d.joined, d.outcome j = some .normal := by
      intro d hpop
      obtain ⟨x, rest, -, rfl⟩ := Handles.popFront_eq_some hpop
      exact h.joined
    cases hst with
    | workGet hpc hwait => exact hget _ hwait
    | drainGet hpc hwait => exact hget _ hwait
    | workThrow hpc hwait => exact absurd hwait (hthrow _ rfl)
    | drainThrow hpc hwait => exact absurd hwait (hthrow _ rfl)
    | workPop hpc hpop => exact hremove _ hpop
    | drainPop hpc hpop => exact hremove _ hpop
    | finish hfin =>
      intro j hj
      have hold : j ∈ s.handles.joined := by
        obtain ⟨-, -, rfl⟩ := Handles.finish_eq_some hfin
        exact hj
      exact Handles.outcome_finish hfin (h.joined j hold)
    | full | room | destroy | async | pushBack | drained | notEmpty => exact h.joined
  · intro k hk
    cases hst with
    | full hpc hm => exact hm
    | finish hfin =>
      obtain ⟨-, -, rfl⟩ := Handles.finish_eq_some hfin
      exact h.full k hk
    | room | destroy | workGet | workThrow | drainGet | drainThrow | workPop | drainPop | async
    | pushBack | drained | notEmpty => exact absurd hk (by simp)
  · cases hst with
    | workThrow hpc hwait => exact absurd hwait (hthrow _ rfl)
    | drainThrow hpc hwait => exact absurd hwait (hthrow _ rfl)
    | full | room | destroy | workGet | drainGet | workPop | drainPop | async | pushBack | drained
    | notEmpty | finish => exact h.thrown

/-- **After an exception has left `do_work` no call returns.** -/
theorem Failed.step {r : ℕ} (h : Failed m r s) (hst : StepCase m s a s') : Failed m r s' := by
  have hpc : ∀ p, s.pc = p → p ≠ .idle → (∀ k, p ≠ .workGet k) → p ≠ .drainTest →
      p ≠ .drainGet → False := by
    rintro p rfl hidle hget htest hdrain
    rcases h.pc with ⟨hp, -⟩ | ⟨k, hp⟩ | hp | hp
    · exact hidle hp
    · exact hget k hp
    · exact htest hp
    · exact hdrain hp
  have hmove : ∀ p sub, ((∃ k, p = .workGet k) ∨ p = .drainTest ∨ p = .drainGet) →
      Failed m r { s with pc := p, submitted := sub } := by
    intro p sub hp
    exact ⟨h.front, h.full, h.threw, h.before, h.started, h.thrown, Or.inr hp⟩
  cases hst with
  | full hidle hm => exact hmove _ _ (Or.inl ⟨_, rfl⟩)
  | room hidle hm => exact absurd h.full hm
  | destroy hidle => exact hmove _ _ (Or.inr (Or.inl rfl))
  | notEmpty htest hempty => exact hmove _ _ (Or.inr (Or.inr rfl))
  | drained htest hempty =>
    obtain ⟨rest, hpool⟩ := h.front
    exact absurd (hpool.symm.trans hempty) (by simp)
  | workGet _ hwait | workThrow _ hwait | drainGet _ hwait | drainThrow _ hwait =>
    exact absurd (h.waitFront_eq_none.symm.trans hwait) (by simp)
  | workPop hp | drainPop hp | async hp | pushBack hp =>
    exact (hpc _ hp (by simp) (by simp) (by simp) (by simp)).elim
  | finish hfin =>
    have hkeep : ∀ j o, s.handles.outcome j = some o → _ = some o :=
      fun j o hj => Handles.outcome_finish hfin hj
    obtain ⟨-, -, rfl⟩ := Handles.finish_eq_some hfin
    exact ⟨h.front, h.full, hkeep _ _ h.threw, fun j hj => hkeep _ _ (h.before j hj), h.started,
      h.thrown, h.pc⟩

/-- What a run of the pool leads to: an intact pool, one that an exception has left, or the end of
the program in `~FuturePool`. -/
def Reached (m : ℕ) (s : FuturePool) : Prop :=
  Intact m s ∨ (∃ r, Failed m r s) ∨ (s.pc = .terminated ∧ s.thrown = [])

theorem Reached.step (h : Reached m s) (hst : StepCase m s a s') : Reached m s' := by
  rcases h with h | ⟨r, h⟩ | ⟨hpc, hthrown⟩
  · by_cases hthrow : ∃ d, a = .get ∧ s.handles.waitFront = some (.threw, d)
    · obtain ⟨d, rfl, hwait⟩ := hthrow
      cases hst with
      | workThrow hpc hwait' => exact Or.inr (Or.inl (h.throw hpc hwait'))
      | drainThrow hpc hwait' => exact Or.inr (Or.inr ⟨rfl, h.thrown⟩)
      | workGet _ hwait' | drainGet _ hwait' =>
        exact absurd (hwait.symm.trans hwait') (by simp)
    · exact Or.inl (h.step hst fun d ha hwait => hthrow ⟨d, ha, hwait⟩)
  · exact Or.inr (Or.inl ⟨r, h.step hst⟩)
  · cases hst with
    | finish hfin => exact Or.inr (Or.inr ⟨hpc, hthrown⟩)
    | full hp | room hp | destroy hp | workGet hp | workThrow hp | drainGet hp | drainThrow hp
    | workPop hp | drainPop hp | async hp | pushBack hp | drained hp | notEmpty hp =>
      exact absurd (hpc.symm.trans hp) (by simp)

theorem Reached.run (h : Run (Fires (FuturePool.step m)) FuturePool.init as s) : Reached m s := by
  refine h.invariant (fun _ _ _ hR hst => hR.step (stepCase_of_step hst)) (Or.inl ?_)
  refine ⟨⟨Window.empty, Handles.Abs.empty, rfl, rfl⟩, ?_, by simp [init], rfl⟩
  intro j hj
  exact absurd hj List.not_mem_nil

/-! ## 4. When the pool stays usable -/

/-- What a caller that catches what `do_work` throws may rely on between two calls: the futures
left in the deque are valid, no exception has been thrown twice, and a call whose retired work
returned has started its own. -/
structure Usable (m : ℕ) (s : FuturePool) : Prop where
  valid : ∀ x ∈ s.handles.pool, x.valid = true
  once : s.thrown.Nodup
  starts : ∀ k < s.submitted, (k < m ∨ s.handles.outcome (k - m) = some .normal) →
    k ∈ s.handles.started

/-- An intact pool between two calls is usable. -/
theorem Intact.usable (h : Intact m s) (hpc : s.pc = .idle) : Usable m s := by
  obtain ⟨w, hhandles, hfits⟩ := h.exists_window
  rw [hpc] at hhandles hfits
  obtain ⟨hsub, hfut⟩ := hfits
  refine ⟨?_, by rw [h.thrown]; exact List.nodup_nil, ?_⟩
  · have hpool : s.handles.pool = w.active.map (Handle.mk · true) := hhandles.pool_eq hfut
    rw [hpool]
    simp
  · intro k hk _
    have hstarted : s.handles.started = List.range w.started := hhandles.started
    rw [hstarted, ← hsub]
    exact List.mem_range.mpr hk

/-- The works fetched so far in an intact pool between two calls have returned. -/
theorem Intact.normal_of_lt (h : Intact m s) (hpc : s.pc = .idle) {j : ℕ}
    (hj : j + m < s.submitted) : s.handles.outcome j = some .normal := by
  obtain ⟨w, hhandles, hfits⟩ := h.exists_window
  rw [hpc] at hfits
  have hle := w.started_le
  have hsub := hfits.1
  have hjoined : s.handles.joined = List.range w.retired := hhandles.joined
  exact h.joined j (hjoined ▸ List.mem_range.mpr (by omega))

/-- **When `do_work` keeps the pool usable**: after a call exactly where none of the works
submitted `m` or more calls before the last one has thrown. -/
theorem do_work_keeps_usable_iff (h : Run (Fires (FuturePool.step m)) FuturePool.init as s)
    (hidle : s.pc = .idle) :
    Usable m s ↔ ∀ j, j + m < s.submitted → s.handles.outcome j ≠ some .threw := by
  rcases Reached.run h with hI | ⟨r, hF⟩ | ⟨hpc, -⟩
  · constructor
    · intro _ j hj
      rw [hI.normal_of_lt hidle hj]
      simp
    · intro _
      exact hI.usable hidle
  · obtain ⟨rest, hpool⟩ := hF.front
    have hsub : s.submitted = r + m + 1 := by
      rcases hF.pc with ⟨-, hsub⟩ | ⟨k, hp⟩ | hp | hp
      · exact hsub
      all_goals exact absurd (hidle.symm.trans hp) (by simp)
    constructor
    · intro hU
      have hvalid := hU.valid ⟨r, false⟩ (hpool ▸ List.mem_cons_self)
      exact absurd hvalid (by simp)
    · intro hall
      exact absurd hF.threw (hall r (by omega))
  · exact absurd (hidle.symm.trans hpc) (by simp)

/-- With `max_size` 1, work 0 returns and work 1 throws; its future is still in the deque. -/
theorem do_work_keeps_usable_after_return :
    ∃ s, Run (Fires (FuturePool.step 1)) FuturePool.init
        [.doWork, .async, .pushBack, .finish 0 .normal, .doWork, .get, .popFront, .async,
          .pushBack, .finish 1 .threw] s ∧ s.handles.pool = [⟨1, true⟩] ∧ Usable 1 s := by
  obtain ⟨s, hrun, hpc, hsub, hout, hpool⟩ := exists_run_of_exec (FuturePool.step 1)
    FuturePool.init [.doWork, .async, .pushBack, .finish 0 .normal, .doWork, .get, .popFront,
      .async, .pushBack, .finish 1 .threw]
    (fun s => s.pc = .idle ∧ s.submitted = 2 ∧ s.handles.outcome 0 = some .normal ∧
      s.handles.pool = [⟨1, true⟩]) (by decide)
  refine ⟨s, hrun, hpool, (do_work_keeps_usable_iff hrun hpc).mpr ?_⟩
  intro j hj
  obtain rfl : j = 0 := by omega
  rw [hout]
  simp

/-- **An exception leaves a used future in the deque**: with `max_size` 1, work 0 throws, and the
second call of `do_work` rethrows it. -/
theorem do_work_leaves_used_future :
    ¬ ∀ (m : ℕ) (as : List Act) (s : FuturePool), 1 ≤ m →
      Run (Fires (FuturePool.step m)) FuturePool.init as s → s.pc = .idle → Usable m s := by
  intro hall
  obtain ⟨s, hrun, hpc, hpool⟩ := exists_run_of_exec (FuturePool.step 1) FuturePool.init
    [.doWork, .async, .pushBack, .finish 0 .threw, .doWork, .get]
    (fun s => s.pc = .idle ∧ s.handles.pool = [⟨0, false⟩]) (by decide)
  have hvalid := (hall 1 _ s le_rfl hrun hpc).valid ⟨0, false⟩ (hpool ▸ List.mem_cons_self)
  exact absurd hvalid (by simp)

end FuturePool

end CxxConcurrency.Pools
