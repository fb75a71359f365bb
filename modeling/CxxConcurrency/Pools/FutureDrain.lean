/-
# `~FuturePool` when works throw

The destructor fetches and removes the futures that are left, front first.  `get()` waits for its
work and rethrows its exception, and a destructor may not throw: an exception ends the program.

How a work ends is a parameter here, `fate`, so that a property of the destructor can be compared
with what the works do.  Between two calls that have returned the deque holds the works submitted
last, and the destructor comes to its end exactly where none of them throws
(`destructor_drains_iff`).
-/
import CxxConcurrency.Pools.EmptyFront

namespace CxxConcurrency.Pools.FuturePool

open CxxConcurrency.Lib

variable {m : ℕ} {s s' u : FuturePool} {a : Act} {as : List Act} {fate : ℕ → Outcome}

/-! ## 1. How the works end -/

/-- If a work ends in this step, it ends as `fate` says. -/
def Follows (fate : ℕ → Outcome) (_ : FuturePool) (a : Act) : Prop :=
  ∀ k o, a = .finish k o → o = fate k

/-- The steps of the pool where each work ends as `fate` says. -/
abbrev StepWith (m : ℕ) (fate : ℕ → Outcome) : FuturePool → Act → FuturePool → Prop :=
  Restrict (Follows fate) (Fires (FuturePool.step m))

/-- The works that have ended have ended as `fate` says. -/
def Followed (fate : ℕ → Outcome) (s : FuturePool) : Prop :=
  ∀ k o, s.handles.outcome k = some o → o = fate k

theorem Followed.step (h : StepCase m s a s') (ha : Follows fate s a) (hs : Followed fate s) :
    Followed fate s' := by
  cases h with
  | workGet _ hwait | workThrow _ hwait | drainGet _ hwait | drainThrow _ hwait =>
    obtain ⟨x, rest, -, -, -, rfl⟩ := Handles.waitFront_eq_some hwait
    exact hs
  | workPop _ hpop | drainPop _ hpop =>
    obtain ⟨x, rest, -, rfl⟩ := Handles.popFront_eq_some hpop
    exact hs
  | @finish k o d hfin =>
    obtain ⟨-, -, rfl⟩ := Handles.finish_eq_some hfin
    refine (Function.forall_update_iff s.handles.outcome fun j r => ∀ o', r = some o' →
      o' = fate j).mpr ⟨?_, fun j _ => hs j⟩
    intro o' ho'
    rw [← Option.some.inj ho']
    exact ha k o rfl
  | full | room | destroy | async | pushBack | drained | notEmpty => exact hs

/-! ## 2. The steps of the destructor -/

/-- The owner is in `~FuturePool` or has left it. -/
def Pc.draining : Pc → Bool
  | .drainTest => true
  | .drainGet => true
  | .drainPop => true
  | .destroyed => true
  | .terminated => true
  | _ => false

/-- How far the owner is from its next test of `!pool.empty()`. -/
def Pc.distance : Pc → ℕ
  | .drainTest => 3
  | .drainGet => 2
  | .drainPop => 1
  | _ => 0

/-- What the destructor and the works still have to do. -/
def remaining (s : FuturePool) : ℕ :=
  s.handles.unfinished.length + 3 * s.handles.pool.length + s.pc.distance

/-- The end of a work leaves fewer unfinished. -/
theorem length_unfinished_finish {d d' : Handles} {k : ℕ} {o : Outcome}
    (h : d.finish k o = some d') : d'.unfinished.length < d.unfinished.length := by
  obtain ⟨hk, hnone, rfl⟩ := Handles.finish_eq_some h
  have hmem : k ∈ d.unfinished := List.mem_filter.mpr ⟨hk, by simp [hnone]⟩
  have heq : Handles.unfinished { d with outcome := Function.update d.outcome k (some o) }
      = d.unfinished.filter (· ≠ k) := by
    rw [Handles.unfinished, Handles.unfinished, List.filter_filter]
    refine List.filter_congr ?_
    intro j _
    by_cases hjk : j = k
    · simp [hjk]
    · simp [hjk]
  rw [heq]
  exact List.length_filter_lt_length_iff_exists.mpr ⟨k, hmem, by simp⟩

/-- **What a step of the destructor does**: the destructor and the works have less to do. -/
theorem drain_step (h : StepCase m s a s') (hd : s.pc.draining = true) :
    s'.pc.draining = true ∧ s'.submitted = s.submitted ∧ s'.remaining < s.remaining := by
  cases h with
  | full hpc | room hpc | destroy hpc | workGet hpc | workThrow hpc | workPop hpc | async hpc
  | pushBack hpc =>
    rw [hpc] at hd
    exact absurd hd (by simp [Pc.draining])
  | drainGet hpc hwait | drainThrow hpc hwait =>
    obtain ⟨x, rest, hpool, -, -, rfl⟩ := Handles.waitFront_eq_some hwait
    refine ⟨rfl, rfl, ?_⟩
    simp [remaining, hpc, hpool, Pc.distance, Handles.unfinished]
  | drainPop hpc hpop =>
    obtain ⟨x, rest, hpool, rfl⟩ := Handles.popFront_eq_some hpop
    refine ⟨rfl, rfl, ?_⟩
    simp only [remaining, hpc, hpool, Pc.distance, Handles.unfinished, List.length_cons]
    omega
  | drained hpc hempty | notEmpty hpc hempty =>
    refine ⟨rfl, rfl, ?_⟩
    simp [remaining, hpc, Pc.distance]
  | finish hfin =>
    have hlt := length_unfinished_finish hfin
    obtain ⟨-, -, rfl⟩ := Handles.finish_eq_some hfin
    refine ⟨hd, rfl, ?_⟩
    simp only [remaining] at hlt ⊢
    omega

/-! ## 3. The invariant of the destructor -/

/-- Until an exception leaves the destructor the pool is intact, and the exception that does is
that of one of the last `m` works submitted. -/
structure Draining (m n : ℕ) (fate : ℕ → Outcome) (u : FuturePool) : Prop where
  pc : u.pc.draining = true
  submitted : u.submitted = n
  followed : Followed fate u
  guarded : Front.Guarded m u.front
  state : Intact m u ∨ (u.pc = .terminated ∧ ∃ k < n, n ≤ k + m ∧ fate k = .threw)

/-- The future that the destructor is about to fetch. -/
theorem Intact.front (h : Intact m s) (hpc : s.pc = .drainGet) (hpool : s.handles.pool ≠ []) :
    ∃ k rest, s.handles.pool = ⟨k, true⟩ :: rest ∧ k ∈ s.handles.started ∧ k < s.submitted ∧
      s.submitted ≤ k + m := by
  obtain ⟨w, hhandles, hfits⟩ := h.exists_window
  rw [hpc] at hhandles hfits
  obtain ⟨hsub, hfut⟩ := hfits
  have hactive : s.handles.pool = w.active.map (Handle.mk · true) := hhandles.pool_eq hfut
  have hstarted : s.handles.started = List.range w.started := hhandles.started
  have hle := w.started_le
  have hlen := w.length_active
  obtain ⟨n, hn⟩ : ∃ n, w.started - w.retired = n + 1 := by
    refine Nat.exists_eq_succ_of_ne_zero ?_
    intro hzero
    rw [hzero] at hlen
    rw [List.length_eq_zero_iff.mp hlen] at hactive
    exact hpool hactive
  refine ⟨w.retired, (List.range' (w.retired + 1) n).map (Handle.mk · true), ?_, ?_, by omega,
    by omega⟩
  · rw [hactive, Window.active, hn, List.range'_succ, List.map_cons]
  · rw [hstarted]
    exact List.mem_range.mpr (by omega)

/-- **Every step keeps the invariant.** -/
theorem Draining.step {n : ℕ} (hst : StepWith m fate u a s') (hD : Draining m n fate u) :
    Draining m n fate s' := by
  have hcase := stepCase_of_step hst.2
  obtain ⟨hpc', hsub', -⟩ := drain_step hcase hD.pc
  refine ⟨hpc', hsub'.trans hD.submitted, hD.followed.step hcase hst.1,
    hD.guarded.step (front_step hcase), ?_⟩
  rcases hD.state with hI | ⟨hpc, hthrew⟩
  · by_cases hthrow : ∃ d, a = .get ∧ u.handles.waitFront = some (.threw, d)
    · obtain ⟨d, rfl, hwait⟩ := hthrow
      cases hcase with
      | workGet _ hwait' | drainGet _ hwait' => exact absurd (hwait.symm.trans hwait') (by simp)
      | workThrow hpc _ =>
        have hdraining := hD.pc
        rw [hpc] at hdraining
        exact absurd hdraining (by simp [Pc.draining])
      | drainThrow hpc _ =>
        obtain ⟨x, rest, hpool, -, ho, -⟩ := Handles.waitFront_eq_some hwait
        obtain ⟨k, rest', hfront, -, hk, hm⟩ := hI.front hpc (by simp [hpool])
        obtain rfl : x = ⟨k, true⟩ := (List.cons.inj (hpool.symm.trans hfront)).1
        exact Or.inr ⟨rfl, k, hD.submitted ▸ hk, hD.submitted ▸ hm, (hD.followed k _ ho).symm⟩
    · exact Or.inl (hI.step hcase fun d ha hwait => hthrow ⟨d, ha, hwait⟩)
  · refine Or.inr ⟨?_, hthrew⟩
    cases hcase with
    | finish => exact hpc
    | full hp | room hp | destroy hp | workGet hp | workThrow hp | drainGet hp | drainThrow hp
    | workPop hp | drainPop hp | async hp | pushBack hp | drained hp | notEmpty hp =>
      exact absurd (hpc.symm.trans hp) (by simp)

theorem Draining.run {n : ℕ} (h : Run (StepWith m fate) u as s) (hD : Draining m n fate u) :
    Draining m n fate s :=
  h.invariant (fun _ _ _ hD hst => hD.step hst) hD

/-- The destructor takes a bounded number of steps. -/
theorem Draining.length_le {n : ℕ} (h : Run (StepWith m fate) u as s) (hD : Draining m n fate u) :
    as.length ≤ u.remaining := by
  have hle := h.countP_add_le (I := Draining m n fate) (m := remaining) (p := fun _ => true)
    (fun _ _ _ hD hst => hD.step hst) (fun v b w hD hst => by
      have hlt := (drain_step (stepCase_of_step hst.2) hD.pc).2.2
      rw [if_pos rfl]
      omega) hD
  rw [List.countP_true] at hle
  omega

/-- **An intact pool in its destructor can go on**: a `get()` that waits waits for a work that has
not ended. -/
theorem Draining.exists_step {n : ℕ} (hD : Draining m n fate u) (hI : Intact m u)
    (hpc : u.pc ≠ .destroyed) : ∃ b v, StepWith m fate u b v := by
  have hfires : ∀ b, (u.step m b).isSome = true → Follows fate u b →
      ∃ b v, StepWith m fate u b v := by
    intro b hst hb
    obtain ⟨v, hv⟩ := Option.isSome_iff_exists.mp hst
    exact ⟨b, v, hb, hv⟩
  obtain ⟨w, hhandles, hfits⟩ := hI.exists_window
  cases hp : u.pc with
  | drainTest =>
    refine hfires .test ?_ (by simp [Follows])
    by_cases hempty : u.handles.pool = [] <;> simp [FuturePool.step, hp, hempty]
  | drainGet =>
    obtain ⟨k, rest, hpool, hk, -, -⟩ := hI.front hp (hD.guarded.drain (congrArg Pc.front hp))
    cases ho : u.handles.outcome k with
    | none =>
      refine hfires (.finish k (fate k)) ?_ (by simp [Follows])
      simp [FuturePool.step, Handles.finish, hk, ho]
    | some o =>
      refine hfires .get ?_ (by simp [Follows])
      cases o <;> simp [FuturePool.step, hp, Handles.waitFront, hpool, ho]
  | drainPop =>
    refine hfires .popFront ?_ (by simp [Follows])
    rw [hp] at hhandles hfits
    have hlen : u.handles.pool.length = 1 + w.active.length := hhandles.length_pool hfits.2
    obtain ⟨x, rest, hpool⟩ := List.exists_cons_of_length_pos (show 0 < u.handles.pool.length by
      omega)
    simp [FuturePool.step, hp, Handles.popFront, hpool]
  | destroyed => exact absurd hp hpc
  | terminated =>
    rw [hp] at hfits
    exact hfits.elim
  | idle | workGet | workPop | workAsync | workPush =>
    have hdraining := hD.pc
    rw [hp] at hdraining
    exact absurd hdraining (by simp [Pc.draining])

/-! ## 4. When the destructor comes to its end -/

/-- What `~FuturePool` is to do, called on the pool `s`: no exception leaves it, it retires the
futures in the order of the deque and, when it returns, all of them, and it returns. -/
structure Drains (m : ℕ) (fate : ℕ → Outcome) (s : FuturePool) : Prop where
  noThrow : ∀ bs u, Run (StepWith m fate) { s with pc := .drainTest } bs u → u.pc ≠ .terminated
  order : ∀ bs u, Run (StepWith m fate) { s with pc := .drainTest } bs u →
    u.handles.joined <+: s.handles.joined ++ s.handles.pool.map Handle.work
  all : ∀ bs u, Run (StepWith m fate) { s with pc := .drainTest } bs u → u.pc = .destroyed →
    u.handles.pool = [] ∧
      u.handles.joined = s.handles.joined ++ s.handles.pool.map Handle.work
  /-- No run of the destructor goes on for ever. -/
  bounded : ∃ b, ∀ bs u, Run (StepWith m fate) { s with pc := .drainTest } bs u → bs.length ≤ b
  /-- Until it has returned the destructor or a work can take a step. -/
  next : ∀ bs u, Run (StepWith m fate) { s with pc := .drainTest } bs u → u.pc ≠ .destroyed →
    ∃ a v, StepWith m fate u a v

/-- In a state reached by calls that have returned, the pool is intact. -/
theorem intact_of_idle (h : Run (StepWith m fate) FuturePool.init as s) (hidle : s.pc = .idle)
    (hthrown : s.thrown = []) : Intact m s := by
  rcases Reached.run (h.mono fun _ _ _ hst => hst.2) with hI | ⟨r, hF⟩ | ⟨hpc, -⟩
  · exact hI
  · exact absurd (hF.thrown.symm.trans hthrown) (by simp)
  · exact absurd (hidle.symm.trans hpc) (by simp)

/-- The destructor begins with its invariant. -/
theorem Draining.begin (h : Run (StepWith m fate) FuturePool.init as s) (hidle : s.pc = .idle)
    (hthrown : s.thrown = []) :
    Draining m s.submitted fate { s with pc := .drainTest } := by
  have hrun := h.mono fun _ _ _ hst => hst.2
  have hfollowed : Followed fate s := by
    refine h.invariant (fun _ _ _ hs hst => hs.step (stepCase_of_step hst.2) hst.1) ?_
    intro k o ho
    exact absurd ho (by simp [FuturePool.init, Handles.empty])
  have hdestroy : StepCase m s .destroy { s with pc := .drainTest } := .destroy hidle
  exact ⟨rfl, rfl, hfollowed, (Front.Guarded.run (front_run hrun)).step (front_step hdestroy),
    Or.inl ((intact_of_idle h hidle hthrown).step hdestroy (by simp))⟩

/-- The works fetched and those in the deque are all that have been submitted. -/
theorem Intact.joined_append_pool (h : Intact m s) (hpc : s.pc = .idle) :
    s.handles.joined ++ s.handles.pool.map Handle.work = List.range s.submitted := by
  obtain ⟨w, hhandles, hfits⟩ := h.exists_window
  rw [hpc] at hhandles hfits
  obtain ⟨hsub, hfut⟩ := hfits
  have hjoined : s.handles.joined = List.range w.retired := hhandles.joined
  have hpool : s.handles.pool = w.active.map (Handle.mk · true) := hhandles.pool_eq hfut
  rw [hjoined, hpool, hsub, Window.range_started, List.map_map]
  exact congrArg _ (List.map_id _)

/-- The works fetched are the first ones submitted. -/
theorem Intact.joined_prefix_range (h : Intact m s) (hpc : s.pc.draining = true) :
    s.handles.joined <+: List.range s.submitted ∧
      (s.pc = .destroyed → s.handles.pool = [] ∧ s.handles.joined = List.range s.submitted) := by
  obtain ⟨w, hhandles, hfits⟩ := h.exists_window
  have hjoined : s.handles.joined = List.range w.retired := hhandles.joined
  have hsub : s.submitted = w.started := by
    cases hp : s.pc with
    | drainTest | drainGet | drainPop | destroyed =>
      rw [hp] at hfits
      exact hfits.1
    | terminated =>
      rw [hp] at hfits
      exact hfits.elim
    | idle | workGet | workPop | workAsync | workPush =>
      rw [hp] at hpc
      exact absurd hpc (by simp [Pc.draining])
  rw [hjoined, hsub, Window.range_started]
  refine ⟨List.prefix_append _ _, ?_⟩
  intro hdestroyed
  rw [hdestroyed] at hhandles hfits
  obtain ⟨-, hfut, hnil⟩ := hfits
  have hpool : s.handles.pool = w.active.map (Handle.mk · true) := hhandles.pool_eq hfut
  rw [hpool, hnil]
  exact ⟨rfl, (List.append_nil _).symm⟩

/-- A destructor that drains the pool has fetched every work. -/
theorem Drains.fate_eq_normal {n : ℕ} (hdrains : Drains m fate s)
    (hbegin : Draining m n fate { s with pc := .drainTest })
    (hworks : s.handles.joined ++ s.handles.pool.map Handle.work = List.range n) {k : ℕ}
    (hk : k < n) : fate k = .normal := by
  obtain ⟨b, hb⟩ := hdrains.bounded
  obtain ⟨bs, u, hrun, hpc⟩ :=
    Run.exists_final (P := fun u => u.pc = .destroyed) hb hdrains.next
  have hD := hbegin.run hrun
  have hI : Intact m u := by
    rcases hD.state with hI | ⟨hterminated, -⟩
    · exact hI
    · exact absurd hterminated (hdrains.noThrow bs u hrun)
  have hmem : k ∈ u.handles.joined := by
    rw [(hdrains.all bs u hrun hpc).2, hworks]
    exact List.mem_range.mpr hk
  exact (hD.followed k _ (hI.joined k hmem)).symm

/-- Where none of the last `m` works throws, the pool stays intact. -/
theorem Draining.intact {n : ℕ} (hD : Draining m n fate u)
    (hnormal : ∀ k < n, n ≤ k + m → fate k = .normal) : Intact m u := by
  rcases hD.state with hI | ⟨-, k, hk, hm, hthrew⟩
  · exact hI
  · rw [hnormal k hk hm] at hthrew
    exact absurd hthrew (by simp)

/-- **When `~FuturePool` drains the pool**: exactly where none of the last `m` works submitted
throws. -/
theorem destructor_drains_iff (h : Run (StepWith m fate) FuturePool.init as s)
    (hidle : s.pc = .idle) (hthrown : s.thrown = []) :
    Drains m fate s ↔ ∀ k < s.submitted, s.submitted ≤ k + m → fate k = .normal := by
  have hbegin := Draining.begin h hidle hthrown
  have hworks := (intact_of_idle h hidle hthrown).joined_append_pool hidle
  constructor
  · intro hdrains k hk _
    exact hdrains.fate_eq_normal hbegin hworks hk
  · intro hnormal
    refine ⟨?_, ?_, ?_, ⟨_, fun bs u hrun => hbegin.length_le hrun⟩, ?_⟩
    · intro bs u hrun hpc
      obtain ⟨w, -, hfits⟩ := ((hbegin.run hrun).intact hnormal).exists_window
      rw [hpc] at hfits
      exact hfits
    · intro bs u hrun
      have hD := hbegin.run hrun
      rw [hworks, ← hD.submitted]
      exact ((hD.intact hnormal).joined_prefix_range hD.pc).1
    · intro bs u hrun hpc
      have hD := hbegin.run hrun
      rw [hworks, ← hD.submitted]
      exact ((hD.intact hnormal).joined_prefix_range hD.pc).2 hpc
    · intro bs u hrun hpc
      have hD := hbegin.run hrun
      exact hD.exists_step (hD.intact hnormal) hpc

/-- A run whose works end as `fate` says. -/
theorem run_stepWith (h : Run (Fires (FuturePool.step m)) s as s')
    (has : ∀ b ∈ as, ∀ k o, b = .finish k o → o = fate k) : Run (StepWith m fate) s as s' :=
  h.restrict (C := fun b : Act => ∀ k o, b = .finish k o → o = fate k) has

/-- A pool of one, with work 1 in the deque; only works that are not submitted throw. -/
theorem destructor_drains_second_work :
    ∃ s, Run (StepWith 1 fun k => if k < 2 then .normal else .threw) FuturePool.init
        [.doWork, .async, .pushBack, .doWork, .finish 0 .normal, .get, .popFront, .async,
          .pushBack] s ∧
      s.handles.pool = [⟨1, true⟩] ∧ Drains 1 (fun k => if k < 2 then .normal else .threw) s := by
  obtain ⟨s, hrun, hpc, hthrown, hsub, hpool⟩ := exists_run_of_exec (FuturePool.step 1)
    FuturePool.init [.doWork, .async, .pushBack, .doWork, .finish 0 .normal, .get, .popFront,
      .async, .pushBack]
    (fun s => s.pc = .idle ∧ s.thrown = [] ∧ s.submitted = 2 ∧ s.handles.pool = [⟨1, true⟩])
    (by decide)
  have hfate : Run (StepWith 1 fun k => if k < 2 then .normal else .threw) FuturePool.init _ s :=
    run_stepWith hrun (by simp)
  refine ⟨s, hfate, hpool, (destructor_drains_iff hfate hpc hthrown).mpr ?_⟩
  intro k hk _
  exact if_pos (hsub ▸ hk)

/-- **The destructor can end the program**: with `max_size` 1, work 0 throws, and its exception
leaves `~FuturePool`. -/
theorem destructor_terminates :
    ¬ ∀ (m : ℕ) (fate : ℕ → Outcome) (as : List Act) (s : FuturePool), 1 ≤ m →
      Run (StepWith m fate) FuturePool.init as s → s.pc = .idle → s.thrown = [] →
        Drains m fate s := by
  intro hall
  have hrun : Run (Fires (FuturePool.step 1)) FuturePool.init [.doWork, .async, .pushBack] _ :=
    run_of_exec rfl
  have hdrains := hall 1 (fun _ => .threw) _ _ le_rfl (run_stepWith hrun (by simp)) rfl rfl
  obtain ⟨u, hdestroy, hpc⟩ := exists_run_of_exec (FuturePool.step 1)
    ⟨⟨[⟨0, true⟩], none, [0], [], fun _ => none⟩, .drainTest, 1, []⟩
    [.test, .finish 0 .threw, .get] (fun u => u.pc = .terminated) (by decide)
  exact hdrains.noThrow _ u (run_stepWith hdestroy (by simp)) hpc

end CxxConcurrency.Pools.FuturePool
