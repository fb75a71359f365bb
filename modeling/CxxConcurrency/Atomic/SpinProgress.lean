/-
# What progress the `Spinlock` guarantees

`lock()` calls no blocking function, but a thread that spins depends on the one that has the lock.
While the owner takes no step nobody gets the lock, whatever the others do
(`held_while_owner_pauses`), so `lock()` is not obstruction-free: a thread that runs alone gets the
lock exactly where nobody has it.  The owner in turn depends on nobody: two steps of its own lead it
past `clear`.
-/
import CxxConcurrency.Atomic.SpinLock

namespace CxxConcurrency.Atomic.Spinlock

open CxxConcurrency.Lib

variable {ι : Type*} [DecidableEq ι] {s s' : Spinlock ι} {a : ι × Event}
  {as bs : List (ι × Event)} {t u : ι}

/-- The steps of thread `t` alone. -/
abbrev AloneStep (t : ι) : Spinlock ι → ι × Event → Spinlock ι → Prop :=
  Restrict (fun _ a => a.1 = t) (Fires step)

/-- The steps of the others while thread `u` is paused. -/
abbrev PausedStep (u : ι) : Spinlock ι → ι × Event → Spinlock ι → Prop :=
  Restrict (fun _ a => a.1 ≠ u) (Fires step)

/-- A thread moves in its own steps only. -/
theorem pc_of_ne (h : StepCase s a s') (hu : u ≠ a.1) : s'.pc u = s.pc u := by
  cases h <;> exact Function.update_of_ne hu _ _

/-- **While the owner is paused** it keeps the lock: the flag stays set, and every `test_and_set`
returns true. -/
theorem held_while_owner_pauses (hA : ∃ owner, Abs s owner) (hu : (s.pc u).holds = true)
    (h : Run (PausedStep u) s bs s') :
    Abs s' (some u) ∧ s'.pc u = s.pc u ∧ ∀ v, (v, .testAndSet false) ∉ bs := by
  obtain ⟨owner, hA⟩ := hA
  obtain rfl := (hA.holds u).mp hu
  refine h.trace_invariant (I := fun bs w => Abs w (some u) ∧ w.pc u = s.pc u ∧
    ∀ v, (v, .testAndSet false) ∉ bs) ⟨hA, rfl, fun _ => List.not_mem_nil⟩ ?_
  rintro bs w a w' - ⟨hAw, hpc, hnone⟩ ⟨hne, hst⟩
  have hcase := stepCase_of_step hst
  obtain ⟨owner', hA', hop⟩ := hAw.step hcase
  have hpc' : w'.pc u = s.pc u := (pc_of_ne hcase (Ne.symm hne)).trans hpc
  obtain rfl := (hA'.holds u).mp (by rwa [hpc'])
  refine ⟨hA', hpc', fun v hv => ?_⟩
  rcases List.mem_append.mp hv with hv | hv
  · exact hnone v hv
  · -- a `test_and_set` that returned false would have made another owner
    rw [← List.mem_singleton.mp hv] at hop
    exact absurd hop (by rintro ⟨⟩)

/-- Two steps of its own lead the owner past `clear`. -/
theorem owner_clears (hu : (s.pc u).holds = true) :
    ∃ bs s', Run (AloneStep u) s bs s' ∧ bs.length ≤ 2 ∧ s'.flag = false := by
  have hclear : ∀ {w : Spinlock ι}, w.pc u = .critical →
      AloneStep u w (u, .clear) { w.setPc u .printUnlock with flag := false } :=
    fun hpc => ⟨rfl, by simp [Fires, step, hpc]⟩
  cases hpc : s.pc u with
  | spin | printUnlock =>
    rw [hpc] at hu
    exact absurd hu (by simp [Pc.holds])
  | critical => exact ⟨_, _, Run.single (hclear hpc), by simp, rfl⟩
  | printLock =>
    have hprint : AloneStep u s (u, .printLock)
        { s.setPc u .critical with printed := s.printed ++ [.lo u] } :=
      ⟨rfl, by simp [Fires, step, hpc]⟩
    exact ⟨_, _, (Run.single hprint).tail (hclear (by simp [setPc])), by simp, rfl⟩

/-- A thread that runs alone gets the lock where the flag is clear. -/
theorem gets_lock_alone (hpc : s.pc t = .spin) (hflag : s.flag = false) :
    ∃ bs s', Run (AloneStep t) s bs s' ∧ s'.pc t = .critical := by
  have htest : AloneStep t s (t, .testAndSet false)
      { s.setPc t .printLock with flag := true } :=
    ⟨rfl, by simp [Fires, step, hpc, hflag]⟩
  have hprint : ∀ {w : Spinlock ι}, w.pc t = .printLock →
      AloneStep t w (t, .printLock) { w.setPc t .critical with printed := w.printed ++ [.lo t] } :=
    fun hpc => ⟨rfl, by simp [Fires, step, hpc]⟩
  exact ⟨_, _, (Run.single htest).tail (hprint (by simp [setPc])), by simp [setPc]⟩

/-- **`lock()` is not obstruction-free.**  A thread about to call `test_and_set` gets the lock by
steps of its own exactly where nobody has it.  Where somebody has it, nobody else gets it while that
thread is paused, whatever the others do; and two steps of that thread's own are enough for it to
give the lock back. -/
theorem lock_waits_for_owner (h : Run (Fires step) (init : Spinlock ι) as s)
    (hpc : s.pc t = .spin) :
    ((∃ bs s', Run (AloneStep t) s bs s' ∧ s'.pc t = .critical) ↔ ∀ u, ¬ Holding as u) ∧
      ∀ u, Holding as u →
        (∀ bs s', Run (PausedStep u) s bs s' →
          s'.flag = true ∧ ∀ v, (v, .testAndSet false) ∉ bs) ∧
        ∃ bs s', Run (AloneStep u) s bs s' ∧ bs.length ≤ 2 ∧ s'.flag = false := by
  obtain ⟨owner, -, hA⟩ := simulates.run h Abs.init
  refine ⟨⟨?_, fun hfree => ?_⟩, fun u hu => ⟨fun bs s' hrun => ?_, ?_⟩⟩
  · rintro ⟨bs, s', hrun, hcrit⟩ u hu
    have hholds := (holding_run h u).mp hu
    have hut : t ≠ u := by
      rintro rfl
      rw [hpc] at hholds
      exact absurd hholds (by simp [Pc.holds])
    have hpaused : Run (PausedStep u) s bs s' :=
      hrun.mono fun _ _ _ hst => ⟨fun heq => hut (hst.1.symm.trans heq), hst.2⟩
    obtain ⟨hA', -, -⟩ := held_while_owner_pauses ⟨owner, hA⟩ hholds hpaused
    -- the thread would have the lock, which is still the owner's
    exact hut (Option.some.inj ((hA'.holds t).mp (by rw [hcrit]; rfl))).symm
  · refine gets_lock_alone hpc ?_
    rw [hA.flag, Option.isSome_eq_false_iff, Option.isNone_iff_eq_none]
    by_contra hne
    obtain ⟨u, rfl⟩ := Option.ne_none_iff_exists'.mp hne
    exact hfree u ((holding_run h u).mpr ((hA.holds u).mpr rfl))
  · obtain ⟨hA', -, hnone⟩ :=
      held_while_owner_pauses ⟨owner, hA⟩ ((holding_run h u).mp hu) hrun
    exact ⟨hA'.flag, hnone⟩
  · exact owner_clears ((holding_run h u).mp hu)

/-- Thread 1 does not get the lock that thread 0 has. -/
theorem lock_waits_for_owner_two_threads :
    ∃ as s, Run (Fires step) (init : Spinlock (Fin 2)) as s ∧ s.pc 1 = .spin ∧
      ¬ ∃ bs s', Run (AloneStep 1) s bs s' ∧ s'.pc 1 = .critical := by
  obtain ⟨s, hrun, hpc⟩ := exists_run_of_exec step (init : Spinlock (Fin 2))
    [(0, .testAndSet false)] (fun s => s.pc 1 = .spin) ⟨_, rfl, rfl⟩
  refine ⟨_, s, hrun, hpc, fun hgets => ?_⟩
  exact (lock_waits_for_owner hrun hpc).1.mp hgets 0 ⟨[], [], rfl, List.not_mem_nil⟩

end CxxConcurrency.Atomic.Spinlock
