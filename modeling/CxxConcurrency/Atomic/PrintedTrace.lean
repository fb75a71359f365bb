/-
# The lines that the `Spinlock` of `atomic/spin_lock.cpp` prints

`lock()` prints its line while it has the lock, `unlock()` after it has cleared the flag.  Between
the `clear` and the line of `unlock()` another thread can get the lock and print, so the lines of
two threads can come in the order `LO t`, `LO u`, `UN t`.

Apart from that the lines follow the lock: as long as no thread prints `LO` while another is about
to print `UN`, at most one thread is between its two lines (`Traced`), and the lines come in pairs.
Where that happens once they do not, so the condition is exact (`printed_paired_iff`).
-/
import CxxConcurrency.Atomic.SpinLock

namespace CxxConcurrency.Atomic.Spinlock

open CxxConcurrency.Lib

variable {ι : Type*}

/-! ## 1. Pairs of lines -/

/-- The lines of critical sections of the threads `ts`, one after the other. -/
def pairs (ts : List ι) : List (Line ι) := ts.flatMap fun t => [.lo t, .un t]

/-- The lines are the beginning of a sequence of pairs. -/
def Paired (lines : List (Line ι)) : Prop := ∃ ts, lines <+: pairs ts

@[simp] theorem pairs_cons (t : ι) (ts : List ι) : pairs (t :: ts) = .lo t :: .un t :: pairs ts :=
  rfl

@[simp] theorem pairs_append (ts us : List ι) : pairs (ts ++ us) = pairs ts ++ pairs us :=
  List.flatMap_append

theorem Paired.of_prefix {l l' : List (Line ι)} (h : Paired l') (hl : l <+: l') : Paired l := by
  obtain ⟨ts, hts⟩ := h
  exact ⟨ts, hl.trans hts⟩

/-- Behind whole pairs the lines are paired if and only if the rest is. -/
theorem paired_pairs_append_iff {ts : List ι} {l : List (Line ι)} :
    Paired (pairs ts ++ l) ↔ Paired l := by
  constructor
  · rintro ⟨us, hus⟩
    induction ts generalizing us with
    | nil => exact ⟨us, hus⟩
    | cons t ts ih =>
      cases us with
      | nil => exact absurd hus (by simp [pairs])
      | cons u us =>
        rw [pairs_cons, pairs_cons, List.cons_append, List.cons_append,
          List.cons_prefix_cons, List.cons_prefix_cons] at hus
        exact ih us hus.2.2
  · rintro ⟨us, hus⟩
    refine ⟨ts ++ us, ?_⟩
    rw [pairs_append]
    exact (List.prefix_append_right_inj _).mpr hus

/-- **After `LO t` comes `UN t`.** -/
theorem not_paired_lo_lo (t u : ι) : ¬ Paired [.lo t, .lo u] := by
  rintro ⟨_ | ⟨v, ts⟩, hts⟩
  · exact absurd hts (by simp [pairs])
  · exact absurd hts (by simp [List.cons_prefix_cons])

/-! ## 2. The thread between its two lines -/

variable [DecidableEq ι] {s s' : Spinlock ι} {a : ι × Event} {as : List (ι × Event)}
  {owner : Option ι}

/-- The thread has printed the line of `lock()` and not yet that of `unlock()`. -/
def Pc.between : Pc → Bool
  | .critical => true
  | .printUnlock => true
  | _ => false

/-- No thread prints the line of `lock()` while a thread is about to print that of `unlock()`. -/
def NoPendingUn (s : Spinlock ι) (a : ι × Event) : Prop :=
  a.2 = .printLock → ∀ u, s.pc u ≠ .printUnlock

/-- The lines are pairs, and the first line of the thread that is between its two, if any. -/
def Traced (s : Spinlock ι) : Prop :=
  ∃ (ts : List ι) (o : Option ι), s.printed = pairs ts ++ (o.map Line.lo).toList ∧
    ∀ t, (s.pc t).between = true ↔ o = some t

omit [DecidableEq ι] in
theorem Traced.init : Traced (init : Spinlock ι) :=
  ⟨[], none, rfl, fun t => by simp [Spinlock.init, Pc.between]⟩

omit [DecidableEq ι] in
theorem Traced.paired (h : Traced s) : Paired s.printed := by
  obtain ⟨ts, o, hprinted, -⟩ := h
  rw [hprinted, paired_pairs_append_iff]
  cases o with
  | none => exact ⟨[], List.prefix_rfl⟩
  | some t => exact ⟨[t], [.un t], rfl⟩

/-- A step that prints nothing and leaves its thread on the same side of its two lines. -/
theorem Traced.silent (h : Traced s) {t : ι} {p : Pc} (hprinted : s'.printed = s.printed)
    (hpc : s'.pc = Function.update s.pc t p) (hp : p.between = (s.pc t).between) : Traced s' := by
  obtain ⟨ts, o, hts, ho⟩ := h
  refine ⟨ts, o, hprinted.trans hts, ?_⟩
  rw [hpc, Function.forall_update_iff s.pc fun u q => q.between = true ↔ o = some u, hp]
  exact ⟨ho t, fun u _ => ho u⟩

/-- **Where no line of `unlock()` is pending, every step keeps the pairs.** -/
theorem Traced.step (h : Traced s) (hA : Abs s owner) (hst : StepCase s a s')
    (hC : NoPendingUn s a) : Traced s' := by
  cases hst with
  | @testFailed t hpc hflag => exact h.silent rfl rfl (by rw [hpc])
  | @testOk t hpc hflag => exact h.silent rfl rfl (by rw [hpc]; rfl)
  | @printLock t hpc =>
    obtain ⟨ts, o, hts, ho⟩ := h
    -- a thread between its lines has the lock or is about to print the second
    have hnone : ∀ u, (s.pc u).between = false := by
      intro u
      cases hu : s.pc u with
      | spin => rfl
      | printLock => rfl
      | critical =>
        have hut := (hA.holds u).mp (by rw [hu]; rfl)
        have htt := (hA.holds t).mp (by rw [hpc]; rfl)
        obtain rfl : u = t := Option.some.inj (hut.symm.trans htt)
        exact absurd (hpc.symm.trans hu) (by simp)
      | printUnlock => exact absurd hu (hC rfl u)
    obtain rfl : o = none := by
      refine Option.eq_none_iff_forall_not_mem.mpr ?_
      intro u hu
      have hbetween := (ho u).mpr hu
      rw [hnone u] at hbetween
      exact absurd hbetween (by simp)
    refine ⟨ts, some t, ?_, ?_⟩
    · simpa using hts
    · refine (Function.forall_update_iff s.pc fun u q => q.between = true ↔ some t = some u).mpr
        ⟨by simp [Pc.between], ?_⟩
      intro u hut
      simp [hnone u, Ne.symm hut]
  | @clear t hpc => exact h.silent rfl rfl (by rw [hpc]; rfl)
  | @printUnlock t hpc =>
    obtain ⟨ts, o, hts, ho⟩ := h
    obtain rfl : o = some t := (ho t).mp (by rw [hpc]; rfl)
    refine ⟨ts ++ [t], none, ?_, ?_⟩
    · change s.printed ++ [Line.un t] = _
      rw [hts]
      simp [pairs]
    · refine (Function.forall_update_iff s.pc fun u q => q.between = true ↔ none = some u).mpr
        ⟨by simp [Pc.between], ?_⟩
      intro u hut
      have hu := ho u
      simp only [Option.some.injEq, Ne.symm hut, iff_false] at hu
      simp [hu]

theorem Traced.run
    (h : Run (Restrict NoPendingUn (Fires Spinlock.step)) (Spinlock.init : Spinlock ι) as s) :
    Traced s := by
  refine h.trace_invariant (I := fun _ s => Traced s) Traced.init ?_
  intro as s a s' hrun hI hst
  obtain ⟨owner, -, hA⟩ := simulates.run (hrun.mono fun _ _ _ h => h.2) Abs.init
  exact hI.step hA (stepCase_of_step hst.2) hst.1

/-! ## 3. When the lines come in pairs -/

/-- Lines are only added. -/
theorem printed_prefix_step (h : StepCase s a s') : s.printed <+: s'.printed := by
  cases h with
  | printLock => exact List.prefix_append _ _
  | printUnlock => exact List.prefix_append _ _
  | testFailed | testOk | clear => exact List.prefix_rfl

/-- A line of `lock()` while a line of `unlock()` is pending breaks the pairs. -/
theorem Traced.not_paired (h : Traced s) (hst : StepCase s a s') (hC : ¬ NoPendingUn s a) :
    ¬ Paired s'.printed := by
  obtain ⟨t, e⟩ := a
  simp only [NoPendingUn, Classical.not_imp, not_forall, not_not] at hC
  obtain ⟨rfl, u, hu⟩ := hC
  obtain ⟨ts, o, hts, ho⟩ := h
  obtain rfl : o = some u := (ho u).mp (by rw [hu]; rfl)
  cases hst with
  | printLock hpc =>
    change ¬ Paired (s.printed ++ [Line.lo t])
    rw [hts, List.append_assoc, paired_pairs_append_iff]
    exact not_paired_lo_lo u t

/-- **When the printed lines reflect the order of the lock**: exactly in the runs in which no
thread prints `LO` while another is about to print `UN`. -/
theorem printed_paired_iff (h : Run (Fires step) (init : Spinlock ι) as s) :
    Paired s.printed ↔ Run (Restrict NoPendingUn (Fires step)) init as s := by
  constructor
  · intro hpaired
    induction h with
    | refl => exact Run.refl
    | @tail s s' as a hrun hst ih =>
      have hcase := stepCase_of_step hst
      have hrestricted := ih (hpaired.of_prefix (printed_prefix_step hcase))
      refine hrestricted.tail ⟨?_, hst⟩
      by_contra hC
      exact (Traced.run hrestricted).not_paired hcase hC hpaired
  · intro hrestricted
    exact (Traced.run hrestricted).paired

/-- Thread 1 prints after thread 0 has printed both its lines. -/
theorem printed_paired_two_threads :
    ∃ s, Run (Restrict NoPendingUn (Fires step)) (init : Spinlock (Fin 2))
        [(0, .testAndSet false), (0, .printLock), (0, .clear), (1, .testAndSet false),
          (0, .printUnlock), (1, .printLock)] s ∧ s.printed = [.lo 0, .un 0, .lo 1] := by
  have hrun : Run (Fires step) (init : Spinlock (Fin 2))
      [(0, .testAndSet false), (0, .printLock), (0, .clear), (1, .testAndSet false),
        (0, .printUnlock), (1, .printLock)] _ := run_of_exec rfl
  exact ⟨_, (printed_paired_iff hrun).mp ⟨[0, 1], [.un 1], rfl⟩, rfl⟩

/-- **The lines can come in another order**: thread 1 prints `LO` between the two lines of
thread 0. -/
theorem printed_lo_between_lines :
    ¬ ∀ (n : ℕ) (as : List (Fin n × Event)) (s : Spinlock (Fin n)),
      Run (Fires step) init as s → Paired s.printed := by
  intro hall
  have hrun : Run (Fires step) (init : Spinlock (Fin 2))
      [(0, .testAndSet false), (0, .printLock), (0, .clear), (1, .testAndSet false),
        (1, .printLock)] _ := run_of_exec rfl
  exact not_paired_lo_lo 0 1 (hall 2 _ _ hrun)

end CxxConcurrency.Atomic.Spinlock
