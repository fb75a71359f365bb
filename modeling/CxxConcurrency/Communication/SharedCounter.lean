/-
# The counter in shared memory of `communication/boost_interprocess_atomic.cpp`

`server` and `client` open or create the segment named `shm-cache`, find or construct the
`std::atomic< int >` named `shm-counter` in it, and increment it.  A server ends with `~Segment`,
which destroys the counter and removes the name of the segment; processes that have the segment
open keep it.

Nothing in the code ties `~Segment` to the other processes, so a server that ends takes the
counter away from those still attached, and a process that opens the name afterwards gets a segment
of its own (`attached_to_dead_counter`).  All attached processes share one live counter as long as a
server ends only when no other process has the segment open, and no process opens it until
`~Segment` has returned (`attached_share_live_counter`).
-/
import CxxConcurrency.Lib.Run
import Mathlib.Data.Fintype.Basic
import Mathlib.Logic.Function.Basic

namespace CxxConcurrency.Communication

open CxxConcurrency.Lib

/-! ## 1. The state -/

/-- Which function the process runs. -/
inductive Role
  | server
  | client
  deriving DecidableEq

/-- Where a process is. -/
inductive Pc
  /-- It has not opened the segment. -/
  | notStarted
  /-- It has opened segment `seg`, about to call `find_or_construct`. -/
  | opened (seg : ℕ)
  /-- It has segment `seg` open and increments the counter `obj`. -/
  | attached (seg obj : ℕ)
  /-- In `~Segment`, between `destroy` and `remove`. -/
  | removing (seg : ℕ)
  /-- `~Segment` has returned. -/
  | ended
  deriving DecidableEq

/-- The process has the segment open. -/
def Pc.hasOpen : Pc → Bool
  | .notStarted => false
  | .ended => false
  | _ => true

/-- The process is in `~Segment`, between its two steps. -/
def Pc.isRemoving : Pc → Bool
  | .removing _ => true
  | _ => false

/-- The shared memory and the processes.  Segments and counters are numbered in the order of
their creation. -/
structure System (ι : Type*) where
  /-- The segment the name `shm-cache` stands for. -/
  name : Option ℕ
  segments : ℕ
  /-- The object named `shm-counter` in each segment. -/
  counter : ℕ → Option ℕ
  objects : ℕ
  destroyed : ℕ → Bool
  /-- The value of each counter, a `std::atomic< int >`. -/
  value : ℕ → BitVec 32
  /-- How many times `a++` has been executed on each counter. -/
  incs : ℕ → ℕ
  pc : ι → Pc

variable {ι : Type*} [DecidableEq ι]

/-- The machine before the first process, with no such segment. -/
def System.init : System ι where
  name := none
  segments := 0
  counter _ := none
  objects := 0
  destroyed _ := false
  value _ := 0
  incs _ := 0
  pc _ := .notStarted

/-- Process `p` moves to `pc`. -/
def System.setPc (s : System ι) (p : ι) (pc : Pc) : System ι :=
  { s with pc := Function.update s.pc p pc }

/-! ## 2. The steps -/

/-- The label of a step: the operation, and the process that makes it. -/
inductive Act (ι : Type*)
  /-- `managed_shared_memory( open_or_create, "shm-cache", 1024 )`. -/
  | openOrCreate (p : ι)
  /-- `find_or_construct< AtomicT >( "shm-counter" )( 0 )`. -/
  | findOrConstruct (p : ι)
  /-- `a++`. -/
  | increment (p : ι)
  /-- `~Segment` begins with `seg.destroy< AtomicT >( "shm-counter" )`. -/
  | destroy (p : ι)
  /-- `shared_memory_object::remove( "shm-cache" )`. -/
  | remove (p : ι)

/-- A new segment for the name, opened by `p`. -/
def System.create (s : System ι) (p : ι) : System ι :=
  { s.setPc p (.opened s.segments) with
    name := some s.segments
    segments := s.segments + 1
    counter := Function.update s.counter s.segments none }

/-- A new counter with the value 0 in segment `g`, attached to by `p`. -/
def System.construct (s : System ι) (p : ι) (g : ℕ) : System ι :=
  { s.setPc p (.attached g s.objects) with
    counter := Function.update s.counter g (some s.objects)
    objects := s.objects + 1
    destroyed := Function.update s.destroyed s.objects false
    value := Function.update s.value s.objects 0
    incs := Function.update s.incs s.objects 0 }

/-- `a++` on counter `o`. -/
def System.incr (s : System ι) (o : ℕ) : System ι :=
  { s with
    value := Function.update s.value o (s.value o + 1)
    incs := Function.update s.incs o (s.incs o + 1) }

/-- The counter of segment `g`, if there is one, is destroyed. -/
def System.destroyCounter (s : System ι) (g : ℕ) : System ι :=
  match s.counter g with
  | some o =>
    { s with
      counter := Function.update s.counter g none
      destroyed := Function.update s.destroyed o true }
  | none => s

/-- One step; `a++` on a counter that has been destroyed has no next state. -/
def System.step (role : ι → Role) (s : System ι) : Act ι → Option (System ι)
  | .openOrCreate p =>
    match s.pc p with
    | .notStarted =>
      match s.name with
      | some g => some (s.setPc p (.opened g))
      | none => some (s.create p)
    | _ => none
  | .findOrConstruct p =>
    match s.pc p with
    | .opened g =>
      match s.counter g with
      | some o => some (s.setPc p (.attached g o))
      | none => some (s.construct p g)
    | _ => none
  | .increment p =>
    match s.pc p with
    | .attached _ o => if s.destroyed o then none else some (s.incr o)
    | _ => none
  | .destroy p =>
    if role p = .server then
      match s.pc p with
      | .attached g _ => some ((s.destroyCounter g).setPc p (.removing g))
      | _ => none
    else none
  | .remove p =>
    match s.pc p with
    | .removing _ => some { s.setPc p .ended with name := none }
    | _ => none

/-- The cases of a step. -/
inductive StepCase (s : System ι) : Act ι → System ι → Prop
  | opened {p : ι} {g : ℕ} (hpc : s.pc p = .notStarted) (hname : s.name = some g) :
      StepCase s (.openOrCreate p) (s.setPc p (.opened g))
  | created {p : ι} (hpc : s.pc p = .notStarted) (hname : s.name = none) :
      StepCase s (.openOrCreate p) (s.create p)
  | found {p : ι} {g o : ℕ} (hpc : s.pc p = .opened g) (hcounter : s.counter g = some o) :
      StepCase s (.findOrConstruct p) (s.setPc p (.attached g o))
  | constructed {p : ι} {g : ℕ} (hpc : s.pc p = .opened g) (hcounter : s.counter g = none) :
      StepCase s (.findOrConstruct p) (s.construct p g)
  | increment {p : ι} {g o : ℕ} (hpc : s.pc p = .attached g o)
      (hlive : s.destroyed o = false) : StepCase s (.increment p) (s.incr o)
  | destroy {p : ι} {g o : ℕ} (hpc : s.pc p = .attached g o) :
      StepCase s (.destroy p) ((s.destroyCounter g).setPc p (.removing g))
  | remove {p : ι} {g : ℕ} (hpc : s.pc p = .removing g) :
      StepCase s (.remove p) { s.setPc p .ended with name := none }

/-- **Every step is one of the cases.** -/
theorem stepCase_of_step {role : ι → Role} {s s' : System ι} {a : Act ι}
    (h : s.step role a = some s') : StepCase s a s' := by
  cases a with
  | openOrCreate p =>
    simp only [System.step] at h
    split at h
    · rename_i hpc
      split at h
      · rename_i g hname
        obtain rfl := Option.some.inj h
        exact .opened hpc hname
      · rename_i hname
        obtain rfl := Option.some.inj h
        exact .created hpc hname
    · exact absurd h (by simp)
  | findOrConstruct p =>
    simp only [System.step] at h
    split at h
    · rename_i g hpc
      split at h
      · rename_i o hcounter
        obtain rfl := Option.some.inj h
        exact .found hpc hcounter
      · rename_i hcounter
        obtain rfl := Option.some.inj h
        exact .constructed hpc hcounter
    · exact absurd h (by simp)
  | increment p =>
    simp only [System.step] at h
    split at h
    · rename_i g o hpc
      split at h
      · exact absurd h (by simp)
      · rename_i hlive
        obtain rfl := Option.some.inj h
        exact .increment hpc (by simpa using hlive)
    · exact absurd h (by simp)
  | destroy p =>
    simp only [System.step] at h
    split at h
    · split at h
      · rename_i g o hpc
        obtain rfl := Option.some.inj h
        exact .destroy hpc
      · exact absurd h (by simp)
    · exact absurd h (by simp)
  | remove p =>
    simp only [System.step] at h
    split at h
    · rename_i g hpc
      obtain rfl := Option.some.inj h
      exact .remove hpc
    · exact absurd h (by simp)

/-! ## 3. Sharing the counter -/

variable {s s' : System ι} {a : Act ι} {role : ι → Role} {as : List (Act ι)}

/-- All attached processes refer to the same counter, it has not been destroyed, and its value is
the number of `a++` since it was created (as an `int`, modulo `2 ^ 32`). -/
structure Shared (s : System ι) : Prop where
  same : ∀ p q g g' o o', s.pc p = .attached g o → s.pc q = .attached g' o' → o = o'
  live : ∀ p g o, s.pc p = .attached g o → s.destroyed o = false
  value : ∀ p g o, s.pc p = .attached g o → s.value o = BitVec.ofNat 32 (s.incs o)

/-- A server begins `~Segment` only when no other process has the segment open, and no process
opens the segment during `~Segment`. -/
def Undisturbed (s : System ι) : Act ι → Prop
  | .destroy p => ∀ q, q ≠ p → (s.pc q).hasOpen = false
  | .openOrCreate _ => ∀ q, (s.pc q).isRemoving = false
  | _ => True

instance [Fintype ι] (s : System ι) : ∀ a, Decidable (Undisturbed s a)
  | .destroy p => inferInstanceAs (Decidable (∀ q, q ≠ p → (s.pc q).hasOpen = false))
  | .openOrCreate _ => inferInstanceAs (Decidable (∀ q, (s.pc q).isRemoving = false))
  | .findOrConstruct _ => isTrue trivial
  | .increment _ => isTrue trivial
  | .remove _ => isTrue trivial

/-- The invariant of the runs in which no `~Segment` is disturbed. -/
structure Inv (s : System ι) : Prop where
  /-- A process in `~Segment` is the only one that has the segment open. -/
  alone : ∀ p, (s.pc p).isRemoving = true → ∀ q, q ≠ p → (s.pc q).hasOpen = false
  /-- All others have the segment open that the name stands for. -/
  opened : ∀ p g, s.pc p = .opened g → s.name = some g
  attached : ∀ p g o, s.pc p = .attached g o → s.name = some g ∧ s.counter g = some o
  live : ∀ g o, s.name = some g → s.counter g = some o → s.destroyed o = false
  value : ∀ o, s.value o = BitVec.ofNat 32 (s.incs o)

omit [DecidableEq ι] in
theorem Inv.init : Inv (System.init : System ι) where
  alone p hp := by simp [System.init, Pc.isRemoving] at hp
  opened p g hp := by simp [System.init] at hp
  attached p g o hp := by simp [System.init] at hp
  live g o hg := by simp [System.init] at hg
  value o := rfl

omit [DecidableEq ι] in
/-- The invariant is what sharing needs. -/
theorem Inv.shared (hI : Inv s) : Shared s where
  same p q g g' o o' hp hq := by
    obtain ⟨hname, hcounter⟩ := hI.attached p g o hp
    obtain ⟨hname', hcounter'⟩ := hI.attached q g' o' hq
    obtain rfl := Option.some.inj (hname.symm.trans hname')
    exact Option.some.inj (hcounter.symm.trans hcounter')
  live p g o hp := hI.live g o (hI.attached p g o hp).1 (hI.attached p g o hp).2
  value _ _ o _ := hI.value o

omit [DecidableEq ι] in
/-- The counter of a segment is gone once it has been destroyed. -/
theorem counter_destroyCounter (g : ℕ) : (s.destroyCounter g).counter g = none := by
  unfold System.destroyCounter
  split
  · exact Function.update_self _ _ _
  · assumption

omit [DecidableEq ι] in
/-- Destroying a counter is about the counter alone. -/
theorem destroyCounter_frame (g : ℕ) :
    (s.destroyCounter g).name = s.name ∧ (s.destroyCounter g).pc = s.pc ∧
      (s.destroyCounter g).value = s.value ∧ (s.destroyCounter g).incs = s.incs := by
  unfold System.destroyCounter
  split <;> exact ⟨rfl, rfl, rfl, rfl⟩

/-- What has to be shown when process `p` moves to `pc`: what `pc` claims is true, and what the
others rely on stays. -/
theorem Inv.of_move (hI : Inv s) (p : ι) (pc : Pc) (hpc : s'.pc = Function.update s.pc p pc)
    (halone : pc.isRemoving = true → ∀ q, q ≠ p → (s.pc q).hasOpen = false)
    (hremoving : pc.hasOpen = true → ∀ q, q ≠ p → (s.pc q).isRemoving = false)
    (hopened : ∀ g, pc = .opened g → s'.name = some g)
    (hattached : ∀ g o, pc = .attached g o → s'.name = some g ∧ s'.counter g = some o)
    (hopened' : ∀ q, q ≠ p → ∀ g, s.pc q = .opened g → s'.name = some g)
    (hattached' : ∀ q, q ≠ p → ∀ g o, s.pc q = .attached g o →
      s'.name = some g ∧ s'.counter g = some o)
    (hlive : ∀ g o, s'.name = some g → s'.counter g = some o → s'.destroyed o = false)
    (hvalue : ∀ o, s'.value o = BitVec.ofNat 32 (s'.incs o)) : Inv s' where
  alone q hq r hr := by
    by_cases hqp : q = p
    · subst hqp
      rw [hpc, Function.update_self] at hq
      rw [hpc, Function.update_of_ne hr]
      exact halone hq r hr
    · rw [hpc, Function.update_of_ne hqp] at hq
      by_cases hrp : r = p
      · subst hrp
        rw [hpc, Function.update_self]
        by_contra hopen
        rw [hremoving (by simpa using hopen) q hqp] at hq
        exact absurd hq (by simp)
      · rw [hpc, Function.update_of_ne hrp]
        exact hI.alone q hq r hr
  opened := by
    rw [hpc, Function.forall_update_iff s.pc fun _ c => ∀ g, c = .opened g → s'.name = some g]
    exact ⟨hopened, hopened'⟩
  attached := by
    rw [hpc, Function.forall_update_iff s.pc fun _ c => ∀ g o, c = .attached g o →
      s'.name = some g ∧ s'.counter g = some o]
    exact ⟨hattached, hattached'⟩
  live := hlive
  value := hvalue

omit [DecidableEq ι] in
/-- While a process has the segment open, no other is in `~Segment`. -/
theorem Inv.not_removing (hI : Inv s) {p : ι} (hp : (s.pc p).hasOpen = true) (q : ι)
    (hq : q ≠ p) : (s.pc q).isRemoving = false := by
  by_contra hremoving
  rw [hI.alone q (by simpa using hremoving) p hq.symm] at hp
  exact absurd hp (by simp)

/-- While no `~Segment` runs and the name is free, a process may create the segment. -/
theorem Inv.create (hI : Inv s) {p : ι} (hname : s.name = none)
    (hremoving : ∀ q, (s.pc q).isRemoving = false) : Inv (s.create p) := by
  refine hI.of_move p _ rfl (by simp [Pc.isRemoving]) (fun _ q _ => hremoving q) ?_ (by simp)
    ?_ ?_ ?_ hI.value
  · intro g hg
    obtain rfl := Pc.opened.inj hg
    rfl
  · intro q _ g hq
    rw [hI.opened q g hq] at hname
    exact absurd hname (by simp)
  · intro q _ g o hq
    rw [(hI.attached q g o hq).1] at hname
    exact absurd hname (by simp)
  · intro g o hg hcounter
    obtain rfl : s.segments = g := Option.some.inj hg
    simp [System.create] at hcounter

/-- A process may construct the counter in the segment it has opened, if there is none. -/
theorem Inv.construct (hI : Inv s) {p : ι} {g : ℕ} (hpc : s.pc p = .opened g)
    (hcounter : s.counter g = none) : Inv (s.construct p g) := by
  have hname := hI.opened p g hpc
  refine hI.of_move p _ rfl (by simp [Pc.isRemoving])
    (fun _ => hI.not_removing (by simp [hpc, Pc.hasOpen])) (by simp) ?_
    (fun q _ => hI.opened q) ?_ ?_ ?_
  · intro g' o' hg
    obtain ⟨rfl, rfl⟩ := Pc.attached.inj hg
    exact ⟨hname, Function.update_self _ _ _⟩
  · -- nobody is attached to a segment without a counter
    intro q _ g' o hq
    obtain ⟨hname', hcounter'⟩ := hI.attached q g' o hq
    obtain rfl := Option.some.inj (hname.symm.trans hname')
    rw [hcounter] at hcounter'
    exact absurd hcounter' (by simp)
  · intro g' o hg hcounter'
    obtain rfl := Option.some.inj (hname.symm.trans hg)
    obtain rfl : s.objects = o := by simpa [System.construct] using hcounter'
    exact Function.update_self _ _ _
  · intro o
    by_cases ho : o = s.objects
    · simp [System.construct, ho]
    · simpa [System.construct, ho] using hI.value o

/-- A process that is alone with the segment may destroy the counter. -/
theorem Inv.destroy (hI : Inv s) {p : ι} {g o : ℕ} (hpc : s.pc p = .attached g o)
    (halone : ∀ q, q ≠ p → (s.pc q).hasOpen = false) :
    Inv ((s.destroyCounter g).setPc p (.removing g)) := by
  obtain ⟨hname, hpcs, hvalue, hincs⟩ := destroyCounter_frame (s := s) g
  have hsegment := (hI.attached p g o hpc).1
  refine hI.of_move p (.removing g) (by simp [System.setPc, hpcs]) (fun _ => halone)
    (fun _ => hI.not_removing (by simp [hpc, Pc.hasOpen])) (by simp) (by simp)
    ?_ ?_ ?_ ?_
  · intro q hq g' hg
    simpa [hg, Pc.hasOpen] using halone q hq
  · intro q hq g' o' hg
    simpa [hg, Pc.hasOpen] using halone q hq
  · intro g' o' hg hcounter
    obtain rfl : g = g' := Option.some.inj (hsegment.symm.trans (hname.symm.trans hg))
    exact absurd ((counter_destroyCounter g).symm.trans hcounter) (by simp)
  · intro o'
    change (s.destroyCounter g).value o' = BitVec.ofNat 32 ((s.destroyCounter g).incs o')
    rw [hvalue, hincs]
    exact hI.value o'

/-- **An undisturbed step keeps the invariant.** -/
theorem Inv.step (h : StepCase s a s') (hC : Undisturbed s a) (hI : Inv s) : Inv s' := by
  cases h with
  | @opened p g hpc hname =>
    refine hI.of_move p _ rfl (by simp [Pc.isRemoving]) (fun _ q _ => hC q) ?_
      (by simp) (fun q _ => hI.opened q) (fun q _ => hI.attached q) hI.live hI.value
    intro g' hg
    obtain rfl := Pc.opened.inj hg
    exact hname
  | created hpc hname => exact hI.create hname hC
  | @found p g o hpc hcounter =>
    refine hI.of_move p _ rfl (by simp [Pc.isRemoving])
      (fun _ => hI.not_removing (by simp [hpc, Pc.hasOpen])) (by simp) ?_
      (fun q _ => hI.opened q) (fun q _ => hI.attached q) hI.live hI.value
    intro g' o' hg
    obtain ⟨rfl, rfl⟩ := Pc.attached.inj hg
    exact ⟨hI.opened p g hpc, hcounter⟩
  | constructed hpc hcounter => exact hI.construct hpc hcounter
  | @increment p g o hpc hlive =>
    refine ⟨hI.alone, hI.opened, hI.attached, hI.live, ?_⟩
    intro o'
    by_cases ho : o' = o
    · subst ho
      simp [System.incr, hI.value o', BitVec.ofNat_add]
    · simpa [System.incr, ho] using hI.value o'
  | destroy hpc => exact hI.destroy hpc hC
  | @remove p g hpc =>
    have halone := hI.alone p (by simp [hpc, Pc.isRemoving])
    refine hI.of_move p .ended rfl (by simp [Pc.isRemoving]) (by simp [Pc.hasOpen])
      (by simp) (by simp) ?_ ?_ (by simp) hI.value
    · intro q hq g' hg
      simpa [hg, Pc.hasOpen] using halone q hq
    · intro q hq g' o' hg
      simpa [hg, Pc.hasOpen] using halone q hq

/-! ## 4. The processes -/

/-- **When all attached processes share one live counter.**  In a run in which a server begins
`~Segment` only when no other process has the segment open, and no process opens it until
`~Segment` has returned, the attached processes refer to one counter that has not been destroyed
and whose value is the number of `a++` since it was created. -/
theorem attached_share_live_counter
    (h : Run (Restrict Undisturbed (Fires (System.step role))) System.init as s) : Shared s :=
  (h.invariant (fun _ _ _ hI hst => hI.step (stepCase_of_step hst.2) hst.1) Inv.init).shared

/-- Two servers one after the other, and then a client beside the second. -/
theorem attached_share_live_counter_three :
    ∃ s, Run (Restrict Undisturbed (Fires (System.step fun p : Fin 3 =>
          if p = 2 then Role.client else Role.server))) System.init
        [.openOrCreate 0, .findOrConstruct 0, .increment 0, .destroy 0, .remove 0,
          .openOrCreate 1, .findOrConstruct 1, .openOrCreate 2, .increment 1, .findOrConstruct 2,
          .increment 2] s ∧
      s.pc 2 = .attached 1 1 ∧ s.destroyed 1 = false ∧ s.value 1 = BitVec.ofNat 32 (s.incs 1) ∧
      s.incs 1 = 2 := by
  obtain ⟨s, hrun, hpc, hincs⟩ := exists_restricted_run_of_exec Undisturbed
    (System.step fun p : Fin 3 => if p = 2 then Role.client else Role.server)
    System.init
    [.openOrCreate 0, .findOrConstruct 0, .increment 0, .destroy 0, .remove 0,
      .openOrCreate 1, .findOrConstruct 1, .openOrCreate 2, .increment 1, .findOrConstruct 2,
      .increment 2]
    (fun s => s.pc 2 = .attached 1 1 ∧ s.incs 1 = 2) (by decide)
  have hshared := attached_share_live_counter hrun
  exact ⟨s, hrun, hpc, hshared.live 2 1 1 hpc, hshared.value 2 1 1 hpc, hincs⟩

/-- **A server that ends takes the counter away**: the client beside it stays attached to a
counter that has been destroyed, and a client that starts afterwards gets a segment of its own, so
that the two count apart. -/
theorem attached_to_dead_counter :
    (¬ ∀ (n : ℕ) (role : Fin n → Role) (as : List (Act (Fin n))) (s : System (Fin n)),
      Run (Fires (System.step role)) System.init as s → Shared s) ∧
    ∃ s, Run (Fires (System.step fun p : Fin 3 => if p = 0 then Role.server else Role.client))
        System.init
        [.openOrCreate 0, .findOrConstruct 0, .openOrCreate 1, .findOrConstruct 1, .destroy 0,
          .remove 0, .openOrCreate 2, .findOrConstruct 2] s ∧
      s.pc 1 = .attached 0 0 ∧ s.pc 2 = .attached 1 1 := by
  refine ⟨fun hall => ?_, exists_run_of_exec _ _ _ _ (by decide)⟩
  obtain ⟨s, hrun, hpc, hdead⟩ := exists_run_of_exec
    (System.step fun p : Fin 2 => if p = 0 then Role.server else Role.client)
    System.init
    [.openOrCreate 0, .findOrConstruct 0, .openOrCreate 1, .findOrConstruct 1, .destroy 0]
    (fun s => s.pc 1 = .attached 0 0 ∧ s.destroyed 0 = true) (by decide)
  rw [(hall 2 _ _ s hrun).live 1 0 0 hpc] at hdead
  exact absurd hdead (by simp)

end CxxConcurrency.Communication
