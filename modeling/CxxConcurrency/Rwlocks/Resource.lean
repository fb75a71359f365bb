/-
# The reader-writer map of `rwlocks/shared_mutex.cpp`

`Resource` guards a `std::map<int, int>` with a `std::shared_mutex`.  `read` holds the lock
shared while it calls `find` and evaluates its return value; `write` holds it exclusively while
it evaluates `m[k]`, which inserts the key with the value 0 where it is absent, and then assigns.
Each of these is one step of one thread; the labels say what a thread locks for and what it
returns.

So a write passes through a state with an entry that nobody has written.  Only the holder of the
exclusive lock can be in such a state: whoever holds the lock shared finds the map as the writes
that have released the lock have left it (`Inv`), and each key is an atomic register
(`read_returns_last_write`).
-/
import CxxConcurrency.Lib.Mutex
import CxxConcurrency.Lib.Run
import CxxConcurrency.Lib.Writes
import Mathlib.Logic.Function.Basic

namespace CxxConcurrency.Rwlocks

open CxxConcurrency.Lib

/-! ## 1. The state and the steps -/

/-- Where a thread is. -/
inductive Resource.Pc
  /-- Between two calls. -/
  | idle
  /-- In `read`, holding the lock shared; about to call `m.find( k )`. -/
  | find (k : ℤ)
  /-- In `read`, `it` points to the entry of `k` if `found`; about to evaluate what is returned. -/
  | value (k : ℤ) (found : Bool)
  /-- In `read`, about to release the lock and return `v`. -/
  | unlockShared (k v : ℤ)
  /-- In `write`, holding the lock exclusively; about to evaluate `m[k]`. -/
  | subscript (k v : ℤ)
  /-- In `write`, about to assign `v` to the entry of `k`. -/
  | assign (k v : ℤ)
  /-- In `write`, about to release the lock and return. -/
  | unlock (k v : ℤ)
  deriving DecidableEq

/-- A `Resource` and the threads that use it. -/
structure Resource (ι : Type*) where
  shm : SharedMutex ι
  m : ℤ → Option ℤ
  pc : ι → Resource.Pc

namespace Resource

variable {ι : Type*}

/-- The resource just constructed. -/
def init : Resource ι := ⟨SharedMutex.free, fun _ => none, fun _ => .idle⟩

/-- What a thread does in a step. -/
inductive Event
  /-- `read( k )` is called and has locked. -/
  | lockShared (k : ℤ)
  /-- `m.find( k )`. -/
  | find
  /-- `it->second` or `-1` is evaluated. -/
  | value
  /-- `read( k )` unlocks and returns `v`. -/
  | returned (k v : ℤ)
  /-- `write( k, v )` is called and has locked. -/
  | lock (k v : ℤ)
  /-- `m[k]`. -/
  | subscript
  /-- The assignment. -/
  | assign
  /-- `write( k, v )` unlocks and returns. -/
  | unlock (k v : ℤ)
  deriving DecidableEq

variable [DecidableEq ι]

/-- Thread `t` moves to `p`. -/
def setPc (s : Resource ι) (t : ι) (p : Pc) : Resource ι :=
  { s with pc := Function.update s.pc t p }

/-- The entry of `k` becomes `v`. -/
def setEntry (s : Resource ι) (k v : ℤ) : Resource ι :=
  { s with m := Function.update s.m k (some v) }

/-- One step of one thread. -/
def step (s : Resource ι) : ι × Event → Option (Resource ι)
  | (t, .lockShared k) =>
    if s.pc t = .idle then
      (s.shm.lockShared? t).map fun l => { s.setPc t (.find k) with shm := l }
    else none
  | (t, .find) =>
    match s.pc t with
    | .find k => some (s.setPc t (.value k (s.m k).isSome))
    | _ => none
  | (t, .value) =>
    match s.pc t with
    | .value k true => (s.m k).map fun v => s.setPc t (.unlockShared k v)
    | .value k false => some (s.setPc t (.unlockShared k (-1)))
    | _ => none
  | (t, .returned k v) =>
    if s.pc t = .unlockShared k v then
      (s.shm.unlockShared? t).map fun l => { s.setPc t .idle with shm := l }
    else none
  | (t, .lock k v) =>
    if s.pc t = .idle then
      (s.shm.lock? t).map fun l => { s.setPc t (.subscript k v) with shm := l }
    else none
  | (t, .subscript) =>
    match s.pc t with
    | .subscript k v =>
      some (if (s.m k).isSome then s.setPc t (.assign k v)
        else (s.setEntry k 0).setPc t (.assign k v))
    | _ => none
  | (t, .assign) =>
    match s.pc t with
    | .assign k v => some ((s.setEntry k v).setPc t (.unlock k v))
    | _ => none
  | (t, .unlock k v) =>
    if s.pc t = .unlock k v then
      (s.shm.unlock? t).map fun l => { s.setPc t .idle with shm := l }
    else none

/-- The cases of a step. -/
inductive StepCase (s : Resource ι) : ι × Event → Resource ι → Prop
  | lockShared {t : ι} {k : ℤ} {l : SharedMutex ι} (hpc : s.pc t = .idle)
      (hlock : s.shm.lockShared? t = some l) :
      StepCase s (t, .lockShared k) { s.setPc t (.find k) with shm := l }
  | find {t : ι} {k : ℤ} (hpc : s.pc t = .find k) :
      StepCase s (t, .find) (s.setPc t (.value k (s.m k).isSome))
  | hit {t : ι} {k v : ℤ} (hpc : s.pc t = .value k true) (hm : s.m k = some v) :
      StepCase s (t, .value) (s.setPc t (.unlockShared k v))
  | miss {t : ι} {k : ℤ} (hpc : s.pc t = .value k false) :
      StepCase s (t, .value) (s.setPc t (.unlockShared k (-1)))
  | returned {t : ι} {k v : ℤ} {l : SharedMutex ι} (hpc : s.pc t = .unlockShared k v)
      (hlock : s.shm.unlockShared? t = some l) :
      StepCase s (t, .returned k v) { s.setPc t .idle with shm := l }
  | lock {t : ι} {k v : ℤ} {l : SharedMutex ι} (hpc : s.pc t = .idle)
      (hlock : s.shm.lock? t = some l) :
      StepCase s (t, .lock k v) { s.setPc t (.subscript k v) with shm := l }
  | present {t : ι} {k v : ℤ} (hpc : s.pc t = .subscript k v) (hm : (s.m k).isSome = true) :
      StepCase s (t, .subscript) (s.setPc t (.assign k v))
  | absent {t : ι} {k v : ℤ} (hpc : s.pc t = .subscript k v) (hm : (s.m k).isSome = false) :
      StepCase s (t, .subscript) ((s.setEntry k 0).setPc t (.assign k v))
  | assign {t : ι} {k v : ℤ} (hpc : s.pc t = .assign k v) :
      StepCase s (t, .assign) ((s.setEntry k v).setPc t (.unlock k v))
  | unlock {t : ι} {k v : ℤ} {l : SharedMutex ι} (hpc : s.pc t = .unlock k v)
      (hlock : s.shm.unlock? t = some l) :
      StepCase s (t, .unlock k v) { s.setPc t .idle with shm := l }

/-- **Every step is one of the cases.** -/
theorem stepCase_of_step {s s' : Resource ι} {a : ι × Event} (h : s.step a = some s') :
    StepCase s a s' := by
  obtain ⟨t, e⟩ := a
  cases e with
  | lockShared k =>
    simp only [step] at h
    split at h
    · rename_i hpc
      obtain ⟨l, hlock, rfl⟩ := Option.map_eq_some_iff.mp h
      exact .lockShared hpc hlock
    · exact absurd h (by simp)
  | find =>
    simp only [step] at h
    split at h
    · rename_i k hpc
      obtain rfl := Option.some.inj h
      exact .find hpc
    · exact absurd h (by simp)
  | value =>
    simp only [step] at h
    split at h
    · rename_i k hpc
      obtain ⟨v, hm, rfl⟩ := Option.map_eq_some_iff.mp h
      exact .hit hpc hm
    · rename_i k hpc
      obtain rfl := Option.some.inj h
      exact .miss hpc
    · exact absurd h (by simp)
  | returned k v =>
    simp only [step] at h
    split at h
    · rename_i hpc
      obtain ⟨l, hlock, rfl⟩ := Option.map_eq_some_iff.mp h
      exact .returned hpc hlock
    · exact absurd h (by simp)
  | lock k v =>
    simp only [step] at h
    split at h
    · rename_i hpc
      obtain ⟨l, hlock, rfl⟩ := Option.map_eq_some_iff.mp h
      exact .lock hpc hlock
    · exact absurd h (by simp)
  | subscript =>
    simp only [step] at h
    split at h
    · rename_i k v hpc
      obtain rfl := Option.some.inj h
      cases hm : (s.m k).isSome with
      | true => exact .present hpc hm
      | false => exact .absent hpc hm
    · exact absurd h (by simp)
  | assign =>
    simp only [step] at h
    split at h
    · rename_i k v hpc
      obtain rfl := Option.some.inj h
      exact .assign hpc
    · exact absurd h (by simp)
  | unlock k v =>
    simp only [step] at h
    split at h
    · rename_i hpc
      obtain ⟨l, hlock, rfl⟩ := Option.map_eq_some_iff.mp h
      exact .unlock hpc hlock
    · exact absurd h (by simp)

/-! ## 2. Who holds the lock -/

variable {s s' : Resource ι} {a : ι × Event} {as : List (ι × Event)} {t : ι}

/-- The key of the `read` a thread is in. -/
def Pc.read? : Pc → Option ℤ
  | .find k => some k
  | .value k _ => some k
  | .unlockShared k _ => some k
  | _ => none

/-- The arguments of the `write` a thread is in. -/
def Pc.write? : Pc → Option (ℤ × ℤ)
  | .subscript k v => some (k, v)
  | .assign k v => some (k, v)
  | .unlock k v => some (k, v)
  | _ => none

/-- The lock is held shared by the threads in `read`, and exclusively by one in `write`. -/
structure Locked (s : Resource ι) : Prop where
  shared : ∀ t, t ∈ s.shm.shared ↔ ((s.pc t).read?).isSome = true
  exclusive : ∀ t, s.shm.exclusive = some t ↔ ((s.pc t).write?).isSome = true

omit [DecidableEq ι] in
theorem Locked.init : Locked (init : Resource ι) where
  shared t := by simp [Resource.init, SharedMutex.free, Pc.read?]
  exclusive t := by simp [Resource.init, SharedMutex.free, Pc.write?]

/-- A thread moves in its own steps only. -/
theorem pc_of_ne (h : StepCase s a s') {u : ι} (hu : u ≠ a.1) : s'.pc u = s.pc u := by
  cases h <;> exact Function.update_of_ne hu _ _

/-- **What a step of one thread has to show of the lock**: the other threads hold what they held,
and thread `t` holds what its new place says. -/
theorem Locked.of_step (hL : Locked s) {p : Pc} (hpc : s'.pc = Function.update s.pc t p)
    (hshared : ∀ u, u ≠ t → (u ∈ s'.shm.shared ↔ u ∈ s.shm.shared))
    (hexclusive : ∀ u, u ≠ t → (s'.shm.exclusive = some u ↔ s.shm.exclusive = some u))
    (hread : t ∈ s'.shm.shared ↔ p.read?.isSome = true)
    (hwrite : s'.shm.exclusive = some t ↔ p.write?.isSome = true) : Locked s' := by
  constructor
  · rw [hpc]
    exact (Function.forall_update_iff s.pc
      fun u q => u ∈ s'.shm.shared ↔ q.read?.isSome = true).mpr
        ⟨hread, fun u hu => (hshared u hu).trans (hL.shared u)⟩
  · rw [hpc]
    exact (Function.forall_update_iff s.pc
      fun u q => s'.shm.exclusive = some u ↔ q.write?.isSome = true).mpr
        ⟨hwrite, fun u hu => (hexclusive u hu).trans (hL.exclusive u)⟩

/-- A thread that moves within its call leaves the lock as it is. -/
theorem Locked.move (hL : Locked s) {p : Pc} (hshm : s'.shm = s.shm)
    (hpc : s'.pc = Function.update s.pc t p) (hread : p.read? = (s.pc t).read?)
    (hwrite : p.write? = (s.pc t).write?) : Locked s' := by
  refine hL.of_step hpc ?_ ?_ ?_ ?_
  · intro u _
    rw [hshm]
  · intro u _
    rw [hshm]
  · rw [hshm, hread]
    exact hL.shared t
  · rw [hshm, hwrite]
    exact hL.exclusive t

/-- **Every step keeps track of the lock.** -/
theorem Locked.step (h : StepCase s a s') (hL : Locked s) : Locked s' := by
  cases h with
  | @lockShared t k l hpc hlock =>
    obtain ⟨hfree, hexclusive, hshared⟩ := SharedMutex.lockShared?_eq_some hlock
    refine hL.of_step (p := .find k) rfl ?_ ?_ ?_ ?_
    · intro u hu
      change u ∈ l.shared ↔ _
      simp [hshared, hu]
    · intro u _
      change l.exclusive = some u ↔ _
      rw [hexclusive, hfree]
    · change t ∈ l.shared ↔ _
      simp [hshared, Pc.read?]
    · change l.exclusive = some t ↔ _
      simp [hexclusive, Pc.write?]
  | @returned t k v l hpc hlock =>
    obtain ⟨hmem, hexclusive, hshared⟩ := SharedMutex.unlockShared?_eq_some hlock
    refine hL.of_step (p := .idle) rfl ?_ ?_ ?_ ?_
    · intro u hu
      change u ∈ l.shared ↔ _
      simp [hshared, hu]
    · intro u _
      change l.exclusive = some u ↔ _
      rw [hexclusive]
    · change t ∈ l.shared ↔ _
      simp [hshared, Pc.read?]
    · change l.exclusive = some t ↔ _
      rw [hexclusive, hL.exclusive t, hpc]
      rfl
  | @lock t k v l hpc hlock =>
    obtain ⟨hfree, hnone, hexclusive, hshared⟩ := SharedMutex.lock?_eq_some hlock
    refine hL.of_step (p := .subscript k v) rfl ?_ ?_ ?_ ?_
    · intro u _
      change u ∈ l.shared ↔ _
      rw [hshared, hnone]
    · intro u hu
      change l.exclusive = some u ↔ _
      simp [hexclusive, hfree, Ne.symm hu]
    · change t ∈ l.shared ↔ _
      simp [hshared, Pc.read?]
    · change l.exclusive = some t ↔ _
      simp [hexclusive, Pc.write?]
  | @unlock t k v l hpc hlock =>
    obtain ⟨howner, hnone, hexclusive, hshared⟩ := SharedMutex.unlock?_eq_some hlock
    refine hL.of_step (p := .idle) rfl ?_ ?_ ?_ ?_
    · intro u _
      change u ∈ l.shared ↔ _
      rw [hshared, hnone]
    · intro u hu
      change l.exclusive = some u ↔ _
      simp [hexclusive, howner, Ne.symm hu]
    · change t ∈ l.shared ↔ _
      simp [hshared, Pc.read?]
    · change l.exclusive = some t ↔ _
      simp [hexclusive, Pc.write?]
  | find hpc => exact hL.move rfl rfl (by rw [hpc]; rfl) (by rw [hpc]; rfl)
  | hit hpc => exact hL.move rfl rfl (by rw [hpc]; rfl) (by rw [hpc]; rfl)
  | miss hpc => exact hL.move rfl rfl (by rw [hpc]; rfl) (by rw [hpc]; rfl)
  | present hpc => exact hL.move rfl rfl (by rw [hpc]; rfl) (by rw [hpc]; rfl)
  | absent hpc => exact hL.move rfl rfl (by rw [hpc]; rfl) (by rw [hpc]; rfl)
  | assign hpc => exact hL.move rfl rfl (by rw [hpc]; rfl) (by rw [hpc]; rfl)

omit [DecidableEq ι] in
/-- Only one thread is in `write`. -/
theorem Locked.writer_unique (hL : Locked s) {u : ι} {w w' : ℤ × ℤ}
    (ht : (s.pc t).write? = some w) (hu : (s.pc u).write? = some w') : t = u := by
  have ht' := (hL.exclusive t).mpr (by rw [ht]; rfl)
  have hu' := (hL.exclusive u).mpr (by rw [hu]; rfl)
  exact Option.some.inj (ht'.symm.trans hu')

omit [DecidableEq ι] in
/-- **While a thread is in `read`, none is in `write`.** -/
theorem Locked.no_writer (hL : Locked s) {k : ℤ} (ht : (s.pc t).read? = some k) (u : ι) :
    (s.pc u).write? = none := by
  have hmem := (hL.shared t).mpr (by rw [ht]; rfl)
  have hfree := SharedMutex.exclusive_eq_none_of_shared hmem
  cases hu : (s.pc u).write? with
  | none => rfl
  | some w =>
    rw [(hL.exclusive u).mpr (by rw [hu]; rfl)] at hfree
    exact absurd hfree (by simp)

/-! ## 3. What the map holds -/

/-- The write that has released the lock in a step. -/
def released? : ι × Event → Option (ℤ × ℤ)
  | (_, .unlock k v) => some (k, v)
  | _ => none

/-- The writes in the order in which they released the lock. -/
def released (as : List (ι × Event)) : List (ℤ × ℤ) := as.filterMap released?

omit [DecidableEq ι] in
theorem released_append_of_eq_none (h : released? a = none) :
    released (as ++ [a]) = released as := by
  rw [released, List.filterMap_append, List.filterMap_cons_none h, List.filterMap_nil,
    List.append_nil]
  rfl

/-- The map after the steps `as`.  Off the key that is being written it holds the latest released
write of each key, and what a reader has seen of it still is there. -/
structure Inv (as : List (ι × Event)) (s : Resource ι) : Prop where
  locked : Locked s
  settled : ∀ j, (∀ t k v, s.pc t = .assign k v ∨ s.pc t = .unlock k v → j ≠ k) →
    s.m j = lastWrite j (released as)
  assigned : ∀ t k v, s.pc t = .unlock k v → s.m k = some v
  found : ∀ t k b, s.pc t = .value k b → b = (s.m k).isSome
  result : ∀ t k v, s.pc t = .unlockShared k v → v = (s.m k).getD (-1)

omit [DecidableEq ι] in
theorem Inv.init : Inv [] (init : Resource ι) where
  locked := Locked.init
  settled j _ := rfl
  assigned t k v h := by simp [Resource.init] at h
  found t k b h := by simp [Resource.init] at h
  result t k v h := by simp [Resource.init] at h

omit [DecidableEq ι] in
/-- **A reader finds the map settled.** -/
theorem Inv.settled_of_read (hI : Inv as s) {k : ℤ} (ht : (s.pc t).read? = some k) (j : ℤ) :
    s.m j = lastWrite j (released as) := by
  refine hI.settled j ?_
  intro u k' v' hu
  have hnone := hI.locked.no_writer ht u
  rcases hu with hu | hu <;> exact absurd hnone (by simp [hu, Pc.write?])

omit [DecidableEq ι] in
/-- The thread in `write` finds the map settled, but for the key it has inserted or assigned. -/
theorem Inv.settled_of_write (hI : Inv as s) {k v j : ℤ} (ht : (s.pc t).write? = some (k, v))
    (hj : j ≠ k ∨ s.pc t = .subscript k v) : s.m j = lastWrite j (released as) := by
  refine hI.settled j ?_
  intro u k' v' hu
  have hwrite : (s.pc u).write? = some (k', v') := by
    rcases hu with hu | hu <;> rw [hu] <;> rfl
  obtain rfl := hI.locked.writer_unique ht hwrite
  obtain ⟨rfl, rfl⟩ := Prod.mk.inj (Option.some.inj (ht.symm.trans hwrite))
  rcases hj with hne | hsub
  · exact hne
  · rcases hu with hu | hu <;> exact absurd (hsub.symm.trans hu) (by simp)

/-- A step that leaves the map, whose thread does not assign, keeps what is known of the map. -/
theorem Inv.move (hI : Inv as s) (hlocked : Locked s') {p : Pc} (hm : s'.m = s.m)
    (hpc : s'.pc = Function.update s.pc t p) (hreleased : released? a = none)
    (hold : ∀ k v, s.pc t ≠ .assign k v ∧ s.pc t ≠ .unlock k v)
    (hnew : ∀ k v, p ≠ .unlock k v)
    (hfound : ∀ k b, p = .value k b → b = (s.m k).isSome)
    (hresult : ∀ k v, p = .unlockShared k v → v = (s.m k).getD (-1)) : Inv (as ++ [a]) s' := by
  refine ⟨hlocked, ?_, ?_, ?_, ?_⟩
  · intro j hj
    rw [hm, released_append_of_eq_none hreleased]
    refine hI.settled j ?_
    intro u k v hu
    have hut : u ≠ t := by
      rintro rfl
      exact absurd hu (by simp [(hold k v).1, (hold k v).2])
    exact hj u k v (by rwa [hpc, Function.update_of_ne hut])
  · rw [hpc, hm]
    exact (Function.forall_update_iff s.pc fun u q => ∀ k v, q = .unlock k v → s.m k = some v).mpr
      ⟨fun k v hp => absurd hp (hnew k v), fun u _ => hI.assigned u⟩
  · rw [hpc, hm]
    exact (Function.forall_update_iff s.pc
      fun u q => ∀ k b, q = .value k b → b = (s.m k).isSome).mpr ⟨hfound, fun u _ => hI.found u⟩
  · rw [hpc, hm]
    exact (Function.forall_update_iff s.pc
      fun u q => ∀ k v, q = .unlockShared k v → v = (s.m k).getD (-1)).mpr
        ⟨hresult, fun u _ => hI.result u⟩

/-- A step of the thread in `write` keeps what is known of the map, where it shows what the map
holds now: nobody else looks at it. -/
theorem Inv.write (hI : Inv as s) (hlocked : Locked s') {p : Pc} {k v : ℤ}
    (hpc : s'.pc = Function.update s.pc t p) (hwrite : (s.pc t).write? = some (k, v))
    (hread : p.read? = none)
    (hsettled : ∀ j, (∀ k v, p = .assign k v ∨ p = .unlock k v → j ≠ k) →
      s'.m j = lastWrite j (released (as ++ [a])))
    (hassigned : ∀ k v, p = .unlock k v → s'.m k = some v) : Inv (as ++ [a]) s' := by
  -- no thread is in `read` while this one is in `write`
  have hnone : ∀ u, (s'.pc u).read? = none := by
    rw [hpc]
    refine (Function.forall_update_iff s.pc fun u q => q.read? = none).mpr ⟨hread, ?_⟩
    intro u _
    cases hu : (s.pc u).read? with
    | none => rfl
    | some j =>
      have hno := hI.locked.no_writer hu t
      rw [hwrite] at hno
      exact absurd hno (by simp)
  refine ⟨hlocked, ?_, ?_, ?_, ?_⟩
  · intro j hj
    refine hsettled j ?_
    intro k v hp
    exact hj t k v (by rwa [hpc, Function.update_self])
  · rw [hpc]
    refine (Function.forall_update_iff s.pc
      fun u q => ∀ k v, q = .unlock k v → s'.m k = some v).mpr ⟨hassigned, ?_⟩
    intro u hut k' v' hu
    exact absurd (hI.locked.writer_unique (t := u) (w := (k', v')) (by rw [hu]; rfl) hwrite) hut
  · intro u k' b hu
    exact absurd (hnone u) (by simp [hu, Pc.read?])
  · intro u k' v' hu
    exact absurd (hnone u) (by simp [hu, Pc.read?])

/-- **Every step keeps the invariant.** -/
theorem Inv.step (h : StepCase s a s') (hI : Inv as s) : Inv (as ++ [a]) s' := by
  have hlocked := hI.locked.step h
  cases h with
  | lockShared hpc =>
    exact hI.move hlocked rfl rfl rfl (by simp [hpc]) (by simp) (by simp) (by simp)
  | find hpc =>
    exact hI.move hlocked rfl rfl rfl (by simp [hpc]) (by simp) (by simp) (by simp)
  | hit hpc hm =>
    exact hI.move hlocked rfl rfl rfl (by simp [hpc]) (by simp) (by simp) (by simp [hm])
  | @miss t k hpc =>
    have hnone : s.m k = none := by simpa using (hI.found t k false hpc).symm
    exact hI.move hlocked rfl rfl rfl (by simp [hpc]) (by simp) (by simp) (by simp [hnone])
  | returned hpc =>
    exact hI.move hlocked rfl rfl rfl (by simp [hpc]) (by simp) (by simp) (by simp)
  | lock hpc =>
    exact hI.move hlocked rfl rfl rfl (by simp [hpc]) (by simp) (by simp) (by simp)
  | @present t k v hpc hm =>
    refine hI.write hlocked (p := .assign k v) rfl (by rw [hpc]; rfl) rfl ?_ (by simp)
    intro j _
    rw [released_append_of_eq_none rfl]
    exact hI.settled_of_write (by rw [hpc]; rfl) (Or.inr hpc)
  | @absent t k v hpc hm =>
    refine hI.write hlocked (p := .assign k v) rfl (by rw [hpc]; rfl) rfl ?_ (by simp)
    intro j hj
    have hjk : j ≠ k := hj k v (Or.inl rfl)
    rw [released_append_of_eq_none rfl]
    exact (Function.update_of_ne hjk _ _).trans
      (hI.settled_of_write (by rw [hpc]; rfl) (Or.inr hpc))
  | @assign t k v hpc =>
    refine hI.write hlocked (p := .unlock k v) rfl (by rw [hpc]; rfl) rfl ?_ ?_
    · intro j hj
      have hjk : j ≠ k := hj k v (Or.inr rfl)
      rw [released_append_of_eq_none rfl]
      exact (Function.update_of_ne hjk _ _).trans
        (hI.settled_of_write (by rw [hpc]; rfl) (Or.inl hjk))
    · intro k' v' hkv
      obtain ⟨rfl, rfl⟩ := Pc.unlock.inj hkv
      exact Function.update_self _ _ _
  | @unlock t k v l hpc hlock =>
    refine hI.write hlocked (p := .idle) rfl (by rw [hpc]; rfl) rfl ?_ (by simp)
    intro j _
    have hreleased : released (as ++ [(t, .unlock k v)]) = released as ++ [(k, v)] :=
      List.filterMap_append
    rw [hreleased, lastWrite_append_singleton]
    change s.m j = _
    split
    · rename_i hkj
      rw [← hkj]
      exact hI.assigned t k v hpc
    · rename_i hkj
      exact hI.settled_of_write (by rw [hpc]; rfl) (Or.inl (Ne.symm hkj))

/-- The invariant holds in every reachable state. -/
theorem Inv.run (h : Run (Fires Resource.step) Resource.init as s) : Inv as s :=
  h.trace_invariant Inv.init fun _ _ _ _ _ hI hst => hI.step (stepCase_of_step hst)

/-! ## 4. The calls -/

/-- What the steps so far say of the calls that threads are in. -/
structure Traced (as : List (ι × Event)) (s : Resource ι) : Prop where
  /-- No write has released the lock since a thread in `read` acquired it. -/
  reading : ∀ t k, (s.pc t).read? = some k → ∃ before after,
    as = before ++ (t, .lockShared k) :: after ∧ (∀ k', (t, .lockShared k') ∉ after) ∧
      released after = []
  /-- The writes called are those that have returned and those that threads are in. -/
  writing : ∀ t k v, (t, .lock k v) ∈ as ↔
    (t, .unlock k v) ∈ as ∨ (s.pc t).write? = some (k, v)

omit [DecidableEq ι] in
theorem Traced.init : Traced [] (init : Resource ι) where
  reading t k h := absurd h (by simp [Resource.init, Pc.read?])
  writing t k v := by simp [Resource.init, Pc.write?]

/-- A write releases the lock only while no thread is in `read`. -/
theorem released?_eq_none (h : StepCase s a s') (hL : Locked s) {k : ℤ}
    (ht : (s.pc t).read? = some k) : released? a = none := by
  cases h with
  | @unlock u k' v l hpc hlock =>
    exact absurd (hL.no_writer ht u) (by simp [hpc, Pc.write?])
  | lockShared | find | hit | miss | returned | lock | present | absent | assign => rfl

/-- A thread in `read` has just locked, or was in the same `read` before and has not locked. -/
theorem read?_cases (h : StepCase s a s') {k : ℤ} (ht : (s'.pc t).read? = some k) :
    a = (t, .lockShared k) ∨
      ((s.pc t).read? = some k ∧ ∀ k', a ≠ (t, .lockShared k')) := by
  by_cases hta : t = a.1
  · subst hta
    cases h with
    | lockShared hpc =>
      obtain rfl := by simpa [setPc, Pc.read?] using ht
      exact Or.inl rfl
    | find hpc | hit hpc | miss hpc =>
      exact Or.inr ⟨by simpa [setPc, hpc, Pc.read?] using ht, by simp⟩
    | returned | lock | present | absent | assign | unlock =>
      exact absurd ht (by simp [setPc, setEntry, Pc.read?])
  · refine Or.inr ⟨by rwa [pc_of_ne h hta] at ht, ?_⟩
    rintro k' rfl
    exact hta rfl

/-- What a step makes of the `write` that a thread is in. -/
theorem write?_iff (h : StepCase s a s') (t : ι) (k v : ℤ) :
    a = (t, .lock k v) ∨ (s.pc t).write? = some (k, v) ↔
      a = (t, .unlock k v) ∨ (s'.pc t).write? = some (k, v) := by
  by_cases hta : t = a.1
  · subst hta
    cases h with
    | lockShared hpc | find hpc | hit hpc | miss hpc | returned hpc | lock hpc | present hpc
    | absent hpc | assign hpc | unlock hpc =>
      simp [setPc, setEntry, hpc, Pc.write?]
  · have hne : ∀ e, a ≠ (t, e) := by
      rintro e rfl
      exact hta rfl
    rw [pc_of_ne h hta]
    simp [hne]

/-- **Every step keeps track of the calls.** -/
theorem Traced.step (h : StepCase s a s') (hL : Locked s) (hT : Traced as s) :
    Traced (as ++ [a]) s' where
  reading t k ht := by
    rcases read?_cases h ht with rfl | ⟨hread, hnew⟩
    · exact ⟨as, [], rfl, by simp, rfl⟩
    · obtain ⟨before, after, rfl, hlater, hreleased⟩ := hT.reading t k hread
      refine ⟨before, after ++ [a], by simp, ?_, ?_⟩
      · intro k' hmem
        rcases List.mem_append.mp hmem with hold | hlast
        · exact hlater k' hold
        · exact hnew k' (List.mem_singleton.mp hlast).symm
      · rw [released_append_of_eq_none (released?_eq_none h hL hread), hreleased]
  writing t k v := by
    have hcalls := write?_iff h t k v
    have hold := hT.writing t k v
    simp only [List.mem_append, List.mem_singleton]
    grind

theorem Traced.run (h : Run (Fires Resource.step) Resource.init as s) : Traced as s := by
  refine h.trace_invariant Traced.init ?_
  intro as s a s' hrun hT hst
  exact hT.step (stepCase_of_step hst) (Inv.run hrun).locked

/-! ## 5. An atomic register per key -/

/-- A call of a thread. -/
inductive Call
  | read (k : ℤ)
  | write (k v : ℤ)
  deriving DecidableEq

/-- The call of thread `t` that a step begins. -/
def callOf? (t : ι) : ι × Event → Option Call
  | (u, .lockShared k) => if u = t then some (.read k) else none
  | (u, .lock k v) => if u = t then some (.write k v) else none
  | _ => none

/-- The calls of thread `t`, in the order in which it makes them. -/
def callsOf (t : ι) (as : List (ι × Event)) : List Call := as.filterMap (callOf? t)

theorem write_mem_callsOf {k v : ℤ} : .write k v ∈ callsOf t as ↔ (t, .lock k v) ∈ as := by
  unfold callsOf
  rw [List.mem_filterMap]
  constructor
  · rintro ⟨⟨u, e⟩, hmem, hcall⟩
    cases e with
    | lock k' v' =>
      simp only [callOf?] at hcall
      split at hcall
      · rename_i hut
        obtain ⟨rfl, rfl⟩ := Call.write.inj (Option.some.inj hcall)
        exact hut ▸ hmem
      · exact absurd hcall (by simp)
    | lockShared k' =>
      simp only [callOf?] at hcall
      split at hcall <;> exact absurd hcall (by simp)
    | find | value | returned | subscript | assign | unlock =>
      exact absurd hcall (by simp [callOf?])
  · intro hmem
    exact ⟨_, hmem, by simp [callOf?]⟩

omit [DecidableEq ι] in
theorem mem_released {k v : ℤ} : (k, v) ∈ released as ↔ ∃ t, (t, .unlock k v) ∈ as := by
  unfold released
  rw [List.mem_filterMap]
  constructor
  · rintro ⟨⟨u, e⟩, hmem, hreleased⟩
    cases e with
    | unlock k' v' =>
      obtain ⟨rfl, rfl⟩ := Prod.mk.inj (Option.some.inj hreleased)
      exact ⟨u, hmem⟩
    | lockShared | find | value | returned | lock | subscript | assign =>
      exact absurd hreleased (by simp [released?])
  · rintro ⟨t, hmem⟩
    exact ⟨_, hmem, rfl⟩

/-- **A `read` returns the latest write**: that of the `write` that was the last to release the
lock before the `read` acquired it, or `-1` where there is none. -/
theorem returned_eq (h : Run (Fires step) Resource.init as s) {k v : ℤ}
    (hst : Fires step s (t, .returned k v) s') :
    ∃ before after, as = before ++ (t, .lockShared k) :: after ∧
      (∀ k', (t, .lockShared k') ∉ after) ∧
      v = (lastWrite k (released before)).getD (-1) := by
  have hI := Inv.run h
  cases stepCase_of_step hst with
  | returned hpc hlock =>
    have hread : (s.pc t).read? = some k := by rw [hpc]; rfl
    obtain ⟨before, after, rfl, hlater, hreleased⟩ := (Traced.run h).reading t k hread
    refine ⟨before, after, rfl, hlater, ?_⟩
    rw [hI.result t k v hpc, hI.settled_of_read hread k]
    unfold released at hreleased ⊢
    rw [List.filterMap_append, List.filterMap_cons_none (by rfl), hreleased, List.append_nil]

/-- The map once every call has returned. -/
theorem m_eq_of_idle (h : Run (Fires step) Resource.init as s) (hidle : ∀ t, s.pc t = .idle)
    (j : ℤ) : s.m j = lastWrite j (released as) := by
  refine (Inv.run h).settled j ?_
  intro t k v ht
  exact absurd ht (by simp [hidle t])

/-- The calls of a thread that runs the tasks `is`, each of which reads its key `i` and then
writes `f i`. -/
def taskCalls (f : ℤ → ℤ) (is : List ℤ) : List Call := is.flatMap fun i => [.read i, .write i (f i)]

theorem write_mem_taskCalls {f : ℤ → ℤ} {is : List ℤ} {k v : ℤ} :
    .write k v ∈ taskCalls f is ↔ k ∈ is ∧ v = f k := by
  unfold taskCalls
  rw [List.mem_flatMap]
  constructor
  · rintro ⟨i, hi, hmem⟩
    obtain ⟨rfl, rfl⟩ := by simpa using hmem
    exact ⟨hi, rfl⟩
  · rintro ⟨hk, rfl⟩
    exact ⟨k, hk, by simp⟩

/-- **When all tasks have finished, the map is `i ↦ f i`** on the keys of the tasks. -/
theorem m_eq_of_tasks (h : Run (Fires step) Resource.init as s) (hidle : ∀ t, s.pc t = .idle)
    {f : ℤ → ℤ} {tasks : ι → List ℤ} (htasks : ∀ t, callsOf t as = taskCalls f (tasks t))
    (j v : ℤ) : s.m j = some v ↔ (∃ t, j ∈ tasks t) ∧ v = f j := by
  have hcalled : ∀ t k v, (t, .unlock k v) ∈ as ↔ k ∈ tasks t ∧ v = f k := by
    intro t k v
    rw [← write_mem_taskCalls, ← htasks t, write_mem_callsOf, (Traced.run h).writing t k v,
      hidle t]
    simp [Pc.write?]
  rw [m_eq_of_idle h hidle j]
  constructor
  · intro hlast
    obtain ⟨t, hmem⟩ := mem_released.mp (mem_of_lastWrite hlast)
    obtain ⟨hj, hv⟩ := (hcalled t j v).mp hmem
    exact ⟨⟨t, hj⟩, hv⟩
  · rintro ⟨⟨t, hj⟩, rfl⟩
    cases hlast : lastWrite j (released as) with
    | none =>
      have hmem := mem_released.mpr ⟨t, (hcalled t j (f j)).mpr ⟨hj, rfl⟩⟩
      exact absurd rfl (lastWrite_eq_none_iff.mp hlast _ hmem)
    | some v =>
      obtain ⟨u, hmem⟩ := mem_released.mp (mem_of_lastWrite hlast)
      rw [((hcalled u j v).mp hmem).2]

/-- **Each key is an atomic register.**  A `read` returns what the `write` to its key wrote that
was the last to release the lock before the `read` acquired it, or `-1` where there is none; and
when tasks that read their own key and then write it have all finished, the map holds exactly
what they wrote. -/
theorem read_returns_last_write (h : Run (Fires step) Resource.init as s) :
    (∀ t k v s', Fires step s (t, .returned k v) s' → ∃ before after,
      as = before ++ (t, .lockShared k) :: after ∧ (∀ k', (t, .lockShared k') ∉ after) ∧
        v = (lastWrite k (released before)).getD (-1)) ∧
    (∀ (f : ℤ → ℤ) (tasks : ι → List ℤ), (∀ t, s.pc t = .idle) →
      (∀ t, callsOf t as = taskCalls f (tasks t)) →
      ∀ j v, s.m j = some v ↔ (∃ t, j ∈ tasks t) ∧ v = f j) := by
  refine ⟨?_, ?_⟩
  · intro t k v s' hst
    exact returned_eq h hst
  · intro f tasks hidle htasks j v
    exact m_eq_of_tasks h hidle htasks j v

/-- Thread 0 runs the task of key 1, which writes 5; and thread 1 reads what a write of 5 has
left. -/
theorem read_returns_last_write_two_threads :
    (∃ s, Run (Fires step) (init : Resource (Fin 2))
        [(0, .lockShared 1), (0, .find), (0, .value), (0, .returned 1 (-1)), (0, .lock 1 5),
          (0, .subscript), (0, .assign), (0, .unlock 1 5)] s ∧
      ∀ j v, s.m j = some v ↔ (∃ t : Fin 2, j ∈ if t = 0 then [1] else []) ∧ v = 5) ∧
    ∃ s, Run (Fires step) (init : Resource (Fin 2))
        [(0, .lock 1 5), (0, .subscript), (0, .assign), (0, .unlock 1 5), (1, .lockShared 1),
          (1, .find), (1, .value)] s ∧
      ∃ before after, [((0 : Fin 2), .lock 1 5), (0, .subscript), (0, .assign), (0, .unlock 1 5),
          (1, .lockShared 1), (1, .find), (1, .value)] = before ++ (1, .lockShared 1) :: after ∧
        (∀ k', (1, .lockShared k') ∉ after) ∧
          5 = (lastWrite 1 (released before)).getD (-1) := by
  constructor
  · obtain ⟨s, hrun, hidle⟩ := exists_run_of_exec step (init : Resource (Fin 2))
      [(0, .lockShared 1), (0, .find), (0, .value), (0, .returned 1 (-1)), (0, .lock 1 5),
        (0, .subscript), (0, .assign), (0, .unlock 1 5)]
      (fun s => ∀ t, s.pc t = .idle) (by decide)
    exact ⟨s, hrun, (read_returns_last_write hrun).2 (fun _ => 5)
      (fun t => if t = 0 then [1] else []) hidle (by decide)⟩
  · obtain ⟨s, hrun, hreturns⟩ := exists_run_of_exec step (init : Resource (Fin 2))
      [(0, .lock 1 5), (0, .subscript), (0, .assign), (0, .unlock 1 5), (1, .lockShared 1),
        (1, .find), (1, .value)]
      (fun s => (s.step (1, .returned 1 5)).isSome = true) (by decide)
    obtain ⟨s', hst⟩ := Option.isSome_iff_exists.mp hreturns
    exact ⟨s, hrun, (read_returns_last_write hrun).1 1 1 5 s' hst⟩

end Resource

end CxxConcurrency.Rwlocks
