/-
# `use_mutex` of `mutex/comparison_to_atomic.cpp`

`use_mutex` creates `n` threads (four, in the file), each of which locks `m`, appends its number to
`store` and unlocks `m`; it joins them and prints the store.

The store is at every moment the numbers of the threads that have appended theirs, in the order in
which they locked (`Inv`).  So what is printed is a permutation of the numbers, and each permutation
is printed in some order of the steps (`use_mutex_prints_iff`).
-/
import CxxConcurrency.Lib.ForkJoin
import CxxConcurrency.Lib.Mutex
import Mathlib.Data.List.FinRange
import Mathlib.Data.List.Perm.Basic

namespace CxxConcurrency.Mutex

open CxxConcurrency.Lib

/-! ## 1. The threads -/

/-- Where a thread is. -/
inductive Worker
  /-- About to call `m.lock()`. -/
  | lock
  /-- About to call `store.emplace_back( v )`. -/
  | emplaceBack
  /-- About to call `m.unlock()`. -/
  | unlock
  | exited
  deriving DecidableEq

/-- The locals of `use_mutex` that the threads share. -/
structure Shared (n : ℕ) where
  /-- The owner of `m`. -/
  m : Option (Fin n)
  store : List ℕ

variable {n : ℕ}

/-- The argument of thread `i`. -/
def number (i : Fin n) : ℕ := i.val + 1

/-- One step of thread `i`. -/
def step (s : Shared n) (w : Fin n → Option Worker) (i : Fin n) :
    Option (Shared n × (Fin n → Option Worker)) :=
  match w i with
  | some .lock =>
    match s.m with
    | none => some ({ s with m := some i }, Function.update w i (some .emplaceBack))
    | some _ => none
  | some .emplaceBack =>
    some ({ s with store := s.store ++ [number i] }, Function.update w i (some .unlock))
  | some .unlock => some ({ s with m := none }, Function.update w i (some .exited))
  | _ => none

variable {s s' : Shared n} {w w' : Fin n → Option Worker} {i : Fin n}

/-- The cases of a step. -/
inductive StepCase (s : Shared n) (w : Fin n → Option Worker) (i : Fin n) :
    Shared n → (Fin n → Option Worker) → Prop
  | lock (hi : w i = some .lock) (hm : s.m = none) :
      StepCase s w i { s with m := some i } (Function.update w i (some .emplaceBack))
  | emplaceBack (hi : w i = some .emplaceBack) :
      StepCase s w i { s with store := s.store ++ [number i] }
        (Function.update w i (some .unlock))
  | unlock (hi : w i = some .unlock) :
      StepCase s w i { s with m := none } (Function.update w i (some .exited))

/-- **Every step is one of the cases.** -/
theorem stepCase_of_step (h : step s w i = some (s', w')) : StepCase s w i s' w' := by
  unfold step at h
  split at h
  · rename_i hi
    split at h
    · rename_i hm
      obtain ⟨rfl, rfl⟩ := Prod.mk.inj (Option.some.inj h)
      exact .lock hi hm
    · exact absurd h (by simp)
  · rename_i hi
    obtain ⟨rfl, rfl⟩ := Prod.mk.inj (Option.some.inj h)
    exact .emplaceBack hi
  · rename_i hi
    obtain ⟨rfl, rfl⟩ := Prod.mk.inj (Option.some.inj h)
    exact .unlock hi
  · exact absurd h (by simp)

/-- How many steps a thread has left. -/
def left : Option Worker → ℕ
  | none | some .lock => 3
  | some .emplaceBack => 2
  | some .unlock => 1
  | some .exited => 0

/-- **A step takes one thread on**, and leaves the others where they are. -/
theorem StepCase.move (h : StepCase s w i s' w') :
    ∃ p p', w i = some p ∧ w' = Function.update w i (some p') ∧
      left (some p') < left (some p) := by
  cases h with
  | lock hi _ | emplaceBack hi | unlock hi => exact ⟨_, _, hi, rfl, by simp [left]⟩

/-- Whether a thread has returned. -/
def Worker.done : Worker → Bool
  | .exited => true
  | _ => false

/-- The threads of `use_mutex`. -/
def worker (n : ℕ) : ForkJoin.Program n (Shared n) Worker (Fin n) where
  start := .lock
  done := Worker.done
  step := step
  created {_ w a _ _} h i := by
    obtain ⟨p, p', hp, rfl, -⟩ := (stepCase_of_step h).move
    rcases eq_or_ne i a with rfl | hia
    · simp [hp]
    · rw [Function.update_of_ne hia]
  ended {_ w a _ _} h i hi := by
    obtain ⟨p, p', hp, rfl, hlt⟩ := (stepCase_of_step h).move
    rcases eq_or_ne i a with rfl | hia
    · -- a thread that has returned has no step left
      rw [hp] at hi
      cases p <;> simp_all [Worker.done, left]
    · rwa [Function.update_of_ne hia]

/-- The process in `use_mutex`. -/
def Process.init (n : ℕ) : ForkJoin n (Shared n) Worker := ForkJoin.init n Worker ⟨none, []⟩

/-! ## 2. What the store holds -/

/-- The thread is between `m.lock()` and `m.unlock()`. -/
def Worker.inside : Option Worker → Bool
  | some .emplaceBack | some .unlock => true
  | _ => false

/-- The thread has appended its number. -/
def Worker.added : Option Worker → Bool
  | some .unlock | some .exited => true
  | _ => false

/-- The invariant of the threads. -/
structure Inv (s : Shared n) (w : Fin n → Option Worker) : Prop where
  owns : Owns (fun i => Worker.inside (w i)) s.m
  /-- The threads in the order in which they have appended their numbers. -/
  store : ∃ order : List (Fin n), s.store = order.map number ∧ order.Nodup ∧
    ∀ i, i ∈ order ↔ Worker.added (w i) = true

theorem Inv.init : Inv (⟨none, []⟩ : Shared n) fun _ => none where
  owns i := by simp [Worker.inside]
  store := ⟨[], rfl, List.nodup_nil, fun i => by simp [Worker.added]⟩

/-- A move of a thread that appends nothing. -/
theorem added_update {order : List (Fin n)} {p : Worker}
    (horder : ∀ j, j ∈ order ↔ Worker.added (w j) = true)
    (hp : Worker.added (some p) = Worker.added (w i)) (j : Fin n) :
    j ∈ order ↔ Worker.added (Function.update w i (some p) j) = true := by
  rw [horder j]
  rcases eq_or_ne j i with rfl | hji
  · rw [Function.update_self, hp]
  · rw [Function.update_of_ne hji]

/-- **Every step keeps the invariant.** -/
theorem Inv.step (h : StepCase s w i s' w') (hI : Inv s w) : Inv s' w' := by
  obtain ⟨howns, order, hstore, hnodup, horder⟩ := hI
  have hrest : ∀ {p : Worker} q, q ≠ i →
      Worker.inside (Function.update w i (some p) q) = Worker.inside (w q) := fun q hq => by
    rw [Function.update_of_ne hq]
  cases h with
  | lock hi hm =>
    rw [hm] at howns
    refine ⟨howns.acquire (by simp [Worker.inside]) hrest, order, hstore, hnodup,
      added_update horder (by rw [hi]; rfl)⟩
  | emplaceBack hi =>
    have hnot : i ∉ order := fun hmem => by
      have hadded := (horder i).mp hmem
      rw [hi] at hadded
      exact absurd hadded (by decide)
    refine ⟨howns.congr fun q => ?_, order ++ [i], ?_, ?_, fun j => ?_⟩
    · rcases eq_or_ne q i with rfl | hq
      · simp [hi, Worker.inside]
      · exact hrest q hq
    · change s.store ++ [number i] = _
      rw [hstore, List.map_append]
      rfl
    · exact List.nodup_append.mpr ⟨hnodup, List.nodup_singleton i, by
        rintro x hx y hy rfl
        exact hnot (List.mem_singleton.mp hy ▸ hx)⟩
    · rw [List.mem_append, List.mem_singleton]
      rcases eq_or_ne j i with rfl | hji
      · simp [Worker.added]
      · rw [Function.update_of_ne hji, ← horder j]
        exact or_iff_left hji
  | unlock hi =>
    exact ⟨howns.release (by simp [hi, Worker.inside]) (by simp [Worker.inside]) hrest, order,
      hstore, hnodup, added_update horder (by rw [hi]; rfl)⟩

variable {f : ForkJoin n (Shared n) Worker} {as : List (ForkJoin.Act (Fin n))}

theorem Inv.run (h : Run (Fires (ForkJoin.step (worker n))) (Process.init n) as f) :
    Inv f.shared f.thread := by
  refine ForkJoin.invariant Inv.init (fun s w i hI hi => ?_)
    (fun _ _ _ _ _ hI hst => hI.step (stepCase_of_step hst)) h
  obtain ⟨howns, order, hstore, hnodup, horder⟩ := hI
  refine ⟨howns.congr fun q => ?_, order, hstore, hnodup,
    added_update horder (by rw [hi]; rfl)⟩
  rcases eq_or_ne q i with rfl | hq
  · rw [Function.update_self, hi]
    rfl
  · rw [Function.update_of_ne hq]

/-- A run of `use_mutex` has at most `5 * n + 2` steps. -/
theorem length_le (h : Run (Fires (ForkJoin.step (worker n))) (Process.init n) as f) :
    as.length ≤ 5 * n + 2 := by
  have hle := ForkJoin.length_le_of_move (m := left) rfl
    (fun _ _ i _ _ hst => ⟨i, (stepCase_of_step hst).move⟩) h
  change as.length ≤ n * 3 + _ at hle
  omega

/-- **Where nobody can go on `use_mutex` has returned**: the owner of `m` can go on, and without an
owner whoever waits for `m` gets it. -/
theorem returned_of_stuck (h : Run (Fires (ForkJoin.step (worker n))) (Process.init n) as f)
    (hS : ForkJoin.Stuck (worker n) f) : f.main = .returned := by
  have hI := Inv.run h
  have hk := ForkJoin.knows_run h
  have hfree : f.shared.m = none := by
    refine Option.eq_none_iff_forall_ne_some.mpr fun i hi => ?_
    have hinside := (hI.owns i).mpr hi
    have hnone := hS.thread i
    rcases hw : f.thread i with _ | (_ | _ | _ | _) <;>
      simp_all [worker, step, Worker.inside]
  refine (hS.returned_iff hk).mpr fun i => ?_
  obtain ⟨p, hp⟩ := Option.isSome_iff_exists.mp (hS.isSome hk i)
  have hnone := hS.thread i
  rw [hp]
  cases p with
  | lock => exact absurd hnone (by simp [worker, step, hp, hfree])
  | emplaceBack | unlock => exact absurd hnone (by simp [worker, step, hp])
  | exited => rfl

/-! ## 3. What is printed -/

/-- The numbers of all threads. -/
def numbers (n : ℕ) : List ℕ := (List.finRange n).map number

/-- When `use_mutex` has returned the store is a permutation of the numbers. -/
theorem perm_of_returned (h : Run (Fires (ForkJoin.step (worker n))) (Process.init n) as f)
    (hmain : f.main = .returned) : f.shared.store.Perm (numbers n) := by
  obtain ⟨-, order, hstore, hnodup, horder⟩ := Inv.run h
  rw [hstore]
  refine List.Perm.map number ((List.perm_ext_iff_of_nodup hnodup (List.nodup_finRange n)).mpr ?_)
  intro i
  have hdone := ForkJoin.done_of_returned h hmain i
  refine iff_of_true ((horder i).mpr ?_) (List.mem_finRange i)
  rcases hi : f.thread i with _ | (_ | _ | _ | _) <;> simp_all [worker, Worker.done, Worker.added]

/-- A thread can run from its lock to its end while nobody has `m`. -/
theorem exists_run_section {l : List ℕ} (main : ForkJoin.Main) (hi : w i = some .lock) :
    ∃ as, Run (Fires (ForkJoin.step (worker n))) ⟨⟨none, l⟩, w, main⟩ as
      ⟨⟨none, l ++ [number i]⟩, Function.update w i (some .exited), main⟩ := by
  have hlock : (worker n).step ⟨none, l⟩ w i
      = some (⟨some i, l⟩, Function.update w i (some .emplaceBack)) := by
    simp [worker, step, hi]
  have hadd : (worker n).step ⟨some i, l⟩ (Function.update w i (some .emplaceBack)) i
      = some (⟨some i, l ++ [number i]⟩, Function.update w i (some .unlock)) := by
    simp [worker, step]
  have hunlock : (worker n).step ⟨some i, l ++ [number i]⟩
      (Function.update w i (some .unlock)) i
      = some (⟨none, l ++ [number i]⟩, Function.update w i (some .exited)) := by
    simp [worker, step]
  exact ⟨_, ((Run.single (ForkJoin.fires_of_thread main hlock)).tail
    (ForkJoin.fires_of_thread main hadd)).tail (ForkJoin.fires_of_thread main hunlock)⟩

/-- The threads of `order` can lock in this order. -/
theorem exists_run_order (main : ForkJoin.Main) {order : List (Fin n)} (hnodup : order.Nodup)
    {l : List ℕ} (hlock : ∀ i ∈ order, w i = some .lock) :
    ∃ as w', Run (Fires (ForkJoin.step (worker n))) ⟨⟨none, l⟩, w, main⟩ as
        ⟨⟨none, l ++ order.map number⟩, w', main⟩ ∧
      (∀ i ∈ order, w' i = some .exited) ∧ ∀ i ∉ order, w' i = w i := by
  induction order generalizing w l with
  | nil => exact ⟨[], w, by simpa using Run.refl, by simp, by simp⟩
  | cons i order ih =>
    obtain ⟨hi, hnodup⟩ := List.nodup_cons.mp hnodup
    obtain ⟨as, hrun⟩ := exists_run_section (l := l) main (hlock i List.mem_cons_self)
    obtain ⟨bs, w', hrun', hexited, hsame⟩ := ih hnodup (w := Function.update w i (some .exited))
      (l := l ++ [number i]) fun j hj => by
        have hji : j ≠ i := fun heq => hi (heq ▸ hj)
        rw [Function.update_of_ne hji]
        exact hlock j (List.mem_cons_of_mem i hj)
    refine ⟨as ++ bs, w', ?_, fun j hj => ?_, fun j hj => ?_⟩
    · rw [List.map_cons, List.append_cons]
      exact hrun.append hrun'
    · rcases List.mem_cons.mp hj with rfl | hj
      · rw [hsame j hi, Function.update_self]
      · exact hexited j hj
    · obtain ⟨hji, hj⟩ := List.ne_and_not_mem_of_not_mem_cons hj
      rw [hsame j hj, Function.update_of_ne hji]

/-- **What `use_mutex` prints**: a permutation of the numbers of the threads, and each of them in
some order of the steps.  Every run ends, with `use_mutex` returned. -/
theorem use_mutex_prints_iff (n : ℕ) (l : List ℕ) :
    ((∃ as f, Run (Fires (ForkJoin.step (worker n))) (Process.init n) as f ∧
        f.main = .returned ∧ f.shared.store = l) ↔ l.Perm (numbers n)) ∧
      ∀ as f, Run (Fires (ForkJoin.step (worker n))) (Process.init n) as f →
        as.length ≤ 5 * n + 2 ∧ (ForkJoin.Stuck (worker n) f → f.main = .returned) := by
  refine ⟨⟨?_, fun hperm => ?_⟩, fun as f h => ⟨length_le h, returned_of_stuck h⟩⟩
  · rintro ⟨as, f, h, hmain, rfl⟩
    exact perm_of_returned h hmain
  · obtain ⟨order, horder, rfl⟩ : ∃ order : List (Fin n),
        order.Perm (List.finRange n) ∧ order.map number = l := by
      obtain ⟨order, hmap, horder⟩ : Relation.Comp (· = List.map number ·) (List.Perm · ·) l
          (List.finRange n) := by
        rw [List.eq_map_comp_perm]
        exact hperm
      exact ⟨order, horder, hmap.symm⟩
    have hall : ∀ i, i ∈ order := fun i => horder.mem_iff.mpr (List.mem_finRange i)
    obtain ⟨as, hcreate⟩ := ForkJoin.exists_run_create (worker n) ⟨none, []⟩
    obtain ⟨bs, w', hlocks, hexited, -⟩ := exists_run_order (.joining 0)
      (horder.nodup_iff.mpr (List.nodup_finRange n)) (l := []) (w := fun _ => some .lock)
      fun _ _ => rfl
    obtain ⟨cs, hjoin⟩ := ForkJoin.exists_run_join (P := worker n) (w := w')
      (fun i => by rw [hexited i (hall i)]; rfl) ⟨none, [] ++ order.map number⟩
    exact ⟨_, _, (hcreate.append hlocks).append hjoin, rfl, rfl⟩

end CxxConcurrency.Mutex
