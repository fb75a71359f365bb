/-
# Which siblings a worker looks at

The cursor of `chooseSibling` is one static variable, and every call of any worker moves it on by
one, modulo the number of siblings.  So in a process with one pool of `n` queues call number `m`,
whoever makes it, reads entry `m % (n - 1)` of the caller's `siblings` (`call_reads`), and what
`n - 1` consecutive calls of one worker read depends on how many calls the others make between
them.  They read each sibling once exactly where the numbers of these calls are pairwise different
modulo `n - 1` (`lookNext_visits_iff`); a worker that calls alone is the simplest case
(`lookNext_visits_of_alone`).
-/
import CxxConcurrency.TaskSystem.Stealing.Cursor
import Mathlib.Data.Nat.ModEq

namespace CxxConcurrency.TaskSystem.Stealing

open CxxConcurrency.Lib

/-! ## 1. Entries of a list read by index, and indices modulo a number -/

/-- As many entries of a list as it has, read at the positions `ps`, are the whole list exactly
where no position is read twice. -/
theorem perm_iff_nodup_of_map_getElem? {α : Type*} {l r : List α} {ps : List ℕ} (hl : l.Nodup)
    (hlen : ps.length = l.length) (hlt : ∀ p ∈ ps, p < l.length)
    (hr : r.map some = ps.map (l[·]?)) : r.Perm l ↔ ps.Nodup := by
  have hrlen : r.length = l.length := by
    have := congrArg List.length hr
    rwa [List.length_map, List.length_map, hlen] at this
  constructor
  · intro hperm
    have hnodup : (r.map some).Nodup :=
      (hperm.nodup_iff.mpr hl).map (Option.some_injective α)
    rw [hr] at hnodup
    exact hnodup.of_map
  · intro hps
    have hinj : ∀ p ∈ ps, ∀ q ∈ ps, l[p]? = l[q]? → p = q := by
      intro p hp q _ heq
      exact (List.getElem?_inj (hlt p hp) hl).mp heq
    have hnodup : r.Nodup := List.Nodup.of_map some (hr ▸ hps.map_on hinj)
    have hsub : r ⊆ l := by
      intro x hx
      have hmem : some x ∈ ps.map (l[·]?) := hr ▸ List.mem_map_of_mem hx
      obtain ⟨p, -, hp⟩ := List.mem_map.mp hmem
      exact List.mem_of_getElem? hp
    exact (hnodup.subperm hsub).perm_of_length_le hrlen.ge

/-- Consecutive numbers differ modulo their count. -/
theorem nodup_range'_mod (m d : ℕ) : ((List.range' m d).map (· % d)).Nodup := by
  refine List.Nodup.map_on ?_ List.nodup_range'
  intro x hx y hy hxy
  obtain ⟨a, ha, rfl⟩ := List.mem_range'.mp hx
  obtain ⟨b, hb, rfl⟩ := List.mem_range'.mp hy
  have hab : Nat.ModEq d (1 * a) (1 * b) := Nat.ModEq.add_left_cancel' m hxy
  rw [hab.eq_of_lt_of_lt (by omega) (by omega)]

/-! ## 2. The calls of the workers -/

variable {n : ℕ}

/-- Worker `call.1` calls `chooseSibling()`, which returns the address of queue `call.2`. -/
def chooseStep (n idx : ℕ) (call : Fin n × Fin n) : Option ℕ :=
  match chooseSibling .LookNext 0 idx (siblings n call.1) with
  | .sibling p idx' => if p = call.2 then some idx' else none
  | _ => none

/-- What the calls of worker `w` return. -/
def returned (w : Fin n) (calls : List (Fin n × Fin n)) : List (Fin n) :=
  (calls.filter (·.1 = w)).map Prod.snd

/-- The numbers of the calls of worker `w`, where `m` calls have been made before. -/
def numbers (w : Fin n) (m : ℕ) (calls : List (Fin n × Fin n)) : List ℕ :=
  ((calls.zipIdx m).filter (·.1.1 = w)).map Prod.snd

variable {idx idx' : ℕ} {call : Fin n × Fin n} {calls : List (Fin n × Fin n)} {w : Fin n}

/-- **A call reads the sibling under the cursor**, which moves on. -/
theorem chooseStep_cases (h : chooseStep n idx call = some idx') :
    (siblings n call.1)[idx]? = some call.2 ∧ idx' = (idx + 1) % (n - 1) := by
  unfold chooseStep at h
  rcases chooseSibling_cases (siblings n call.1) 0 idx with
    ⟨hc, -⟩ | ⟨p, hc, hp⟩ | ⟨hc, -, -⟩
  · rw [hc] at h
    exact absurd h (by simp)
  · rw [hc] at h
    simp only at h
    split at h
    · rename_i hpw
      rw [← Option.some.inj h, length_siblings, ← hpw]
      exact ⟨hp, rfl⟩
    · exact absurd h (by simp)
  · rw [hc] at h
    exact absurd h (by simp)

/-- The invariant of the calls: the cursor has counted them, and each has read the entry that its
number says. -/
structure Counted (calls : List (Fin n × Fin n)) (idx : ℕ) : Prop where
  idx : idx = calls.length % (n - 1)
  read : ∀ call m, (call, m) ∈ calls.zipIdx →
    (siblings n call.1)[m % (n - 1)]? = some call.2

/-- **Every call keeps the invariant.** -/
theorem Counted.step (h : chooseStep n idx call = some idx') (hC : Counted calls idx) :
    Counted (calls ++ [call]) idx' := by
  obtain ⟨hread, rfl⟩ := chooseStep_cases h
  refine ⟨?_, ?_⟩
  · rw [hC.idx, List.length_append, List.length_singleton, Nat.mod_add_mod]
  · intro c m hm
    rw [List.zipIdx_append, List.mem_append, List.zipIdx_singleton, List.mem_singleton] at hm
    rcases hm with hold | hnew
    · exact hC.read c m hold
    · obtain ⟨rfl, rfl⟩ := Prod.mk.inj hnew
      rwa [Nat.zero_add, ← hC.idx]

theorem Counted.run (h : Run (Fires (chooseStep n)) 0 calls idx) : Counted calls idx :=
  h.trace_invariant ⟨(Nat.zero_mod _).symm, fun _ _ hm => absurd hm List.not_mem_nil⟩
    fun _ _ _ _ _ hC hst => hC.step hst

/-- **Every schedule is a run**: whichever workers call, in whatever order, each call finds a
sibling under the cursor. -/
theorem exists_run_of_schedule (hn : 2 ≤ n) (ws : List (Fin n)) :
    ∃ calls idx, calls.map Prod.fst = ws ∧ Run (Fires (chooseStep n)) 0 calls idx := by
  induction ws using List.reverseRecOn with
  | nil => exact ⟨[], 0, rfl, Run.refl⟩
  | append_singleton ws w ih =>
    obtain ⟨calls, idx, hcalls, hrun⟩ := ih
    have hlt : idx < (siblings n w).length := by
      rw [(Counted.run hrun).idx, length_siblings]
      exact Nat.mod_lt _ (by omega)
    have hne : siblings n w ≠ [] := List.ne_nil_of_length_pos (by omega)
    have hstep : chooseStep n idx (w, (siblings n w)[idx])
        = some ((idx + 1) % (siblings n w).length) := by
      simp [chooseStep, chooseSibling, hne, readSibling, List.getElem?_eq_getElem hlt]
    exact ⟨calls ++ [(w, _)], _, by simp [hcalls], hrun.tail hstep⟩

/-! ## 3. Consecutive calls of one worker -/

variable {before window : List (Fin n × Fin n)}

/-- Worker `w`'s calls and their numbers are as many. -/
theorem length_numbers (w : Fin n) (m : ℕ) (calls : List (Fin n × Fin n)) :
    (numbers w m calls).length = (returned w calls).length := by
  have hzip : (calls.zipIdx m).map Prod.fst = calls := List.zipIdx_map_fst m calls
  unfold numbers returned
  rw [List.length_map, List.length_map]
  conv_rhs => rw [← hzip, List.filter_map, List.length_map]
  rfl

/-- **What the calls of a worker return** is read off their numbers. -/
theorem returned_eq (h : Run (Fires (chooseStep n)) 0 (before ++ window) idx) (w : Fin n) :
    (returned w window).map some =
      ((numbers w before.length window).map (· % (n - 1))).map ((siblings n w)[·]?) := by
  have hzip : (window.zipIdx before.length).map Prod.fst = window :=
    List.zipIdx_map_fst _ window
  have hreturned : returned w window
      = ((window.zipIdx before.length).filter (·.1.1 = w)).map (·.1.2) := by
    unfold returned
    conv_lhs => rw [← hzip, List.filter_map, List.map_map]
    rfl
  unfold numbers
  rw [hreturned, List.map_map, List.map_map, List.map_map]
  refine List.map_congr_left ?_
  intro x hx
  obtain ⟨hmem, hw⟩ := List.mem_filter.mp hx
  have hw' : x.1.1 = w := of_decide_eq_true hw
  have hall : x ∈ (before ++ window).zipIdx := by
    rw [List.zipIdx_append, Nat.zero_add]
    exact List.mem_append_right _ hmem
  have hread := (Counted.run h).read x.1 x.2 hall
  rw [hw'] at hread
  exact hread.symm

theorem nodup_siblings (w : Fin n) : (siblings n w).Nodup := (List.nodup_finRange n).filter _

/-- Reduced numbers are positions of siblings. -/
theorem lt_length_siblings (hn : 2 ≤ n) (w : Fin n) (m : ℕ) (calls : List (Fin n × Fin n)) :
    ∀ p ∈ (numbers w m calls).map (· % (n - 1)), p < (siblings n w).length := by
  intro p hp
  obtain ⟨k, -, rfl⟩ := List.mem_map.mp hp
  rw [length_siblings]
  exact Nat.mod_lt k (by omega)

/-- As many reduced numbers as calls. -/
theorem length_map_numbers (hcalls : (returned w window).length = n - 1) (m : ℕ) :
    ((numbers w m window).map (· % (n - 1))).length = (siblings n w).length := by
  rw [List.length_map, length_numbers, hcalls, length_siblings]

/-- **When a worker visits every sibling**: `n - 1` consecutive calls of a worker return each of
its siblings once exactly where no two of their numbers are equal modulo `n - 1`. -/
theorem lookNext_visits_iff (hn : 2 ≤ n)
    (h : Run (Fires (chooseStep n)) 0 (before ++ window) idx)
    (hcalls : (returned w window).length = n - 1) : (returned w window).Perm (siblings n w) ↔
      ((numbers w before.length window).map (· % (n - 1))).Nodup :=
  perm_iff_nodup_of_map_getElem? (nodup_siblings w) (length_map_numbers hcalls _)
    (lt_length_siblings hn w _ _) (returned_eq h w)

/-- Worker 0 of 3 calls twice, with two calls of worker 1 between. -/
theorem lookNext_visits_iff_three :
    Run (Fires (chooseStep 3)) 0 ([] ++ [(0, 1), (1, 2), (1, 0), (0, 2)]) 0 ∧
      (returned 0 [((0 : Fin 3), 1), (1, 2), (1, 0), (0, 2)]).Perm (siblings 3 0) := by
  have hrun : Run (Fires (chooseStep 3)) 0 ([] ++ [(0, 1), (1, 2), (1, 0), (0, 2)]) 0 :=
    run_of_exec (by decide)
  exact ⟨hrun, (lookNext_visits_iff (by decide) hrun (by decide)).mpr (by decide)⟩

/-- **Two workers that take turns see one sibling each**: of three, worker 0 sees the same sibling
twice. -/
theorem lookNext_misses_when_alternating :
    ¬ ∀ (n : ℕ) (w : Fin n) (before window : List (Fin n × Fin n)) (idx : ℕ), 2 ≤ n →
      Run (Fires (chooseStep n)) 0 (before ++ window) idx →
      (returned w window).length = n - 1 → (returned w window).Perm (siblings n w) := by
  intro hall
  have hrun : Run (Fires (chooseStep 3)) 0 ([] ++ [(0, 1), (1, 2), (0, 1)]) 1 :=
    run_of_exec (by decide)
  have hperm := hall 3 0 [] _ 1 (by decide) hrun (by decide)
  exact absurd (hperm.nodup_iff.mpr (nodup_siblings 0)) (by decide)

/-- **A worker that calls alone visits every sibling.** -/
theorem lookNext_visits_of_alone (hn : 2 ≤ n)
    (h : Run (Fires (chooseStep n)) 0 (before ++ window) idx) (halone : ∀ c ∈ window, c.1 = w)
    (hcalls : (returned w window).length = n - 1) : (returned w window).Perm (siblings n w) := by
  refine (perm_iff_nodup_of_map_getElem? (nodup_siblings w) (length_map_numbers hcalls _)
    (lt_length_siblings hn w _ _) (returned_eq h w)).mpr ?_
  have hfilter : window.filter (·.1 = w) = window :=
    List.filter_eq_self.mpr fun c hc => by simp [halone c hc]
  have hnumbers : numbers w before.length window = List.range' before.length window.length := by
    have hself : (window.zipIdx before.length).filter (·.1.1 = w)
        = window.zipIdx before.length := by
      refine List.filter_eq_self.mpr ?_
      intro x hx
      simp [halone x.1 (List.fst_mem_of_mem_zipIdx hx)]
    unfold numbers
    rw [hself, List.zipIdx_map_snd]
  unfold returned at hcalls
  rw [hfilter, List.length_map] at hcalls
  rw [hnumbers, hcalls]
  exact nodup_range'_mod _ _

end CxxConcurrency.TaskSystem.Stealing
