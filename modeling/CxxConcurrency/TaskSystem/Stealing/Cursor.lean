/-
# The cursor of `chooseSibling` over the life of the process

`chooseSibling` keeps its cursor `idx` in a function-local static, which all queues of all pools
share.  It reads `siblings[ idx ]` first and reduces `idx + 1` modulo the size of its own
`siblings` after that, so the value it reads is in bounds for the queue that called last and for
every larger one, but not for a smaller one.

A program constructs and destroys pools (`PoolCall`), and between any two of its calls the
workers of the pools alive call `chooseSibling` any number of times.  Every such call is in
bounds exactly where no pool with a sibling to choose is alive together with, or after, a larger
one (`lookNext_inBounds_iff`).
-/
import CxxConcurrency.TaskSystem.Stealing.Pool

namespace CxxConcurrency.TaskSystem.Stealing

open CxxConcurrency.Lib

/-! ## 1. The process -/

/-- What the program does with its pools; they are numbered in the order of construction. -/
inductive PoolCall
  | construct (size : ℕ)
  | destroy (p : ℕ)

/-- A step of the process. -/
inductive Event
  /-- The program's next call. -/
  | program (c : PoolCall)
  /-- Worker `i` of pool `p` calls `chooseSibling()`. -/
  | choose (p i : ℕ)

/-- The program's call, if the step is one. -/
def Event.program? : Event → Option PoolCall
  | .program c => some c
  | .choose _ _ => none

/-- What a call does to the sizes of the pools; `none` for a pool that has been destroyed. -/
def callStep (pools : List (Option ℕ)) : PoolCall → Option (List (Option ℕ))
  | .construct size => some (pools ++ [some size])
  | .destroy p =>
    match pools[p]? with
    | some (some _) => some (pools.set p none)
    | _ => none

/-- The static cursor and the pools of a process. -/
structure Process where
  idx : ℕ
  pools : List (Option ℕ)

/-- The process when `main` begins. -/
def Process.start : Process := ⟨0, []⟩

/-- One step of the process; a read past the end of `siblings` has no next state. -/
def Process.step (s : Process) : Event → Option Process
  | .program c => (callStep s.pools c).map fun pools => { s with pools := pools }
  | .choose p i =>
    match s.pools[p]? with
    | some (some size) =>
      if h : i < size then
        match chooseSibling .LookNext 0 s.idx (siblings size ⟨i, h⟩) with
        | .nullopt => some s
        | .sibling _ idx => some { s with idx := idx }
        | .outOfBounds => none
      else none
    | _ => none

/-- The sizes of the pools a script constructs. -/
def constructed (script : List PoolCall) : List ℕ :=
  script.filterMap fun
    | .construct size => some size
    | .destroy _ => none

/-- However the workers' calls of `chooseSibling` fall between the calls of the script, each
call on a queue with siblings reads one of them. -/
def InBounds (script : List PoolCall) : Prop :=
  ∀ (es : List Event) (s : Process), es.filterMap Event.program? <+: script →
    Run (Fires Process.step) Process.start es s →
    ∀ size (i : Fin size), some size ∈ s.pools → siblings size i ≠ [] →
      s.idx < (siblings size i).length

/-- Whenever a pool of two or more queues is alive, none of the pools constructed so far has more
queues. -/
def NeverOutgrown (script : List PoolCall) : Prop :=
  ∀ before pools, before <+: script → exec callStep [] before = some pools →
    ∀ size, some size ∈ pools → 2 ≤ size → ∀ size' ∈ constructed before, size' ≤ size

/-! ## 2. What a step does to the cursor -/

variable {s s' : Process} {e : Event} {es : List Event}

/-- Every queue but the worker's own. -/
theorem length_siblings {n : ℕ} (i : Fin n) : (siblings n i).length = n - 1 := by
  have herase : siblings n i = (List.finRange n).erase i := by
    rw [(List.nodup_finRange n).erase_eq_filter, siblings]
    exact List.filter_congr fun j _ => by by_cases hj : j = i <;> simp [hj]
  rw [herase, List.length_erase_of_mem (List.mem_finRange i), List.length_finRange]

/-- **What a step does**: a call of the program changes the pools; a call of `chooseSibling`
leaves the cursor below the number of siblings, if it moves it. -/
theorem process_cases (h : s.step e = some s') :
    (∃ c, e = .program c ∧ callStep s.pools c = some s'.pools ∧ s'.idx = s.idx) ∨
    ∃ p i size, e = .choose p i ∧ some size ∈ s.pools ∧ s'.pools = s.pools ∧
      (s'.idx = s.idx ∨ s'.idx + 2 ≤ size) := by
  cases e with
  | program c =>
    obtain ⟨pools, hpools, rfl⟩ := Option.map_eq_some_iff.mp h
    exact Or.inl ⟨c, rfl, hpools, rfl⟩
  | choose p i =>
    simp only [Process.step] at h
    split at h
    · rename_i size hp
      have hmem : some size ∈ s.pools := List.mem_of_getElem? hp
      split at h
      · rename_i hi
        rcases chooseSibling_cases (siblings size ⟨i, hi⟩) 0 s.idx with
          ⟨hc, -⟩ | ⟨q, hc, hq⟩ | ⟨hc, -, -⟩
        · rw [hc] at h
          obtain rfl := Option.some.inj h
          exact Or.inr ⟨p, i, size, rfl, hmem, rfl, Or.inl rfl⟩
        · rw [hc] at h
          obtain rfl := Option.some.inj h
          have hlt : s.idx < (siblings size ⟨i, hi⟩).length := (List.getElem?_eq_some_iff.mp hq).1
          have hmod := Nat.mod_lt (s.idx + 1) (Nat.zero_lt_of_lt hlt)
          rw [length_siblings] at hmod hlt
          refine Or.inr ⟨p, i, size, rfl, hmem, rfl, Or.inr ?_⟩
          rw [length_siblings]
          change (s.idx + 1) % (size - 1) + 2 ≤ size
          omega
        · rw [hc] at h
          exact absurd h (by simp)
      · exact absurd h (by simp)
    · exact absurd h (by simp)

/-- A pool that is alive after a call was alive before, or the call constructed it. -/
theorem mem_of_callStep {pools pools' : List (Option ℕ)} {c : PoolCall} {size : ℕ}
    (h : callStep pools c = some pools') (hmem : some size ∈ pools') :
    some size ∈ pools ∨ size ∈ constructed [c] := by
  cases c with
  | construct m =>
    obtain rfl := Option.some.inj h
    rcases List.mem_append.mp hmem with hold | hnew
    · exact Or.inl hold
    · exact Or.inr (by simpa [constructed] using hnew)
  | destroy p =>
    simp only [callStep] at h
    split at h
    · obtain rfl := Option.some.inj h
      exact Or.inl ((List.mem_or_eq_of_mem_set hmem).resolve_right (by simp))
    · exact absurd h (by simp)

/-- The invariant of the process: the pools are those of the script so far, and the cursor was
left by a call on a queue of one of them. -/
structure CursorInv (es : List Event) (s : Process) : Prop where
  pools : exec callStep [] (es.filterMap Event.program?) = some s.pools
  known : ∀ size, some size ∈ s.pools → size ∈ constructed (es.filterMap Event.program?)
  idx : s.idx = 0 ∨ ∃ size ∈ constructed (es.filterMap Event.program?), s.idx + 2 ≤ size

theorem constructed_append (script script' : List PoolCall) :
    constructed (script ++ script') = constructed script ++ constructed script' :=
  List.filterMap_append

/-- **Every step keeps the invariant.** -/
theorem CursorInv.step (h : s.step e = some s') (hI : CursorInv es s) :
    CursorInv (es ++ [e]) s' := by
  rcases process_cases h with ⟨c, rfl, hpools, hidx⟩ | ⟨p, i, size, rfl, hmem, hpools, hidx⟩
  · have hscript : (es ++ [Event.program c]).filterMap Event.program?
        = es.filterMap Event.program? ++ [c] := List.filterMap_append
    refine ⟨?_, ?_, ?_⟩
    · rw [hscript, exec_append, hI.pools]
      simp [exec, hpools]
    · intro size hsize
      rw [hscript, constructed_append, List.mem_append]
      exact (mem_of_callStep hpools hsize).imp_left (hI.known size)
    · rw [hscript, constructed_append, hidx]
      rcases hI.idx with hzero | ⟨size, hsize, hle⟩
      · exact Or.inl hzero
      · exact Or.inr ⟨size, List.mem_append_left _ hsize, hle⟩
  · have hscript : (es ++ [Event.choose p i]).filterMap Event.program?
        = es.filterMap Event.program? := by simp [Event.program?]
    refine ⟨by rw [hscript, hpools]; exact hI.pools, ?_, ?_⟩
    · intro m hm
      rw [hscript]
      exact hI.known m (hpools ▸ hm)
    · rw [hscript]
      rcases hidx with hidx | hle
      · exact hidx ▸ hI.idx
      · exact Or.inr ⟨size, hI.known size hmem, hle⟩

theorem CursorInv.run (h : Run (Fires Process.step) Process.start es s) : CursorInv es s :=
  h.trace_invariant ⟨rfl, fun _ hmem => absurd hmem List.not_mem_nil, Or.inl rfl⟩
    fun _ _ _ _ _ hI hst => hI.step hst

/-- Where no pool is outgrown, every call is in bounds. -/
theorem inBounds_of_neverOutgrown {script : List PoolCall} (h : NeverOutgrown script) :
    InBounds script := by
  intro es s hpre hrun size i hmem hsib
  have hI := CursorInv.run hrun
  have hlen := List.length_pos_iff.mpr hsib
  rw [length_siblings] at hlen ⊢
  rcases hI.idx with hidx | ⟨size', hsize', hle⟩
  · omega
  · have hgrown := h _ _ hpre hI.pools size hmem (by omega) size' hsize'
    omega

/-! ## 3. A schedule that leaves the cursor behind -/

/-- The program's calls with no call of `chooseSibling` between them. -/
theorem run_program (idx : ℕ) {script : List PoolCall} {pools pools' : List (Option ℕ)}
    (h : exec callStep pools script = some pools') :
    Run (Fires Process.step) ⟨idx, pools⟩ (script.map .program) ⟨idx, pools'⟩ := by
  induction script generalizing pools with
  | nil =>
    obtain rfl : pools = pools' := by simpa [exec] using h
    exact Run.refl
  | cons c script ih =>
    obtain ⟨mid, hmid, hrest⟩ := Option.bind_eq_some_iff.mp h
    have hfirst : Process.step ⟨idx, pools⟩ (.program c) = some ⟨idx, mid⟩ := by
      simp [Process.step, hmid]
    exact (Run.single hfirst).append (ih hrest)

/-- Worker 0 of a pool moves the cursor up to the last of its siblings. -/
theorem run_choose {pools : List (Option ℕ)} {p size : ℕ} (hp : pools[p]? = some (some size))
    (k : ℕ) (hk : k + 2 ≤ size) :
    Run (Fires Process.step) ⟨0, pools⟩ (List.replicate k (.choose p 0)) ⟨k, pools⟩ := by
  induction k with
  | zero => exact Run.refl
  | succ k ih =>
    have hlt : k < (siblings size ⟨0, by omega⟩).length := by rw [length_siblings]; omega
    have hchoose : chooseSibling .LookNext 0 k (siblings size ⟨0, by omega⟩)
        = .sibling (siblings size ⟨0, by omega⟩)[k] (k + 1) := by
      have hne : siblings size ⟨0, by omega⟩ ≠ [] := List.ne_nil_of_length_pos (by omega)
      have hmod : (k + 1) % (siblings size ⟨0, by omega⟩).length = k + 1 :=
        Nat.mod_eq_of_lt (by rw [length_siblings]; omega)
      simp [chooseSibling, hne, readSibling, List.getElem?_eq_getElem hlt, hmod]
    have hlast : Process.step ⟨k, pools⟩ (.choose p 0) = some ⟨k + 1, pools⟩ := by
      have hpos : 0 < size := by omega
      simp [Process.step, hp, hpos, hchoose]
    rw [List.replicate_succ']
    exact (ih (by omega)).tail hlast

/-- Where every call is in bounds, no pool is outgrown. -/
theorem neverOutgrown_of_inBounds {script : List PoolCall} (h : InBounds script) :
    NeverOutgrown script := by
  intro before pools hpre hexec size hmem hsize size' hsize'
  by_contra hgt
  have hcall : PoolCall.construct size' ∈ before := by
    obtain ⟨c, hc, hsome⟩ := List.mem_filterMap.mp hsize'
    cases c with
    | construct m => exact Option.some.inj hsome ▸ hc
    | destroy p => simp at hsome
  obtain ⟨first, rest, rfl⟩ := List.append_of_mem hcall
  rw [exec_append] at hexec
  obtain ⟨pools₁, hfirst, hrest⟩ := Option.bind_eq_some_iff.mp hexec
  -- the larger pool's worker runs the cursor up, and nobody else calls until the end
  have hrun₁ := run_program 0 hfirst
  have hrun₂ : Run (Fires Process.step) ⟨0, pools₁⟩ [.program (.construct size')]
      ⟨0, pools₁ ++ [some size']⟩ := Run.single rfl
  have hlarger : (pools₁ ++ [some size'])[pools₁.length]? = some (some size') := by simp
  have hrun₃ := run_choose hlarger (size' - 2) (by omega)
  have hrest' : exec callStep (pools₁ ++ [some size']) rest = some pools := hrest
  have hrun₄ := run_program (size' - 2) hrest'
  have hrun := ((hrun₁.append hrun₂).append hrun₃).append hrun₄
  have hscript : ((first.map Event.program ++ [Event.program (.construct size')])
      ++ List.replicate (size' - 2) (Event.choose pools₁.length 0)
      ++ rest.map Event.program).filterMap Event.program?
      = first ++ PoolCall.construct size' :: rest := by
    have hmap : ∀ l : List PoolCall, (l.map Event.program).filterMap Event.program? = l :=
      fun l => by simp [List.filterMap_map, Function.comp_def, Event.program?]
    simp [List.filterMap_append, hmap, List.filterMap_replicate, Event.program?]
  have hlen := length_siblings (n := size) ⟨0, by omega⟩
  have hbound := h _ _ (hscript ▸ hpre) hrun size ⟨0, by omega⟩ hmem
    (List.ne_nil_of_length_pos (by omega))
  rw [hlen] at hbound
  change size' - 2 < size - 1 at hbound
  omega

/-! ## 4. Bounds over the life of the process -/

/-- **When `LookNext` stays in bounds**: exactly where no pool with a sibling to choose is alive
together with, or after, a larger one. -/
theorem lookNext_inBounds_iff (script : List PoolCall) :
    InBounds script ↔ NeverOutgrown script := by
  constructor
  · exact neverOutgrown_of_inBounds
  · exact inBounds_of_neverOutgrown

/-- **`LookNext` can read past the end**: one call in a pool of 12, and then a pool of 2. -/
theorem lookNext_outOfBounds_after_larger_pool :
    ¬ ∀ script, InBounds script := by
  intro hall
  obtain ⟨s, hrun, hidx, hmem⟩ := exists_run_of_exec Process.step
    Process.start
    [.program (.construct 12), .choose 0 0, .program (.destroy 0),
      .program (.construct 2)]
    (fun s => s.idx = 1 ∧ some 2 ∈ s.pools) (by decide)
  have hbound := hall [.construct 12, .destroy 0, .construct 2] _ s List.prefix_rfl hrun 2 0 hmem
    (by decide)
  rw [hidx, length_siblings] at hbound
  exact absurd hbound (by decide)

end CxxConcurrency.TaskSystem.Stealing
