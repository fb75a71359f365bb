/-
# `StoreWithMutex` of `task_system/mutex_to_queue.cpp`, as a map

Any number of threads call `set` and `get`; each call takes effect while it holds `mu`, so a run
is the sequence of the calls in lock order, and the label of a `get` carries what it returned.

`set` calls `emplace`, which leaves an entry that exists as it is.  So the table holds for each
key the value of the first `set`, and a `get` returns the value of the latest one exactly where
the two are the same (`get_returns_last_iff`).
-/
import CxxConcurrency.Lib.Run
import CxxConcurrency.Lib.Writes
import CxxConcurrency.TaskSystem.MutexToQueue

namespace CxxConcurrency.TaskSystem.StoreWithMutex

open CxxConcurrency.Lib

/-! ## 1. The calls -/

/-- `StoreWithMutex::get`: the entry found, or `std::nullopt`. -/
def get (s : StoreWithMutex) (key : String) : Option String := s.tb key

/-- The store just constructed. -/
def init : StoreWithMutex := ⟨fun _ => none⟩

/-- A call, with what it returned. -/
inductive Call
  | set (key value : String)
  | get (key : String) (result : Option String)
  deriving DecidableEq

variable {ι : Type*}

/-- The call of one thread takes effect. -/
def step (s : StoreWithMutex) : ι × Call → Option StoreWithMutex
  | (_, .set key value) => some (s.set key value)
  | (_, .get key result) => if s.get key = result then some s else none

/-- The pair a call writes. -/
def write? : ι × Call → Option (String × String)
  | (_, .set key value) => some (key, value)
  | (_, .get _ _) => none

/-- The pairs written, in lock order. -/
def writes (as : List (ι × Call)) : List (String × String) := as.filterMap write?

/-! ## 2. What a `get` returns -/

variable {s s' : StoreWithMutex} {as : List (ι × Call)} {a : ι × Call}

/-- **The table holds the first write of each key.** -/
theorem tb_step (h : s.step a = some s') (hs : ∀ key, s.tb key = firstWrite key (writes as))
    (key : String) : s'.tb key = firstWrite key (writes (as ++ [a])) := by
  obtain ⟨t, c⟩ := a
  cases c with
  | set key' value =>
    obtain rfl := Option.some.inj h
    have hwrites : writes (as ++ [(t, .set key' value)]) = writes as ++ [(key', value)] :=
      List.filterMap_append
    rw [hwrites, firstWrite_append_singleton, ← hs key]
    by_cases hkey : key' = key
    · subst hkey
      cases hold : s.tb key' <;> simp [StoreWithMutex.set, Table.emplace, hold]
    · cases hold : s.tb key' <;>
        simp [StoreWithMutex.set, Table.emplace, hold, hkey, Ne.symm hkey]
  | get key' result =>
    simp only [step] at h
    split at h
    · obtain rfl := Option.some.inj h
      have hwrites : writes (as ++ [(t, .get key' result)]) = writes as := by
        simp [writes, write?]
      rw [hwrites]
      exact hs key
    · exact absurd h (by simp)

theorem tb_run (h : Run (Fires step) init as s) (key : String) :
    s.tb key = firstWrite key (writes as) := by
  refine h.trace_invariant (I := fun as s => ∀ key, s.tb key = firstWrite key (writes as))
    ?_ ?_ key
  · intro key
    rfl
  · intro as s a s' _ hs hst
    exact tb_step hst hs

/-- **A `get` returns the first write.** -/
theorem result_of_prefix (h : Run (Fires step) init as s) {before : List (ι × Call)} {t : ι}
    {key : String} {result : Option String}
    (hpre : before ++ [(t, .get key result)] <+: as) :
    result = firstWrite key (writes before) := by
  obtain ⟨u, v, hbefore, hst⟩ := h.exists_step_of_prefix hpre
  rw [← tb_run hbefore key]
  simp only [Fires, step] at hst
  split at hst
  · rename_i hget
    exact hget.symm
  · exact absurd hst (by simp)

/-! ## 3. Last writer wins -/

/-- Every `get` returns the value of the latest `set` on its key before it, and `std::nullopt`
exactly where there is none. -/
def LastWriterWins (as : List (ι × Call)) : Prop :=
  ∀ before t key result, before ++ [(t, .get key result)] <+: as →
    result = lastWrite key (writes before) ∧
      (result = none ↔ ∀ w ∈ writes before, w.1 ≠ key)

/-- At every `get`, the first and the latest `set` on its key before it pass the same value. -/
def RewritesAgree (as : List (ι × Call)) : Prop :=
  ∀ before t key result, before ++ [(t, .get key result)] <+: as →
    firstWrite key (writes before) = lastWrite key (writes before)

/-- **When the store is a last-writer-wins map**: exactly where, at every `get`, the first and
the latest `set` on its key pass the same value. -/
theorem get_returns_last_iff (h : Run (Fires step) init as s) :
    LastWriterWins as ↔ RewritesAgree as := by
  constructor
  · intro hlast before t key result hpre
    rw [← result_of_prefix h hpre]
    exact (hlast before t key result hpre).1
  · intro hagree before t key result hpre
    have hresult := result_of_prefix h hpre
    constructor
    · rw [hresult]
      exact hagree before t key result hpre
    · rw [hresult]
      exact firstWrite_eq_none_iff

/-- Thread 0 writes a key twice, the same value, and thread 1 reads it. -/
theorem get_returns_last_two_threads :
    ∃ s, Run (Fires step) init
        [((0 : Fin 2), .set "a" "1"), (0, .set "a" "1"), (1, .get "a" (some "1"))] s ∧
      LastWriterWins
        [((0 : Fin 2), .set "a" "1"), (0, .set "a" "1"), (1, .get "a" (some "1"))] := by
  have hrun : Run (Fires step) init
      [((0 : Fin 2), .set "a" "1"), (0, .set "a" "1"), (1, .get "a" (some "1"))] _ :=
    run_of_exec rfl
  refine ⟨_, hrun, (get_returns_last_iff hrun).mpr ?_⟩
  intro before t key result hpre
  rcases before with _ | ⟨a, _ | ⟨b, _ | ⟨c, rest⟩⟩⟩
  · simp at hpre
  · simp at hpre
  · obtain ⟨rfl, rfl, rfl, rfl, rfl⟩ := by simpa using hpre
    decide
  · simp at hpre

/-- **A second `set` is lost**: `get` returns the value of the first. -/
theorem second_set_lost :
    ¬ ∀ (n : ℕ) (as : List (Fin n × Call)) (s : StoreWithMutex), Run (Fires step) init as s →
      LastWriterWins as := by
  intro hall
  have hrun : Run (Fires step) init
      [((0 : Fin 1), .set "a" "1"), (0, .set "a" "2"), (0, .get "a" (some "1"))] _ :=
    run_of_exec rfl
  obtain ⟨hlast, -⟩ := hall 1 _ _ hrun [(0, .set "a" "1"), (0, .set "a" "2")] 0 "a" (some "1")
    List.prefix_rfl
  exact absurd hlast (by decide)

end CxxConcurrency.TaskSystem.StoreWithMutex
