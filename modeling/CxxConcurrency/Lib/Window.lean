/-
# A sliding window over a sequence of jobs

Jobs 0, 1, 2, … are started in this order, finish in any order, and are retired in the order
in which they were started, each after it has finished.  At most `m` jobs are started and not
yet retired.  `Window m` carries all of this as fields, so a window that overtakes itself cannot
be built.

What it gives: at most `m` jobs are unfinished (`Window.length_unfinished_le`), and a job starts
only when every job `m` or more places before it has finished (`Window.Step.finished_of_start`).
-/
import Mathlib.Data.Finset.Insert
import Mathlib.Data.List.Range

namespace CxxConcurrency.Lib

/-- A window of at most `m` open jobs. -/
@[ext] structure Window (m : ℕ) where
  /-- How many jobs have been started. -/
  started : ℕ
  /-- How many jobs have been retired. -/
  retired : ℕ
  /-- The jobs that have finished. -/
  finished : Finset ℕ
  retired_le : retired ≤ started
  started_le : started ≤ retired + m
  finished_of_retired : ∀ i < retired, i ∈ finished
  started_of_finished : ∀ i ∈ finished, i < started

namespace Window

variable {m : ℕ} {w w' : Window m}

/-- The window before the first job. -/
def empty : Window m := ⟨0, 0, ∅, le_rfl, Nat.zero_le _, by simp, by simp⟩

/-- Start the next job. -/
def start (w : Window m) (h : w.started < w.retired + m) : Window m :=
  ⟨w.started + 1, w.retired, w.finished, Nat.le_succ_of_le w.retired_le, h,
    w.finished_of_retired, fun i hi => Nat.lt_succ_of_lt (w.started_of_finished i hi)⟩

/-- Job `i` finishes. -/
def finish (w : Window m) (i : ℕ) (h : i < w.started) : Window m :=
  ⟨w.started, w.retired, insert i w.finished, w.retired_le, w.started_le,
    fun j hj => Finset.mem_insert_of_mem (w.finished_of_retired j hj),
    fun j hj => (Finset.mem_insert.mp hj).elim (fun hji => hji ▸ h) (w.started_of_finished j)⟩

/-- Retire the oldest open job. -/
def retire (w : Window m) (h : w.retired ∈ w.finished) : Window m :=
  ⟨w.started, w.retired + 1, w.finished, w.started_of_finished _ h,
    le_trans w.started_le (by omega),
    fun i hi => (Nat.lt_succ_iff_lt_or_eq.mp hi).elim (w.finished_of_retired i) (fun e => e ▸ h),
    w.started_of_finished⟩

/-- What can happen to a window. -/
inductive Op
  | start
  | finish (i : ℕ)
  | retire
  deriving DecidableEq

/-- The steps of a window. -/
inductive Step : Window m → Op → Window m → Prop
  | start {w : Window m} (h : w.started < w.retired + m) : Step w .start (w.start h)
  | finish {w : Window m} (i : ℕ) (h : i < w.started) : Step w (.finish i) (w.finish i h)
  | retire {w : Window m} (h : w.retired ∈ w.finished) : Step w .retire (w.retire h)

/-- The open jobs, oldest first. -/
def active (w : Window m) : List ℕ := List.range' w.retired (w.started - w.retired)

/-- The jobs that have been started and have not finished. -/
def unfinished (w : Window m) : List ℕ := (List.range w.started).filter (· ∉ w.finished)

@[simp] theorem length_active : w.active.length = w.started - w.retired := List.length_range'

/-- The jobs started are those retired and then the open ones. -/
theorem range_started : List.range w.started = List.range w.retired ++ w.active := by
  have happ := List.range'_append_1 (s := 0) (m := w.retired) (n := w.started - w.retired)
  rw [Nat.zero_add, Nat.add_sub_of_le w.retired_le] at happ
  rw [active, List.range_eq_range', List.range_eq_range', happ]

/-- Starting a job opens it. -/
theorem active_start (h : w.started < w.retired + m) :
    (w.start h).active = w.active ++ [w.started] := by
  have hlen : w.started + 1 - w.retired = w.started - w.retired + 1 :=
    Nat.succ_sub w.retired_le
  have hlast : w.retired + (w.started - w.retired) = w.started := Nat.add_sub_of_le w.retired_le
  change List.range' w.retired (w.started + 1 - w.retired) = _
  rw [hlen, List.range'_concat, Nat.one_mul, hlast, active]

/-- Retiring a job closes it. -/
theorem active_retire (h : w.retired ∈ w.finished) :
    w.active = w.retired :: (w.retire h).active := by
  have hlt := w.started_of_finished _ h
  have hlen : w.started - w.retired = w.started - (w.retired + 1) + 1 := by omega
  rw [active, hlen, List.range'_succ]
  rfl

/-- **At most `m` jobs are unfinished.** -/
theorem length_unfinished_le : w.unfinished.length ≤ m := by
  have hretired : (List.range w.retired).filter (· ∉ w.finished) = [] := by
    refine List.filter_eq_nil_iff.mpr ?_
    intro i hi
    simpa using w.finished_of_retired i (List.mem_range.mp hi)
  have hle := w.started_le
  calc w.unfinished.length
      = (w.active.filter (· ∉ w.finished)).length := by
        rw [unfinished, range_started, List.filter_append, hretired, List.nil_append]
    _ ≤ w.active.length := List.length_filter_le _ _
    _ ≤ m := by rw [length_active]; omega

/-- **A job starts when all jobs `m` or more places before it have finished.** -/
theorem Step.finished_of_start (h : Step w .start w') {j : ℕ} (hj : j + m ≤ w.started) :
    j ∈ w.finished := by
  cases h with
  | start hlt => exact w.finished_of_retired j (by omega)

/-- When no job is open, all that have been started have finished. -/
theorem finished_of_active_nil (h : w.active = []) {i : ℕ} (hi : i < w.started) :
    i ∈ w.finished := by
  have hlen := length_active (w := w)
  rw [h, List.length_nil] at hlen
  exact w.finished_of_retired i (by omega)

end Window

end CxxConcurrency.Lib
