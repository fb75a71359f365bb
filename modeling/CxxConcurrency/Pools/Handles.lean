/-
# The deque of threads or futures in `ThreadPool` and `FuturePool`

`stdthread/thread_pool.hh` keeps a deque of `std::thread`, `async/future_pool.hh` one of
`std::future<void>`.  For both an entry is a handle to one started work: `join()` or `get()`
waits for the work and uses the handle up, `pop_front()` removes it.  `Handles` is the deque with
the history of the works: which were started and which handles were used up, in order, and how
the finished ones ended.

`Handles.Abs` relates it to a `Window`: the handles not used up are the open jobs, oldest first.
What either class does with its deque is one of the steps of the window.
-/
import CxxConcurrency.Lib.Window
import Mathlib.Logic.Function.Basic

namespace CxxConcurrency.Pools

open CxxConcurrency.Lib

/-! ## 1. The deque -/

/-- How a work ends: it returns, or an exception leaves it. -/
inductive Outcome
  | normal
  | threw
  deriving DecidableEq

/-- A `std::thread` or a `std::future<void>`. -/
structure Handle where
  /-- The work, numbered by the call of `do_work` that submitted it. -/
  work : ℕ
  /-- Whether the thread is joinable, or the future valid. -/
  valid : Bool
  deriving DecidableEq

/-- The deque `pool` and the works it has seen. -/
structure Handles where
  pool : List Handle
  /-- The local `fut` of `FuturePool::do_work`, between `std::async` and `push_back`. -/
  fut : Option Handle
  /-- The works started, in order. -/
  started : List ℕ
  /-- The works whose handle has been joined or fetched, in order. -/
  joined : List ℕ
  /-- How each work that has finished ended. -/
  outcome : ℕ → Option Outcome

namespace Handles

/-- The deque just constructed. -/
def empty : Handles := ⟨[], none, [], [], fun _ => none⟩

/-- `pool.front().join()` or `pool.front().get()`, which waits until the work has finished; the
front of an empty deque and a handle used up before have no next state. -/
def waitFront (d : Handles) : Option (Outcome × Handles) :=
  match d.pool with
  | [] => none
  | h :: rest =>
    if h.valid then
      (d.outcome h.work).map fun o =>
        (o, { d with pool := { h with valid := false } :: rest, joined := d.joined ++ [h.work] })
    else none

/-- `pool.pop_front()`. -/
def popFront (d : Handles) : Option Handles :=
  match d.pool with
  | [] => none
  | _ :: rest => some { d with pool := rest }

/-- `pool.emplace_back( … )` of a `std::thread` that starts work `k`. -/
def emplaceBack (d : Handles) (k : ℕ) : Handles :=
  { d with pool := d.pool ++ [⟨k, true⟩], started := d.started ++ [k] }

/-- `auto fut = std::async( std::launch::async, f )`, where `f` is work `k`. -/
def async (d : Handles) (k : ℕ) : Handles :=
  { d with fut := some ⟨k, true⟩, started := d.started ++ [k] }

/-- `pool.push_back( std::move( fut ) )`. -/
def pushBack (d : Handles) : Handles := { d with pool := d.pool ++ d.fut.toList, fut := none }

/-- The thread of work `k` ends. -/
def finish (d : Handles) (k : ℕ) (o : Outcome) : Option Handles :=
  if k ∈ d.started ∧ d.outcome k = none then
    some { d with outcome := Function.update d.outcome k (some o) }
  else none

/-! ## 2. What a sliding window means for the deque -/

/-- The works that have been started and have not finished. -/
def unfinished (d : Handles) : List ℕ := d.started.filter fun k => d.outcome k = none

/-- All handles there are. -/
def held (d : Handles) : List Handle := d.pool ++ d.fut.toList

/-- The works whose handles have not been used up. -/
def unjoined (d : Handles) : List ℕ := (d.held.filter Handle.valid).map Handle.work

/-- The deque holds at most `m` handles, at most `m` works are unfinished, and the works not yet
joined are the ones started last, in the order in which they were started. -/
structure Sliding (m : ℕ) (d : Handles) : Prop where
  size : d.pool.length ≤ m
  unfinished : d.unfinished.length ≤ m
  unjoined : d.started = d.joined ++ d.unjoined

/-- If a work is started between `d` and `d'`, it is the next one, and the works `m` or more
places before it have finished. -/
def StartsInTurn (m : ℕ) (d d' : Handles) : Prop :=
  ∀ k, d'.started = d.started ++ [k] →
    k = d.started.length ∧ ∀ j, j + m ≤ k → (d.outcome j).isSome

/-- Each of the first `submitted` works has been started once, in order, and has finished. -/
def AllDone (d : Handles) (submitted : ℕ) : Prop :=
  d.started = List.range submitted ∧ ∀ k < submitted, (d.outcome k).isSome

/-! ## 3. The window of a deque -/

variable {m : ℕ} {d d' : Handles} {w : Window m} {used : Bool}

/-- The deque is that of the window; `used` says that the handle at the front has been used up
and not yet removed. -/
structure Abs (d : Handles) (w : Window m) (used : Bool) : Prop where
  started : d.started = List.range w.started
  joined : d.joined = List.range w.retired
  held : ∃ front, d.held = front ++ w.active.map (Handle.mk · true) ∧
    (∀ h ∈ front, h.valid = false) ∧ front.length = used.toNat
  bound : used.toNat + w.active.length ≤ m
  outcome : ∀ k, (d.outcome k).isSome ↔ k ∈ w.finished
  normal : ∀ k o, d.outcome k = some o → o = .normal

theorem Abs.empty : Abs Handles.empty (Window.empty : Window m) false where
  started := rfl
  joined := rfl
  held := ⟨[], rfl, by simp, rfl⟩
  bound := by simp [Window.empty]
  outcome := by simp [Handles.empty, Window.empty]
  normal := by simp [Handles.empty]

/-- **A deque that is a window slides.** -/
theorem Abs.sliding (h : Abs d w used) : Sliding m d := by
  obtain ⟨front, hheld, hfront, hlen⟩ := h.held
  refine ⟨?_, ?_, ?_⟩
  · have hlength := congrArg List.length hheld
    simp only [Handles.held, List.length_append, List.length_map] at hlength
    have hbound := h.bound
    omega
  · have hunfinished : d.unfinished = w.unfinished := by
      rw [Handles.unfinished, Window.unfinished, h.started]
      refine List.filter_congr ?_
      intro k _
      have hk := h.outcome k
      cases ho : d.outcome k <;> simp_all
    rw [hunfinished]
    exact w.length_unfinished_le
  · have hnone : front.filter Handle.valid = [] :=
      List.filter_eq_nil_iff.mpr fun x hx => by simp [hfront x hx]
    have hunjoined : d.unjoined = w.active := by
      rw [Handles.unjoined, hheld, List.filter_append, hnone, List.nil_append,
        List.filter_eq_self.mpr (by simp), List.map_map]
      exact List.map_id _
    rw [hunjoined, h.started, h.joined, Window.range_started]

/-- Where no job is open, all that were started have finished. -/
theorem Abs.allDone (h : Abs d w used) (hnil : w.active = []) : AllDone d w.started :=
  ⟨h.started, fun k hk => (h.outcome k).mpr (w.finished_of_active_nil hnil hk)⟩

/-- Between two operations the deque holds a handle for each open job, and the used one. -/
theorem Abs.length_pool (h : Abs d w used) (hfut : d.fut = none) :
    d.pool.length = used.toNat + w.active.length := by
  obtain ⟨front, hheld, -, hlen⟩ := h.held
  have hlength := congrArg List.length hheld
  simp only [Handles.held, hfut, Option.toList_none, List.append_nil, List.length_append,
    List.length_map] at hlength
  omega

/-- Between two operations the deque holds the handles of the open jobs, oldest first. -/
theorem Abs.pool_eq (h : Abs d w false) (hfut : d.fut = none) :
    d.pool = w.active.map (Handle.mk · true) := by
  obtain ⟨front, hheld, -, hlen⟩ := h.held
  obtain rfl : front = [] := List.length_eq_zero_iff.mp hlen
  rwa [Handles.held, hfut, Option.toList_none, List.append_nil] at hheld

/-- An empty deque has no open job. -/
theorem Abs.active_nil (h : Abs d w used) (hpool : d.pool = []) (hfut : d.fut = none) :
    w.active = [] := by
  have hlen := h.length_pool hfut
  rw [hpool, List.length_nil] at hlen
  exact List.length_eq_zero_iff.mp (by omega)

/-! ## 4. The operations are steps of the window -/

/-- Waiting for the front retires the oldest open job. -/
theorem Abs.waitFront (h : Abs d w false) {o : Outcome} (hwait : d.waitFront = some (o, d')) :
    o = .normal ∧ d'.fut = d.fut ∧ d'.started = d.started ∧ ∃ hw, Abs d' (w.retire hw) true := by
  obtain ⟨front, hheld, -, hlen⟩ := h.held
  obtain rfl : front = [] := List.length_eq_zero_iff.mp hlen
  unfold Handles.waitFront at hwait
  split at hwait
  · exact absurd hwait (by simp)
  · rename_i x rest hpool
    split at hwait
    · obtain ⟨o', ho, heq⟩ := Option.map_eq_some_iff.mp hwait
      obtain ⟨rfl, rfl⟩ := Prod.mk.inj heq
      -- the handle at the front is that of the oldest open job
      have hcons : x :: (rest ++ d.fut.toList) = w.active.map (Handle.mk · true) := by
        rw [← List.cons_append, ← hpool]
        exact hheld
      obtain ⟨k, jobs, hactive, rfl, hrest⟩ := List.map_eq_cons_iff.mp hcons.symm
      obtain ⟨rfl, -, -⟩ := List.range'_eq_cons_iff.mp hactive
      have hw : w.retired ∈ w.finished := (h.outcome w.retired).mp (by simp [ho])
      have htail : (w.retire hw).active = jobs :=
        (List.cons.inj ((w.active_retire hw).symm.trans hactive)).2
      refine ⟨h.normal _ _ ho, rfl, rfl, hw, ?_⟩
      refine ⟨h.started, ?_, ?_, ?_, h.outcome, h.normal⟩
      · rw [h.joined]
        exact List.range_succ.symm
      · refine ⟨[⟨w.retired, false⟩], ?_, by simp, rfl⟩
        rw [htail, hrest]
        rfl
      · have hbound := h.bound
        rw [hactive, List.length_cons] at hbound
        rw [htail, Bool.toNat_true]
        simpa [Nat.add_comm] using hbound
    · exact absurd hwait (by simp)

/-- Removing the used handle makes room for one more job. -/
theorem Abs.popFront (h : Abs d w true) (hpop : d.popFront = some d') :
    d'.fut = d.fut ∧ d'.started = d.started ∧ w.active.length < m ∧ Abs d' w false := by
  obtain ⟨front, hheld, -, hlen⟩ := h.held
  obtain ⟨x, rfl⟩ := List.length_eq_one_iff.mp hlen
  have hbound := h.bound
  rw [Bool.toNat_true] at hbound
  unfold Handles.popFront at hpop
  split at hpop
  · exact absurd hpop (by simp)
  · rename_i y rest hpool
    obtain rfl := Option.some.inj hpop
    have hcons : y :: (rest ++ d.fut.toList) = x :: w.active.map (Handle.mk · true) := by
      rw [← List.cons_append, ← hpool]
      exact hheld
    refine ⟨rfl, rfl, by omega, h.started, h.joined, ?_, ?_, h.outcome, h.normal⟩
    · exact ⟨[], (List.cons.inj hcons).2, by simp, rfl⟩
    · rw [Bool.toNat_false]
      omega

/-- Starting the next work, with its handle behind all others, starts the next job. -/
theorem Abs.start (h : Abs d w false) (d' : Handles) (hroom : w.active.length < m)
    (hstarted : d'.started = d.started ++ [w.started]) (hjoined : d'.joined = d.joined)
    (houtcome : d'.outcome = d.outcome) (hheld' : d'.held = d.held ++ [⟨w.started, true⟩]) :
    ∃ hw, Abs d' (w.start hw) false := by
  have hle := w.retired_le
  rw [Window.length_active] at hroom
  obtain ⟨front, hheld, hfront, hlen⟩ := h.held
  have hw : w.started < w.retired + m := by omega
  refine ⟨hw, ?_, by rw [hjoined, h.joined]; rfl, ?_, ?_, by rw [houtcome]; exact h.outcome,
    by rw [houtcome]; exact h.normal⟩
  · rw [hstarted, h.started]
    exact List.range_succ.symm
  · refine ⟨front, ?_, hfront, hlen⟩
    rw [hheld', hheld, Window.active_start, List.map_append, List.append_assoc]
    rfl
  · rw [Window.active_start, List.length_append, Window.length_active, Bool.toNat_false]
    simp only [List.length_singleton]
    omega

/-- Appending `fut` changes who holds its handle. -/
theorem Abs.pushBack (h : Abs d w used) : Abs d.pushBack w used where
  started := h.started
  joined := h.joined
  held := by
    obtain ⟨front, hheld, hfront⟩ := h.held
    exact ⟨front, by rw [← hheld]; simp [Handles.held, Handles.pushBack], hfront⟩
  bound := h.bound
  outcome := h.outcome
  normal := h.normal

/-- The end of a work finishes its job. -/
theorem Abs.finish (h : Abs d w used) {k : ℕ} (hfin : d.finish k .normal = some d') :
    d'.fut = d.fut ∧ d'.pool = d.pool ∧ d'.started = d.started ∧
      ∃ hk, Abs d' (w.finish k hk) used := by
  unfold Handles.finish at hfin
  split at hfin
  · rename_i hk
    obtain rfl := Option.some.inj hfin
    have hlt : k < w.started := by
      rw [← List.mem_range, ← h.started]
      exact hk.1
    refine ⟨rfl, rfl, rfl, hlt, h.started, h.joined, h.held, h.bound, ?_, ?_⟩
    · intro j
      by_cases hjk : j = k
      · simp [hjk, Window.finish]
      · simpa [hjk, Window.finish] using h.outcome j
    · intro j o ho
      by_cases hjk : j = k
      · simpa [hjk, eq_comm] using ho
      · exact h.normal j o (by simpa [hjk] using ho)
  · exact absurd hfin (by simp)

/-- A step that starts nothing, or the next job, starts it in turn. -/
theorem Abs.startsInTurn (h : Abs d w used)
    (hstep : d'.started = d.started ∨
      d'.started = d.started ++ [w.started] ∧ ∃ w', Window.Step w .start w') :
    StartsInTurn m d d' := by
  intro k hk
  rcases hstep with hsame | ⟨hnext, w', hw'⟩
  · rw [hsame] at hk
    exact absurd (congrArg List.length hk) (by simp)
  · obtain rfl : w.started = k := by simpa using List.append_cancel_left (hnext.symm.trans hk)
    exact ⟨by rw [h.started, List.length_range],
      fun j hj => (h.outcome j).mpr (hw'.finished_of_start hj)⟩

end Handles

end CxxConcurrency.Pools
