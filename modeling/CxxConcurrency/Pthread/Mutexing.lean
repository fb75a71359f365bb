/-
# The counter of `pthread/mutexing.cpp`

`execute` constructs a store, creates threads that run `compute` on it, and joins them.  `compute`
locks `func_mutex`, appends `num` to the store and adds one to `num`, which is static and goes on
from one `execute` to the next.

The main thread calls `execute` again and again, with any number of threads in each.  What the
mutex guards is `Consecutive`: the stores filled so far, one after the other, are `1, 2, 3, …`, and
`num` is the number that comes next.  Between the two lines of the critical section `num` is the
number that was appended last; but nothing is ever taken from a store, so the numbers there are a
prefix of those that the section leaves (`consecutive_numbers`).
-/
import CxxConcurrency.Lib.Monitor
import Mathlib.Data.List.Basic

namespace CxxConcurrency.Pthread

open CxxConcurrency.Lib

/-! ## 1. What the threads share -/

/-- The largest `int`. -/
def intMax : ℤ := 2147483647

/-- The stores and the counter. -/
structure Memory where
  /-- The stores of the calls of `execute` that have returned, in order. -/
  past : List (List ℤ)
  /-- The local `store` of the call of `execute` that is running. -/
  store : Option (List ℤ)
  /-- `static int num`. -/
  num : ℤ

/-- The stores filled so far, in the order of the calls of `execute`. -/
def Memory.filled (d : Memory) : List ℤ := (d.past ++ d.store.toList).flatten

/-- The accesses of `compute`. -/
inductive Access
  /-- `store->push_back( num )`, where `store` is that of call number `r` of `execute`. -/
  | pushBack (r : ℕ)
  /-- `num += 1` -/
  | incr

/-- They answer nothing. -/
def Access.Ans (_ : Access) : Type := Unit

/-- The stores and the counter under these accesses: a store that is gone is not to be accessed,
and `num` is not to overflow. -/
def memory : DataType Access Access.Ans Memory where
  run
    | .pushBack r, d =>
      if r = d.past.length then
        d.store.map fun store => ((), { d with store := some (store ++ [d.num]) })
      else none
    | .incr, d => if d.num < intMax then some ((), { d with num := d.num + 1 }) else none
  modifies _ := true

/-- `compute( arg )`, where `arg` points to the store of call number `r` of `execute`. -/
def compute (r : ℕ) : Method Access Access.Ans Unit where
  locks := true
  body := .op (.pushBack r) fun _ => .op .incr fun _ => .ret ()

/-- The first `k` numbers. -/
def numbers (k : ℕ) : List ℤ := (List.range k).map fun i : ℕ => (i : ℤ) + 1

/-- The stores hold the numbers from `1` on, and `num` is the next. -/
def Consecutive (d : Memory) : Prop :=
  d.filled = numbers d.filled.length ∧ d.num = d.filled.length + 1

theorem length_numbers (k : ℕ) : (numbers k).length = k := by simp [numbers]

theorem numbers_succ (k : ℕ) : numbers (k + 1) = numbers k ++ [(k : ℤ) + 1] := by
  simp [numbers, List.range_succ]

/-- A prefix of the numbers is the numbers up to some point. -/
theorem eq_numbers_of_prefix {l : List ℤ} {k : ℕ} (h : l <+: numbers k) : l = numbers l.length := by
  have hle : l.length ≤ k := by
    rw [← length_numbers k]
    exact h.length_le
  calc l = (numbers k).take l.length := List.prefix_iff_eq_take.mp h
    _ = numbers l.length := by
      rw [numbers, ← List.map_take, List.take_range, min_eq_left hle, numbers]

variable {d d' : Memory} {r : ℕ}

theorem filled_push {store : List ℤ} (hstore : d.store = some store) (x : ℤ) :
    Memory.filled { d with store := some (store ++ [x]) } = d.filled ++ [x] := by
  simp [Memory.filled, hstore]

/-- **What an access does**: it appends to the stores, and leaves the others and the question
which one is being filled as they are. -/
theorem memory_run {a : Access} {x : a.Ans} (h : memory.run a d = some (x, d')) :
    d.filled <+: d'.filled ∧ d'.past = d.past ∧ d'.store.isSome = d.store.isSome := by
  cases a with
  | pushBack r =>
    obtain ⟨-, h⟩ := Option.ite_none_right_eq_some.mp h
    obtain ⟨store, hstore, h⟩ := Option.map_eq_some_iff.mp h
    obtain ⟨-, rfl⟩ := Prod.mk.inj h
    refine ⟨?_, rfl, ?_⟩
    · rw [filled_push hstore]
      exact List.prefix_append _ _
    · rw [hstore]
      rfl
  | incr =>
    obtain ⟨-, h⟩ := Option.ite_none_right_eq_some.mp h
    obtain ⟨-, rfl⟩ := Prod.mk.inj (Option.some.inj h)
    exact ⟨List.prefix_rfl, rfl, rfl⟩

/-- **`compute`, alone, hands out the next number.** -/
theorem compute_wp (hr : r = d.past.length) (hstore : d.store.isSome = true) (hnum : d.num < intMax)
    (hJ : Consecutive d) : (compute r).body.wp memory (fun _ d' => Consecutive d') d := by
  obtain ⟨store, hstore⟩ := Option.isSome_iff_exists.mp hstore
  obtain ⟨hfilled, hnext⟩ := hJ
  have hpush : memory.run (.pushBack r) d
      = some ((), { d with store := some (store ++ [d.num]) }) := by
    change (if r = d.past.length then _ else none) = _
    rw [if_pos hr, hstore]
    rfl
  refine ⟨(), _, hpush, (), _, if_pos hnum, ?_⟩
  have hafter : Memory.filled { d with store := some (store ++ [d.num]), num := d.num + 1 }
      = d.filled ++ [d.num] := filled_push hstore d.num
  refine ⟨?_, ?_⟩
  · rw [hafter, List.length_append, List.length_singleton, numbers_succ, ← hfilled, ← hnext]
  · rw [hafter, List.length_append, List.length_singleton]
    change d.num + 1 = _
    omega

/-! ## 2. The process -/

/-- Where the main thread is. -/
inductive Main
  /-- Between two calls of `execute`. -/
  | between
  /-- In the loop that creates, with thread `j` next. -/
  | creating (j : ℕ)
  /-- In the loop that joins, with thread `j` next. -/
  | joining (j : ℕ)
  deriving DecidableEq

/-- Thread `j` of call number `r` of `execute`. -/
abbrev ThreadId := ℕ × ℕ

/-- The main thread, and the threads that run `compute`. -/
structure Process where
  threads : Monitor ThreadId ℕ Access Access.Ans Unit Memory
  main : Main

/-- The number of the call of `execute` that is running, or else of the next one. -/
def Process.round (s : Process) : ℕ := s.threads.data.past.length

/-- `execute` has not been called. -/
def Process.init : Process := ⟨Monitor.init ⟨[], none, 1⟩, .between⟩

/-- The data of the threads becomes `d`, and the main thread moves to `m`. -/
def Process.setMain (s : Process) (d : Memory) (m : Main) : Process :=
  ⟨{ s.threads with data := d }, m⟩

/-- A step of the main thread or of a thread. -/
inductive Event
  /-- `execute` is called and constructs its store. -/
  | execute
  | create
  /-- The loop that creates is over. -/
  | created
  | join
  /-- The loop that joins is over, and `execute` returns. -/
  | ret
  | thread (t : ThreadId) (e : Monitor.Event ℕ)
  deriving DecidableEq

/-- One step, where `NUM_THREADS` is `n`. -/
def Process.step (n : ℕ) (s : Process) : Event → Option Process
  | .execute =>
    match s.main with
    | .between => some (s.setMain { s.threads.data with store := some [] } (.creating 0))
    | _ => none
  | .create =>
    match s.main with
    | .creating j =>
      if j < n then
        (s.threads.step memory compute ((s.round, j), .call s.round)).map
          fun threads => ⟨threads, .creating (j + 1)⟩
      else none
    | _ => none
  | .created =>
    match s.main with
    | .creating j => if j < n then none else some { s with main := .joining 0 }
    | _ => none
  | .join =>
    match s.main with
    | .joining j =>
      if j < n then
        match s.threads.pc (s.round, j) with
        | .idle => some { s with main := .joining (j + 1) }
        | _ => none
      else none
    | _ => none
  | .ret =>
    match s.main with
    | .joining j =>
      if j < n then none
      else
        some (s.setMain
          { s.threads.data with
            past := s.threads.data.past ++ s.threads.data.store.toList
            store := none }
          .between)
    | _ => none
  -- threads are started by the main thread only
  | .thread _ (.call _) => none
  | .thread t e => (s.threads.step memory compute (t, e)).map fun threads => { s with threads }

/-- The cases of a step. -/
inductive StepCase (n : ℕ) (s : Process) : Process → Prop
  | execute (hmain : s.main = .between) :
      StepCase n s (s.setMain { s.threads.data with store := some [] } (.creating 0))
  | create {j : ℕ} {threads : Monitor ThreadId ℕ Access Access.Ans Unit Memory}
      (hmain : s.main = .creating j) (hj : j < n)
      (hstep : Monitor.StepCase memory compute s.threads ((s.round, j), .call s.round) threads) :
      StepCase n s ⟨threads, .creating (j + 1)⟩
  | created {j : ℕ} (hmain : s.main = .creating j) (hj : ¬ j < n) :
      StepCase n s { s with main := .joining 0 }
  | join {j : ℕ} (hmain : s.main = .joining j) (hj : j < n)
      (hidle : s.threads.pc (s.round, j) = .idle) :
      StepCase n s { s with main := .joining (j + 1) }
  | ret {j : ℕ} (hmain : s.main = .joining j) (hj : ¬ j < n) :
      StepCase n s (s.setMain
        { s.threads.data with
          past := s.threads.data.past ++ s.threads.data.store.toList
          store := none }
        .between)
  | thread {t : ThreadId} {e : Monitor.Event ℕ}
      {threads : Monitor ThreadId ℕ Access Access.Ans Unit Memory} (he : ∀ c, e ≠ .call c)
      (hstep : Monitor.StepCase memory compute s.threads (t, e) threads) :
      StepCase n s { s with threads }

variable {n : ℕ} {s s' : Process} {es : List Event}

/-- **Every step is one of the cases.** -/
theorem stepCase_of_step {e : Event} (h : s.step n e = some s') : StepCase n s s' := by
  cases e with
  | execute =>
    simp only [Process.step] at h
    split at h
    · rename_i hmain
      obtain rfl := Option.some.inj h
      exact .execute hmain
    · exact absurd h (by simp)
  | create =>
    simp only [Process.step] at h
    split at h
    · rename_i j hmain
      obtain ⟨hj, h⟩ := Option.ite_none_right_eq_some.mp h
      obtain ⟨threads, hst, rfl⟩ := Option.map_eq_some_iff.mp h
      exact .create hmain hj (Monitor.stepCase_of_step hst)
    · exact absurd h (by simp)
  | created =>
    simp only [Process.step] at h
    split at h
    · rename_i j hmain
      obtain ⟨hj, h⟩ := Option.ite_none_left_eq_some.mp h
      obtain rfl := Option.some.inj h
      exact .created hmain hj
    · exact absurd h (by simp)
  | join =>
    simp only [Process.step] at h
    split at h
    · rename_i j hmain
      obtain ⟨hj, h⟩ := Option.ite_none_right_eq_some.mp h
      split at h
      · rename_i hidle
        obtain rfl := Option.some.inj h
        exact .join hmain hj hidle
      · exact absurd h (by simp)
    · exact absurd h (by simp)
  | ret =>
    simp only [Process.step] at h
    split at h
    · rename_i j hmain
      obtain ⟨hj, h⟩ := Option.ite_none_left_eq_some.mp h
      obtain rfl := Option.some.inj h
      exact .ret hmain hj
    · exact absurd h (by simp)
  | thread t e =>
    cases e with
    | call c => exact absurd h (by simp [Process.step])
    | enter | opBegin | opEnd | leave =>
      obtain ⟨threads, hst, rfl⟩ := Option.map_eq_some_iff.mp h
      exact .thread (by simp) (Monitor.stepCase_of_step hst)

/-! ## 3. The invariant -/

/-- How many threads of the current call of `execute` have been created. -/
def Main.created (n : ℕ) : Main → ℕ
  | .between => 0
  | .creating j => j
  | .joining _ => n

/-- How many of them have been joined. -/
def Main.joined : Main → ℕ
  | .between => 0
  | .creating _ => 0
  | .joining j => j

/-- The invariant of the process.  A thread that is not done belongs to the current call of
`execute`, whose store is alive. -/
structure Inv (n : ℕ) (s : Process) : Prop where
  monitor : Monitor.Inv memory compute (fun d _ => Consecutive d) s.threads
  store : s.threads.data.store.isSome = true ↔ s.main ≠ .between
  created : s.main.created n ≤ n
  active : ∀ t, s.threads.pc t ≠ .idle →
    t.1 = s.round ∧ s.main.joined ≤ t.2 ∧ t.2 < s.main.created n
  /-- Each was given that store. -/
  arg : ∀ t r, s.threads.pc t = .called r → r = s.round

theorem Inv.init : Inv n Process.init where
  monitor := Monitor.Inv.init ⟨rfl, rfl⟩
  store := by simp [Process.init, Monitor.init]
  created := Nat.zero_le _
  active t ht := absurd rfl ht
  arg t r ht := absurd ht (by simp [Process.init, Monitor.init])

/-- Once all that were created have been joined, no thread is left. -/
theorem Inv.idle (hI : Inv n s) (hjoined : s.main.created n ≤ s.main.joined) (t : ThreadId) :
    s.threads.pc t = .idle := by
  by_contra ht
  obtain ⟨-, hge, hlt⟩ := hI.active t ht
  omega

/-- The main thread replaces the stores by others that are filled alike, while no thread is
left. -/
theorem Inv.setMain (hI : Inv n s) (hidle : ∀ t, s.threads.pc t = .idle) {d : Memory} {m : Main}
    (hfilled : d.filled = s.threads.data.filled) (hnum : d.num = s.threads.data.num)
    (hstore : d.store.isSome = true ↔ m ≠ .between) (hm : m.created n ≤ n) :
    Inv n (s.setMain d m) where
  monitor := by
    refine hI.monitor.of_data (fun t => by rw [hidle t]; rfl) ?_
    rintro ⟨hpre, hnext⟩
    unfold Consecutive
    rw [hfilled, hnum]
    exact ⟨hpre, hnext⟩
  store := hstore
  created := hm
  active t ht := absurd (hidle t) ht
  arg t r ht := absurd ((hidle t).symm.trans ht) (by simp)

/-- **What a thread does to the process**: it was not idle, it goes to a point where it does not
look at its argument any more, and the stores are as many as before. -/
theorem thread_move {m m' : Monitor ThreadId ℕ Access Access.Ans Unit Memory} {t : ThreadId}
    {e : Monitor.Event ℕ} (he : ∀ c, e ≠ .call c)
    (h : Monitor.StepCase memory compute m (t, e) m') :
    m.pc t ≠ .idle ∧ (∃ p, m'.pc = Function.update m.pc t p ∧ ∀ r, p ≠ .called r) ∧
      m'.data.past = m.data.past ∧ m'.data.store.isSome = m.data.store.isSome := by
  cases h with
  | call hpc => exact absurd rfl (he _)
  | lock hpc _ _ => exact ⟨by simp [hpc], ⟨_, rfl, by simp⟩, rfl, rfl⟩
  | enterFree hpc _ => exact ⟨by simp [hpc], ⟨_, rfl, by simp⟩, rfl, rfl⟩
  | opBegin hpc => exact ⟨by simp [hpc], ⟨_, rfl, by simp⟩, rfl, rfl⟩
  | opEnd hpc hrun =>
    obtain ⟨-, hpast, hstore⟩ := memory_run hrun
    exact ⟨by simp [hpc], ⟨_, rfl, by simp⟩, hpast, hstore⟩
  | leave hpc => exact ⟨by simp [hpc], ⟨_, rfl, by simp⟩, rfl, rfl⟩

/-- A new thread gets the store of the current call. -/
theorem Inv.create (hI : Inv n s) {j : ℕ}
    {threads : Monitor ThreadId ℕ Access Access.Ans Unit Memory} (hmain : s.main = .creating j)
    (hj : j < n)
    (hstep : Monitor.StepCase memory compute s.threads ((s.round, j), .call s.round) threads) :
    Inv n ⟨threads, .creating (j + 1)⟩ := by
  have hmonitor := hI.monitor.step hstep fun t c he => absurd he (by simp)
  cases hstep with
  | call hpc =>
    refine ⟨hmonitor, ?_, hj, ?_, ?_⟩
    · change s.threads.data.store.isSome = true ↔ _
      simpa [hmain] using hI.store
    · refine (Function.forall_update_iff s.threads.pc fun t p => p ≠ .idle →
        t.1 = s.round ∧ (Main.creating (j + 1)).joined ≤ t.2 ∧
          t.2 < (Main.creating (j + 1)).created n).mpr ⟨?_, ?_⟩
      · intro _
        exact ⟨rfl, Nat.zero_le _, Nat.lt_succ_self j⟩
      · intro t _ ht
        obtain ⟨hr, -, hlt⟩ := hI.active t ht
        rw [hmain] at hlt
        exact ⟨hr, Nat.zero_le _, Nat.lt_succ_of_lt hlt⟩
    · refine (Function.forall_update_iff s.threads.pc fun t p => ∀ r, p = .called r →
        r = s.round).mpr ⟨?_, fun t _ => hI.arg t⟩
      rintro r ⟨⟩
      rfl

/-- **A step of a thread**, while `num` can be incremented. -/
theorem Inv.thread (hI : Inv n s) (hnum : s.threads.data.num < intMax) {t : ThreadId}
    {e : Monitor.Event ℕ} {threads : Monitor ThreadId ℕ Access Access.Ans Unit Memory}
    (he : ∀ c, e ≠ .call c)
    (hstep : Monitor.StepCase memory compute s.threads (t, e) threads) :
    Inv n { s with threads } := by
  obtain ⟨hpc, ⟨p, hp, hcalled⟩, hpast, hstore⟩ := thread_move he hstep
  have hround : ({ s with threads } : Process).round = s.round := congrArg List.length hpast
  refine ⟨hI.monitor.step hstep ?_, ?_, hI.created, ?_, ?_⟩
  · -- a thread that enters `compute` is not joined yet, so its store is alive
    rintro t r - hr
    refine ⟨rfl, compute_wp (hI.arg t r hr) (hI.store.mpr ?_) hnum⟩
    intro hmain
    obtain ⟨-, -, hlt⟩ := hI.active t (by simp [hr])
    rw [hmain] at hlt
    exact absurd hlt (Nat.not_lt_zero _)
  · change threads.data.store.isSome = true ↔ _
    rw [hstore]
    exact hI.store
  · rw [hround]
    change ∀ u, threads.pc u ≠ .idle → _
    rw [hp]
    exact (Function.forall_update_iff s.threads.pc fun u q => q ≠ .idle → u.1 = s.round ∧
      s.main.joined ≤ u.2 ∧ u.2 < s.main.created n).mpr
      ⟨fun _ => hI.active t hpc, fun u _ => hI.active u⟩
  · rw [hround]
    change ∀ u r, threads.pc u = .called r → _
    rw [hp]
    exact (Function.forall_update_iff s.threads.pc fun _ q => ∀ r, q = .called r →
      r = s.round).mpr ⟨fun r hr => absurd hr (hcalled r), fun u _ => hI.arg u⟩

/-- **Every step keeps the invariant**, while `num` can be incremented. -/
theorem Inv.step (h : StepCase n s s') (hnum : s.threads.data.num < intMax) (hI : Inv n s) :
    Inv n s' := by
  cases h with
  | execute hmain =>
    have hstore : s.threads.data.store = none := by
      simpa [hmain] using hI.store
    refine hI.setMain (hI.idle ?_) ?_ rfl ?_ (Nat.zero_le _)
    · rw [hmain]
      exact le_rfl
    · simp [Memory.filled, hstore]
    · simp
  | create hmain hj hstep => exact hI.create hmain hj hstep
  | @created j hmain hj =>
    have hcreated := hI.created
    rw [hmain] at hcreated
    refine ⟨hI.monitor, ?_, le_rfl, ?_, hI.arg⟩
    · simpa [hmain] using hI.store
    · intro t ht
      obtain ⟨hr, -, hlt⟩ := hI.active t ht
      rw [hmain] at hlt
      exact ⟨hr, Nat.zero_le _, lt_of_lt_of_le hlt hcreated⟩
  | @join j hmain hj hidle =>
    refine ⟨hI.monitor, ?_, le_rfl, ?_, hI.arg⟩
    · simpa [hmain] using hI.store
    · intro t ht
      obtain ⟨hr, hge, hlt⟩ := hI.active t ht
      rw [hmain] at hge hlt
      refine ⟨hr, lt_of_le_of_ne hge fun heq => ht ?_, hlt⟩
      rw [← hidle]
      exact congrArg _ (Prod.ext hr heq.symm)
  | @ret j hmain hj =>
    refine hI.setMain (hI.idle ?_) ?_ rfl ?_ (Nat.zero_le _)
    · rw [hmain]
      exact not_lt.mp hj
    · simp [Memory.filled]
    · simp
  | thread he hstep => exact hI.thread hnum he hstep

/-! ## 4. The numbers handed out -/

/-- `num` is below the largest `int`. -/
def BelowMax (s : Process) (_ : Event) : Prop := s.threads.data.num < intMax

instance (s : Process) (e : Event) : Decidable (BelowMax s e) :=
  inferInstanceAs (Decidable (_ < _))

theorem Inv.run (h : Run (Restrict BelowMax (Fires (Process.step n))) Process.init es s) :
    Inv n s :=
  h.invariant (fun _ _ _ hI hst => hI.step (stepCase_of_step hst.2) hst.1) Inv.init

/-- **The counter hands out consecutive numbers.**  In every state, the stores filled so far, one
after the other, hold the numbers from `1` on, and while `func_mutex` is free `num` is the next. -/
theorem consecutive_numbers
    (h : Run (Restrict BelowMax (Fires (Process.step n))) Process.init es s) :
    s.threads.data.filled = numbers s.threads.data.filled.length ∧
      (s.threads.mu = none → s.threads.data.num = s.threads.data.filled.length + 1) := by
  have hI := (Inv.run h).monitor
  refine ⟨?_, fun hmu => (hI.free hmu).1.2⟩
  -- what is in the stores now will still be there when the mutex is free
  obtain ⟨d, -, ⟨hfilled, -⟩, hpre⟩ := hI.exists_restored
    (R := fun d d' => d.filled <+: d'.filled) (fun _ => List.prefix_rfl)
    (fun _ _ _ h₁ h₂ => h₁.trans h₂) (fun _ _ _ _ hrun => (memory_run hrun).1)
  rw [hfilled] at hpre
  exact eq_numbers_of_prefix hpre

/-- The steps of a thread from its creation to the unlocking. -/
def computeEvents (t : ThreadId) : List Event :=
  [.enter, .opBegin, .opEnd, .opBegin, .opEnd, .leave].map (.thread t)

/-- Two threads in the first call of `execute`, of which the second is first at the mutex, and one
in the second call, between its two accesses. -/
def twoCalls : List Event :=
  [.execute, .create, .create] ++ computeEvents (0, 1) ++ computeEvents (0, 0) ++
    [.created, .join, .join, .ret, .execute, .create] ++ (computeEvents (1, 0)).take 3

theorem consecutive_numbers_two_calls :
    ∃ s, Run (Restrict BelowMax (Fires (Process.step 2))) Process.init twoCalls s ∧
      s.threads.data.filled = [1, 2, 3] ∧ s.threads.data.num = 3 ∧
      s.threads.data.filled = numbers s.threads.data.filled.length := by
  obtain ⟨s, hrun, hfilled, hnum⟩ := exists_restricted_run_of_exec BelowMax (Process.step 2)
    Process.init twoCalls (fun s => s.threads.data.filled = [1, 2, 3] ∧ s.threads.data.num = 3)
    ⟨_, rfl, rfl, rfl⟩
  exact ⟨s, hrun, hfilled, hnum, (consecutive_numbers hrun).1⟩

end CxxConcurrency.Pthread
