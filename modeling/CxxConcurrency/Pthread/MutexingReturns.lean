/-
# `execute` of `pthread/mutexing.cpp` returns, with a full store

Each thread of a call of `execute` takes six steps, and `left` counts those it has before it; so a
call takes at most `8 * n + 3` steps.  A thread that has three left or fewer has appended its number
to the store, so when all have been joined there are `n` numbers in it, which is what the assertion
of `execute` says (`Full`).  With `consecutive_numbers` call number `r` leaves the numbers from
`r * n + 1` to `(r + 1) * n` (`execute_fills_store`).
-/
import CxxConcurrency.Lib.MonitorProgress
import CxxConcurrency.Lib.Parties
import CxxConcurrency.Pthread.Mutexing

namespace CxxConcurrency.Pthread

open CxxConcurrency.Lib

/-! ## 1. A thread in `compute` -/

/-- Where a thread of the process is. -/
abbrev Pc := Monitor.Pc ℕ Access Access.Ans Unit

/-- What `compute` does after the first access. -/
def afterPush : Body Access Access.Ans Unit := .op .incr fun _ => .ret ()

/-- The thread is at a point of `compute`. -/
def InCompute (p : Pc) : Prop :=
  ∀ c b, p.rest? = some (c, b) → b = (compute c).body ∨ b = afterPush ∨ b = .ret ()

/-- The steps that a thread has before it. -/
def left : Pc → ℕ
  | .idle => 0
  | .called _ => 6
  | .between _ (.op (.pushBack _) _) => 5
  | .inside _ (.pushBack _) _ => 4
  | .between _ (.op .incr _) => 3
  | .inside _ .incr _ => 2
  | .between _ (.ret _) => 1

/-- Whether the thread has appended its number. -/
def pushed (p : Pc) : ℕ := if left p ≤ 3 then 1 else 0

/-- What a thread does: one step of those before it, and when it appends its number the store
grows by one. -/
theorem compute_step {m m' : Monitor ThreadId ℕ Access Access.Ans Unit Memory} {t : ThreadId}
    {e : Monitor.Event ℕ} (he : ∀ c, e ≠ .call c) (hin : InCompute (m.pc t))
    (h : Monitor.StepCase memory compute m (t, e) m') :
    ∃ p, m'.pc = Function.update m.pc t p ∧ InCompute p ∧ left p + 1 = left (m.pc t) ∧
      ∀ store', m'.data.store = some store' → ∃ store, m.data.store = some store ∧
        store'.length + pushed (m.pc t) = store.length + pushed p := by
  cases h with
  | call hpc => exact absurd rfl (he _)
  | @lock t c hpc _ _ | @enterFree t c hpc _ =>
    refine ⟨_, rfl, fun c' b hb => ?_, by rw [hpc]; rfl, fun store' hstore => ⟨store', hstore, ?_⟩⟩
    · obtain ⟨rfl, rfl⟩ := Prod.mk.inj (Option.some.inj hb)
      exact Or.inl rfl
    · rw [hpc]
      rfl
  | @opBegin t c a next hpc =>
    rw [hpc] at hin
    refine ⟨_, rfl, hin, ?_, fun store' hstore => ⟨store', hstore, ?_⟩⟩
    · rw [hpc]
      cases a <;> rfl
    · rw [hpc]
      cases a <;> rfl
  | @opEnd t c a next x d hpc hrun =>
    rw [hpc] at hin ⊢
    have hbody := hin c _ rfl
    have hnext : InCompute (.between c (next x)) := by
      rintro c' b hb
      obtain ⟨rfl, rfl⟩ := Prod.mk.inj (Option.some.inj hb)
      rcases hbody with h | h | h
      · change Body.op a next = Body.op (.pushBack c) fun _ => afterPush at h
        cases h
        exact Or.inr (Or.inl rfl)
      · change Body.op a next = Body.op .incr fun _ => .ret () at h
        cases h
        exact Or.inr (Or.inr rfl)
      · exact absurd h (by simp)
    refine ⟨_, rfl, hnext, ?_⟩
    rcases hbody with h | h | h
    · -- the number is appended
      change Body.op a next = Body.op (.pushBack c) fun _ => afterPush at h
      cases h
      obtain ⟨-, hrun⟩ := Option.ite_none_right_eq_some.mp hrun
      obtain ⟨store, hstore, hrun⟩ := Option.map_eq_some_iff.mp hrun
      obtain ⟨-, rfl⟩ := Prod.mk.inj hrun
      refine ⟨rfl, fun store' hstore' => ⟨store, hstore, ?_⟩⟩
      rw [← Option.some.inj hstore', List.length_append]
      rfl
    · change Body.op a next = Body.op .incr fun _ => .ret () at h
      cases h
      obtain ⟨-, hrun⟩ := Option.ite_none_right_eq_some.mp hrun
      obtain ⟨-, rfl⟩ := Prod.mk.inj (Option.some.inj hrun)
      exact ⟨rfl, fun store' hstore' => ⟨store', hstore', rfl⟩⟩
    · exact absurd h (by simp)
  | @leave t c r hpc =>
    refine ⟨.idle, rfl, fun c' b hb => absurd hb (by simp [Monitor.Pc.rest?]), by rw [hpc]; rfl,
      fun store' hstore => ⟨store', hstore, ?_⟩⟩
    rw [hpc]
    rfl

/-! ## 2. The threads of a call of `execute` -/

variable {n : ℕ} {s s' : Process} {e : Event} {es : List Event}

/-- A count of the threads that the running call has created. -/
def Process.count (n : ℕ) (g : Pc → ℕ) (s : Process) : ℕ :=
  ∑ j ∈ Finset.range (s.main.created n), g (s.threads.pc (s.round, j))

/-- What a step of one thread does to a count. -/
theorem count_thread (g : Pc → ℕ) {threads : Monitor ThreadId ℕ Access Access.Ans Unit Memory}
    {t : ThreadId} {p : Pc} (hI : Inv n s) (ht : s.threads.pc t ≠ .idle)
    (hp : threads.pc = Function.update s.threads.pc t p)
    (hpast : threads.data.past = s.threads.data.past) :
    Process.count n g { s with threads } + g (s.threads.pc t) = s.count n g + g p := by
  obtain ⟨hround, -, hlt⟩ := hI.active t ht
  have ht' : t = (s.round, t.2) := Prod.ext hround rfl
  have hround' : ({ s with threads } : Process).round = s.round := congrArg List.length hpast
  have hsum := sum_add_of_mem (f := fun j => g (s.threads.pc (s.round, j)))
    (g := fun j => g (threads.pc (s.round, j))) (Finset.mem_range.mpr hlt) fun j _ hj => by
      rw [hp, Function.update_of_ne fun heq => hj (congrArg Prod.snd heq)]
  rw [← ht', hp, Function.update_self, ← hp] at hsum
  rw [Process.count, hround']
  exact hsum

/-- What is known of the stores. -/
structure Full (n : ℕ) (s : Process) : Prop where
  inCompute : ∀ t, InCompute (s.threads.pc t)
  store : ∀ store, s.threads.data.store = some store → store.length = s.count n pushed
  past : ∀ store ∈ s.threads.data.past, store.length = n

theorem Full.init : Full n Process.init where
  inCompute t c b hb := absurd hb (by simp [Process.init, Monitor.init, Monitor.Pc.rest?])
  store _ h := absurd h (by simp [Process.init, Monitor.init])
  past _ h := absurd h List.not_mem_nil

/-- The count of a call that has just been given a thread more. -/
theorem count_create (g : Pc → ℕ) {threads : Monitor ThreadId ℕ Access Access.Ans Unit Memory}
    {j : ℕ} (hmain : s.main = .creating j)
    (hstep : Monitor.StepCase memory compute s.threads ((s.round, j), .call s.round) threads) :
    Process.count n g ⟨threads, .creating (j + 1)⟩ = s.count n g + g (.called s.round) := by
  cases hstep with
  | call hpc =>
    rw [Process.count, Process.count, hmain]
    change ∑ i ∈ Finset.range (j + 1), g (Function.update s.threads.pc (s.round, j)
      (.called s.round) (s.round, i)) = _
    rw [Finset.sum_range_succ, Function.update_self]
    refine congrArg (· + g (.called s.round)) (Finset.sum_congr rfl fun i hi => ?_)
    have hne : (s.round, i) ≠ (s.round, j) := fun heq =>
      (Finset.mem_range.mp hi).ne (congrArg Prod.snd heq)
    rw [Function.update_of_ne hne]

/-- **Every step keeps this.** -/
theorem Full.step (h : StepCase n s s') (hI : Inv n s) (hF : Full n s) : Full n s' := by
  obtain ⟨hin, hstore, hpast⟩ := hF
  cases h with
  | execute hmain =>
    refine ⟨hin, fun store h => ?_, hpast⟩
    obtain rfl := Option.some.inj h
    rfl
  | @create j threads hmain hj hstep =>
    have hcount := count_create (n := n) pushed hmain hstep
    cases hstep with
    | call hpc =>
      refine ⟨?_, fun store h => ?_, hpast⟩
      · refine (Function.forall_update_iff s.threads.pc fun _ p => InCompute p).mpr
          ⟨fun c b hb => absurd hb (by simp [Monitor.Pc.rest?]), fun t _ => hin t⟩
      · rw [hcount]
        exact hstore store h
  | @created j hmain hj =>
    have hle := hI.created
    refine ⟨hin, fun store h => ?_, hpast⟩
    rw [hstore store h, Process.count, Process.count, hmain]
    rw [hmain] at hle
    obtain rfl : j = n := le_antisymm hle (not_lt.mp hj)
    rfl
  | join hmain hj hidle =>
    refine ⟨hin, fun store h => ?_, hpast⟩
    rw [hstore store h, Process.count, Process.count, hmain]
    rfl
  | @ret j hmain hj =>
    refine ⟨hin, fun store h => absurd h (by simp [Process.setMain]), fun store h => ?_⟩
    rcases List.mem_append.mp h with h | h
    · exact hpast store h
    · -- all threads have been joined, so each has appended its number
      have hidle := hI.idle (by rw [hmain]; exact not_lt.mp hj)
      rw [hstore store (Option.mem_toList.mp h), Process.count, hmain]
      simp only [hidle]
      change ∑ _i ∈ Finset.range n, 1 = n
      rw [Finset.sum_const_nat fun _ _ => rfl, Finset.card_range, Nat.mul_one]
  | @thread t e threads he hstep =>
    obtain ⟨ht, -, hpast', -⟩ := thread_move he hstep
    obtain ⟨p, hp, hinp, -, hgrows⟩ := compute_step he (hin t) hstep
    refine ⟨?_, fun store' h => ?_, fun store h => hpast store (hpast' ▸ h)⟩
    · change ∀ u, InCompute (threads.pc u)
      rw [hp]
      exact (Function.forall_update_iff s.threads.pc fun _ p => InCompute p).mpr
        ⟨hinp, fun u _ => hin u⟩
    · obtain ⟨store, hs, hlen⟩ := hgrows store' h
      have hcount := count_thread pushed hI ht hp hpast'
      have hlen' := hstore store hs
      omega

theorem Full.run (h : Run (Restrict BelowMax (Fires (Process.step n))) Process.init es s) :
    Inv n s ∧ Full n s :=
  h.invariant (I := fun s => Inv n s ∧ Full n s)
    (fun _ _ _ hIF hst => ⟨hIF.1.step (stepCase_of_step hst.2) hst.1,
      hIF.2.step (stepCase_of_step hst.2) hIF.1⟩) ⟨Inv.init, Full.init⟩

/-! ## 3. The steps that are left -/

/-- The steps that the main thread has left in a call of `execute`, with those of the threads it
has yet to create. -/
def Main.left (n : ℕ) : Main → ℕ
  | .between => 0
  | .creating j => 7 * (n - j) + n + 2
  | .joining j => n - j + 1

/-- The steps that are left in the call of `execute`. -/
def Process.left (n : ℕ) (s : Process) : ℕ := s.main.left n + s.count n Pthread.left

/-- **Every step but a call of `execute` takes from the steps that are left.** -/
theorem left_step (h : StepCase n s s') (hI : Inv n s) (hF : Full n s) :
    s'.left n < s.left n ∨ s.main = .between ∧ s'.left n ≤ 8 * n + 2 := by
  cases h with
  | execute hmain =>
    refine Or.inr ⟨hmain, ?_⟩
    change 7 * (n - 0) + n + 2 + 0 ≤ _
    omega
  | @create j threads hmain hj hstep =>
    have hcount := count_create (n := n) Pthread.left hmain hstep
    change _ = _ + 6 at hcount
    refine Or.inl ?_
    rw [Process.left, Process.left, hcount, hmain]
    change 7 * (n - (j + 1)) + n + 2 + _ < 7 * (n - j) + n + 2 + _
    omega
  | @created j hmain hj =>
    have hle := hI.created
    rw [hmain] at hle
    obtain rfl : j = n := le_antisymm hle (not_lt.mp hj)
    refine Or.inl (Nat.add_lt_add_of_lt_of_le ?_ ?_)
    · rw [hmain]
      change j - 0 + 1 < 7 * (j - j) + j + 2
      omega
    · rw [Process.count, Process.count, hmain]
      exact le_rfl
  | @join j hmain hj hidle =>
    refine Or.inl (Nat.add_lt_add_of_lt_of_le ?_ ?_)
    · rw [hmain]
      change n - (j + 1) + 1 < n - j + 1
      omega
    · rw [Process.count, Process.count, hmain]
      exact le_rfl
  | @ret j hmain hj =>
    refine Or.inl ?_
    rw [Process.left, Process.left, hmain]
    change 0 + 0 < n - j + 1 + _
    omega
  | @thread t e threads he hstep =>
    obtain ⟨ht, -, hpast, -⟩ := thread_move he hstep
    obtain ⟨p, hp, -, hleft, -⟩ := compute_step he (hF.inCompute t) hstep
    have hcount := count_thread Pthread.left hI ht hp hpast
    refine Or.inl (Nat.add_lt_add_left ?_ (s.main.left n))
    omega

theorem left_of_between (hmain : s.main = .between) : s.left n = 0 := by
  rw [Process.left, Process.count, hmain]
  rfl

/-- A step other than a call of `execute` needs one that is running. -/
theorem main_ne_between (hI : Inv n s) (h : s.step n e = some s') (he : e ≠ .execute) :
    s.main ≠ .between := by
  intro hmain
  cases e with
  | execute => exact he rfl
  | create | created | join | ret => simp [Process.step, hmain] at h
  | thread t e =>
    cases e with
    | call c => exact absurd h (by simp [Process.step])
    | enter | opBegin | opEnd | leave =>
      obtain ⟨threads, hst, -⟩ := Option.map_eq_some_iff.mp h
      obtain ⟨ht, -⟩ := thread_move (by simp) (Monitor.stepCase_of_step hst)
      exact ht (hI.idle (by rw [hmain]; exact le_rfl) t)

/-- **A call of `execute` takes at most `8 * n + 3` steps.** -/
theorem length_le (h : Run (Restrict BelowMax (Fires (Process.step n))) Process.init es s) :
    es.length ≤ (8 * n + 3) * es.count .execute := by
  have hle := h.countP_add_le_mul (I := fun s => Inv n s ∧ Full n s) (m := Process.left n)
    (p := fun _ => true) (q := fun e => e == .execute) (c := 8 * n + 3)
    (fun _ _ _ hIF hst => ⟨hIF.1.step (stepCase_of_step hst.2) hst.1,
      hIF.2.step (stepCase_of_step hst.2) hIF.1⟩) ?_ ⟨Inv.init, Full.init⟩
  · rw [List.countP_true, left_of_between (s := Process.init) rfl] at hle
    change _ ≤ 0 + (8 * n + 3) * es.count .execute at hle
    omega
  · rintro s e s' ⟨hI, hF⟩ ⟨-, hst⟩
    rcases left_step (stepCase_of_step hst) hI hF with hlt | ⟨hmain, hle⟩
    · rw [if_pos rfl]
      omega
    · have he : e = .execute := by
        by_contra hne
        exact main_ne_between hI hst hne hmain
      subst he
      simp only [beq_self_eq_true, if_true]
      omega

/-- **While `execute` runs somebody can take a step.** -/
theorem Inv.exists_step (hI : Inv n s) (hmain : s.main ≠ .between) :
    ∃ e, e ≠ .execute ∧ (s.step n e).isSome = true := by
  cases hm : s.main with
  | between => exact absurd hm hmain
  | creating j =>
    by_cases hj : j < n
    · -- the thread that is created next has not been created yet
      have hpc : s.threads.pc (s.round, j) = .idle := by
        by_contra hpc
        obtain ⟨-, -, hlt⟩ := hI.active _ hpc
        rw [hm] at hlt
        exact absurd hlt (lt_irrefl j)
      exact ⟨.create, by simp, by simp [Process.step, hm, hj, Monitor.step, hpc]⟩
    · exact ⟨.created, by simp, by simp [Process.step, hm, hj]⟩
  | joining j =>
    by_cases hj : j < n
    · by_cases hpc : s.threads.pc (s.round, j) = .idle
      · exact ⟨.join, by simp, by simp [Process.step, hm, hj, hpc]⟩
      · obtain ⟨t, a, ha, hsome⟩ := hI.monitor.exists_step hpc
        refine ⟨.thread t a, by simp, ?_⟩
        cases a with
        | call c => exact absurd rfl (ha c)
        | enter | opBegin | opEnd | leave => simpa [Process.step] using hsome
    · exact ⟨.ret, by simp, by simp [Process.step, hm, hj]⟩

/-! ## 4. The stores -/

/-- The numbers that call number `r` hands out to `n` threads. -/
def numbersOf (n r : ℕ) : List ℤ := (List.range n).map fun i : ℕ => ((r * n + i : ℕ) : ℤ) + 1

theorem numbers_add (a n : ℕ) :
    numbers (a + n) = numbers a ++ (List.range n).map fun i : ℕ => ((a + i : ℕ) : ℤ) + 1 := by
  simp [numbers, List.range_add, Function.comp_def]

theorem length_flatten {past : List (List ℤ)} (hlen : ∀ store ∈ past, store.length = n) :
    past.flatten.length = past.length * n := by
  rw [List.length_flatten, List.map_congr_left hlen, List.map_const', List.sum_replicate_nat]

/-- Stores of `n` numbers each that hold the first numbers, one after the other. -/
theorem eq_numbersOf {past : List (List ℤ)} (hlen : ∀ store ∈ past, store.length = n)
    (hflat : past.flatten = numbers (past.length * n)) :
    past = (List.range past.length).map (numbersOf n) := by
  induction past using List.reverseRecOn with
  | nil => rfl
  | append_singleton past store ih =>
    have hlen' : ∀ store ∈ past, store.length = n := fun x hx =>
      hlen x (List.mem_append_left _ hx)
    rw [List.flatten_append, List.flatten_singleton, List.length_append, List.length_singleton,
      Nat.succ_mul, numbers_add] at hflat
    obtain ⟨hpast, hstore⟩ := List.append_inj hflat (by rw [length_flatten hlen', length_numbers])
    rw [List.length_append, List.length_singleton, List.range_succ, List.map_append,
      ← ih hlen' hpast, hstore]
    rfl

/-- **`execute` returns, with the next `n` numbers in its store.**  In every run in which `num`
stays below the largest `int`: a call of `execute` takes at most `8 * n + 3` steps; while one is
running somebody can take a step; and between two calls the stores of those that have returned hold
`n` numbers each, in order, from `1` on. -/
theorem execute_fills_store
    (h : Run (Restrict BelowMax (Fires (Process.step n))) Process.init es s) :
    es.length ≤ (8 * n + 3) * es.count .execute ∧
      (s.main ≠ .between → ∃ e, e ≠ .execute ∧ (s.step n e).isSome = true) ∧
      (s.main = .between → s.threads.data.past
        = (List.range s.threads.data.past.length).map (numbersOf n)) := by
  obtain ⟨hI, hF⟩ := Full.run h
  refine ⟨length_le h, hI.exists_step, fun hmain => ?_⟩
  have hidle := hI.idle (by rw [hmain]; exact le_rfl)
  have hmu : s.threads.mu = none := by
    refine Option.eq_none_iff_forall_ne_some.mpr fun t ht => ?_
    obtain ⟨c, b, hrest⟩ := hI.monitor.owned.exists_rest ht
    rw [hidle t] at hrest
    exact absurd hrest (by simp [Monitor.Pc.rest?])
  have hnone : s.threads.data.store = none := by
    simpa [hmain] using hI.store
  have hfilled : s.threads.data.filled = s.threads.data.past.flatten := by
    simp [Memory.filled, hnone]
  have hnumbers := (hI.monitor.free hmu).1.1
  rw [hfilled, length_flatten hF.past] at hnumbers
  exact eq_numbersOf hF.past hnumbers

/-- Two threads, and one call of `execute` that has returned. -/
theorem execute_fills_store_two :
    ∃ es s, Run (Restrict BelowMax (Fires (Process.step 2))) Process.init es s ∧
      s.threads.data.past = [[1, 2]] ∧ s.threads.data.past
        = (List.range s.threads.data.past.length).map (numbersOf 2) := by
  obtain ⟨s, hrun, hmain, hpast⟩ := exists_restricted_run_of_exec BelowMax (Process.step 2)
    Process.init ([.execute, .create, .create] ++ computeEvents (0, 1) ++ computeEvents (0, 0) ++
      [.created, .join, .join, .ret])
    (fun s => s.main = .between ∧ s.threads.data.past = [[1, 2]]) ⟨_, rfl, rfl, rfl⟩
  exact ⟨_, s, hrun, hpast, (execute_fills_store hrun).2.2 hmain⟩

end CxxConcurrency.Pthread
