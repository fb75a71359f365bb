/-
# The calls of a monitor return

A call may wait for the mutex, and then for as long as other calls hold it.  Two facts bound how
long that is.

* `Monitor.Inv.exists_step`.  While some thread is in a call, some thread can take a step in one:
  the owner of the mutex can always go on, and where there is no owner whoever asks can have it.
* `Monitor.countP_steppedBy_le`.  If every body has at most `k` operations (`Body.Within`), a thread
  takes at most `2 * k + 2` steps for each of its calls.

So from any state, if no more calls are made, boundedly many steps lead to one in which all calls
have returned.
-/
import CxxConcurrency.Lib.Monitor

namespace CxxConcurrency.Lib

variable {ι κ Op ρ δ : Type*} {Ans : Op → Type*}

/-! ## 1. Bodies of bounded length -/

/-- The body has at most `k` operations, whatever they answer. -/
def Body.Within : ℕ → Body Op Ans ρ → Prop
  | _, .ret _ => True
  | 0, .op _ _ => False
  | k + 1, .op _ next => ∀ x, (next x).Within k

namespace Monitor

/-- A thread at this point has at most `n` steps left in its call, if bodies have at most `k`
operations. -/
def Pc.Within (k n : ℕ) : Pc κ Op Ans ρ → Prop
  | .idle => True
  | .called _ => 2 * k + 2 ≤ n
  | .between _ b => ∃ j, b.Within j ∧ 2 * j + 1 ≤ n
  | .inside _ _ next => ∃ j, (∀ x, (next x).Within j) ∧ 2 * j + 2 ≤ n

variable {k n : ℕ} {t : ι}

/-! ## 2. The steps of a thread -/

section Steps

variable [DecidableEq ι] {D : DataType Op Ans δ} {meth : κ → Method Op Ans ρ}
  {s s' : Monitor ι κ Op Ans ρ δ} {e : ι × Event κ} {es : List (ι × Event κ)}

/-- A thread makes a call. -/
def calledBy (t : ι) : ι × Event κ → Bool
  | (u, .call _) => u = t
  | _ => false

/-- A thread takes a step in a call. -/
def steppedBy (t : ι) : ι × Event κ → Bool
  | (_, .call _) => false
  | (u, _) => u = t

/-- **A step in a call takes one from the steps that are left.** -/
theorem within_step (h : StepCase D meth s e s') (hmeth : ∀ c, s.pc e.1 = .called c →
    (meth c).body.Within k) (hcall : ∀ c, e.2 ≠ .call c) (hn : (s.pc e.1).Within k n) :
    ∃ m, n = m + 1 ∧ (s'.pc e.1).Within k m := by
  have hsucc : ∀ {m}, m + 1 ≤ n → ∃ j, n = j + 1 ∧ m ≤ j := fun h =>
    ⟨n - 1, by omega, by omega⟩
  cases h with
  | call hpc => exact absurd rfl (hcall _)
  | @lock t c hpc _ _ | @enterFree t c hpc _ =>
    rw [hpc] at hn
    obtain ⟨j, rfl, hj⟩ := hsucc hn
    exact ⟨j, rfl, by simpa [setPc] using ⟨k, hmeth c hpc, hj⟩⟩
  | @opBegin t c a next hpc =>
    rw [hpc] at hn
    obtain ⟨i, hi, hle⟩ := hn
    cases i with
    | zero => exact hi.elim
    | succ i =>
      obtain ⟨j, rfl, hj⟩ := hsucc hle
      exact ⟨j, rfl, by simpa [setPc] using ⟨i, hi, hj⟩⟩
  | @opEnd t c a next x d hpc hrun =>
    rw [hpc] at hn
    obtain ⟨i, hi, hle⟩ := hn
    obtain ⟨j, rfl, hj⟩ := hsucc hle
    exact ⟨j, rfl, by simpa [setPc] using ⟨i, hi x, hj⟩⟩
  | @leave t c r hpc =>
    rw [hpc] at hn
    obtain ⟨i, -, hle⟩ := hn
    obtain ⟨j, rfl, -⟩ := hsucc (Nat.le_trans (Nat.le_add_left 1 _) hle)
    exact ⟨j, rfl, by simp [setPc, Pc.Within]⟩

/-- A thread moves in its own steps only. -/
theorem pc_of_ne (h : StepCase D meth s e s') (ht : t ≠ e.1) : s'.pc t = s.pc t := by
  cases h <;> exact Function.update_of_ne ht _ _

/-- What the steps of thread `t` so far leave of the steps that its calls give it. -/
def Budget (k : ℕ) (es : List (ι × Event κ)) (s : Monitor ι κ Op Ans ρ δ) (t : ι) : Prop :=
  ∃ n, (s.pc t).Within k n ∧
    es.countP (steppedBy t) + n ≤ (2 * k + 2) * es.countP (calledBy t)

/-- **Every step keeps the budgets.** -/
theorem Budget.step (hB : Budget k es s t) (h : StepCase D meth s e s')
    (hmeth : ∀ c, (meth c).body.Within k) : Budget k (es ++ [e]) s' t := by
  obtain ⟨n, hn, hle⟩ := hB
  unfold Budget
  rw [countP_append_singleton, countP_append_singleton]
  obtain ⟨u, a⟩ := e
  by_cases htu : t = u
  · subst htu
    cases a with
    | call c =>
      cases h with
      | call hpc =>
        refine ⟨2 * k + 2, ?_, ?_⟩
        · rw [setPc_pc_self]
          exact le_rfl
        · simp only [steppedBy, calledBy, Bool.false_eq_true, decide_true, if_false, if_true]
          rw [Nat.mul_add]
          omega
    | enter | opBegin | opEnd | leave =>
      obtain ⟨m, rfl, hm⟩ := within_step h (fun c _ => hmeth c) (by simp) hn
      refine ⟨m, hm, ?_⟩
      simp only [steppedBy, calledBy, Bool.false_eq_true, decide_true, if_false, if_true,
        Nat.add_zero]
      omega
  · -- another thread steps
    have hut : ¬ u = t := fun heq => htu heq.symm
    have hstepped : steppedBy t (u, a) = false := by cases a <;> simp [steppedBy, hut]
    have hcalled : calledBy t (u, a) = false := by cases a <;> simp [calledBy, hut]
    refine ⟨n, ?_, ?_⟩
    · rw [pc_of_ne h htu]
      exact hn
    · rw [hstepped, hcalled]
      exact hle

/-- **A thread takes at most `2 * k + 2` steps for each of its calls.** -/
theorem countP_steppedBy_le {d : δ} (hmeth : ∀ c, (meth c).body.Within k)
    (h : Run (Fires (Monitor.step D meth)) (init d) es s) (t : ι) :
    es.countP (steppedBy t) ≤ (2 * k + 2) * es.countP (calledBy t) := by
  have hbudget : Budget k es s t :=
    h.trace_invariant (I := fun es s => Budget k es s t)
      ⟨0, by simp [init, Pc.Within], Nat.zero_le _⟩
      fun _ _ _ _ _ hB hst => hB.step (stepCase_of_step hst) hmeth
  obtain ⟨n, -, hle⟩ := hbudget
  omega

/-! ## 3. Somebody can go on -/

variable {J : δ → List (ι × κ × ρ) → Prop}

/-- A thread in a body can go on. -/
theorem Inv.exists_step_of_rest (hI : Inv D meth J s) {c : κ} {b : Body Op Ans ρ}
    (hrest : (s.pc t).rest? = some (c, b)) :
    ∃ a, (∀ c, a ≠ .call c) ∧ (s.step D meth (t, a)).isSome = true := by
  cases hpc : s.pc t with
  | idle | called => simp [hpc, Pc.rest?] at hrest
  | between c' b' =>
    cases b' with
    | ret r => exact ⟨.leave, by simp, by simp [Monitor.step, hpc]⟩
    | op a next => exact ⟨.opBegin, by simp, by simp [Monitor.step, hpc]⟩
  | inside c' a next =>
    have hop : (s.pc t).rest? = some (c', .op a next) := by rw [hpc]; rfl
    obtain ⟨x, d, hrun⟩ := hI.defined hop
    exact ⟨.opEnd, by simp, by simp [Monitor.step, hpc, hrun]⟩

/-- **While some thread is in a call, some thread can take a step in one.** -/
theorem Inv.exists_step (hI : Inv D meth J s) (ht : s.pc t ≠ .idle) :
    ∃ u a, (∀ c, a ≠ .call c) ∧ (s.step D meth (u, a)).isSome = true := by
  cases hmu : s.mu with
  | some u =>
    obtain ⟨c, b, hrest⟩ := hI.owned.exists_rest hmu
    exact ⟨u, hI.exists_step_of_rest hrest⟩
  | none =>
    cases hpc : s.pc t with
    | idle => exact absurd hpc ht
    | called c =>
      -- nobody has the mutex, so the thread can enter
      refine ⟨t, .enter, by simp, ?_⟩
      cases hlocks : (meth c).locks with
      | true | false => simp [Monitor.step, hpc, hlocks, hmu]
    | between c b | inside c a next => exact ⟨t, hI.exists_step_of_rest (by rw [hpc]; rfl)⟩

end Steps

/-- **The calls return.**  In every state that any interleaving of admitted calls reaches, each
thread has taken at most `2 * k + 2` steps for each of its calls, and while some thread is in a
call, some thread can take a step in one. -/
def CallsReturn (D : DataType Op Ans δ) (meth : κ → Method Op Ans ρ) (P : κ → Prop) (d₀ : δ)
    (k : ℕ) : Prop :=
  ∀ (ι : Type) [DecidableEq ι] (es : List (ι × Event κ)) (s : Monitor ι κ Op Ans ρ δ),
    Run (Restrict (Admits P) (Fires (Monitor.step D meth))) (Monitor.init d₀) es s →
      (∀ t, es.countP (steppedBy t) ≤ (2 * k + 2) * es.countP (calledBy t)) ∧
        ∀ t, s.pc t ≠ .idle →
          ∃ u a, (∀ c, a ≠ .call c) ∧ (s.step D meth (u, a)).isSome = true

/-- If the admitted methods lock and keep an invariant, and no body is longer than `k`, their calls
return. -/
theorem callsReturn {D : DataType Op Ans δ} {meth : κ → Method Op Ans ρ} {P : κ → Prop} {d₀ : δ}
    {k : ℕ} (hmeth : ∀ c, (meth c).body.Within k)
    (hinv : ∀ (ι : Type) [DecidableEq ι] (es : List (ι × Event κ)) (s : Monitor ι κ Op Ans ρ δ),
      Run (Restrict (Admits P) (Fires (Monitor.step D meth))) (Monitor.init d₀) es s →
        ∃ J, Inv D meth J s) :
    CallsReturn D meth P d₀ k := by
  intro ι _ es s h
  obtain ⟨J, hI⟩ := hinv ι es s h
  exact ⟨countP_steppedBy_le hmeth (h.mono fun _ _ _ hst => hst.2), fun t ht => hI.exists_step ht⟩

end Monitor

end CxxConcurrency.Lib
