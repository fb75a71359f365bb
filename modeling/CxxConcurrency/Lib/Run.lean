/-
# Runs of labelled transition systems

A system is a step relation `σ → α → σ → Prop`: a state, the label of the step taken, the
next state.  An interleaving of several parties is a run of one such system whose labels say
which party moved.  This file has the rules every proof about a run uses:

* `Run.invariant` and `Run.trace_invariant`: what one step preserves, a whole run preserves,
  and the fact preserved may mention the labels so far;
* `Run.exists_state_of_prefix`: every prefix of the trace of a run is the trace of a run;
* `Restrict`: the runs all of whose steps meet a condition on the state before the step;
* `Run.map`: what is a step in a view of the states and of the labels is a run in it;
* `Simulates.run`: a step-by-step simulation lifts to runs, with silent steps.

Systems given by a function `σ → α → Option σ` can also be executed (`exec`), and an
execution is a run (`run_of_exec`), a guarded one a restricted run.
-/
import Mathlib.Data.List.Basic
import Mathlib.Data.List.Infix
import Mathlib.Tactic.TypeStar

namespace CxxConcurrency.Lib

variable {σ τ α β : Type*}

/-! ## 1. Runs -/

/-- `Run step s as t`: from `s` the steps labelled `as`, in this order, lead to `t`. -/
inductive Run (step : σ → α → σ → Prop) (s : σ) : List α → σ → Prop
  | refl : Run step s [] s
  | tail {t u : σ} {as : List α} {a : α} :
      Run step s as t → step t a u → Run step s (as ++ [a]) u

variable {step : σ → α → σ → Prop}

/-- One step is a run. -/
theorem Run.single {s t : σ} {a : α} (h : step s a t) : Run step s [a] t :=
  Run.refl.tail h

/-- Runs compose. -/
theorem Run.append {s t u : σ} {as bs : List α} (h₁ : Run step s as t) (h₂ : Run step t bs u) :
    Run step s (as ++ bs) u := by
  induction h₂ with
  | refl => simpa using h₁
  | tail _ hstep ih =>
    rw [← List.append_assoc]
    exact ih.tail hstep

/-- **The invariant rule.**  What every step preserves, every run preserves. -/
theorem Run.invariant {I : σ → Prop} (hstep : ∀ s a t, I s → step s a t → I t)
    {s t : σ} {as : List α} (h : Run step s as t) (hs : I s) : I t := by
  induction h with
  | refl => exact hs
  | tail _ hst ih => exact hstep _ _ _ ih hst

/-- The invariant rule for a fact about the state and the labels that led to it. -/
theorem Run.trace_invariant {I : List α → σ → Prop} {s₀ : σ} (h₀ : I [] s₀)
    (hstep : ∀ as s a t, Run step s₀ as s → I as s → step s a t → I (as ++ [a]) t)
    {t : σ} {as : List α} (h : Run step s₀ as t) : I as t := by
  induction h with
  | refl => exact h₀
  | tail hrun hst ih => exact hstep _ _ _ _ hrun ih hst

/-- What one more label does to a count. -/
theorem countP_append_singleton (p : α → Bool) (as : List α) (a : α) :
    (as ++ [a]).countP p = as.countP p + if p a then 1 else 0 := by
  rw [List.countP_append, List.countP_singleton]

/-- **The amortisation rule.**  If every step labelled `p` takes at least one from a measure that
only a step labelled `q` raises, and that by at most `c`, a run has no more steps labelled `p`
than the measure has at its beginning and `c` times those labelled `q`. -/
theorem Run.countP_add_le_mul {I : σ → Prop} (hI : ∀ s a t, I s → step s a t → I t) {m : σ → ℕ}
    {p q : α → Bool} {c : ℕ}
    (hm : ∀ s a t, I s → step s a t →
      (if p a then 1 else 0) + m t ≤ m s + c * (if q a then 1 else 0)) {s t : σ}
    {as : List α} (h : Run step s as t) (hs : I s) :
    as.countP p + m t ≤ m s + c * as.countP q := by
  induction h with
  | refl => simp
  | @tail u v as a hrun hst ih =>
    have hlast := hm _ _ _ (hrun.invariant hI hs) hst
    rw [countP_append_singleton, countP_append_singleton, Nat.mul_add]
    omega

/-- **The counting rule.**  If every step labelled `p` takes at least one from a measure that no
step raises, a run has no more such steps than the measure loses. -/
theorem Run.countP_add_le {I : σ → Prop} (hI : ∀ s a t, I s → step s a t → I t) {m : σ → ℕ}
    {p : α → Bool}
    (hm : ∀ s a t, I s → step s a t → (if p a then 1 else 0) + m t ≤ m s) {s t : σ}
    {as : List α} (h : Run step s as t) (hs : I s) : as.countP p + m t ≤ m s := by
  have hle := h.countP_add_le_mul (q := fun _ => false) (c := 0) hI hm hs
  rwa [Nat.zero_mul, Nat.add_zero] at hle

/-- **The length rule.**  If every step takes from a measure, a run has no more steps than the
measure loses. -/
theorem Run.length_add_le {I : σ → Prop} (hI : ∀ s a t, I s → step s a t → I t) {m : σ → ℕ}
    (hm : ∀ s a t, I s → step s a t → m t < m s) {s t : σ} {as : List α} (h : Run step s as t)
    (hs : I s) : as.length + m t ≤ m s := by
  have hle := h.countP_add_le (p := fun _ => true) hI (m := m)
    (fun s a t hIs hst => by
      have hlt := hm s a t hIs hst
      rw [if_pos rfl]
      omega) hs
  rwa [List.countP_true] at hle

/-- **Bounded runs that can always go on reach the end.**  If no run from `s` has more than `b`
steps, and every state reached in which `P` fails has a next one, a run reaches `P`. -/
theorem Run.exists_final {P : σ → Prop} {s : σ} {b : ℕ}
    (hbound : ∀ as t, Run step s as t → as.length ≤ b)
    (hnext : ∀ as t, Run step s as t → ¬ P t → ∃ a u, step t a u) :
    ∃ as t, Run step s as t ∧ P t := by
  by_contra hnone
  -- otherwise there are runs of every length
  have hlong : ∀ n, ∃ as t, Run step s as t ∧ as.length = n := by
    intro n
    induction n with
    | zero => exact ⟨[], s, Run.refl, rfl⟩
    | succ n ih =>
      obtain ⟨as, t, hrun, hlen⟩ := ih
      obtain ⟨a, u, hst⟩ := hnext as t hrun fun hP => hnone ⟨as, t, hrun, hP⟩
      exact ⟨as ++ [a], u, hrun.tail hst, by rw [List.length_append, hlen]; rfl⟩
  obtain ⟨as, t, hrun, hlen⟩ := hlong (b + 1)
  have hle := hbound as t hrun
  omega

/-- A run whose trace splits passes through a state at the split. -/
theorem Run.exists_split {s t : σ} {as : List α} (h : Run step s as t) :
    ∀ {bs cs : List α}, as = bs ++ cs → ∃ u, Run step s bs u ∧ Run step u cs t := by
  induction h with
  | refl =>
    intro bs cs h
    obtain ⟨rfl, rfl⟩ := List.append_eq_nil_iff.mp h.symm
    exact ⟨s, Run.refl, Run.refl⟩
  | @tail t u as a hrun hst ih =>
    intro bs cs h
    rcases List.eq_nil_or_concat cs with rfl | ⟨cs', c, rfl⟩
    · rw [List.append_nil] at h
      subst h
      exact ⟨u, hrun.tail hst, Run.refl⟩
    · rw [List.concat_eq_append, ← List.append_assoc] at h
      obtain ⟨h₁, h₂⟩ := List.append_inj' h rfl
      obtain rfl : a = c := by simpa using h₂
      obtain ⟨w, hw₁, hw₂⟩ := ih h₁
      rw [List.concat_eq_append]
      exact ⟨w, hw₁, hw₂.tail hst⟩

/-- Every prefix of a trace is the trace of a run. -/
theorem Run.exists_state_of_prefix {s t : σ} {as bs : List α} (h : Run step s as t)
    (hb : bs <+: as) : ∃ u, Run step s bs u := by
  obtain ⟨cs, rfl⟩ := hb
  obtain ⟨u, hu, -⟩ := h.exists_split rfl
  exact ⟨u, hu⟩

/-- The last label of a trace is that of a step. -/
theorem Run.exists_last {s t : σ} {as : List α} {a : α} (h : Run step s (as ++ [a]) t) :
    ∃ u, Run step s as u ∧ step u a t := by
  generalize hbs : as ++ [a] = bs at h
  cases h with
  | refl => exact absurd hbs (by simp)
  | tail hrun hst =>
    obtain ⟨rfl, hab⟩ := List.append_inj' hbs rfl
    obtain rfl := (List.cons.inj hab).1
    exact ⟨_, hrun, hst⟩

/-- Every label of a trace is that of a step, from a state that the labels before it lead to. -/
theorem Run.exists_step_of_prefix {s t : σ} {as bs : List α} {a : α} (h : Run step s as t)
    (hb : bs ++ [a] <+: as) : ∃ u v, Run step s bs u ∧ step u a v := by
  obtain ⟨v, hv⟩ := h.exists_state_of_prefix hb
  obtain ⟨u, hu, hst⟩ := hv.exists_last
  exact ⟨u, v, hu, hst⟩

/-! ## 2. Runs all of whose steps meet a condition -/

/-- The system that takes a step only where `C` holds of the state before it. -/
def Restrict (C : σ → α → Prop) (step : σ → α → σ → Prop) (s : σ) (a : α) (t : σ) : Prop :=
  C s a ∧ step s a t

/-- A system with fewer steps has fewer runs. -/
theorem Run.mono {step' : σ → α → σ → Prop} (hsub : ∀ s a t, step s a t → step' s a t)
    {s t : σ} {as : List α} (h : Run step s as t) : Run step' s as t := by
  induction h with
  | refl => exact Run.refl
  | tail _ hst ih => exact ih.tail (hsub _ _ _ hst)

/-- A run seen through a view of the states and of the labels. -/
theorem Run.map {step' : τ → β → τ → Prop} {view : σ → τ} {lab : α → β}
    (hsub : ∀ s a t, step s a t → step' (view s) (lab a) (view t)) {s t : σ} {as : List α}
    (h : Run step s as t) : Run step' (view s) (as.map lab) (view t) := by
  induction h with
  | refl => exact Run.refl
  | tail _ hst ih =>
    rw [List.map_append]
    exact ih.tail (hsub _ _ _ hst)

/-- The steps that change the state, of a system in which a party can also look in vain. -/
def Moves (step : σ → α → σ → Prop) (s : σ) (a : α) (t : σ) : Prop := step s a t ∧ t ≠ s

/-- A run whose labels all meet a condition is a restricted run. -/
theorem Run.restrict {C : α → Prop} {s t : σ} {as : List α} (h : Run step s as t)
    (hC : ∀ a ∈ as, C a) : Run (Restrict (fun _ a => C a) step) s as t := by
  induction h with
  | refl => exact Run.refl
  | @tail u v as a _ hst ih =>
    exact (ih fun b hb => hC b (List.mem_append_left _ hb)).tail
      ⟨hC a (List.mem_append_right _ List.mem_cons_self), hst⟩

/-! ## 3. Simulation -/

/-- `R` relates every step of `step` labelled `a` to a step of the abstract system labelled
`lab a`, or to no step at all where `lab a = none`. -/
structure Simulates (step : σ → α → σ → Prop) (astep : τ → β → τ → Prop) (lab : α → Option β)
    (R : σ → τ → Prop) : Prop where
  visible : ∀ {s a s' t b}, R s t → step s a s' → lab a = some b → ∃ t', astep t b t' ∧ R s' t'
  silent : ∀ {s a s' t}, R s t → step s a s' → lab a = none → R s' t

/-- **A simulation lifts to runs.**  The abstract run takes exactly the visible labels, in the
same order. -/
theorem Simulates.run {astep : τ → β → τ → Prop} {lab : α → Option β} {R : σ → τ → Prop}
    (hsim : Simulates step astep lab R) {s s' : σ} {as : List α} (h : Run step s as s') {t : τ}
    (hR : R s t) : ∃ t', Run astep t (as.filterMap lab) t' ∧ R s' t' := by
  induction h with
  | refl => exact ⟨t, Run.refl, hR⟩
  | @tail u s' as a _ hst ih =>
    obtain ⟨t', hrun, hR'⟩ := ih
    cases hl : lab a with
    | none =>
      refine ⟨t', ?_, hsim.silent hR' hst hl⟩
      simpa [List.filterMap_append, hl] using hrun
    | some b =>
      obtain ⟨t'', hst', hR''⟩ := hsim.visible hR' hst hl
      refine ⟨t'', ?_, hR''⟩
      simpa [List.filterMap_append, hl] using hrun.tail hst'

/-! ## 4. Systems given by a function -/

/-- The step relation of a next-state function; `none` says that the step is not possible. -/
def Fires (next : σ → α → Option σ) (s : σ) (a : α) (t : σ) : Prop := next s a = some t

/-- Take the steps labelled `as` one after the other. -/
def exec (next : σ → α → Option σ) : σ → List α → Option σ
  | s, [] => some s
  | s, a :: as => (next s a).bind fun t => exec next t as

theorem exec_append (next : σ → α → Option σ) (as bs : List α) (s : σ) :
    exec next s (as ++ bs) = (exec next s as).bind (exec next · bs) := by
  induction as generalizing s with
  | nil => rfl
  | cons a as ih =>
    simp only [List.cons_append, exec, Option.bind_assoc]
    exact congrArg _ (funext fun t => ih t)

/-- An execution is a run. -/
theorem run_of_exec {next : σ → α → Option σ} {as : List α} {s t : σ}
    (h : exec next s as = some t) : Run (Fires next) s as t := by
  induction as generalizing s with
  | nil =>
    obtain rfl : s = t := by simpa [exec] using h
    exact Run.refl
  | cons a as ih =>
    obtain ⟨u, hu, hrest⟩ := Option.bind_eq_some_iff.mp h
    exact (Run.single hu).append (ih hrest)

/-- A run of a next-state function is an execution. -/
theorem exec_of_run {next : σ → α → Option σ} {as : List α} {s t : σ}
    (h : Run (Fires next) s as t) : exec next s as = some t := by
  induction h with
  | refl => rfl
  | @tail t u as a _ hst ih =>
    rw [exec_append, ih]
    change ((next t a).bind fun v => some v) = some u
    rw [show next t a = some u from hst, Option.bind_some]

/-- The labels determine where a run of a next-state function ends. -/
theorem Run.unique {next : σ → α → Option σ} {as : List α} {s t u : σ}
    (ht : Run (Fires next) s as t) (hu : Run (Fires next) s as u) : t = u :=
  Option.some.inj ((exec_of_run ht).symm.trans (exec_of_run hu))

/-- A state an execution ends in is reached by a run. -/
theorem exists_run_of_exec (next : σ → α → Option σ) (s : σ) (as : List α) (P : σ → Prop)
    (h : ∃ t ∈ exec next s as, P t) : ∃ t, Run (Fires next) s as t ∧ P t := by
  obtain ⟨t, ht, hP⟩ := h
  exact ⟨t, run_of_exec (Option.mem_def.mp ht), hP⟩

/-- Take a step only where `C` holds of the state before it. -/
def guarded (C : σ → α → Prop) [∀ s a, Decidable (C s a)] (next : σ → α → Option σ) (s : σ)
    (a : α) : Option σ :=
  if C s a then next s a else none

/-- A guarded execution is a restricted run. -/
theorem exists_restricted_run_of_exec (C : σ → α → Prop) [∀ s a, Decidable (C s a)]
    (next : σ → α → Option σ) (s : σ) (as : List α) (P : σ → Prop)
    (h : ∃ t ∈ exec (guarded C next) s as, P t) :
    ∃ t, Run (Restrict C (Fires next)) s as t ∧ P t := by
  obtain ⟨t, hrun, hP⟩ := exists_run_of_exec _ _ _ _ h
  refine ⟨t, hrun.mono ?_, hP⟩
  intro s a t hst
  unfold Fires guarded at hst
  split at hst
  · rename_i hC
    exact ⟨hC, hst⟩
  · exact absurd hst (by simp)

end CxxConcurrency.Lib
