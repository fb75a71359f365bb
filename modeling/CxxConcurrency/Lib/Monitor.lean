/-
# Methods that run under a mutex

A data type has operations, of which some modify the data and some have no defined result on some
data.  A method is a `Body`, a sequence of operations in which each is chosen by the answers of
those before it, and it locks the mutex of its object or does not.  `Monitor` is such an object
with the threads that call its methods: locking, the beginning and the end of each operation, and
the unlocking are steps of their own.

Two results do the work:

* `Monitor.Inv.run`, the monitor rule.  An invariant of the data that each body keeps when it runs
  alone (`Body.wp`) holds whenever the mutex is free, in every interleaving; no operation is ever
  applied where it has no defined result, and the calls return in the order in which they locked.
* `Monitor.alwaysExclusive_iff`.  The operations of methods that lock never overlap.  So, where the
  methods that do not lock only modify, two operations of which one modifies overlap exactly where
  one of such a method is in progress together with another.
-/
import CxxConcurrency.Lib.Run
import Mathlib.Logic.Function.Basic

namespace CxxConcurrency.Lib

/-! ## 1. Bodies -/

section Body

variable {Op : Type*} {Ans : Op → Type*} {δ ρ : Type*}

/-- The operations of a data type. -/
structure DataType (Op : Type*) (Ans : Op → Type*) (δ : Type*) where
  /-- What an operation answers and what it leaves; `none` where it has no defined result. -/
  run : (a : Op) → δ → Option (Ans a × δ)
  modifies : Op → Bool

/-- The body of a method. -/
inductive Body (Op : Type*) (Ans : Op → Type*) (ρ : Type*)
  | ret (r : ρ)
  | op (a : Op) (next : Ans a → Body Op Ans ρ)

/-- A method, with or without a lock around its body. -/
structure Method (Op : Type*) (Ans : Op → Type*) (ρ : Type*) where
  locks : Bool
  body : Body Op Ans ρ

/-- The weakest precondition of a body that runs alone: its operations have defined results, and
`Q` holds of what it returns and of the data it leaves. -/
def Body.wp (D : DataType Op Ans δ) (Q : ρ → δ → Prop) : Body Op Ans ρ → δ → Prop
  | .ret r, d => Q r d
  | .op a next, d => ∃ x d', D.run a d = some (x, d') ∧ (next x).wp D Q d'

variable {D : DataType Op Ans δ} {Q : ρ → δ → Prop} {d : δ}

@[simp] theorem Body.wp_ret {r : ρ} : (Body.ret r : Body Op Ans ρ).wp D Q d ↔ Q r d := Iff.rfl

theorem Body.wp_op {a : Op} {next : Ans a → Body Op Ans ρ} :
    (Body.op a next).wp D Q d ↔ ∃ x d', D.run a d = some (x, d') ∧ (next x).wp D Q d' := Iff.rfl

/-- What every operation relates, the data before a body is related to the data it leaves. -/
theorem Body.exists_of_wp {R : δ → δ → Prop} (hrefl : ∀ d, R d d)
    (htrans : ∀ d₁ d₂ d₃, R d₁ d₂ → R d₂ d₃ → R d₁ d₃)
    (hrun : ∀ a d x d', D.run a d = some (x, d') → R d d') {b : Body Op Ans ρ}
    (h : b.wp D Q d) : ∃ r d', Q r d' ∧ R d d' := by
  induction b generalizing d with
  | ret r => exact ⟨r, d, h, hrefl d⟩
  | op a next ih =>
    obtain ⟨x, d₁, hd₁, hnext⟩ := Body.wp_op.mp h
    obtain ⟨r, d', hQ, hR⟩ := ih x hnext
    exact ⟨r, d', hQ, htrans _ _ _ (hrun a d x d₁ hd₁) hR⟩

/-- All its operations modify the data. -/
def Body.Writes (D : DataType Op Ans δ) : Body Op Ans ρ → Prop
  | .ret _ => True
  | .op a next => D.modifies a = true ∧ ∀ x, (next x).Writes D

end Body

/-! ## 2. An object and the threads that use it -/

variable {ι κ Op ρ δ : Type*} {Ans : Op → Type*}

/-- Where a thread is. -/
inductive Monitor.Pc (κ Op : Type*) (Ans : Op → Type*) (ρ : Type*)
  /-- In no method. -/
  | idle
  /-- It has called `c`, and is about to lock if the method does. -/
  | called (c : κ)
  /-- In `c`, between two operations, with the body `b` left to run. -/
  | between (c : κ) (b : Body Op Ans ρ)
  /-- In `c`, in the operation `a`. -/
  | inside (c : κ) (a : Op) (next : Ans a → Body Op Ans ρ)

/-- The call a thread is in, and what is left of its body. -/
def Monitor.Pc.rest? : Pc κ Op Ans ρ → Option (κ × Body Op Ans ρ)
  | .idle => none
  | .called _ => none
  | .between c b => some (c, b)
  | .inside c a next => some (c, .op a next)

/-- An object, its mutex and the threads that call its methods. -/
structure Monitor (ι κ Op : Type*) (Ans : Op → Type*) (ρ δ : Type*) where
  data : δ
  /-- The owner of the mutex. -/
  mu : Option ι
  pc : ι → Monitor.Pc κ Op Ans ρ
  /-- The calls that have locked the mutex, in order. -/
  acquired : List (ι × κ)
  /-- The calls that have returned, in order, with what they returned. -/
  returned : List (ι × κ × ρ)

namespace Monitor

/-- The object holds `d`, and no method has been called. -/
def init (d : δ) : Monitor ι κ Op Ans ρ δ := ⟨d, none, fun _ => .idle, [], []⟩

/-- What a thread does in a step. -/
inductive Event (κ : Type*)
  | call (c : κ)
  /-- It locks the mutex, if its method does, and enters the body. -/
  | enter
  | opBegin
  | opEnd
  /-- The body is over, and the mutex is unlocked if it was locked. -/
  | leave
  deriving DecidableEq

variable [DecidableEq ι]

/-- Thread `t` moves to `p`. -/
def setPc (s : Monitor ι κ Op Ans ρ δ) (t : ι) (p : Pc κ Op Ans ρ) : Monitor ι κ Op Ans ρ δ :=
  { s with pc := Function.update s.pc t p }

@[simp] theorem setPc_pc_self (s : Monitor ι κ Op Ans ρ δ) (t : ι) (p : Pc κ Op Ans ρ) :
    (s.setPc t p).pc t = p := Function.update_self _ _ _

theorem setPc_pc_of_ne (s : Monitor ι κ Op Ans ρ δ) {t u : ι} (hut : u ≠ t)
    (p : Pc κ Op Ans ρ) : (s.setPc t p).pc u = s.pc u := Function.update_of_ne hut _ _

/-- One step of one thread. -/
def step (D : DataType Op Ans δ) (meth : κ → Method Op Ans ρ) (s : Monitor ι κ Op Ans ρ δ) :
    ι × Event κ → Option (Monitor ι κ Op Ans ρ δ)
  | (t, .call c) =>
    match s.pc t with
    | .idle => some (s.setPc t (.called c))
    | _ => none
  | (t, .enter) =>
    match s.pc t with
    | .called c =>
      if (meth c).locks then
        match s.mu with
        | none =>
          some { s.setPc t (.between c (meth c).body) with
            mu := some t
            acquired := s.acquired ++ [(t, c)] }
        | some _ => none
      else some (s.setPc t (.between c (meth c).body))
    | _ => none
  | (t, .opBegin) =>
    match s.pc t with
    | .between c (.op a next) => some (s.setPc t (.inside c a next))
    | _ => none
  | (t, .opEnd) =>
    match s.pc t with
    | .inside c a next =>
      (D.run a s.data).map fun (x, d) => { s.setPc t (.between c (next x)) with data := d }
    | _ => none
  | (t, .leave) =>
    match s.pc t with
    | .between c (.ret r) =>
      some { s.setPc t .idle with
        mu := if (meth c).locks then none else s.mu
        returned := s.returned ++ [(t, c, r)] }
    | _ => none

variable {D : DataType Op Ans δ} {meth : κ → Method Op Ans ρ}
  {s s' : Monitor ι κ Op Ans ρ δ} {e : ι × Event κ} {es : List (ι × Event κ)}

/-- The cases of a step. -/
inductive StepCase (D : DataType Op Ans δ) (meth : κ → Method Op Ans ρ)
    (s : Monitor ι κ Op Ans ρ δ) : ι × Event κ → Monitor ι κ Op Ans ρ δ → Prop
  | call {t : ι} {c : κ} (hpc : s.pc t = .idle) :
      StepCase D meth s (t, .call c) (s.setPc t (.called c))
  | lock {t : ι} {c : κ} (hpc : s.pc t = .called c) (hlocks : (meth c).locks = true)
      (hmu : s.mu = none) :
      StepCase D meth s (t, .enter)
        { s.setPc t (.between c (meth c).body) with
          mu := some t
          acquired := s.acquired ++ [(t, c)] }
  | enterFree {t : ι} {c : κ} (hpc : s.pc t = .called c) (hlocks : (meth c).locks = false) :
      StepCase D meth s (t, .enter) (s.setPc t (.between c (meth c).body))
  | opBegin {t : ι} {c : κ} {a : Op} {next : Ans a → Body Op Ans ρ}
      (hpc : s.pc t = .between c (.op a next)) :
      StepCase D meth s (t, .opBegin) (s.setPc t (.inside c a next))
  | opEnd {t : ι} {c : κ} {a : Op} {next : Ans a → Body Op Ans ρ} {x : Ans a} {d : δ}
      (hpc : s.pc t = .inside c a next) (hrun : D.run a s.data = some (x, d)) :
      StepCase D meth s (t, .opEnd) { s.setPc t (.between c (next x)) with data := d }
  | leave {t : ι} {c : κ} {r : ρ} (hpc : s.pc t = .between c (.ret r)) :
      StepCase D meth s (t, .leave)
        { s.setPc t .idle with
          mu := if (meth c).locks then none else s.mu
          returned := s.returned ++ [(t, c, r)] }

/-- **Every step is one of the cases.** -/
theorem stepCase_of_step (h : s.step D meth e = some s') : StepCase D meth s e s' := by
  obtain ⟨t, e⟩ := e
  cases e with
  | call c =>
    simp only [step] at h
    split at h
    · rename_i hpc
      obtain rfl := Option.some.inj h
      exact .call hpc
    · exact absurd h (by simp)
  | enter =>
    simp only [step] at h
    split at h
    · rename_i c hpc
      split at h
      · rename_i hlocks
        split at h
        · rename_i hmu
          obtain rfl := Option.some.inj h
          exact .lock hpc hlocks hmu
        · exact absurd h (by simp)
      · rename_i hlocks
        obtain rfl := Option.some.inj h
        exact .enterFree hpc (by simpa using hlocks)
    · exact absurd h (by simp)
  | opBegin =>
    simp only [step] at h
    split at h
    · rename_i c a next hpc
      obtain rfl := Option.some.inj h
      exact .opBegin hpc
    · exact absurd h (by simp)
  | opEnd =>
    simp only [step] at h
    split at h
    · rename_i c a next hpc
      obtain ⟨⟨x, d⟩, hrun, rfl⟩ := Option.map_eq_some_iff.mp h
      exact .opEnd hpc hrun
    · exact absurd h (by simp)
  | leave =>
    simp only [step] at h
    split at h
    · rename_i c r hpc
      obtain rfl := Option.some.inj h
      exact .leave hpc
    · exact absurd h (by simp)

/-! ## 3. The owner of the mutex -/

/-- Whether a thread at this point has the mutex. -/
def Pc.holds (meth : κ → Method Op Ans ρ) : Pc κ Op Ans ρ → Bool
  | .between c _ => (meth c).locks
  | .inside c _ _ => (meth c).locks
  | _ => false

/-- The owner of the mutex is the thread that is in a method that locks. -/
def Owned (meth : κ → Method Op Ans ρ) (s : Monitor ι κ Op Ans ρ δ) : Prop :=
  ∀ t, (s.pc t).holds meth = true ↔ s.mu = some t

omit [DecidableEq ι] in
theorem owned_init (d : δ) : Owned meth (init d : Monitor ι κ Op Ans ρ δ) := fun t => by
  simp [init, Pc.holds]

/-- A step of one thread that neither takes nor releases the mutex. -/
theorem Owned.silent (hO : Owned meth s) {t : ι} {p : Pc κ Op Ans ρ} (hmu : s'.mu = s.mu)
    (hpc : s'.pc = Function.update s.pc t p) (hp : p.holds meth = (s.pc t).holds meth) :
    Owned meth s' := by
  unfold Owned
  rw [hpc, hmu, Function.forall_update_iff s.pc fun u q => q.holds meth = true ↔ s.mu = some u, hp]
  exact ⟨hO t, fun u _ => hO u⟩

theorem Owned.step (h : StepCase D meth s e s') (hO : Owned meth s) : Owned meth s' := by
  cases h with
  | call hpc => exact hO.silent rfl rfl (by rw [hpc]; rfl)
  | @lock t c hpc hlocks hmu =>
    refine (Function.forall_update_iff s.pc fun u q => q.holds meth = true ↔ some t = some u).mpr
      ⟨by simp [Pc.holds, hlocks], ?_⟩
    intro u hut
    have hu := hO u
    rw [hmu] at hu
    simp only [reduceCtorEq, iff_false] at hu
    simp [hu, Ne.symm hut]
  | enterFree hpc hlocks => exact hO.silent rfl rfl (by rw [hpc]; exact hlocks)
  | opBegin hpc => exact hO.silent rfl rfl (by rw [hpc]; rfl)
  | opEnd hpc => exact hO.silent rfl rfl (by rw [hpc]; rfl)
  | @leave t c r hpc =>
    cases hlocks : (meth c).locks with
    | false => exact hO.silent (by simp) rfl (by rw [hpc]; exact hlocks.symm)
    | true =>
      have hmu : s.mu = some t := (hO t).mp (by rw [hpc]; exact hlocks)
      refine (Function.forall_update_iff s.pc fun u q =>
        q.holds meth = true ↔ (if true = true then none else s.mu) = some u).mpr
        ⟨by simp [Pc.holds], ?_⟩
      intro u hut
      have hu := hO u
      rw [hmu, Option.some.injEq] at hu
      simp only [Ne.symm hut, iff_false] at hu
      simp [hu]

theorem Owned.run {d : δ} (h : Run (Fires (Monitor.step D meth)) (init d) es s) : Owned meth s :=
  h.invariant (fun _ _ _ hO hst => hO.step (stepCase_of_step hst)) (owned_init d)

omit [DecidableEq ι] in
/-- The owner of the mutex is in a body. -/
theorem Owned.exists_rest (hO : Owned meth s) {t : ι} (hmu : s.mu = some t) :
    ∃ c b, (s.pc t).rest? = some (c, b) := by
  have hholds := (hO t).mpr hmu
  cases hpc : s.pc t with
  | idle | called => simp [hpc, Pc.holds] at hholds
  | between c b => exact ⟨c, b, rfl⟩
  | inside c a next => exact ⟨c, .op a next, rfl⟩

/-! ## 4. The monitor rule -/

/-- The calls, without what they returned. -/
def calls (h : List (ι × κ × ρ)) : List (ι × κ) := h.map fun x => (x.1, x.2.1)

/-- A thread at the point `p` in a body has the mutex, and what is left of the body restores `J`. -/
def Held (D : DataType Op Ans δ) (meth : κ → Method Op Ans ρ)
    (J : δ → List (ι × κ × ρ) → Prop) (s : Monitor ι κ Op Ans ρ δ) (t : ι)
    (p : Pc κ Op Ans ρ) : Prop :=
  ∀ c b, p.rest? = some (c, b) → (meth c).locks = true ∧
    b.wp D (fun r d => J d (s.returned ++ [(t, c, r)])) s.data ∧
    s.acquired = calls s.returned ++ [(t, c)]

/-- While the mutex is free, `J` holds of the data and of the calls that have returned; the thread
that has it will restore `J`. -/
structure Inv (D : DataType Op Ans δ) (meth : κ → Method Op Ans ρ)
    (J : δ → List (ι × κ × ρ) → Prop) (s : Monitor ι κ Op Ans ρ δ) : Prop where
  owned : Owned meth s
  free : s.mu = none → J s.data s.returned ∧ s.acquired = calls s.returned
  held : ∀ t, Held D meth J s t (s.pc t)
  /-- What the mutex guarded when it was last free. -/
  last : ∃ d, J d s.returned

variable {J : δ → List (ι × κ × ρ) → Prop} {t u : ι} {c c' : κ} {b b' : Body Op Ans ρ}

omit [DecidableEq ι] in
theorem held_of_rest_eq_none {p : Pc κ Op Ans ρ} (hp : p.rest? = none) :
    Held D meth J s t p := by
  intro c b hrest
  rw [hp] at hrest
  exact absurd hrest (by simp)

omit [DecidableEq ι] in
/-- A thread in a body has the mutex. -/
theorem Inv.mu_eq (hI : Inv D meth J s) (ht : (s.pc t).rest? = some (c, b)) : s.mu = some t := by
  obtain ⟨hlocks, -⟩ := hI.held t c b ht
  refine (hI.owned t).mp ?_
  cases hpc : s.pc t with
  | idle | called => simp [hpc, Pc.rest?] at ht
  | between c' b' | inside c' a next =>
    rw [hpc] at ht
    obtain ⟨rfl, -⟩ := Prod.mk.inj (Option.some.inj ht)
    exact hlocks

omit [DecidableEq ι] in
/-- **Only one thread is in a body.** -/
theorem Inv.eq_of_rest (hI : Inv D meth J s) (ht : (s.pc t).rest? = some (c, b))
    (hu : (s.pc u).rest? = some (c', b')) : u = t :=
  Option.some.inj ((hI.mu_eq hu).symm.trans (hI.mu_eq ht))

omit [DecidableEq ι] in
/-- While a thread is in a body, there is nothing to say of the others. -/
theorem Inv.held_of_ne (hI : Inv D meth J s) (ht : (s.pc t).rest? = some (c, b)) (hut : u ≠ t) :
    Held D meth J s' u (s.pc u) := by
  intro c' b' hu
  exact absurd (hI.eq_of_rest ht hu) hut

/-- **Every step keeps the invariant**, if the method that is entered locks and its body keeps
`J`. -/
theorem Inv.step (h : StepCase D meth s e s') (hI : Inv D meth J s)
    (henter : ∀ t c, e = (t, .enter) → s.pc t = .called c → (meth c).locks = true ∧
      (J s.data s.returned →
        (meth c).body.wp D (fun r d => J d (s.returned ++ [(t, c, r)])) s.data)) :
    Inv D meth J s' := by
  have howned := hI.owned.step h
  cases h with
  | call hpc =>
    exact ⟨howned, hI.free, (Function.forall_update_iff s.pc (Held D meth J s)).mpr
      ⟨held_of_rest_eq_none rfl, fun u _ => hI.held u⟩, hI.last⟩
  | @lock t c hpc hlocks hmu =>
    obtain ⟨hJ, hacquired⟩ := hI.free hmu
    refine ⟨howned, fun hnone => absurd hnone (by simp), ?_, hI.last⟩
    refine (Function.forall_update_iff s.pc (Held D meth J _)).mpr ⟨?_, ?_⟩
    · intro c' b hrest
      obtain ⟨rfl, rfl⟩ := Prod.mk.inj (Option.some.inj hrest)
      exact ⟨hlocks, (henter t _ rfl hpc).2 hJ, congrArg (· ++ [(t, _)]) hacquired⟩
    · intro u _ c' b hrest
      exact absurd (hmu.symm.trans (hI.mu_eq hrest)) (by simp)
  | @enterFree t c hpc hlocks =>
    rw [(henter t c rfl hpc).1] at hlocks
    exact absurd hlocks (by simp)
  | @opBegin t c a next hpc =>
    refine ⟨howned, hI.free, ?_, hI.last⟩
    refine (Function.forall_update_iff s.pc (Held D meth J s)).mpr ⟨?_, fun u _ => hI.held u⟩
    have hheld := hI.held t
    rw [hpc] at hheld
    exact hheld
  | @opEnd t c a next x d hpc hrun =>
    have hrest : (s.pc t).rest? = some (c, .op a next) := by rw [hpc]; rfl
    obtain ⟨hlocks, hwp, hacquired⟩ := hI.held t c _ hrest
    obtain ⟨x', d', hrun', hwp'⟩ := Body.wp_op.mp hwp
    obtain ⟨rfl, rfl⟩ := Prod.mk.inj (Option.some.inj (hrun.symm.trans hrun'))
    refine ⟨howned, fun hnone => ?_, ?_, hI.last⟩
    · exact absurd ((hI.mu_eq hrest).symm.trans hnone) (by simp)
    · refine (Function.forall_update_iff s.pc (Held D meth J _)).mpr
        ⟨?_, fun u hut => hI.held_of_ne hrest hut⟩
      intro c' b hrest'
      obtain ⟨rfl, rfl⟩ := Prod.mk.inj (Option.some.inj hrest')
      exact ⟨hlocks, hwp', hacquired⟩
  | @leave t c r hpc =>
    have hrest : (s.pc t).rest? = some (c, .ret r) := by rw [hpc]; rfl
    obtain ⟨hlocks, hwp, hacquired⟩ := hI.held t c _ hrest
    refine ⟨howned, fun _ => ⟨hwp, ?_⟩, ?_, s.data, hwp⟩
    · rw [calls, List.map_append]
      exact hacquired
    · exact (Function.forall_update_iff s.pc (Held D meth J _)).mpr
        ⟨held_of_rest_eq_none rfl, fun u hut => hI.held_of_ne hrest hut⟩

omit [DecidableEq ι] in
theorem Inv.init {d : δ} (h : J d []) : Inv D meth J (Monitor.init d : Monitor ι κ Op Ans ρ δ) :=
  ⟨owned_init d, fun _ => ⟨h, rfl⟩, fun _ => held_of_rest_eq_none rfl, d, h⟩

omit [DecidableEq ι] in
/-- While no thread is in a body, the data can be changed from outside. -/
theorem Inv.of_data (hI : Inv D meth J s) {d : δ} (hout : ∀ t, (s.pc t).rest? = none)
    (hJ : J s.data s.returned → J d s.returned) : Inv D meth J { s with data := d } := by
  have hmu : s.mu = none := by
    refine Option.eq_none_iff_forall_ne_some.mpr fun t ht => ?_
    obtain ⟨c, b, hrest⟩ := hI.owned.exists_rest ht
    exact absurd ((hout t).symm.trans hrest) (by simp)
  obtain ⟨hbefore, hacquired⟩ := hI.free hmu
  exact ⟨hI.owned, fun _ => ⟨hJ hbefore, hacquired⟩, fun t => held_of_rest_eq_none (hout t),
    d, hJ hbefore⟩

/-- The calls made all satisfy `P`. -/
def Admits (P : κ → Prop) (_ : Monitor ι κ Op Ans ρ δ) (e : ι × Event κ) : Prop :=
  ∀ c, e.2 = .call c → P c

/-- **The monitor rule.**  If the methods called lock, and the body of each keeps `J` when it runs
alone, the invariant holds in every state that any interleaving of the calls reaches. -/
theorem Inv.run {P : κ → Prop} {d₀ : δ} (hlocks : ∀ c, P c → (meth c).locks = true)
    (h₀ : J d₀ [])
    (hJ : ∀ t c d h, P c → J d h → (meth c).body.wp D (fun r d' => J d' (h ++ [(t, c, r)])) d)
    (h : Run (Restrict (Admits P) (Fires (Monitor.step D meth))) (Monitor.init d₀) es s) :
    Inv D meth J s := by
  have hboth : (∀ t c, s.pc t = .called c → P c) ∧ Inv D meth J s := by
    refine h.invariant (I := fun s => (∀ t c, s.pc t = .called c → P c) ∧ Inv D meth J s) ?_ ?_
    · rintro s e s' ⟨hcalled, hI⟩ ⟨hadmits, hst⟩
      have hcase := stepCase_of_step hst
      refine ⟨?_, hI.step hcase fun t c _ hpc =>
        ⟨hlocks c (hcalled t c hpc), hJ t c _ _ (hcalled t c hpc)⟩⟩
      cases hcase with
      | @call t c hpc =>
        refine (Function.forall_update_iff s.pc fun _ q => ∀ c', q = .called c' → P c').mpr
          ⟨?_, fun u _ => hcalled u⟩
        rintro c' ⟨⟩
        exact hadmits c rfl
      | lock | enterFree | opBegin | opEnd | leave =>
        exact (Function.forall_update_iff s.pc fun _ q => ∀ c', q = .called c' → P c').mpr
          ⟨fun _ hp => absurd hp (by simp), fun u _ => hcalled u⟩
    · exact ⟨fun t c hpc => absurd hpc (by simp [Monitor.init]), Inv.init h₀⟩
  exact hboth.2

omit [DecidableEq ι] in
/-- **No operation is applied where it has no defined result.** -/
theorem Inv.defined (hI : Inv D meth J s) {a : Op} {next : Ans a → Body Op Ans ρ}
    (ht : (s.pc t).rest? = some (c, .op a next)) : ∃ x d, D.run a s.data = some (x, d) := by
  obtain ⟨x, d, hrun, -⟩ := Body.wp_op.mp (hI.held t c _ ht).2.1
  exact ⟨x, d, hrun⟩

omit [DecidableEq ι] in
/-- **The calls return in the order in which they locked.** -/
theorem Inv.acquired_eq (hI : Inv D meth J s) :
    ∃ pending, s.acquired = calls s.returned ++ pending ∧ pending.length ≤ 1 := by
  cases hmu : s.mu with
  | none => exact ⟨[], by rw [List.append_nil]; exact (hI.free hmu).2, Nat.zero_le _⟩
  | some t =>
    obtain ⟨c, b, hrest⟩ := hI.owned.exists_rest hmu
    exact ⟨[(t, c)], (hI.held t c b hrest).2.2, le_rfl⟩

omit [DecidableEq ι] in
/-- **The data in the middle of a body** is related to data for which `J` holds, by what every
operation relates. -/
theorem Inv.exists_restored (hI : Inv D meth J s) {R : δ → δ → Prop} (hrefl : ∀ d, R d d)
    (htrans : ∀ d₁ d₂ d₃, R d₁ d₂ → R d₂ d₃ → R d₁ d₃)
    (hrun : ∀ a d x d', D.run a d = some (x, d') → R d d') : ∃ d h, J d h ∧ R s.data d := by
  cases hmu : s.mu with
  | none => exact ⟨s.data, s.returned, (hI.free hmu).1, hrefl _⟩
  | some t =>
    obtain ⟨c, b, hrest⟩ := hI.owned.exists_rest hmu
    obtain ⟨r, d, hJ, hR⟩ := Body.exists_of_wp hrefl htrans hrun (hI.held t c b hrest).2.1
    exact ⟨d, _, hJ, hR⟩

/-! ## 5. Operations that overlap -/

/-- While a thread is in an operation that modifies the data, no other is in an operation. -/
def Exclusive (D : DataType Op Ans δ) (s : Monitor ι κ Op Ans ρ δ) : Prop :=
  ∀ t c a next u c' a' next', u ≠ t → s.pc t = .inside c a next → s.pc u = .inside c' a' next' →
    D.modifies a = false

/-- The step begins no operation while another thread is in one, unless both methods lock. -/
def Apart (meth : κ → Method Op Ans ρ) (s : Monitor ι κ Op Ans ρ δ) (e : ι × Event κ) : Prop :=
  e.2 = .opBegin → ∀ c a next u c' a' next', u ≠ e.1 → s.pc e.1 = .between c (.op a next) →
    s.pc u = .inside c' a' next' → (meth c).locks = true ∧ (meth c').locks = true

/-- A thread in a method that does not lock has only operations left that modify the data. -/
def Writing (D : DataType Op Ans δ) (meth : κ → Method Op Ans ρ) (p : Pc κ Op Ans ρ) : Prop :=
  ∀ c b, p.rest? = some (c, b) → (meth c).locks = false → b.Writes D

omit [DecidableEq ι] in
/-- Two threads in methods that lock are one. -/
theorem Owned.eq_of_holds (hO : Owned meth s) (ht : (s.pc t).holds meth = true)
    (hu : (s.pc u).holds meth = true) : u = t :=
  Option.some.inj (((hO u).mp hu).symm.trans ((hO t).mp ht))

/-- A step that leaves its thread in no operation. -/
theorem Exclusive.of_move (hE : Exclusive D s) {p : Pc κ Op Ans ρ}
    (hpc : s'.pc = Function.update s.pc t p) (hp : ∀ c a next, p ≠ .inside c a next) :
    Exclusive D s' := by
  have hinside : ∀ v c a next, s'.pc v = .inside c a next → s.pc v = .inside c a next := by
    rw [hpc]
    exact (Function.forall_update_iff s.pc fun v q => ∀ c a next, q = .inside c a next →
      s.pc v = .inside c a next).mpr
      ⟨fun c a next h => absurd h (hp c a next), fun _ _ _ _ _ h => h⟩
  intro v c a next w c' a' next' hne hv hw
  exact hE v c a next w c' a' next' hne (hinside v c a next hv) (hinside w c' a' next' hw)

/-- **Every step that keeps apart keeps the operations exclusive.** -/
theorem Exclusive.step (h : StepCase D meth s e s') (hO : Owned meth s) (hC : Apart meth s e)
    (hE : Exclusive D s) : Exclusive D s' := by
  cases h with
  | call | lock | enterFree | opEnd | leave => exact hE.of_move rfl (by simp)
  | @opBegin t c a next hpc =>
    -- no other thread is in an operation: it would have the mutex too
    have hnone : ∀ u c' a' next', u ≠ t → s.pc u ≠ .inside c' a' next' := by
      intro u c' a' next' hut hu
      obtain ⟨hlocks, hlocks'⟩ := hC rfl c a next u c' a' next' hut hpc hu
      refine hut (hO.eq_of_holds (t := t) (u := u) ?_ ?_)
      · rw [hpc]
        exact hlocks
      · rw [hu]
        exact hlocks'
    intro v c₁ a₁ next₁ w c₂ a₂ next₂ hne hv hw
    rcases eq_or_ne v t with rfl | hvt
    · rw [setPc_pc_of_ne s hne] at hw
      exact absurd hw (hnone w c₂ a₂ next₂ hne)
    · rw [setPc_pc_of_ne s hvt] at hv
      exact absurd hv (hnone v c₁ a₁ next₁ hvt)

theorem Writing.step (hmeth : ∀ c, (meth c).locks = false → (meth c).body.Writes D)
    (h : StepCase D meth s e s') (hW : ∀ t, Writing D meth (s.pc t)) :
    ∀ t, Writing D meth (s'.pc t) := by
  cases h with
  | call hpc =>
    exact (Function.forall_update_iff s.pc fun _ => Writing D meth).mpr
      ⟨fun c b hrest => absurd hrest (by simp [Pc.rest?]), fun u _ => hW u⟩
  | lock hpc _ _ | enterFree hpc _ =>
    refine (Function.forall_update_iff s.pc fun _ => Writing D meth).mpr ⟨?_, fun u _ => hW u⟩
    intro c b hrest hlocks
    obtain ⟨rfl, rfl⟩ := Prod.mk.inj (Option.some.inj hrest)
    exact hmeth _ hlocks
  | @opBegin t c a next hpc =>
    refine (Function.forall_update_iff s.pc fun _ => Writing D meth).mpr ⟨?_, fun u _ => hW u⟩
    have hwriting := hW t
    rw [hpc] at hwriting
    exact hwriting
  | @opEnd t c a next x d hpc hrun =>
    refine (Function.forall_update_iff s.pc fun _ => Writing D meth).mpr ⟨?_, fun u _ => hW u⟩
    intro c' b hrest hlocks
    obtain ⟨rfl, rfl⟩ := Prod.mk.inj (Option.some.inj hrest)
    exact (hW t c (.op a next) (by rw [hpc]; rfl) hlocks).2 x
  | leave hpc =>
    exact (Function.forall_update_iff s.pc fun _ => Writing D meth).mpr
      ⟨fun c b hrest => absurd hrest (by simp [Pc.rest?]), fun u _ => hW u⟩

omit [DecidableEq ι] in
theorem writing_init {d : δ} (t : ι) :
    Writing D meth ((init d : Monitor ι κ Op Ans ρ δ).pc t) := fun _ _ hrest =>
  absurd hrest (by simp [init, Pc.rest?])

/-- A step that does not keep apart makes two operations overlap, of which one modifies. -/
theorem not_exclusive_of_not_apart (h : StepCase D meth s e s')
    (hW : ∀ t, Writing D meth (s.pc t)) (hC : ¬ Apart meth s e) : ¬ Exclusive D s' := by
  obtain ⟨t, ev⟩ := e
  simp only [Apart, Classical.not_imp, not_forall] at hC
  obtain ⟨rfl, c, a, next, u, c', a', next', hut, hpc, hu, hlocks⟩ := hC
  intro hE
  cases h with
  | @opBegin _ c₁ a₁ next₁ hpc' =>
    have hmid : (s.pc t).rest? = some (c, .op a next) := by rw [hpc]; rfl
    have hin : (s.pc u).rest? = some (c', .op a' next') := by rw [hu]; rfl
    obtain ⟨rfl, hbody⟩ := Pc.between.inj (hpc.symm.trans hpc')
    obtain ⟨rfl, -⟩ := Body.op.inj hbody
    have hself := setPc_pc_self s t (.inside c a next₁)
    have hother := (setPc_pc_of_ne s hut (.inside c a next₁)).trans hu
    rcases not_and_or.mp hlocks with hfree | hfree
    · have hwrites := (hW t c _ hmid (Bool.eq_false_iff.mpr hfree)).1
      exact absurd (hwrites.symm.trans (hE t c a next₁ u c' a' next' hut hself hother)) (by simp)
    · have hwrites := (hW u c' _ hin (Bool.eq_false_iff.mpr hfree)).1
      exact absurd (hwrites.symm.trans (hE u c' a' next' t c a next₁ hut.symm hother hself))
        (by simp)

variable {d₀ : δ}

theorem Exclusive.run (h : Run (Restrict (Apart meth) (Fires (Monitor.step D meth)))
    (Monitor.init d₀) es s) : Exclusive D s := by
  refine h.trace_invariant (I := fun _ s => Exclusive D s) ?_ ?_
  · intro t c a next u c' a' next' _ ht
    exact absurd ht (by simp [Monitor.init])
  · intro es s e s' hrun hE hst
    have hO := Owned.run (hrun.mono fun _ _ _ hst => hst.2)
    exact hE.step (stepCase_of_step hst.2) hO hst.1

/-- In every state on the way, the operations are exclusive. -/
def AlwaysExclusive (D : DataType Op Ans δ) (meth : κ → Method Op Ans ρ) (d₀ : δ)
    (es : List (ι × Event κ)) : Prop :=
  ∀ bs s, bs <+: es → Run (Fires (Monitor.step D meth)) (Monitor.init d₀) bs s → Exclusive D s

/-- **When operations overlap that must not**, if the methods that do not lock only modify: exactly
where one of those has an operation in progress while another thread has one too. -/
theorem alwaysExclusive_iff (hmeth : ∀ c, (meth c).locks = false → (meth c).body.Writes D)
    (h : Run (Fires (Monitor.step D meth)) (Monitor.init d₀) es s) :
    AlwaysExclusive D meth d₀ es ↔
      Run (Restrict (Apart meth) (Fires (Monitor.step D meth))) (Monitor.init d₀) es s := by
  constructor
  · intro hall
    induction h with
    | refl => exact Run.refl
    | @tail s s' es e hrun hst ih =>
      have hrestricted := ih fun bs v hbs hv => hall bs v (hbs.trans (List.prefix_append _ _)) hv
      refine hrestricted.tail ⟨?_, hst⟩
      by_contra hC
      have hW : ∀ t, Writing D meth (s.pc t) := hrun.invariant
        (fun _ _ _ hW hst => Writing.step hmeth (stepCase_of_step hst) hW) writing_init
      exact not_exclusive_of_not_apart (stepCase_of_step hst) hW hC
        (hall _ s' List.prefix_rfl (hrun.tail hst))
  · intro hrestricted bs v hbs hv
    obtain ⟨w, hw⟩ := hrestricted.exists_state_of_prefix hbs
    obtain rfl : v = w := hv.unique (hw.mono fun _ _ _ hst => hst.2)
    exact Exclusive.run hw

end Monitor

end CxxConcurrency.Lib
