/-
# Null-terminated chains and liveness over a `next` pointer

`next : A → Option A` sends a node's address to the pointer it stores.  `Chain next p l` says
that following `next` from `p` visits exactly the addresses `l` and then reaches null.  A
chain is finite by construction, and because `next` is a function it is determined by its
first pointer (`Chain.unique`) and never visits an address twice (`Chain.nodup`): a list that
ends in null has no cycle.

`Live next roots` is the least set of addresses that holds the roots and everything a live
address points to.  It is what a reference count keeps alive where there are no cycles, so a
chain that starts at a live address consists of live addresses (`Chain.live`), and a change of
`next` at an address off the chain does not concern it (`Chain.congr`).
-/
import Mathlib.Data.List.Nodup
import Mathlib.Data.Set.Finite.Lattice

namespace CxxConcurrency.Lib

variable {A : Type*} {next next' : A → Option A}

/-! ## 1. Chains -/

/-- From the pointer `p`, `next` visits exactly the addresses `l` and then reaches null. -/
inductive Chain (next : A → Option A) : Option A → List A → Prop
  | null : Chain next none []
  | node {a : A} {l : List A} : Chain next (next a) l → Chain next (some a) (a :: l)

@[simp] theorem chain_none_iff {l : List A} : Chain next none l ↔ l = [] := by
  constructor
  · rintro ⟨⟩
    rfl
  · rintro rfl
    exact Chain.null

theorem chain_some_iff {a : A} {l : List A} :
    Chain next (some a) l ↔ ∃ r, l = a :: r ∧ Chain next (next a) r := by
  constructor
  · intro h
    cases h with
    | @node _ r h => exact ⟨r, rfl, h⟩
  · rintro ⟨r, rfl, h⟩
    exact Chain.node h

/-- A pointer has one chain. -/
theorem Chain.unique {p : Option A} {l : List A} (h : Chain next p l) :
    ∀ {l' : List A}, Chain next p l' → l = l' := by
  induction h with
  | null =>
    intro l' h'
    exact (chain_none_iff.mp h').symm
  | @node a l _ ih =>
    intro l' h'
    obtain ⟨r, rfl, hr⟩ := chain_some_iff.mp h'
    rw [ih hr]

/-- Every address on a chain starts a chain, no longer than the whole. -/
theorem Chain.exists_of_mem {p : Option A} {l : List A} (h : Chain next p l) {a : A}
    (ha : a ∈ l) : ∃ r, Chain next (some a) (a :: r) ∧ r.length < l.length := by
  induction h with
  | null => exact absurd ha List.not_mem_nil
  | @node b l hb ih =>
    rcases List.mem_cons.mp ha with rfl | hal
    · exact ⟨l, Chain.node hb, Nat.lt_succ_self _⟩
    · obtain ⟨r, hr, hlt⟩ := ih hal
      exact ⟨r, hr, Nat.lt_succ_of_lt hlt⟩

/-- **A null-terminated chain has no cycle.** -/
theorem Chain.nodup {p : Option A} {l : List A} (h : Chain next p l) : l.Nodup := by
  induction h with
  | null => exact List.nodup_nil
  | @node a l hl ih =>
    refine List.nodup_cons.mpr ⟨?_, ih⟩
    intro ha
    -- an address met again would start two chains of different lengths
    obtain ⟨r, hr, hlt⟩ := hl.exists_of_mem ha
    have heq : a :: l = a :: r := (Chain.node hl).unique hr
    have hlen : l.length = r.length := by rw [(List.cons.inj heq).2]
    omega

/-- A change of `next` off the chain does not concern the chain. -/
theorem Chain.congr {p : Option A} {l : List A} (h : Chain next p l)
    (heq : ∀ a ∈ l, next' a = next a) : Chain next' p l := by
  induction h with
  | null => exact Chain.null
  | @node a l _ ih =>
    refine Chain.node ?_
    rw [heq a List.mem_cons_self]
    exact ih fun b hb => heq b (List.mem_cons_of_mem a hb)

/-! ## 2. Liveness -/

/-- The least set of addresses that holds the roots and whatever a live address points to. -/
inductive Live (next : A → Option A) (roots : A → Prop) : A → Prop
  | root {a : A} : roots a → Live next roots a
  | next {a b : A} : Live next roots a → next a = some b → Live next roots b

variable {roots roots' : A → Prop}

/-- **Liveness is the least closed set**: a set with the roots, closed under `next`, holds
every live address. -/
theorem Live.least {P : A → Prop} (hroot : ∀ a, roots a → P a)
    (hnext : ∀ a b, P a → next a = some b → P b) {a : A} (h : Live next roots a) : P a := by
  induction h with
  | root hr => exact hroot _ hr
  | next _ hab ih => exact hnext _ _ ih hab

/-- Fewer roots, fewer live addresses. -/
theorem Live.mono (hroot : ∀ a, roots' a → Live next roots a) {a : A}
    (h : Live next roots' a) : Live next roots a :=
  h.least hroot fun _ _ ha hab => ha.next hab

/-- A chain that starts at a live address consists of live addresses. -/
theorem Chain.live {p : Option A} {l : List A} (h : Chain next p l)
    (hp : ∀ a, p = some a → Live next roots a) : ∀ a ∈ l, Live next roots a := by
  induction h with
  | null => exact fun a ha => absurd ha List.not_mem_nil
  | @node b l _ ih =>
    have hb : Live next roots b := hp b rfl
    intro a ha
    rcases List.mem_cons.mp ha with rfl | hal
    · exact hb
    · exact ih (fun c hc => hb.next hc) a hal

/-- An address that is not the start of a chain and that no live address points to is not on
the chain. -/
theorem Chain.notMem {p : Option A} {l : List A} (h : Chain next p l) {x : A}
    (hp : ∀ a, p = some a → Live next roots a) (hne : p ≠ some x)
    (hx : ∀ a, Live next roots a → next a ≠ some x) : x ∉ l := by
  induction h with
  | null => exact List.not_mem_nil
  | @node b l _ ih =>
    have hb : Live next roots b := hp b rfl
    intro hmem
    rcases List.mem_cons.mp hmem with rfl | hmem
    · exact hne rfl
    · exact ih (fun c hc => hb.next hc) (hx b hb) hmem

/-- What an address on a chain points to is on the chain. -/
theorem Chain.next_mem {p : Option A} {l : List A} (h : Chain next p l) {a b : A} (ha : a ∈ l)
    (hab : next a = some b) : b ∈ l := by
  induction h with
  | null => exact absurd ha List.not_mem_nil
  | @node c l hl ih =>
    rcases List.mem_cons.mp ha with rfl | hal
    · rw [hab] at hl
      obtain ⟨r, rfl, -⟩ := chain_some_iff.mp hl
      exact List.mem_cons_of_mem _ List.mem_cons_self
    · exact List.mem_cons_of_mem _ (ih hal)

/-- **Finitely many roots whose chains end keep finitely many addresses alive.** -/
theorem finite_live (hroots : {a | roots a}.Finite)
    (hchain : ∀ a, roots a → ∃ l, Chain next (some a) l) : {a | Live next roots a}.Finite := by
  choose! l hl using hchain
  refine (hroots.biUnion fun a _ => (l a).finite_toSet).subset ?_
  intro b hb
  rw [Set.mem_iUnion₂]
  refine hb.least (P := fun b => ∃ a, ∃ _ : a ∈ {a | roots a}, b ∈ {x | x ∈ l a}) ?_ ?_
  · intro a ha
    obtain ⟨r, hr, -⟩ := chain_some_iff.mp (hl a ha)
    exact ⟨a, ha, by rw [hr]; exact List.mem_cons_self⟩
  · rintro b c ⟨a, ha, hb⟩ hbc
    exact ⟨a, ha, (hl a ha).next_mem hb hbc⟩

end CxxConcurrency.Lib
