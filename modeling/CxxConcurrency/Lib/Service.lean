/-
# A queue and its servers

Jobs are submitted to one queue.  A server that is free takes the job at the front, works on it
and is free again.  At some time the service is closed: nothing is submitted any more, and a server
that finds the queue empty leaves.

The jobs are numbered in the order in which they are submitted.  `Service.Inv` says where each of
them is: behind the front, in the hands of one server, or done.  So a job is done at most once
(`Service.count_finished`), and once the queue and all hands are empty, every job has been done
exactly once (`Service.finished_perm`).
-/
import CxxConcurrency.Lib.Fifo
import CxxConcurrency.Lib.Parties
import CxxConcurrency.Lib.Run
import Mathlib.Algebra.Order.BigOperators.Group.Finset

namespace CxxConcurrency.Lib

/-- A queue of jobs `τ` that give results `β`, and its servers `κ`. -/
structure Service (κ τ β : Type*) where
  queue : Fifo τ
  /-- The job in the hands of each server, with its number. -/
  hand : κ → Option (ℕ × τ)
  /-- What the jobs that are done gave. -/
  result : ℕ → Option β
  closed : Bool
  /-- The servers that have left. -/
  left : κ → Bool

namespace Service

variable {κ τ β : Type*}

/-- What happens to a service. -/
inductive Event (κ : Type*)
  | submit
  | take (w : κ)
  /-- Server `w` is done with job `k`. -/
  | finish (w : κ) (k : ℕ)
  | close
  | leave (w : κ)

/-- The service that is opened. -/
def init : Service κ τ β := ⟨Fifo.empty, fun _ => none, fun _ => none, false, fun _ => false⟩

variable [DecidableEq κ]

/-- One step, where the job `f` gives `eval f`. -/
inductive Step (eval : τ → β) (s : Service κ τ β) : Event κ → Service κ τ β → Prop
  | submit {f : τ} (hopen : s.closed = false) :
      Step eval s .submit { s with queue := s.queue.push f }
  | take {w : κ} {f : τ} {q : Fifo τ} (hfree : s.hand w = none)
      (hpop : s.queue.pop? = some (f, q)) :
      Step eval s (.take w)
        { s with
          queue := q
          hand := Function.update s.hand w (some (s.queue.removed.length, f)) }
  | finish {w : κ} {k : ℕ} {f : τ} (hhand : s.hand w = some (k, f)) :
      Step eval s (.finish w k)
        { s with
          hand := Function.update s.hand w none
          result := Function.update s.result k (some (eval f)) }
  | close : Step eval s .close { s with closed := true }
  | leave {w : κ} (hclosed : s.closed = true) (hempty : s.queue.items = [])
      (hfree : s.hand w = none) :
      Step eval s (.leave w) { s with left := Function.update s.left w true }

/-! ## 1. Where the jobs are -/

/-- Whether a hand holds job `k`. -/
def holds (k : ℕ) : Option (ℕ × τ) → ℕ
  | some (j, _) => if j = k then 1 else 0
  | none => 0

variable [Fintype κ] {eval : τ → β} {s s' : Service κ τ β} {e : Event κ} {es : List (Event κ)}

/-- The invariant of a service. -/
structure Inv (eval : τ → β) (s : Service κ τ β) : Prop where
  /-- A job that has been taken is in one hand or done, and a job that has not is in none. -/
  place : ∀ k, (∑ w, holds k (s.hand w)) + (if (s.result k).isSome then 1 else 0)
    = if k < s.queue.removed.length then 1 else 0
  hand : ∀ w k f, s.hand w = some (k, f) → s.queue.added[k]? = some f
  result : ∀ k b, s.result k = some b → s.queue.added[k]?.map eval = some b
  /-- Who has left has left an empty queue. -/
  left : ∀ w, s.left w = true → s.closed = true ∧ s.queue.items = []

omit [DecidableEq κ] in
theorem Inv.init : Inv eval (init : Service κ τ β) where
  place k := by simp [Service.init, holds, Fifo.empty]
  hand w k f h := absurd h (by simp [Service.init])
  result k b h := absurd h (by simp [Service.init])
  left w h := absurd h (by simp [Service.init])

/-- What a step does to the places of the jobs. -/
theorem Inv.place_step (h : Step eval s e s') (hI : Inv eval s) (k : ℕ) :
    (∑ w, holds k (s'.hand w)) + (if (s'.result k).isSome then 1 else 0)
      = if k < s'.queue.removed.length then 1 else 0 := by
  have hk := hI.place k
  cases h with
  | submit => exact hk
  | @take w f q hfree hpop =>
    obtain ⟨-, -, hremoved⟩ := Fifo.pop?_eq_some hpop
    have hsum := sum_update_add s.hand (holds k) w (some (s.queue.removed.length, f))
    rw [hfree] at hsum
    change (∑ v, holds k (Function.update s.hand w (some (s.queue.removed.length, f)) v)) + _ = _
    rw [hremoved, List.length_append, List.length_singleton]
    change _ + 0 = _ + (if s.queue.removed.length = k then 1 else 0) at hsum
    split_ifs at hsum hk ⊢ <;> omega
  | @finish w j f hhand =>
    have hsum := sum_update_add s.hand (holds k) w none
    rw [hhand] at hsum
    change _ + (if j = k then 1 else 0) = _ + 0 at hsum
    change (∑ v, holds k (Function.update s.hand w none v)) +
      (if (Function.update s.result j (some (eval f)) k).isSome then 1 else 0) = _
    by_cases hjk : j = k
    · subst hjk
      rw [if_pos rfl] at hsum
      -- the job was in this hand, so it was not done
      have hle : 1 ≤ ∑ v, holds j (s.hand v) := by omega
      rw [Function.update_self, Option.isSome_some, if_pos rfl]
      change _ = if j < s.queue.removed.length then 1 else 0
      split_ifs at hk ⊢ <;> omega
    · rw [if_neg hjk] at hsum
      rw [Function.update_of_ne (Ne.symm hjk)]
      change _ = if k < s.queue.removed.length then 1 else 0
      omega
  | close => exact hk
  | leave => exact hk

/-- **Every step keeps the invariant.** -/
theorem Inv.step (h : Step eval s e s') (hI : Inv eval s) : Inv eval s' := by
  have hplace := hI.place_step h
  cases h with
  | submit hopen =>
    refine ⟨hplace, fun w k f hw => Fifo.added_push_of_some (hI.hand w k f hw), ?_, ?_⟩
    · intro k b hb
      obtain ⟨f, hf, rfl⟩ := Option.map_eq_some_iff.mp (hI.result k b hb)
      exact Option.map_eq_some_iff.mpr ⟨f, Fifo.added_push_of_some hf, rfl⟩
    · intro w hw
      rw [(hI.left w hw).1] at hopen
      exact absurd hopen (by simp)
  | @take w f q hfree hpop =>
    obtain ⟨hitems, hadded, -⟩ := Fifo.pop?_eq_some hpop
    refine ⟨hplace, ?_, ?_, ?_⟩
    · refine (Function.forall_update_iff s.hand fun v o => ∀ k g, o = some (k, g) →
        q.added[k]? = some g).mpr ⟨?_, ?_⟩
      · intro k g hkg
        obtain ⟨rfl, rfl⟩ := Prod.mk.inj (Option.some.inj hkg)
        rw [hadded]
        exact Fifo.added_of_pop hpop
      · intro v _ k g hv
        rw [hadded]
        exact hI.hand v k g hv
    · intro k b hb
      rw [hadded]
      exact hI.result k b hb
    · intro v hv
      rw [(hI.left v hv).2] at hitems
      exact absurd hitems (by simp)
  | @finish w j f hhand =>
    refine ⟨hplace, ?_, ?_, hI.left⟩
    · exact (Function.forall_update_iff s.hand fun v o => ∀ k g, o = some (k, g) →
        s.queue.added[k]? = some g).mpr
        ⟨fun _ _ h => absurd h (by simp), fun v _ => hI.hand v⟩
    · refine (Function.forall_update_iff s.result fun k o => ∀ b, o = some b →
        s.queue.added[k]?.map eval = some b).mpr ⟨?_, fun k _ => hI.result k⟩
      intro b hb
      rw [hI.hand w j f hhand, Option.map_some, hb]
  | close =>
    exact ⟨hplace, hI.hand, hI.result, fun w hw => ⟨rfl, (hI.left w hw).2⟩⟩
  | @leave w hclosed hempty hfree =>
    refine ⟨hplace, hI.hand, hI.result, ?_⟩
    exact (Function.forall_update_iff s.left fun _ b => b = true →
      s.closed = true ∧ s.queue.items = []).mpr
      ⟨fun _ => ⟨hclosed, hempty⟩, fun v _ => hI.left v⟩

theorem Inv.run (h : Run (Step eval) Service.init es s) : Inv eval s :=
  h.invariant (fun _ _ _ hI hst => hI.step hst) Inv.init

omit [DecidableEq κ] in
/-- A job in a hand is not done. -/
theorem Inv.result_eq_none (hI : Inv eval s) {w : κ} {k : ℕ} {f : τ}
    (hhand : s.hand w = some (k, f)) : s.result k = none := by
  have hle : holds k (s.hand w) ≤ ∑ v, holds k (s.hand v) :=
    Finset.single_le_sum (f := fun v => holds k (s.hand v)) (fun _ _ => Nat.zero_le _)
      (Finset.mem_univ w)
  have hk := hI.place k
  rw [hhand] at hle
  change (if k = k then 1 else 0) ≤ _ at hle
  rw [if_pos rfl] at hle
  cases hr : s.result k with
  | none => rfl
  | some b =>
    rw [hr, Option.isSome_some, if_pos rfl] at hk
    split_ifs at hk
    all_goals omega

/-! ## 2. What has been done -/

/-- The job that is done in a step. -/
def Event.finished? : Event κ → Option ℕ
  | .finish _ k => some k
  | _ => none

/-- **A job is done when it has been finished**, and is never finished again. -/
theorem count_finished (h : Run (Step eval) Service.init es s) (k : ℕ) :
    (es.filterMap Event.finished?).count k = if (s.result k).isSome then 1 else 0 := by
  refine h.trace_invariant (I := fun es s =>
    (es.filterMap Event.finished?).count k = if (s.result k).isSome then 1 else 0)
    (by simp [Service.init]) ?_
  intro es s e s' hrun ih hst
  rw [List.filterMap_append, List.count_append, ih]
  cases hst with
  | @finish w j f hhand =>
    change _ + [j].count k = if (Function.update s.result j (some (eval f)) k).isSome then 1 else 0
    by_cases hjk : j = k
    · subst hjk
      rw [(Inv.run hrun).result_eq_none hhand, Function.update_self, List.count_singleton_self]
      rfl
    · rw [Function.update_of_ne (Ne.symm hjk), List.count_singleton, beq_false_of_ne hjk]
      rfl
  | submit | take | close | leave => rfl

omit [DecidableEq κ] in
/-- **The results are those of the jobs**, once the queue is empty and so are all hands. -/
theorem Inv.result_eq (hI : Inv eval s) (hempty : s.queue.items = [])
    (hhands : ∀ w, s.hand w = none) (k : ℕ) : s.result k = s.queue.added[k]?.map eval := by
  have hk := hI.place k
  have hlen : s.queue.removed.length = s.queue.added.length := by
    rw [← s.queue.conserve, hempty, List.append_nil]
  rw [Finset.sum_eq_zero fun w _ => by rw [hhands w]; rfl, hlen] at hk
  cases hr : s.result k with
  | some b => exact (hI.result k b hr).symm
  | none =>
    rw [hr, Option.isSome_none, if_neg (by simp)] at hk
    have hle : s.queue.added.length ≤ k := by
      by_contra hlt
      rw [if_pos (not_le.mp hlt)] at hk
      omega
    rw [List.getElem?_eq_none hle]
    rfl

/-- **Every job has been finished exactly once**, once the queue is empty and so are all hands. -/
theorem finished_perm (h : Run (Step eval) Service.init es s) (hempty : s.queue.items = [])
    (hhands : ∀ w, s.hand w = none) :
    (es.filterMap Event.finished?).Perm (List.range s.queue.added.length) := by
  rw [List.perm_iff_count]
  intro k
  rw [count_finished h, (Inv.run h).result_eq hempty hhands, Option.isSome_map,
    List.count_range]
  by_cases hk : k < s.queue.added.length
  · rw [if_pos hk, List.getElem?_eq_getElem hk]
    rfl
  · rw [if_neg hk, List.getElem?_eq_none (not_lt.mp hk)]
    rfl

end Service

end CxxConcurrency.Lib
