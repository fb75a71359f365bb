/-
# The distribution `RoundRobin` of `chooseQueue`

`chooseQueue` returns the static cursor `idx` and then stores `( idx + 1 ) / qs.size()`, where
`chooseSibling` and `test_pool` reduce modulo the size.  With two queues or more the quotient of
1 is 0 and the cursor never leaves 0; with one queue the cursor counts the calls.  So the calls
go round robin exactly as far as the first one (`roundRobin_iff`).
-/
import CxxConcurrency.TaskSystem.Stealing.Pool

namespace CxxConcurrency.TaskSystem.Stealing

open CxxConcurrency.Lib

variable {n : ℕ}

/-! ## 1. The calls of `chooseQueue` -/

/-- The static cursor before call `k` on a pool of `n` queues, where nobody else calls. -/
def cursor (n : ℕ) : ℕ → ℕ
  | 0 => 0
  | k + 1 => (chooseQueue .RoundRobin 0 (cursor n k) n).2

/-- What call `k` of `chooseQueue` returns. -/
def choice (n k : ℕ) : ℕ := (chooseQueue .RoundRobin 0 (cursor n k) n).1

/-- **The cursor**: it counts the calls where there is one queue, and stays 0 where there are
more. -/
theorem cursor_eq (hn : 0 < n) (k : ℕ) : cursor n k = if n = 1 then k % UInt64.size else 0 := by
  induction k with
  | zero => simp [cursor]
  | succ k ih =>
    change (cursor n k + 1) % UInt64.size / n = _
    rw [ih]
    split
    · rename_i hone
      rw [hone, Nat.div_one, Nat.mod_add_mod]
    · rename_i hone
      have hmod : (0 + 1) % UInt64.size = 1 := by decide
      exact Nat.div_eq_of_lt (by omega)

theorem choice_eq (hn : 0 < n) (k : ℕ) : choice n k = if n = 1 then k % UInt64.size else 0 :=
  cursor_eq hn k

/-- When a call goes to the queue it should go to. -/
theorem choice_eq_mod_iff (hn : 0 < n) (k : ℕ) :
    choice n k = k % n ↔ n ∣ k ∧ (2 ≤ n ∨ UInt64.size ∣ k) := by
  rw [choice_eq hn, Nat.dvd_iff_mod_eq_zero, Nat.dvd_iff_mod_eq_zero]
  split
  · rename_i hone
    subst hone
    omega
  · omega

/-- When a call returns the index of a queue. -/
theorem choice_lt_iff (hn : 0 < n) (k : ℕ) : choice n k < n ↔ 2 ≤ n ∨ UInt64.size ∣ k := by
  rw [choice_eq hn, Nat.dvd_iff_mod_eq_zero]
  split
  · rename_i hone
    subst hone
    omega
  · omega

/-! ## 2. The posts of a pool -/

/-- The step relation of a pool whose work is distributed round robin. -/
abbrev RoundRobinStep : Pool n → Act n → Pool n → Prop := Fires (Pool.step .RoundRobin)

variable {s s' : Pool n} {a : Act n} {as : List (Act n)}

/-- **What a step does to the posts**: `post` enqueues on the queue under the cursor, which moves
on; every other step leaves both. -/
theorem posts_cases (hn : 0 < n) (h : RoundRobinStep s a s') :
    (s'.posts = s.posts ∧ s'.queueIdx = s.queueIdx) ∨
    ∃ hlt : s.queueIdx < n, s'.posts = s.posts ++ [⟨s.queueIdx, hlt⟩] ∧
      s'.queueIdx = (chooseQueue .RoundRobin 0 s.queueIdx n).2 := by
  cases a with
  | post draw =>
    simp only [Fires, Pool.step] at h
    split at h
    · unfold Pool.post at h
      rw [if_neg (by omega)] at h
      split at h
      · rename_i hlt
        obtain rfl := Option.some.inj h
        exact Or.inr ⟨hlt, rfl, rfl⟩
      · exact absurd h (by simp)
    · exact absurd h (by simp)
  | join | close | next | destroy | work =>
    have hcase := stepCase_of_step h
    cases hcase <;> exact Or.inl ⟨rfl, rfl⟩

/-- The posts so far are those of the calls of `chooseQueue`. -/
structure Posted (s : Pool n) : Prop where
  cursor : s.queueIdx = cursor n s.posts.length
  posts : s.posts.map Fin.val = (List.range s.posts.length).map (choice n)

theorem Posted.step (hn : 0 < n) (h : RoundRobinStep s a s') (hP : Posted s) : Posted s' := by
  rcases posts_cases hn h with ⟨hposts, hidx⟩ | ⟨hlt, hposts, hidx⟩
  · refine ⟨?_, ?_⟩
    · rw [hidx, hposts, hP.cursor]
    · rw [hposts, hP.posts]
  · have hlen : s'.posts.length = s.posts.length + 1 := by rw [hposts]; simp
    refine ⟨?_, ?_⟩
    · rw [hidx, hlen, hP.cursor]
      rfl
    · rw [hlen, hposts, List.map_append, hP.posts, List.range_succ, List.map_append]
      exact congrArg _ (congrArg (fun i => [i]) hP.cursor)

theorem Posted.run (hn : 0 < n) {c : ℕ} (h : Run RoundRobinStep (Pool.init n c 0) as s) :
    Posted s :=
  h.invariant (fun _ _ _ hP hst => hP.step hn hst) ⟨rfl, rfl⟩

/-! ## 3. How far the distribution is round robin -/

/-- `k` posts can be made, and whenever `k` posts have been made, whatever the workers have done,
the task of each post is on the queue where `test_pool` puts it, and no queue has been given two
tasks more than another. -/
def Distributes (n k : ℕ) : Prop :=
  (∃ as s, Run RoundRobinStep (Pool.init n 0 0) as s ∧ s.posts.length = k) ∧
  ∀ as s, Run RoundRobinStep (Pool.init n 0 0) as s → s.posts.length = k →
    s.posts.map Fin.val = (List.range k).map (· % n) ∧
      ∀ i j, s.posts.count i ≤ s.posts.count j + 1

theorem exists_run_posts (hn : 0 < n) {k : ℕ} (hk : k ≤ 1) :
    ∃ as s, Run RoundRobinStep (Pool.init n 0 0) as s ∧ s.posts.length = k := by
  cases k with
  | zero => exact ⟨[], _, Run.refl, rfl⟩
  | succ k =>
    obtain rfl : k = 0 := by omega
    have hpost : RoundRobinStep (Pool.init n 0 0) (.post 0)
        { (Pool.init n 0 0).enqueue ⟨0, hn⟩ with queueIdx := (0 + 1) % UInt64.size / n } := by
      have hne : n ≠ 0 := by omega
      simp [Fires, Pool.step, Pool.init, Pool.post, chooseQueue, hne, hn]
    exact ⟨_, _, Run.single hpost, rfl⟩

/-- The second call goes wrong in every pool. -/
theorem le_one_of_distributes (hn : 0 < n) {k : ℕ} (h : Distributes n k) : k ≤ 1 := by
  obtain ⟨⟨as, s, hrun, rfl⟩, hall⟩ := h
  by_contra hk
  have hmap := (Posted.run hn hrun).posts.symm.trans (hall as s hrun rfl).1
  have hsecond : choice n 1 = 1 % n :=
    List.map_inj_left.mp hmap 1 (List.mem_range.mpr (by omega))
  obtain ⟨hdvd, htwo⟩ := (choice_eq_mod_iff hn 1).mp hsecond
  have hone := Nat.le_of_dvd one_pos hdvd
  rcases htwo with htwo | hsize
  · omega
  · exact absurd hsize (by decide)

theorem distributes_of_le_one (hn : 0 < n) {k : ℕ} (hk : k ≤ 1) : Distributes n k := by
  refine ⟨exists_run_posts hn hk, ?_⟩
  rintro as s hrun rfl
  refine ⟨?_, ?_⟩
  · rw [(Posted.run hn hrun).posts]
    refine List.map_congr_left ?_
    intro j hj
    obtain rfl : j = 0 := by
      have := List.mem_range.mp hj
      omega
    rw [choice_eq hn]
    simp
  · intro i j
    have hcount := List.count_le_length (a := i) (l := s.posts)
    omega

/-- **How far `RoundRobin` goes round robin.**  Call `k` returns `k % n` exactly where `n` divides
`k` and there are two queues or more (with one queue, where the cursor is back at 0); it returns
the index of a queue exactly where there are two queues or more, or the cursor is at 0; and `k`
posts are distributed round robin exactly where there is at most one. -/
theorem roundRobin_iff (hn : 0 < n) (k : ℕ) :
    (choice n k = k % n ↔ n ∣ k ∧ (2 ≤ n ∨ UInt64.size ∣ k)) ∧
    (choice n k < n ↔ 2 ≤ n ∨ UInt64.size ∣ k) ∧
    (Distributes n k ↔ k ≤ 1) :=
  ⟨choice_eq_mod_iff hn k, choice_lt_iff hn k,
    le_one_of_distributes hn, distributes_of_le_one hn⟩

/-- Call 6 on a pool of 3. -/
theorem roundRobin_iff_three : choice 3 6 = 6 % 3 ∧ choice 3 6 < 3 ∧ ¬ Distributes 3 6 := by
  obtain ⟨hmod, hlt, hdist⟩ := roundRobin_iff (n := 3) (by decide) 6
  exact ⟨hmod.mpr (by decide), hlt.mpr (by decide), fun h => absurd (hdist.mp h) (by decide)⟩

/-- **`RoundRobin` is not round robin**: the second call on a pool of 3 returns 0 again. -/
theorem second_choice_not_roundRobin :
    ¬ ∀ n k : ℕ, 1 ≤ n → choice n k = k % n := by
  intro hall
  exact absurd (hall 3 1 (by decide)) (by decide)

end CxxConcurrency.TaskSystem.Stealing
