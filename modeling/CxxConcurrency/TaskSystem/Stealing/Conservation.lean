/-
# No task is lost or duplicated

`Inv` holds in every reachable state of the work-stealing pool, whatever the owner calls: the
places where a task can be (in a queue, in a worker's hands, executed) add up to one for every
task posted, each queue's log is the tasks posted to it with the pills in between, and a worker
that has exited has popped a pill from its own queue.
-/
import CxxConcurrency.Lib.Parties
import CxxConcurrency.TaskSystem.Stealing.Pool

namespace CxxConcurrency.TaskSystem.Stealing

open CxxConcurrency.Lib

variable {n : ℕ} {s s' : Pool n} {a : Act n} {as : List (Act n)}

/-! ## 1. The places of a task -/

/-- How often task `k` is in the queues. -/
def Pool.inQueues (s : Pool n) (k : ℕ) : ℕ :=
  ∑ i, (s.tasks i).items.count (makeTask (.work k))

/-- How often task `k` is in the hands of a worker that is about to run it or is running it. -/
def Pool.inHands (s : Pool n) (k : ℕ) : ℕ := ∑ i, (s.worker i).hand.count (makeTask (.work k))

/-- In how many places task `k` is. -/
def Pool.places (s : Pool n) (k : ℕ) : ℕ := s.inQueues k + s.inHands k + s.executed.count k

/-- The tasks posted to queue `i`, in order. -/
def Pool.postedTo (s : Pool n) (i : Fin n) : List ℕ :=
  (List.range s.posts.length).filter fun k => s.posts[k]? = some i

/-- The tasks taken from queue `i`, by its worker or by thieves, in the order taken. -/
def Pool.takenFrom (s : Pool n) (i : Fin n) : List ℕ :=
  (s.tasks i).removed.filterMap Task.normal?

theorem inQueues_setTasks (i : Fin n) (q : Fifo Task) (k : ℕ) :
    (s.setTasks i q).inQueues k + (s.tasks i).items.count (makeTask (.work k))
      = s.inQueues k + q.items.count (makeTask (.work k)) :=
  sum_update_add s.tasks (fun q => q.items.count (makeTask (.work k))) i q

theorem inHands_setWorker (i : Fin n) (w : Worker n) (k : ℕ) :
    (s.setWorker i w).inHands k + (s.worker i).hand.count (makeTask (.work k))
      = s.inHands k + w.hand.count (makeTask (.work k)) :=
  sum_update_add s.worker (fun w => w.hand.count (makeTask (.work k))) i w

/-- What invoking a Normal task adds to the log is the task that was in hand. -/
theorem count_id?_of_normal {t : Task} (ht : t.status = .Normal) (k : ℕ) :
    t.fn.id?.toList.count k = [t].count (makeTask (.work k)) := by
  obtain ⟨status, fn⟩ := t
  obtain rfl : status = .Normal := ht
  cases fn with
  | empty => simp [Callable.id?, makeTask]
  | work j => simp [Callable.id?, makeTask, List.count_singleton]

theorem count_of_pill {t : Task} (ht : t.status = .PoisonPill) (k : ℕ) :
    [t].count (makeTask (.work k)) = 0 := by
  refine List.count_eq_zero.mpr ?_
  intro hmem
  rw [← List.mem_singleton.mp hmem] at ht
  exact absurd ht (by simp)

/-- Task `k` in the tail of a queue and in front of it. -/
theorem count_cons_task (t : Task) (l : List Task) (k : ℕ) :
    (t :: l).count (makeTask (.work k))
      = l.count (makeTask (.work k)) + [t].count (makeTask (.work k)) := by
  rw [← List.singleton_append, List.count_append, Nat.add_comm]

/-- The places are in the queues, the hands and the log. -/
theorem places_congr (ht : s'.tasks = s.tasks) (hw : s'.worker = s.worker)
    (he : s'.executed = s.executed) (k : ℕ) : s'.places k = s.places k := by
  simp only [Pool.places, Pool.inQueues, Pool.inHands, ht, hw, he]

/-- A `post` adds the new task to the places, once. -/
theorem places_enqueue (i : Fin n) (k : ℕ) :
    (s.enqueue i).places k = s.places k + if k = s.posts.length then 1 else 0 := by
  have hq := inQueues_setTasks (s := s) i ((s.tasks i).push (makeTask (.work s.posts.length))) k
  have hcount : [makeTask (.work s.posts.length)].count (makeTask (.work k))
      = if k = s.posts.length then 1 else 0 := by
    by_cases hk : k = s.posts.length
    · simp [hk]
    · simp [hk, Ne.symm hk]
  rw [Fifo.push_items, List.count_append, hcount] at hq
  change (s.setTasks i _).inQueues k + s.inHands k + s.executed.count k
    = s.inQueues k + s.inHands k + s.executed.count k + _
  omega

/-- A pill is no task. -/
theorem places_done (i : Fin n) (k : ℕ) : (s.done i).places k = s.places k := by
  have hq := inQueues_setTasks (s := s) i ((s.tasks i).push makePoisonPill) k
  rw [Fifo.push_items, List.count_append, count_of_pill rfl] at hq
  change (s.setTasks i _).inQueues k + s.inHands k + s.executed.count k
    = s.inQueues k + s.inHands k + s.executed.count k
  omega

/-- A worker that lays down what is no task, or picks up nothing, changes no place. -/
theorem places_setWorker {i : Fin n} {w : Worker n} {k : ℕ}
    (hhand : (s.worker i).hand.count (makeTask (.work k)) = w.hand.count (makeTask (.work k))) :
    (s.setWorker i w).places k = s.places k := by
  have hh := inHands_setWorker (s := s) i w k
  change s.inQueues k + (s.setWorker i w).inHands k + s.executed.count k
    = s.inQueues k + s.inHands k + s.executed.count k
  omega

/-- Taking `t` from queue `p` into the hands of worker `i` moves it. -/
theorem places_pop {i p : Fin n} {t : Task} {q : Fifo Task} {w : Worker n}
    (hpop : (s.tasks p).pop? = some (t, q)) (hhand : (s.worker i).hand = []) (hw : w.hand = [t])
    (k : ℕ) : ((s.setTasks p q).setWorker i w).places k = s.places k := by
  obtain ⟨hitems, -, -⟩ := Fifo.pop?_eq_some hpop
  have hq := inQueues_setTasks (s := s) p q k
  have hh := inHands_setWorker (s := s) i w k
  rw [hitems, count_cons_task] at hq
  rw [hw, hhand, List.count_nil] at hh
  change (s.setTasks p q).inQueues k + (s.setWorker i w).inHands k + s.executed.count k
    = s.inQueues k + s.inHands k + s.executed.count k
  omega

/-- Invoking the task in hand moves it to the log. -/
theorem places_run {i : Fin n} {t : Task} (hhand : (s.worker i).hand = [t])
    (ht : t.status = .Normal) (k : ℕ) :
    ((s.invoke t.fn).setWorker i .top).places k = s.places k := by
  have hh := inHands_setWorker (s := s) i .top k
  have hrun : (s.executed ++ t.fn.id?.toList).count k
      = s.executed.count k + [t].count (makeTask (.work k)) := by
    rw [List.count_append, count_id?_of_normal ht]
  rw [hhand] at hh
  change _ = s.inHands k + 0 at hh
  change s.inQueues k + (s.setWorker i .top).inHands k + (s.executed ++ _).count k
    = s.inQueues k + s.inHands k + s.executed.count k
  omega

/-- **A step moves tasks between the places**; only a `post` adds one. -/
theorem places_step (h : StepCase s a s') :
    (s'.posts = s.posts ∧ ∀ k, s'.places k = s.places k) ∨
      ∃ i, s'.posts = s.posts ++ [i] ∧
        ∀ k, s'.places k = s.places k + if k = s.posts.length then 1 else 0 := by
  cases h with
  | post i _ => exact Or.inr ⟨i, rfl, places_enqueue i⟩
  | done _ hk => exact Or.inl ⟨rfl, places_done ⟨_, hk⟩⟩
  | popOwn hw _ hpop => exact Or.inl ⟨rfl, places_pop hpop (by rw [hw]; rfl) rfl⟩
  | popSibling hw _ hpop => exact Or.inl ⟨rfl, places_pop hpop (by rw [hw]; rfl) rfl⟩
  | runOwn hw ht => exact Or.inl ⟨rfl, places_run (by rw [hw]; rfl) ht⟩
  | runStolen hw ht => exact Or.inl ⟨rfl, places_run (by rw [hw]; rfl) ht⟩
  | exit hw ht =>
    exact Or.inl ⟨rfl, fun k => places_setWorker (by rw [hw]; exact count_of_pill ht k)⟩
  | dropStolen hw ht =>
    exact Or.inl ⟨rfl, fun k => places_setWorker (by rw [hw]; exact count_of_pill ht k)⟩
  | popOwnNone hw _ _ => exact Or.inl ⟨rfl, fun k => places_setWorker (by rw [hw]; rfl)⟩
  | popSiblingNone hw _ _ => exact Or.inl ⟨rfl, fun k => places_setWorker (by rw [hw]; rfl)⟩
  | chooseNone hw _ => exact Or.inl ⟨rfl, fun k => places_setWorker (by rw [hw]; rfl)⟩
  | @choose i p hw _ =>
    refine Or.inl ⟨rfl, ?_⟩
    intro k
    calc _ = (s.setWorker i (.steal p)).places k := places_congr rfl rfl rfl k
      _ = s.places k := places_setWorker (by rw [hw]; rfl)
  | _ => exact Or.inl ⟨rfl, places_congr rfl rfl rfl⟩

/-! ## 2. What a step does to the logs -/

/-- **What a step adds to the logs**: nothing, the task of a `post`, or a pill of a `join()`. -/
theorem added_cases (h : StepCase s a s') :
    ((∀ j, (s'.tasks j).added = (s.tasks j).added) ∧ s'.posts = s.posts) ∨
    (∃ i draw, a = .post draw ∧ s'.posts = s.posts ++ [i] ∧ ∀ j, (s'.tasks j).added =
      (s.tasks j).added ++ if j = i then [makeTask (.work s.posts.length)] else []) ∨
    (∃ i k closing, a = .next ∧ s.owner = .joining k closing ∧ s'.posts = s.posts ∧
      ∀ j, (s'.tasks j).added = (s.tasks j).added ++ if j = i then [makePoisonPill] else []) := by
  cases h with
  | @post draw _ i _ =>
    exact Or.inr (Or.inl ⟨i, draw, rfl, rfl, Fifo.added_update_push s.tasks i _⟩)
  | @done k closing howner hk =>
    exact Or.inr (Or.inr ⟨⟨k, hk⟩, k, closing, rfl, howner, rfl,
      Fifo.added_update_push s.tasks ⟨k, hk⟩ _⟩)
  | popOwn _ _ hpop => exact Or.inl ⟨Fifo.added_update_pop s.tasks hpop, rfl⟩
  | popSibling _ _ hpop => exact Or.inl ⟨Fifo.added_update_pop s.tasks hpop, rfl⟩
  | _ => exact Or.inl ⟨fun _ => rfl, rfl⟩

/-- A step removes nothing from the removal logs. -/
theorem removed_subset (h : StepCase s a s') (j : Fin n) :
    (s.tasks j).removed ⊆ (s'.tasks j).removed := by
  rcases tasks_cases h j with htasks | ⟨-, t, htasks⟩ | ⟨i, t, -, hpop, -⟩
  · rw [htasks]
    exact List.Subset.refl _
  · rw [htasks]
    exact List.Subset.refl _
  · rw [(Fifo.pop?_eq_some hpop).2.2]
    exact List.subset_append_left _ _

/-! ## 3. The invariant of every run -/

/-- The conservation invariant. -/
structure Inv (s : Pool n) : Prop where
  placed : ∀ k, s.places k = if k < s.posts.length then 1 else 0
  posted : ∀ i, (s.tasks i).added.filterMap Task.normal? = s.postedTo i
  shape : ∀ i, ∀ t ∈ (s.tasks i).added, t = makePoisonPill ∨ ∃ k, t = makeTask (.work k)
  got : ∀ i t, s.worker i = .got t → t ∈ (s.tasks i).removed
  exited : ∀ i, s.worker i = .exited → makePoisonPill ∈ (s.tasks i).removed

theorem Inv.init (siblingIdx queueIdx : ℕ) : Inv (Pool.init n siblingIdx queueIdx) where
  placed k := by simp [Pool.init, Pool.places, Pool.inQueues, Pool.inHands, Worker.hand]
  posted i := by simp [Pool.init, Pool.postedTo]
  shape i t ht := by simp [Pool.init] at ht
  got i t ht := by simp [Pool.init] at ht
  exited i hi := by simp [Pool.init] at hi

/-- The tasks posted to each queue, after one more `post`. -/
theorem postedTo_append {i j : Fin n} (hposts : s'.posts = s.posts ++ [i]) :
    s'.postedTo j = s.postedTo j ++ if j = i then [s.posts.length] else [] := by
  have hold : (List.range s.posts.length).filter (fun k => (s.posts ++ [i])[k]? = some j)
      = s.postedTo j := by
    refine List.filter_congr ?_
    intro k hk
    rw [List.getElem?_append_left (List.mem_range.mp hk)]
  rw [Pool.postedTo, hposts, List.length_append, List.length_singleton, List.range_succ,
    List.filter_append, hold]
  congr 1
  by_cases hji : j = i
  · simp [hji]
  · simp [hji, Ne.symm hji]

/-- What a worker has popped from its own queue is out of it. -/
theorem got_step (h : StepCase s a s') (hI : Inv s) {j : Fin n} {t : Task}
    (hj : s'.worker j = .got t) : t ∈ (s'.tasks j).removed := by
  by_cases ha : a = .work j
  · subst ha
    cases h with
    | popOwn _ _ hpop =>
      obtain rfl : _ = t := by simpa [Pool.setWorker] using hj
      simp [Pool.setWorker, Pool.setTasks, (Fifo.pop?_eq_some hpop).2.2]
    | _ => simp [Pool.setWorker] at hj
  · rw [worker_of_ne h ha] at hj
    exact removed_subset h j (hI.got j t hj)

/-- Only `makePoisonPill` makes tasks with the status `PoisonPill`. -/
theorem Inv.eq_pill (hI : Inv s) {i : Fin n} {t : Task} (ht : t ∈ (s.tasks i).added)
    (hpill : t.status = .PoisonPill) : t = makePoisonPill := by
  rcases hI.shape i t ht with rfl | ⟨k, rfl⟩
  · rfl
  · exact absurd hpill (by simp)

/-- A worker that has returned has popped a pill from its own queue. -/
theorem exited_step (h : StepCase s a s') (hI : Inv s) {j : Fin n}
    (hj : s'.worker j = .exited) : makePoisonPill ∈ (s'.tasks j).removed := by
  by_cases ha : a = .work j
  · subst ha
    cases h with
    | @exit _ t hw ht =>
      have hmem := hI.got j t hw
      rw [← hI.eq_pill ((s.tasks j).removed_prefix_added.subset hmem) ht]
      exact hmem
    | _ => simp [Pool.setWorker] at hj
  · rw [worker_of_ne h ha] at hj
    exact removed_subset h j (hI.exited j hj)

/-- **Every step keeps the invariant.** -/
theorem Inv.step (h : StepCase s a s') (hI : Inv s) : Inv s' where
  placed k := by
    have hk := hI.placed k
    rcases places_step h with ⟨hposts, hplaces⟩ | ⟨i, hposts, hplaces⟩
    · rw [hplaces, hposts, hk]
    · rw [hplaces, hposts, hk, List.length_append, List.length_singleton]
      split_ifs <;> omega
  posted j := by
    have hj := hI.posted j
    rcases added_cases h with ⟨hadded, hposts⟩ | ⟨i, draw, -, hposts, hadded⟩ |
      ⟨i, k, closing, -, -, hposts, hadded⟩
    · rw [hadded, hj, Pool.postedTo, Pool.postedTo, hposts]
    · rw [hadded, List.filterMap_append, hj, postedTo_append hposts]
      split_ifs <;> simp
    · rw [hadded, List.filterMap_append, hj, Pool.postedTo, Pool.postedTo, hposts]
      split_ifs <;> simp
  shape j t ht := by
    rcases added_cases h with ⟨hadded, -⟩ | ⟨i, draw, -, -, hadded⟩ |
      ⟨i, k, closing, -, -, -, hadded⟩
    · exact hI.shape j t (hadded j ▸ ht)
    · rw [hadded, List.mem_append] at ht
      rcases ht with ht | ht
      · exact hI.shape j t ht
      · exact Or.inr ⟨s.posts.length, by split_ifs at ht <;> simp_all⟩
    · rw [hadded, List.mem_append] at ht
      rcases ht with ht | ht
      · exact hI.shape j t ht
      · exact Or.inl (by split_ifs at ht <;> simp_all)
  got j t hj := got_step h hI hj
  exited j hj := exited_step h hI hj

/-- The invariant holds in every reachable state. -/
theorem Inv.run {siblingIdx queueIdx : ℕ}
    (h : Run PoolStep (Pool.init n siblingIdx queueIdx) as s) : Inv s :=
  h.invariant (fun _ _ _ hI hst => hI.step (stepCase_of_step hst)) (Inv.init _ _)

end CxxConcurrency.TaskSystem.Stealing
