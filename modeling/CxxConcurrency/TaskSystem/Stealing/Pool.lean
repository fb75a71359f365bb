/-
# The work-stealing pool of `task_system/task_stealing.cpp`

`Pool<workDistStrategy>` has `n` queues, each with a deque of tasks and one worker thread.  The
thread that owns the pool calls `post` and `join` and finally runs the destructor; worker `i`
runs the loop of `Queue::initialize`: it pops its own queue, and where that is empty it asks
`chooseSibling` for another queue and pops that one.

One step is one atomic operation of one party.  `tryPopFront`, `enqueue` and `done` hold the
queue's mutex from beginning to end, so each is one step; `chooseSibling` is another, so a
worker can be suspended between choosing a sibling and popping it.  Each queue is a `Fifo`, so
the entries popped from it, by whomever, are a prefix of the entries added to it.

What the standard leaves undefined has no next state: an index past the end of `siblings` or
`qs`, and an operation on a queue that has been destroyed.
-/
import CxxConcurrency.Lib.Fifo
import CxxConcurrency.Lib.Run
import CxxConcurrency.TaskSystem.Task
import Mathlib.Data.Fintype.Basic
import Mathlib.Logic.Function.Basic

namespace CxxConcurrency.TaskSystem.Stealing

open CxxConcurrency.Lib

/-! ## 1. Choosing a queue -/

/-- `enum class StealingStrategy`. -/
inductive StealingStrategy
  | LookNext
  | Random

/-- `enum class WorkDistStrategy`. -/
inductive WorkDistStrategy
  | RoundRobin
  | Random

/-- What `chooseSibling()` does. -/
inductive Choice (α : Type*)
  /-- It returns `std::nullopt`. -/
  | nullopt
  /-- It returns `p`, and `idx` is the new value of the static cursor. -/
  | sibling (p : α) (idx : ℕ)
  /-- It reads past the end of `siblings`. -/
  | outOfBounds

variable {α : Type*}

/-- `siblings[ at ]`, with the cursor set to `idx` afterwards. -/
def readSibling (siblings : List α) (pos idx : ℕ) : Choice α :=
  match siblings[pos]? with
  | some p => .sibling p idx
  | none => .outOfBounds

/-- `Queue::chooseSibling()`: `draw` is the value of `dist( eng )`, `idx` the static cursor that
all queues of the process share.  `idx + 1` cannot wrap around before an index is past the
end. -/
def chooseSibling (strategy : StealingStrategy) (draw idx : ℕ) (siblings : List α) : Choice α :=
  if siblings = [] then .nullopt
  else match strategy with
    | .Random => readSibling siblings (draw % siblings.length) idx
    | .LookNext => readSibling siblings idx ((idx + 1) % siblings.length)

/-- `Pool::chooseQueue()`: the index returned and the new value of the static cursor, a 64-bit
`size_t`. -/
def chooseQueue (strategy : WorkDistStrategy) (draw idx size : ℕ) : ℕ × ℕ :=
  match strategy with
  | .Random => (draw % size, idx)
  | .RoundRobin => (idx, (idx + 1) % UInt64.size / size)

/-- The vector `connectWithSiblings` builds for queue `i`: the other queues, in order. -/
def siblings (n : ℕ) (i : Fin n) : List (Fin n) := (List.finRange n).filter (· ≠ i)

/-! ## 2. The state -/

/-- Where worker `i` is in the loop of `Queue::initialize`. -/
inductive Worker (n : ℕ)
  /-- About to call its own `tryPopFront()`. -/
  | top
  /-- It popped `t` from its own queue, about to look at the status. -/
  | got (t : Task)
  /-- Its own queue was empty, about to call `chooseSibling()`. -/
  | empty
  /-- About to call `pSib->tryPopFront()` on queue `p`. -/
  | steal (p : Fin n)
  /-- It popped `t` from a sibling, about to look at the status. -/
  | stole (t : Task)
  /-- The thread function has returned. -/
  | exited
  deriving DecidableEq

/-- The task in a worker's hands. -/
def Worker.hand {n : ℕ} : Worker n → List Task
  | .got t => [t]
  | .stole t => [t]
  | _ => []

/-- Where the owning thread is. -/
inductive Owner
  /-- Between two calls on the pool. -/
  | calls
  /-- In the loop of `join()`, with queue `k` next; `closing` if `~Pool` made the call. -/
  | joining (k : ℕ) (closing : Bool)
  /-- `~Pool` has run `join()`, the elements of `qs` are being destroyed. -/
  | destroying
  deriving DecidableEq

/-- A pool of `n` queues, its workers and its owner. -/
structure Pool (n : ℕ) where
  /-- The deque of each queue, with its history. -/
  tasks : Fin n → Fifo Task
  /-- The queues that have not been destroyed. -/
  alive : Fin n → Bool
  worker : Fin n → Worker n
  owner : Owner
  /-- The static cursor of `chooseSibling`. -/
  siblingIdx : ℕ
  /-- The static cursor of `chooseQueue`. -/
  queueIdx : ℕ
  /-- For every `post` so far, the queue its task went to. -/
  posts : List (Fin n)
  /-- The submissions whose invocation has returned, in order. -/
  executed : List ℕ

variable {n : ℕ}

/-- A pool just constructed, in a process whose static cursors are at `siblingIdx` and
`queueIdx`. -/
def Pool.init (n siblingIdx queueIdx : ℕ) : Pool n where
  tasks _ := Fifo.empty
  alive _ := true
  worker _ := .top
  owner := .calls
  siblingIdx := siblingIdx
  queueIdx := queueIdx
  posts := []
  executed := []

/-- Worker `i` moves to `w`. -/
def Pool.setWorker (s : Pool n) (i : Fin n) (w : Worker n) : Pool n :=
  { s with worker := Function.update s.worker i w }

/-- The deque of queue `i` becomes `q`. -/
def Pool.setTasks (s : Pool n) (i : Fin n) (q : Fifo Task) : Pool n :=
  { s with tasks := Function.update s.tasks i q }

/-- `std::invoke( t )` returns. -/
def Pool.invoke (s : Pool n) (f : Callable) : Pool n :=
  { s with executed := s.executed ++ f.id?.toList }

/-- `Queue::done()` on queue `i`. -/
def Pool.done (s : Pool n) (i : Fin n) : Pool n := s.setTasks i ((s.tasks i).push makePoisonPill)

/-- `Queue::enqueue( f )` on queue `i`, where `f` is the callable of the current `post`. -/
def Pool.enqueue (s : Pool n) (i : Fin n) : Pool n :=
  { s.setTasks i ((s.tasks i).push (makeTask (.work s.posts.length))) with
    posts := s.posts ++ [i] }

/-! ## 3. The steps -/

/-- The label of a step: which party moves, and what the owner calls. -/
inductive Act (n : ℕ)
  /-- The owner calls `post( f )`; `draw` is the value of `dist( eng )`. -/
  | post (draw : ℕ)
  /-- The owner calls `join()`. -/
  | join
  /-- The destructor `~Pool` begins, with its call of `join()`. -/
  | close
  /-- The owner takes the next step of the loop of `join()`. -/
  | next
  /-- `~Queue` of queue `i` sees its worker's thread end, and the queue is gone. -/
  | destroy (i : Fin n)
  /-- Worker `i` takes its next step. -/
  | work (i : Fin n)

/-- `Pool::post( f )`. -/
def Pool.post (strategy : WorkDistStrategy) (s : Pool n) (draw : ℕ) : Option (Pool n) :=
  if n = 0 then some s
  else if h : (chooseQueue strategy draw s.queueIdx n).1 < n then
    some { s.enqueue ⟨_, h⟩ with queueIdx := (chooseQueue strategy draw s.queueIdx n).2 }
  else none

/-- The next step of the loop of `Pool::join()`: `done()` on the next queue, or the return. -/
def Pool.joinNext (s : Pool n) : Option (Pool n) :=
  match s.owner with
  | .joining k closing =>
    if h : k < n then some { s.done ⟨k, h⟩ with owner := .joining (k + 1) closing }
    else some { s with owner := if closing then .destroying else .calls }
  | _ => none

/-- `tryPopFront()` on queue `p` by worker `i`, which goes on as `got t` with a task and as
`miss` without. -/
def Pool.tryPopFront (s : Pool n) (i p : Fin n) (got : Task → Worker n) (miss : Worker n) :
    Option (Pool n) :=
  if s.alive p then
    match (s.tasks p).pop? with
    | some (t, q) => some ((s.setTasks p q).setWorker i (got t))
    | none => some (s.setWorker i miss)
  else none

/-- The next step of worker `i`, the loop of `Queue::initialize()`. -/
def Pool.workNext (s : Pool n) (i : Fin n) : Option (Pool n) :=
  match s.worker i with
  | .top => s.tryPopFront i i .got .empty
  | .got t =>
    if t.status = .PoisonPill then some (s.setWorker i .exited)
    else some ((s.invoke t.fn).setWorker i .top)
  | .empty =>
    match chooseSibling .LookNext 0 s.siblingIdx (siblings n i) with
    | .nullopt => some (s.setWorker i .top)
    | .sibling p idx => some { s.setWorker i (.steal p) with siblingIdx := idx }
    | .outOfBounds => none
  | .steal p => s.tryPopFront i p .stole .top
  | .stole t =>
    if t.status ≠ .PoisonPill then some ((s.invoke t.fn).setWorker i .top)
    else some (s.setWorker i .top)
  | .exited => none

/-- One step of the pool. -/
def Pool.step (strategy : WorkDistStrategy) (s : Pool n) : Act n → Option (Pool n)
  | .post draw => if s.owner = .calls then s.post strategy draw else none
  | .join => if s.owner = .calls then some { s with owner := .joining 0 false } else none
  | .close => if s.owner = .calls then some { s with owner := .joining 0 true } else none
  | .next => s.joinNext
  | .destroy i =>
    if s.owner = .destroying ∧ s.worker i = .exited ∧ s.alive i = true then
      some { s with alive := Function.update s.alive i false }
    else none
  | .work i => s.workNext i

/-- The step relation of a pool whose work is distributed at random. -/
abbrev PoolStep : Pool n → Act n → Pool n → Prop := Fires (Pool.step .Random)

/-! ## 4. What a step can do -/

/-- The cases of a step, one for each operation of a party. -/
inductive StepCase (s : Pool n) : Act n → Pool n → Prop
  | post {draw idx : ℕ} (i : Fin n) (howner : s.owner = .calls) :
      StepCase s (.post draw) { s.enqueue i with queueIdx := idx }
  | postNone {draw : ℕ} (hn : n = 0) : StepCase s (.post draw) s
  | join (howner : s.owner = .calls) : StepCase s .join { s with owner := .joining 0 false }
  | close (howner : s.owner = .calls) : StepCase s .close { s with owner := .joining 0 true }
  | done {k : ℕ} {closing : Bool} (howner : s.owner = .joining k closing) (hk : k < n) :
      StepCase s .next { s.done ⟨k, hk⟩ with owner := .joining (k + 1) closing }
  | joined {k : ℕ} {closing : Bool} (howner : s.owner = .joining k closing) (hk : ¬ k < n) :
      StepCase s .next { s with owner := if closing then .destroying else .calls }
  | destroy {i : Fin n} (howner : s.owner = .destroying) (hexit : s.worker i = .exited)
      (halive : s.alive i = true) :
      StepCase s (.destroy i) { s with alive := Function.update s.alive i false }
  | popOwn {i : Fin n} {t : Task} {q : Fifo Task} (hw : s.worker i = .top)
      (halive : s.alive i = true) (hpop : (s.tasks i).pop? = some (t, q)) :
      StepCase s (.work i) ((s.setTasks i q).setWorker i (.got t))
  | popOwnNone {i : Fin n} (hw : s.worker i = .top) (halive : s.alive i = true)
      (hpop : (s.tasks i).pop? = none) : StepCase s (.work i) (s.setWorker i .empty)
  | exit {i : Fin n} {t : Task} (hw : s.worker i = .got t) (ht : t.status = .PoisonPill) :
      StepCase s (.work i) (s.setWorker i .exited)
  | runOwn {i : Fin n} {t : Task} (hw : s.worker i = .got t) (ht : t.status = .Normal) :
      StepCase s (.work i) ((s.invoke t.fn).setWorker i .top)
  | chooseNone {i : Fin n} (hw : s.worker i = .empty) (hsib : siblings n i = []) :
      StepCase s (.work i) (s.setWorker i .top)
  | choose {i p : Fin n} (hw : s.worker i = .empty) (hp : (siblings n i)[s.siblingIdx]? = some p) :
      StepCase s (.work i)
        { s.setWorker i (.steal p) with
          siblingIdx := (s.siblingIdx + 1) % (siblings n i).length }
  | popSibling {i p : Fin n} {t : Task} {q : Fifo Task} (hw : s.worker i = .steal p)
      (halive : s.alive p = true) (hpop : (s.tasks p).pop? = some (t, q)) :
      StepCase s (.work i) ((s.setTasks p q).setWorker i (.stole t))
  | popSiblingNone {i p : Fin n} (hw : s.worker i = .steal p) (halive : s.alive p = true)
      (hpop : (s.tasks p).pop? = none) : StepCase s (.work i) (s.setWorker i .top)
  | runStolen {i : Fin n} {t : Task} (hw : s.worker i = .stole t) (ht : t.status = .Normal) :
      StepCase s (.work i) ((s.invoke t.fn).setWorker i .top)
  | dropStolen {i : Fin n} {t : Task} (hw : s.worker i = .stole t)
      (ht : t.status = .PoisonPill) : StepCase s (.work i) (s.setWorker i .top)

/-- What `tryPopFront` does: the queue is alive, and the front is taken or there is none. -/
theorem tryPopFront_cases {s s' : Pool n} {i p : Fin n} {got : Task → Worker n}
    {miss : Worker n} (h : s.tryPopFront i p got miss = some s') :
    s.alive p = true ∧
      ((∃ t q, (s.tasks p).pop? = some (t, q) ∧ s' = (s.setTasks p q).setWorker i (got t)) ∨
        ((s.tasks p).pop? = none ∧ s' = s.setWorker i miss)) := by
  unfold Pool.tryPopFront at h
  split at h
  · rename_i halive
    refine ⟨halive, ?_⟩
    split at h
    · rename_i t q hpop
      exact Or.inl ⟨t, q, hpop, (Option.some.inj h).symm⟩
    · rename_i hpop
      exact Or.inr ⟨hpop, (Option.some.inj h).symm⟩
  · exact absurd h (by simp)

/-- What `LookNext` does: no sibling, or the one under the cursor, which moves on. -/
theorem chooseSibling_cases (l : List α) (draw idx : ℕ) :
    (chooseSibling .LookNext draw idx l = .nullopt ∧ l = []) ∨
      (∃ p, chooseSibling .LookNext draw idx l = .sibling p ((idx + 1) % l.length) ∧
        l[idx]? = some p) ∨
      (chooseSibling .LookNext draw idx l = .outOfBounds ∧ l ≠ [] ∧ l[idx]? = none) := by
  unfold chooseSibling
  by_cases hl : l = []
  · exact Or.inl ⟨if_pos hl, hl⟩
  · rw [if_neg hl]
    cases hp : l[idx]? with
    | some p => exact Or.inr (Or.inl ⟨p, by simp [readSibling, hp], rfl⟩)
    | none => exact Or.inr (Or.inr ⟨by simp [readSibling, hp], hl, rfl⟩)

theorem status_ne_pill_iff {t : Task} : t.status ≠ .PoisonPill ↔ t.status = .Normal := by
  cases t.status <;> simp

/-- **Every step of a worker is one of the cases.** -/
theorem stepCase_of_workNext {s s' : Pool n} {i : Fin n} (h : s.workNext i = some s') :
    StepCase s (.work i) s' := by
  unfold Pool.workNext at h
  split at h
  · rename_i hw
    obtain ⟨halive, ⟨t, q, hpop, rfl⟩ | ⟨hpop, rfl⟩⟩ := tryPopFront_cases h
    · exact .popOwn hw halive hpop
    · exact .popOwnNone hw halive hpop
  · rename_i t hw
    split at h
    · rename_i ht
      obtain rfl := Option.some.inj h
      exact .exit hw ht
    · rename_i ht
      obtain rfl := Option.some.inj h
      exact .runOwn hw (status_ne_pill_iff.mp ht)
  · rename_i hw
    rcases chooseSibling_cases (siblings n i) 0 s.siblingIdx with
      ⟨hc, hsib⟩ | ⟨p, hc, hp⟩ | ⟨hc, -, -⟩
    · rw [hc] at h
      obtain rfl := Option.some.inj h
      exact .chooseNone hw hsib
    · rw [hc] at h
      obtain rfl := Option.some.inj h
      exact .choose hw hp
    · rw [hc] at h
      exact absurd h (by simp)
  · rename_i p hw
    obtain ⟨halive, ⟨t, q, hpop, rfl⟩ | ⟨hpop, rfl⟩⟩ := tryPopFront_cases h
    · exact .popSibling hw halive hpop
    · exact .popSiblingNone hw halive hpop
  · rename_i t hw
    split at h
    · rename_i ht
      obtain rfl := Option.some.inj h
      exact .runStolen hw (status_ne_pill_iff.mp ht)
    · rename_i ht
      obtain rfl := Option.some.inj h
      exact .dropStolen hw (not_not.mp ht)
  · exact absurd h (by simp)

/-- **Every step of the pool is one of the cases.** -/
theorem stepCase_of_step {strategy : WorkDistStrategy} {s s' : Pool n} {a : Act n}
    (h : s.step strategy a = some s') : StepCase s a s' := by
  cases a with
  | post draw =>
    simp only [Pool.step] at h
    split at h
    · rename_i howner
      unfold Pool.post at h
      split at h
      · rename_i hn
        obtain rfl := Option.some.inj h
        exact .postNone hn
      · split at h
        · obtain rfl := Option.some.inj h
          exact .post _ howner
        · exact absurd h (by simp)
    · exact absurd h (by simp)
  | join =>
    simp only [Pool.step] at h
    split at h
    · rename_i howner
      obtain rfl := Option.some.inj h
      exact .join howner
    · exact absurd h (by simp)
  | close =>
    simp only [Pool.step] at h
    split at h
    · rename_i howner
      obtain rfl := Option.some.inj h
      exact .close howner
    · exact absurd h (by simp)
  | next =>
    simp only [Pool.step] at h
    unfold Pool.joinNext at h
    split at h
    · rename_i k closing howner
      split at h
      · rename_i hk
        obtain rfl := Option.some.inj h
        exact .done howner hk
      · rename_i hk
        obtain rfl := Option.some.inj h
        exact .joined howner hk
    · exact absurd h (by simp)
  | destroy i =>
    simp only [Pool.step] at h
    split at h
    · rename_i hc
      obtain rfl := Option.some.inj h
      exact .destroy hc.1 hc.2.1 hc.2.2
    · exact absurd h (by simp)
  | work i => exact stepCase_of_workNext h

/-! ## 5. What a step does to one party -/

section Party

variable {s s' : Pool n} {a : Act n}

/-- A worker moves in its own steps only. -/
theorem worker_of_ne (h : StepCase s a s') {j : Fin n} (hj : a ≠ .work j) :
    s'.worker j = s.worker j := by
  have hne : ∀ {i : Fin n}, a = .work i → j ≠ i := fun ha hji => hj (hji ▸ ha)
  cases h with
  | popOwn => exact Function.update_of_ne (hne rfl) _ _
  | popOwnNone => exact Function.update_of_ne (hne rfl) _ _
  | exit => exact Function.update_of_ne (hne rfl) _ _
  | runOwn => exact Function.update_of_ne (hne rfl) _ _
  | chooseNone => exact Function.update_of_ne (hne rfl) _ _
  | choose => exact Function.update_of_ne (hne rfl) _ _
  | popSibling => exact Function.update_of_ne (hne rfl) _ _
  | popSiblingNone => exact Function.update_of_ne (hne rfl) _ _
  | runStolen => exact Function.update_of_ne (hne rfl) _ _
  | dropStolen => exact Function.update_of_ne (hne rfl) _ _
  | _ => rfl

/-- **What a step does to one queue**: nothing, a push by the owner, or a pop, by the queue's own
worker or by a thief. -/
theorem tasks_cases (h : StepCase s a s') (j : Fin n) :
    s'.tasks j = s.tasks j ∨
    (s.owner ≠ .destroying ∧ ∃ t, s'.tasks j = (s.tasks j).push t) ∨
    ∃ i t, a = .work i ∧ (s.tasks j).pop? = some (t, s'.tasks j) ∧
      ((i = j ∧ s.worker i = .top ∧ s'.worker i = .got t) ∨
        (s.worker i = .steal j ∧ s'.worker i = .stole t)) := by
  have hpush : ∀ (i : Fin n) (t : Task),
      (s.setTasks i ((s.tasks i).push t)).tasks j = s.tasks j ∨
        ∃ u, (s.setTasks i ((s.tasks i).push t)).tasks j = (s.tasks j).push u := by
    intro i t
    by_cases hji : j = i
    · subst hji
      exact Or.inr ⟨t, Function.update_self _ _ _⟩
    · exact Or.inl (Function.update_of_ne hji _ _)
  cases h with
  | post i howner =>
    exact (hpush i (makeTask (.work s.posts.length))).imp_right fun ht =>
      Or.inl ⟨by simp [howner], ht⟩
  | done howner hk =>
    exact (hpush ⟨_, hk⟩ makePoisonPill).imp_right fun ht => Or.inl ⟨by simp [howner], ht⟩
  | @popOwn i t q hw _ hpop =>
    by_cases hji : j = i
    · subst hji
      refine Or.inr (Or.inr ⟨j, t, rfl, ?_, Or.inl ⟨rfl, hw, Function.update_self _ _ _⟩⟩)
      exact hpop.trans (by simp [Pool.setWorker, Pool.setTasks])
    · exact Or.inl (Function.update_of_ne hji _ _)
  | @popSibling i p t q hw _ hpop =>
    by_cases hjp : j = p
    · subst hjp
      refine Or.inr (Or.inr ⟨i, t, rfl, ?_, Or.inr ⟨hw, Function.update_self _ _ _⟩⟩)
      exact hpop.trans (by simp [Pool.setWorker, Pool.setTasks])
    · exact Or.inl (Function.update_of_ne hjp _ _)
  | _ => exact Or.inl rfl

end Party

end CxxConcurrency.TaskSystem.Stealing
