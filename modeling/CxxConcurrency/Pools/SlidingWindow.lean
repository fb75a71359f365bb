/-
# Both pools are sliding windows

`ThreadPool` and `FuturePool` differ in how a handle is used up and in when it enters the deque,
and do the same to the window.  What the window guarantees therefore holds of both: the bound on
the deque and on the unfinished works, the order of the works, and the works a call that has
returned leaves behind.
-/
import CxxConcurrency.Pools.FuturePool
import CxxConcurrency.Pools.ThreadPool

namespace CxxConcurrency.Pools

open CxxConcurrency.Lib

/-- **Both pools are sliding windows.**  In every state a run reaches, with works that return:

* the deque holds at most `m` handles, at most `m` started works are unfinished, and the works
  not yet joined are the ones started last, in the order of their start;
* a step that starts a work starts the next one, and the works `m` or more places before it have
  finished;
* when `join()` has returned, and when the pool has been destroyed, every work submitted has been
  started once, in the order of the calls, and has finished. -/
theorem pools_are_sliding_windows (m : ℕ) :
    (∀ as s, Run (Fires (ThreadPool.step m)) ThreadPool.init as s →
      s.handles.Sliding m ∧
      (∀ a s', s.step m a = some s' → Handles.StartsInTurn m s.handles s'.handles) ∧
      (∀ closing s', s.pc = .joinTest closing → s.step m .test = some s' →
        s'.pc ≠ .joinFront closing → s'.handles.AllDone s'.submitted) ∧
      (s.pc = .destroyed → s.handles.AllDone s.submitted)) ∧
    (∀ as s, Run (Fires (FuturePool.step m)) FuturePool.init as s → (∀ a ∈ as, a.Normal) →
      s.handles.Sliding m ∧
      (∀ a s', a.Normal → s.step m a = some s' →
        Handles.StartsInTurn m s.handles s'.handles) ∧
      (s.pc = .destroyed → s.handles.AllDone s.submitted)) := by
  constructor
  · intro as s hrun
    obtain ⟨w, hA⟩ := ThreadPool.Abs.run hrun
    refine ⟨hA.handles.sliding, ?_, ?_, hA.allDone_of_destroyed⟩
    · intro a s' hst
      exact hA.startsInTurn (ThreadPool.stepCase_of_step hst)
    · intro closing s' hpc hst hreturn
      cases ThreadPool.stepCase_of_step hst with
      | joined hpc' hempty => exact hA.allDone_of_joined hpc hempty
      | notEmpty hpc' hempty =>
        obtain rfl := ThreadPool.Pc.joinTest.inj (hpc.symm.trans hpc')
        exact absurd rfl hreturn
  · intro as s hrun has
    obtain ⟨w, hA⟩ := FuturePool.Abs.run hrun has
    refine ⟨hA.handles.sliding, ?_, hA.allDone_of_destroyed⟩
    intro a s' ha hst
    exact hA.startsInTurn ha (FuturePool.stepCase_of_step hst)

/-- Two works in a pool of one, of either class. -/
theorem pools_slide_two_works :
    (∃ s, Run (Fires (ThreadPool.step 1)) ThreadPool.init
        [.doWork, .emplaceBack, .doWork, .finish 0, .joinFront, .popFront, .emplaceBack, .destroy,
          .test, .finish 1, .joinFront, .popFront, .test] s ∧
      s.handles.AllDone 2) ∧
    (∃ s, Run (Fires (FuturePool.step 1)) FuturePool.init
        [.doWork, .async, .pushBack, .doWork, .finish 0 .normal, .get, .popFront, .async, .pushBack,
          .destroy, .test, .finish 1 .normal, .get, .popFront, .test] s ∧
      s.handles.AllDone 2) := by
  obtain ⟨hthread, hfuture⟩ := pools_are_sliding_windows 1
  constructor
  · obtain ⟨s, hrun, hpc, hsub⟩ := exists_run_of_exec (ThreadPool.step 1)
      ThreadPool.init
      [.doWork, .emplaceBack, .doWork, .finish 0, .joinFront, .popFront, .emplaceBack,
        .destroy, .test, .finish 1, .joinFront, .popFront, .test]
      (fun s => s.pc = .destroyed ∧ s.submitted = 2) (by decide)
    exact ⟨s, hrun, hsub ▸ (hthread _ s hrun).2.2.2 hpc⟩
  · obtain ⟨s, hrun, hpc, hsub⟩ := exists_run_of_exec (FuturePool.step 1)
      FuturePool.init
      [.doWork, .async, .pushBack, .doWork, .finish 0 .normal, .get, .popFront, .async,
        .pushBack, .destroy, .test, .finish 1 .normal, .get, .popFront, .test]
      (fun s => s.pc = .destroyed ∧ s.submitted = 2) (by decide)
    exact ⟨s, hrun, hsub ▸ (hfuture _ s hrun (by simp [FuturePool.Act.Normal])).2.2 hpc⟩

end CxxConcurrency.Pools
