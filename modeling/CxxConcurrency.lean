import CxxConcurrency.Lib.Run
import CxxConcurrency.Lib.Fifo
import CxxConcurrency.Lib.Lifo
import CxxConcurrency.Lib.Chain
import CxxConcurrency.Lib.Parties
import CxxConcurrency.Lib.Window
import CxxConcurrency.Lib.Monitor
import CxxConcurrency.Lib.GuardedQueue
import CxxConcurrency.Lib.Service
import CxxConcurrency.Lib.Barrier
import CxxConcurrency.Lib.ForkJoin
import CxxConcurrency.Lib.MonitorProgress
import CxxConcurrency.Lib.Programs
import CxxConcurrency.Lockfree.StackRefine
import CxxConcurrency.Lockfree.StackSize
import CxxConcurrency.Lockfree.Contention
import CxxConcurrency.Lockfree.EmptyPop
import CxxConcurrency.Lockfree.Counter
import CxxConcurrency.Lockfree.Alone
import CxxConcurrency.Lockfree.PushThenPop
import CxxConcurrency.Atomic.SpinLock
import CxxConcurrency.Atomic.PrintedTrace
import CxxConcurrency.Atomic.SpinProgress
import CxxConcurrency.Mutex.UseMutex
import CxxConcurrency.Pthread.Mutexing
import CxxConcurrency.Pthread.Barriers
import CxxConcurrency.Pthread.Rwlocks
import CxxConcurrency.Pthread.MutexingReturns
import CxxConcurrency.Rwlocks.Resource
import CxxConcurrency.Rwlocks.CallOnce
import CxxConcurrency.Rwlocks.OneInit
import CxxConcurrency.Rwlocks.ResourceTest
import CxxConcurrency.Tasks.AsyncEvents
import CxxConcurrency.Tasks.FuturePromise
import CxxConcurrency.Communication.SharedCounter
import CxxConcurrency.Communication.SharedDeque
import CxxConcurrency.Communication.ServerClients
import CxxConcurrency.Pools.SlidingWindow
import CxxConcurrency.Pools.FutureThrow
import CxxConcurrency.Pools.FutureDrain
import CxxConcurrency.Pools.EmptyFront
import CxxConcurrency.Pools.ThreadPoolGithub.Pool
import CxxConcurrency.Pools.ThreadPoolGithub.Invariant
import CxxConcurrency.Pools.ThreadPoolGithub.Refine
import CxxConcurrency.Pools.ThreadPoolGithub.Calls
import CxxConcurrency.Pools.ThreadPoolGithub.Wakeup
import CxxConcurrency.Pools.ThreadPoolGithub.Termination
import CxxConcurrency.Pools.Scope
import CxxConcurrency.Pools.Fib
import CxxConcurrency.TaskSystem.Task
import CxxConcurrency.TaskSystem.Stealing.Completion
import CxxConcurrency.TaskSystem.Stealing.Shutdown
import CxxConcurrency.TaskSystem.Stealing.Lifetime
import CxxConcurrency.TaskSystem.Stealing.Cursor
import CxxConcurrency.TaskSystem.LocalQueue
import CxxConcurrency.TaskSystem.MutexToQueue
import CxxConcurrency.TaskSystem.MutexStore
import CxxConcurrency.TaskSystem.Stealing.Distribution
import CxxConcurrency.TaskSystem.Stealing.LookNext
import CxxConcurrency.TaskSystem.Unwinding
import CxxConcurrency.TaskSystem.GuardedQueues
import CxxConcurrency.TaskSystem.Exclusion
import CxxConcurrency.TaskSystem.LocalTermination
import CxxConcurrency.TaskSystem.Stealing.Termination
import CxxConcurrency.TaskSystem.CallsReturn
