import Empool.Lib.Run
import Empool.Lib.Update
import Empool.Scaling.State
import Empool.Scaling.Step
import Empool.Scaling.Frame
import Empool.Scaling.Finish
import Empool.Lib.Count
import Empool.Scaling.Books
import Empool.Scaling.Backlog
import Empool.Scaling.Core
import Empool.Scaling.Deadlock
import Empool.Scaling.Complete
import Empool.Scaling.Quiet
import Empool.Scaling.Reach
import Empool.Scaling.Fixed
import Empool.Lib.Ledger
import Empool.Scaling.Tasks
import Empool.Lib.Heap
import Empool.Lib.HeapPath
import Empool.Single.Queue
import Empool.Single.Fifo
import Empool.Single.Lifo
import Empool.Barrier.Await
import Empool.Barrier.Count
import Empool.Barrier.Trip
import Empool.Single.Threads
import Empool.Single.Closing
import Empool.Single.Release
import Empool.Task.Base
import Empool.Task.Wait
import Empool.Task.Runner
import Empool.Timer.Queue
import Empool.Timer.State
import Empool.Timer.Step
import Empool.Timer.Trans
import Empool.Timer.Closing
import Empool.Timer.Admission
import Empool.Timer.Order
import Empool.Timer.Sleep
import Empool.Timer.Stop
import Empool.Timer.Cancel
import Empool.Timer.Wait
import Empool.Lib.Gate
import Empool.Accept
import Empool.Scaling.Ends
import Empool.Lib.Mutex
import Empool.Queue.Blocking
import Empool.Queue.WakeUp
import Empool.Queue.GiveUp
import Empool.Thread.Closeable
import Empool.Thread.Close
import Empool.Scaling.Cancel
import Empool.Cancel
import Empool.Lib.History
import Empool.Timer.Timeline
import Empool.Timer.Early
import Empool.Timer.Cycle
import Empool.Thread.Release
import Empool.Lib.RoundRobin
import Empool.Scaling.Asleep
import Empool.Thread.Handle
import Empool.Timer.Spread
import Empool.Lib.Checked
import Empool.Timer.Clock
import Empool.Lib.Latch
import Empool.Once
import Empool.Task.Future
import Empool.Scaling.Iteration
import Empool.Lib.Simulation
import Empool.Lib.Atomic
import Empool.Queue.Linear
import Empool.Lib.Fair
import Empool.Queue.Progress
import Empool.Single.Terminate
import Empool.Lib.HeapWeak
import Empool.Lib.Server
import Empool.Single.Serve
import Empool.Scaling.Guard
import Empool.Scaling.Progress
import Empool.Scaling.Terminate
import Empool.Scaling.Served
import Empool.Scaling.Parallel
import Empool.Scaling.Silent
import Empool.Scaling.Reply
import Empool.Timer.Due
import Empool.Timer.Terminate
import Empool.Timer.Reply
import Empool.Barrier.Progress
