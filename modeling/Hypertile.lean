import Hypertile.Machine.Basic
import Hypertile.Machine.Threads
import Hypertile.Task.Cell
import Hypertile.Task.Steps
import Hypertile.Task.Ownership
import Hypertile.Task.Outcome
import Hypertile.Task.Wake
import Hypertile.Task.Handles
import Hypertile.Task.Unwind
import Hypertile.Pool.Core
import Hypertile.Pool.Steps
import Hypertile.Pool.Conservation
import Hypertile.Pool.Guards
import Hypertile.Pool.Registered
import Hypertile.Pool.Home
import Hypertile.Park.Core
import Hypertile.Park.Wakeup
import Hypertile.Completion.Core
import Hypertile.Completion.Drain
import Hypertile.Batch.Chunks
import Hypertile.Batch.Core
import Hypertile.Batch.Results
import Hypertile.Completion.ExactlyOnce
import Hypertile.CApi.Batch
import Hypertile.CApi.Barrier
import Hypertile.CApi.Task
import Hypertile.CApi.Wait
import Hypertile.Pool.RunLoop
import Hypertile.Pool.Shutdown
import Hypertile.CApi.Nested
import Hypertile.CApi.Deadlock
import Hypertile.Coroutine.Core
import Hypertile.Coroutine.Once
import Hypertile.Coroutine.Gil
import Hypertile.Await.Retrieve
import Hypertile.Await.Loop
import Hypertile.Await.Resolve
import Hypertile.Asyncio.Executor
import Hypertile.Asyncio.Shutdown
import Hypertile.Asyncio.Cancel
import Hypertile.Timer.Driver
import Hypertile.Timer.Loop
import Hypertile.Timer.Sleep
import Hypertile.Registry.Core
import Hypertile.Registry.Consistent
import Hypertile.Global.Workers
import Hypertile.Global.Runtime
import Hypertile.Global.Agreement
import Hypertile.CApi.Worker
import Hypertile.Pool.Affinity
import Hypertile.Coroutine.Resume
import Hypertile.Task.Reentry
import Hypertile.Completion.Adapter
import Hypertile.Pool.Idle
import Hypertile.Pool.Starvation
import Hypertile.Machine.Ends
import Hypertile.Park.Steps
import Hypertile.Park.Measure
import Hypertile.Park.Rest
import Hypertile.Stop.Core
import Hypertile.Stop.Wake
import Hypertile.Stop.Join
import Hypertile.Stop.End
import Hypertile.System.Core
import Hypertile.System.Cells
import Hypertile.System.Steps
import Hypertile.System.Polls
import Hypertile.System.Waits
import Hypertile.System.Rest
import Hypertile.Timer.Rest
import Hypertile.Native.Words
import Hypertile.Native.Pipeline
import Hypertile.Pool.Random
import Hypertile.Coroutine.Rest
import Hypertile.Coroutine.Level1
