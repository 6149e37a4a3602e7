import TinyState.Lib.Machine
import TinyState.Lib.Lock
import TinyState.Lib.Coalescing
import TinyState.Lib.Temporal
import TinyState.Lib.RecursiveMutex
import TinyState.Lib.Relaxation
import TinyState.Lib.BoundedRun
import TinyState.Event
import TinyState.StateWord
import TinyState.Dispatch.Wakeup
import TinyState.Dispatch.Delivery
import TinyState.Pool.HandOff
import TinyState.Pool.Threads
import TinyState.Pool.Refio
import TinyState.Pool.Sizing
import TinyState.Parallel.Model
import TinyState.Parallel.Join
import TinyState.Parallel.Cascade
import TinyState.Parallel.CallList
import TinyState.Threads.LockDiscipline
import TinyState.Threads.RecursiveLock
import TinyState.Kill.Protocol
import TinyState.Listen.Notification
import TinyState.Gc.Stability
import TinyState.Gc.SmartPtr
import TinyState.Sync.Semaphore
import TinyState.Sync.LimitSemaphore
import TinyState.Sync.LimitWaitOrder
import TinyState.Sync.Mutex
import TinyState.Io.Registration
import TinyState.Io.Blocking
import TinyState.Io.Wakeup
import TinyState.Io.Timers
import TinyState.Io.STimer
import TinyState.Io.Lines
import TinyState.Process.Ts2System
import TinyState.Containers.Queue
import TinyState.Containers.QueueCopy
import TinyState.Containers.QueueSort
import TinyState.Containers.HalfOrderQueue
import TinyState.Containers.StringTree
import TinyState.Containers.PartialSearch
import TinyState.Containers.BalancedTree
import TinyState.Containers.TreeBalance
import TinyState.Containers.TreeWalk
import TinyState.Containers.TypedTree
import TinyState.Lib.RingIndex
import TinyState.Containers.ArrayQueue
import TinyState.Containers.ByteQueue
import TinyState.Js.Dispatcher
import TinyState.Js.Semaphore
import TinyState.Js.Interval
import TinyState.Js.Control
import TinyState.Js.EnvLock
import TinyState.Js.Fade
import TinyState.Js.RequestUri
import TinyState.Js.RequestLife
import TinyState.Js.CatchAbort
import TinyState.Lib.CallerReturns
import TinyState.Js.Para
import TinyState.Js.ParaForeach
import TinyState.Js.Marshaller
import TinyState.Lib.CircularList
import TinyState.Containers.DualQueue
import TinyState.Containers.ReverseLookup
import TinyState.Containers.HalfArray
import TinyState.Containers.StdString
import TinyState.Containers.StdStringRx
import TinyState.Containers.QueueString
import TinyState.Containers.QueueFilter
import TinyState.Io.TransferC
import TinyState.Containers.SArray
import TinyState.Containers.BufferCompare
import TinyState.Containers.BufferOptimize
import TinyState.Containers.BufferUnshift
import TinyState.Io.Now
import TinyState.Io.Endian
import TinyState.Lib.Saturation
import TinyState.Pages.Reference
import TinyState.Pages.Include
import TinyState.Generator.Line
import TinyState.Generator.InsertField
import TinyState.Generator.States
import TinyState.Link.Model
import TinyState.Link.Load
import TinyState.Link.Order
import TinyState.Js.Number
import TinyState.Js.Arithmetic
import TinyState.Js.PigMutex
import TinyState.Js.PigPath
import TinyState.Lib.Assoc
import TinyState.Object.Positions
import TinyState.Object.Ledger
import TinyState.Object.Descriptors
import TinyState.Lib.MutexRuns
import TinyState.Object.RefLock
import TinyState.Lib.Backtracking
import TinyState.Js.StripComments
import TinyState.Js.GtItem
import TinyState.Js.GtItemWrite
import TinyState.Js.GtTable
import TinyState.Js.GtTableMerge
import TinyState.Js.GtTableUpdate
import TinyState.Js.Polling
import TinyState.Js.TerminalQueue
import TinyState.Js.Sync
import TinyState.Escape.Delivery
