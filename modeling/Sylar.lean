import Sylar.Lib.OrderedSet
import Sylar.Lib.HashSet
import Sylar.Lib.Transition
import Sylar.Lib.Census
import Sylar.Lib.Refine
import Sylar.Lib.Line
import Sylar.Lib.Variant
import Sylar.Lib.Locking
import Sylar.Lib.Linear
import Sylar.Lib.Critical
import Sylar.Fd.FdManager
import Sylar.Fd.Publish
import Sylar.Fd.Concurrent
import Sylar.IO.Effect
import Sylar.IO.IOManager
import Sylar.IO.Bookkeeping
import Sylar.IO.Ledger
import Sylar.IO.ContextTable
import Sylar.Scheduler.Current
import Sylar.Scheduler.Run
import Sylar.Scheduler.Exclusive
import Sylar.Scheduler.Suspend
import Sylar.Scheduler.Terminal
import Sylar.Scheduler.Ready
import Sylar.Scheduler.Order
import Sylar.Timers.TimeManager
import Sylar.Timers.TimerSet
import Sylar.Timers.Firing
import Sylar.Timers.Deadline
import Sylar.Timers.Notify
import Sylar.Timers.Expiry
import Sylar.Timers.Rollback
import Sylar.Timers.Restart
import Sylar.Timers.Pending
import Sylar.Timers.Service
import Sylar.Timers.Concurrent
import Sylar.Worker.Pool
import Sylar.Worker.Wakeup
import Sylar.Worker.Stopping
import Sylar.Worker.Plain
import Sylar.Worker.Leaving
import Sylar.Worker.Stop
import Sylar.Worker.Poll
import Sylar.Worker.Termination
import Sylar.Hook.Enable
import Sylar.Hook.Wait
import Sylar.Hook.Connect
import Sylar.Hook.DoIo
import Sylar.Hook.Calls
import Sylar.Hook.Nonblock
import Sylar.Hook.Reuse
import Sylar.Hook.Close
import Sylar.Hook.Duration
import Sylar.Hook.Emulate
import Sylar.Config.Load
import Sylar.Config.Lookup
import Sylar.Config.Cast
import Sylar.Config.Setters
import Sylar.Config.Process
import Sylar.Config.Mirror
import Sylar.Log.Formatter
import Sylar.Log.Pattern
import Sylar.Log.Define
import Sylar.Log.Logger
import Sylar.Log.Inherit
import Sylar.Log.Reload
import Sylar.Log.Route
import Sylar.Log.Managing
import Sylar.Log.Configured
import Sylar.Log.Dump
import Sylar.Log.Notice
import Sylar.Log.Output
import Sylar.Log.Escape
import Sylar.Threads.Current
import Sylar.Wake.Recycle
import Sylar.Wake.Pin
import Sylar.Sync.Locks
