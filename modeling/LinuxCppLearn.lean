import LinuxCppLearn.Library.StepSystem
import LinuxCppLearn.Library.OptionLoop
import LinuxCppLearn.Library.FuelLoop
import LinuxCppLearn.Library.LinkedChain
import LinuxCppLearn.Library.LiveRegions
import LinuxCppLearn.Library.Counting
import LinuxCppLearn.Library.ByteMemory
import LinuxCppLearn.Library.Cells
import LinuxCppLearn.Library.FirstFit
import LinuxCppLearn.Library.Lockstep
import LinuxCppLearn.Library.OwnedOnce
import LinuxCppLearn.Library.Unwinding
import LinuxCppLearn.Library.WalkOrder
import LinuxCppLearn.Library.TimedQueue
import LinuxCppLearn.Library.ScopedLocks
import LinuxCppLearn.Library.Buffers
import LinuxCppLearn.ThreadPool.Model
import LinuxCppLearn.ThreadPool.Shutdown
import LinuxCppLearn.ThreadPool.HandOut
import LinuxCppLearn.ThreadPool.Wakeup
import LinuxCppLearn.ThreadPool.Sections
import LinuxCppLearn.ThreadPool.FailedAddTask
import LinuxCppLearn.ConnPool.Model
import LinuxCppLearn.ConnPool.Moves
import LinuxCppLearn.ConnPool.Limits
import LinuxCppLearn.ConnPool.Placement
import LinuxCppLearn.ConnPool.IdleOrder
import LinuxCppLearn.ConnPool.Connected
import LinuxCppLearn.ConnPool.Exceptions
import LinuxCppLearn.ConnPool.MysqlConn
import LinuxCppLearn.ConnPool.Rows
import LinuxCppLearn.ConnPool.Borrowers
import LinuxCppLearn.ConnPool.Teardown
import LinuxCppLearn.ConnPool.ProducerWakeup
import LinuxCppLearn.EchoServer.Model
import LinuxCppLearn.EchoServer.Isolation
import LinuxCppLearn.EchoServer.History
import LinuxCppLearn.EchoServer.Stream
import LinuxCppLearn.EchoServer.Session
import LinuxCppLearn.EchoServer.Served
import LinuxCppLearn.DeadlockCheck.Digraph
import LinuxCppLearn.DeadlockCheck.CycleSearch
import LinuxCppLearn.DeadlockCheck.Hooks
import LinuxCppLearn.DeadlockCheck.Interleaving
import LinuxCppLearn.DeadlockCheck.Ownership
import LinuxCppLearn.DeadlockCheck.Bounds
import LinuxCppLearn.DeadlockCheck.WaitFor
import LinuxCppLearn.DeadlockCheck.Verdicts
import LinuxCppLearn.DeadlockCheck.ConcurrentCheck
import LinuxCppLearn.DeadlockCheck.CheckMoments
import LinuxCppLearn.DeadlockCheck.Undisturbed
import LinuxCppLearn.DeadlockCheck.BuiltGraph
import LinuxCppLearn.DeadlockCheck.Structure
import LinuxCppLearn.DeadlockCheck.EdgeSet
import LinuxCppLearn.DeadlockCheck.FailedLocks
import LinuxCppLearn.DeadlockCheck.FirstReport
import LinuxCppLearn.DeadlockCheck.Waiters
import LinuxCppLearn.DeadlockCheck.Bookkeeping
import LinuxCppLearn.DeadlockCheck.FreshMemory
import LinuxCppLearn.DeadlockCheck.StackDiscipline
import LinuxCppLearn.LeakCheck.Model
import LinuxCppLearn.LeakCheck.Records
import LinuxCppLearn.LeakCheck.Threads
import LinuxCppLearn.LeakCheck.AfterDoubleFree
import LinuxCppLearn.LeakCheck.MacroHook
import LinuxCppLearn.SimpleString.Model
import LinuxCppLearn.SimpleString.Effects
import LinuxCppLearn.SimpleString.Refinement
import LinuxCppLearn.SimpleString.Assignment
import LinuxCppLearn.SimpleString.SizeRequests
import LinuxCppLearn.SimpleSharedPtr.Model
import LinuxCppLearn.SimpleSharedPtr.Counts
import LinuxCppLearn.SimpleSharedPtr.Nodes
import LinuxCppLearn.SimpleSharedPtr.NodesAlive
import LinuxCppLearn.MemPool.Model
import LinuxCppLearn.MemPool.Loops
import LinuxCppLearn.MemPool.Ledger
import LinuxCppLearn.MemPool.Changes
import LinuxCppLearn.MemPool.SmallRequests
import LinuxCppLearn.MemPool.Containment
import LinuxCppLearn.MemPool.Fuel
import LinuxCppLearn.MemPool.Balance
import LinuxCppLearn.MemPool.Bytes
import LinuxCppLearn.MemPool.Layout
import LinuxCppLearn.MemPool.Refinement
import LinuxCppLearn.MemPool.Simulation
import LinuxCppLearn.MemPool.CarveOrder
import LinuxCppLearn.MemPool.InUse
import LinuxCppLearn.MemPool.Contents
import LinuxCppLearn.MemPool.Writes
import LinuxCppLearn.MemPool.ClientData
import LinuxCppLearn.MemPool.AnySystem
import LinuxCppLearn.MemPool.Termination
import LinuxCppLearn.MemPool.Counters
import LinuxCppLearn.MemPool.Packing
import LinuxCppLearn.MemPool.Reuse
import LinuxCppLearn.MemPool.Twins
import LinuxCppLearn.MemPool.Window
import LinuxCppLearn.MemPool.FailedCalls
import LinuxCppLearn.Library.Quiescence
import LinuxCppLearn.ThreadPool.Progress
import LinuxCppLearn.Library.Circles
import LinuxCppLearn.DeadlockCheck.Programs
import LinuxCppLearn.DeadlockCheck.RingProgram
import LinuxCppLearn.MsgQueue.Model
import LinuxCppLearn.MsgQueue.Delivery
import LinuxCppLearn.MsgQueue.OnePair
import LinuxCppLearn.Library.X86
import LinuxCppLearn.Library.Signals
import LinuxCppLearn.Library.StackFrames
import LinuxCppLearn.Library.Calls
import LinuxCppLearn.StackFrame.Model
import LinuxCppLearn.StackFrame.Contracts
import LinuxCppLearn.ConnPool.Inserts
import LinuxCppLearn.Library.Lassos
import LinuxCppLearn.DeadlockCheck.PrintedLine
import LinuxCppLearn.DeadlockCheck.CheckerThread
import LinuxCppLearn.ProducerConsumer.Model
import LinuxCppLearn.ProducerConsumer.HandOver
import LinuxCppLearn.Library.BinLoads
import LinuxCppLearn.MemPool.Growth
