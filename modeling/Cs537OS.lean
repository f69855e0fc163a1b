import Cs537OS.Foundation.GuardedLoop
import Cs537OS.Fsck.Check
import Cs537OS.Fsck.Contents
import Cs537OS.Fsck.ScanOrder
import Cs537OS.Fsck.Tables
import Cs537OS.Fsck.Accepted
import Cs537OS.Foundation.MarkedClimb
import Cs537OS.Fsck.Walk
import Cs537OS.Fsck.DirectoryTree
import Cs537OS.Fsck.Blocks
import Cs537OS.Fsck.Bitmap
import Cs537OS.Fsck.Bounds
import Cs537OS.Foundation.OwnerForest
import Cs537OS.Foundation.Transitions
import Cs537OS.Threads.Proc
import Cs537OS.Threads.Forest
import Cs537OS.Threads.Reaping
import Cs537OS.Threads.AddressSpace
import Cs537OS.StackReloc.Guard
import Cs537OS.Mlfq.Proc
import Cs537OS.Mlfq.Scheduler
import Cs537OS.Mlfq.Priority
import Cs537OS.Mlfq.Bookkeeping
import Cs537OS.Mlfq.Quantum
import Cs537OS.Mlfq.Accounting
import Cs537OS.StackReloc.Exec
import Cs537OS.StackReloc.NullGuard
import Cs537OS.Threads.Sizes
import Cs537OS.Threads.History
import Cs537OS.Threads.Family
import Cs537OS.Threads.Joining
import Cs537OS.Foundation.RingBuffer
import Cs537OS.Threads.CondVar
import Cs537OS.Foundation.SpinFlag
import Cs537OS.Threads.CondQueue
import Cs537OS.Threads.Signals
import Cs537OS.Foundation.Patches
import Cs537OS.Fsck.Repair
import Cs537OS.Fsck.DirBlocks
import Cs537OS.Fsck.Survey
import Cs537OS.Fsck.Relink
import Cs537OS.Fsck.RepairFrame
import Cs537OS.Fsck.RepairResult
import Cs537OS.Fsck.Format
import Cs537OS.Fsck.LostSet
import Cs537OS.Fsck.Ranges
import Cs537OS.Foundation.Monitor
import Cs537OS.StackReloc.Argptr
import Cs537OS.ThreadPool.Server
import Cs537OS.ThreadPool.Queue
import Cs537OS.ThreadPool.Wakeups
import Cs537OS.SharedMemory.Page
import Cs537OS.SharedMemory.Client
import Cs537OS.SharedMemory.Ownership
import Cs537OS.SharedMemory.Slots
import Cs537OS.Foundation.Operands
import Cs537OS.Mysh.Command
import Cs537OS.Mysh.Operators
import Cs537OS.Mysh.Parse
import Cs537OS.Foundation.Compaction
import Cs537OS.Mysh.Jobs
import Cs537OS.Mysh.JobTable
import Cs537OS.StackReloc.Elf
import Cs537OS.StackReloc.Loader
import Cs537OS.StackReloc.Image
import Cs537OS.StackReloc.Pushes
import Cs537OS.Foundation.TotalCorrectness
import Cs537OS.StackReloc.Segments
import Cs537OS.StackReloc.AllOrNothing
import Cs537OS.StackReloc.Frames
import Cs537OS.StackReloc.Fetch
import Cs537OS.StackReloc.Ram
import Cs537OS.StackReloc.Copy
import Cs537OS.StackReloc.Fork
import Cs537OS.Foundation.Agreement
import Cs537OS.Foundation.Paging
import Cs537OS.Xv6.Copyout
import Cs537OS.StackReloc.Contents
import Cs537OS.StackReloc.Caller
import Cs537OS.StackReloc.Arguments
import Cs537OS.Threads.Syscalls
import Cs537OS.Threads.CloneFailure
import Cs537OS.Threads.UserMemory
import Cs537OS.Threads.HeapLock
import Cs537OS.Threads.LockOwner
import Cs537OS.Threads.Panics
import Cs537OS.Threads.Waiters
import Cs537OS.Mlfq.Waiting
import Cs537OS.Mlfq.Inuse
import Cs537OS.Mlfq.FullTable
import Cs537OS.Mlfq.Getpinfo
import Cs537OS.Foundation.BothEnds
import Cs537OS.Shuffle.Program
import Cs537OS.Shuffle.Lines
import Cs537OS.Shuffle.Alternation
import Cs537OS.Shuffle.Bounds
import Cs537OS.Mysh.Unexecuted
import Cs537OS.Mysh.Lines
import Cs537OS.Mysh.WaitLoop
import Cs537OS.Threads.Tables
import Cs537OS.Threads.StackBlocks
import Cs537OS.Foundation.BoundedLines
import Cs537OS.SharedMemory.Signals
import Cs537OS.WebServer.Rio
import Cs537OS.WebServer.Headers
import Cs537OS.Foundation.Paths
import Cs537OS.WebServer.Uri
import Cs537OS.WebServer.Request
import Cs537OS.WebServer.Buffers
import Cs537OS.Pipes.Basic
import Cs537OS.Pipes.Lifetime
import Cs537OS.Pipes.Wakeups
import Cs537OS.FileSys.Blocks
import Cs537OS.FileSys.Cache
import Cs537OS.FileSys.Calls
import Cs537OS.FileSys.Runs
import Cs537OS.FileSys.Directory
import Cs537OS.FileSys.Elements
import Cs537OS.FileSys.Holding
import Cs537OS.FileSys.Paths
import Cs537OS.BufferCache.Basic
import Cs537OS.BufferCache.Coherence
import Cs537OS.BufferCache.Progress
import Cs537OS.FileSys.Linking
