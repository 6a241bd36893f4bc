import Seminars.Lib.RunLogic
import Seminars.Lib.Path
import Seminars.Lib.Linked
import Seminars.Lib.FootMem
import Seminars.Lib.CInt
import Seminars.Lib.Interleave
import Seminars.Lib.Fair
import Seminars.Lib.Slots
import Seminars.Lib.Ucontext
import Seminars.Dlmalloc.Memory
import Seminars.Dlmalloc.Code
import Seminars.Dlmalloc.Access
import Seminars.Dlmalloc.Layout
import Seminars.Dlmalloc.FreeList
import Seminars.Dlmalloc.Find
import Seminars.Dlmalloc.Spec
import Seminars.Dlmalloc.Run
import Seminars.Dlmalloc.Walk
import Seminars.Dlmalloc.Request
import Seminars.Dlmalloc.Invariant
import Seminars.Dlmalloc.Damage
import Seminars.Dlmalloc.Whole
import Seminars.Dlmalloc.FirstFit
import Seminars.Dlmalloc.NullSafe
import Seminars.Dlmalloc.Sanity
import Seminars.Dlmalloc.Exhausted
import Seminars.Dlmalloc.Reuse
import Seminars.Dlmalloc.Aligned
import Seminars.Dlmalloc.Bench
import Seminars.Dlmalloc.Merge
import Seminars.Dlmalloc.Merged
import Seminars.Dlmalloc.BenchMerged
import Seminars.Dlmalloc.Report
import Seminars.Lib.Fifo
import Seminars.Green.Code
import Seminars.Green.Abstract
import Seminars.Green.Queue
import Seminars.Green.Fifo
import Seminars.Green.Refine
import Seminars.Green.Run
import Seminars.Green.Partition
import Seminars.Green.CondWait
import Seminars.Green.Lock
import Seminars.Green.Fcfs
import Seminars.Green.Epilogue
import Seminars.Green.Overtake
import Seminars.Green.Mask
import Seminars.Green.Dry
import Seminars.Green.Deadlock
import Seminars.Green.Levels
import Seminars.Green.Joiners
import Seminars.Green.Delivery
import Seminars.Green.Program
import Seminars.Green.Team
import Seminars.Green.TestFinal
import Seminars.Green.Turns
import Seminars.Green.TestMutex
import Seminars.Green.TestMutexRun
import Seminars.Green.Client
import Seminars.Green.ClientRun
import Seminars.Locks.Peterson
import Seminars.Locks.Swap
import Seminars.Locks.PetersonFair
import Seminars.Locks.SwapFair
import Seminars.Mylloc.Code
import Seminars.Mylloc.Heap
import Seminars.Mylloc.Run
import Seminars.Mylloc.Growth
import Seminars.Mylloc.Bench
import Seminars.Swapping.Simulate
import Seminars.Contexts.Yield
