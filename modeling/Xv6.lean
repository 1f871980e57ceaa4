import Xv6.Disk.Blocks
import Xv6.Disk.Drain
import Xv6.Disk.Failure
import Xv6.Disk.Fcfs
import Xv6.Disk.History
import Xv6.Disk.Latency
import Xv6.Disk.NoLoss
import Xv6.Disk.VirtioSafety
import Xv6.Family.Reap
import Xv6.Locks.Pipe
import Xv6.Mem.Boot
import Xv6.Mem.Duplicate
import Xv6.Mem.Fault
import Xv6.Mem.Frames
import Xv6.Mem.OutOfMemory
import Xv6.Mem.ResidentPages
import Xv6.Mem.Slots
import Xv6.Mem.Strings
import Xv6.Pa2.Rotation
import Xv6.Pa2.Slice
import Xv6.Pa3.Failure
import Xv6.Pa3.Fork
import Xv6.Pa4.DiskStats
import Xv6.Pa4.Kalloc
import Xv6.Sched.Boost
import Xv6.Sched.Dispatch
import Xv6.Sched.Stats
import Xv6.Sched.Trace
import Xv6.Swap.Window
import Xv6.Fs.FileRuns
import Xv6.Fs.Coherence
import Xv6.Fs.LogSpace
