import VampireOS.Lib.Loop
import VampireOS.Lib.Fiber
import VampireOS.Lib.RefTable
import VampireOS.Lib.Radix
import VampireOS.Memory.Runs
import VampireOS.Memory.Lost
import VampireOS.Memory.Leaks
import VampireOS.Memory.Undo
import VampireOS.Memory.Alloc
import VampireOS.Memory.Usable
import VampireOS.Memory.Walk
import VampireOS.Memory.Reclaim
import VampireOS.Lib.Triple
import VampireOS.Sched.Syscall
import VampireOS.Fs.Ops
import VampireOS.Sched.Fork
import VampireOS.Sched.Signals
import VampireOS.Sched.Refs
import VampireOS.Sched.Halts
import VampireOS.Sched.Return
import VampireOS.Sched.Cwds
import VampireOS.Sched.Waits
import VampireOS.Fs.Partition
import VampireOS.Fs.Cells
import VampireOS.Fs.Tree
import VampireOS.Fs.Denote
import VampireOS.Fs.Scan
import VampireOS.Fs.Chains
import VampireOS.Fs.Transfers
import VampireOS.Drivers.Virtio
import VampireOS.Memory.Hhdm
import VampireOS.Memory.Kheap
import VampireOS.Memory.Elf
import VampireOS.Drivers.Console
import VampireOS.Drivers.Rtc
import VampireOS.Drivers.Dispatch
import VampireOS.Drivers.Framebuffer
import VampireOS.Sched.Pipeline
import VampireOS.User.Wiring
import VampireOS.User.Jobs
import VampireOS.User.Malloc
import VampireOS.User.Printf
import VampireOS.User.Redir
import VampireOS.Fs.Names
import VampireOS.Drivers.Dollar
import VampireOS.Sched.Descriptors
import VampireOS.Sched.Mmap
import VampireOS.Sched.Brk
import VampireOS.Sched.RoundRobin
import VampireOS.Sched.Argv
import VampireOS.Sched.Exec
import VampireOS.Sched.Run
import VampireOS.Fs.Slots
import VampireOS.Fs.LongName
import VampireOS.Fs.Wellformed
import VampireOS.Fs.Mirror
import VampireOS.Fs.Edit
import VampireOS.Fs.Pages
import VampireOS.Fs.Stands
import VampireOS.Fs.Steps
import VampireOS.Fs.Frame
import VampireOS.Fs.Writes
import VampireOS.Fs.Truncate
import VampireOS.Fs.Room
import VampireOS.Fs.Create
import VampireOS.Fs.Remove
import VampireOS.Fs.Mkdir
import VampireOS.Fs.Paths
import VampireOS.Fs.Listed
import VampireOS.Fs.Reads
import VampireOS.Fs.Calls
import VampireOS.Fs.Answers
import VampireOS.Fs.Runs
import VampireOS.Fs.Readback
import VampireOS.Sched.Untouched
import VampireOS.Drivers.Vga
import VampireOS.Drivers.Display
import VampireOS.Drivers.Keys
