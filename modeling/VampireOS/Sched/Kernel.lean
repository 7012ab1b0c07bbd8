import VampireOS.Memory.Runs
import VampireOS.Fs.Ops

/-!
# The task and pipe tables (kernel/sched.c)

| here | there |
| --- | --- |
| `FdEntry`, `Pipe`, `Task` | `struct fd_entry`, `struct pipe`, `struct task` (sched.c:29-93) |
| `Frame` | the registers of `struct interrupt_frame` that `save_task` copies (sched.c:106) |
| `Kernel` | the tables of sched.c:95-100, the trap's frame, CR3, ticks, the console line, memory, files |
| `MemSys` | the calls sched.c and user.c make into pmm.c and vmm.c |

An index that the source keeps as an `int` with -1 for "none" is an `Option Nat`. The ring of a pipe is
kept with the pipe and not at `phys`: that page belongs to the pipe alone. Left out are the fields
only the screen shows (`row`, `writes`, `name`, `seen_status`, `shown_status`).

`mode` says where the processor is: in ring 3 with `frame`, in the loop of `idle_until_ready`, in the
`hlt` loop that ends `sched_exit`, in `kmain` before `user_enter`, or stopped by an exception.
-/

namespace VampireOS

/-! ## Constants (sched.c:12-27, sched.h:7-16) -/

def taskMax : Nat := 16
def fdMax : Nat := 8
def fdPathMax : Nat := 32
def cwdPathMax : Nat := 80
def pipeMax : Nat := 4
def pipeCap : Nat := 0x1000
def pipeMask : Nat := pipeCap - 1
def pipeMinPhys : Nat := 0x200000
def userCs : UInt64 := 0x2B
def userDs : UInt64 := 0x23
def pendTerm : UInt8 := 1
def pendInt : UInt8 := 2
def sigInt : Int := 2
def sigTerm : Int := 15

inductive TaskState where
  | dead | ready | sleep | wait | pipe | kbd
deriving DecidableEq, Repr

inductive FdKind where
  | none | file | pipeR | pipeW | consoleR | consoleW
deriving DecidableEq, Repr

def FdKind.isPipe : FdKind → Bool
  | .pipeR => true
  | .pipeW => true
  | _ => false

structure FdEntry where
  used : Bool
  kind : FdKind
  pipe : Option Nat
  offset : Nat
  path : List UInt8
deriving DecidableEq, Repr

/-- What `drop_fd` leaves. -/
def FdEntry.empty : FdEntry := ⟨false, .none, none, 0, []⟩

structure Pipe where
  used : Bool
  head : Nat
  len : Nat
  rrefs : Nat
  wrefs : Nat
  phys : Nat
  data : Nat → UInt8
  /-- History: the bytes accepted since the pipe was made. -/
  accepted : List UInt8
  /-- History: the bytes returned since the pipe was made. -/
  returned : List UInt8

def Pipe.unused : Pipe := ⟨false, 0, 0, 0, 0, 0, fun _ => 0, [], []⟩

structure Frame where
  rax : UInt64
  rbx : UInt64
  rcx : UInt64
  rdx : UInt64
  rdi : UInt64
  rsi : UInt64
  rbp : UInt64
  r8 : UInt64
  r9 : UInt64
  r10 : UInt64
  r11 : UInt64
  r12 : UInt64
  r13 : UInt64
  r14 : UInt64
  r15 : UInt64
  rip : UInt64
  cs : UInt64
  rflags : UInt64
  rsp : UInt64
  ss : UInt64
deriving DecidableEq, Repr

/-- The registers `sched_add_user` and `sched_reset_current` set up. -/
def Frame.start (rip rsp : UInt64) : Frame :=
  ⟨0, 0, 0, 0, 0, 0, 0, 0, 0, 0, 0, 0, 0, 0, 0, rip, userCs, 0x202, rsp, userDs⟩

structure Task where
  regs : Frame
  kstackTop : Nat
  userBase : Nat
  brk : Nat
  cr3 : Nat
  cwd : Nat
  cwdPath : Name
  parent : Option Nat
  waitPid : Nat
  state : TaskState
  wakeTick : UInt32
  cpuTicks : UInt32
  exitCode : UInt8
  reaped : Bool
  pending : UInt8
  handlerInt : UInt64
  handlerTerm : UInt64
  pipeWait : Option Nat
  fds : Nat → FdEntry

/-- A slot after `sched_init`. -/
def Task.init : Task :=
  ⟨.start 0 0, 0, 0, 0, 0, 0, [slash], none, 0, .dead, 0, 0, 0, false, 0, 0, 0, none, fun _ => .empty⟩

/-- History: a wait that completed with an exit code. -/
structure Report where
  /-- The task that called wait. -/
  waiter : Nat
  slot : Nat
  /-- The task that forked the reaped one. -/
  forkedBy : Option Nat
  /-- Which death it was. -/
  death : Nat
  code : UInt8
deriving DecidableEq, Repr

/-- History variables. Slots are reused, so a task is told from the earlier occupants of its slot by a
number of its own; deaths are numbered too. No function of the source reads them. -/
structure History where
  born : Nat
  uid : Nat → Nat
  forkedBy : Nat → Option Nat
  died : Nat
  death : Nat → Nat
  reports : List Report
  /-- New tasks that got a slot which some un-reaped slot still records as its parent. -/
  stale : Nat
  /-- Tasks that died while an un-reaped slot recorded them as its parent. -/
  orphaned : Nat
  /-- Exits after which, for what the state said before, nobody could go on though somebody was alive. -/
  deserted : Nat
  /-- The last call of the task in the slot was a wait, and no signal is about to end it. -/
  waiting : Nat → Bool
  /-- Handlers that a task entered out of a wait. -/
  caught : Nat
  /-- Tasks in a wait and with a signal pending that got the processor from a task ended by a signal
  or a fault: nobody delivers the signal before they run. -/
  skipped : Nat

inductive Mode where
  | boot | user | idle | halt | stop
deriving DecidableEq, Repr

structure Kernel (M : Type) where
  mem : M
  fs : Fs
  tasks : Nat → Task
  pipes : Nat → Pipe
  taskCount : Nat
  current : Nat
  lastAdded : Option Nat
  fgSlot : Option Nat
  ticks : UInt32
  stdin : Option (List UInt8)
  cr3 : Nat
  frame : Frame
  mode : Mode
  hist : History

/-- The memory calls: `step` is one of the operations of `SpaceOp`, `peek` reads a byte through a
present user entry of the page table `cr3`. -/
class MemSys (M : Type) where
  step : M → SpaceOp → M × Option Nat
  peek : M → Nat → Nat → Option UInt8

instance : MemSys Space where
  step := Space.step
  peek s cr3 va := (vmmTranslateUser s.vm cr3 va).map s.vm.mem

namespace Kernel

variable {M : Type}

/-- `sched_init` (sched.c:381). -/
def schedInit (m : M) (fs : Fs) : Kernel M where
  mem := m
  fs := fs
  tasks := fun _ => .init
  pipes := fun _ => .unused
  taskCount := 0
  current := 0
  lastAdded := none
  fgSlot := none
  ticks := 0
  stdin := none
  cr3 := pml4Phys
  frame := .start 0 0
  mode := .boot
  hist := ⟨0, fun _ => 0, fun _ => none, 0, fun _ => 0, [], 0, 0, 0, fun _ => false, 0, 0⟩

/-! ## Updates -/

/-- `tasks[i]` becomes `f tasks[i]`. -/
def modTask (k : Kernel M) (i : Nat) (f : Task → Task) : Kernel M :=
  { k with tasks := Function.update k.tasks i (f (k.tasks i)) }

def setFd (k : Kernel M) (i j : Nat) (e : FdEntry) : Kernel M :=
  k.modTask i fun t => { t with fds := Function.update t.fds j e }

def modPipe (k : Kernel M) (p : Nat) (f : Pipe → Pipe) : Kernel M :=
  { k with pipes := Function.update k.pipes p (f (k.pipes p)) }

/-- A call into the memory code whose answer the caller drops. -/
def memDo [MemSys M] (k : Kernel M) (op : SpaceOp) : Kernel M := { k with mem := (MemSys.step k.mem op).1 }

/-- The answer of a memory call. -/
def memAsk [MemSys M] (k : Kernel M) (op : SpaceOp) : Option Nat := (MemSys.step k.mem op).2

/-- `vmm_set_cr3`. -/
def setCr3 (k : Kernel M) (cr3 : Nat) : Kernel M := { k with cr3 := cr3 }

/-- `frame->rax = v`. -/
def setRax (k : Kernel M) (v : UInt64) : Kernel M := { k with frame := { k.frame with rax := v } }

/-- `(uint64_t)-1`. -/
def minusOne : UInt64 := 0xFFFFFFFFFFFFFFFF

/-- `(int)x`. -/
def toInt (x : UInt64) : Int := x.toUInt32.toInt32.toInt

/-- `(unsigned)x`. -/
def toUnsigned (x : UInt64) : Nat := x.toUInt32.toNat

end Kernel

end VampireOS
