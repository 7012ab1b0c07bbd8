import VampireOS.Sched.User

/-!
# Traps (kernel/user.c:1176-1774, kernel/idt.c:47-100)

| here | there |
| --- | --- |
| `sysWrite`, …, `userOnSyscall` | `user_on_syscall`, one definition for each number (user.c:29-57) |
| `syscallHandler`, `exceptionHandler`, `irqHandler` | idt.c:47-100 |
| `Act` | what an interrupt does before `sched_deliver_pending`: the tick, and commands of kbd.c |
| `Event`, `step`, `run` | a trap from ring 3, an interrupt, a turn of the idle loop, `user_enter` |

The registers of a trap from ring 3 are arbitrary. In the idle loop, in the `hlt` loop of `sched_exit` and in
`kmain` only interrupts arrive, with a kernel frame that no scheduler function touches.
-/

namespace VampireOS

open Lib

namespace Kernel

variable {M : Type}

/-- Go on with `frame->rip -= 2`: the system call is made again when the task runs next. -/
def rewind (k : Kernel M) : Kernel M := { k with frame := { k.frame with rip := k.frame.rip - 2 } }

/-- `vmm_set_cr3(sched_current_cr3())`. -/
def restoreCr3 (k : Kernel M) : Kernel M := k.setCr3 k.currentCr3

/-- `frame->rax = v`, -1 for `none`. -/
def setAnswer (k : Kernel M) (v : Option Nat) : Kernel M := k.setRax (v.elim minusOne UInt64.ofNat)

/-- Copy `src` to `dst` and answer its length. -/
def answerBytes [MemSys M] (k : Kernel M) (dst : UInt64) (src : List UInt8) : Kernel M :=
  let res := k.copyToUser dst src
  res.1.setAnswer (if res.2 then some src.length else none)

/-- Ask the volume: a failure is answered with -1, `f` goes on with the answer. -/
def answering {α : Type} (k : Kernel M) (m : FsM α) (f : Kernel M → α → Kernel M) : Kernel M :=
  match k.fsAsk m with
  | none => ((k.fsDo m).setRax minusOne).restoreCr3
  | some x => f (k.fsDo m) x

/-- The bounded length argument of a transfer. -/
def wantOf (x : UInt64) : Nat := min (toUnsigned x) fileMax

/-! ## Reading and writing -/

def writePipe [MemSys M] (k : Kernel M) (fd : Int) (want : Nat) : Kernel M :=
  if want = 0 then k.setRax 0
  else
    match k.copyFromUserN k.frame.rsi.toNat want with
    | none => k.setRax minusOne
    | some src =>
      match k.schedPipeWrite fd src with
      | (k, .block) => k.rewind.schedBlockPipe (k.schedFdPipe fd)
      | (k, .fail) => k.setRax minusOne
      | (k, .done n) => k.setAnswer (some n)

/-- Offset 0 replaces the file, an offset past 0 appends. -/
def writeAt (path : Name) (off : Nat) (src : List UInt8) : FsM Unit :=
  if off = 0 then Fs.fsWrite path (ofList src) src.length
  else do
    let (data, len) ← Fs.fsLookup path
    need (off ≤ len ∧ off + src.length ≤ fileMax)
    Fs.fsWrite path (putBytes data off (ofList src) src.length) (off + src.length)

def writeFile [MemSys M] (k : Kernel M) (fd : Int) (path : Name) (want : Nat) : Kernel M :=
  if want = 0 then k.setRax 0
  else
    match k.copyFromUserN k.frame.rsi.toNat want with
    | none => k.setRax minusOne
    | some src =>
      let k := k.setCr3 pml4Phys
      let off := k.schedFdOffset fd
      let m := k.inCwd (writeAt path off src)
      if (k.fsAsk m).isSome
        then ((((k.fsDo m).schedFdLseek fd (off + want)).1).setAnswer (some want)).restoreCr3
      else ((k.fsDo m).setRax minusOne).restoreCr3

def writeConsole [MemSys M] (k : Kernel M) (want : Nat) : Kernel M :=
  match k.copyFromUserN k.frame.rsi.toNat want with
  | none => k.setRax minusOne
  | some _ => ((k.setCr3 pml4Phys).setAnswer (some want)).restoreCr3

def sysWrite [MemSys M] (k : Kernel M) : Kernel M :=
  if k.frame.rdi.toNat < fdMax then
    let fd := toInt k.frame.rdi
    let want := wantOf k.frame.rdx
    match k.schedFdKind fd with
    | .pipeW => k.writePipe fd want
    | .pipeR => k.setRax minusOne
    | .file => (k.schedFdPath fd).elim (k.setRax minusOne) fun path => k.writeFile fd path want
    | .consoleW => k.writeConsole (min want (userStrMax - 1))
    | .consoleR => k.setRax minusOne
    | .none => if fd = 1 then k.writeConsole (min want (userStrMax - 1)) else k.setRax minusOne
  else
    -- legacy: a string for the task's VGA row
    match k.copyFromUser k.frame.rdi.toNat userStrMax with
    | none => k
    | some _ => (k.setCr3 pml4Phys).restoreCr3

def readPipe [MemSys M] (k : Kernel M) (fd : Int) (want : Nat) : Kernel M :=
  if want = 0 then k.setRax 0
  else
    match k.schedPipeRead fd want with
    | (k, .block) => k.rewind.schedBlockPipe (k.schedFdPipe fd)
    | (k, .fail) => k.setRax minusOne
    | (k, .done out) => k.answerBytes k.frame.rsi out

/-- `kbd_stdin_take` hands out a whole line once; what does not fit is lost. -/
def readConsole [MemSys M] (k : Kernel M) (want : Nat) : Kernel M :=
  if want = 0 then k.setRax 0
  else
    match k.stdin with
    | none => k.rewind.schedBlockKbd
    | some line => { k with stdin := none }.answerBytes k.frame.rsi (line.take want)

/-- Hand out `got` bytes from offset `off` on and move the offset. -/
def readDone [MemSys M] (k : Kernel M) (fd : Int) (data : Bytes) (off got : Nat) : Kernel M :=
  let res := k.copyToUser k.frame.rsi ((List.range got).map fun i => data (off + i))
  if res.2 then
    (if got ≠ 0 then (res.1.schedFdLseek fd (off + got)).1 else res.1).setAnswer (some got)
  else res.1.setRax minusOne

def readFile [MemSys M] (k : Kernel M) (fd : Int) (path : Name) (want : Nat) : Kernel M :=
  let k := k.setCr3 pml4Phys
  let off := k.schedFdOffset fd
  k.answering (k.inCwd (Fs.fsLookup path)) fun k (data, len) =>
    let got := if off ≥ min len fileMax then 0 else min want (min len fileMax - off)
    k.restoreCr3.readDone fd data off got

def sysRead [MemSys M] (k : Kernel M) : Kernel M :=
  let fd := toInt k.frame.rdi
  let want := wantOf k.frame.rdx
  match k.schedFdKind fd with
  | .pipeR => k.readPipe fd want
  | .pipeW => k.setRax minusOne
  | .consoleR => k.readConsole want
  | .file => (k.schedFdPath fd).elim (k.setRax minusOne) fun path => k.readFile fd path want
  | .consoleW => k.setRax minusOne
  | .none => if fd = 0 then k.readConsole want else k.setRax minusOne

/-! ## Files -/

def sysReaddir [MemSys M] (k : Kernel M) : Kernel M :=
  let want := wantOf k.frame.rsi
  let k := k.setCr3 pml4Phys
  k.answering (k.inCwd (gets fun s => s.fsReaddir want)) fun k out => k.restoreCr3.answerBytes k.frame.rdi out

/-- Open for reading, or create (rsi 1, and 2 for append). -/
def openFile (path : Name) (create : Bool) : FsM Nat := do
  let r ← result (Fs.fsLookup path)
  match r with
  | some r => pure r.2
  | none =>
    need create
    Fs.fsWrite path (fun _ => 0) 0
    let r ← Fs.fsLookup path
    pure r.2

/-- A descriptor for `path`, at the end of the file when it was opened for append. -/
def openDone (k : Kernel M) (path : Name) (len : Nat) : Kernel M :=
  let res := k.schedFdOpen path
  (res.2.elim res.1 fun fd => if k.frame.rsi = 2 then (res.1.schedFdLseek fd len).1
    else res.1).setAnswer res.2

def sysOpen [MemSys M] (k : Kernel M) : Kernel M :=
  match k.copyFromUser k.frame.rdi.toNat userStrMax with
  | none => k.setRax minusOne
  | some path =>
    let k := k.setCr3 pml4Phys
    k.answering (k.inCwd (openFile path (k.frame.rsi = 1 ∨ k.frame.rsi = 2))) fun k len =>
      (k.openDone path len).restoreCr3

/-- Three packed ints: size, cluster, directory. -/
def statDone [MemSys M] (k : Kernel M) (st : Nat × Nat × Bool) : Kernel M :=
  let word (v : Nat) := (bytes64 (UInt64.ofNat v)).take 4
  let res := k.copyToUser k.frame.rsi (word st.1 ++ word st.2.1 ++ word (if st.2.2 then 1 else 0))
  res.1.setRax (if res.2 then 0 else minusOne)

def sysStat [MemSys M] (k : Kernel M) : Kernel M :=
  match k.copyFromUser k.frame.rdi.toNat userStrMax with
  | none => k.setRax minusOne
  | some path =>
    let k := k.setCr3 pml4Phys
    k.answering (k.inCwd (Fs.fsStat path)) fun k st => k.restoreCr3.statDone st

def sysGetcwd [MemSys M] (k : Kernel M) : Kernel M :=
  let want := wantOf k.frame.rsi
  if want = 0 then k.setRax minusOne
  else
    let pwd := k.currentPwd
    let k := k.setCr3 pml4Phys
    if pwd.length < want then k.restoreCr3.answerBytes k.frame.rdi pwd else (k.setRax minusOne).restoreCr3

/-- The task moves to cluster `cl`, known as `pwd`. -/
def chdirDone (k : Kernel M) (cl : Nat) (pwd : Name) : Kernel M :=
  ((k.modTask k.current fun t => { t with cwd := cl, cwdPath := copyCwdPath pwd }).setRax 0).restoreCr3

def sysChdir [MemSys M] (k : Kernel M) : Kernel M :=
  match k.copyFromUser k.frame.rdi.toNat userStrMax with
  | none => k.setRax minusOne
  | some path =>
    let k := k.setCr3 pml4Phys
    k.answering (userChdir (k.tasks k.current).cwd k.currentPwd path) fun k (cl, pwd) => k.chdirDone cl pwd

/-! ## Processes -/

def sysPipe [MemSys M] (k : Kernel M) : Kernel M :=
  match k.schedPipe with
  | (k, none) => k.setRax minusOne
  | (k, some (r, w)) =>
    let word (v : Nat) := (bytes64 (UInt64.ofNat v)).take 4
    let res := k.copyToUser k.frame.rdi (word r ++ word w)
    if res.2 then res.1.setRax 0
    else (((res.1.schedFdClose r).1).schedFdClose w).1.setRax minusOne

def sysExec [MemSys M] (k : Kernel M) (io : Io) : Kernel M :=
  match k.copyFromUser k.frame.rdi.toNat userStrMax with
  | none => k.setRax minusOne
  | some name =>
    if name = [] ∨ name.length ≥ fdPathMax then k.setRax minusOne
    else
      let k := k.setCr3 pml4Phys
      let m := k.inCwd (lookupRootElf name)
      let img := (k.fsAsk m).bind fun r => if r.2 = 0 ∨ r.2 > fileMax then none else io.elf r.1 r.2
      match (k.fsDo m).userExecCurrent name img with
      | (k, .done) => k
      | (k, .kept) => (k.setRax minusOne).restoreCr3
      | (k, .gone) => schedExit { k with frame := { k.frame with rdi := 0 } }

/-- `SYS_DATE` restores CR3 only when it succeeds. -/
def sysDate [MemSys M] (k : Kernel M) (io : Io) : Kernel M :=
  if k.frame.rdi = 0 ∨ toUnsigned k.frame.rsi < 19 then k.setRax minusOne
  else
    let res := k.copyToUser k.frame.rdi io.date
    if res.2 then (res.1.setAnswer (some 19)).restoreCr3 else res.1.setRax minusOne

def sysFbinfo [MemSys M] (k : Kernel M) (io : Io) : Kernel M :=
  match io.fbInfo with
  | none => (k.setRax minusOne).restoreCr3
  | some b =>
    let res := k.copyToUser k.frame.rdi b
    (res.1.setRax (if res.2 then 0 else minusOne)).restoreCr3

def sysFbpix [MemSys M] (k : Kernel M) (io : Io) : Kernel M :=
  (k.setRax (if (k.copyFromUserN k.frame.rdi.toNat 20).isSome && io.fbOk then 0 else minusOne)).restoreCr3

/-- The calls after "Kernel/idle map for the rest of the syscall body" (user.c:1595). -/
def lateSyscall [MemSys M] (k : Kernel M) (io : Io) : Kernel M :=
  match k.frame.rax.toNat with
  | 2 => k.schedExit
  | 3 => k.schedYield.restoreCr3
  | 4 => (k.schedSleep k.frame.rdi).restoreCr3
  | 5 => k.schedWait.restoreCr3
  | 7 =>
    let res := k.schedFdClose (toInt k.frame.rdi)
    (res.1.setRax (if res.2 then 0 else minusOne)).restoreCr3
  | 12 =>
    let res := k.userBrk k.frame.rdi.toNat
    (res.1.setAnswer res.2).restoreCr3
  | 13 =>
    let res := k.userFork
    (res.1.setAnswer res.2).restoreCr3
  | 14 =>
    let res := k.schedFdDup2 (toInt k.frame.rdi) (toInt k.frame.rsi)
    (res.1.setAnswer res.2).restoreCr3
  | 15 =>
    if k.frame.rsi > 0x7fffffff then (k.setRax minusOne).restoreCr3
    else
      let res := k.schedFdLseek (toInt k.frame.rdi) k.frame.rsi.toNat
      (res.1.setAnswer (if res.2 then some k.frame.rsi.toNat else none)).restoreCr3
  | 17 => k.schedKill.restoreCr3
  | 18 =>
    let res := k.userMmap k.frame.rdi.toNat k.frame.rsi.toNat (toInt k.frame.rdx)
    (res.1.setAnswer res.2).restoreCr3
  | 19 => (k.setAnswer (some (k.ticks.toNat / 100))).restoreCr3
  | 22 => ((k.fsDo Fs.fsSync).setRax (if (k.fsAsk Fs.fsSync).isSome then 0 else minusOne)).restoreCr3
  | 23 =>
    let op := SpaceOp.munmap k.currentCr3 (k.tasks k.current).userBase k.frame.rdi.toNat k.frame.rsi.toNat
    ((k.memDo op).setRax (if (k.memAsk op).isSome then 0 else minusOne)).restoreCr3
  | 24 => k.sysFbinfo io
  | 25 => k.sysFbpix io
  | 26 => (k.setRax (if io.fbOk then 0 else minusOne)).restoreCr3
  | 27 => k.schedSigaction.restoreCr3
  | 28 =>
    let op := SpaceOp.mprotect k.currentCr3 k.frame.rdi.toNat k.frame.rsi.toNat k.frame.rdx.toNat
    ((k.memDo op).setRax (if (k.memAsk op).isSome then 0 else minusOne)).restoreCr3
  | 29 => k.sysDate io
  | _ => k.restoreCr3

def userOnSyscall [MemSys M] (k : Kernel M) (io : Io) : Kernel M :=
  match k.frame.rax.toNat with
  | 1 => k.sysWrite
  | 6 => k.sysOpen
  | 8 => k.sysRead
  | 9 => k.sysReaddir
  | 10 => k.sysExec io
  | 11 => k.sysPipe
  | 16 => k.sysStat
  | 20 => k.sysChdir
  | 21 => k.sysGetcwd
  | _ => (k.setCr3 pml4Phys).lateSyscall io

/-! ## Handlers -/

/-- What the world offers the file system during this trap. -/
def supply (k : Kernel M) (pages : Nat) (errs : List Bool) : Kernel M :=
  { k with fs := { k.fs with pages := pages, errs := errs } }

/-- The registers the processor pushed. -/
def trap (k : Kernel M) (f : Frame) : Kernel M :=
  { k with frame := f, hist := { k.hist with waiting := Function.update k.hist.waiting k.current false } }

def syscallHandler [MemSys M] (k : Kernel M) (io : Io) : Kernel M := (k.userOnSyscall io).deliverPending

/-- A page fault that is copy-on-write goes on; another one ends the task, and any other exception stops the
machine. -/
def exceptionHandler [MemSys M] (k : Kernel M) (vector error cr2 : Nat) : Kernel M :=
  if vector = 14 then
    let op := SpaceOp.cowBreak k.cr3 cr2
    if error &&& 7 = 7 ∧ (k.memAsk op).isSome then (k.memDo op).deliverPending
    else
      let k := if error &&& 7 = 7 then k.memDo op else k
      (schedExit { k with frame := { k.frame with rdi := 0 } }).noteSkipped
  else { k with mode := .stop }

/-- The file commands of the kernel shell (kbd.c); `fill` writes like `put`, `cat` and `ls` look up. -/
inductive ShellCmd where
  | put (path : Name) (src : List UInt8)
  | rm (path : Name)
  | mkdir (path : Name)
  | rmdir (path : Name)
  | cd (path : Name)
  | mv (src dst : Name)
  | cp (src dst : Name)
  | ln (src dst : Name)
  | trunc (path : Name) (len : Nat)
  | cat (path : Name)
  | sync

def ShellCmd.action : ShellCmd → FsM Unit
  | .put path src => Fs.fsWrite path (ofList src) src.length
  | .rm path => Fs.fsRemove path
  | .mkdir path => Fs.fsMkdir path
  | .rmdir path => Fs.fsRmdir path
  | .cd path => Fs.fsChdir path
  | .mv src dst => Fs.fsRename src dst
  | .cp src dst => Fs.fsCopy src dst
  | .ln src dst => Fs.fsLink src dst
  | .trunc path len => Fs.fsTruncate path len
  | .cat path => do
    let _ ← Fs.fsLookup path
  | .sync => Fs.fsSync

inductive Act where
  | tick
  /-- Enter at the console while a task reads it. -/
  | line (l : List UInt8)
  | ctrlC
  | kill (pid : Int)
  | run (p : Prog)
  /-- `run` with `<`, `>` or `>>`: the file is bound to a descriptor. -/
  | runFile (p : Prog) (fd : Nat) (path : Name) (off : Nat)
  | pipeline (left right : Prog)
  | shell (c : ShellCmd)
  /-- A boot task (`user_init`): like `run`, but not the Ctrl+C target. -/
  | bootTask (p : Prog)
  | clearFg

def act [MemSys M] (k : Kernel M) : Act → Kernel M
  | .tick => { k with ticks := k.ticks + 1 }.schedOnTick
  | .line l => if k.schedKbdWaiting then { k with stdin := some l }.schedWakeKbd else k
  | .ctrlC => k.schedSignalFg sigInt 0
  | .kill pid => (k.signalAt pid sigTerm 0).1
  | .run p => (k.userRunFds p none none).1
  | .runFile p fd path off =>
    match k.userRunFds p none none with
    | (k, false) => k
    | (k, true) => (k.schedFdBindFile fd path off).1
  | .pipeline left right => (k.userRunPipeline left right).1
  | .shell c => k.fsDo c.action
  | .bootTask p => ((k.fsDo (lookupRootElf p.name)).userSpawn p.name p.arg (k.progImage p)).1
  | .clearFg => { k with fgSlot := none }

/-- `irq_handler`: in ring 3 the frame is the user's. -/
def irqHandler [MemSys M] (k : Kernel M) (acts : List Act) : Kernel M := (acts.foldl act k).deliverPending

/-! ## The machine -/

inductive Event where
  | syscall (f : Frame) (io : Io)
  | exception (f : Frame) (vector error cr2 : Nat)
  | irq (f : Frame) (pages : Nat) (errs : List Bool) (acts : List Act)
  /-- A store of the current task that does not fault. -/
  | store (virt : Nat) (b : UInt8)
  | idle
  | enter

def step [MemSys M] (k : Kernel M) : Event → Kernel M
  | .syscall f io => if k.mode = .user then ((k.trap f).supply io.pages io.errs).syscallHandler io else k
  | .exception f vector error cr2 => if k.mode = .user then (k.trap f).exceptionHandler vector error
      cr2 else k
  | .irq f pages errs acts =>
    if k.mode = .stop then k
    else ((if k.mode = .user then k.trap f else k).supply pages errs).irqHandler acts
  | .store virt b => if k.mode = .user then k.memDo (.store k.cr3 virt b) else k
  | .idle => if k.mode = .idle then k.idleTurn.deliverPending else k
  | .enter =>
    if k.mode = .boot ∧ k.taskCount ≠ 0 ∧ (k.tasks k.current).state = .ready then k.switchTo k.current else k

def run [MemSys M] (k : Kernel M) (es : List Event) : Kernel M := es.foldl step k

end Kernel

end VampireOS
