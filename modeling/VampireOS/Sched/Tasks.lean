import VampireOS.Sched.Fds

/-!
# Tasks, waiting and signals (kernel/sched.c)

| here | there |
| --- | --- |
| `pickNext`, `saveTask`, `switchTo` | `pick_next`, `save_task`, `set_current` with `load_task` |
| `freeTaskUser`, `freeTaskKstack`, `freeTaskPml4` | sched.c:345-379 |
| `slotReusable`, `childOf`, `findZombie`, `hasChild`, `reapChild` | sched.c:429-491 |
| `schedAddUser`, `schedFork` | sched.c:510-703 |
| `deliverPending`, `signalAt`, `schedSigaction` | sched.c:1291-1410, 1657-1785 |
| `wakeParentWaiter`, `killTask` | sched.c:1426-1450, 1586-1610 |
| `block` | the common end of `sched_block_pipe`, `sched_block_kbd`, `sched_sleep` and `sched_wait` |
| `idleTurn` | one turn of the loop of `idle_until_ready` (sched.c:1452) |
| `schedOnTick`, `schedExit`, `schedResetCurrent` | sched.c:1486, 1787-1848 |

`free_task_pml4` is `SpaceOp.release`, which tears the user half down once more and finds it empty.
The blocking calls look at `pending` a second time after the state is set; interrupts are off in
between, so that test has the outcome of the first one and is left out.
-/

namespace VampireOS

open Lib

namespace Kernel

variable {M : Type}

/-! ## Switching -/

def pickNext (k : Kernel M) (start : Nat) : Option Nat :=
  ((List.range k.taskCount).map fun i => (start + (i + 1)) % k.taskCount).find? fun i =>
    (k.tasks i).state = .ready

/-- `save_task(&tasks[current], frame)`. -/
def saveTask (k : Kernel M) : Kernel M := k.modTask k.current fun t => { t with regs := k.frame }

/-- `set_current(i); load_task(frame, &tasks[current]);` -/
def switchTo (k : Kernel M) (i : Nat) : Kernel M :=
  { k with current := i, frame := (k.tasks i).regs, cr3 := (k.tasks i).cr3, mode := .user }

def switchToNext (k : Kernel M) : Kernel M :=
  (k.pickNext k.current).elim k fun i => if i = k.current then k else k.saveTask.switchTo i

/-- The current task leaves the processor in state `s`. -/
def block (k : Kernel M) (s : TaskState) (f : Task → Task) : Kernel M :=
  let k := { k.saveTask.modTask k.current fun t => { f t with state := s } with mode := .idle }
  (k.pickNext k.current).elim (k.setCr3 pml4Phys) k.switchTo

/-- One slot in `wake_sleepers`. -/
def wakeSleeper (now : UInt32) (t : Task) : Task :=
  if t.state = .sleep ∧ (t.wakeTick ≤ now ∨ t.pending ≠ 0) then { t with state := .ready } else t

def wakeSleepers (k : Kernel M) : Kernel M :=
  { k with tasks := fun i => if i < k.taskCount then wakeSleeper k.ticks (k.tasks i) else k.tasks i }

def idleTurn (k : Kernel M) : Kernel M :=
  let k := k.wakeSleepers
  (k.pickNext k.current).elim k k.switchTo

def schedYield (k : Kernel M) : Kernel M := k.switchToNext

def schedOnTick (k : Kernel M) : Kernel M :=
  let k := if k.taskCount ≠ 0 ∧ (k.tasks k.current).state ≠ .dead then
    k.modTask k.current fun t => { t with cpuTicks := t.cpuTicks + 1 } else k
  let k := k.wakeSleepers
  if k.mode = .user then k.switchToNext else k

/-! ## Slots -/

/-- Drop all user PTEs in this task's CR3; PML4 stays until slot reuse. -/
def freeTaskUser [MemSys M] (k : Kernel M) (i : Nat) : Kernel M :=
  if (k.tasks i).cr3 = 0 then k
  else (k.memDo (.teardown (k.tasks i).cr3)).modTask i fun t => { t with userBase := 0, brk := 0 }

/-- `virt_to_phys(kstack_top - PAGE_4K)`. -/
def kstackPhys (t : Task) : Nat := t.kstackTop - pageSize - hhdmBase

/-- Free a dead task's kernel stack (never while still running on it). -/
def freeTaskKstack [MemSys M] (k : Kernel M) (i : Nat) : Kernel M :=
  if (k.tasks i).kstackTop = 0 then k
  else
    let k := if kstackPhys (k.tasks i) ≠ 0 then k.memDo (.kfree (kstackPhys (k.tasks i))) else k
    k.modTask i fun t => { t with kstackTop := 0 }

/-- Free only the cloned PML4 page. -/
def freeTaskPml4 [MemSys M] (k : Kernel M) (i : Nat) : Kernel M :=
  if (k.tasks i).cr3 = 0 then k
  else
    let k := if (k.tasks i).cr3 ≠ pml4Phys then k.memDo (.release (k.tasks i).cr3) else k
    k.modTask i fun t => { t with cr3 := 0 }

/-- Unreaped DEAD children stay until wait so their 8-bit code is not lost. -/
def slotReusable (t : Task) : Bool := t.state = .dead && !(t.parent.isSome && !t.reaped)

/-- The slot a new task gets: the first reusable one, else the next one never used. -/
def freeSlot (k : Kernel M) : Option Nat :=
  match (List.range k.taskCount).find? fun i => slotReusable (k.tasks i) with
  | some i => some i
  | none => if k.taskCount ≥ taskMax then none else some k.taskCount

def schedBaseBusy (k : Kernel M) (userBase cr3 : Nat) : Bool :=
  userBase = 0 || cr3 = 0 || (List.range k.taskCount).any fun i =>
    (k.tasks i).state ≠ .dead && (k.tasks i).cr3 = cr3 && (k.tasks i).userBase = userBase

/-- What a reused slot still holds goes back; a slot never used is counted from now on. -/
def takeSlot [MemSys M] (k : Kernel M) (i : Nat) : Kernel M :=
  if i < k.taskCount then ((k.freeTaskUser i).freeTaskKstack i).freeTaskPml4 i
  else { k with taskCount := k.taskCount + 1, current := if k.taskCount = 0 then 0 else k.current }

/-- Some slot whose exit code nobody has collected records slot `i` as its parent. -/
def hasOpenChild (k : Kernel M) (i : Nat) : Bool :=
  (List.range k.taskCount).any fun j => (k.tasks j).parent = some i && !(k.tasks j).reaped

/-- The record of a new task: `t` is what the slot held, `parent` the forking slot. -/
def spawnTask (k : Kernel M) (i : Nat) (parent : Option Nat) (t : Task) : Kernel M :=
  { k with
    tasks := Function.update k.tasks i
      { t with
        parent := parent, waitPid := 0, state := .ready, wakeTick := 0, cpuTicks := 0, exitCode := 0
        reaped := false, pending := 0, pipeWait := none, fds := (k.tasks i).fds }
    lastAdded := some i
    hist := { k.hist with
      born := k.hist.born + 1
      uid := Function.update k.hist.uid i k.hist.born
      forkedBy := Function.update k.hist.forkedBy i (parent.map k.hist.uid)
      waiting := Function.update k.hist.waiting i false
      stale := k.hist.stale + if k.hasOpenChild i then 1 else 0 } }

/-- `copy_cwd_path`. -/
def copyCwdPath (p : Name) : Name := if p = [] then [slash] else p.take (cwdPathMax - 1)

/-- The kernel's cwd is passed on, so that `cd` then `run` inherits it. -/
def schedAddUser [MemSys M] (k : Kernel M) (rip rsp : UInt64) (kstackTop userBase cr3 : Nat) :
    Kernel M × Bool :=
  if kstackTop = 0 ∨ userBase = 0 ∨ cr3 = 0 ∨ cr3 = pml4Phys ∨ k.schedBaseBusy userBase cr3 then (k, false)
  else
    k.freeSlot.elim (k, false) fun i =>
      let k := (k.takeSlot i).spawnTask i none { Task.init with
        regs := .start rip rsp, kstackTop := kstackTop, userBase := userBase, brk := userBase + 2 * pageSize
        cr3 := cr3, cwd := k.fs.cwd, cwdPath := copyCwdPath k.fs.path }
      ((k.clearFds i).bindConsoleStd i, true)

/-- Share current task into a free slot. Child rax=0. Returns the child's slot. -/
def schedFork [MemSys M] (k : Kernel M) (kstackTop cr3 : Nat) : Kernel M × Option Nat :=
  let parent := k.tasks k.current
  if k.taskCount = 0 ∨ kstackTop = 0 ∨ cr3 = 0 ∨ cr3 = pml4Phys ∨
      parent.state = .dead ∨ parent.cr3 = 0 ∨ parent.cr3 = cr3 then (k, none)
  else
    k.freeSlot.elim (k, none) fun i =>
      let k := (k.takeSlot i).spawnTask i (some k.current) { parent with
        regs := { k.frame with rax := 0 }, kstackTop := kstackTop, cr3 := cr3, cwdPath :=
          copyCwdPath parent.cwdPath }
      ((k.clearFds i).inheritFds i k.current, some i)

/-! ## Children -/

def childOf (k : Kernel M) (parent idx : Nat) : Bool :=
  idx < k.taskCount && (k.tasks idx).parent = some parent && !(k.tasks idx).reaped

/-- Does slot `idx` match a wait for `want`? Zero asks for any child. -/
def wanted (want idx : Nat) : Bool := want = 0 || idx = want

/-- The slots a wait for `want` looks at. -/
def candidates (k : Kernel M) (want : Nat) : List Nat := if want = 0 then List.range k.taskCount else [want]

def findZombie (k : Kernel M) (parent want : Nat) : Option Nat :=
  (k.candidates want).find? fun i => k.childOf parent i && (k.tasks i).state = .dead

def hasChild (k : Kernel M) (parent want : Nat) : Bool := (k.candidates want).any fun i => k.childOf parent i

/-- `waiter` collects the exit code of `child`. -/
def reapChild (k : Kernel M) (waiter child : Nat) : Kernel M :=
  { k.modTask child fun t => { t with reaped := true } with
    hist := { k.hist with
      reports := k.hist.reports ++
        [⟨k.hist.uid waiter, child, k.hist.forkedBy child, k.hist.death child, (k.tasks child).exitCode⟩] } }

def wakeParentWaiter (k : Kernel M) (child : Nat) (code : UInt8) : Kernel M :=
  match (k.tasks child).parent with
  | none => k
  | some p =>
    let w := k.tasks p
    if p < k.taskCount ∧ w.state = .wait ∧ wanted w.waitPid child then
      (k.reapChild p child).modTask p fun t =>
        { t with state := .ready, waitPid := 0, regs := { t.regs with rax := code.toUInt64 } }
    else k

/-- The end of `kill_task`, once the memory and the descriptors are gone. -/
def finishTask (k : Kernel M) (i : Nat) (code : UInt8) : Kernel M :=
  let k := { k.modTask i fun t =>
      { t with exitCode := code, reaped := false, pending := 0, handlerInt := 0, handlerTerm := 0,
               state := .dead, pipeWait := none } with
    fgSlot := if k.fgSlot = some i then none else k.fgSlot
    hist := { k.hist with
      died := k.hist.died + 1
      death := Function.update k.hist.death i k.hist.died
      orphaned := k.hist.orphaned + if k.hasOpenChild i then 1 else 0 } }
  k.wakeParentWaiter i code

def killTask [MemSys M] (k : Kernel M) (i : Nat) (code : UInt8) : Kernel M :=
  if i ≥ k.taskCount ∨ (k.tasks i).state = .dead then k
  else ((k.freeTaskUser i).clearFds i).finishTask i code

/-- When task `i` ends, task `j` can go on: it is READY, waits for `i`, or is blocked on a pipe `i` has an
end of. -/
def goesOn (k : Kernel M) (i j : Nat) : Bool :=
  match (k.tasks j).state with
  | .ready => true
  | .wait => (k.tasks i).parent = some j && wanted (k.tasks j).waitPid i
  | .pipe => (List.range fdMax).any fun n =>
      let e := (k.tasks i).fds n
      e.used && (k.pipeOf e).isSome && k.pipeOf e = (k.tasks j).pipeWait
  | _ => false

/-- The end of task `i` leaves somebody who can go on, or nobody alive. -/
def endOk (k : Kernel M) (i : Nat) : Bool :=
  let others := (List.range k.taskCount).filter (· ≠ i)
  others.any (k.goesOn i) || others.all fun j => (k.tasks j).state = .dead

/-- The history, when the current task is about to end. -/
def noteEnd (k : Kernel M) : Kernel M :=
  { k with hist := { k.hist with deserted := k.hist.deserted + if k.endOk k.current then 0 else 1 } }

/-- Whoever is READY runs next; else the `hlt` loop. -/
def runOrHalt (k : Kernel M) : Kernel M :=
  (k.pickNext k.current).elim { k.setCr3 pml4Phys with mode := .halt } k.switchTo

/-- `sched_exit`: the task does not come back to ring 3. -/
def schedExit [MemSys M] (k : Kernel M) : Kernel M :=
  let code := k.frame.rdi.toUInt8
  let k := k.noteEnd
  runOrHalt { (if k.taskCount ≠ 0 then k.killTask k.current code else k) with mode := .idle }

/-! ## Signals -/

def sigBit (signo : Int) : UInt8 :=
  if signo = sigInt then pendInt else if signo = sigTerm then pendTerm else 0

/-- `*sig_handler_slot`; no slot for another signal. -/
def sigHandler (t : Task) (signo : Int) : Option UInt64 :=
  if signo = sigInt then some t.handlerInt else if signo = sigTerm then some t.handlerTerm else none

def setSigHandler (signo : Int) (va : UInt64) (t : Task) : Task :=
  if signo = sigInt then { t with handlerInt := va }
  else if signo = sigTerm then { t with handlerTerm := va } else t

def pendingSigno (t : Task) : Int :=
  if t.pending &&& pendInt ≠ 0 then sigInt else if t.pending &&& pendTerm ≠ 0 then sigTerm else 0

def taskHasPending (k : Kernel M) (i : Nat) : Bool :=
  i < k.taskCount && (k.tasks i).state ≠ .dead && (k.tasks i).pending ≠ 0

/-- The eight bytes of a `uint64_t`, low byte first. -/
def bytes64 (v : UInt64) : List UInt8 := (List.range 8).map fun i => (v >>> (UInt64.ofNat (8 * i))).toUInt8

def pushUserU64 [MemSys M] (k : Kernel M) (cr3 : Nat) (va value : UInt64) : Kernel M × Bool :=
  if cr3 = 0 ∨ va &&& 0xFFF > 0xFF8 then (k, false)
  else (k.memDo (.copyTo cr3 va.toNat (bytes64 value)),
    (k.memAsk (.copyTo cr3 va.toNat (bytes64 value))).isSome)

/-- Whoever has the processor now, perhaps after a wait, runs before its signals are looked at. -/
def noteSkipped (k : Kernel M) : Kernel M :=
  { k with hist := { k.hist with
    skipped := k.hist.skipped +
      if k.mode = .user ∧ k.hist.waiting k.current = true ∧ (k.tasks k.current).pending ≠ 0 then 1 else 0 } }

/-- The default action: exit with the code that came with the signal. -/
def exitBySignal [MemSys M] (k : Kernel M) : Kernel M :=
  let code := (k.tasks k.current).exitCode
  let k := k.modTask k.current fun t => { t with pending := 0 }
  let hist := { k.hist with waiting := Function.update k.hist.waiting k.current false }
  (schedExit { k with frame := { k.frame with rdi := code.toUInt64 }, hist := hist }).noteSkipped

/-- Push the interrupted `rip` and go on at the handler. -/
def enterHandler [MemSys M] (k : Kernel M) (sig : Int) (handler : UInt64) : Kernel M :=
  if k.frame.rsp < 8 then k.exitBySignal
  else
    let res := k.pushUserU64 (k.tasks k.current).cr3 (k.frame.rsp - 8) k.frame.rip
    if res.2 then
      { res.1 with
        frame := { k.frame with rsp := k.frame.rsp - 8, rip := handler, rdi := UInt64.ofNat sig.toNat }
        hist := { k.hist with caught := k.hist.caught + if k.hist.waiting k.current then 1 else 0 } }
    else res.1.exitBySignal

def deliverPending [MemSys M] (k : Kernel M) : Kernel M :=
  if k.taskCount = 0 ∨ k.mode ≠ .user then k
  else
    let sig := pendingSigno (k.tasks k.current)
    if sig = 0 then k
    else
      let handler := (sigHandler (k.tasks k.current) sig).getD 0
      let k := k.modTask k.current fun t => { t with pending := t.pending &&& ~~~ (sigBit sig) }
      if handler = 0 then k.exitBySignal
      -- SA_RESETHAND: one shot so Ctrl+C does not loop the handler
      else (k.modTask k.current (setSigHandler sig 0)).enterHandler sig handler

/-- `wake_blocked`. -/
def wakeBlocked (t : Task) : Task :=
  if t.state = .sleep ∨ t.state = .wait ∨ t.state = .pipe ∨ t.state = .kbd then
    { t with state := .ready, pipeWait := none, wakeTick := 0 }
  else t

/-- Post a signal on a live slot and run it next when the frame at hand is a user's. -/
def signalAt [MemSys M] (k : Kernel M) (pid : Int) (signo : Int) (code : UInt8) : Kernel M × Bool :=
  if sigBit signo = 0 ∨ ¬ (0 ≤ pid ∧ pid < k.taskCount) then (k, false)
  else
    let i := pid.toNat
    if (k.tasks i).state = .dead then (k, false)
    -- no user map: cannot return to ring 3 to consume the bit
    else if (k.tasks i).cr3 = 0 then (k.killTask i code, true)
    else
      let k := k.modTask i fun t =>
        wakeBlocked { t with pending := t.pending ||| sigBit signo, exitCode := code }
      if i ≠ k.current ∧ k.mode = .user ∧ (k.tasks i).state = .ready then (k.saveTask.switchTo i, true)
      else (k, true)

def schedSignalFg [MemSys M] (k : Kernel M) (signo : Int) (code : UInt8) : Kernel M :=
  k.fgSlot.elim k fun i => (k.signalAt i signo code).1

def schedSigaction [MemSys M] (k : Kernel M) : Kernel M :=
  let sig := toInt k.frame.rdi
  let handler := k.frame.rsi
  if (sigHandler (k.tasks k.current) sig).isNone then k.setRax minusOne
  else if handler ≠ 0 ∧ (MemSys.peek k.mem (k.tasks k.current).cr3 handler.toNat).isNone
    then k.setRax minusOne
  else (k.modTask k.current (setSigHandler sig handler)).setRax 0

def schedKill [MemSys M] (k : Kernel M) : Kernel M :=
  let res := k.signalAt (toInt k.frame.rdi) sigTerm k.frame.rsi.toUInt8
  res.1.setRax (if res.2 then 0 else minusOne)

/-! ## Blocking calls -/

def schedBlockPipe [MemSys M] (k : Kernel M) (p : Option Nat) : Kernel M :=
  if k.taskHasPending k.current then k.deliverPending
  else k.block .pipe fun t => { t with pipeWait := p }

/-- A line may have arrived since SYS_READ saw none; then the task stays READY and retries. -/
def schedBlockKbd [MemSys M] (k : Kernel M) : Kernel M :=
  if k.taskHasPending k.current then k.deliverPending
  else if k.stdin.isSome then k
  else k.block .kbd fun t => { t with pipeWait := none }

def schedKbdWaiting (k : Kernel M) : Bool := (List.range k.taskCount).any fun i => (k.tasks i).state = .kbd

def schedWakeKbd (k : Kernel M) : Kernel M :=
  { k with tasks := fun i =>
      if i < k.taskCount ∧ (k.tasks i).state = .kbd then { k.tasks i with state := .ready } else k.tasks i }

def schedSleep [MemSys M] (k : Kernel M) (n : UInt64) : Kernel M :=
  if k.taskHasPending k.current then k.deliverPending
  else if n = 0 then k.schedYield
  else k.block .sleep fun t => { t with wakeTick := k.ticks + n.toUInt32 }

/-- History: the current task is in a wait from now on. -/
def asks (k : Kernel M) : Kernel M :=
  { k with hist := { k.hist with waiting := Function.update k.hist.waiting k.current true } }

def schedWait [MemSys M] (k : Kernel M) : Kernel M :=
  if k.taskHasPending k.current then k.asks.deliverPending
  else
    let want := toInt k.frame.rdi
    if want < 0 then k.asks.setRax minusOne
    else
      match k.findZombie k.current want.toNat with
      | some child => (k.asks.reapChild k.current child).setRax (k.tasks child).exitCode.toUInt64
      | none =>
        if k.hasChild k.current want.toNat then k.asks.block .wait fun t => { t with waitPid := want.toNat }
        else k.asks.setRax minusOne

/-! ## Exec -/

/-- Same slot: new rip/rsp/user_base, keep kstack and CR3, load into frame. -/
def schedResetCurrent (k : Kernel M) (rip rsp : UInt64) (userBase : Nat) : Kernel M :=
  let t := k.tasks k.current
  if k.taskCount = 0 ∨ rip = 0 ∨ rsp = 0 ∨ userBase = 0 ∨ t.state = .dead ∨ t.cr3 = 0 ∨ t.kstackTop = 0 then k
  else
    let k := k.modTask k.current fun t =>
      { t with
        regs := .start rip rsp, userBase := userBase, brk := userBase + 2 * pageSize, state :=
          .ready, wakeTick := 0
        pipeWait := none, pending := 0, handlerInt := 0, handlerTerm := 0 }
    { k with frame := (k.tasks k.current).regs, cr3 := (k.tasks k.current).cr3 }

end Kernel

end VampireOS
