import VampireOS.Lib.Ring
import VampireOS.Sched.Kernel

/-!
# Descriptors and pipes (kernel/sched.c:174-314, 595-636, 705-1070)

| here | there |
| --- | --- |
| `wakePipeWaiters` | sched.c:174 |
| `freePipe`, `allocPipe` | sched.c:186-239 |
| `dropFd`, `clearFds`, `bindConsoleStd` | sched.c:241-300 |
| `linkFd` | `copy_fd` and the counting after it (sched.c:608-634, 763-779) |
| `inheritFds` | sched.c:608 |
| `schedFdOpen`, `schedFdClose`, `schedFdDup2`, `schedFdLseek` | sched.c:705-795 |
| `schedFdKind`, `schedFdPipe`, `schedFdPath`, `schedFdOffset` | sched.c:797-858 |
| `schedPipe`, `schedPipeUnused`, `schedFdBindPipe`, `schedFdBindFile` | sched.c:860-987 |
| `schedPipeRead`, `schedPipeWrite` | sched.c:989-1070 |

The loop of `wake_pipe_waiters` looks at each slot on its own, so it is a map here. `drop_fd` takes a
pointer to an entry of the task table, given here by slot and index.
-/

namespace VampireOS

open Lib

namespace Kernel

variable {M : Type}

/-- One slot in `wake_pipe_waiters`. -/
def wakeWaiter (p : Nat) (t : Task) : Task :=
  if t.state = .pipe ∧ t.pipeWait = some p then { t with state := .ready, pipeWait := none } else t

def wakePipeWaiters (k : Kernel M) (p : Nat) : Kernel M :=
  { k with tasks := fun i => if i < k.taskCount then wakeWaiter p (k.tasks i) else k.tasks i }

def freePipe [MemSys M] (k : Kernel M) (p : Nat) : Kernel M :=
  let k := if (k.pipes p).phys ≠ 0 then k.memDo (.kfree (k.pipes p).phys) else k
  k.modPipe p fun _ => .unused

/-- The first unused pipe, with a page of its own. -/
def allocPipe [MemSys M] (k : Kernel M) : Kernel M × Option Nat :=
  match (List.range pipeMax).find? fun p => (k.pipes p).used = false with
  | none => (k, none)
  | some p =>
    match k.memAsk (.kalloc pipeMinPhys) with
    | none => (k, none)
    | some phys =>
      ((k.memDo (.kalloc pipeMinPhys)).modPipe p fun _ =>
        { Pipe.unused with used := true, phys := phys }, some p)

/-! ## Entries -/

/-- One end of kind `c` less, one more. -/
def minusRef (c : FdKind) (q : Pipe) : Pipe :=
  if c = .pipeR then { q with rrefs := q.rrefs - 1 } else { q with wrefs := q.wrefs - 1 }
def plusRef (c : FdKind) (q : Pipe) : Pipe :=
  if c = .pipeR then { q with rrefs := q.rrefs + 1 } else { q with wrefs := q.wrefs + 1 }

/-- `drop_fd` on a pipe end: one reference less, and the page goes with the last one. -/
def dropEnd [MemSys M] (k : Kernel M) (kind : FdKind) (p : Nat) : Kernel M :=
  let k := (k.modPipe p (minusRef kind)).wakePipeWaiters p
  if (k.pipes p).rrefs = 0 ∧ (k.pipes p).wrefs = 0 then k.freePipe p else k

/-- The pipe an entry refers to, when it is an end of a pipe in use. -/
def pipeOf (k : Kernel M) (e : FdEntry) : Option Nat :=
  if e.kind.isPipe then e.pipe.filter fun p => p < pipeMax && (k.pipes p).used else none

def dropFd [MemSys M] (k : Kernel M) (i j : Nat) : Kernel M :=
  let e := (k.tasks i).fds j
  if e.used = false then k
  else ((k.pipeOf e).elim k fun p => k.dropEnd e.kind p).setFd i j .empty

def clearFds [MemSys M] (k : Kernel M) (i : Nat) : Kernel M := forTo (fun j k => k.dropFd i j) fdMax k

/-- fd 0 = keyboard, fd 1 = VGA, fd 2 = VGA err (same kind as 1). -/
def bindConsoleStd (k : Kernel M) (i : Nat) : Kernel M :=
  forTo (fun j k => k.setFd i j ⟨true, if j = 0 then .consoleR else .consoleW, none, 0, []⟩) 3 k

/-- One more end of pipe `p`. -/
def addRef (k : Kernel M) (kind : FdKind) (p : Nat) : Kernel M := k.modPipe p (plusRef kind)

/-- Copy `e` into an entry and count the new end; `false` when its pipe is not in use, and then the
entry stays free. -/
def linkFd (k : Kernel M) (i j : Nat) (e : FdEntry) : Kernel M × Bool :=
  if e.used = false ∨ e.kind.isPipe = false then (k.setFd i j e, true)
  else
    (k.pipeOf e).elim (k.setFd i j { FdEntry.empty with path := e.path }, false) fun p =>
      ((k.setFd i j e).addRef e.kind p, true)

def inheritFds (k : Kernel M) (dst src : Nat) : Kernel M :=
  forTo (fun j k => (k.linkFd dst j ((k.tasks src).fds j)).1) fdMax k

/-! ## The calls of the current task -/

/-- `fd < 0 || fd >= FD_MAX` fails, else the index. -/
def fdIndex (fd : Int) : Option Nat := if 0 ≤ fd ∧ fd < fdMax then some fd.toNat else none

/-- The entry of the current task at `fd`, when it is in use. -/
def fdAt (k : Kernel M) (fd : Int) : Option FdEntry :=
  if k.taskCount = 0 then none
  else (fdIndex fd).bind fun j => let e := (k.tasks k.current).fds j; if e.used then some e else none

def schedFdKind (k : Kernel M) (fd : Int) : FdKind := (k.fdAt fd).elim .none FdEntry.kind

def schedFdPipe (k : Kernel M) (fd : Int) : Option Nat :=
  (k.fdAt fd).bind fun e => if e.kind.isPipe then e.pipe else none

def schedFdPath (k : Kernel M) (fd : Int) : Option (List UInt8) :=
  (k.fdAt fd).bind fun e => if e.kind = .file then some e.path else none

def schedFdOffset (k : Kernel M) (fd : Int) : Nat :=
  (k.fdAt fd).elim 0 fun e => if e.kind = .file then e.offset else 0

/-- The lowest free entry from `lo` on. -/
def freeFd (t : Task) (lo : Nat) : Option Nat :=
  (List.range fdMax).find? fun j => lo ≤ j ∧ (t.fds j).used = false

/-- `copy_path`. -/
def copyPath (path : List UInt8) : List UInt8 := path.take (fdPathMax - 1)

def schedFdOpen (k : Kernel M) (path : List UInt8) : Kernel M × Option Nat :=
  if k.taskCount = 0 ∨ path = [] then (k, none)
  else
    (freeFd (k.tasks k.current) 0).elim (k, none) fun j =>
      (k.setFd k.current j ⟨true, .file, none, 0, copyPath path⟩, some j)

def schedFdClose [MemSys M] (k : Kernel M) (fd : Int) : Kernel M × Bool :=
  if (k.fdAt fd).isSome then (k.dropFd k.current fd.toNat, true) else (k, false)

def schedFdDup2 [MemSys M] (k : Kernel M) (oldfd newfd : Int) : Kernel M × Option Nat :=
  match k.fdAt oldfd, fdIndex newfd with
  | some e, some n =>
    if oldfd = newfd then (k, some n)
    else
      let res := (k.dropFd k.current n).linkFd k.current n e
      (res.1, if res.2 then some n else none)
  | _, _ => (k, none)

def schedFdLseek (k : Kernel M) (fd : Int) (off : Nat) : Kernel M × Bool :=
  (k.fdAt fd).elim (k, false) fun e =>
    if e.kind = .file then (k.setFd k.current fd.toNat { e with offset := off }, true) else (k, false)

/-- The two lowest free entries become the ends of a new pipe. -/
def schedPipe [MemSys M] (k : Kernel M) : Kernel M × Option (Nat × Nat) :=
  if k.taskCount = 0 then (k, none)
  else
    match (freeFd (k.tasks k.current) 0).bind fun r => (freeFd (k.tasks k.current) (r + 1)).map
      fun w => (r, w) with
    | none => (k, none)
    | some (r, w) =>
      match k.allocPipe with
      | (k, none) => (k, none)
      | (k, some p) =>
        let k := k.modPipe p fun q => { q with rrefs := 1, wrefs := 1 }
        let path j := ((k.tasks k.current).fds j).path
        ((k.setFd k.current r ⟨true, .pipeR, some p, 0, path r⟩).setFd k.current w
          ⟨true, .pipeW, some p, 0, path w⟩, some (r, w))

def schedPipeUnused [MemSys M] (k : Kernel M) (p : Nat) : Kernel M :=
  if p < pipeMax ∧ (k.pipes p).used ∧ (k.pipes p).rrefs = 0 ∧ (k.pipes p).wrefs = 0 then k.freePipe p else k

/-- The slot of the last `sched_add_user` or fork, when a task lives there. -/
def lastLive (k : Kernel M) : Option Nat :=
  k.lastAdded.filter fun i => i < k.taskCount && (k.tasks i).state != .dead

def schedFdBindPipe [MemSys M] (k : Kernel M) (j : Nat) (kind : FdKind) (p : Nat) : Kernel M × Bool :=
  k.lastLive.elim (k, false) fun i =>
    if j < fdMax ∧ kind.isPipe ∧ p < pipeMax ∧ (k.pipes p).used then
      (((k.dropFd i j).setFd i j ⟨true, kind, some p, 0, []⟩).addRef kind p, true)
    else (k, false)

def schedFdBindFile [MemSys M] (k : Kernel M) (j : Nat) (path : List UInt8) (off : Nat) : Kernel M × Bool :=
  k.lastLive.elim (k, false) fun i =>
    if j < fdMax ∧ path ≠ [] then ((k.dropFd i j).setFd i j ⟨true, .file, none, off, copyPath path⟩, true)
    else (k, false)

/-! ## Reading and writing -/

/-- The outcome of a transfer: bytes, an error (-1), or "block" (-2). -/
inductive Xfer (α : Type) where
  | done (x : α)
  | fail
  | block
deriving DecidableEq, Repr

/-- The pipe behind `fd` of the current task when it is an end of that kind. -/
def pipeEnd (k : Kernel M) (fd : Int) (kind : FdKind) : Option Nat :=
  (k.fdAt fd).bind fun e => if e.kind = kind then k.pipeOf e else none

def schedPipeRead (k : Kernel M) (fd : Int) (n : Nat) : Kernel M × Xfer (List UInt8) :=
  if n = 0 then (k, .done [])
  else
    (k.pipeEnd fd .pipeR).elim (k, .fail) fun p =>
      let q := k.pipes p
      if q.len = 0 then (k, if q.wrefs = 0 then .done [] else .block)
      else
        let got := min n q.len
        let out := (List.range got).map fun i => q.data ((q.head + i) &&& pipeMask)
        ((k.modPipe p fun q => { q with
            head := (q.head + got) &&& pipeMask, len := q.len - got, returned :=
              q.returned ++ out }).wakePipeWaiters p,
          .done out)

/-- Store `xs` in the ring from `tail` on. -/
def ringStore (d : Nat → UInt8) (tail : Nat) : List UInt8 → Nat → UInt8
  | [] => d
  | x :: xs => ringStore (Function.update d (tail &&& pipeMask) x) (tail + 1) xs

def schedPipeWrite (k : Kernel M) (fd : Int) (src : List UInt8) : Kernel M × Xfer Nat :=
  if src = [] then (k, .done 0)
  else
    (k.pipeEnd fd .pipeW).elim (k, .fail) fun p =>
      let q := k.pipes p
      if q.rrefs = 0 then (k, .fail)
      else if q.len ≥ pipeCap then (k, .block)
      else
        let got := min src.length (pipeCap - q.len)
        let tail := (q.head + q.len) &&& pipeMask
        ((k.modPipe p fun q => { q with
            data := ringStore q.data tail (src.take got), len := q.len + got,
            accepted := q.accepted ++ src.take got }).wakePipeWaiters p,
          .done got)

end Kernel

end VampireOS
