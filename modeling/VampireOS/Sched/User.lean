import VampireOS.Sched.Tasks

/-!
# Programs and user memory (kernel/user.c)

| here | there |
| --- | --- |
| `copyFromUser`, `copyFromUserN`, `copyToUser` | user.c:573-692 |
| `inTaskCwd`, `userChdir` | `enter_task_cwd`, the work, `leave_task_cwd`; `user_chdir` (user.c:291-372) |
| `loadImage` | `map_load_elf` and `user_push_argv` (user.c:210, 695) |
| `userExecCurrent` | `replace_load_elf`, `user_exec_current` (user.c:399-489) |
| `userRunFds`, `userRunPipeline` | user.c:763-856 |
| `userBrk`, `userMmap`, `userFork` | user.c:863-1174 |

`Io` is what the world answers during one trap: how many frames are left for file buffers, which
transfers fail, what elf.c makes of a file and what the clock and the frame buffer say. A load that fails
gives its pages back here, where the source loses some of them.
-/

namespace VampireOS

open Lib

def userBase : Nat := 0x400000
def userStrMax : Nat := 80

/-- A program elf.c accepts: its entry point, which lies in a segment and so not below the first one
(elf.c:119), and the contents of its code page. -/
structure Image where
  entry : UInt64
  code : List UInt8
  inside : userBase ≤ entry.toNat

structure Io where
  pages : Nat
  errs : List Bool
  /-- `elf_image_base` and `elf_load` on a file of the given length. -/
  elf : Bytes → Nat → Option Image
  /-- `rtc_format`: 19 characters. -/
  date : List UInt8
  /-- `fb_query`. -/
  fbInfo : Option (List UInt8)
  /-- `fb_fill_rect` and `fb_present`. -/
  fbOk : Bool

namespace Kernel

variable {M : Type}

/-- `sched_current_cr3`. -/
def currentCr3 (k : Kernel M) : Nat :=
  if k.taskCount = 0 ∨ (k.tasks k.current).cr3 = 0 then pml4Phys else (k.tasks k.current).cr3

/-! ## User memory -/

def peekAt [MemSys M] (k : Kernel M) (va : Nat) : Option UInt8 := MemSys.peek k.mem k.currentCr3 (va % 2 ^ 64)

/-- `copy_from_user`: bytes up to a NUL within `max`. -/
def copyFromUser [MemSys M] (k : Kernel M) (src : Nat) : Nat → Option (List UInt8)
  | 0 => none
  | max + 1 => (k.peekAt src).bind fun b => if b = 0 then some []
      else (k.copyFromUser (src + 1) max).map (b :: ·)

def copyFromUserN [MemSys M] (k : Kernel M) (src n : Nat) : Option (List UInt8) :=
  (List.range n).mapM fun i => k.peekAt (src + i)

def copyToUser [MemSys M] (k : Kernel M) (dst : UInt64) (src : List UInt8) : Kernel M × Bool :=
  if src = [] then (k, true)
  else (k.memDo (.copyTo k.currentCr3 dst.toNat src), (k.memAsk (.copyTo k.currentCr3 dst.toNat src)).isSome)

/-! ## The working directory of a task -/

/-- `leave_task_cwd`: back to the kernel's own directory. -/
def leaveTaskCwd (cl : Nat) (pwd : Name) : FsM Unit := do
  let _ ← attempt (Fs.fsSetcwd cl)
  let _ ← attempt (Fs.fsSetpwd (copyCwdPath pwd))

/-- Do `body` in the directory `cl` with path `pwd`, then go back to the kernel's own. When the two
clusters match, nothing is switched. -/
def inTaskCwd {α : Type} (cl : Nat) (pwd : Name) (body : FsM α) : FsM α := do
  let s ← gets id
  if cl = s.cwd then body
  else
    let ok ← attempt (Fs.fsSetcwd cl)
    if ok = false then
      leaveTaskCwd s.cwd s.path
      failed
    else
      let _ ← attempt (Fs.fsSetpwd pwd)
      let r ← result body
      leaveTaskCwd s.cwd s.path
      orFailWith r

/-- Where `path` leads from the directory `cl`. -/
def chdirFrom (cl : Nat) (pwd path : Name) : FsM (Nat × Name) := do
  Fs.fsSetcwd cl
  let _ ← attempt (Fs.fsSetpwd pwd)
  Fs.fsChdir path
  gets fun s => (s.cwd, s.path)

/-- `user_chdir`: the new directory and path of the task; the kernel's own are put back. -/
def userChdir (cl : Nat) (pwd path : Name) : FsM (Nat × Name) := do
  need (path ≠ [])
  let s ← gets id
  let r ← result (chdirFrom cl pwd path)
  leaveTaskCwd s.cwd s.path
  orFailWith r

/-- The file system after `m`. -/
def fsDo {α : Type} (k : Kernel M) (m : FsM α) : Kernel M := { k with fs := (exec m k.fs).2 }

/-- The answer of `m`. -/
def fsAsk {α : Type} (k : Kernel M) (m : FsM α) : Option α := (exec m k.fs).1

/-- `sched_current_pwd`. -/
def currentPwd (k : Kernel M) : Name :=
  if (k.tasks k.current).cwdPath = [] then [slash] else (k.tasks k.current).cwdPath

/-- `body` in the directory of the current task. -/
def inCwd {α : Type} (k : Kernel M) (body : FsM α) : FsM α :=
  inTaskCwd (k.tasks k.current).cwd k.currentPwd body

/-- `lookup_root_elf`: by its name, else at the volume root. -/
def lookupRootElf (name : Name) : FsM (Bytes × Nat) := do
  let r ← result (Fs.fsLookup name)
  match r with
  | some r => pure r
  | none =>
    need (name.head? ≠ some slash ∧ name.length + 1 < fdPathMax)
    Fs.fsLookup (slash :: name)

/-! ## Loading a program -/

/-- The stack page from `sp` on: the strings above, then argc, argv and NULL below them. -/
def argvBlock (args : List Name) (top : Nat) : Nat × List UInt8 :=
  let strs := args.map (· ++ [0])
  let lo := top - (strs.map List.length).sum
  let addrs := (List.range strs.length).map fun i => top - ((strs.take (i + 1)).map List.length).sum
  let sp := lo / 8 * 8 - 8 * (args.length + 2)
  let word (v : Nat) := bytes64 (UInt64.ofNat v)
  (sp, word args.length ++ (addrs.map word).flatten ++ word 0 ++ List.replicate (lo % 8) 0 ++
    strs.reverse.flatten)

/-- An argument that `user_push_argv` refuses: empty, or no NUL within `FD_PATH_MAX`. -/
def argRefused (a : Name) : Bool := a = [] || fdPathMax ≤ a.length

/-- The strings in front of the first refused argument, each with its NUL; they are pushed before it
is met. -/
def pushedFirst (args : List Name) : List (List UInt8) :=
  (args.takeWhile fun a => !argRefused a).map (· ++ [0])

/-- Code and stack pages at `userBase`, the image and the arguments; the stack pointer. -/
def loadImage [MemSys M] (k : Kernel M) (cr3 : Nat) (img : Image) (args : List Name) :
    Kernel M × Option Nat :=
  let top := userBase + 2 * pageSize
  let arg := argvBlock args top
  if (k.memAsk (.map cr3 userBase page2M)).isNone then (k.memDo (.map cr3 userBase page2M), none)
  else
    let k := k.memDo (.map cr3 userBase page2M)
    if (k.memAsk (.map cr3 (userBase + pageSize) page2M)).isNone then
      (k.memDo (.map cr3 (userBase + pageSize) page2M), none)
    else
      let k := (k.memDo (.map cr3 (userBase + pageSize) page2M)).memDo (.copyTo cr3 userBase img.code)
      if args.any argRefused then
        let strs := pushedFirst args
        (k.memDo (.copyTo cr3 (top - (strs.map List.length).sum) strs.reverse.flatten), none)
      else (k.memDo (.copyTo cr3 arg.1 arg.2), (k.memAsk (.copyTo cr3 arg.1 arg.2)).map fun _ => arg.1)

/-- The outcome of `user_exec_current`: the frame is armed (0), the old image is kept (-1) or gone (-2). -/
inductive ExecRes where
  | done | kept | gone
deriving DecidableEq, Repr

/-- The new code and stack pages are there. `replace_load_elf` takes them before it drops the old
ones; here the mapping takes them. -/
def twoPages [MemSys M] (k : Kernel M) : Bool :=
  (k.memAsk (.kalloc page2M)).isSome && ((k.memDo (.kalloc page2M)).memAsk (.kalloc page2M)).isSome

/-- `img` is what elf.c made of the file. -/
def userExecCurrent [MemSys M] (k : Kernel M) (name : Name) (img : Option Image) : Kernel M × ExecRes :=
  if k.currentCr3 = pml4Phys ∨ k.twoPages = false then (k, .kept)
  else
    match img with
    | none => (k, .kept)
    | some img =>
      let cr3 := k.currentCr3
      match (k.memDo (.teardown cr3)).loadImage cr3 img [name] with
      | (k, none) => (k.memDo (.teardown cr3), .gone)
      | (k, some sp) => (k.schedResetCurrent img.entry (UInt64.ofNat sp) userBase, .done)

/-- `phys_to_virt(kstack) + PAGE_4K`. -/
def kstackTopOf (phys : Nat) : Nat := hhdmBase + phys + pageSize

/-- A kernel stack, a PML4 and the image; on success a new task. -/
def userSpawn [MemSys M] (k : Kernel M) (name arg : Name) (img : Option Image) : Kernel M × Bool :=
  match img with
  | none => (k, false)
  | some img =>
    match k.memAsk (.kalloc page2M) with
    | none => (k.memDo (.kalloc page2M), false)
    | some kstack =>
      let k := k.memDo (.kalloc page2M)
      match k.memAsk .clone with
      | none => (k.memDo .clone, false)
      | some cr3 =>
        match (k.memDo .clone).loadImage cr3 img (name :: if arg = [] then [] else [arg]) with
        | (k, none) => (k.memDo (.release cr3), false)
        | (k, some sp) =>
          match k.schedAddUser img.entry (UInt64.ofNat sp) (kstackTopOf kstack) userBase cr3 with
          | (k, false) => (k.memDo (.release cr3), false)
          | (k, true) => (k, true)

/-- A program of the kernel shell: its name, argument and what the loader makes of it. -/
structure Prog where
  name : Name
  arg : Name
  elf : Bytes → Nat → Option Image

/-- `lookup_root_elf` and elf.c. -/
def progImage (k : Kernel M) (p : Prog) : Option Image :=
  (k.fsAsk (lookupRootElf p.name)).bind fun r => p.elf r.1 r.2

/-- `sched_fd_bind_pipe` when a pipe is given. -/
def bindPipeIf [MemSys M] (k : Kernel M) (j : Nat) (kind : FdKind) (q : Option Nat) : Kernel M × Bool :=
  q.elim (k, true) fun p => k.schedFdBindPipe j kind p

def userRunFds [MemSys M] (k : Kernel M) (p : Prog) (inPipe outPipe : Option Nat) : Kernel M × Bool :=
  let img := if p.name = [] then none else k.progImage p
  match (k.fsDo (lookupRootElf p.name)).userSpawn p.name p.arg img with
  | (k, false) => (k, false)
  | (k, true) =>
    let k := { k with fgSlot := k.lastAdded }
    match k.bindPipeIf 0 .pipeR inPipe with
    | (k, false) => (k, false)
    | (k, true) => k.bindPipeIf 1 .pipeW outPipe

def userRunPipeline [MemSys M] (k : Kernel M) (left right : Prog) : Kernel M × Bool :=
  match k.allocPipe with
  | (k, none) => (k, false)
  | (k, some p) =>
    match k.userRunFds left none (some p) with
    | (k, false) => (k.schedPipeUnused p, false)
    | (k, true) =>
      match k.userRunFds right (some p) none with
      | (k, false) => (k.schedPipeUnused p, false)
      | (k, true) => (k, true)

/-! ## Memory calls -/

/-- Map `n` fresh pages from `va` on; on failure the ones mapped are unmapped again, last first. -/
def mapPages [MemSys M] (cr3 va : Nat) : Nat → Kernel M → Kernel M × Bool :=
  loopTo fun i k =>
    let k' := k.memDo (.map cr3 (va + i * pageSize) page2M)
    if (k.memAsk (.map cr3 (va + i * pageSize) page2M)).isSome then (k', true)
    else (forTo (fun j k => k.memDo (.unmap cr3 (va + (i - 1 - j) * pageSize))) i k', false)

def unmapPages [MemSys M] (cr3 va : Nat) : Nat → Kernel M → Kernel M × Bool :=
  loopTo fun i k =>
    (k.memDo (.unmap cr3 (va + i * pageSize)), (k.memAsk (.unmap cr3 (va + i * pageSize))).isSome)

/-- Heap starts just after the stack page (BASE+0x2000). rdi=0 queries. -/
def userBrk [MemSys M] (k : Kernel M) (want : Nat) : Kernel M × Option Nat :=
  let cr3 := k.currentCr3
  let t := k.tasks k.current
  if cr3 = pml4Phys ∨ t.userBase = 0 then (k, none)
  else
    let start := t.userBase + 2 * pageSize
    let max := start + userHeapPages * pageSize
    let old := if t.brk < start ∨ t.brk > max then start else t.brk
    if want = 0 then (k, some old)
    else if want < start ∨ want > max then (k, none)
    else
      let res :=
        if pageUp want > pageUp old then mapPages cr3 (pageUp old) ((pageUp want - pageUp old) / pageSize) k
        else unmapPages cr3 (pageUp want) ((pageUp old - pageUp want) / pageSize) k
      if res.2 then (res.1.modTask res.1.current fun t => { t with brk := want }, some want)
        else (res.1, none)

/-- Map N pages at a chosen user VA; a file descriptor copies that file into the mapping. -/
def userMmap [MemSys M] (k : Kernel M) (hint len : Nat) (fd : Int) : Kernel M × Option Nat :=
  let cr3 := k.currentCr3
  let t := k.tasks k.current
  if cr3 = pml4Phys ∨ t.userBase = 0 then (k, none)
  else
    match userPagesOf hint len with
    | none => (k, none)
    | some n =>
      let heap := t.userBase + 2 * pageSize
      if (List.range n).any fun i =>
          (heap ≤ hint + i * pageSize && hint + i * pageSize < heap + userHeapPages * pageSize) ||
            (MemSys.peek k.mem cr3 (hint + i * pageSize)).isSome then (k, none)
      else
        match k.schedFdPath fd with
        | none =>
          let res := mapPages cr3 hint n k
          (res.1, if res.2 then some hint else none)
        | some path =>
          let m := k.inCwd (Fs.fsLookup path)
          match k.fsAsk m with
          | none => (k.fsDo m, none)
          | some (data, flen) =>
            let res := mapPages cr3 hint n (k.fsDo m)
            if res.2 then
              (res.1.memDo (.copyTo cr3 hint ((List.range (min flen (n * pageSize))).map data)), some hint)
            else (res.1, none)

/-- Share user frames read-only; a write fault copies privately. New kstack. -/
def userFork [MemSys M] (k : Kernel M) : Kernel M × Option Nat :=
  if k.currentCr3 = pml4Phys then (k, none)
  else
    match k.memAsk (.kalloc page2M) with
    | none => (k.memDo (.kalloc page2M), none)
    | some kstack =>
      let k := k.memDo (.kalloc page2M)
      match k.memAsk (.fork k.currentCr3) with
      | none => ((k.memDo (.fork k.currentCr3)).memDo (.kfree kstack), none)
      | some cr3 =>
        match (k.memDo (.fork k.currentCr3)).schedFork (kstackTopOf kstack) cr3 with
        | (k, none) => ((k.memDo (.release cr3)).memDo (.kfree kstack), none)
        | (k, some id) => (k, some id)

end Kernel

end VampireOS
