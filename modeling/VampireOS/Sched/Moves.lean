import Mathlib.Logic.Relation
import VampireOS.Lib.Fiber
import VampireOS.Memory.Frames
import VampireOS.Fs.Cwd
import VampireOS.Sched.Syscall

/-!
# What the scheduler can do

Every function of sched.c and every trap is a sequence of a few kinds of moves: descriptors are dropped
and bound, pipes are made, filled and emptied, a task blocks, is born, dies or is reaped, and everything
else (`Quiet`) changes nothing that the invariants of the following files look at. An invariant is proved for
each move once; this file names the moves and Functions.lean finds them in the code.

Three things are known in the middle of a function and not from the tables: a pipe that `alloc_pipe`
has made and that has no end yet (`raw`), a task that a signal is about to end (`doomed`), and the
frames that were allocated and not yet entered anywhere (`loose`).
-/

namespace VampireOS

def TaskState.blocked : TaskState → Bool
  | .dead => false
  | .ready => false
  | _ => true

/-- The pipe end an entry is, if it is one. -/
def FdEntry.endOf (e : FdEntry) : Option (FdKind × Nat) :=
  if e.used && e.kind.isPipe then e.pipe.map (e.kind, ·) else none

/-- Both say the same to the scheduler; offset and path may differ. -/
def FdEntry.Like (e e' : FdEntry) : Prop := e'.used = e.used ∧ e'.kind = e.kind ∧ e'.pipe = e.pipe

namespace Kernel

variable {M : Type}

/-! ## Fields after an update -/

section
variable (k : Kernel M) (i j : Nat) (f : Task → Task) (e : FdEntry) (p : Nat) (u : Pipe → Pipe)

@[simp] theorem modTask_tasks : (k.modTask i f).tasks j = if j = i then f (k.tasks i) else k.tasks j := by
  unfold modTask
  by_cases h : j = i
  · subst h; simp
  · simp [h]

@[simp] theorem modTask_pipes : (k.modTask i f).pipes = k.pipes := rfl
@[simp] theorem modTask_taskCount : (k.modTask i f).taskCount = k.taskCount := rfl
@[simp] theorem modTask_current : (k.modTask i f).current = k.current := rfl
@[simp] theorem modTask_mode : (k.modTask i f).mode = k.mode := rfl
@[simp] theorem modTask_hist : (k.modTask i f).hist = k.hist := rfl
@[simp] theorem modTask_mem : (k.modTask i f).mem = k.mem := rfl
@[simp] theorem modTask_fs : (k.modTask i f).fs = k.fs := rfl
@[simp] theorem modTask_frame : (k.modTask i f).frame = k.frame := rfl

@[simp] theorem modPipe_pipes (q : Nat) :
    (k.modPipe p u).pipes q = if q = p then u (k.pipes p) else k.pipes q := by
  unfold modPipe
  by_cases h : q = p
  · subst h; simp
  · simp [h]

@[simp] theorem modPipe_tasks : (k.modPipe p u).tasks = k.tasks := rfl
@[simp] theorem modPipe_taskCount : (k.modPipe p u).taskCount = k.taskCount := rfl
@[simp] theorem modPipe_current : (k.modPipe p u).current = k.current := rfl
@[simp] theorem modPipe_mode : (k.modPipe p u).mode = k.mode := rfl
@[simp] theorem modPipe_hist : (k.modPipe p u).hist = k.hist := rfl
@[simp] theorem modPipe_mem : (k.modPipe p u).mem = k.mem := rfl
@[simp] theorem modPipe_fs : (k.modPipe p u).fs = k.fs := rfl

theorem setFd_tasks : (k.setFd i j e).tasks = fun i' =>
    if i' = i then { k.tasks i with fds := Function.update (k.tasks i).fds j e } else k.tasks i' := by
  funext i'
  exact modTask_tasks k i i' _

@[simp] theorem setFd_pipes : (k.setFd i j e).pipes = k.pipes := rfl
@[simp] theorem setFd_taskCount : (k.setFd i j e).taskCount = k.taskCount := rfl
@[simp] theorem setFd_current : (k.setFd i j e).current = k.current := rfl
@[simp] theorem setFd_mode : (k.setFd i j e).mode = k.mode := rfl
@[simp] theorem setFd_hist : (k.setFd i j e).hist = k.hist := rfl
@[simp] theorem setFd_mem : (k.setFd i j e).mem = k.mem := rfl
@[simp] theorem setFd_fs : (k.setFd i j e).fs = k.fs := rfl

/-- Only the entry at `(i, j)` is another one. -/
theorem setFd_fds (i' j' : Nat) :
    ((k.setFd i j e).tasks i').fds j' = if i' = i ∧ j' = j then e else (k.tasks i').fds j' := by
  rw [setFd_tasks]
  by_cases hi : i' = i
  · subst hi
    by_cases hj : j' = j
    · subst hj; simp
    · simp [hj]
  · simp [hi]

end

/-! ## Quiet steps -/

/-- Memory calls other than those that take or return a frame of the kernel. -/
inductive MemRun [MemSys M] (m : M) : M → Prop where
  | refl : MemRun m m
  | tail {m' : M} (h : MemRun m m') (op : SpaceOp) (hop : op.kernel = false) : MemRun m (MemSys.step m' op).1

/-- A task that at most wakes up; registers change only while it is READY. -/
structure Calm (t t' : Task) : Prop where
  state : t'.state = t.state ∨ (t.state.blocked ∧ t'.state = .ready)
  parent : t'.parent = t.parent
  reaped : t'.reaped = t.reaped
  waitPid : t'.state = .wait → t'.waitPid = t.waitPid
  pipeWait : t'.state = .pipe → t'.pipeWait = t.pipeWait
  regs : t.state ≠ .ready → t'.regs = t.regs
  cr3 : t.state ≠ .dead → t'.cr3 = t.cr3
  cwd : t.state ≠ .dead → t'.cwd = t.cwd ∧ t'.cwdPath = t.cwdPath
  kstack : t'.kstackTop = t.kstackTop
  bits : t.pending < 4 → t'.pending < 4
  fds : ∀ j, FdEntry.Like (t.fds j) (t'.fds j)

theorem Calm.refl (t : Task) : Calm t t where
  state := .inl rfl
  parent := rfl
  reaped := rfl
  waitPid := fun _ => rfl
  pipeWait := fun _ => rfl
  regs := fun _ => rfl
  cr3 := fun _ => rfl
  cwd := fun _ => ⟨rfl, rfl⟩
  kstack := rfl
  bits := id
  fds := fun _ => ⟨rfl, rfl, rfl⟩

/-- A slot that changes or wakes up with its registers and pending signals, and does not leave a wait. -/
structure Mild (t t' : Task) : Prop extends Calm t t' where
  sameRegs : t'.regs = t.regs
  samePending : t'.pending = t.pending
  stays : t.state = .wait → t'.state = .wait

theorem Mild.refl (t : Task) : Mild t t := ⟨Calm.refl t, rfl, rfl, id⟩

/-- Out of sleep, or away from the keyboard. -/
theorem Mild.wake {t : Task} (h : t.state = .sleep ∨ t.state = .kbd) : Mild t { t with state := .ready } where
  toCalm := { Calm.refl t with
    state := .inr ⟨by rcases h with h | h <;> rw [h] <;> rfl, rfl⟩, waitPid := nofun, pipeWait := nofun }
  sameRegs := rfl
  samePending := rfl
  stays hw := by rcases h with h | h <;> rw [h] at hw <;> cases hw

/-- The part of the history that births, deaths and waits write. -/
structure SameLife (h h' : History) : Prop where
  born : h'.born = h.born
  uid : h'.uid = h.uid
  forkedBy : h'.forkedBy = h.forkedBy
  died : h'.died = h.died
  death : h'.death = h.death
  reports : h'.reports = h.reports
  stale : h'.stale = h.stale
  orphaned : h'.orphaned = h.orphaned
  waiting : h'.waiting = h.waiting
  deserted : h.deserted ≤ h'.deserted
  caught : h.caught ≤ h'.caught
  skipped : h.skipped ≤ h'.skipped

theorem SameLife.refl (h : History) : SameLife h h :=
  ⟨rfl, rfl, rfl, rfl, rfl, rfl, rfl, rfl, rfl, le_rfl, le_rfl, le_rfl⟩

/-- The registers of slot `i`: in the frame while it runs, else saved. -/
def regsOf (k : Kernel M) (i : Nat) : Frame :=
  if k.mode = .user ∧ k.current = i then k.frame else (k.tasks i).regs

/-- A task in a wait keeps its registers and goes on waiting, unless a signal is pending. -/
def Held (k k' : Kernel M) (i : Nat) : Prop :=
  ((k.tasks i).pending ≠ 0 → (k'.tasks i).pending ≠ 0) ∧
    ((k'.tasks i).pending ≠ 0 ∨
      (k'.regsOf i = k.regsOf i ∧ ((k.tasks i).state = .wait → (k'.tasks i).state = .wait)))

theorem Held.of_same {k k' : Kernel M} {i : Nat} (ht : k'.tasks i = k.tasks i)
    (hr : k'.regsOf i = k.regsOf i) :
    Held k k' i := ⟨by rw [ht]; exact id, .inr ⟨hr, by rw [ht]; exact id⟩⟩

structure Quiet [MemSys M] (k k' : Kernel M) : Prop where
  task : ∀ i, Calm (k.tasks i) (k'.tasks i)
  pipes : k'.pipes = k.pipes
  count : k'.taskCount = k.taskCount
  current : k'.current = k.current
  mode : k'.mode = k.mode
  hist : SameLife k.hist k'.hist
  mem : MemRun k.mem k'.mem
  cwd : k'.fs.cwd = k.fs.cwd ∧ k'.fs.path = k.fs.path
  waits : ∀ i, k.hist.waiting i = true → k.hist.caught < k'.hist.caught ∨ Held k k' i

/-! ## Moves -/

structure Ghost where
  raw : Option Nat
  doomed : Option Nat
  loose : Finset Nat

/-- The kinds of moves that not every function makes: wait or give the processor away, stop for
good, because of an exception or not, make a task after that, change a task's working directory, run
a command of the kernel shell on the volume. -/
inductive Label where
  | swap | halt | stop | late | chdir | shell

/-- The current task goes into state `s`. -/
def blocked (k : Kernel M) (s : TaskState) (f : Task → Task) : Kernel M :=
  { k.saveTask.modTask k.current fun t => { f t with state := s } with mode := .idle }

/-- The system call in `f`, made by a task with descriptors `fds`, would block on pipe `p`. -/
def WouldBlock (f : Frame) (fds : Nat → FdEntry) (q : Pipe) (p : Nat) : Prop :=
  wantOf f.rdx ≠ 0 ∧ ∃ j, fdIndex (toInt f.rdi) = some j ∧
    ((f.rax = 8 ∧ (fds j).endOf = some (.pipeR, p) ∧ q.len = 0 ∧ 0 < q.wrefs) ∨
      (f.rax = 1 ∧ f.rdi.toNat < fdMax ∧ (fds j).endOf = some (.pipeW, p) ∧ pipeCap ≤ q.len ∧ 0 < q.rrefs))

/-- A child slot that a wait for `want` by slot `i` looks for. -/
def Awaited (k : Kernel M) (i want j : Nat) : Prop := k.childOf i j = true ∧ wanted want j = true

/-- A child is awaited that still lives, and none that is dead. -/
def CanWait (k : Kernel M) (i want : Nat) : Prop :=
  (∃ j, k.Awaited i want j ∧ (k.tasks j).state ≠ .dead) ∧ ∀ j, k.Awaited i want j → (k.tasks j).state ≠ .dead

inductive Move [MemSys M] (A : Label → Prop) : Ghost × Kernel M → Ghost × Kernel M → Prop where
  | quiet {g : Ghost} {k k' : Kernel M} (h : Quiet k k') : Move A (g, k) (g, k')
  | trap {g : Ghost} {k : Kernel M} (f : Frame) (hm : k.mode = .user) : Move A (g, k) (g, k.trap f)
  | chdir {g : Ghost} {k : Kernel M} (c : Nat) (pwd : Name) (hA : A .chdir) (hm : k.mode = .user) :
      Move A (g, k) (g, k.modTask k.current fun t => { t with cwd := c, cwdPath := pwd })
  | shell {g : Ghost} {k : Kernel M} (s : Fs) (hA : A .shell) (hs : Fs.PathOk s.path) :
      Move A (g, k) (g, { k with fs := s })
  -- descriptors and pipes
  | drop {g : Ghost} {k : Kernel M} (i j : Nat) : Move A (g, k) (g, k.dropFd i j)
  | setFd {g : Ghost} {k : Kernel M} (i j : Nat) (e : FdEntry) (h0 : ((k.tasks i).fds j).endOf = none)
      (he : e.endOf = none) (hl : (k.tasks i).state ≠ .dead) (hj : j < fdMax) : Move A (g, k)
        (g, k.setFd i j e)
  | addEnd {g : Ghost} {k : Kernel M} (i j p : Nat) (e : FdEntry) (h0 : ((k.tasks i).fds j).endOf = none)
      (he : e.endOf = some (e.kind, p)) (hp : p < pipeMax) (hu : (k.pipes p).used = true)
      (hl : (k.tasks i).state ≠ .dead) (hj : j < fdMax) : Move A (g, k) (g, (k.setFd i j e).addRef e.kind p)
  | alloc {g : Ghost} {k : Kernel M} {p : Nat} (hr : g.raw = none) (h : k.allocPipe.2 = some p) :
      Move A (g, k) ({ g with raw := some p }, k.allocPipe.1)
  | settle {g : Ghost} {k : Kernel M} {p : Nat} (hr : g.raw = some p)
      (h : (k.pipes p).used = true → 0 < (k.pipes p).rrefs + (k.pipes p).wrefs) :
      Move A (g, k) ({ g with raw := none }, k)
  | discard {g : Ghost} {k : Kernel M} {p : Nat} (hr : g.raw = some p) (hp : p < pipeMax)
      (hu : (k.pipes p).used = true) (h0 : (k.pipes p).rrefs = 0 ∧ (k.pipes p).wrefs = 0) :
      Move A (g, k) ({ g with raw := none }, k.freePipe p)
  | read {g : Ghost} {k : Kernel M} (fd : Int) (n : Nat) : Move A (g, k) (g, (k.schedPipeRead fd n).1)
  | write {g : Ghost} {k : Kernel M} (fd : Int) (src : List UInt8) : Move A (g, k)
      (g, (k.schedPipeWrite fd src).1)
  -- the processor
  | pause {g : Ghost} {k : Kernel M} (s : TaskState) (f : Task → Task) (hA : A .swap) (hm : k.mode = .user)
      (hs : s = .sleep ∨ s = .kbd) (hf : ∀ t : Task, t.state = .ready → Calm t (f t) ∧ (f t).regs = t.regs ∧
        (f t).pending = t.pending) : Move A (g, k) (g, k.blocked s f)
  | blockPipe {g : Ghost} {k : Kernel M} (p : Nat) (hA : A .swap) (hm : k.mode = .user)
      (hu : (k.pipes p).used = true) (hw : WouldBlock k.frame (k.tasks k.current).fds (k.pipes p) p) :
      Move A (g, k) (g, k.blocked .pipe fun t => { t with pipeWait := some p })
  | load {g : Ghost} {k : Kernel M} (i : Nat) (hA : A .swap) (hm : k.mode ≠ .user) (hi : i < k.taskCount)
      (hr : (k.tasks i).state = .ready) : Move A (g, k) (g, k.switchTo i)
  | swap {g : Ghost} {k : Kernel M} (i : Nat) (hA : A .swap) (hm : k.mode = .user) (hn : i ≠ k.current)
      (hi : i < k.taskCount) (hr : (k.tasks i).state = .ready) : Move A (g, k) (g, k.saveTask.switchTo i)
  | halt {g : Ghost} {k : Kernel M} (hA : A .halt) (hm : k.mode = .idle)
      (h : (∀ i, (k.tasks i).state = .dead) ∨ 0 < k.hist.deserted) : Move A (g, k)
        (g, { k with mode := .halt })
  | stop {g : Ghost} {k : Kernel M} (hA : A .halt) (hS : A .stop) : Move A (g, k)
      (g, { k with mode := .stop })
  -- births, deaths and waits
  | grow {g : Ghost} {k : Kernel M} (h : k.taskCount < taskMax) :
      Move A (g, k) (g, { k with
        taskCount := k.taskCount + 1, current := if k.taskCount = 0 then 0 else k.current })
  | spawn {g : Ghost} {k : Kernel M} (i f : Nat) (parent : Option Nat) (t : Task)
      (hA : k.mode = .halt → A .late) (hi : i < k.taskCount) (hd : slotReusable (k.tasks i) = true)
      (hk : (k.tasks i).kstackTop = 0) (hc : t.cr3 ≠ 0) (ht : t.kstackTop = kstackTopOf f)
      (hf : f ∈ g.loose) (hp : ∀ q, parent = some q → q = k.current ∧ k.mode = .user) :
      Move A (g, k) ({ g with loose := g.loose.erase f }, k.spawnTask i parent t)
  | doom {g : Ghost} {k : Kernel M} (hInt hTerm : UInt64) (f : Frame) (hA : A .swap) (hm : k.mode = .user) :
      Move A (g, k) ({ g with doomed := some k.current },
        { k.modTask k.current fun t => { t with pending := 0, handlerInt := hInt, handlerTerm := hTerm } with
          frame := f
          hist := { k.hist with waiting := Function.update k.hist.waiting k.current false } })
  | die {g : Ghost} {k : Kernel M} (code : UInt8) (hA : A .swap) (hm : k.mode = .user)
      (hf : ∀ j, ((k.tasks k.current).fds j).used = false) :
      Move A (g, k) ({ g with doomed := none },
        { k.finishTask k.current code with mode := .idle })
  | blockWait {g : Ghost} {k : Kernel M} (w : Nat) (hA : A .swap) (hm : k.mode = .user)
      (hw : k.CanWait k.current w) : Move A (g, k)
      (g, k.asks.blocked .wait fun t => { t with waitPid := w })
  | reap {g : Ghost} {k : Kernel M} (child : Nat) (hA : A .swap) (hm : k.mode = .user)
      (hc : k.childOf k.current child = true) (hd : (k.tasks child).state = .dead) :
      Move A (g, k) (g, (k.asks.reapChild k.current child).setRax (k.tasks child).exitCode.toUInt64)
  | refuse {g : Ghost} {k : Kernel M} (hA : A .swap) (hm : k.mode = .user) : Move A (g, k)
      (g, k.asks.setRax minusOne)
  | askPending {g : Ghost} {k : Kernel M} (hA : A .swap) (hm : k.mode = .user)
      (hp : (k.tasks k.current).pending ≠ 0) : Move A (g, k) (g, k.asks)
  -- frames of the kernel
  | take {g : Ghost} {k : Kernel M} {a f : Nat} (h : k.memAsk (.kalloc a) = some f) :
      Move A (g, k) ({ g with loose := insert f g.loose }, k.memDo (.kalloc a))
  | noFrame {g : Ghost} {k : Kernel M} {a : Nat} (h : k.memAsk (.kalloc a) = none) :
      Move A (g, k) (g, k.memDo (.kalloc a))
  | give {g : Ghost} {k : Kernel M} {f : Nat} (h : f ∈ g.loose) :
      Move A (g, k) ({ g with loose := g.loose.erase f }, k.memDo (.kfree f))
  | freeKstack {g : Ghost} {k : Kernel M} (i : Nat) (hd : (k.tasks i).state = .dead) :
      Move A (g, k) (g, k.freeTaskKstack i)

abbrev Moves [MemSys M] (A : Label → Prop) : Ghost × Kernel M → Ghost × Kernel M → Prop :=
  Relation.ReflTransGen (Move A)

end Kernel

end VampireOS
