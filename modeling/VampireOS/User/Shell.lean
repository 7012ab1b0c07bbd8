import VampireOS.Lib.Calls
import VampireOS.Sched.Shape

/-!
# The shell (user/sh.c:187-336)

| here | there |
| --- | --- |
| `Call`, `Answer` | the calls of sh.c and what they return (`-1` is `none` or `false`) |
| `fail`, `applyRedir`, `drop`, `childExec` | sh.c:22, 67, 187-223 |
| `waits`, `startStage`, `stages`, `runCmds` | `run_cmds` (sh.c:249); `started` is `i` at every stage |
| `Line`, `runLine` | one turn of the loop of `main` (sh.c:352), with the `pwd` of `builtin` (sh.c:320) |
| `FdTable.openFile`, `.pipe`, `.close`, `.dup2`, `.inherit` | the calls of sched.c on one task's entries |
| `Proc.Answers` | the calls as the process sees them; `Proc.Later` is what its children do meanwhile |

A file descriptor that the source sets to -1 is `none`. The shell installs no signal handler, so a `wait`
that a signal ends does not return.
-/

namespace VampireOS

open Lib

/-! ## One task's descriptors -/

abbrev FdTable := Nat → FdEntry

namespace FdTable

/-- The lowest free entry from `lo` on. -/
def free (t : FdTable) (lo : Nat) : Option Nat :=
  (List.range fdMax).find? fun j => lo ≤ j ∧ (t j).used = false

/-- The lowest free entry becomes the file `e`. -/
def openFile (t : FdTable) (e : FdEntry) : Option (FdTable × Nat) :=
  (t.free 0).map fun j => (Function.update t j e, j)

/-- The two lowest free entries become the ends of pipe `q`. -/
def pipe (t : FdTable) (q : Nat) : Option (FdTable × Nat × Nat) :=
  (t.free 0).bind fun r => (t.free (r + 1)).map fun w =>
    (Function.update (Function.update t r ⟨true, .pipeR, some q, 0, (t r).path⟩) w
      ⟨true, .pipeW, some q, 0, (t w).path⟩, r, w)

def close (t : FdTable) (fd : Nat) : FdTable × Bool :=
  if fd < fdMax ∧ (t fd).used then (Function.update t fd .empty, true) else (t, false)

/-- The copy of an entry; an end of a pipe that is not in use is not copied. -/
def copy (live : Nat → Bool) (e : FdEntry) : FdEntry × Bool :=
  if e.used = false ∨ e.kind.isPipe = false ∨ e.pipe.any live then (e, true)
  else ({ FdEntry.empty with path := e.path }, false)

def dup2 (t : FdTable) (live : Nat → Bool) (oldfd newfd : Nat) : FdTable × Bool :=
  if oldfd < fdMax ∧ newfd < fdMax ∧ (t oldfd).used then
    if oldfd = newfd then (t, true)
    else (Function.update t newfd (copy live (t oldfd)).1, (copy live (t oldfd)).2)
  else (t, false)

def inherit (t : FdTable) (live : Nat → Bool) : FdTable := fun j => (copy live (t j)).1

end FdTable

/-! ## The program -/

inductive Call where
  | openFile (path : Name) (flags : Nat)
  | pipe
  | fork
  | dup2 (oldfd newfd : Nat)
  | close (fd : Nat)
  | wait
  /-- `exec(names[i])`. -/
  | exec (i : Nat)
  | exit
deriving DecidableEq, Repr

def Answer : Call → Type
  | .openFile _ _ => Option Nat
  | .pipe => Option (Nat × Nat)
  | .fork => Option Nat
  | .dup2 _ _ => Bool
  | .close _ => Bool
  | .wait => Option Nat
  | .exec _ => Unit
  | .exit => Empty

abbrev Sys := Prog Call Answer

namespace Shell

/-- `open(path, flags)`. -/
def openFile (path : Name) (flags : Nat) : Sys (Option Nat) := Prog.ask (Call.openFile path flags)
/-- `pipe(p)`. -/
def pipe : Sys (Option (Nat × Nat)) := Prog.ask Call.pipe
def fork : Sys (Option Nat) := Prog.ask Call.fork
def dup2 (oldfd newfd : Nat) : Sys Bool := Prog.ask (Call.dup2 oldfd newfd)
def close (fd : Nat) : Sys Bool := Prog.ask (Call.close fd)
/-- `wait(0)`. -/
def wait : Sys (Option Nat) := Prog.ask Call.wait
def exec (i : Nat) : Sys Unit := Prog.ask (Call.exec i)

/-- The files of a stage, and `oflag`. -/
structure Redirs where
  inPath : Option Name
  outPath : Option Name
  oflag : Nat

variable {α : Type}

/-- A message, then `exit(1)`. -/
def fail : Sys α := .call .exit nofun

def drop : Option Nat → Sys Unit
  | none => pure ()
  | some fd => do
    let _ ← close fd
    pure ()

def applyRedir (path : Name) (dst flags : Nat) : Sys Bool := do
  match ← openFile path flags with
  | none => pure false
  | some fd =>
    if ← dup2 fd dst then
      drop (some fd |>.filter (· ≠ dst))
      pure true
    else pure false

/-- `if (m fails) fail();`, where `a` asks for it. -/
def orFail {β : Type} (a : Option β) (m : β → Sys Bool) : Sys Unit :=
  match a with
  | none => pure ()
  | some b => do if ← m b then pure () else fail

def childExec (c : Redirs) (i : Nat) (inFd outFd pr pw : Option Nat) : Sys α := do
  orFail inFd (dup2 · 0)
  orFail outFd (dup2 · 1)
  drop (inFd.filter (· ≠ 0))
  drop (outFd.filter (· ≠ 1))
  drop (pr.filter fun fd => fd ≠ 0 ∧ fd ≠ 1)
  drop (pw.filter fun fd => fd ≠ 0 ∧ fd ≠ 1)
  orFail c.inPath (applyRedir · 0 0)
  orFail c.outPath (applyRedir · 1 c.oflag)
  exec i
  fail

/-- `wait(0)`, `started` times. -/
def waits : Nat → Sys Unit
  | 0 => pure ()
  | started + 1 => do
    let _ ← wait
    waits started

/-- The second half of stage `i`, with the pipe `p` if it has one; `next` goes on with the new `in_fd`. -/
def startStage (c : Redirs) (i : Nat) (inFd : Option Nat) (p : Option (Nat × Nat))
    (next : Option Nat → Sys Int) :
    Sys Int := do
  let pr := p.map Prod.fst
  let pw := p.map Prod.snd
  match ← fork with
  | none =>
    drop inFd
    drop pr
    drop pw
    waits i
    pure (-1)
  | some pid =>
    if pid = 0 then childExec c i inFd pw pr pw
    else
      drop inFd
      drop pw
      next pr

/-- The loop of `run_cmds`, with `left` stages to start and `i` started. -/
def stages (cs : Nat → Redirs) (bg : Bool) : (left i : Nat) → (inFd : Option Nat) → Sys Int
  | 0, i, inFd => do
    drop inFd
    if bg then pure () else waits i
    pure 0
  | left + 1, i, inFd => do
    if 0 < left then
      match ← pipe with
      | none =>
        drop inFd
        waits i
        pure (-1)
      | some p => startStage (cs i) i inFd (some p) (stages cs bg left (i + 1))
    else startStage (cs i) i inFd none (stages cs bg left (i + 1))

def runCmds (cs : Nat → Redirs) (n : Nat) (bg : Bool) : Sys Int := stages cs bg n 0 none

/-- What the shell makes of a line; `other` is a line that starts no process (`cd`, a bad or an
empty line). -/
inductive Line where
  | cmds (cs : Nat → Redirs) (n : Nat) (bg : Bool)
  | pwd
  | other

/-- The child of `pwd` writes the path and exits. -/
def pwd : Sys Int := do
  match ← fork with
  | none => pure (-1)
  | some pid =>
    if pid = 0 then fail
    else
      let _ ← wait
      pure 1

def runLine : Line → Sys Int
  | .cmds cs n bg => runCmds cs n bg
  | .pwd => pwd
  | .other => pure 0

end Shell

/-! ## The process and its children -/

inductive KidState where
  | running | zombie | reaped
deriving DecidableEq, Repr

/-- A child: its slot, and the descriptors and the program it starts with. -/
structure Kid (α : Type) where
  slot : Nat
  fds : FdTable
  made : List Nat
  prog : Sys α
  state : KidState

/-- A user process: its descriptors, the pipes that it and its parents up to the shell made (history), and
its children in the order of their forks. -/
structure Proc (α : Type) where
  fds : FdTable
  made : List Nat
  kids : List (Kid α)

variable {α : Type}

def Kid.start (c : Kid α) : Proc α := ⟨c.fds, c.made, []⟩

def Kid.Later (c c' : Kid α) : Prop := c' = c ∨ c.state = .running ∧ c' = { c with state := .zombie }

namespace Proc

/-- Some children have exited meanwhile. -/
def Later (s s' : Proc α) : Prop := ∃ kids, List.Forall₂ Kid.Later s.kids kids ∧ s' = { s with kids := kids }

/-- `find_zombie`: the dead child in the lowest slot. -/
def Finds (s : Proc α) (i : Nat) (c : Kid α) : Prop :=
  s.kids[i]? = some c ∧ c.state = .zombie ∧ ∀ c' ∈ s.kids, c'.state = .zombie → c.slot ≤ c'.slot

def reap (s : Proc α) (i : Nat) : Proc α :=
  { s with kids := s.kids.modify i fun c => { c with state := .reaped } }

/-- The answer of the kernel to a call, and the state after it. A wait with children that all run
has none yet. -/
inductive Answers : (c : Call) → (Answer c → Sys α) → Proc α → Answer c → Proc α → Prop where
  | openFile {s t j} {k : Option Nat → Sys α} (path : Name) (flags : Nat) (e : FdEntry)
      (he : e.used = true ∧ e.kind = .file) (h : s.fds.openFile e = some (t, j)) :
      Answers (.openFile path flags) k s (some j) { s with fds := t }
  | noFile {s} {k : Option Nat → Sys α} (path : Name) (flags : Nat) : Answers (.openFile path flags)
      k s none s
  | pipe {s t r w} {k : Option (Nat × Nat) → Sys α} (q : Nat) (h : s.fds.pipe q = some (t, r, w)) :
      Answers .pipe k s (some (r, w)) { s with fds := t, made := s.made ++ [q] }
  | noPipe {s} {k : Option (Nat × Nat) → Sys α} : Answers .pipe k s none s
  | fork {s} {k : Option Nat → Sys α} (slot : Nat) (live : Nat → Bool) (h : ∀ c ∈ s.kids,
      c.state ≠ .reaped → c.slot ≠ slot) : Answers .fork k s (some slot)
        { s with kids := s.kids ++ [⟨slot, s.fds.inherit live, s.made, k (some 0), .running⟩] }
  | noFork {s} {k : Option Nat → Sys α} : Answers .fork k s none s
  | dup2 {s} {k : Bool → Sys α} (live : Nat → Bool) (oldfd newfd : Nat) :
      Answers (.dup2 oldfd newfd) k s (s.fds.dup2 live oldfd newfd).2
        { s with fds := (s.fds.dup2 live oldfd newfd).1 }
  | close {s} {k : Bool → Sys α} (fd : Nat) :
      Answers (.close fd) k s (s.fds.close fd).2 { s with fds := (s.fds.close fd).1 }
  | wait {s i c} {k : Option Nat → Sys α} (code : Nat) (h : s.Finds i c) : Answers .wait k s
      (some code) (s.reap i)
  | noWait {s} {k : Option Nat → Sys α} (h : ∀ c ∈ s.kids, c.state = .reaped) : Answers .wait k s none s
  | noExec {s} {k : Unit → Sys α} (i : Nat) : Answers (.exec i) k s () s

/-- A call: the children go on, then the kernel answers. -/
def Step (c : Call) (k : Answer c → Sys α) (s : Proc α) (a : Answer c) (s' : Proc α) : Prop :=
  ∃ s1, s.Later s1 ∧ Answers c k s1 a s'

/-- A run of the process. -/
abbrev Runs (p : Sys α) (s : Proc α) (p' : Sys α) (s' : Proc α) : Prop := Prog.Reaches Step p s p' s'

end Proc

/-! ## The kernel's calls on these tables -/

namespace Kernel

variable {M : Type} [MemSys M]

/-- The pipes in use. -/
def livePipe (k : Kernel M) (p : Nat) : Bool := p < pipeMax && (k.pipes p).used

omit [MemSys M] in
theorem wakePipeWaiters_fds (k : Kernel M) (p n : Nat) :
    ((k.wakePipeWaiters p).tasks n).fds = (k.tasks n).fds := by
  simp only [wakePipeWaiters]
  split
  · unfold wakeWaiter
    split <;> rfl
  · rfl

theorem dropFd_fds (k : Kernel M) (i j n m : Nat) : ((k.dropFd i j).tasks n).fds m =
    if (n = i ∧ m = j) ∧ ((k.tasks i).fds j).used = true then .empty else (k.tasks n).fds m := by
  rcases dropFd_cases k i j with ⟨hu, e⟩ | ⟨hu, -, e⟩ | ⟨p, he, -, -, e⟩ <;> rw [e]
  · rw [if_neg fun h => by simp [hu] at h]
  · rw [setFd_fds]
    simp [hu]
  · rw [setFd_fds, dropEnd_tasks, wakePipeWaiters_fds]
    simp [(FdEntry.endOf_some.1 he).1]

omit [MemSys M] in
theorem fdAt_nat {k : Kernel M} (hk : k.taskCount ≠ 0) (fd : Nat) : k.fdAt fd =
    if fd < fdMax ∧ ((k.tasks k.current).fds fd).used = true then some ((k.tasks k.current).fds fd)
    else none := by
  unfold fdAt fdIndex
  rw [if_neg hk]
  by_cases hf : fd < fdMax <;> simp [hf]

theorem schedFdClose_fds (k : Kernel M) (fd : Nat) (hk : k.taskCount ≠ 0) :
    (((k.schedFdClose fd).1.tasks k.current).fds, (k.schedFdClose fd).2) =
      FdTable.close (k.tasks k.current).fds fd := by
  unfold schedFdClose FdTable.close
  rw [fdAt_nat hk]
  split
  · next h =>
    simp only [Option.isSome_some, if_true, Int.toNat_natCast, Prod.mk.injEq, and_true]
    funext m
    rw [dropFd_fds, Function.update_apply]
    simp [h.2]
  · simp

omit [MemSys M] in
theorem linkFd_copy (k : Kernel M) (i j : Nat) (e : FdEntry) :
    (k.linkFd i j e).2 = (FdTable.copy k.livePipe e).2 ∧
    ∀ n m, ((k.linkFd i j e).1.tasks n).fds m =
      if n = i ∧ m = j then (FdTable.copy k.livePipe e).1 else (k.tasks n).fds m := by
  unfold linkFd FdTable.copy pipeOf
  by_cases h : e.used = false ∨ e.kind.isPipe = false
  · rw [if_pos h, if_pos (h.imp_right .inl)]
    exact ⟨rfl, fun n m => setFd_fds ..⟩
  · have hk : e.kind.isPipe = true := by simpa using (not_or.1 h).2
    rw [if_neg h, hk]
    rcases hp : e.pipe with _ | p
    · simp [not_or.1 h, setFd_fds, FdEntry.empty]
    · by_cases hl : k.livePipe p = true
      · have hl' : (p < pipeMax && (k.pipes p).used) = true := hl
        simp [Option.filter, hl', hl, setFd_fds, addRef]
      · have hl' : ¬(p < pipeMax && (k.pipes p).used) = true := hl
        simp [Option.filter, hl', hl, not_or.1 h, setFd_fds, FdEntry.empty]

omit [MemSys M] in
theorem linkFd_live (k : Kernel M) (i j : Nat) (e : FdEntry) (p : Nat) :
    (k.linkFd i j e).1.livePipe p = k.livePipe p := by
  unfold linkFd
  split
  · rfl
  · rcases k.pipeOf e with _ | q
    · rfl
    · simp only [Option.elim_some, livePipe, addRef, modPipe_pipes]
      split
      · next h =>
        subst h
        unfold plusRef
        split <;> rfl
      · rfl

theorem schedFdDup2_fds (k : Kernel M) (a b : Nat) (hk : k.taskCount ≠ 0) :
    (((k.schedFdDup2 a b).1.tasks k.current).fds, (k.schedFdDup2 a b).2.isSome) =
      FdTable.dup2 (k.tasks k.current).fds (k.dropFd k.current b).livePipe a b := by
  have hidx : fdIndex b = if b < fdMax then some b else none := by
    unfold fdIndex
    by_cases hb : b < fdMax <;> simp [hb]
  unfold schedFdDup2 FdTable.dup2
  rw [fdAt_nat hk, hidx]
  by_cases ha : a < fdMax ∧ ((k.tasks k.current).fds a).used = true
  · by_cases hb : b < fdMax
    · rw [if_pos ha, if_pos hb, if_pos ⟨ha.1, hb, ha.2⟩]
      by_cases hab : a = b
      · simp [hab]
      · obtain ⟨hl, hf⟩ := linkFd_copy (k.dropFd k.current b) k.current b ((k.tasks k.current).fds a)
        simp only [Int.natCast_inj, hab, if_false, hl, Prod.mk.injEq]
        refine ⟨funext fun m => ?_, ?_⟩
        · rw [hf, dropFd_fds, Function.update_apply]
          by_cases hm : m = b <;> simp [hm]
        · cases (FdTable.copy (k.dropFd k.current b).livePipe ((k.tasks k.current).fds a)).2 <;> rfl
    · have hn : ¬(a < fdMax ∧ b < fdMax ∧ ((k.tasks k.current).fds a).used = true) := fun h => hb h.2.1
      rw [if_neg hn, if_pos ha, if_neg hb]
      rfl
  · have hn : ¬(a < fdMax ∧ b < fdMax ∧ ((k.tasks k.current).fds a).used = true) := fun h => ha ⟨h.1, h.2.2⟩
    rw [if_neg hn, if_neg ha]
    rfl

omit [MemSys M] in
theorem freeFd_fds (t : Task) (lo : Nat) : freeFd t lo = FdTable.free t.fds lo := rfl

theorem schedPipe_fds {k k' : Kernel M} {r w : Nat} (h : k.schedPipe = (k', some (r, w))) :
    ∃ q, FdTable.pipe (k.tasks k.current).fds q = some ((k'.tasks k.current).fds, r, w) := by
  unfold schedPipe at h
  split at h
  · cases h
  · split at h
    · cases h
    · next r' w' hrw =>
      rcases allocPipe_cases k with e | ⟨p, phys, -, -, -, e⟩ <;> rw [e] at h
      · cases h
      · simp only [Prod.mk.injEq, Option.some.injEq] at h
        obtain ⟨rfl, rfl, rfl⟩ := h
        refine ⟨p, ?_⟩
        obtain ⟨r'', hr, hw⟩ := Option.bind_eq_some_iff.1 hrw
        obtain ⟨w'', hw, hpair⟩ := Option.map_eq_some_iff.1 hw
        cases hpair
        simp only [FdTable.pipe, ← freeFd_fds, hr, hw, Option.bind_some, Option.map_some, Option.some.injEq,
          Prod.mk.injEq, and_true]
        funext m
        rw [setFd_fds, setFd_fds, Function.update_apply, Function.update_apply]
        simp [memDo]

omit [MemSys M] in
theorem inheritFds_fds (k : Kernel M) {dst src : Nat} (hne : src ≠ dst) {j : Nat} (hj : j < fdMax) :
    ((k.inheritFds dst src).tasks dst).fds j = FdTable.inherit (k.tasks src).fds k.livePipe j := by
  -- the loop has done the entries below `x`; the others of `dst`, and those of `src`, are as before
  have h : ∀ x, (∀ m, ((forTo (fun j k => (k.linkFd dst j ((k.tasks src).fds j)).1) x k).tasks src).fds m =
        ((k.tasks src).fds m)) ∧
      (∀ p, (forTo (fun j k => (k.linkFd dst j ((k.tasks src).fds j)).1) x k).livePipe p = k.livePipe p) ∧
      ∀ m < x, ((forTo (fun j k => (k.linkFd dst j ((k.tasks src).fds j)).1) x k).tasks dst).fds m =
        (FdTable.copy k.livePipe ((k.tasks src).fds m)).1 := by
    intro x
    induction x with
    | zero => exact ⟨fun m => rfl, fun p => rfl, nofun⟩
    | succ x ih =>
      obtain ⟨h1, h2, h3⟩ := ih
      have hl := funext h2
      simp only [forTo]
      refine ⟨fun m => ?_, fun p => ?_, fun m hm => ?_⟩
      · rw [(linkFd_copy _ _ _ _).2, if_neg fun h => hne h.1, h1]
      · rw [linkFd_live, h2]
      · rw [(linkFd_copy _ _ _ _).2]
        by_cases hmx : m = x
        · subst hmx
          rw [if_pos ⟨rfl, rfl⟩, hl, h1]
        · rw [if_neg fun h => hmx h.2]
          exact h3 m (by omega)
  exact (h fdMax).2.2 j hj

end Kernel

end VampireOS
