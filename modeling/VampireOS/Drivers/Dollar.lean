import VampireOS.Drivers.Console
import VampireOS.Fs.Start
import VampireOS.Sched.Cwds

/-!
# File commands at `$` (kernel/kbd.c:154-406, 960-1039)

| here | there |
| --- | --- |
| `word`, `twoWords`, `number` | copies and digits of `run_mv`, `run_cp`, `run_ln`, `run_fill`, `run_trunc` |
| `Dollar`, `dollarCmd` | the file commands of `kbd_dollar_builtin`, in the order of its tests |
| `runLs`, `dollarAction` | `run_ls` to `run_mkdir` |
| `runLsIn`, `dollarActionIn` | the same for somebody whose directory is `d` |

`kbd_dollar_builtin` runs in the keyboard interrupt, on the one directory of the file system. A `?` is a
failed action; what is printed besides is the listing of `ls`.
-/

namespace VampireOS

open Lib

/-! ## Arguments -/

/-- Up to 39 characters before a blank, and the rest. -/
def word (s : Name) : Name × Name :=
  let w := (s.takeWhile (· ≠ blank)).take 39
  (w, s.drop w.length)

def skipWs (s : Name) : Name := s.dropWhile (· == blank)

def twoWords (s : Name) : Name × Name :=
  let (a, rest) := word (skipWs s)
  (a, (word (skipWs rest)).1)

def isDigit (c : UInt8) : Bool := 48 ≤ c && c ≤ 57

/-- `len = len * 10 + digit`, in 32 bits. -/
def number (s : Name) : Nat := (s.takeWhile isDigit).foldl (fun n c => (n * 10 + (c.toNat - 48)) % 2 ^ 32) 0

inductive Dollar where
  | ls (arg : Name)
  | cat (p : Name)
  | cp (src dst : Name)
  | mv (src dst : Name)
  | rm (p : Name)
  | ln (src dst : Name)
  | mkdir (p : Name)
  | fill (p : Name) (len : Nat)
  | trunc (p : Name) (len : Option Nat)
deriving DecidableEq, Repr

/-- The file command of an intercepted line, blanks at both ends taken off. -/
def dollarCmd (line : Name) : Option Dollar :=
  let s := stripped line
  let plain := !lineHasMeta s
  let arg n := skipWs (s.drop n)
  if [ascii ['p', 's'], ascii ['h', 'e', 'l', 'p'], ascii ['m', 'e', 'm'], ascii ['d', 'a', 't', 'e'],
      ascii ['s', 'y', 'n', 'c'], ascii ['d', 'e', 'v', 's']].contains s ∨
        cmdIs s (ascii ['k', 'i', 'l', 'l']) then none
  else if cmdIs s (ascii ['m', 'k', 'd', 'i', 'r']) then some (.mkdir (arg 5))
  else if cmdIs s (ascii ['f', 'i', 'l', 'l']) then
    some (.fill (word (arg 4)).1 (number (skipWs (word (arg 4)).2)))
  else if cmdIs s (ascii ['t', 'r', 'u', 'n', 'c']) then
    let rest := skipWs (word (arg 5)).2
    some (.trunc (word (arg 5)).1 (if rest.head?.any isDigit then some (number rest) else none))
  else if cmdIs s (ascii ['r', 'u', 'n']) then none
  else if cmdIs s (ascii ['l', 's']) && plain then some (.ls (arg 2))
  else if cmdIs s (ascii ['c', 'a', 't']) && plain then some (.cat (arg 3))
  else if cmdIs s (ascii ['c', 'p']) then some (.cp (twoWords (s.drop 2)).1 (twoWords (s.drop 2)).2)
  else if cmdIs s (ascii ['l', 'n']) then some (.ln (twoWords (s.drop 2)).1 (twoWords (s.drop 2)).2)
  else if cmdIs s (ascii ['r', 'm']) then some (.rm (arg 2))
  else if cmdIs s (ascii ['m', 'v']) then some (.mv (twoWords (s.drop 2)).1 (twoWords (s.drop 2)).2)
  else none

/-- The checks before the file system is called; `room` is the answer of `kmalloc`. -/
def Dollar.ok (room : Bool) : Dollar → Bool
  | .ls _ => true
  | .cat p => p ≠ []
  | .cp src dst => src ≠ [] && dst ≠ []
  | .mv src dst => src ≠ [] && dst ≠ []
  | .rm p => p ≠ []
  | .ln src dst => src ≠ [] && dst ≠ []
  | .mkdir p => p ≠ []
  | .fill p len => p ≠ [] && len ≠ 0 && len ≤ 0x1000 && room
  | .trunc p len => p ≠ [] && len.isSome

/-- The names that the file system gets; `ls` without one lists where the empty name leads. -/
def Dollar.names : Dollar → List Name
  | .ls arg => [arg]
  | .cat p => [p]
  | .cp src dst => [src, dst]
  | .mv src dst => [src, dst]
  | .rm p => [p]
  | .ln src dst => [src, dst]
  | .mkdir p => [p]
  | .fill p _ => [p]
  | .trunc p _ => [p]

/-! ## What they do -/

namespace Kernel

variable {M : Type}

/-- The names in the cache, with a slash after a directory. -/
def lsText (s : Fs) : Name :=
  (List.intersperse [blank] (s.files.map fun f => f.name ++ if f.isDir then [slash] else [])).flatten

def runLs (arg : Name) : FsM Name := do
  let here ← gets id
  if arg ≠ [] then Fs.fsChdir arg
  let s ← gets id
  if arg ≠ [] then
    let _ ← attempt (Fs.fsSetcwd here.cwd)
    let _ ← attempt (Fs.fsSetpwd (here.path.take 79))
  pure (lsText s)

/-- What a command does to the file system, and the text it prints. -/
def dollarAction (room : Bool) (c : Dollar) : FsM Name := do
  need (c.ok room)
  match c with
  | .ls arg => runLs arg
  | .cat p =>
    let (data, len) ← Fs.fsLookup p
    pure ((List.range len).map data)
  | .cp src dst => (ShellCmd.cp src dst).action; pure []
  | .mv src dst => (ShellCmd.mv src dst).action; pure []
  | .rm p => (ShellCmd.rm p).action; pure []
  | .ln src dst => (ShellCmd.ln src dst).action; pure []
  | .mkdir p => (ShellCmd.mkdir p).action; pure []
  | .fill p len => (ShellCmd.put p (List.replicate len 120)).action; pure []
  | .trunc p len => (ShellCmd.trunc p (len.getD 0)).action; pure []

/-- `kbd_dollar_builtin` on a file command. -/
def dollarBuiltin (k : Kernel M) (room : Bool) (c : Dollar) : Kernel M × Option Name :=
  (k.fsDo (dollarAction room c), k.fsAsk (dollarAction room c))

/-- Exactly task `i` is blocked on console input. -/
def OnlyReader (k : Kernel M) (i : Nat) : Prop :=
  i < k.taskCount ∧ (k.tasks i).state = .kbd ∧ ∀ j < k.taskCount, (k.tasks j).state = .kbd → j = i

end Kernel

/-! ## Where the names start -/

namespace Kernel

variable {M : Type}

/-- `ls` for somebody whose directory is `d`. -/
def runLsIn (d : Nat) (arg : Name) : FsM Name := do
  let here ← gets id
  if arg ≠ [] then Fs.fsChdirIn d arg else Fs.startIn d []
  let s ← gets id
  if arg ≠ [] ∨ s.cwd ≠ here.cwd then
    let _ ← attempt (Fs.fsSetcwd here.cwd)
    let _ ← attempt (Fs.fsSetpwd (here.path.take 79))
  pure (lsText s)

/-- A command whose names start in `d`. -/
def dollarActionIn (d : Nat) (room : Bool) (c : Dollar) : FsM Name := do
  need (c.ok room)
  match c with
  | .ls arg => runLsIn d arg
  | .cat p =>
    let (data, len) ← Fs.fsLookupIn d p
    pure ((List.range len).map data)
  | .cp src dst => Fs.fsCopyIn d src dst; pure []
  | .mv src dst => Fs.fsRenameIn d src dst; pure []
  | .rm p => Fs.fsRemoveIn d p; pure []
  | .ln src dst => Fs.fsLinkIn d src dst; pure []
  | .mkdir p => Fs.fsMkdirIn d p; pure []
  | .fill p len => Fs.fsWriteIn d p (ofList (List.replicate len 120)) len; pure []
  | .trunc p len => Fs.fsTruncateIn d p (len.getD 0); pure []

/-- What the kernel and the console are left with when the names of `c` start in `d`. -/
def dollarIn (k : Kernel M) (room : Bool) (c : Dollar) (d : Nat) : Kernel M × Option Name :=
  (k.fsDo (dollarActionIn d room c), k.fsAsk (dollarActionIn d room c))

/-- The command of the line does what it does with its names started in the directory of task `i`. -/
def NamesInCwd (k : Kernel M) (i : Nat) (room : Bool) (line : Name) : Prop :=
  ∀ c, dollarCmd line = some c → k.dollarBuiltin room c = k.dollarIn room c (k.tasks i).cwd

/-- The line has no name, or names with a leading slash only. -/
def Absolute (room : Bool) (line : Name) : Prop :=
  ∀ c, dollarCmd line = some c → c.ok room = true → ∀ p ∈ c.names, p.head? = some slash

variable {d c : Nat} {q : Name}

theorem runLsIn_alike {arg : Name} (h : Fs.StartsAlike d c arg) :
    Alike (Fs.At c q) (runLsIn d arg) (runLs arg) := by
  by_cases harg : arg = []
  · -- no name: the cache of the directory itself
    subst harg
    intro s hs
    have hstart := Fs.startIn_alike (p := q) h s hs
    rw [Fs.toStart, if_neg (by simp)] at hstart
    change exec (Fs.startIn d [] >>= _) s = exec (runLs []) s
    rw [exec_bind_of hstart]
    change exec (if ([] : Name) ≠ [] ∨ s.cwd ≠ s.cwd then _ else _) s = _
    rw [if_neg (by simp)]
    rfl
  · unfold runLsIn runLs
    refine .after Stays.gets fun here => ?_
    simp only [ne_eq, harg, not_false_eq_true, if_true, true_or]
    exact (Fs.fsChdirIn_alike h).first _

/-- The names of `kbd_dollar_builtin` start in the directory of the file system, and so wherever
that makes no difference. -/
theorem dollarBuiltin_in (k : Kernel M) (room : Bool) (cmd : Dollar)
    (h : cmd.ok room = true → ∀ p ∈ cmd.names, Fs.StartsAlike d k.fs.cwd p) :
    k.dollarBuiltin room cmd = k.dollarIn room cmd d := by
  have hrun : exec (dollarActionIn d room cmd) k.fs = exec (dollarAction room cmd) k.fs := by
    unfold dollarActionIn dollarAction
    cases hok : cmd.ok room with
    | false => rfl
    | true =>
      have hn := h hok
      have hat : Fs.At k.fs.cwd k.fs.path k.fs := ⟨rfl, rfl⟩
      refine Alike.after (P := Fs.At k.fs.cwd k.fs.path) Stays.need (fun _ => ?_) k.fs hat
      cases cmd with
      | ls arg => exact runLsIn_alike (hn arg (by simp [Dollar.names]))
      | cat p => exact (Fs.fsLookupIn_alike (hn p (by simp [Dollar.names]))).first _
      | cp src dst =>
        exact (Fs.fsCopyIn_alike (hn src (by simp [Dollar.names])) (hn dst (by simp [Dollar.names]))).first _
      | mv src dst =>
        exact (Fs.fsRenameIn_alike (hn src (by simp [Dollar.names]))
          (hn dst (by simp [Dollar.names]))).first _
      | rm p => exact (Fs.fsRemoveIn_alike (hn p (by simp [Dollar.names]))).first _
      | ln src dst =>
        exact (Fs.fsLinkIn_alike (hn src (by simp [Dollar.names])) (hn dst (by simp [Dollar.names]))).first _
      | mkdir p => exact (Fs.fsMkdirIn_alike (hn p (by simp [Dollar.names]))).first _
      | fill p len =>
        have hwrite := Fs.fsWriteIn_alike (p := k.fs.path) (hn p (by simp [Dollar.names]))
          (ofList (List.replicate len 120)) len
        simpa only [ShellCmd.action, List.length_replicate] using hwrite.first _
      | trunc p len => exact (Fs.fsTruncateIn_alike (hn p (by simp [Dollar.names])) _).first _
  rw [dollarBuiltin, dollarIn, fsDo, fsAsk, fsDo, fsAsk, hrun]

end Kernel

/-! ## A shell in another directory -/

namespace Kernel

/-- `Plenty`, with the string `s` at 0x401000. -/
structure Named where
  plenty : Plenty

instance : MemSys Named where
  step m op := (⟨(MemSys.step m.plenty op).1⟩, (MemSys.step m.plenty op).2)
  peek _ _ va := some (if va = 0x401000 then 115 else 0)

/-- The root has a file `a` and a directory `s`, in which there is a file `b`. -/
def dirVolume : Fs := { smallVolume with
  disk := fun lba =>
    let dirent (c : UInt8) (attr cl size : UInt8) : List UInt8 :=
      [c] ++ List.replicate 10 0x20 ++ [attr] ++ List.replicate 14 0 ++ [cl, 0, size, 0, 0, 0]
    if lba = 3 then ofList (dirent 65 0x20 2 1 ++ dirent 83 0x10 3 0)
    else if lba = 5 then
      ofList (dirent 46 0x10 3 0 ++ ([46, 46] ++ (dirent 46 0x10 0 0).drop 2) ++ dirent 66 0x20 2 1)
    else fun _ => 0
  fat := fun i => if i = 3 then 0xF8 else if i = 4 then 0x8F else if i = 5 then 0xFF else 0
  files := [⟨[65], some fun _ => 0, 1, 2, 0, false⟩, ⟨[115], none, 0, 3, 32, true⟩] }

/-- A task that has done `chdir("s")` and reads the console. -/
def readerInSub : Kernel Named :=
  (schedInit ⟨⟨0⟩⟩ dirVolume).run [.irq (.start 0 0) 100 [] [.bootTask smallProg], .enter,
  callOf 20 0x401000 0, .syscall { callFrame 8 0 0x401000 with rdx := 39 } smallIo]

end Kernel

end VampireOS
