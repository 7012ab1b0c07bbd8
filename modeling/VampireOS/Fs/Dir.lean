import VampireOS.Fs.Volume

/-!
# Directories and paths (kernel/fs.c)

| here | there |
| --- | --- |
| `components` | what `split_next` yields until it returns 0 (fs.c:219); an over-long one is `none` |
| `pathPop`, `pathPush`, `pathApply` | fs.c:130-217 |
| `dirLoad`, `dirStore`, `dirFindRun`, `dirGrow`, `dirSlots`, `dirWipe` | fs.c:541-728 |
| `to83`, `lfnOk`, `aliasUsed`, `makeAlias`, `lfnStore` | fs.c:462-498, 730-895 |
| `fatName`, `lfnCksum`, `lfnBuild` | fs.c:1093-1205 |
| `scanDir` | fs.c:1230 |
| `chdirOne`, `walkAll`, `enterParent`, `leaveParent` | fs.c:245-367 |

A directory is read into the page `dir` as a whole; entry `i` is the 32 bytes from `32 * i` on.
-/

namespace VampireOS

open Lib

def slash : UInt8 := 47
def dot : UInt8 := 46
def blank : UInt8 := 32

namespace Fs

/-! ## Paths -/

def components (path : Name) : List (Option Name) :=
  ((path.splitOn slash).filter fun c => c ≠ []).map fun c => if c.length < nameMax then some c else none

def isDot (c : Name) : Bool := c = [dot]
def isDotDot (c : Name) : Bool := c = [dot, dot]

/-- `path_pop`: cut at the last slash that is not the first byte. -/
def pathPop (p : Name) : Name :=
  let keep := (p.reverse.dropWhile (· ≠ slash)).tail.reverse
  if keep = [] then [slash] else keep

def pathPush (p c : Name) : Option Name :=
  if c = [] then none
  else
    let q := (if p = [slash] then p else p ++ [slash]) ++ c
    if q.length < pathMax then some q else none

def pathApplyFrom (p : Name) : List (Option Name) → Option Name
  | [] => some p
  | none :: _ => none
  | some c :: cs =>
    if isDot c then pathApplyFrom p cs
    else if isDotDot c then pathApplyFrom (pathPop p) cs
    else (pathPush p c).bind fun q => pathApplyFrom q cs

/-- `path_apply`: the new `g_path`; `none` leaves it as it was. -/
def pathApply (p path : Name) : Option Name :=
  pathApplyFrom (if path.head? = some slash then [slash] else p) (components path)

/-! ## The directory page -/

/-- The sectors of the current directory, at most `CHAIN_MAX` of them. -/
def dirSectors (s : Fs) : List Nat :=
  if s.cwd < 2 then
    s.geo.firstRoot :: (chain s.geo s.fat (chainMax - 1) (s.fatEnt 1)).map s.geo.dataLba
  else (chain s.geo s.fat chainMax s.cwd).map s.geo.dataLba

def dirLoadFrom (off : Nat) : List Nat → FsM Unit
  | [] => upd fun s => { s with dirBytes := off }
  | lba :: rest => do
    let b ← bread lba
    upd fun s => { s with dir := putBytes s.dir off b secSize }
    dirLoadFrom (off + secSize) rest

def dirLoad : FsM Unit := do
  let s ← gets id
  dirLoadFrom 0 s.dirSectors
  need (s.dirSectors ≠ [])

def dirStoreFrom (off : Nat) : List Nat → FsM Unit
  | [] => do
    let s ← gets id
    need (s.dirBytes ≤ off)
  | lba :: rest => do
    let s ← gets id
    if s.dirBytes ≤ off then pure ()
    else
      bwrite lba (fromByte s.dir off)
      dirStoreFrom (off + secSize) rest

def dirStore : FsM Unit := do
  let s ← gets id
  need (s.dirBytes ≠ 0)
  dirStoreFrom 0 s.dirSectors

def dirEnts (s : Fs) : Nat := s.dirBytes / 32

/-- `c == 0 || c == 0xE5`. -/
def freeMark (c : UInt8) : Bool := c = 0 || c = 0xE5

/-- The loop of `dir_find_run` with `left` entries to go, at entry `i`, after a run of `run` free ones. -/
def findRunFrom (d : Bytes) (count : Nat) : Nat → Nat → Nat → Option Nat
  | 0, _, _ => none
  | left + 1, i, run =>
    if freeMark (d (32 * i)) then
      if run + 1 ≥ count then some (32 * (i - run)) else findRunFrom d count left (i + 1) (run + 1)
    else findRunFrom d count left (i + 1) 0

def dirFindRun (s : Fs) (count : Nat) : Option Nat :=
  if count = 0 then none else findRunFrom s.dir count s.dirEnts 0 0

/-- The last cluster of the current directory; FAT entry 1 heads the extension of the root. -/
def dirLast (s : Fs) : Nat :=
  if s.cwd < 2 then (chain s.geo s.fat (chainMax - 1) (s.fatEnt 1)).getLastD 1
  else (chain s.geo s.fat chainMax s.cwd).getLastD s.cwd

def dirGrow : FsM Unit := do
  let s ← gets id
  need (s.dirBytes + secSize ≤ chainMax * secSize)
  let nxt ← fatAlloc
  fatSet s.dirLast nxt
  let ok ← attempt fatFlush
  if ok then
    upd fun s => { s with
      dir := putBytes s.dir s.dirBytes (fun _ => 0) secSize, dirBytes := s.dirBytes + secSize }
  else
    fatSet s.dirLast fat12Eof
    fatSet nxt 0
    let _ ← attempt fatFlush
    failed

def dirSlots (count : Nat) : FsM Nat := do
  dirLoad
  let s ← gets id
  match s.dirFindRun count with
  | some off => pure off
  | none =>
    dirGrow
    let s ← gets id
    orFailWith (s.dirFindRun count)

def wipeBack (d : Bytes) : Nat → Bytes
  | 0 => d
  | i + 1 =>
    if freeMark (d (32 * i)) || d (32 * i + 11) ≠ 0x0F then d
      else wipeBack (Function.update d (32 * i) 0xE5) i

/-- `dir_wipe`: the entry and the long-name entries directly before it. -/
def dirWipe (off : Nat) : FsM Unit := upd fun s =>
  { s with dir := wipeBack (Function.update s.dir off 0xE5) (off / 32) }

/-! ## Names -/

def nameChar (c : UInt8) : Bool := (97 ≤ c && c ≤ 122) || (48 ≤ c && c ≤ 57)
def foldAz (c : UInt8) : UInt8 := if 65 ≤ c && c ≤ 90 then c + 32 else c
def upper (c : UInt8) : UInt8 := if 97 ≤ c && c ≤ 122 then c - 32 else c

/-- Letters and digits in upper case; `none` if there is another character. -/
def upperName (l : Name) : Option Name :=
  if l.all fun c => nameChar (foldAz c) then some (l.map fun c => upper (foldAz c)) else none

def padTo (n : Nat) (l : Name) : Name := l ++ List.replicate (n - l.length) blank

/-- `to_83`: the 11 bytes of an 8.3 name. -/
def to83 (name : Name) : Option Name :=
  let base := (name.takeWhile (· ≠ dot)).take 8
  let rest := name.drop base.length
  match upperName base with
  | none => none
  | some b =>
    if b = [] then none
    else
      match rest with
      | [] => some (padTo 8 b ++ padTo 3 [])
      | c :: ext =>
        if c ≠ dot ∨ ext = [] ∨ ext.length > 3 then none
        else (upperName ext).map fun e => padTo 8 b ++ padTo 3 e

def lfnOk (name : Name) : Bool :=
  name ≠ [] && name.length < nameMax && name.all fun c => c = dot || nameChar (foldAz c)

/-- Attribute and volume-label test of the directory walks. -/
def skippedAttr (a : UInt8) : Bool := a = 0x0F || a &&& 0x08 ≠ 0

/-- The 11 name bytes of the entry at `off`. -/
def name83 (d : Bytes) (off : Nat) : Name := (List.range 11).map fun i => d (off + i)

/-- Entries `i, i + 1, …` up to the first one that starts with 0. -/
def entriesFrom (d : Bytes) : Nat → Nat → List Nat
  | 0, _ => []
  | left + 1, i => if d (32 * i) = 0 then [] else i :: entriesFrom d left (i + 1)

def aliasUsed (s : Fs) (n83 : Name) : Bool :=
  (entriesFrom s.dir s.dirEnts 0).any fun i =>
    !(s.dir (32 * i) = 0xE5 || skippedAttr (s.dir (32 * i + 11))) && name83 s.dir (32 * i) = n83

/-- The part before the last dot, and the part after it when there is one. -/
def splitDot (name : Name) : Name × Option Name :=
  if dot ∈ name then
    ((name.reverse.dropWhile (· ≠ dot)).tail.reverse, some (name.reverse.takeWhile (· ≠ dot)).reverse)
  else (name, none)

def makeAlias (s : Fs) (name : Name) : Option Name :=
  let keep (l : Name) (n : Nat) :=
    ((l.filter fun c => nameChar (foldAz c)).map fun c => upper (foldAz c)).take n
  let base := keep (splitDot name).1 8
  let ext := (splitDot name).2.elim [] fun e => keep e 3
  if base = [] then none
  else
    ((List.range 9).map fun g => padTo 8 (base.take 6 ++ [126, UInt8.ofNat (49 + g)]) ++
      padTo 3 ext).find? fun a =>
      !s.aliasUsed a

def lfnSlot : List Nat := [1, 3, 5, 7, 9, 14, 16, 18, 20, 22, 24, 28, 30]

/-- `lfn_store`: one long-name entry with the characters from `start` on. -/
def lfnStore (seq sum : UInt8) (name : Name) (start : Nat) : Bytes := fun o =>
  if o = 0 then seq
  else if o = 11 then 0x0F
  else if o = 13 then sum
  else
    match lfnSlot.findIdx? fun p => p = o ∨ p + 1 = o with
    | none => 0
    | some i =>
      if name.length < start + i then 0xFF
      else if lfnSlot.getD i 0 = o then name.getD (start + i) 0 else 0

def lower (c : UInt8) : UInt8 := if 65 ≤ c && c ≤ 90 then c + 32 else c

/-- The characters that `fat_name` writes in front of the terminator. -/
def fatChars (d : Bytes) (off : Nat) : Name :=
  let part (a n : Nat) := (((List.range n).map fun i => d (off + a + i)).takeWhile (· ≠ blank)).map lower
  part 0 8 ++ if d (off + 8) ≠ blank then dot :: part 8 3 else []

/-- `fat_name`, read back as a string: a zero in the entry ends it early. -/
def fatName (d : Bytes) (off : Nat) : Name := (fatChars d off).takeWhile (· ≠ 0)

def lfnCksum (n83 : Name) : UInt8 :=
  n83.foldl (fun (s c : UInt8) => (if s &&& 1 ≠ 0 then (0x80 : UInt8) else 0) + (s >>> 1) + c) 0

/-- `lfn_chars`: the characters of one entry behind `out`. -/
def lfnChars (d : Bytes) (off : Nat) (out : Name) : Option Name :=
  if d (off + 11) ≠ 0x0F ∨ d (off + 12) ≠ 0 then none
  else
    let chars := (lfnSlot.map fun p => (d (off + p), d (off + p + 1))).takeWhile fun c => c ≠ (0, 0)
    if chars.all (fun c => c.2 = 0 && 0x20 ≤ c.1) && out.length + chars.length < nameMax then
      some (out ++ chars.map Prod.fst)
    else none

/-- `lfn_build` on the `count` entries from entry `first` on, which name the 8.3 entry at `off`. -/
def lfnBuild (d : Bytes) (first count off : Nat) : Option Name :=
  let sum := lfnCksum (name83 d off)
  let good i := d (32 * (first + i)) = (UInt8.ofNat (count - i) ||| if i = 0 then 0x40 else 0) &&
    d (32 * (first + i) + 13) = sum
  if count = 0 ∨ count > 2 ∨ !(List.range count).all good then none
  else
    (((List.range count).reverse.foldl
      (fun acc i => acc.bind fun out => lfnChars d (32 * (first + i)) out) (some []))).filter fun n => n ≠ []

/-! ## Scanning -/

/-- Where the long-name run stands: its first entry and length. -/
abbrev LfnRun := Option (Nat × Nat)

/-- The run after a long-name entry at `i`. -/
def nextRun (d : Bytes) (i : Nat) (run : LfnRun) : LfnRun :=
  if d (32 * i) &&& 0x40 ≠ 0 then some (i, 1)
  else run.bind fun r => if r.2 < 2 then some (r.1, r.2 + 1) else none

/-- The listed name of the 8.3 entry `i`. -/
def entryName (d : Bytes) (i : Nat) (run : LfnRun) : Name :=
  (run.bind fun r => lfnBuild d r.1 r.2 (32 * i)).getD (fatName d (32 * i))

/-- An entry `scan_dir` passes over without looking further. -/
def skipMark (c : UInt8) : Bool := c = 0xE5 || c = 0x05 || c = dot

/-- The loop of `scan_dir` at entry `i`, with `left` entries to go. -/
def scanFrom : Nat → Nat → LfnRun → FsM Unit
  | 0, _, _ => pure ()
  | left + 1, i, run => do
    let s ← gets id
    let d := s.dir
    let attr := d (32 * i + 11)
    if s.files.length ≥ fsMax ∨ d (32 * i) = 0 then pure ()
    else if skipMark (d (32 * i)) then scanFrom left (i + 1) none
    else if attr = 0x0F then scanFrom left (i + 1) (nextRun d i run)
    else if attr &&& 0x08 ≠ 0 then scanFrom left (i + 1) none
    else
      let f : FileEnt := ⟨entryName d i run, none, 0, rdU16 d (32 * i + 26), 32 * i, false⟩
      if attr &&& 0x10 ≠ 0 then
        upd fun s => { s with files := s.files ++ [{ f with isDir := true }] }
        scanFrom left (i + 1) none
      else
        let sz := rdU32 d (32 * i + 28)
        if sz > fileMax then scanFrom left (i + 1) none
        else
          let page ← pageBuf
          -- an unreadable chain keeps the name
          let (data, _) ← loadFile page f.cluster sz
          upd fun s => { s with files := s.files ++ [{ f with data := some data, len := sz }] }
          scanFrom left (i + 1) none

def dropAll : List FileEnt → FsM Unit
  | [] => pure ()
  | f :: fs => do
    dropPage f.data
    dropAll fs

def scanDir : FsM Unit := do
  let s ← gets id
  dropAll s.files
  upd fun s => { s with files := [] }
  dirLoad
  let s ← gets id
  scanFrom s.dirEnts 0 none

/-! ## Walking -/

/-- `find_file`. -/
def findFile (s : Fs) (name : Name) : Option Nat :=
  if name = [] then none else s.files.findIdx? fun f => f.name = name

def fileAt (s : Fs) (i : Nat) : FileEnt := s.files.getD i ⟨[], none, 0, 0, 0, false⟩

def setCwd (cl : Nat) : FsM Unit := upd fun s => { s with cwd := cl }

/-- `dir_lba`. -/
def dirLba (s : Fs) : Nat := if s.cwd < 2 then s.geo.firstRoot else s.geo.dataLba s.cwd

def chdirOne (name : Name) : FsM Unit := do
  let s ← gets id
  if isDot name then pure ()
  else if isDotDot name then
    if s.cwd < 2 then pure ()
    else
      let b ← bread s.dirLba
      setCwd (rdU16 b 58)
      scanDir
  else
    let i ← orFailWith (s.findFile name)
    need (s.fileAt i).isDir
    setCwd (s.fileAt i).cluster
    scanDir

/-- A leading slash: back to the root. -/
def toRoot : FsM Unit := do
  let s ← gets id
  if s.cwd ≥ 2 then
    setCwd 0
    scanDir

def walkFrom : List (Option Name) → FsM Unit
  | [] => pure ()
  | none :: _ => failed
  | some c :: cs => do
    chdirOne c
    walkFrom cs

def walkAll (path : Name) : FsM Unit := do
  if path.head? = some slash then toRoot
  walkFrom (components path)

/-- The walk of `enter_parent`: all components but the last. -/
def enterFrom : List (Option Name) → FsM Name
  | [] => failed
  | [some c] => pure c
  | some c :: some c' :: cs => do
    chdirOne c
    enterFrom (some c' :: cs)
  | _ => failed

/-- `g_cwd = g_saved_cwd` with a scan, when they differ. -/
def leaveParent : FsM Unit := do
  let s ← gets id
  if s.cwd ≠ s.savedCwd then
    setCwd s.savedCwd
    scanDir

/-- `enter_parent`: go to the directory of the last component, which is the answer. -/
def enterParent (path : Name) : FsM Name := do
  upd fun s => { s with savedCwd := s.cwd }
  need (path ≠ [])
  let leaf ← result do
    if path.head? = some slash then toRoot
    enterFrom (components path)
  match leaf with
  | some leaf => pure leaf
  | none =>
    let _ ← attempt leaveParent
    failed

end Fs

end VampireOS
