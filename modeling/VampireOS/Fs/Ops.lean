import VampireOS.Fs.Dir

/-!
# The calls of the file system (kernel/fs.c:1040-2047)

| here | there |
| --- | --- |
| `fsCreate` | fs.c:1003 |
| `fsReaddir`, `fsLookup`, `fsStat` | fs.c:1398-1530 |
| `fsWrite`, `fsSync`, `fsTruncate` | fs.c:1533-1660 |
| `otherLinks`, `fsRemove`, `fsRename`, `fsCopy`, `fsLink` | fs.c:911, 1662-1851 |
| `fsMkdir`, `dirEmpty`, `fsRmdir` | fs.c:1861-1997 |
| `fsChdir`, `fsSetcwd`, `fsSetpwd` | fs.c:1999-2047 |

Every call enters the directory of the last path component and leaves it again, so a call fails when
the scan on the way back fails, whatever it has done by then; `within` is that frame.
-/

namespace VampireOS

open Lib

namespace Fs

def modFile (i : Nat) (f : FileEnt → FileEnt) : FsM Unit :=
  upd fun s => { s with files := s.files.modify i f }

/-- `(void)leave_parent(); return -1;` -/
def leaveFail {α : Type} : FsM α := do
  let _ ← attempt leaveParent
  failed

/-- The body of a call and the way back: the call fails when either does. -/
def thenLeave {α : Type} (body : FsM α) : FsM α := do
  let r ← result body
  leaveParent
  orFailWith r

/-- The entry a new name gets: 11 bytes, attribute, first cluster, size 0. -/
def newEntry (n83 : Name) (attr : UInt8) (cl : Nat) : Bytes :=
  wrU16 (Function.update (putBytes (fun _ => 0) 0 (ofList n83) 11) 11 attr) 26 cl

def putEntry (off : Nat) (e : Bytes) : FsM Unit := upd fun s => { s with dir := putBytes s.dir off e 32 }

/-- Write the long-name entries from `off` on, the last part of the name first. -/
def putLfn (off count : Nat) (sum : UInt8) (name : Name) : Nat → FsM Unit
  | 0 => pure ()
  | seq + 1 => do
    putEntry (off + 32 * (count - (seq + 1)))
      (lfnStore (UInt8.ofNat (seq + 1) ||| if seq + 1 = count then 0x40 else 0) sum name (seq * 13))
    putLfn off count sum name seq

/-- Give back a cluster just taken: `fat12_set(g_fat, cl, 0); (void)fat_flush(); return -1;` -/
def giveBack {α : Type} (cl : Nat) : FsM α := do
  fatSet cl 0
  let _ ← attempt fatFlush
  failed

/-- The 8.3 field of a new file, and the number of long-name entries it needs. -/
def createName (name : Name) : FsM (Name × Nat) := do
  match to83 name with
  | some n83 => pure (n83, 0)
  | none =>
    dirLoad
    need (lfnOk name)
    let s ← gets id
    let n83 ← orFailWith (s.makeAlias name)
    let n := (name.length + 12) / 13
    need (1 ≤ n ∧ n ≤ 2)
    pure (n83, n)

/-- `fs_create` in the current directory; the index of the new cache entry. -/
def fsCreate (name : Name) : FsM Nat := do
  let s ← gets id
  need (s.files.length < fsMax)
  let (n83, lfnN) ← createName name
  let page ← pageBuf
  let cl ← result fatAlloc
  match cl with
  | none =>
    dropPage (some page)
    failed
  | some cl =>
    let ok ← attempt fatFlush
    if ok = false then
      fatSet cl 0
      dropPage (some page)
      failed
    else
      let off ← result (dirSlots (lfnN + 1))
      match off with
      | none =>
        dropPage (some page)
        giveBack cl
      | some off =>
        putLfn off lfnN (lfnCksum n83) name lfnN
        putEntry (off + 32 * lfnN) (newEntry n83 0x20 cl)
        let ok ← attempt dirStore
        if ok = false then
          dropPage (some page)
          giveBack cl
        else
          let s ← gets id
          let listed := if lfnN ≠ 0 then name else fatName s.dir (off + 32 * lfnN)
          upd fun s => { s with files := s.files ++ [⟨listed, some page, 0, cl, off + 32 * lfnN, false⟩] }
          pure s.files.length

/-- The names of the cache, separated by blanks, directories with a slash, as far as they fit in `max`. -/
def readdirFrom (max : Nat) (out : Name) : List FileEnt → Name
  | [] => out
  | f :: fs =>
    let item := (if out = [] then [] else [blank]) ++ f.name ++ if f.isDir then [slash] else []
    if item = [] ∨ out.length + item.length > max then out else readdirFrom max (out ++ item) fs

def fsReaddir (s : Fs) (max : Nat) : Name := readdirFrom max [] s.files

/-! ## Looking up -/

/-- Fresh length and contents of the cached file `i`. -/
def refresh (i : Nat) : FsM Nat := do
  dirLoad
  let s ← gets id
  let len := rdU32 s.dir ((s.fileAt i).dirOff + 28)
  modFile i fun f => { f with len := len }
  need (len ≤ fileMax)
  let (data, ok) ← loadFile ((s.fileAt i).data.getD s.junk) (s.fileAt i).cluster len
  modFile i fun f => { f with data := some data }
  need ok
  pure len

/-- A page that outlives the cache of the parent directory. -/
def viewPage : FsM Bytes := do
  let s ← gets id
  match s.view with
  | some v => pure v
  | none =>
    let page ← pageBuf
    upd fun s => { s with view := some page }
    pure page

/-- `fs_lookup`: the contents of a file, and its length. -/
def fsLookup (path : Name) : FsM (Bytes × Nat) := do
  let leaf ← enterParent path
  thenLeave do
    let s ← gets id
    let i ← orFailWith (s.findFile leaf)
    need (!(s.fileAt i).isDir && (s.fileAt i).data.isSome)
    let len ← refresh i
    let s ← gets id
    let data := (s.fileAt i).data.getD s.junk
    if s.cwd ≠ s.savedCwd then
      let v ← viewPage
      let v := putBytes v 0 data len
      upd fun s => { s with view := some v }
      pure (v, len)
    else pure (data, len)

/-- `fs_stat`: size, cluster, is_dir. -/
def fsStat (path : Name) : FsM (Nat × Nat × Bool) := do
  let leaf ← enterParent path
  thenLeave do
    let s ← gets id
    let i ← orFailWith (s.findFile leaf)
    dirLoad
    let s ← gets id
    let f := s.fileAt i
    pure (rdU32 s.dir (f.dirOff + 28), rdU16 s.dir (f.dirOff + 26), f.isDir)

/-! ## Writing -/

/-- Size and first cluster of the entry at `off` of the loaded directory. -/
def putSize (off cl len : Nat) : FsM Unit := upd fun s =>
  { s with dir := wrU16 (wrU32 s.dir (off + 28) len) (off + 26) cl }

/-- The clusters `len` bytes need. -/
def needFor (len : Nat) : Nat := (len + secSize - 1) / secSize

/-- The body of `fs_write` for a file in the cache: `len` bytes of `src`. -/
def writeFile (i : Nat) (src : Bytes) (len : Nat) : FsM Unit :=
  if len = 0 then pure ()
  else do
    need (len ≤ fileMax)
    let s ← gets id
    let (cl, ok) ← fatResize (s.fileAt i).cluster (needFor len)
    modFile i fun f => { f with cluster := cl }
    need ok
    fatFlush
    storeChain cl src len
    dirLoad
    putSize (s.fileAt i).dirOff cl len
    dirStore
    modFile i fun f => { f with data := f.data.map fun d => putBytes d 0 src len, len := len }

def fsWrite (path : Name) (src : Bytes) (len : Nat) : FsM Unit := do
  let leaf ← enterParent path
  let s ← gets id
  match s.findFile leaf with
  | some i => if (s.fileAt i).isDir then leaveFail else thenLeave (writeFile i src len)
  | none =>
    let i ← result (fsCreate leaf)
    match i with
    | none => leaveFail
    | some i => thenLeave (writeFile i src len)

def fsSync : FsM Unit := do
  fatFlush
  dirStore
  driver

/-- `fs_truncate` to 0: every cluster is trailing; drop the chain and leave cluster 0. -/
def truncateZero (i : Nat) : FsM Unit := do
  let s ← gets id
  fatFreeChain (s.fileAt i).cluster
  modFile i fun f => { f with cluster := 0 }
  fatFlush
  dirLoad
  putSize (s.fileAt i).dirOff 0 0
  dirStore
  modFile i fun f => { f with len := 0 }

def truncateTo (i len : Nat) : FsM Unit := do
  let s ← gets id
  let old := (s.fileAt i).len
  let (cl, ok) ← fatResize (s.fileAt i).cluster (needFor len)
  modFile i fun f => { f with cluster := cl }
  need ok
  fatFlush
  if len > old then
    let data := putBytes ((s.fileAt i).data.getD s.junk) old (fun _ => 0) (len - old)
    modFile i fun f => { f with data := some data }
    storeChain cl data len
  dirLoad
  putSize (s.fileAt i).dirOff cl len
  dirStore
  modFile i fun f => { f with len := len }

def fsTruncate (path : Name) (len : Nat) : FsM Unit := do
  need (len ≤ fileMax)
  let leaf ← enterParent path
  let s ← gets id
  match (s.findFile leaf).filter fun i => !(s.fileAt i).isDir && (s.fileAt i).data.isSome with
  | none => leaveFail
  | some i =>
    thenLeave (if len = (s.fileAt i).len then pure () else if len = 0 then truncateZero i
      else truncateTo i len)

/-! ## Names -/

/-- `files[i] = files[file_count - 1]; file_count--;` -/
def swapRemove (fs : List FileEnt) (i : Nat) : List FileEnt :=
  match fs.getLast? with
  | none => fs
  | some l => (fs.set i l).dropLast

/-- `other_links`: how many other file entries of this directory start at `cl`. -/
def otherLinks (s : Fs) (cl skipOff : Nat) : Nat :=
  if cl < 2 then 0
  else
    (entriesFrom s.dir s.dirEnts 0).countP fun i =>
      32 * i ≠ skipOff && !(s.dir (32 * i) = 0xE5 || s.dir (32 * i) = dot ||
        skippedAttr (s.dir (32 * i + 11)) || s.dir (32 * i + 11) &&& 0x10 ≠ 0) &&
        rdU16 s.dir (32 * i + 26) = cl

def removeFile (i : Nat) : FsM Unit := do
  dirLoad
  let s ← gets id
  let f := s.fileAt i
  -- last name on this cluster: free the chain
  if s.otherLinks f.cluster f.dirOff = 0 then
    fatFreeChain f.cluster
    fatFlush
  dirWipe f.dirOff
  dirStore
  upd fun s => { s with files := swapRemove s.files i, pages := s.pages + f.data.toList.length }

def fsRemove (path : Name) : FsM Unit := do
  let leaf ← enterParent path
  thenLeave do
    let s ← gets id
    let i ← orFailWith (s.findFile leaf)
    need (!(s.fileAt i).isDir)
    removeFile i

/-- The directory, `is_dir` and entry bytes of an existing name; the way back is part of it. -/
def grabEntry (path : Name) (ok : FileEnt → Bool) : FsM (Nat × Name × Bool × Bytes) := do
  let leaf ← enterParent path
  let s ← gets id
  match (s.findFile leaf).filter fun i => ok (s.fileAt i) with
  | none => leaveFail
  | some i =>
    let r ← attempt dirLoad
    if r = false then leaveFail
    else
      let s ← gets id
      leaveParent
      pure (s.cwd, leaf, (s.fileAt i).isDir, fromByte s.dir (s.fileAt i).dirOff)

/-- Copy the entry bytes `e` under the 8.3 name `n83` into a free slot. -/
def putCopy (e : Bytes) (n83 : Name) : FsM Unit := do
  let off ← dirSlots 1
  putEntry off e
  upd fun s => { s with dir := putBytes s.dir off (ofList n83) 11 }
  dirStore

/-- `fs_rename` within one directory: new 8.3 bytes in place. -/
def renameHere (leaf n83 : Name) : FsM Unit := do
  let s ← gets id
  let i ← orFailWith (s.findFile leaf)
  dirLoad
  upd fun s => { s with dir := putBytes s.dir (s.fileAt i).dirOff (ofList n83) 11 }
  dirStore
  scanDir

/-- Wipe the source entry of a move. -/
def wipeSource (leaf : Name) : FsM Unit := do
  let s ← gets id
  let i ← orFailWith (s.findFile leaf)
  dirLoad
  dirWipe (s.fileAt i).dirOff
  dirStore
  scanDir

def fsRename (src dst : Name) : FsM Unit := do
  let (srcParent, srcLeaf, isDir, e) ← grabEntry src fun _ => true
  let dstLeaf ← enterParent dst
  let s ← gets id
  match to83 dstLeaf with
  | none => leaveFail
  | some n83 =>
    -- an existing dest name, or a directory leaving its parent
    if (s.findFile dstLeaf).isSome ∨ (isDir ∧ s.cwd ≠ srcParent) then leaveFail
    else if s.cwd = srcParent then thenLeave (renameHere srcLeaf n83)
    else
      -- new dest entry, then 0xE5 the source; file clusters stay put
      let ok ← attempt (putCopy e n83)
      if ok = false then leaveFail
      else
        leaveParent
        let leaf ← enterParent src
        thenLeave (wipeSource leaf)

def fsCopy (src dst : Name) : FsM Unit := do
  let (data, len) ← fsLookup src
  let v ← viewPage
  let v := putBytes v 0 data len
  upd fun s => { s with view := some v }
  fsWrite dst v len

def fsLink (src dst : Name) : FsM Unit := do
  let (_, _, _, e) ← grabEntry src fun f => !f.isDir
  let dstLeaf ← enterParent dst
  let s ← gets id
  match to83 dstLeaf with
  | none => leaveFail
  | some n83 =>
    if (s.findFile dstLeaf).isSome ∨ s.files.length ≥ fsMax then leaveFail
    else
      thenLeave do
        putCopy e n83
        scanDir

/-! ## Directories -/

/-- The first sector of a new directory: `.` and `..`. -/
def dotSector (cl parent : Nat) : Bytes :=
  putBytes (putBytes (fun _ => 0) 0 (newEntry (padTo 11 [dot]) 0x10 cl) 32) 32
    (newEntry (padTo 11 [dot, dot]) 0x10 parent) 32

/-- The directory entry of a new directory whose sector is written. -/
def mkdirEntry (n83 : Name) (cl : Nat) : FsM Unit := do
  let off ← dirSlots 1
  putEntry off (newEntry n83 0x10 cl)
  dirStore

def mkdirBody (n83 : Name) : FsM Unit := do
  let cl ← fatAlloc
  let ok ← attempt fatFlush
  if ok = false then
    fatSet cl 0
    failed
  else
    let s ← gets id
    let ok ← attempt (bwrite (s.geo.dataLba cl) (dotSector cl (if s.cwd < 2 then 0 else s.cwd)))
    if ok = false then giveBack cl
    else
      let ok ← attempt (mkdirEntry n83 cl)
      if ok = false then giveBack cl

def fsMkdir (path : Name) : FsM Unit := do
  let leaf ← enterParent path
  let s ← gets id
  match to83 leaf with
  | none => leaveFail
  | some n83 =>
    if (s.findFile leaf).isSome ∨ s.files.length ≥ fsMax then leaveFail
    else
      thenLeave do
        mkdirBody n83
        scanDir

/-- One sector in `dir_empty`: `some` when the answer is known. -/
def sectorEmpty (b : Bytes) : Option Bool :=
  match (List.range 16).find? fun i => !(b (32 * i) = 0xE5 || b (32 * i) = dot) with
  | none => none
  | some i => some (b (32 * i) = 0)

def dirEmptyFrom : List Nat → FsM Bool
  | [] => pure true
  | cl :: cls => do
    let s ← gets id
    let b ← result (bread (s.geo.dataLba cl))
    match b with
    | none => pure false
    | some b =>
      match sectorEmpty b with
      | some r => pure r
      | none => dirEmptyFrom cls

def dirEmpty (cl : Nat) : FsM Bool := do
  let s ← gets id
  if cl < 2 then pure false else dirEmptyFrom (chain s.geo s.fat chainMax cl)

def rmdirBody (i : Nat) : FsM Unit := do
  let s ← gets id
  fatFreeChain (s.fileAt i).cluster
  fatFlush
  dirLoad
  dirWipe (s.fileAt i).dirOff
  dirStore
  upd fun s => { s with files := swapRemove s.files i }

def fsRmdir (path : Name) : FsM Unit := do
  let leaf ← enterParent path
  thenLeave do
    let s ← gets id
    let i ← orFailWith (s.findFile leaf)
    need ((s.fileAt i).isDir && (s.fileAt i).cluster ≠ s.savedCwd)
    let e ← dirEmpty (s.fileAt i).cluster
    need e
    rmdirBody i

/-! ## The working directory -/

def fsChdir (path : Name) : FsM Unit := do
  need (path ≠ [])
  let s ← gets id
  let p ← orFailWith (pathApply s.path path)
  upd fun s => { s with path := p }
  let ok ← attempt (walkAll path)
  if ok = false then
    let s' ← gets id
    if s'.cwd ≠ s.cwd then
      setCwd s.cwd
      let _ ← attempt scanDir
    upd fun s' => { s' with path := s.path }
    failed

def fsSetcwd (cl : Nat) : FsM Unit := do
  setCwd cl
  scanDir

/-- `fs_setpwd`: `copy_str` writes as far as there is room. -/
def fsSetpwd (path : Name) : FsM Unit := do
  need (path ≠ [])
  if path.length < pathMax then upd fun s => { s with path := path }
  else
    upd fun s => { s with path := path.take (pathMax - 1) ++ s.path.drop (pathMax - 1) }
    failed

end Fs

end VampireOS
