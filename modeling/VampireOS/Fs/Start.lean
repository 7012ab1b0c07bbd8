import VampireOS.Fs.Cwd
import VampireOS.Lib.Twin

/-!
# Names that start in a given directory (kernel/fs.c:245-367)

`walk_all` and `enter_parent` look the first component of a name up in the directory of the file
system, or at the root when it begins with a slash. `startIn d` is that first step for a name that
starts in directory `d`, and each call below is the one of `Ops` with its names started there: the
meaning of a file command for somebody whose directory is `d`.

| here | there |
| --- | --- |
| `toStart` | the first step of `walk_all` and `enter_parent` |
| `enterParentIn`, `walkAllIn` | `enter_parent`, `walk_all` for a name that starts in `d` |
| `fsLookupIn` to `fsChdirIn` | the calls, with each name started in `d` |

Where `d` is the directory of the file system, or no name is relative, they run like the calls themselves.
-/

namespace VampireOS

open Lib

namespace Fs

/-- The first step of a walk: a leading slash leads to the root. -/
def toStart (path : Name) : FsM Unit := if path.head? = some slash then toRoot else pure ()

theorem walkAll_eq (path : Name) : walkAll path = toStart path >>= fun _ => walkFrom (components path) := by
  unfold walkAll toStart
  split <;> rfl

theorem enterParent_eq (path : Name) : enterParent path = (do
    upd fun s => { s with savedCwd := s.cwd }
    need (path ≠ [])
    let leaf ← result (toStart path >>= fun _ => enterFrom (components path))
    match leaf with
    | some leaf => pure leaf
    | none =>
      let _ ← attempt leaveParent
      failed) := by
  unfold enterParent toStart
  split <;> rfl

/-- The same directory; 0 and 1 are the root. -/
def SameDir (a b : Nat) : Prop := a = b ∨ a < 2 ∧ b < 2

instance (a b : Nat) : Decidable (SameDir a b) := inferInstanceAs (Decidable (_ ∨ _))

/-! ## The calls -/

section
variable (d : Nat)

/-- The first step of a walk that starts in directory `d`. -/
def startIn (path : Name) : FsM Unit :=
  if path.head? = some slash then toRoot
  else do
    let s ← gets id
    if SameDir d s.cwd then pure () else fsSetcwd d

def walkAllIn (path : Name) : FsM Unit := do
  startIn d path
  walkFrom (components path)

def enterParentIn (path : Name) : FsM Name := do
  upd fun s => { s with savedCwd := s.cwd }
  need (path ≠ [])
  let leaf ← result (startIn d path >>= fun _ => enterFrom (components path))
  match leaf with
  | some leaf => pure leaf
  | none =>
    let _ ← attempt leaveParent
    failed

def fsLookupIn (path : Name) : FsM (Bytes × Nat) := do
  let leaf ← enterParentIn d path
  thenLeave do
    let s ← gets id
    let i ← orFailWith (s.findFile leaf)
    need (!(s.fileAt i).isDir && (s.fileAt i).data.isSome)
    let len ← refresh i
    let s ← gets id
    let data := (s.fileAt i).data.getD s.junk
    if s.cwd ≠ s.savedCwd then
      let v ← viewPage
      let v := putBytes v 0 data len
      upd fun s => { s with view := some v }
      pure (v, len)
    else pure (data, len)

def fsWriteIn (path : Name) (src : Bytes) (len : Nat) : FsM Unit := do
  let leaf ← enterParentIn d path
  let s ← gets id
  match s.findFile leaf with
  | some i => if (s.fileAt i).isDir then leaveFail else thenLeave (writeFile i src len)
  | none =>
    let i ← result (fsCreate leaf)
    match i with
    | none => leaveFail
    | some i => thenLeave (writeFile i src len)

def fsTruncateIn (path : Name) (len : Nat) : FsM Unit := do
  need (len ≤ fileMax)
  let leaf ← enterParentIn d path
  let s ← gets id
  match (s.findFile leaf).filter fun i => !(s.fileAt i).isDir && (s.fileAt i).data.isSome with
  | none => leaveFail
  | some i =>
    thenLeave (if len = (s.fileAt i).len then pure () else if len = 0 then truncateZero i
      else truncateTo i len)

def fsRemoveIn (path : Name) : FsM Unit := do
  let leaf ← enterParentIn d path
  thenLeave do
    let s ← gets id
    let i ← orFailWith (s.findFile leaf)
    need (!(s.fileAt i).isDir)
    removeFile i

def grabEntryIn (path : Name) (ok : FileEnt → Bool) : FsM (Nat × Name × Bool × Bytes) := do
  let leaf ← enterParentIn d path
  let s ← gets id
  match (s.findFile leaf).filter fun i => ok (s.fileAt i) with
  | none => leaveFail
  | some i =>
    let r ← attempt dirLoad
    if r = false then leaveFail
    else
      let s ← gets id
      leaveParent
      pure (s.cwd, leaf, (s.fileAt i).isDir, fromByte s.dir (s.fileAt i).dirOff)

def fsRenameIn (src dst : Name) : FsM Unit := do
  let (srcParent, srcLeaf, isDir, e) ← grabEntryIn d src fun _ => true
  let dstLeaf ← enterParentIn d dst
  let s ← gets id
  match to83 dstLeaf with
  | none => leaveFail
  | some n83 =>
    if (s.findFile dstLeaf).isSome ∨ (isDir ∧ s.cwd ≠ srcParent) then leaveFail
    else if s.cwd = srcParent then thenLeave (renameHere srcLeaf n83)
    else
      let ok ← attempt (putCopy e n83)
      if ok = false then leaveFail
      else
        leaveParent
        let leaf ← enterParentIn d src
        thenLeave (wipeSource leaf)

def fsCopyIn (src dst : Name) : FsM Unit := do
  let (data, len) ← fsLookupIn d src
  let v ← viewPage
  let v := putBytes v 0 data len
  upd fun s => { s with view := some v }
  fsWriteIn d dst v len

def fsLinkIn (src dst : Name) : FsM Unit := do
  let (_, _, _, e) ← grabEntryIn d src fun f => !f.isDir
  let dstLeaf ← enterParentIn d dst
  let s ← gets id
  match to83 dstLeaf with
  | none => leaveFail
  | some n83 =>
    if (s.findFile dstLeaf).isSome ∨ s.files.length ≥ fsMax then leaveFail
    else
      thenLeave do
        putCopy e n83
        scanDir

def fsMkdirIn (path : Name) : FsM Unit := do
  let leaf ← enterParentIn d path
  let s ← gets id
  match to83 leaf with
  | none => leaveFail
  | some n83 =>
    if (s.findFile leaf).isSome ∨ s.files.length ≥ fsMax then leaveFail
    else
      thenLeave do
        mkdirBody n83
        scanDir

def fsChdirIn (path : Name) : FsM Unit := do
  need (path ≠ [])
  let s ← gets id
  let p ← orFailWith (pathApply s.path path)
  upd fun s => { s with path := p }
  let ok ← attempt (walkAllIn d path)
  if ok = false then
    let s' ← gets id
    if s'.cwd ≠ s.cwd then
      setCwd s.cwd
      let _ ← attempt scanDir
    upd fun s' => { s' with path := s.path }
    failed

end

/-! ## Where the start is the same -/

/-- From directory `c`, `path` starts where it starts from `d`. -/
def StartsAlike (d c : Nat) (path : Name) : Prop := path.head? = some slash ∨ SameDir d c

variable {d c : Nat} {p path src dst : Name}

theorem startIn_alike (h : StartsAlike d c path) : Alike (At c p) (startIn d path) (toStart path) := by
  intro s hs
  unfold startIn toStart
  by_cases habs : path.head? = some slash
  · rw [if_pos habs, if_pos habs]
  · rw [if_neg habs, if_neg habs]
    change exec (if SameDir d s.cwd then pure () else fsSetcwd d) s = _
    rw [hs.1, if_pos (h.resolve_left habs)]

theorem walkAllIn_alike (h : StartsAlike d c path) : Alike (At c p) (walkAllIn d path) (walkAll path) := by
  rw [walkAll_eq]
  exact (startIn_alike h).first _

theorem enterParentIn_alike (h : StartsAlike d c path) :
    Alike (At c p) (enterParentIn d path) (enterParent path) := by
  rw [enterParent_eq]
  refine .after (Q := fun _ => At c p) (E := At c p) (.change fun _ hs => hs) fun _ => .after
    Stays.need fun _ => ?_
  exact ((startIn_alike h).first _).result.first _

theorem fsLookupIn_alike (h : StartsAlike d c path) : Alike (At c p) (fsLookupIn d path) (fsLookup path) :=
  (enterParentIn_alike h).first _

theorem fsWriteIn_alike (h : StartsAlike d c path) (data : Bytes) (len : Nat) :
    Alike (At c p) (fsWriteIn d path data len) (fsWrite path data len) := (enterParentIn_alike h).first _

theorem fsTruncateIn_alike (h : StartsAlike d c path) (len : Nat) :
    Alike (At c p) (fsTruncateIn d path len) (fsTruncate path len) :=
  .after Stays.need fun _ => (enterParentIn_alike h).first _

theorem fsRemoveIn_alike (h : StartsAlike d c path) : Alike (At c p) (fsRemoveIn d path) (fsRemove path) :=
  (enterParentIn_alike h).first _

theorem grabEntryIn_alike (h : StartsAlike d c path) (ok : FileEnt → Bool) :
    Alike (At c p) (grabEntryIn d path ok) (grabEntry path ok) := (enterParentIn_alike h).first _

theorem fsMkdirIn_alike (h : StartsAlike d c path) : Alike (At c p) (fsMkdirIn d path) (fsMkdir path) :=
  (enterParentIn_alike h).first _

/-- The second name starts where the first did: the way back lies between them. -/
theorem fsLinkIn_alike (hs : StartsAlike d c src) (hd : StartsAlike d c dst) :
    Alike (At c p) (fsLinkIn d src dst) (fsLink src dst) :=
  (grabEntryIn_alike hs _).bind (grabEntry_back src _ c p) fun _ => (enterParentIn_alike hd).first _

theorem fsCopyIn_alike (hs : StartsAlike d c src) (hd : StartsAlike d c dst) :
    Alike (At c p) (fsCopyIn d src dst) (fsCopy src dst) :=
  (fsLookupIn_alike hs).bind (fsLookup_back src c p) fun _ => .after
    (comesBack_of_cached viewPage_cached c p) fun _ =>
    .after (comesBack_of_cached (setView_cached _) c p) fun _ => fsWriteIn_alike hd _ _

theorem fsRenameIn_alike (hs : StartsAlike d c src) (hd : StartsAlike d c dst) :
    Alike (At c p) (fsRenameIn d src dst) (fsRename src dst) := by
  refine (grabEntryIn_alike hs _).bind (grabEntry_back src _ c p) fun _ =>
    (enterParentIn_alike hd).bind (enterParent_spec dst) fun leaf => .after (within_away .gets)
    fun s => ?_
  cases to83 leaf with
  | none => exact .refl
  | some n83 =>
    refine .ite .refl (.ite .refl (.after (within_away (putCopy_within _ _).attempt) fun ok => .ite .refl ?_))
    -- a move to another directory goes back for the source
    exact .after leaveParent_spec fun _ => (enterParentIn_alike hs).first _

theorem fsChdirIn_alike (h : StartsAlike d c path) : Alike (At c p) (fsChdirIn d path) (fsChdir path) := by
  refine .after Stays.need fun _ => .after Stays.gets fun _ => .after Stays.orFailWith fun q => ?_
  refine .after (Q := fun _ => At c q) (E := At c q) (.change fun s hs => ⟨hs.1, rfl⟩) fun _ => ?_
  exact (walkAllIn_alike h).attempt.first _

end Fs

end VampireOS
