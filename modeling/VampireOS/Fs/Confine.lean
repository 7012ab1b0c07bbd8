import VampireOS.Fs.Init

/-!
# Where the file system writes (kernel/fs.c, kernel/bio.c:17-70)

Every write is a flush of the FATs, a store of the root sector or a store to a cluster (`Target`).
An invariant that survives the primitive steps (`Closed`) survives every call; here it says that a
write that reached the driver had such a target and was not past the end of the device.
-/

namespace VampireOS

open Lib

/-! ## Calls -/

/-- The calls of fs.h that work on the volume. -/
inductive FsCall where
  | readdir
  | lookup (path : Name)
  | stat (path : Name)
  | write (path : Name) (src : Bytes) (len : Nat)
  | sync
  | truncate (path : Name) (len : Nat)
  | remove (path : Name)
  | rename (src dst : Name)
  | copy (src dst : Name)
  | link (src dst : Name)
  | mkdir (path : Name)
  | rmdir (path : Name)
  | chdir (path : Name)
  | setcwd (cl : Nat)
  | setpwd (path : Name)

namespace FsCall

def run : FsCall → FsM Unit
  | readdir => pure ()
  | lookup path => do
    let _ ← Fs.fsLookup path
  | stat path => do
    let _ ← Fs.fsStat path
  | write path src len => Fs.fsWrite path src len
  | sync => Fs.fsSync
  | truncate path len => Fs.fsTruncate path len
  | remove path => Fs.fsRemove path
  | rename src dst => Fs.fsRename src dst
  | copy src dst => Fs.fsCopy src dst
  | link src dst => Fs.fsLink src dst
  | mkdir path => Fs.fsMkdir path
  | rmdir path => Fs.fsRmdir path
  | chdir path => Fs.fsChdir path
  | setcwd cl => Fs.fsSetcwd cl
  | setpwd path => Fs.fsSetpwd path

end FsCall

/-- What the world offers a call: frames for buffers, and what the driver will answer. -/
structure Offer where
  pages : Nat
  errs : List Bool

namespace Fs

def supplied (s : Fs) (o : Offer) : Fs := { s with pages := o.pages, errs := o.errs }

/-- The state after a sequence of calls, whether they succeed or not. -/
def after (s : Fs) (cs : List (FsCall × Offer)) : Fs :=
  cs.foldl (fun s c => (exec c.1.run (s.supplied c.2)).2) s

/-! ## Invariants of the primitive steps -/

/-- A sector the file system writes on a volume with geometry `g`. -/
def Target (g : Geo) (lba : Nat) : Prop :=
  lba = g.firstRoot ∨ ∃ cl, 2 ≤ cl ∧ (cl < fat12Eof ∨ cl ≤ g.clusters + 1) ∧ lba = g.dataLba cl

structure Closed (g : Geo) (I : Fs → Prop) : Prop where
  geo : ∀ s, I s → s.geo = g
  cached : ∀ s s', Cached s s' → I s → I s'
  fat : ∀ s fat, I s → I { s with fat := fat }
  cwd : ∀ s cl, I s → I { s with cwd := cl }
  savedCwd : ∀ s, I s → I { s with savedCwd := s.cwd }
  path : ∀ s p, I s → I { s with path := p }
  flush : Stays I fatFlush
  write : ∀ lba b, Target g lba → Stays I (bwrite lba b)

/-- The loops over a chain only see cluster numbers. -/
theorem chain_isCluster (g : Geo) (fat : Bytes) (n : Nat) :
    ∀ start : Nat, ∀ cl ∈ chain g fat n start, isCluster cl = true := by
  induction n with
  | zero => intro start cl h; cases h
  | succ n ih =>
    intro start cl h
    unfold chain at h
    split at h
    · rcases List.mem_cons.1 h with rfl | h
      · assumption
      · exact ih _ _ h
    · cases h

variable {g : Geo} {I : Fs → Prop} (hI : Closed g I)

section
include hI

theorem Closed.read {α : Type} {m : FsM α} (h : Keeps Cached m) : Stays I m := h.stays hI.cached

theorem Closed.edit {f : Fs → Fs} (h : ∀ s, Cached s (f s)) : Stays I (upd f) :=
  .upd fun s => hI.cached _ _ (h s)

theorem Closed.fatSet (cl val : Nat) : Stays I (Fs.fatSet cl val) := .upd fun s => hI.fat s _

theorem Closed.setCwd (cl : Nat) : Stays I (Fs.setCwd cl) := .upd fun s => hI.cwd s cl

theorem Closed.allocated : Triple I Fs.fatAlloc (fun cl s => I s ∧ 2 ≤ cl ∧ cl ≤ g.clusters + 1) I := by
  refine Triple.read fun s hs => Triple.take (fun _ h => h) fun cl hcl => ?_
  have hmem := List.mem_of_find?_eq_some hcl
  rw [hI.geo s hs] at hmem
  obtain ⟨i, hi, e⟩ := List.mem_map.1 hmem
  have hi := List.mem_range.1 hi
  refine Triple.bind (hI.fatSet cl fat12Eof) fun _ => ?_
  exact Triple.pure.conseq (fun s hs => ⟨hs, by omega, by omega⟩) (fun _ _ h => h) fun _ h => h

theorem Closed.fatAlloc : Stays I Fs.fatAlloc :=
  hI.allocated.conseq (fun _ h => h) (fun _ _ h => h.1) fun _ h => h

theorem Closed.fatClear (cls : List Nat) : Stays I (Fs.fatClear cls) := by
  induction cls with
  | nil => exact .pure
  | cons cl cls ih => exact (hI.fatSet cl 0).bind fun _ => ih

theorem Closed.fatFreeChain (cl : Nat) : Stays I (Fs.fatFreeChain cl) := .read fun _ _ => hI.fatClear _

theorem Closed.fatExtend (n : Nat) : ∀ cls : List Nat, Stays I (Fs.fatExtend n cls) := by
  induction n with
  | zero => intro cls; exact .pure
  | succ n ih =>
    intro cls
    refine hI.fatAlloc.result.bind fun cl => ?_
    cases cl with
    | none => exact .pure
    | some cl =>
      simp only
      cases cls.getLast? with
      | none => exact ih _
      | some prev => exact (hI.fatSet prev cl).bind fun _ => ih _

theorem Closed.fatResize (start count : Nat) : Stays I (Fs.fatResize start count) :=
  .ite (fun _ => .pure) fun _ => .read fun _ _ => (hI.fatExtend _ _).bind fun _ => .ite
    (fun _ => (hI.fatClear _).bind fun _ => (hI.fatSet _ _).bind fun _ => .pure) fun _ => .pure

/-- The sector of a cluster in a chain. -/
theorem Closed.cluster {s : Fs} (hs : I s) {cl : Nat} (h : isCluster cl = true) (b : Bytes) :
    Stays I (bwrite (s.geo.dataLba cl) b) := by
  unfold isCluster at h
  simp only [Bool.and_eq_true, decide_eq_true_eq] at h
  exact hI.write _ _ (.inr ⟨cl, h.1, .inl h.2, by rw [hI.geo s hs]⟩)

theorem Closed.storeChainFrom (src : Bytes) (len : Nat) (cls : List Nat)
    (hcls : ∀ cl ∈ cls, isCluster cl = true) :
    ∀ off : Nat, Stays I (Fs.storeChainFrom src len off cls) := by
  induction cls with
  | nil => intro off; exact .need
  | cons cl cls ih =>
    intro off
    exact .ite (fun _ => .pure) fun _ => .read fun s hs =>
      (hI.cluster hs (hcls cl List.mem_cons_self) _).bind fun _ =>
      ih (fun c hc => hcls c (List.mem_cons_of_mem _ hc)) _

theorem Closed.storeChain (start : Nat) (src : Bytes) (len : Nat) : Stays I (Fs.storeChain start src len) :=
  .read fun _ _ => hI.storeChainFrom _ _ _ (chain_isCluster _ _ _ _) _

/-- The sectors of the current directory are the root's and those of clusters. -/
theorem Closed.sectors {s : Fs} (hs : I s) : ∀ lba ∈ s.dirSectors, Target g lba := by
  have hcluster : ∀ {n start : Nat}, ∀ lba ∈ (chain s.geo s.fat n start).map s.geo.dataLba, Target g lba := by
    intro n start lba h
    obtain ⟨cl, hcl, rfl⟩ := List.mem_map.1 h
    have h := chain_isCluster _ _ _ _ cl hcl
    unfold isCluster at h
    simp only [Bool.and_eq_true, decide_eq_true_eq] at h
    exact .inr ⟨cl, h.1, .inl h.2, by rw [hI.geo s hs]⟩
  intro lba h
  unfold dirSectors at h
  split at h
  · rcases List.mem_cons.1 h with rfl | h
    · exact .inl (by rw [hI.geo s hs])
    · exact hcluster lba h
  · exact hcluster lba h

theorem Closed.dirStoreFrom (ls : List Nat) (hls : ∀ lba ∈ ls, Target g lba) :
    ∀ off : Nat, Stays I (Fs.dirStoreFrom off ls) := by
  induction ls with
  | nil => intro off; exact .read fun _ _ => .need
  | cons lba rest ih =>
    intro off
    exact .read fun _ _ => .ite (fun _ => .pure) fun _ =>
      (hI.write lba _ (hls lba List.mem_cons_self)).bind fun _ =>
      ih (fun l hl => hls l (List.mem_cons_of_mem _ hl)) _

theorem Closed.dirStore : Stays I Fs.dirStore :=
  .read fun _ hs => .bind .need fun _ => hI.dirStoreFrom _ (hI.sectors hs) _

theorem Closed.giveBack {α : Type} (cl : Nat) : Stays I (Fs.giveBack cl : FsM α) :=
  (hI.fatSet cl 0).bind fun _ => hI.flush.attempt.bind fun _ => .failed

theorem Closed.dirGrow : Stays I Fs.dirGrow := by
  refine .read fun s _ => .bind .need fun _ => hI.fatAlloc.bind fun nxt => (hI.fatSet _ _).bind fun _ =>
    hI.flush.attempt.bind fun ok => .ite (fun _ => ?_) fun _ => ?_
  · exact hI.edit fun _ => ⟨rfl, rfl, rfl, rfl, rfl, rfl, rfl, rfl, id⟩
  · exact (hI.fatSet _ _).bind fun _ => (hI.fatSet _ _).bind fun _ => hI.flush.attempt.bind fun _ => .failed

theorem Closed.dirSlots (count : Nat) : Stays I (Fs.dirSlots count) := by
  refine (hI.read dirLoad_cached).bind fun _ => .read fun s _ => ?_
  simp only [id]
  split
  · exact .pure
  · exact hI.dirGrow.bind fun _ => .read fun _ _ => .orFailWith

theorem Closed.dirWipe (off : Nat) : Stays I (Fs.dirWipe off) :=
  hI.edit fun _ => ⟨rfl, rfl, rfl, rfl, rfl, rfl, rfl, rfl, id⟩

theorem Closed.putEntry (off : Nat) (e : Bytes) : Stays I (Fs.putEntry off e) :=
  hI.edit fun _ => ⟨rfl, rfl, rfl, rfl, rfl, rfl, rfl, rfl, id⟩

theorem Closed.putSize (off cl len : Nat) : Stays I (Fs.putSize off cl len) :=
  hI.edit fun _ => ⟨rfl, rfl, rfl, rfl, rfl, rfl, rfl, rfl, id⟩

theorem Closed.putLfn (off count : Nat) (sum : UInt8) (name : Name) (seq : Nat) :
    Stays I (Fs.putLfn off count sum name seq) := by
  induction seq with
  | zero => exact .pure
  | succ seq ih => exact (hI.putEntry _ _).bind fun _ => ih

theorem Closed.createName (name : Name) : Stays I (Fs.createName name) := by
  unfold Fs.createName
  split
  · exact .pure
  · exact (hI.read dirLoad_cached).bind fun _ => Stays.need.bind fun _ => .read fun _ _ =>
      Stays.orFailWith.bind fun _ =>
      Stays.need.bind fun _ => .pure

theorem Closed.fsCreate (name : Name) : Stays I (Fs.fsCreate name) := by
  have hdrop : ∀ page : Option Bytes, Stays I (dropPage page) := fun page => hI.read (dropPage_cached page)
  refine .read fun _ _ => Stays.need.bind fun _ => (hI.createName name).bind fun p =>
    (hI.read pageBuf_cached).bind fun page =>
    hI.fatAlloc.result.bind fun cl => ?_
  split
  · exact (hdrop _).bind fun _ => .failed
  · refine hI.flush.attempt.bind fun ok =>
      .ite (fun _ => (hI.fatSet _ _).bind fun _ => (hdrop _).bind fun _ => .failed) fun _ =>
        (hI.dirSlots _).result.bind fun off => ?_
    split
    · exact (hdrop _).bind fun _ => hI.giveBack _
    · exact (hI.putLfn _ _ _ _ _).bind fun _ => (hI.putEntry _ _).bind fun _ =>
        hI.dirStore.attempt.bind fun ok =>
        .ite (fun _ => (hdrop _).bind fun _ => hI.giveBack _) fun _ => .read fun _ _ =>
          (hI.read (addFile_cached _)).bind fun _ => .pure

theorem Closed.writeFile (i : Nat) (src : Bytes) (len : Nat) : Stays I (Fs.writeFile i src len) := by
  have hmod : ∀ f : FileEnt → FileEnt, Stays I (modFile i f) := fun f => hI.read (modFile_cached i f)
  exact .ite (fun _ => .pure) fun _ => Stays.need.bind fun _ => .read fun _ _ =>
    (hI.fatResize _ _).bind fun _ =>
    (hmod _).bind fun _ => Stays.need.bind fun _ => hI.flush.bind fun _ => (hI.storeChain _ _ _).bind fun _ =>
    (hI.read dirLoad_cached).bind fun _ => (hI.putSize _ _ _).bind fun _ => hI.dirStore.bind fun _ => hmod _

theorem Closed.truncateZero (i : Nat) : Stays I (Fs.truncateZero i) := by
  have hmod : ∀ f : FileEnt → FileEnt, Stays I (modFile i f) := fun f => hI.read (modFile_cached i f)
  exact .read fun _ _ => (hI.fatFreeChain _).bind fun _ => (hmod _).bind fun _ => hI.flush.bind fun _ =>
    (hI.read dirLoad_cached).bind fun _ => (hI.putSize _ _ _).bind fun _ => hI.dirStore.bind fun _ => hmod _

theorem Closed.truncateTo (i len : Nat) : Stays I (Fs.truncateTo i len) := by
  have hmod : ∀ f : FileEnt → FileEnt, Stays I (modFile i f) := fun f => hI.read (modFile_cached i f)
  refine .read fun _ _ => (hI.fatResize _ _).bind fun _ => (hmod _).bind fun _ => Stays.need.bind fun _ =>
    hI.flush.bind fun _ => .ite (fun _ => ?_) fun _ => ?_
  · exact (hmod _).bind fun _ => (hI.storeChain _ _ _).bind fun _ => (hI.read dirLoad_cached).bind fun _ =>
      (hI.putSize _ _ _).bind fun _ => hI.dirStore.bind fun _ => hmod _
  · exact (hI.read dirLoad_cached).bind fun _ => (hI.putSize _ _ _).bind fun _ => hI.dirStore.bind
      fun _ => hmod _

theorem Closed.removeFile (i : Nat) : Stays I (Fs.removeFile i) := by
  refine (hI.read dirLoad_cached).bind fun _ => .read fun s _ => .ite (fun _ => ?_) fun _ => ?_
  · exact (hI.fatFreeChain _).bind fun _ => hI.flush.bind fun _ => (hI.dirWipe _).bind fun _ =>
      hI.dirStore.bind fun _ =>
      hI.edit fun _ => ⟨rfl, rfl, rfl, rfl, rfl, rfl, rfl, rfl, id⟩
  · exact (hI.dirWipe _).bind fun _ => hI.dirStore.bind fun _ =>
      hI.edit fun _ => ⟨rfl, rfl, rfl, rfl, rfl, rfl, rfl, rfl, id⟩

theorem Closed.putCopy (e : Bytes) (n83 : Name) : Stays I (Fs.putCopy e n83) :=
  (hI.dirSlots 1).bind fun _ => (hI.putEntry _ _).bind fun _ =>
    .bind (hI.edit fun _ => ⟨rfl, rfl, rfl, rfl, rfl, rfl, rfl, rfl, id⟩) fun _ => hI.dirStore

theorem Closed.renameHere (leaf n83 : Name) : Stays I (Fs.renameHere leaf n83) :=
  .read fun _ _ => Stays.orFailWith.bind fun _ => (hI.read dirLoad_cached).bind fun _ =>
    .bind (hI.edit fun _ => ⟨rfl, rfl, rfl, rfl, rfl, rfl, rfl, rfl, id⟩) fun _ => hI.dirStore.bind fun _ =>
    hI.read scanDir_cached

theorem Closed.wipeSource (leaf : Name) : Stays I (Fs.wipeSource leaf) :=
  .read fun _ _ => Stays.orFailWith.bind fun _ => (hI.read dirLoad_cached).bind fun _ =>
    (hI.dirWipe _).bind fun _ =>
    hI.dirStore.bind fun _ => hI.read scanDir_cached

theorem Closed.mkdirEntry (n83 : Name) (cl : Nat) : Stays I (Fs.mkdirEntry n83 cl) :=
  (hI.dirSlots 1).bind fun _ => (hI.putEntry _ _).bind fun _ => hI.dirStore

theorem Closed.mkdirBody (n83 : Name) : Stays I (Fs.mkdirBody n83) := by
  refine Triple.bind hI.allocated fun cl s ⟨hs, h2, hcl⟩ => ?_
  have hrest : Stays I (attempt Fs.fatFlush >>= fun ok => if ok = false
    then (do Fs.fatSet cl 0; failed) else do
      let s ← gets id
      let ok ← attempt (bwrite (s.geo.dataLba cl) (dotSector cl (if s.cwd < 2 then 0 else s.cwd)))
      if ok = false then Fs.giveBack cl
      else
        let ok ← attempt (Fs.mkdirEntry n83 cl)
        if ok = false then Fs.giveBack cl) := by
    refine hI.flush.attempt.bind fun _ => .ite (fun _ => (hI.fatSet _ _).bind fun _ => .failed) fun _ =>
      .read fun s hs => ((hI.write _ _ (.inr ⟨cl, h2, .inr hcl, ?_⟩)).attempt).bind fun _ =>
      .ite (fun _ => hI.giveBack _) fun _ => (hI.mkdirEntry _ _).attempt.bind fun _ =>
        .ite (fun _ => hI.giveBack _) fun _ => .pure
    rw [id, hI.geo s hs]
  exact hrest s hs

theorem Closed.rmdirBody (i : Nat) : Stays I (Fs.rmdirBody i) :=
  .read fun _ _ => (hI.fatFreeChain _).bind fun _ => hI.flush.bind fun _ =>
    (hI.read dirLoad_cached).bind fun _ =>
    (hI.dirWipe _).bind fun _ => hI.dirStore.bind fun _ => hI.edit fun _ =>
      ⟨rfl, rfl, rfl, rfl, rfl, rfl, rfl, rfl, id⟩

/-! ### Walking -/

theorem Closed.chdirOne (name : Name) : Stays I (Fs.chdirOne name) :=
  .read fun _ _ => .ite (fun _ => .pure) fun _ => .ite
    (fun _ => .ite (fun _ => .pure) fun _ => (hI.read (bread_cached _)).bind fun _ =>
      (hI.setCwd _).bind fun _ =>
      hI.read scanDir_cached)
    fun _ => Stays.orFailWith.bind fun _ => Stays.need.bind fun _ => (hI.setCwd _).bind fun _ =>
      hI.read scanDir_cached

theorem Closed.toRoot : Stays I Fs.toRoot :=
  .read fun _ _ => .ite (fun _ => (hI.setCwd _).bind fun _ => hI.read scanDir_cached) fun _ => .pure

theorem Closed.walkFrom (cs : List (Option Name)) : Stays I (Fs.walkFrom cs) := by
  induction cs with
  | nil => exact .pure
  | cons c cs ih =>
    cases c with
    | none => exact .failed
    | some c => exact (hI.chdirOne c).bind fun _ => ih

theorem Closed.walkAll (path : Name) : Stays I (Fs.walkAll path) :=
  .ite (fun _ => hI.toRoot.bind fun _ => hI.walkFrom _) fun _ => hI.walkFrom _

theorem Closed.leaveParent : Stays I Fs.leaveParent :=
  .read fun _ _ => .ite (fun _ => (hI.setCwd _).bind fun _ => hI.read scanDir_cached) fun _ => .pure

theorem Closed.enterFrom (cs : List (Option Name)) : Stays I (Fs.enterFrom cs) := by
  induction cs with
  | nil => exact .failed
  | cons c cs ih =>
    match c, cs with
    | some c, [] => exact .pure
    | some c, some c' :: cs => exact (hI.chdirOne c).bind fun _ => ih
    | some c, none :: cs => exact .failed
    | none, cs => exact .failed

theorem Closed.leaveFail {α : Type} : Stays I (Fs.leaveFail : FsM α) :=
  hI.leaveParent.attempt.bind fun _ => .failed

theorem Closed.thenLeave {α : Type} {body : FsM α} (h : Stays I body) : Stays I (Fs.thenLeave body) :=
  h.result.bind fun _ => hI.leaveParent.bind fun _ => .orFailWith

theorem Closed.enterParent (path : Name) : Stays I (Fs.enterParent path) := by
  refine .bind (.upd hI.savedCwd) fun _ => Stays.need.bind fun _ => Stays.bind (.result ?_) fun leaf => ?_
  · exact .ite (fun _ => hI.toRoot.bind fun _ => hI.enterFrom _) fun _ => hI.enterFrom _
  · cases leaf with
    | none => exact hI.leaveFail
    | some leaf => exact .pure

theorem Closed.grabEntry (path : Name) (ok : FileEnt → Bool) : Stays I (Fs.grabEntry path ok) := by
  refine (hI.enterParent path).bind fun leaf => .read fun s _ => ?_
  simp only [id]
  split
  · exact hI.leaveFail
  · exact (hI.read dirLoad_cached).attempt.bind fun _ => .ite (fun _ => hI.leaveFail) fun _ => .read
      fun _ _ =>
      hI.leaveParent.bind fun _ => .pure

/-! ### The calls -/

theorem Closed.fsLookup (path : Name) : Stays I (Fs.fsLookup path) := by
  refine (hI.enterParent path).bind fun leaf => hI.thenLeave (.read fun _ _ => Stays.orFailWith.bind fun i =>
    Stays.need.bind fun _ => (hI.read (refresh_cached i)).bind fun _ => .read fun _ _ =>
      .ite (fun _ => ?_) fun _ => .pure)
  exact (hI.read viewPage_cached).bind fun _ => (hI.read (setView_cached _)).bind fun _ => .pure

theorem Closed.fsStat (path : Name) : Stays I (Fs.fsStat path) :=
  (hI.enterParent path).bind fun _ => hI.thenLeave (.read fun _ _ => Stays.orFailWith.bind fun _ =>
    (hI.read dirLoad_cached).bind fun _ => .read fun _ _ => .pure)

theorem Closed.fsWrite (path : Name) (src : Bytes) (len : Nat) : Stays I (Fs.fsWrite path src len) := by
  refine (hI.enterParent path).bind fun leaf => .read fun s _ => ?_
  simp only [id]
  split
  · exact .ite (fun _ => hI.leaveFail) fun _ => hI.thenLeave (hI.writeFile _ _ _)
  · refine (hI.fsCreate leaf).result.bind fun i => ?_
    cases i with
    | none => exact hI.leaveFail
    | some i => exact hI.thenLeave (hI.writeFile _ _ _)

theorem Closed.fsSync : Stays I Fs.fsSync :=
  hI.flush.bind fun _ => hI.dirStore.bind fun _ => hI.read driver_cached

theorem Closed.fsTruncate (path : Name) (len : Nat) : Stays I (Fs.fsTruncate path len) := by
  refine Stays.need.bind fun _ => (hI.enterParent path).bind fun leaf => .read fun s _ => ?_
  simp only [id]
  split
  · exact hI.leaveFail
  · exact hI.thenLeave (.ite (fun _ => .pure) fun _ => .ite (fun _ => hI.truncateZero _) fun _ =>
      hI.truncateTo _ _)

theorem Closed.fsRemove (path : Name) : Stays I (Fs.fsRemove path) :=
  (hI.enterParent path).bind fun _ => hI.thenLeave (.read fun _ _ => Stays.orFailWith.bind fun _ =>
    Stays.need.bind fun _ => hI.removeFile _)

theorem Closed.fsRename (src dst : Name) : Stays I (Fs.fsRename src dst) := by
  refine (hI.grabEntry _ _).bind fun e => (hI.enterParent dst).bind fun leaf => .read fun s _ => ?_
  simp only [id]
  split
  · exact hI.leaveFail
  · refine .ite (fun _ => hI.leaveFail) fun _ => .ite (fun _ => hI.thenLeave (hI.renameHere _ _)) fun _ =>
      (hI.putCopy _ _).attempt.bind fun _ => .ite (fun _ => hI.leaveFail) fun _ => ?_
    exact hI.leaveParent.bind fun _ => (hI.enterParent src).bind fun _ => hI.thenLeave (hI.wipeSource _)

theorem Closed.fsCopy (src dst : Name) : Stays I (Fs.fsCopy src dst) :=
  (hI.fsLookup src).bind fun _ => (hI.read viewPage_cached).bind fun _ =>
    (hI.read (setView_cached _)).bind fun _ =>
    hI.fsWrite _ _ _

theorem Closed.fsLink (src dst : Name) : Stays I (Fs.fsLink src dst) := by
  refine (hI.grabEntry _ _).bind fun e => (hI.enterParent dst).bind fun leaf => .read fun s _ => ?_
  simp only [id]
  split
  · exact hI.leaveFail
  · exact .ite (fun _ => hI.leaveFail) fun _ => hI.thenLeave
      ((hI.putCopy _ _).bind fun _ => hI.read scanDir_cached)

theorem Closed.fsMkdir (path : Name) : Stays I (Fs.fsMkdir path) := by
  refine (hI.enterParent path).bind fun leaf => .read fun s _ => ?_
  simp only [id]
  split
  · exact hI.leaveFail
  · exact .ite (fun _ => hI.leaveFail) fun _ => hI.thenLeave
      ((hI.mkdirBody _).bind fun _ => hI.read scanDir_cached)

theorem Closed.fsRmdir (path : Name) : Stays I (Fs.fsRmdir path) :=
  (hI.enterParent path).bind fun _ => hI.thenLeave (.read fun _ _ => Stays.orFailWith.bind fun _ =>
    Stays.need.bind fun _ => (hI.read (dirEmpty_cached _)).bind fun _ => Stays.need.bind fun _ =>
      hI.rmdirBody _)

theorem Closed.fsChdir (path : Name) : Stays I (Fs.fsChdir path) := by
  refine Stays.need.bind fun _ => .read fun s _ => Stays.orFailWith.bind fun p => .bind
    (.upd fun s => hI.path s p) fun _ =>
    (hI.walkAll path).attempt.bind fun _ => .ite (fun _ => .read fun s' _ => ?_) fun _ => .pure
  refine .ite (fun _ => ?_) fun _ => .bind (.upd fun s' => hI.path s' _) fun _ => .failed
  exact (hI.setCwd _).bind fun _ => (hI.read scanDir_cached).attempt.bind fun _ =>
    .bind (.upd fun s' => hI.path s' _) fun _ => .failed

theorem Closed.fsSetcwd (cl : Nat) : Stays I (Fs.fsSetcwd cl) :=
  (hI.setCwd cl).bind fun _ => hI.read scanDir_cached

theorem Closed.fsSetpwd (path : Name) : Stays I (Fs.fsSetpwd path) :=
  Stays.need.bind fun _ => .ite (fun _ => .upd fun s => hI.path s _) fun _ => .bind
    (.upd fun s => hI.path s _) fun _ => .failed

theorem Closed.call (c : FsCall) : Stays I c.run := by
  cases c with
  | readdir => exact .pure
  | lookup path => exact (hI.fsLookup path).bind fun _ => .pure
  | stat path => exact (hI.fsStat path).bind fun _ => .pure
  | write path src len => exact hI.fsWrite path src len
  | sync => exact hI.fsSync
  | truncate path len => exact hI.fsTruncate path len
  | remove path => exact hI.fsRemove path
  | rename src dst => exact hI.fsRename src dst
  | copy src dst => exact hI.fsCopy src dst
  | link src dst => exact hI.fsLink src dst
  | mkdir path => exact hI.fsMkdir path
  | rmdir path => exact hI.fsRmdir path
  | chdir path => exact hI.fsChdir path
  | setcwd cl => exact hI.fsSetcwd cl
  | setpwd path => exact hI.fsSetpwd path

end

end Fs

end VampireOS
