import VampireOS.Fs.Mirror
import VampireOS.Fs.Pages

/-!
# The state between two steps of a call (kernel/fs.c:245-367, 1232)

`Stands v s`: the state `s` has the well-formed volume `v` under it, is in one of its directories
and will return to one, its page is that of the directory, and each cached entry belongs to a slot.
No walk changes that, whether it fails or not.

An empty file whose growth has failed half-way has a chain in the cache only (`Spare`); the next
write goes on with it.
-/

namespace VampireOS.Fs

open Lib

/-- A chain that no slot and no directory has. -/
structure Spare (v : Fs) (cl : Nat) : Prop where
  chain : OwnChain v cl (v.chainAt cl)
  apart : ∀ o : Owner, o.Live v → (v.chainAt cl).Disjoint (v.held o)

/-- A cached entry and its slot. -/
structure AtEntry (v : Fs) (d j : Nat) (f : FileEnt) : Prop where
  mem : v.Occupied d j
  name : f.name = v.slotName d j
  off : f.dirOff = 32 * j
  isDir : f.isDir = v.slotIsDir d j
  cluster : f.cluster = v.slotStart d j ∨ f.isDir = false ∧ v.owned d j = [] ∧ Spare v f.cluster
  len : f.isDir = false → f.len = v.slotSize d j
  page : PageOk v f
  mark : skipMark (v.dirData d (32 * j)) = false

/-- Two cached entries have different slots and share no cluster. -/
def Apart (v : Fs) (f g : FileEnt) : Prop :=
  f.dirOff ≠ g.dirOff ∧ (v.chainAt f.cluster).Disjoint (v.chainAt g.cluster)

structure Cache (v : Fs) (d : Nat) (files : List FileEnt) : Prop where
  entry : ∀ (i : Nat) f, files[i]? = some f → ∃ j, AtEntry v d j f
  apart : ∀ (i k : Nat) f g, i ≠ k → files[i]? = some f → files[k]? = some g → Apart v f g

/-- The volume, and the two directories of a call. -/
structure Based (v s : Fs) : Prop where
  vol : SameVol v s
  rel : Reliable s
  cwd : Dir v s.cwd
  saved : Dir v s.savedCwd

structure Stands (v s : Fs) : Prop extends Based v s where
  bytes : s.dirBytes = 32 * v.dirLen s.cwd
  page : Agree s.dir (v.dirData s.cwd) (32 * v.dirLen s.cwd)
  cache : Cache v s.cwd s.files

variable {v v' s s' : Fs} {d e i j k n cl : Nat} {f g : FileEnt} {files : List FileEnt} {F : Prop}

/-! ## The cache after a scan -/

theorem entriesFrom_sorted (b : Bytes) (left : Nat) : ∀ i, (entriesFrom b left i).Pairwise (· < ·) := by
  induction left with
  | zero => exact fun _ => .nil
  | succ left ih =>
    intro i
    by_cases h0 : b (32 * i) = 0
    · rw [entriesFrom_zero left h0]
      exact .nil
    · rw [entriesFrom_succ left h0, List.pairwise_cons]
      refine ⟨fun k hk => ?_, ih (i + 1)⟩
      have := ((mem_entriesFrom b left (i + 1)).1 hk).1
      omega

theorem entries_sorted (v : Fs) (d : Nat) : (v.entries d).Pairwise fun f g => f.dirOff < g.dirOff := by
  apply List.Pairwise.filterMap _ _ (entriesFrom_sorted _ _ 0)
  intro a a' hlt f hf g hg
  rw [(entryAt_some hf).off, (entryAt_some hg).off]
  omega

theorem listing_sorted (v : Fs) (d : Nat) : (v.listing d).Pairwise fun f g => f.dirOff < g.dirOff := by
  rw [listing_take]
  exact (entries_sorted v d).sublist (List.take_sublist _ _)

theorem AtSlot.atEntry (h : AtSlot v d j f.bare) (hp : PageOk v f) : AtEntry v d j f where
  mem := h.mem
  name := h.name
  off := h.off
  isDir := h.isDir
  cluster := .inl h.cluster
  len := fun hf => (h.len hf).1
  page := hp
  mark := h.mark

/-- Entries of different slots share no cluster. -/
theorem AtEntry.apart (hw : WellFormed v) (hd : Dir v d) (h : AtEntry v d j f)
    (h' : AtEntry v d k g) (hf : f.cluster = v.slotStart d j) (hg : g.cluster = v.slotStart d k)
    (hne : f.dirOff ≠ g.dirOff) : Apart v f g := by
  refine ⟨hne, ?_⟩
  rw [hf, hg]
  apply hw.apart (.slot d j) (.slot d k) ⟨hd, h.mem⟩ ⟨hd, h'.mem⟩
  intro e
  apply hne
  rw [h.off, h'.off, (Owner.slot.inj e).2]

theorem Cache.scanned (hw : WellFormed v) (hd : Dir v d) (hl : files.map FileEnt.bare <+: v.listing d)
    (hp : ∀ f ∈ files, PageOk v f) : Cache v d files := by
  have hslot : ∀ f ∈ files, ∃ j, AtEntry v d j f ∧ f.cluster = v.slotStart d j := by
    intro f hf
    obtain ⟨j, hj⟩ := mem_listing (hl.subset (List.mem_map_of_mem hf))
    exact ⟨j, hj.atEntry (hp f hf), hj.cluster⟩
  have hoff : ∀ (i k : Nat) f g, i < k → files[i]? = some f → files[k]? = some g → f.dirOff ≠ g.dirOff := by
    intro i k f g hik hi hk
    have hsort := List.pairwise_map.1 ((listing_sorted v d).sublist hl.sublist)
    obtain ⟨hi', rfl⟩ := List.getElem?_eq_some_iff.1 hi
    obtain ⟨hk', rfl⟩ := List.getElem?_eq_some_iff.1 hk
    exact Nat.ne_of_lt (List.pairwise_iff_getElem.1 hsort i k hi' hk' hik)
  constructor
  · intro i f hi
    obtain ⟨j, hj, -⟩ := hslot f (List.mem_of_getElem? hi)
    exact ⟨j, hj⟩
  · intro i k f g hne hi hk
    obtain ⟨j, hj, hcj⟩ := hslot f (List.mem_of_getElem? hi)
    obtain ⟨m, hm, hcm⟩ := hslot g (List.mem_of_getElem? hk)
    apply hj.apart hw hd hm hcj hcm
    rcases Nat.lt_or_gt_of_ne hne with hlt | hgt
    · exact hoff i k f g hlt hi hk
    · exact (hoff k i g f hgt hk hi).symm

/-! ## Walks -/

theorem Based.of (h : Based v s) (hv : SameVol s s') (he : s.errs = [] → s'.errs = [])
    (hdev : s'.dev = s.dev) (hc : s'.cwd = s.cwd) (hs : s'.savedCwd = s.savedCwd) : Based v s' := by
  refine ⟨IsTrans.trans _ _ _ h.vol hv, ?_, by rw [hc]; exact h.cwd, by rw [hs]; exact h.saved⟩
  exact h.rel.same ((he h.rel.errs).trans h.rel.errs.symm) hdev hv.geo

theorem scanDir_stands (hw : WellFormed v) : Triple (Based v) scanDir (fun _ => Stands v) (Stands v) := by
  intro s h
  have hc := scanDir_cached s
  have hbase := h.of hc.sameVol hc.errs hc.dev hc.cwd hc.savedCwd
  obtain ⟨h1, h2⟩ := scanDir_page hw h.vol h.rel h.cwd
  have hlist := (scanDir_lists s).1
  rw [h.vol.listing] at hlist
  have hcache := Cache.scanned hw h.cwd hlist (scanDir_pages hw h.vol h.rel h.cwd)
  have hend : Stands v (exec scanDir s).2 := by
    refine ⟨hbase, ?_, ?_, ?_⟩
    · rw [hc.cwd]
      exact h1
    · rw [hc.cwd]
      exact h2
    · rw [hc.cwd]
      exact hcache
  exact ⟨fun _ _ => hend, fun _ => hend⟩

/-- Only the driver, the supply of pages, the view and the path have moved on. -/
def Calm (s s' : Fs) : Prop :=
  s' = { s with errs := s'.errs, pages := s'.pages, view := s'.view, path := s'.path } ∧
    (s.errs = [] → s'.errs = [])

instance : Std.Refl Calm := ⟨fun _ => ⟨rfl, id⟩⟩

instance : IsTrans Fs Calm := ⟨fun s s' s'' h h' => by
  refine ⟨?_, fun he => h'.2 (h.2 he)⟩
  rw [h'.1, h.1]⟩

theorem Stands.calm (h : Stands v s) (hc : Calm s s') : Stands v s' := by
  obtain ⟨hc, he⟩ := hc
  refine ⟨h.toBased.of ?_ he ?_ ?_ ?_, ?_, ?_, ?_⟩
  · rw [hc]
    exact ⟨rfl, rfl, rfl⟩
  all_goals rw [hc]
  · exact h.bytes
  · exact h.page
  · exact h.cache

theorem bread_calm (lba : Nat) : Keeps Calm (bread lba) := fun s => by
  refine ⟨?_, (bread_cached lba s).errs⟩
  rw [show (exec (bread lba) s).2 = _ from bread_quiet lba s]

theorem pageBuf_calm : Keeps Calm pageBuf := fun s => by
  refine ⟨?_, (pageBuf_cached s).errs⟩
  rw [show (exec pageBuf s).2 = _ from pageBuf_quiet s]

theorem calm_stays {α : Type} {m : FsM α} (h : Keeps Calm m) : Stays (Stands v) m :=
  h.stays fun _ _ hc hs => hs.calm hc

/-! ## The whole directory -/

/-- Every entry of every directory is listed: there are 48 at most, and the scan does not take one
for a deleted one. -/
def Listable (v : Fs) : Prop := ∀ d, Dir v d → ∀ j, v.Occupied d j → ∃ f ∈ v.listing d, AtSlot v d j f

/-- All entries of the directory are in the cache. -/
def Whole (v s : Fs) : Prop := ∀ j, v.Occupied s.cwd j → ∃ f ∈ s.files, AtEntry v s.cwd j f

/-- `Stands`, with a cache that is complete if `F`. -/
structure Sees (F : Prop) (v s : Fs) : Prop extends Stands v s where
  full : F → Whole v s

theorem Stands.sees (h : Stands v s) : Sees False v s := ⟨h, nofun⟩

theorem Sees.calm (h : Sees F v s) (hc : Calm s s') : Sees F v s' := by
  refine ⟨h.toStands.calm hc, fun hF => ?_⟩
  have := h.full hF
  rw [hc.1]
  exact this

theorem scanDir_sees (hw : WellFormed v) (hF : F → Listable v) :
    Triple (Based v) scanDir (fun _ => Sees F v) (Stands v) := by
  intro s h
  obtain ⟨h1, h2⟩ := scanDir_stands hw s h
  refine ⟨fun a ha => ⟨h1 a ha, fun hf j hj => ?_⟩, h2⟩
  have hcwd := (scanDir_cached s).cwd
  rw [hcwd] at hj ⊢
  obtain ⟨g, hg, hat⟩ := hF hf _ h.cwd j hj
  rw [← h.vol.listing, ← (scanDir_lists s).2 ha] at hg
  obtain ⟨f, hf, rfl⟩ := List.mem_map.1 hg
  exact ⟨f, hf, hat.atEntry (scanDir_pages hw h.vol h.rel h.cwd f hf)⟩

/-! ## The calls that walk -/

theorem setCwd_based (hd : Dir v d) {E : Fs → Prop} : Triple (Stands v) (setCwd d) (fun _ => Based v) E :=
  .change fun _ h => ⟨⟨h.vol.geo, h.vol.disk, h.vol.fat⟩, h.rel.same rfl rfl rfl, hd, h.saved⟩

theorem goto_stands (hw : WellFormed v) (hd : Dir v d) : Stays (Stands v) (do setCwd d; scanDir) :=
  Triple.bind (setCwd_based hd) fun _ => scanDir_stands hw

theorem fileAt_get (hi : i < s.files.length) : s.files[i]? = some (s.fileAt i) := by
  unfold fileAt
  rw [List.getD_eq_getElem?_getD, List.getElem?_eq_getElem hi, Option.getD_some]

theorem findFile_get {name : Name} (h : s.findFile name = some i) :
    s.files[i]? = some (s.fileAt i) ∧ (s.fileAt i).name = name := by
  unfold findFile at h
  split at h
  · cases h
  · obtain ⟨hlt, hname, -⟩ := List.findIdx?_eq_some_iff_getElem.1 h
    refine ⟨fileAt_get hlt, ?_⟩
    unfold fileAt
    rw [List.getD_eq_getElem?_getD, List.getElem?_eq_getElem hlt, Option.getD_some]
    exact of_decide_eq_true hname

/-- The directory of a cached entry. -/
theorem Stands.child (h : Stands v s) {name : Name} (hi : s.findFile name = some i)
    (hdir : (s.fileAt i).isDir = true) :
    Dir v (s.fileAt i).cluster := by
  obtain ⟨j, hj⟩ := h.cache.entry i _ (findFile_get hi).1
  rcases hj.cluster with hc | ⟨hf, -⟩
  · rw [hc]
    exact .sub h.cwd hj.mem (hj.isDir ▸ hdir)
  · rw [hdir] at hf
    cases hf

/-- The parent of a subdirectory is what its first sector says. -/
theorem WellFormed.parent (hw : WellFormed v) (hd : Dir v d) (h2 : 2 ≤ d) :
    Dir v (rdU16 (v.disk (v.geo.dataLba d)) 58) := by
  cases hd with
  | root => omega
  | @sub e j he hj hdir =>
    rw [((hw.slot e j he hj).dir hdir).2.up]
    exact he

theorem chdirOne_stands (hw : WellFormed v) (c : Name) : Stays (Stands v) (chdirOne c) := by
  unfold chdirOne
  apply Stays.read
  intro s hs
  simp only [id]
  split
  · exact .pure
  · split
    · split
      · exact .pure
      · next h2 =>
        have h2 : 2 ≤ s.cwd := Nat.le_of_not_lt h2
        have hlba : s.dirLba = v.geo.dataLba s.cwd := by rw [dirLba, if_neg (by omega), hs.vol.geo]
        have hparent := hw.parent hs.cwd h2
        refine Triple.bind (R := fun b s' => Stands v s' ∧ b = v.disk (v.geo.dataLba s.cwd))
          (fun s' h => ⟨fun b hb => ?_, fun _ => ?_⟩) fun b => ?_
        · refine ⟨h.calm (bread_calm _ s'), ?_⟩
          rw [((bread_disk s'.disk _ s' rfl).1 b hb).1, h.vol.disk, hlba]
        · exact h.calm (bread_calm _ s')
        · intro s' hs'
          obtain ⟨hs', rfl⟩ := hs'
          exact goto_stands hw hparent s' hs'
    · apply Stays.take
      intro i hi
      apply Stays.check
      intro hdir
      exact goto_stands hw (hs.child hi hdir)

theorem toRoot_stands (hw : WellFormed v) : Stays (Stands v) toRoot :=
  .bind .gets fun _ => .ite (fun _ => goto_stands hw .root) fun _ => .pure

theorem walkFrom_stands (hw : WellFormed v) (cs : List (Option Name)) : Stays (Stands v) (walkFrom cs) := by
  induction cs with
  | nil => exact .pure
  | cons c cs ih =>
    cases c with
    | none => exact .failed
    | some c => exact (chdirOne_stands hw c).bind fun _ => ih

theorem walkAll_stands (hw : WellFormed v) (path : Name) : Stays (Stands v) (walkAll path) :=
  .ite (fun _ => (toRoot_stands hw).bind fun _ => walkFrom_stands hw _) fun _ => walkFrom_stands hw _

theorem leaveParent_stands (hw : WellFormed v) : Stays (Stands v) leaveParent := by
  apply Stays.read
  intro s hs
  exact .ite (fun _ => goto_stands hw hs.saved) fun _ => .pure

theorem fsChdir_stands (hw : WellFormed v) (path : Name) : Stays (Stands v) (fsChdir path) := by
  have hpath : ∀ q : Name, Stays (Stands v) (upd fun s => { s with path := q }) :=
    fun q => calm_stays (.upd fun _ => ⟨rfl, id⟩)
  refine .check fun _ => .read fun s hs => .take fun p _ => (hpath p).bind fun _ =>
    (walkAll_stands hw path).attempt.bind fun ok => ?_
  refine .ite (fun _ => .bind .gets fun s' => ?_) fun _ => .pure
  have hend : Stays (Stands v) (do
      upd fun s' => { s' with path := s.path }
      failed : FsM Unit) := (hpath s.path).bind fun _ => .failed
  refine .ite (fun _ => ?_) fun _ => hend
  exact Triple.bind (setCwd_based hs.cwd) fun _ => Triple.bind (Triple.attempt (scanDir_stands hw))
    fun _ => hend

end VampireOS.Fs
