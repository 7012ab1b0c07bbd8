import VampireOS.Fs.Answers
import VampireOS.Fs.Runs

/-!
# What was written is read (kernel/fs.c:1463-1997)

An orderly state stands on a well-formed volume where no directory has two entries of one name and
all of them are listed, with a complete cache. A call that succeeds leaves an orderly state: what it
wrote is what `fs_lookup` hands out next (`write_lookup`, `truncate_lookup`, `copy_lookup`,
`rename_lookup`, `mkdir_stat`), a name that was removed is not found (`remove_lookup`,
`rmdir_stat`), and every other file is handed out as before. With a page for each file that a
directory can list, and one for the view, `fs_lookup` and `fs_stat` do answer.
-/

namespace VampireOS.Fs

open Lib

variable {v v' s s' : Fs} {src data : Bytes} {c d e j k len : Nat} {leaf leaf' name path q : Name}
    {cs : List Name} {F : Prop}

structure Orderly (v s : Fs) : Prop extends Sees True v s where
  well : WellFormed v
  listable : Listable v
  distinct : Distinct v

/-- The file that `fs_lookup` answers with, and it answers when there are pages. -/
def HandsOut (s : Fs) (path : Name) (data : Bytes) (len : Nat) : Prop :=
  (∀ r, (exec (fsLookup path) s).1 = some r → r.2 = len ∧ Agree r.1 data len) ∧
    (fsMax < s.room → (exec (fsLookup path) s).1.isSome)

/-! ## Names -/

/-- The last component is spelled as it would be listed: in lower case, when it is an 8.3 name. -/
def AsListed (path : Name) : Prop :=
  ∀ leaf, (components path).getLast? = some (some leaf) → listedAs leaf = leaf

theorem Reaches.last (h : Reaches v c path d leaf) : (components path).getLast? = some (some leaf) := by
  obtain ⟨cs, h1, -⟩ := h
  rw [h1, List.map_append, List.map_singleton, List.getLast?_append, List.getLast?_singleton]
  rfl

theorem AsListed.last (h : AsListed path) (hr : Reaches v c path d leaf) : listedAs leaf = leaf :=
  h leaf hr.last

/-- Names stay different when slot `j` has a name that no other has. -/
theorem Frame.distinct (h : Frame v v' d j) (hu : Distinct v)
    (hj : v'.Occupied d j → ∀ k, k ≠ j → v.Occupied d k → v'.slotName d j ≠ v.slotName d k) :
    Distinct v' := by
  have hold : ∀ e k, (e, k) ≠ (d, j) → Dir v' e → v'.Occupied e k → Dir v e ∧ v.Occupied e k ∧
      v'.slotName e k = v.slotName e k := fun e k hne he hk => by
    obtain ⟨he', hk'⟩ := (h.slot e k hne).1 ⟨he, hk⟩
    exact ⟨he', hk', (h.same e k hne he' hk').2.1⟩
  have hself : ∀ k, k ≠ j → Dir v' d → v'.Occupied d j → v'.Occupied d k →
      v'.slotName d j ≠ v'.slotName d k := fun k hne hd hm hk => by
    obtain ⟨-, h2, h3⟩ := hold d k (fun e => hne (Prod.mk.inj e).2) hd hk
    rw [h3]
    exact hj hm k hne h2
  intro e he m k hm hk hname
  by_cases hme : (e, m) = (d, j)
  · obtain ⟨rfl, rfl⟩ := Prod.mk.inj hme
    by_contra hne
    exact hself k (fun e => hne e.symm) he hm hk hname
  · by_cases hke : (e, k) = (d, j)
    · obtain ⟨rfl, rfl⟩ := Prod.mk.inj hke
      by_contra hne
      exact hself m hne he hk hm hname.symm
    · obtain ⟨he', hm', h1⟩ := hold e m hme he hm
      obtain ⟨-, hk', h2⟩ := hold e k hke he hk
      exact hu e he' m k hm' hk' (h1.symm.trans (hname.trans h2))

/-- The new name of slot `j` is one that no other had. -/
theorem Origin.apart (h : Origin True v d j leaf name) (hu : Distinct v) (hd : Dir v d)
    (hl : listedAs leaf = leaf) :
    name = leaf ∧ ∀ k, k ≠ j → v.Occupied d k → leaf ≠ v.slotName d k := by
  cases h with
  | old hm _ hn => exact ⟨rfl, fun k hne hk e => hne (hu d hd k j hk hm (e.symm.trans hn.symm))⟩
  | new _ habs => exact ⟨hl, fun k _ hk e => habs trivial k hk e.symm⟩

theorem Origin.named (h : Origin F v d j leaf name) (hm : v.Occupied d j) : v.slotName d j = leaf := by
  cases h with
  | old _ _ hn => exact hn
  | new hf _ => exact absurd hm hf

theorem Origin.not_dir (h : Origin F v d j leaf name) : ¬ (v.Occupied d j ∧ v.slotIsDir d j = true) := by
  rintro ⟨h1, h2⟩
  cases h with
  | old _ h3 _ =>
    rw [h2] at h3
    cases h3
  | new h3 _ => exact h3 h1

/-! ## Orderly states -/

/-- The volume of the state itself. -/
theorem Orderly.self (h : Orderly v s) : Orderly s s := by
  obtain ⟨hg, hf⟩ := h.toStands.good h.well
  have hslots : s.slots s.cwd = v.slots s.cwd := by
    ext k
    exact (hf (k + 1)).slots_other h.cwd hg.stands.cwd (Nat.ne_of_lt (Nat.lt_succ_self k))
  have hcard := (h.full trivial).card
  have hmax := h.listable.card h.cwd
  rw [← hslots] at hcard hmax
  obtain ⟨hwhole, hlist⟩ := hg.stands.whole hg.well (hf 0) h.listable ⟨hcard, hmax⟩
  refine ⟨⟨hg.stands, fun _ => hwhole⟩, hg.well, hlist, (hf (s.dirLen s.cwd)).distinct h.distinct
    fun hj => ?_⟩
  exact absurd hj.1 (Nat.lt_irrefl _)

/-- What a call that has succeeded leaves for the next one. -/
theorem Sees.orderly (h : Sees True v s) (hw : WellFormed v) (hl : True → Listable v)
    (hu : Distinct v) {o : Offer} (ho : o.errs = []) :
    Orderly v (s.supplied o) := ⟨h.calm ⟨rfl, fun _ => ho⟩, hw, hl trivial, hu⟩

/-- The answer of `fs_lookup` is a file that the path leads to. -/
theorem Orderly.answer (h : Orderly v s) {r : Bytes × Nat} (hx : (exec (fsLookup path) s).1 = some r) :
    ∃ d j leaf, Reaches v s.cwd path d leaf ∧ FileAt v d j leaf r.1 r.2 :=
  ((fsLookup_reads h.well (F := True) (fun _ => h.listable) path s ⟨h.toSees, rfl⟩).1 r hx).2

/-- It is the only one. -/
theorem Orderly.answer_eq (h : Orderly v s) (hr : Reaches v s.cwd path d leaf) (hk : v.Occupied d j)
    (hn : v.slotName d j = leaf) {r : Bytes × Nat} (hx : (exec (fsLookup path) s).1 = some r) :
    FileAt v d j leaf r.1 r.2 := by
  obtain ⟨e, k, leaf', hr', hf'⟩ := h.answer hx
  obtain ⟨rfl, rfl⟩ := hr.unique h.well h.distinct h.cwd hr'
  obtain rfl := h.distinct d (hr.dir h.cwd) j k hk hf'.mem (hn.trans hf'.name.symm)
  exact hf'

/-- **A file that a path leads to is handed out.** -/
theorem Orderly.handsOut (h : Orderly v s) (hr : Reaches v s.cwd path d leaf)
    (hf : FileAt v d j leaf data len) : HandsOut s path data len := by
  refine ⟨fun r hx => ?_, fun hroom => ?_⟩
  · have hf' := h.answer_eq hr hf.mem hf.name hx
    refine ⟨hf'.size.symm.trans hf.size, fun b hb => ?_⟩
    rw [← hf.bytes b hb, hf'.bytes b (by rw [← hf'.size, hf.size]; exact hb)]
  · exact Option.isSome_iff_exists.2 (fsLookup_answers h.well h.listable h.distinct h.toSees hroom hr hf)

/-- Another slot is the file it was. -/
theorem FileAt.frame (hf : FileAt v e k leaf data len) (hd : Dir v e) (hframe : Frame v v' d j)
    (hne : (e, k) ≠ (d, j)) :
    FileAt v' e k leaf data len := by
  obtain ⟨h1, h2⟩ := hframe.slotSame hne
  obtain ⟨h3, h4, h5⟩ := h2 hd hf.mem
  refine ⟨(h1.2 ⟨hd, hf.mem⟩).2, h3.isDir.trans hf.isDir, h4.trans hf.name, h3.size.trans hf.size, ?_⟩
  rw [h3.start, h5 hf.isDir]
  exact hf.bytes

/-- No path leads to the same file. -/
def Elsewhere (s : Fs) (path q : Name) : Prop :=
  ∀ d leaf e leaf', Reaches s s.cwd path d leaf → Reaches s s.cwd q e leaf' → (d, leaf) ≠ (e, leaf')

theorem Elsewhere.ne (hq : Elsewhere s path q) (hr : Reaches s s.cwd path d leaf)
    (hn : s.Occupied d j → s.slotName d j = leaf) (hr' : Reaches s s.cwd q e leaf')
    (hf : FileAt s e k leaf' data len) : (e, k) ≠ (d, j) := by
  intro heq
  obtain ⟨rfl, rfl⟩ := Prod.mk.inj heq
  exact hq _ _ _ _ hr hr' (by rw [← hf.name, hn hf.mem])

/-- **What a path leads to is handed out as before**, unless it is slot `j`. -/
theorem Orderly.others (h : Orderly s s) (h' : Orderly v' s') (hc : s'.cwd = s.cwd)
    (hframe : Frame s v' d j) (hdir : ¬ (s.Occupied d j ∧ s.slotIsDir d j = true)) {r : Bytes × Nat}
    (hx : (exec (fsLookup q) s).1 = some r)
    (hne : ∀ {e k leaf'}, Reaches s s.cwd q e leaf' → FileAt s e k leaf' r.1 r.2 →
      (e, k) ≠ (d, j)) : HandsOut s' q r.1 r.2 := by
  obtain ⟨e, k, leaf', hr, hf⟩ := h.answer hx
  exact h'.handsOut (hc ▸ hr.frame hframe hdir h.cwd) (hf.frame (hr.dir h.cwd) hframe (hne hr hf))

theorem cwd_kept {m : FsM Unit} (h : ComesBack m) (s : Fs) : (exec m s).2.cwd = s.cwd := by
  obtain ⟨h1, h2⟩ := h s.cwd s.path s ⟨rfl, rfl⟩
  cases hx : (exec m s).1 with
  | none => exact (h2 hx).1
  | some a => exact (h1 a hx).1

/-! ## The volume with one file -/

theorem oneFile_orderly : Orderly oneFile oneFile := by
  obtain ⟨h1, h2, h3, h4⟩ := oneFile_good
  exact ⟨⟨h1.stands, fun _ => h4⟩, h1.well, h3, h2⟩

theorem room_supplied {n : Nat} {o : Offer} (h : n < o.pages) : n < (s.supplied o).room :=
  Nat.lt_add_right _ h

/-- A file that is handed out, when there are pages. -/
theorem HandsOut.found (h : HandsOut s path data len) (hroom : fsMax < s.room) :
    ∃ r, (exec (fsLookup path) s).1 = some r ∧ r.2 = len ∧ Agree r.1 data len := by
  obtain ⟨r, hr⟩ := Option.isSome_iff_exists.1 (h.2 hroom)
  exact ⟨r, hr, h.1 r hr⟩

/-- `fs_lookup` finds the file `a`. -/
theorem oneFile_a : ∃ r, (exec (fsLookup [97]) oneFile).1 = some r ∧ r.2 = 5 := by
  have hsize : (exec (fsLookup [97]) oneFile).1.map (·.2) = some 5 := by decide +kernel
  exact Option.map_eq_some_iff.1 hsize

/-- The calls on it that the following results are applied to succeed. -/
theorem oneFile_calls :
    (exec (fsWrite [98] (fun _ => 7) 5) oneFile).1 = some () ∧ (exec (fsCopy [97] [98]) oneFile).1 = some () ∧
    (exec (fsTruncate [97] 9) oneFile).1 = some () ∧ (exec (fsRename [97] [98]) oneFile).1 = some () ∧
    (exec (fsMkdir [100]) oneFile).1 = some () ∧
    (exec (fsRemove [97]) ((exec (fsWrite [98] (fun _ => 7) 5) oneFile).2.supplied ⟨60, []⟩)).1 = some () ∧
    (exec (fsRmdir [100]) ((exec (fsMkdir [100]) oneFile).2.supplied ⟨60, []⟩)).1 = some () := by
  decide +kernel

/-- A path of one component ends in it. -/
theorem last_one {n : UInt8} (hn : n ≠ slash) : (components [n]).getLast? = some (some [n]) := by
  have h : (n == slash) = false := beq_false_of_ne hn
  simp [components, List.splitOn, List.splitOnP, List.splitOnPPrepend, nameMax, h]

/-- The paths `b` and `d` are spelled as they are listed. -/
theorem asListed_one {n : UInt8} (hn : n ≠ slash) (h : listedAs [n] = [n]) : AsListed [n] := fun leaf h' => by
  rw [last_one hn] at h'
  rw [← Option.some.inj (Option.some.inj h'), h]

theorem asListed_b : AsListed [98] := asListed_one (by decide) (by decide)

theorem asListed_d : AsListed [100] := asListed_one (by decide) (by decide)

theorem elsewhere_ab : Elsewhere s [97] [98] := fun d leaf e leaf' h h' heq => by
  have h1 := (last_one (by decide)).symm.trans h.last
  have h2 := (last_one (by decide)).symm.trans h'.last
  rw [(Prod.mk.inj heq).2, ← h2] at h1
  exact absurd h1 (by decide)

/-! ## `fs_write`, `fs_copy` and `fs_truncate` -/

/-- After a call that has changed the file `path` leads to: this file, and all others. -/
structure Reads (s s' : Fs) (path : Name) (data : Bytes) (len : Nat) : Prop where
  orderly : Orderly s' s'
  this : HandsOut s' path data len
  other : ∀ q r, Elsewhere s path q → (exec (fsLookup q) s).1 = some r → HandsOut s' q r.1 r.2

/-- The file has the name that the path ends in, and no other entry has it. -/
theorem Orderly.reads (h : Orderly s s) (hw : WellFormed v') (hl : True → Listable v')
    (hs' : Sees True v' s') (hc : s'.cwd = s.cwd) (hr : Reaches s s.cwd path d leaf)
    (hframe : Frame s v' d j) (hdir : ¬ (s.Occupied d j ∧ s.slotIsDir d j = true))
    (hn : s.Occupied d j → s.slotName d j = leaf)
    (ha : ∀ k, k ≠ j → s.Occupied d k → leaf ≠ s.slotName d k) (hat : FileAt v' d j leaf data len)
    {o : Offer} (ho : o.errs = []) : Reads s (s'.supplied o) path data len := by
  have hu : Distinct v' := hframe.distinct h.distinct fun _ k hne hk => by
    rw [hat.name]
    exact ha k hne hk
  have h' := hs'.orderly hw hl hu ho
  refine ⟨h'.self, h'.handsOut (?_ : Reaches v' s'.cwd path d leaf) hat, fun q r hq hx => ?_⟩
  · exact hc ▸ hr.frame hframe hdir h.cwd
  · exact h.others h' hc hframe hdir hx fun hr' hf' => hq.ne hr hn hr' hf'

/-- The volume of a file that was written. -/
theorem Filed.reads (h : Filed True s v' d j leaf data len) (hs : Orderly s s) (hw : WellFormed v')
    (hl : True → Listable v') (hs' : Sees True v' s') (hc : s'.cwd = s.cwd)
    (hr : Reaches s s.cwd path d leaf) (hn : listedAs leaf = leaf) {o : Offer} (ho : o.errs = []) :
    Reads s (s'.supplied o) path data len := by
  obtain ⟨hframe, name, horigin, hat⟩ := h
  obtain ⟨hname, ha⟩ := horigin.apart hs.distinct (hr.dir hs.cwd) hn
  rw [hname] at hat
  exact hs.reads hw hl hs' hc hr hframe horigin.not_dir horigin.named ha hat ho

/-- **What `fs_write` stored is what `fs_lookup` hands out**, and it hands out all other files as before. -/
theorem write_lookup (hs : Orderly s s) (hn : AsListed path) (h0 : len ≠ 0)
    (h : (exec (fsWrite path src len) s).1 = some ()) {o : Offer} (ho : o.errs = []) :
    Reads s ((exec (fsWrite path src len) s).2.supplied o) path src len := by
  obtain ⟨v', h1, h2, h3, d, j, leaf, hr, h4⟩ :=
    (fsWrite_stored hs.well (fun _ => hs.listable) path src len s ⟨hs.toSees, rfl⟩).1 () h
  rw [if_neg h0] at h4
  exact h4.reads hs h1 h3 h2 (cwd_kept (fsWrite_back path src len) s) hr (hn.last hr) ho

theorem write_lookup_oneFile :
    let s' := (exec (fsWrite [98] (fun _ => 7) 5) oneFile).2.supplied ⟨60, []⟩
    Reads oneFile s' [98] (fun _ => 7) 5 ∧ ∃ r, (exec (fsLookup [98]) s').1 = some r ∧ r.2 = 5 ∧
      Agree r.1 (fun _ => 7) 5 := by
  intro s'
  have h : Reads oneFile s' [98] (fun _ => 7) 5 :=
    write_lookup oneFile_orderly asListed_b (by decide) oneFile_calls.1 rfl
  exact ⟨h, h.this.found (room_supplied (by decide))⟩

/-- **`fs_copy`**: what `fs_lookup` handed out for the source it hands out for the copy. -/
theorem copy_lookup {p : Name} (hs : Orderly s s) (hn : AsListed q) {r : Bytes × Nat} (h0 : r.2 ≠ 0)
    (hr : (exec (fsLookup p) s).1 = some r) (h : (exec (fsCopy p q) s).1 = some ()) {o : Offer}
    (ho : o.errs = []) : Reads s ((exec (fsCopy p q) s).2.supplied o) q r.1 r.2 := by
  obtain ⟨v', h1, h2, h3, e, k, leaf, data, len, hr', hf, h4⟩ :=
    (fsCopy_copied hs.well (fun _ => hs.listable) p q s ⟨hs.toSees, rfl⟩).1 () h
  obtain ⟨h5, h6⟩ := (hs.handsOut hr' hf).1 r hr
  rw [h5] at h0 ⊢
  obtain ⟨d, j, leaf', h7, h8⟩ := h4.agree fun b hb => (h6 b hb).symm
  rw [if_neg h0] at h8
  exact h8.reads hs h1 h3 h2 (cwd_kept (fsCopy_back p q) s) h7 (hn.last h7) ho

theorem copy_lookup_oneFile : ∃ r, (exec (fsLookup [97]) oneFile).1 = some r ∧
    let s' := (exec (fsCopy [97] [98]) oneFile).2.supplied ⟨60, []⟩
    Reads oneFile s' [98] r.1 r.2 ∧ ∃ r', (exec (fsLookup [98]) s').1 = some r' ∧ r'.2 = r.2 ∧
      Agree r'.1 r.1 r.2 := by
  obtain ⟨r, hr, hsize⟩ := oneFile_a
  have h := copy_lookup oneFile_orderly asListed_b (o := ⟨60, []⟩) (by omega) hr oneFile_calls.2.1 rfl
  exact ⟨r, hr, h, h.this.found (room_supplied (by decide))⟩

/-- **`fs_truncate`**: `fs_lookup` hands out the front of what it handed out, with zeros behind it. -/
theorem truncate_lookup (hs : Orderly s s) {r : Bytes × Nat}
    (hr : (exec (fsLookup path) s).1 = some r) (h : (exec (fsTruncate path len) s).1 = some ())
    {o : Offer} (ho : o.errs = []) :
    Reads s ((exec (fsTruncate path len) s).2.supplied o) path
      (fun b => if b < r.2 then r.1 b else 0) len := by
  obtain ⟨v', h1, h2, h3, d, j, leaf, hr', hm, hname, hkind, hframe, hat⟩ :=
    (fsTruncate_cut hs.well (fun _ => hs.listable) path len s ⟨hs.toSees, rfl⟩).1 () h
  have hf := hs.answer_eq hr' hm hname hr
  have hdir : ¬ (s.Occupied d j ∧ s.slotIsDir d j = true) := fun ⟨_, h2⟩ => by
    rw [hkind] at h2
    cases h2
  refine hs.reads h1 h3 h2 (cwd_kept (fsTruncate_back path len) s) hr' hframe hdir (fun _ => hname)
    (fun k hne hk e => ?_) (hat.agree fun b _ => ?_) ho
  · exact hne (hs.distinct d (hr'.dir hs.cwd) k j hk hm (e.symm.trans hname.symm))
  · show (if b < s.slotSize d j then s.fileBytes (s.slotStart d j) b else 0) = if b < r.2 then r.1 b else 0
    rw [hf.size]
    split
    · next hlt => exact hf.bytes b hlt
    · rfl

theorem truncate_lookup_oneFile : ∃ r, (exec (fsLookup [97]) oneFile).1 = some r ∧
    let s' := (exec (fsTruncate [97] 9) oneFile).2.supplied ⟨60, []⟩
    Reads oneFile s' [97] (fun b => if b < r.2 then r.1 b else 0) 9 ∧ ∃ r',
      (exec (fsLookup [97]) s').1 = some r' ∧ r'.2 = 9 := by
  obtain ⟨r, hr, -⟩ := oneFile_a
  have h := truncate_lookup oneFile_orderly (o := ⟨60, []⟩) hr oneFile_calls.2.2.1 rfl
  obtain ⟨r', hr', hsize, -⟩ := h.this.found (room_supplied (by decide))
  exact ⟨r, hr, h, r', hr', hsize⟩

/-! ## `fs_mkdir` -/

/-- The new name is one that no other entry had. -/
theorem mkdir_orderly (hs : Orderly s s) (hn : AsListed path)
    (h : (exec (fsMkdir path) s).1 = some ()) {o : Offer} (ho : o.errs = []) :
    ∃ v', Orderly v' ((exec (fsMkdir path) s).2.supplied o) ∧ Added True s s.cwd path v' := by
  obtain ⟨v', h1, h2, h3, h4⟩ := (fsMkdir_added hs.well (fun _ => hs.listable) path s ⟨hs.toSees, rfl⟩).1 () h
  refine ⟨v', h2.orderly h1 h3 ?_ ho, h4⟩
  obtain ⟨d, j, leaf, hr, hframe, -, habs, -, -, hname, -⟩ := h4
  exact hframe.distinct hs.distinct fun _ k _ hk e => habs trivial k hk
    (e.symm.trans (hname.trans (hn.last hr)))

/-- **`fs_mkdir`**: `fs_stat` finds a directory, and `fs_lookup` hands out all files as before. -/
theorem mkdir_stat (hs : Orderly s s) (hn : AsListed path) (h : (exec (fsMkdir path) s).1 = some ())
    {o : Offer} (ho : o.errs = []) :
    let s' := (exec (fsMkdir path) s).2.supplied o
    Orderly s' s' ∧ ((∀ r, (exec (fsStat path) s').1 = some r → r.2.2 = true) ∧
      (fsMax ≤ s'.room → (exec (fsStat path) s').1.isSome)) ∧
      ∀ q r, (exec (fsLookup q) s).1 = some r → HandsOut s' q r.1 r.2 := by
  intro s'
  obtain ⟨v', h', d, j, leaf, hr, hframe, hfree, -, hm, hkind, hname, -⟩ := mkdir_orderly hs hn h ho
  have hname := hname.trans (hn.last hr)
  have hcwd : s'.cwd = s.cwd := cwd_kept (fsMkdir_back path) s
  have hdir : ¬ (s.Occupied d j ∧ s.slotIsDir d j = true) := fun h => hfree h.1
  have hr' : Reaches v' s'.cwd path d leaf := hcwd ▸ hr.frame hframe hdir hs.cwd
  refine ⟨h'.self, ⟨fun r hx => ?_, fun hroom => ?_⟩, fun q r hx => ?_⟩
  · obtain ⟨-, e, k, leaf', hr'', hk, hname', rfl⟩ :=
      (fsStat_reads h'.well (F := True) (fun _ => h'.listable) path s' ⟨h'.toSees, rfl⟩).1 r hx
    obtain ⟨rfl, rfl⟩ := hr'.unique h'.well h'.distinct h'.cwd hr''
    obtain rfl := h'.distinct d (hr'.dir h'.cwd) j k hm hk (hname.trans hname'.symm)
    exact hkind
  · exact Option.isSome_iff_exists.2 (fsStat_answers h'.well h'.listable h'.distinct h'.toSees hroom
      hr' hm hname)
  · refine hs.others h' hcwd hframe hdir hx fun _ hf heq => hfree ?_
    obtain ⟨rfl, rfl⟩ := Prod.mk.inj heq
    exact hf.mem

theorem mkdir_stat_oneFile :
    let s' := (exec (fsMkdir [100]) oneFile).2.supplied ⟨60, []⟩
    (∃ r, (exec (fsStat [100]) s').1 = some r ∧ r.2.2 = true) ∧ ∀ q r,
      (exec (fsLookup q) oneFile).1 = some r → HandsOut s' q r.1 r.2 := by
  obtain ⟨-, -, -, -, hmade, -, -⟩ := oneFile_calls
  obtain ⟨-, ⟨h1, h2⟩, h3⟩ := mkdir_stat oneFile_orderly asListed_d (o := ⟨60, []⟩) hmade rfl
  obtain ⟨r, hr⟩ := Option.isSome_iff_exists.1 (h2 (Nat.le_of_lt (room_supplied (by decide))))
  exact ⟨⟨r, hr, h1 r hr⟩, h3⟩

/-! ## `fs_remove` and `fs_rmdir` -/

/-- Slot `j` is free: its names are different from those of the other slots. -/
theorem Frame.distinct_freed (h : Frame v v' d j) (hu : Distinct v) (hj : ¬ v'.Occupied d j) :
    Distinct v' := h.distinct hu fun hm => absurd hm hj

/-- A name that slot `j` had is not in the directory. -/
theorem Frame.gone (h : Frame v v' d j) (hu : Distinct v) (hd : Dir v d) (hm : v.Occupied d j)
    (hn : v.slotName d j = leaf) (hj : ¬ v'.Occupied d j) (hd' : Dir v' d) :
    ∀ k, v'.Occupied d k → v'.slotName d k ≠ leaf := by
  intro k hk hname
  have hne : k ≠ j := fun e => hj (e ▸ hk)
  have hne' : (d, k) ≠ (d, j) := fun e => hne (Prod.mk.inj e).2
  obtain ⟨-, hk'⟩ := (h.slot d k hne').1 ⟨hd', hk⟩
  exact hne (hu d hd k j hk' hm ((((h.same d k hne' hd hk').2.1.symm.trans hname)).trans hn.symm))

/-- Paths lead where they led before a slot came to be free. -/
theorem Reaches.back (h : Reaches v' c path d leaf) (hframe : Frame v v' e j)
    (hj : ¬ v'.Occupied e j) (hc : Dir v' c) : Reaches v c path d leaf :=
  h.frame hframe.symm (fun h => hj h.1) hc

/-- **`fs_remove`**: `fs_lookup` finds the file under no path, and hands out all other files as before. -/
theorem remove_lookup (hs : Orderly s s) (h : (exec (fsRemove path) s).1 = some ()) {o : Offer}
    (ho : o.errs = []) :
    let s' := (exec (fsRemove path) s).2.supplied o
    Orderly s' s' ∧ (exec (fsLookup path) s').1 = none ∧ ∀ q r, (exec (fsLookup q) s).1 = some r →
      (Elsewhere s path q → HandsOut s' q r.1 r.2) ∧
        (¬ Elsewhere s path q → (exec (fsLookup q) s').1 = none) := by
  intro s'
  obtain ⟨v', h1, h2, h3, d, j, leaf, hr, hm, hname, hkind, -, hframe, hfree, -⟩ :=
    (fsRemove_freed hs.well (fun _ => hs.listable) path s ⟨hs.toSees, rfl⟩).1 () h
  have h' : Orderly v' s' := h2.orderly h1 h3 (hframe.distinct_freed hs.distinct hfree) ho
  have hcwd : s'.cwd = s.cwd := cwd_kept (fsRemove_back path) s
  have hd := hr.dir hs.cwd
  have hdir : ¬ (s.Occupied d j ∧ s.slotIsDir d j = true) := fun ⟨_, h2⟩ => by
    rw [hkind] at h2
    cases h2
  have hd' := hframe.dir hdir hd
  have hgone : ∀ {q}, Reaches s s.cwd q d leaf → (exec (fsLookup q) s').1 = none := by
    intro q hq
    by_contra hne
    obtain ⟨r, hx⟩ := Option.ne_none_iff_exists'.1 hne
    obtain ⟨e, k, leaf', hr', hf⟩ := h'.answer hx
    obtain ⟨rfl, rfl⟩ := hq.unique hs.well hs.distinct hs.cwd (hcwd ▸ hr'.back hframe hfree h'.cwd)
    exact hframe.gone hs.distinct hd hm hname hfree hd' k hf.mem hf.name
  refine ⟨h'.self, hgone hr, fun q r hx => ⟨fun hq => ?_, fun hq => ?_⟩⟩
  · exact hs.others h' hcwd hframe hdir hx fun hr' hf => hq.ne hr (fun _ => hname) hr' hf
  · unfold Elsewhere at hq
    push Not at hq
    obtain ⟨d1, l1, e, l2, h4, h5, h6⟩ := hq
    obtain ⟨rfl, rfl⟩ := hr.unique hs.well hs.distinct hs.cwd h4
    obtain ⟨rfl, rfl⟩ := Prod.mk.inj h6
    exact hgone h5

theorem remove_lookup_oneFile :
    let s := (exec (fsWrite [98] (fun _ => 7) 5) oneFile).2.supplied ⟨60, []⟩
    let s' := (exec (fsRemove [97]) s).2.supplied ⟨60, []⟩
    (exec (fsLookup [97]) s').1 = none ∧ ∃ r, (exec (fsLookup [98]) s').1 = some r ∧ r.2 = 5 ∧
      Agree r.1 (fun _ => 7) 5 := by
  intro s s'
  have hs := oneFile_orderly
  obtain ⟨hwritten, -, -, -, -, hgone, -⟩ := oneFile_calls
  obtain ⟨v', h1, h2, h3, d, j, leaf, hr, h4⟩ :=
    (fsWrite_stored hs.well (fun _ => hs.listable) [98] (fun _ => 7) 5 oneFile ⟨hs.toSees, rfl⟩).1 () hwritten
  have hb : Reads oneFile s [98] (fun _ => 7) 5 :=
    h4.reads hs h1 h3 h2 (cwd_kept (fsWrite_back _ _ _) oneFile) hr (asListed_b.last hr) rfl
  obtain ⟨r, hr, hsize, hbytes⟩ := hb.this.found (room_supplied (by decide))
  obtain ⟨-, h5, h6⟩ := remove_lookup (o := ⟨60, []⟩) hb.orderly hgone rfl
  obtain ⟨r', hr', hsize', hbytes'⟩ := ((h6 [98] r hr).1 elsewhere_ab).found (room_supplied (by decide))
  exact ⟨h5, r', hr', hsize'.trans hsize, fun b hb => (hbytes' b (by omega)).trans (hbytes b hb)⟩

/-- No component of the path is `..`. -/
def Downward (path : Name) : Prop := ∀ x, some x ∈ components path → isDotDot x = false

/-- A way down to an entry passes through directories that have one. -/
theorem Leads.used (h : Leads v d cs e) (hcs : ∀ x ∈ cs, isDotDot x = false) (hk : v.Occupied e k) :
    ∃ m, v.Occupied d m := by
  induction cs generalizing d with
  | nil =>
    obtain rfl := h
    exact ⟨k, hk⟩
  | cons x cs ih =>
    obtain ⟨m, h1, h2⟩ := h
    have hx := hcs x List.mem_cons_self
    cases h1 with
    | dot _ => exact ih h2 fun y hy => hcs y (List.mem_cons_of_mem _ hy)
    | top _ h3 | up _ h3 =>
      rw [hx] at h3
      cases h3
    | down _ _ hm => exact ⟨_, hm⟩

/-- It stays when a directory without entries goes. -/
theorem Leads.past (h : Leads v c cs e) (hframe : Frame v v' d j)
    (hempty : ∀ k, ¬ v.Occupied (v.slotStart d j) k) (hcs : ∀ x ∈ cs, isDotDot x = false)
    (hk : v.Occupied e k) (hc : Dir v c) : Leads v' c cs e := by
  induction cs generalizing c with
  | nil => exact h
  | cons x cs ih =>
    obtain ⟨m, h1, h2⟩ := h
    have hrest : ∀ y ∈ cs, isDotDot y = false := fun y hy => hcs y (List.mem_cons_of_mem _ hy)
    have hx := hcs x List.mem_cons_self
    have hlead := ih h2 hrest (h1.dir hc)
    cases h1 with
    | dot h3 => exact ⟨c, .dot h3, hlead⟩
    | top _ h3 | up _ h3 =>
      rw [hx] at h3
      cases h3
    | @down _ i h3 h4 hi hdir hname hst =>
      obtain ⟨i', hi'⟩ := h2.used hrest hk
      have hne : (c, i) ≠ (d, j) := fun heq => by
        obtain ⟨rfl, rfl⟩ := Prod.mk.inj heq
        exact hempty i' (hst ▸ hi')
      obtain ⟨-, h5⟩ := (hframe.slot c i hne).2 ⟨hc, hi⟩
      obtain ⟨h6, h7⟩ := hframe.same c i hne hc hi
      exact ⟨m, .down h3 h4 h5 (h6.isDir.trans hdir) (h7.1.trans hname) (h6.start.trans hst), hlead⟩

/-- **`fs_rmdir`**: the directory had no entries, `fs_stat` does not find it, and all files are
handed out as before. -/
theorem rmdir_stat (hs : Orderly s s) (h : (exec (fsRmdir path) s).1 = some ()) {o : Offer}
    (ho : o.errs = []) :
    let s' := (exec (fsRmdir path) s).2.supplied o
    Orderly s' s' ∧ (∃ d j leaf, Reaches s s.cwd path d leaf ∧ s.Occupied d j ∧
      s.slotName d j = leaf ∧ s.slotIsDir d j = true ∧
      ∀ k, ¬ s.Occupied (s.slotStart d j) k) ∧ (exec (fsStat path) s').1 = none ∧ ∀ q r,
        (exec (fsLookup q) s).1 = some r →
        (∀ r', (exec (fsLookup q) s').1 = some r' → r'.2 = r.2 ∧ Agree r'.1 r.1 r.2) ∧
          (Downward q → HandsOut s' q r.1 r.2) := by
  intro s'
  obtain ⟨v', h1, h2, h3, d, j, leaf, hr, hm, hname, hkind, hempty, hframe, hfree, -⟩ :=
    (fsRmdir_freed hs.well (fun _ => hs.listable) path s ⟨hs.toSees, rfl⟩).1 () h
  have h' : Orderly v' s' := h2.orderly h1 h3 (hframe.distinct_freed hs.distinct hfree) ho
  have hcwd : s'.cwd = s.cwd := cwd_kept (fsRmdir_back path) s
  have hback : ∀ {q e leaf'}, Reaches v' s'.cwd q e leaf' → Reaches s s.cwd q e leaf' :=
    fun h => hcwd ▸ h.back hframe hfree h'.cwd
  -- slot `j` is no file
  have hother : ∀ {e k leaf' data len}, FileAt s e k leaf' data len → (e, k) ≠ (d, j) := by
    intro e k leaf' data len hf heq
    obtain ⟨rfl, rfl⟩ := Prod.mk.inj heq
    rw [hf.isDir] at hkind
    cases hkind
  refine ⟨h'.self, ⟨d, j, leaf, hr, hm, hname, hkind, hempty rfl⟩, ?_, fun q r hx => ?_⟩
  · by_contra hne
    obtain ⟨r, hx⟩ := Option.ne_none_iff_exists'.1 hne
    obtain ⟨-, e, k, leaf', hr', hk, hname', -⟩ :=
      (fsStat_reads h1 (F := True) h3 path s' ⟨h'.toSees, rfl⟩).1 r hx
    obtain ⟨rfl, rfl⟩ := hr.unique hs.well hs.distinct hs.cwd (hback hr')
    exact hframe.gone hs.distinct (hr.dir hs.cwd) hm hname hfree (hr'.dir h'.cwd) k hk hname'
  · obtain ⟨e, k, leaf', hr', hf⟩ := hs.answer hx
    have hf' := hf.frame (hr'.dir hs.cwd) hframe (hother hf)
    refine ⟨fun r' hx' => ?_, fun hq => ?_⟩
    · obtain ⟨e', k', l, hr'', hf''⟩ := h'.answer hx'
      obtain ⟨rfl, rfl⟩ := hr'.unique hs.well hs.distinct hs.cwd (hback hr'')
      exact (h'.handsOut hr'' hf').1 r' hx'
    · obtain ⟨cs, hpath, hlead⟩ := hr'
      refine h'.handsOut ⟨cs, hpath, hcwd ▸ hlead.past hframe (hempty rfl) (fun x hx => hq x ?_)
        hf.mem (fromDir_dir hs.cwd q)⟩ hf'
      rw [hpath]
      exact List.mem_map_of_mem (List.mem_append_left _ hx)

theorem rmdir_stat_oneFile :
    let s := (exec (fsMkdir [100]) oneFile).2.supplied ⟨60, []⟩
    let s' := (exec (fsRmdir [100]) s).2.supplied ⟨60, []⟩
    (exec (fsStat [100]) s').1 = none ∧ ∀ q r, (exec (fsLookup q) s).1 = some r → Downward q →
      HandsOut s' q r.1 r.2 := by
  intro s s'
  obtain ⟨-, -, -, -, hmade, -, hgone⟩ := oneFile_calls
  obtain ⟨v', h, -⟩ := mkdir_orderly oneFile_orderly asListed_d (o := ⟨60, []⟩) hmade rfl
  obtain ⟨-, -, h1, h2⟩ := rmdir_stat (o := ⟨60, []⟩) h.self hgone rfl
  exact ⟨h1, fun q r hr => (h2 q r hr).2⟩

/-! ## `fs_rename` -/

/-- **`fs_rename`** of a file without a long name, within its directory: `fs_lookup` hands out under
the new name what it handed out under the old one, does not find the old one, and hands out all
other files as before. -/
theorem rename_lookup {p : Name} (hs : Orderly s s) (hn : AsListed q)
    (hsame : ∀ d d' leaf leaf', Reaches s s.cwd p d leaf → Reaches s s.cwd q d' leaf' → d = d')
    (hshort : ∀ d j leaf, Reaches s s.cwd p d leaf → s.Occupied d j → s.slotName d j = leaf →
      lfnRunAt (s.dirData d) j = none)
    {r : Bytes × Nat} (hr : (exec (fsLookup p) s).1 = some r)
    (h : (exec (fsRename p q) s).1 = some ()) {o : Offer} (ho : o.errs = []) :
    let s' := (exec (fsRename p q) s).2.supplied o
    Orderly s' s' ∧ HandsOut s' q r.1 r.2 ∧ (exec (fsLookup p) s').1 = none ∧
      ∀ w x, Elsewhere s p w → (exec (fsLookup w) s).1 = some x → HandsOut s' w x.1 x.2 := by
  intro s'
  obtain ⟨v', h1, h2, h3, d, j, leaf, leaf', hrp, hrq, hm, hname, habs, hframe, hm', hsame', hbytes,
      htitle⟩ :=
    (fsRename_retitled hs.well (fun _ => hs.listable) p q hsame s ⟨hs.toSees, rfl⟩).1 () h
  have hcwd : s'.cwd = s.cwd := cwd_kept (fsRename_back p q) s
  have hd := hrp.dir hs.cwd
  have hf := hs.answer_eq hrp hm hname hr
  have hdir : ¬ (s.Occupied d j ∧ s.slotIsDir d j = true) := fun ⟨_, h2⟩ => by
    rw [hf.isDir] at h2
    cases h2
  have hnew : v'.slotName d j = leaf' := (htitle (hshort d j leaf hrp hm hname)).trans (hn.last hrq)
  have hu : Distinct v' := hframe.distinct hs.distinct fun _ k _ hk e => habs trivial k hk (e.symm.trans hnew)
  have h' : Orderly v' s' := h2.orderly h1 h3 hu ho
  have hat : FileAt v' d j leaf' r.1 r.2 := by
    refine ⟨hm', hsame'.isDir.trans hf.isDir, hnew, hsame'.size.trans hf.size, ?_⟩
    rw [hsame'.start, hbytes hf.isDir]
    exact hf.bytes
  have hrp' : Reaches v' s'.cwd p d leaf := hcwd ▸ hrp.frame hframe hdir hs.cwd
  refine ⟨h'.self, h'.handsOut (hcwd ▸ hrq.frame hframe hdir hs.cwd) hat, ?_,
    fun w x hw hx => hs.others h' hcwd hframe hdir hx fun hr' hf' => hw.ne hrp (fun _ => hname) hr' hf'⟩
  by_contra hne
  obtain ⟨x, hx⟩ := Option.ne_none_iff_exists'.1 hne
  obtain ⟨e, k, l, hr', hf'⟩ := h'.answer hx
  obtain ⟨rfl, rfl⟩ := hrp'.unique h1 hu h'.cwd hr'
  by_cases hkj : k = j
  · subst hkj
    exact habs trivial k hm (hname.trans (hf'.name.symm.trans hnew))
  · have hne' : (d, k) ≠ (d, j) := fun e => hkj (Prod.mk.inj e).2
    obtain ⟨-, hk⟩ := (hframe.slot d k hne').1 ⟨hframe.dir hdir hd, hf'.mem⟩
    exact hkj (hs.distinct d hd k j hk hm
      (((hframe.same d k hne' hd hk).2.1.symm.trans hf'.name).trans hname.symm))

theorem rename_lookup_oneFile : ∃ r, (exec (fsLookup [97]) oneFile).1 = some r ∧
    let s' := (exec (fsRename [97] [98]) oneFile).2.supplied ⟨60, []⟩
    (∃ x, (exec (fsLookup [98]) s').1 = some x ∧ x.2 = r.2 ∧ Agree x.1 r.1 r.2) ∧
      (exec (fsLookup [97]) s').1 = none := by
  have hroot : ∀ {q d leaf}, Reaches oneFile oneFile.cwd q d leaf → d = 0 :=
    fun h => oneFile_root (h.dir oneFile_orderly.cwd)
  have hsame : ∀ d d' leaf leaf', Reaches oneFile oneFile.cwd [97] d leaf →
      Reaches oneFile oneFile.cwd [98] d' leaf' → d = d' :=
    fun _ _ _ _ h h' => (hroot h).trans (hroot h').symm
  have hshort : ∀ d j leaf, Reaches oneFile oneFile.cwd [97] d leaf → oneFile.Occupied d j →
    oneFile.slotName d j = leaf →
      lfnRunAt (oneFile.dirData d) j = none := fun d j _ h hj _ => by
    obtain rfl := hroot h
    obtain rfl := oneFile_slot hj
    rfl
  obtain ⟨r, hr, -⟩ := oneFile_a
  obtain ⟨-, h1, h2, -⟩ := rename_lookup oneFile_orderly asListed_b (o := ⟨60, []⟩) hsame hshort hr
    oneFile_calls.2.2.2.1 rfl
  exact ⟨r, hr, h1.found (room_supplied (by decide)), h2⟩

end VampireOS.Fs
