import VampireOS.Fs.Reads

/-!
# Calls that write (kernel/fs.c:1533-1997)

What each call has done to the volume when it returns, by the slot that its path leads to. All other
slots are as before (`Frame`). A call that fails has done nothing, or all of it and the way back has
failed; only `fs_write` may have made its new file and left it empty.
-/

namespace VampireOS.Fs

open Lib

variable {v v' v'' u s s' : Fs} {src data : Bytes} {c d i j k n len : Nat} {f g : FileEnt}
    {leaf name path : Name} {F : Prop}

/-! ## `fs_write` -/

instance (v : Fs) (d j : Nat) : Decidable (v.Occupied d j) := inferInstanceAs (Decidable (_ ∧ _))

/-- The file's contents before a call, if there is one. -/
def contents (v : Fs) (d j : Nat) : Bytes := v.fileBytes (v.slotStart d j)

def size (v : Fs) (d j : Nat) : Nat := if v.Occupied d j then v.slotSize d j else 0

/-- The name of slot `j` after `fs_write` of the name `leaf`. -/
inductive Origin (F : Prop) (v : Fs) (d j : Nat) (leaf : Name) : Name → Prop where
  | old : v.Occupied d j → v.slotIsDir d j = false → v.slotName d j = leaf → Origin F v d j leaf leaf
  | new : ¬ v.Occupied d j → (F → ∀ k, v.Occupied d k → v.slotName d k ≠ leaf) →
      Origin F v d j leaf (listedAs leaf)

/-- Slot `j` of the directory at `d` is this file now. -/
def Filed (F : Prop) (v v' : Fs) (d j : Nat) (leaf : Name) (data : Bytes) (len : Nat) : Prop :=
  Frame v v' d j ∧ ∃ name, Origin F v d j leaf name ∧ FileAt v' d j name data len

/-- What `fs_write` has done when it succeeds. -/
def Saved (F : Prop) (v : Fs) (c : Nat) (path : Name) (src : Bytes) (len : Nat) (v' : Fs) : Prop :=
  ∃ d j leaf, Reaches v c path d leaf ∧
  (if len = 0 then Filed F v v' d j leaf (v.contents d j) (v.size d j) else Filed F v v' d j leaf src len)

/-- Every slot is as before. -/
def Intact (v v' : Fs) : Prop := ∃ d, ∀ j, Frame v v' d j

theorem Intact.refl (v : Fs) : Intact v v := ⟨0, fun j => .refl v 0 j⟩

/-- What a failed one leaves: nothing has changed, or there is the file with what it had. -/
def Spared (F : Prop) (v : Fs) (c : Nat) (path : Name) (v' : Fs) : Prop := Intact v v' ∨
  ∃ d j leaf, Reaches v c path d leaf ∧ Filed F v v' d j leaf (v.contents d j) (v.size d j)

/-- The entries of the cache, and the limit, allow slot `j` to be in use. -/
def Roomy (v : Fs) (d j n : Nat) : Prop :=
  (insert j (v.slots d)).card ≤ n ∧ (insert j (v.slots d)).card ≤ fsMax

/-- A complete cache has an entry for a slot in use. -/
theorem Sees.roomy (h : Sees F v s) (hl : F → Listable v) (hj : v.Occupied s.cwd j) (hF : F) :
    Roomy v s.cwd j s.files.length := by
  unfold Roomy
  rw [Finset.insert_eq_of_mem (mem_slots.2 hj)]
  exact ⟨(h.full hF).card, (hl hF).card h.cwd⟩

theorem Wrote.settled (h : Wrote v s.cwd j name data len s) (hd : Dir v s.cwd) (hl : F → Listable v)
    (hn : F → Roomy v s.cwd j s.files.length) :
    Settled F (fun v' => Frame v v' s.cwd j ∧ FileAt v' s.cwd j name data len) s := by
  obtain ⟨v', h1, h2, h3, h4⟩ := h
  refine h2.settled h1 h3 hl (fun hF => ?_) ⟨h3, h4⟩
  rw [h3.slots_insert hd h2.cwd h4.mem]
  exact hn hF

theorem Wrote.filed (h : Wrote v d j leaf data len s) (hm : v.Occupied d j)
    (hf : v.slotIsDir d j = false) (hn : v.slotName d j = leaf) :
    Over (fun v' => Filed F v v' d j leaf data len) s := by
  obtain ⟨v', h1, h2, h3, h4⟩ := h
  exact ⟨v', h1, h2, h3, leaf, .old hm hf hn, h4⟩

theorem Filed.refl (hm : v.Occupied d j) (hf : v.slotIsDir d j = false) (hn : v.slotName d j = leaf) :
    Filed F v v d j leaf (v.contents d j) (v.size d j) :=
  ⟨.refl v d j, leaf, .old hm hf hn, hm, hf, hn, (if_pos hm).symm, fun _ _ => rfl⟩

/-- No entry of the directory has a name that the cache has not. -/
theorem Sees.absent (h : Sees F v s) (hn : s.findFile leaf = none) (hne : leaf ≠ []) (hF : F) :
    ∀ k, v.Occupied s.cwd k → v.slotName s.cwd k ≠ leaf := by
  intro k hk e
  obtain ⟨f, hf, hat⟩ := h.full hF k hk
  unfold findFile at hn
  rw [if_neg hne, List.findIdx?_eq_none_iff] at hn
  exact of_decide_eq_false (hn f hf) (hat.name.trans e)

/-- A component of a path is not empty. -/
theorem Reaches.leaf_ne (h : Reaches v c path d leaf) : leaf ≠ [] := by
  obtain ⟨cs, h1, -⟩ := h
  refine (components_ok (p := path) ?_).1
  rw [h1, List.map_append, List.map_singleton]
  exact List.mem_append_right _ (List.mem_singleton_self _)

/-- The body for a file in the cache. -/
theorem writeOld (hw : WellFormed v) (hF : F → Listable v) (hs : Sees F v s)
    (hr : Reaches v c path s.cwd leaf) (hi : s.findFile leaf = some i)
    (hfile : (s.fileAt i).isDir = false) (src : Bytes) (len : Nat) :
    Triple (fun x => x = s) (writeFile i src len)
      (fun _ => Settled F (Saved F v c path src len)) (Over fun v' => Spared F v c path v' ∨
      Saved F v c path src len v') := by
  obtain ⟨hget, hname⟩ := findFile_get hi
  obtain ⟨j, hj⟩ := hs.cache.entry i _ hget
  have hkind : v.slotIsDir s.cwd j = false := hj.isDir.symm.trans hfile
  have hn : v.slotName s.cwd j = leaf := hj.name.symm.trans hname
  have hsize : v.size s.cwd j = v.slotSize s.cwd j := if_pos hj.mem
  refine (writeFile_wrote hw hs.toStands hget hj hfile src len).conseq (fun _ h => h)
    (fun _ x h => ?_) fun x h => ?_
  · rcases h with ⟨h0, rfl⟩ | ⟨h0, h, hseat⟩
    · refine hs.settled hw hF ⟨x.cwd, j, leaf, hr, ?_⟩
      rw [if_pos h0]
      exact .refl hj.mem hkind hn
    · rw [hn, ← hseat.cwd] at h
      refine (h.settled (hseat.cwd ▸ hs.cwd) hF fun hF' => ?_).mono fun v' h =>
        ⟨x.cwd, j, leaf, hseat.cwd ▸ hr, ?_⟩
      · rw [hseat.cwd, hseat.count]
        exact hs.roomy hF hj.mem hF'
      · rw [if_neg h0, hseat.cwd]
        rw [hseat.cwd] at h
        exact ⟨h.1, leaf, .old hj.mem hkind hn, h.2⟩
  · unfold Unwritten at h
    rw [hn, ← hsize] at h
    exact (h.filed (F := F) hj.mem hkind hn).mono fun v' h => .inl (.inr ⟨s.cwd, j, leaf, hr, h⟩)

/-- A new file, and the body. -/
theorem writeNew (hw : WellFormed v) (hF : F → Listable v) (hs : Sees F v s)
    (hr : Reaches v c path s.cwd leaf) (hi : s.findFile leaf = none) (src : Bytes) (len : Nat) :
    Triple (fun x => x = s) (do
      let i ← result (fsCreate leaf)
      match i with
      | none => leaveFail
      | some i => thenLeave (writeFile i src len))
      (fun _ => Settled F (Saved F v c path src len)) (Over fun v' => Spared F v c path v' ∨
        Saved F v c path src len v') := by
  rintro s rfl
  obtain ⟨h1, h2⟩ := fsCreate_born hw hs.toStands leaf s rfl
  rw [exec_bind_of (exec_result _ _)]
  cases hx : (exec (fsCreate leaf) s).1 with
  | none =>
    obtain ⟨v', h3, h4, h5⟩ := h2 hx
    refine leaveFail_over _ ⟨v', h3, h4, .inl (.inl ⟨_, h5⟩)⟩
  | some k =>
    obtain ⟨⟨hk, hmax⟩, v', j, f, hb⟩ := h1 k hx
    set x := (exec (fsCreate leaf) s).2
    have hcwd := hb.cwd
    have hentry : AtEntry v' x.cwd j f := hcwd ▸ hb.entry
    have hmem : v'.Occupied s.cwd j := hb.entry.mem
    have hkind : v'.slotIsDir s.cwd j = false := hb.entry.isDir.symm.trans hb.isDir
    have hname : v'.slotName s.cwd j = listedAs leaf := hb.entry.name.symm.trans hb.name
    have hsize : v'.slotSize s.cwd j = 0 := (hb.entry.len hb.isDir).symm.trans hb.len
    have habsent : F → ∀ k, v.Occupied s.cwd k → v.slotName s.cwd k ≠ leaf := hs.absent hi hr.leaf_ne
    have hsize0 : v.size s.cwd j = 0 := if_neg hb.fresh
    -- the new entry is one more, and there was room for it
    have hwhole : F → Whole v' x ∧ Listable v' := fun hF' => by
      refine hb.stands.whole hb.well (hcwd ▸ hb.frame) (hF hF') ?_
      have hone := Finset.card_insert_le j (v.slots s.cwd)
      have hfew := (hs.full hF').card
      have hget := (List.getElem?_eq_some_iff.1 hb.get).1
      rw [hcwd, hb.frame.slots_insert hs.cwd (hcwd ▸ hb.stands.cwd) hmem]
      omega
    have hseen : Sees F v' x := ⟨hb.stands, fun hF' => (hwhole hF').1⟩
    have hlist : F → Listable v' := fun hF' => (hwhole hF').2
    -- the file as it was made
    have hborn : ∀ n (data : Bytes), n = 0 → Filed F v v' s.cwd j leaf data n := fun n data h0 =>
      ⟨hb.frame, _, .new hb.fresh habsent, hmem, hkind, hname, hsize.trans h0.symm, fun b hb => by omega⟩
    have hbody : Triple (fun y => y = x) (writeFile k src len) (fun _ => Settled F (Saved F v c path src len))
        (Over fun v' => Spared F v c path v' ∨ Saved F v c path src len v') := by
      refine (writeFile_wrote hb.well hb.stands hb.get hentry hb.isDir src len).conseq
        (fun _ h => h) (fun _ y h => ?_) fun y h => ?_
      · rcases h with ⟨h0, rfl⟩ | ⟨h0, h, hseat⟩
        · refine hseen.settled hb.well hlist ⟨s.cwd, j, leaf, hr, ?_⟩
          rw [if_pos h0]
          exact hborn _ _ hsize0
        · have hcwd' : y.cwd = s.cwd := hseat.cwd.trans hcwd
          rw [hcwd, hname, ← hcwd'] at h
          refine (h.settled (hcwd' ▸ hcwd ▸ hb.stands.cwd) hlist fun hF' => ?_).mono fun v'' h =>
            ⟨s.cwd, j, leaf, hr, ?_⟩
          · rw [hseat.cwd, hseat.count]
            exact hseen.roomy hlist (hcwd ▸ hmem) hF'
          · rw [if_neg h0]
            rw [hcwd'] at h
            exact ⟨hb.frame.trans h.1, _, .new hb.fresh habsent, h.2⟩
      · unfold Unwritten at h
        rw [hcwd, hsize, hname] at h
        obtain ⟨v'', h3, h4, h5, h6⟩ := h
        refine ⟨v'', h3, h4, .inl (.inr ⟨s.cwd, j, leaf, hr, ?_⟩)⟩
        rw [hsize0]
        exact ⟨hb.frame.trans h5, _, .new hb.fresh habsent, h6.agree fun b hb => by omega⟩
    exact thenLeave_settled hbody (fun _ v' h => .inr h) x rfl

/-- **`fs_write`**: the file that the path names has the bytes, or no file of the volume has changed. -/
theorem fsWrite_stored (hw : WellFormed v) (hF : F → Listable v) (path : Name) (src : Bytes)
    (len : Nat) :
    Triple (fun s => Sees F v s ∧ s.cwd = c) (fsWrite path src len)
      (fun _ => Settled F (Saved F v c path src len))
      (Over fun v' => Spared F v c path v' ∨ Saved F v c path src len v') := by
  refine enter_over hw hF (.inl (.inl (.refl v))) fun leaf s hs hr => .readAt fun x hx => ?_
  subst hx
  simp only [id]
  cases hi : x.findFile leaf with
  | none => exact writeNew hw hF hs hr hi src len
  | some i =>
    refine .ite (fun _ => ?_) fun hf => ?_
    · exact leaveFail_over.conseq (fun y e => e ▸ hs.toStands.over hw (.inl (.inl (.refl v))))
        (fun _ _ h => h) fun _ h => h
    · exact thenLeave_settled (writeOld hw hF hs hr hi (Bool.eq_false_iff.2 hf) src len) fun _ v' h => .inr h

/-! ## `fs_truncate` -/

/-- Slot `j`, which the path names, is a file of the same name with these contents. -/
def Cut (v : Fs) (c : Nat) (path : Name) (data : Nat → Nat → Bytes) (len : Nat → Nat → Nat)
    (v' : Fs) : Prop := ∃ d j leaf,
  Reaches v c path d leaf ∧ v.Occupied d j ∧ v.slotName d j = leaf ∧ v.slotIsDir d j = false ∧
    Frame v v' d j ∧
  FileAt v' d j leaf (data d j) (len d j)

/-- **`fs_truncate`**: the file has the front of its contents, or zeros behind them. -/
theorem fsTruncate_cut (hw : WellFormed v) (hF : F → Listable v) (path : Name) (len : Nat) :
    Triple (fun s => Sees F v s ∧ s.cwd = c) (fsTruncate path len)
      (fun _ => Settled F (Cut v c path (padded v) fun _ _ => len))
      (Over fun v' => Intact v v' ∨ Cut v c path v.contents v.slotSize v' ∨
      Cut v c path (padded v) (fun _ _ => len) v') := by
  refine .check (fun s h => h.1.toStands.over hw (.inl (.refl v))) fun hmax => ?_
  have hmax : len ≤ fileMax := of_decide_eq_true hmax
  refine enter_over hw hF (.inl (.refl v)) fun leaf s hs hr => .readAt fun x hx => ?_
  subst hx
  simp only [id]
  cases hi : (x.findFile leaf).filter fun i => !(x.fileAt i).isDir && (x.fileAt i).data.isSome with
  | none =>
    exact leaveFail_over.conseq (fun y e => e ▸ hs.toStands.over hw (.inl (.refl v))) (fun _ _ h => h) fun _ h => h
  | some i =>
    obtain ⟨hi, hok⟩ := Option.filter_eq_some_iff.1 hi
    rw [Bool.and_eq_true, Bool.not_eq_true'] at hok
    obtain ⟨hget, hname⟩ := findFile_get hi
    obtain ⟨j, hj⟩ := hs.cache.entry i _ hget
    have hkind : v.slotIsDir x.cwd j = false := hj.isDir.symm.trans hok.1
    have hn : v.slotName x.cwd j = leaf := hj.name.symm.trans hname
    have hfail : ∀ y, Unwritten v x.cwd j y →
        Over (fun v' => Intact v v' ∨ Cut v c path v.contents v.slotSize v' ∨
        Cut v c path (padded v) (fun _ _ => len) v') y := by
      rintro y ⟨v', h1, h2, h3, h4⟩
      rw [hn] at h4
      exact ⟨v', h1, h2, .inr (.inl ⟨x.cwd, j, leaf, hr, hj.mem, hn, hkind, h3, h4⟩)⟩
    have hdone : ∀ y, Wrote v x.cwd j (v.slotName x.cwd j) (padded v x.cwd j) len y ∧ Seated x y →
        Settled F (Cut v c path (padded v) fun _ _ => len) y := by
      rintro y ⟨h, hseat⟩
      rw [hn, ← hseat.cwd] at h
      refine (h.settled (hseat.cwd ▸ hs.cwd) hF fun hF' => ?_).mono fun v' h => ?_
      · rw [hseat.cwd, hseat.count]
        exact hs.roomy hF hj.mem hF'
      · rw [hseat.cwd] at h
        exact ⟨x.cwd, j, leaf, hr, hj.mem, hn, hkind, h.1, h.2⟩
    refine thenLeave_settled ?_ fun _ _ h => .inr (.inr h)
    refine .ite (fun he => ?_) fun _ => .ite (fun h0 => ?_) fun h0 => ?_
    · have hlen : len = v.slotSize x.cwd j := he.trans (hj.len hok.1)
      refine .pureAt
        (hdone x ⟨⟨v, hw, hs.toStands, .refl v x.cwd j, hj.mem, hkind, rfl, hlen.symm,
        fun b hb => ?_⟩, rfl, rfl⟩)
      unfold padded
      rw [if_pos (by omega)]
    · subst h0
      exact (truncateZero_wrote hw hs.toStands hget hj hok.1).conseq (fun _ h => h)
        (fun _ y h => hdone y h) hfail
    · exact (truncateTo_wrote hw hs.toStands hget hj hok.1 ⟨h0, hmax⟩).conseq (fun _ h => h)
        (fun _ y h => hdone y h) hfail

/-! ## `fs_remove` and `fs_rmdir` -/

/-- Slot `j`, which the path names, is free with its clusters. It was a file, or an empty directory. -/
def Freed (v : Fs) (c : Nat) (path : Name) (isDir : Bool) (v' : Fs) : Prop :=
  ∃ d j leaf, Reaches v c path d leaf ∧ v.Occupied d j ∧
  v.slotName d j = leaf ∧ v.slotIsDir d j = isDir ∧
    (isDir = true → ∀ k, ¬ v.Occupied (v.slotStart d j) k) ∧ Frame v v' d j ∧
  ¬ v'.Occupied d j ∧ ∀ cl ∈ v.owned d j, v'.fatEnt cl = 0

theorem Removed.freed (h : Removed v v' s d j) (hr : Reaches v c path d leaf) (hj : AtEntry v d j f)
    (hn : f.name = leaf) (he : f.isDir = true → ∀ k, ¬ v.Occupied f.cluster k) :
    Freed v c path f.isDir v' := by
  refine ⟨d, j, leaf, hr, hj.mem, hj.name.symm.trans hn, hj.isDir.symm, fun hdir => ?_, h.frame,
    h.gone, h.free⟩
  rcases hj.cluster with hc | ⟨hf, -⟩
  · exact hc ▸ he hdir
  · rw [hdir] at hf
    cases hf

/-- The slot and its entry are gone. -/
theorem Removed.settled (h : Removed v v' s' s.cwd j) (hs : Sees F v s) (hF : F → Listable v)
    (hj : v.Occupied s.cwd j) (hc : s'.cwd = s.cwd) (hn : s'.files.length = s.files.length - 1)
    {P : Fs → Prop} (hp : P v') : Settled F P s' := by
  refine h.stands.settled h.well (hc ▸ h.frame) hF (fun hF' => ?_) hp
  have hfew := (hs.full hF').card
  have hmax := (hF hF').card hs.cwd
  rw [hc, h.frame.slots_erase hs.cwd (hc ▸ h.stands.cwd) h.gone, Finset.card_erase_of_mem
    (mem_slots.2 hj), hn]
  omega

/-- **`fs_remove`**: the file is gone, and its clusters are free. -/
theorem fsRemove_freed (hw : WellFormed v) (hF : F → Listable v) (path : Name) :
    Triple (fun s => Sees F v s ∧ s.cwd = c) (fsRemove path)
    (fun _ => Settled F (Freed v c path false)) (Over fun v' => Intact v v' ∨
    Freed v c path false v') := by
  refine enter_over hw hF (.inl (.refl v)) fun leaf s hs hr => thenLeave_settled
    (.readAt fun x hx => ?_) fun _ _ h => .inr h
  subst hx
  have hst : ∀ y, y = x → Over (fun v' => Intact v v' ∨ Freed v c path false v') y :=
    fun y e => e ▸ hs.toStands.over hw (.inl (.refl v))
  refine .take hst fun i hi => .check hst fun hneed => ?_
  obtain ⟨hget, hname⟩ := findFile_get hi
  obtain ⟨j, hj⟩ := hs.cache.entry i _ hget
  have hfile : (x.fileAt i).isDir = false := by
    rw [Bool.not_eq_true'] at hneed
    exact hneed
  obtain ⟨v', x', h1, h2, hcwd, hcount⟩ := removeFile_removed hw hs.toStands hget hj hfile
  have hfreed := h2.freed hr hj hname fun ht => absurd (hfile.symm.trans ht) nofun
  rw [show ((id x).fileAt i).isDir = false from hfile] at hfreed
  rintro y rfl
  rw [h1]
  exact ⟨fun _ _ => h2.settled hs hF hj.mem hcwd hcount hfreed, nofun⟩

/-- **`fs_rmdir`**: the directory was empty, and it is gone with its clusters. -/
theorem fsRmdir_freed (hw : WellFormed v) (hF : F → Listable v) (path : Name) :
    Triple (fun s => Sees F v s ∧ s.cwd = c) (fsRmdir path)
    (fun _ => Settled F (Freed v c path true)) (Over fun v' => Intact v v' ∨
    Freed v c path true v') := by
  refine enter_over hw hF (.inl (.refl v)) fun leaf s hs hr => thenLeave_settled
    (.readAt fun x hx => ?_) fun _ _ h => .inr h
  subst hx
  have hst : ∀ y, y = x → Over (fun v' => Intact v v' ∨ Freed v c path true v') y :=
    fun y e => e ▸ hs.toStands.over hw (.inl (.refl v))
  refine .take hst fun i hi => .check hst fun hneed => ?_
  simp only [id] at hi hneed ⊢
  obtain ⟨hget, hname⟩ := findFile_get hi
  obtain ⟨j, hj⟩ := hs.cache.entry i _ hget
  rw [Bool.and_eq_true, decide_eq_true_iff] at hneed
  obtain ⟨hdir, hsaved⟩ := hneed
  obtain ⟨r, h1, h2⟩ := dirEmpty_spec hw hs.toStands (hs.child hi hdir)
  rintro y rfl
  rw [exec_bind_of h1]
  cases r with
  | false => exact ⟨nofun, fun _ => hst _ rfl⟩
  | true =>
    obtain ⟨v', x', h3, h4, hcwd, hcount⟩ := rmdirBody_removed hw hs.toStands hget hj hdir (h2 rfl) hsaved
    have hfreed := h4.freed hr hj hname fun _ => h2 rfl
    rw [hdir] at hfreed
    rw [exec_bind_of (show exec (need true) y = (some (), y) from rfl), h3]
    exact ⟨fun _ _ => h4.settled hs hF hj.mem hcwd hcount hfreed, nofun⟩

/-! ## `fs_mkdir` -/

/-- Slot `j` is a new, empty directory under the name in the path. -/
def Added (F : Prop) (v : Fs) (c : Nat) (path : Name) (v' : Fs) : Prop :=
  ∃ d j leaf, Reaches v c path d leaf ∧ Frame v v' d j ∧ ¬ v.Occupied d j ∧
  (F → ∀ k, v.Occupied d k → v.slotName d k ≠ leaf) ∧
  v'.Occupied d j ∧ v'.slotIsDir d j = true ∧ v'.slotName d j = listedAs leaf ∧
    ∀ k, ¬ v'.Occupied (v'.slotStart d j) k

/-- **`fs_mkdir`**: there is a new, empty directory. -/
theorem fsMkdir_added (hw : WellFormed v) (hF : F → Listable v) (path : Name) :
    Triple (fun s => Sees F v s ∧ s.cwd = c) (fsMkdir path)
    (fun _ => Settled F (Added F v c path)) (Over fun v' => Intact v v' ∨ Added F v c path v') := by
  refine enter_over hw hF (.inl (.refl v)) fun leaf s hs hr => .readAt fun x hx => ?_
  subst hx
  have hst : ∀ y, y = x → Over (fun v' => Intact v v' ∨ Added F v c path v') y :=
    fun y e => e ▸ hs.toStands.over hw (.inl (.refl v))
  simp only [id]
  cases h83 : to83 leaf with
  | none =>
    exact leaveFail_over.conseq hst (fun _ _ h => h) fun _ h => h
  | some a =>
    refine .ite (fun _ => leaveFail_over.conseq hst (fun _ _ h => h) fun _ h => h) fun hfresh =>
      thenLeave_settled ?_ fun _ _ h => .inr h
    rw [not_or, Option.not_isSome_iff_eq_none] at hfresh
    have habsent := hs.absent hfresh.1 hr.leaf_ne
    refine .bind (R := fun _ y => ∃ v', WellFormed v' ∧ Based v' y ∧ (F → Listable v') ∧ Added F v c path v')
      ((mkdirBody_made hw hs.toStands h83).conseq (fun _ h => h) (fun _ y h => ?_) fun y h => ?_) fun _ => ?_
    · obtain ⟨hcwd, -, v', j, h⟩ := h
      refine ⟨v', h.well, h.stands.toBased, fun hF' => ?_, x.cwd, j, leaf, hr, h.frame, h.fresh,
        habsent, h.mem, h.isDir, h.name, h.empty⟩
      -- there was room for one more
      refine h.frame.listable (hF hF') h.well (fun _ => h.mark) ?_
      have hone := Finset.card_insert_le j (v.slots x.cwd)
      have hfew := (hs.full hF').card
      rw [h.frame.slots_insert hs.cwd (hcwd ▸ h.stands.cwd) h.mem]
      omega
    · obtain ⟨v', h1, h2, h3⟩ := h
      exact ⟨v', h1, h2, .inl ⟨_, h3⟩⟩
    · rintro y ⟨v', h1, h2, h3, h4⟩
      obtain ⟨h5, h6⟩ := scanDir_sees h1 h3 y h2
      exact ⟨fun a ha => (h5 a ha).settled h1 h3 h4, fun hn => (h6 hn).over h1 (.inr h4)⟩

/-! ## `fs_rename` within a directory -/

/-- The slot that `src` names has the name in `dst`, unless a long name is in front of it, and is
the same file or directory. -/
def Retitled (F : Prop) (v : Fs) (c : Nat) (src dst : Name) (v' : Fs) : Prop :=
  ∃ d j leaf leaf', Reaches v c src d leaf ∧ Reaches v c dst d leaf' ∧
  v.Occupied d j ∧ v.slotName d j = leaf ∧ (F → ∀ k, v.Occupied d k → v.slotName d k ≠ leaf') ∧
    Frame v v' d j ∧ v'.Occupied d j ∧ SameSlot83 v v' d j ∧
  (v.slotIsDir d j = false → v'.fileBytes (v.slotStart d j) = v.fileBytes (v.slotStart d j)) ∧
  (lfnRunAt (v.dirData d) j = none → v'.slotName d j = listedAs leaf')

/-- Renaming keeps the directories, also when it is one that has a new name. -/
theorem Renamed.dir (h : Renamed v v' s d j leaf) {e : Nat} (he : Dir v e) : Dir v' e := by
  induction he with
  | root => exact .root
  | @sub e k hp hk hkd ih =>
    by_cases heq : (e, k) = (d, j)
    · obtain ⟨rfl, rfl⟩ := Prod.mk.inj heq
      exact h.same.start ▸ .sub ih h.mem.2 (h.same.isDir.trans hkd)
    · obtain ⟨h1, h2⟩ := (h.frame.slot e k heq).2 ⟨hp, hk⟩
      obtain ⟨h3, -⟩ := h.frame.same e k heq hp hk
      exact h3.start ▸ .sub h1 h2 (h3.isDir.trans hkd)

/-- What is noted of the source of a call with two paths. -/
theorem grabEntry_reads (hw : WellFormed v) (hF : F → Listable v) (path : Name)
    (ok : FileEnt → Bool) :
    Triple (fun s => Sees F v s ∧ s.cwd = c) (grabEntry path ok) (fun r s => Sees F v s ∧
    Reaches v c path r.1 r.2.1) (Stands v) := by
  refine .bind (enterParent_leads hw hF path) fun leaf => ?_
  rintro s ⟨hs, -, hr⟩
  suffices h : Triple (fun x => x = s) (do
      let s ← gets id
      match (s.findFile leaf).filter fun i => ok (s.fileAt i) with
      | none => leaveFail
      | some i =>
        let r ← attempt dirLoad
        if r = false then leaveFail
        else
          let s ← gets id
          leaveParent
          pure (s.cwd, leaf, (s.fileAt i).isDir, fromByte s.dir (s.fileAt i).dirOff))
      (fun r s => Sees F v s ∧ Reaches v c path r.1 r.2.1) (Stands v) from h s rfl
  have hleave : ∀ {R : Nat × Name × Bool × Bytes → Fs → Prop},
      Triple (Stands v) (leaveFail : FsM (Nat × Name × Bool × Bytes)) R (Stands v) :=
    Triple.bind (R := fun _ => Stands v) (leaveParent_stands hw).attempt fun _ => .failed
  have hend : ∀ t : Nat × Name × Bool × Bytes, Reaches v c path t.1 t.2.1 →
    Triple (Sees F v) (do leaveParent; pure t)
      (fun r s => Sees F v s ∧ Reaches v c path r.1 r.2.1) (Stands v) := fun t ht =>
    Triple.bind (leaveParent_sees hw hF) fun _ => Triple.pure.conseq (fun _ h => ⟨h, ht⟩)
      (fun _ _ h => h) fun _ h => h
  refine .readAt fun x hx => ?_
  subst hx
  simp only [id]
  cases (x.findFile leaf).filter fun i => ok (x.fileAt i) with
  | none => exact hleave.conseq (fun y e => e ▸ hs.toStands) (fun _ _ h => h) fun _ h => h
  | some i =>
    obtain ⟨u, h1, hpage⟩ := dirLoad_pageAt hw hs.toStands
    have hcwd : u.cwd = x.cwd := by rw [hpage.state]
    rintro y rfl
    rw [exec_bind_of (exec_attempt _ _), h1]
    dsimp only [Option.isSome_some]
    rw [if_neg (by decide), exec_bind_of (exec_gets _ _)]
    exact hend _ (hcwd ▸ hr) u (hpage.sees hs)

/-- **`fs_rename`** within a directory: the slot has another name, and nothing else has changed. -/
theorem fsRename_retitled (hw : WellFormed v) (hF : F → Listable v) (src dst : Name)
    (hsame : ∀ d d' leaf leaf', Reaches v c src d leaf → Reaches v c dst d' leaf' → d = d') :
    Triple (fun s => Sees F v s ∧ s.cwd = c) (fsRename src dst)
      (fun _ => Settled F (Retitled F v c src dst)) (Over fun v' => Intact v v' ∨
      Retitled F v c src dst v') := by
  have hst : ∀ y, Stands v y → Over (fun v' => Intact v v' ∨ Retitled F v c src dst v') y :=
    fun y hy => hy.over hw (.inl (.refl v))
  refine .bind (R := fun r s => (Sees F v s ∧ s.cwd = c) ∧ Reaches v c src r.1 r.2.1)
    (fun s hs => ?_) fun r => ?_
  · obtain ⟨h1, h2⟩ := grabEntry_reads hw hF src (fun _ => true) s hs
    obtain ⟨h3, h4⟩ := grabEntry_back src (fun _ => true) c s.path s ⟨hs.2, rfl⟩
    exact ⟨fun r hr => ⟨⟨(h1 r hr).1, (h3 r hr).1⟩, (h1 r hr).2⟩, fun hn => hst _ (h2 hn)⟩
  obtain ⟨srcParent, srcLeaf, isDir, e⟩ := r
  rintro s ⟨hs, hsrc⟩
  refine (enter_over hw hF (.inl (.refl v)) fun leaf s hs hr => .readAt fun x hx => ?_) s hs
  subst hx
  have heq : x.cwd = srcParent := (hsame _ _ _ _ hsrc hr).symm
  have hleave : Triple (fun y => y = x) (leaveFail : FsM Unit) (fun _ => Settled F (Retitled F v c src dst))
      (Over fun v' => Intact v v' ∨ Retitled F v c src dst v') :=
    leaveFail_over.conseq (fun y e => e ▸ hst x hs.toStands) (fun _ _ h => h) fun _ h => h
  simp only [id]
  cases h83 : to83 leaf with
  | none => exact hleave
  | some a =>
    refine .ite (fun _ => hleave) fun hfresh => .ite (fun _ => thenLeave_settled ?_ fun _ _ h =>
      .inr h) fun hne => absurd heq hne
    have hnone : x.findFile leaf = none := by
      rw [not_or, Option.not_isSome_iff_eq_none] at hfresh
      exact hfresh.1
    have habsent := hs.absent hnone hr.leaf_ne
    have htitle : ∀ {y v' : Fs} {j : Nat}, Renamed v v' y x.cwd j leaf → v.slotName x.cwd j =
        srcLeaf → Retitled F v c src dst v' :=
      fun h hn => ⟨x.cwd, _, srcLeaf, leaf, heq.symm ▸ hsrc, hr, h.mem.1, hn, habsent, h.frame,
        h.mem.2, h.same, h.file, h.name⟩
    refine (renameHere_renamed hw hs.toStands srcLeaf h83).conseq (fun _ h => h) (fun _ y h => ?_)
      fun y h => ?_
    · obtain ⟨v', j, h1, h2, hwhole⟩ := h
      have hlist : F → Listable v' := fun hF' => by
        refine h1.frame.listable (hF hF') h1.well (fun _ => h1.mark) ?_
        rw [h1.frame.slots_insert hs.cwd (h1.dir hs.cwd) h1.mem.2, Finset.insert_eq_of_mem
          (mem_slots.2 h1.mem.1)]
        exact (hF hF').card hs.cwd
      exact (⟨h1.stands, fun hF' => hwhole (hlist hF')⟩ : Sees F v' y).settled h1.well hlist (htitle h1 h2)
    · rcases h with h | ⟨v', j, h1, h2⟩
      · exact hst y h
      · exact h1.stands.over h1.well (.inr (htitle h1 h2))

/-! ## `fs_copy` -/

/-- The file that `dst` names has the contents of one that `src` names. -/
def Copied (F : Prop) (v : Fs) (c : Nat) (src dst : Name) (v' : Fs) : Prop :=
  ∃ d j leaf data len, Reaches v c src d leaf ∧ FileAt v d j leaf data len ∧
  Saved F v c dst data len v'

theorem Saved.agree (h : Saved F v c path data len v') {data' : Bytes} (ha : Agree data data' len) :
    Saved F v c path data' len v' := by
  obtain ⟨d, j, leaf, h1, h2⟩ := h
  refine ⟨d, j, leaf, h1, ?_⟩
  split at h2
  · next h0 =>
    rw [if_pos h0]
    exact h2
  · next h0 =>
    rw [if_neg h0]
    obtain ⟨h3, name, h4, h5⟩ := h2
    exact ⟨h3, name, h4, h5.agree ha⟩

/-- **`fs_copy`**: the copy has the contents of the source. -/
theorem fsCopy_copied (hw : WellFormed v) (hF : F → Listable v) (src dst : Name) :
    Triple (fun s => Sees F v s ∧ s.cwd = c) (fsCopy src dst)
    (fun _ => Settled F (Copied F v c src dst)) (Over fun v' => Spared F v c dst v' ∨
    Copied F v c src dst v') := by
  have hst : ∀ y, Stands v y → Over (fun v' => Spared F v c dst v' ∨ Copied F v c src dst v') y :=
    fun y hy => hy.over hw (.inl (.inl (.refl v)))
  refine .bind (R := fun r s => (Sees F v s ∧ s.cwd = c) ∧ ∃ d j leaf, Reaches v c src d leaf ∧
    FileAt v d j leaf r.1 r.2) (fun s hs => ?_) fun r => ?_
  · obtain ⟨h1, h2⟩ := fsLookup_reads hw hF src s hs
    obtain ⟨h3, h4⟩ := fsLookup_back src c s.path s ⟨hs.2, rfl⟩
    exact ⟨fun r hr => ⟨⟨(h1 r hr).1, (h3 r hr).1⟩, (h1 r hr).2⟩, fun hn => hst _ (h2 hn)⟩
  obtain ⟨data, len⟩ := r
  rintro s ⟨hs, d, j, leaf, hr, hf⟩
  have hview : Stays (fun s => Sees F v s ∧ s.cwd = c) viewPage := fun s hs => by
    obtain ⟨h1, h2⟩ := viewPage_sees s hs.1
    have hcwd := (viewPage_cached s).cwd.trans hs.2
    exact ⟨fun a ha => ⟨h1 a ha, hcwd⟩, fun hn => ⟨h2 hn, hcwd⟩⟩
  refine Triple.bind (hview.conseq (fun _ h => h) (fun _ _ h => h) fun y h => hst y h.1.toStands)
    (fun w => ?_) s hs
  refine Triple.bind (R := fun _ s => Sees F v s ∧ s.cwd = c)
    (Triple.change fun y h => ⟨h.1.calm ⟨rfl, id⟩, h.2⟩) fun _ => ?_
  have hcopy : ∀ v', Saved F v c dst (putBytes w 0 data len) len v' → Copied F v c src dst v' := fun v' h =>
    ⟨d, j, leaf, data, len, hr, hf, h.agree fun b hb => by
      unfold putBytes
      rw [if_pos (by omega), Nat.sub_zero]⟩
  exact (fsWrite_stored hw hF dst _ len).conseq (fun _ h => h) (fun _ _ h => h.mono hcopy) fun _
    h => h.mono fun v' h => h.imp id (hcopy v')

end VampireOS.Fs
