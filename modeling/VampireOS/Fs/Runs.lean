import VampireOS.Fs.Calls

/-!
# Runs of calls (kernel/fs.c:1040-2047)

A mounted volume that is well formed stays so, whatever calls follow, whether they succeed or not
and wherever the clusters or the pages run out (`run_good`), and each call changes one slot of one
directory at most; what it does there is `Did`, and what it may leave when it fails is `Left`
(`call_effect`). Left out are `fs_link`, which makes two entries of one chain, and the branch of
`fs_rename` that moves to another directory, which does so on the way.
-/

namespace VampireOS.Fs

open Lib

variable {α : Type} {v v' s s' : Fs} {src data : Bytes} {c d e j k len : Nat} {leaf path : Name} {F : Prop}

/-! ## The state between two calls -/

/-- The volume is well formed, and the state goes with it. -/
structure Good (s : Fs) : Prop where
  well : WellFormed s
  stands : Stands s s

/-- The volume of the state itself. -/
theorem Stands.good (hs : Stands v s) (hw : WellFormed v) : Good s ∧ ∀ j, Frame v s s.cwd j := by
  have hd := hs.cwd
  obtain ⟨-, hdata, hlen⟩ := (hs.vol.outside []).dirAt hw hd (List.disjoint_nil_left _)
  have hnone : ¬ v.Occupied s.cwd (v.dirLen s.cwd) := fun ho => Nat.lt_irrefl _ ho.1
  have hnone' : ¬ s.Occupied s.cwd (v.dirLen s.cwd) := fun ho => hnone ((slots_congr hdata hlen _).1.1 ho)
  have hedit : Edit v s s.cwd (v.dirLen s.cwd) [] [] :=
    (hs.vol.outside []).edit hw hd (fun _ _ _ => List.disjoint_nil_left _)
    (fun ho => absurd ho hnone') fun ho => absurd ho hnone
  have hn : ∀ j, NamesKept v s s.cwd j := fun j k _ _ => slotName_congr hdata
  refine ⟨⟨hedit.wellFormed hw hd, ?_⟩, fun j => hedit.frame hw hd (.inr ⟨hnone, hnone'⟩) (hn j)⟩
  refine hs.edit hw hedit (fun hg => hnone hg.1) ⟨rfl, rfl, rfl⟩ hs.rel rfl rfl ?_ ?_
    (hs.cache.stay hedit hw hd (hn _) hnone)
  · rw [hlen]
    exact hs.bytes
  · rw [hdata, hlen]
    exact hs.page

/-- All slots of the one volume are slots of the other, with the same name, kind, size and contents. -/
def SlotSame (v v' : Fs) (e k : Nat) : Prop := (Dir v' e ∧ v'.Occupied e k ↔ Dir v e ∧ v.Occupied e k) ∧
  (Dir v e → v.Occupied e k → SameSlot83 v v' e k ∧ v'.slotName e k = v.slotName e k ∧
    (v.slotIsDir e k = false → v'.fileBytes (v.slotStart e k) = v.fileBytes (v.slotStart e k)))

theorem Frame.slotSame (h : Frame v v' d j) (hne : (e, k) ≠ (d, j)) : SlotSame v v' e k :=
  ⟨h.slot e k hne, fun he hk => ⟨(h.same e k hne he hk).1, (h.same e k hne he hk).2.1, h.file e k hne he hk⟩⟩

theorem SlotSame.refl (v : Fs) (e k : Nat) : SlotSame v v e k :=
  ⟨Iff.rfl, fun _ _ => ⟨⟨rfl, rfl, rfl⟩, rfl, fun _ => rfl⟩⟩

theorem SlotSame.trans {v'' : Fs} (h : SlotSame v v' e k) (h' : SlotSame v' v'' e k) :
    SlotSame v v'' e k := by
  refine ⟨h'.1.trans h.1, fun he hk => ?_⟩
  obtain ⟨he', hk'⟩ := h.1.2 ⟨he, hk⟩
  obtain ⟨h1, h2, h3⟩ := h.2 he hk
  obtain ⟨h4, h5, h6⟩ := h'.2 he' hk'
  refine ⟨⟨h4.start.trans h1.start, h4.size.trans h1.size, h4.isDir.trans h1.isDir⟩, h5.trans h2,
    fun hf => ?_⟩
  have := h6 (h1.isDir.trans hf)
  rw [h1.start] at this
  exact this.trans (h3 hf)

theorem Intact.slotSame (h : Intact v v') (e k : Nat) : SlotSame v v' e k := by
  obtain ⟨d, h⟩ := h
  exact (h (k + 1)).slotSame fun he => by
    have := (Prod.mk.inj he).2
    omega

/-- The outcome of a call: a good state, and at most one slot that is not as before. -/
def Step (s s' : Fs) : Prop := Good s' ∧ ∃ d j, ∀ e k, (e, k) ≠ (d, j) → SlotSame s s' e k

theorem Over.step {P : Fs → Prop} (h : Over P s')
    (hp : ∀ v', P v' → ∃ d j, ∀ e k, (e, k) ≠ (d, j) → SlotSame s v' e k) : Step s s' := by
  obtain ⟨v', h1, h2, h3⟩ := h
  obtain ⟨hg, hf⟩ := h2.good h1
  obtain ⟨d, j, h4⟩ := hp v' h3
  exact ⟨hg, d, j, fun e k hne => (h4 e k hne).trans (Intact.slotSame ⟨_, hf⟩ e k)⟩

theorem Frame.one (h : Frame v v' d j) : ∃ d j, ∀ e k, (e, k) ≠ (d, j) → SlotSame v v' e k :=
  ⟨d, j, fun _ _ hne => h.slotSame hne⟩

theorem Intact.one (h : Intact v v') : ∃ d j, ∀ e k, (e, k) ≠ (d, j) → SlotSame v v' e k :=
  ⟨0, 0, fun e k _ => h.slotSame e k⟩

theorem Filed.one (h : Filed F v v' d j leaf data len) :
    ∃ d j, ∀ e k, (e, k) ≠ (d, j) → SlotSame v v' e k := h.1.one

theorem Saved.one (h : Saved F v c path src len v') : ∃ d j, ∀ e k, (e, k) ≠ (d, j) → SlotSame v v' e k := by
  obtain ⟨d, j, leaf, -, h⟩ := h
  split at h
  · exact h.one
  · exact h.one

theorem Cut.one {dataOf : Nat → Nat → Bytes} {lenOf : Nat → Nat → Nat} (h : Cut v c path dataOf lenOf v') :
    ∃ d j, ∀ e k, (e, k) ≠ (d, j) → SlotSame v v' e k := by
  obtain ⟨d, j, leaf, -, -, -, -, h, -⟩ := h
  exact h.one

theorem Freed.one {isDir : Bool} (h : Freed v c path isDir v') :
    ∃ d j, ∀ e k, (e, k) ≠ (d, j) → SlotSame v v' e k := by
  obtain ⟨d, j, leaf, -, -, -, -, -, h, -⟩ := h
  exact h.one

theorem Retitled.one {dst : Name} (h : Retitled F v c path dst v') :
    ∃ d j, ∀ e k, (e, k) ≠ (d, j) → SlotSame v v' e k := by
  obtain ⟨d, j, leaf, leaf', -, -, -, -, -, h, -⟩ := h
  exact h.one

theorem Copied.one {dst : Name} (h : Copied F v c path dst v') :
    ∃ d j, ∀ e k, (e, k) ≠ (d, j) → SlotSame v v' e k := by
  obtain ⟨d, j, leaf, data, len, -, -, h⟩ := h
  exact h.one

theorem Added.one (h : Added F v c path v') : ∃ d j, ∀ e k, (e, k) ≠ (d, j) → SlotSame v v' e k := by
  obtain ⟨d, j, leaf, -, h, -⟩ := h
  exact h.one

theorem Spared.one (h : Spared F v c path v') : ∃ d j, ∀ e k, (e, k) ≠ (d, j) → SlotSame v v' e k := by
  rcases h with h | ⟨d, j, leaf, -, h⟩
  · exact h.one
  · exact h.one

/-! ## One call -/

/-- The calls that keep one entry for each chain; `fs_setcwd` gets a directory. -/
def Plain (s : Fs) : FsCall → Prop
  | .link _ _ => False
  | .rename src dst => ∀ d d' leaf leaf', Reaches s s.cwd src d leaf → Reaches s s.cwd dst d' leaf' → d = d'
  | .setcwd cl => Dir s cl
  | _ => True

/-- What a call that succeeds has done to the volume. -/
def Did (s : Fs) : FsCall → Fs → Prop
  | .write path src len => Saved False s s.cwd path src len
  | .truncate path len => Cut s s.cwd path (padded s) fun _ _ => len
  | .remove path => Freed s s.cwd path false
  | .rmdir path => Freed s s.cwd path true
  | .rename src dst => Retitled False s s.cwd src dst
  | .copy src dst => Copied False s s.cwd src dst
  | .mkdir path => Added False s s.cwd path
  | _ => Intact s

/-- What one that fails may have done. -/
def Left (s : Fs) (call : FsCall) (v' : Fs) : Prop := match call with
  | .write path _ _ => Spared False s s.cwd path v' ∨ Did s call v'
  | .copy _ dst => Spared False s s.cwd dst v' ∨ Did s call v'
  | .truncate path _ => Intact s v' ∨ Cut s s.cwd path s.contents s.slotSize v' ∨ Did s call v'
  | _ => Intact s v' ∨ Did s call v'

theorem Did.one {call : FsCall} (h : Did s call v') : ∃ d j, ∀ e k, (e, k) ≠ (d, j) → SlotSame s v' e k := by
  cases call with
  | write => exact Saved.one h
  | truncate => exact Cut.one h
  | remove | rmdir => exact Freed.one h
  | rename => exact Retitled.one h
  | copy => exact Copied.one h
  | mkdir => exact Added.one h
  | readdir | lookup | stat | sync | link | chdir | setcwd | setpwd => exact Intact.one h

theorem Left.one {call : FsCall} (h : Left s call v') :
    ∃ d j, ∀ e k, (e, k) ≠ (d, j) → SlotSame s v' e k := by
  cases call with
  | write | copy => exact h.elim (fun h => h.one) fun h => h.one
  | truncate => exact h.elim (fun h => h.one) fun h => h.elim (fun h => h.one) fun h => h.one
  | remove | rmdir | rename | mkdir | readdir | lookup | stat | sync | link | chdir | setcwd | setpwd =>
    exact h.elim (fun h => h.one) fun h => h.one

/-- Reading leaves the volume alone. -/
theorem reads_intact {m : FsM α} {Q : α → Prop} {E : Fs → Prop} (hw : WellFormed s)
    (h : Triple (fun x => Sees False s x ∧ x.cwd = s.cwd) m (fun a x => Sees False s x ∧ Q a)
      (Stands s))
    (he : E s) :
    Triple (fun x => Stands s x ∧ x.cwd = s.cwd) (do let _ ← m) (fun _ => Over (Intact s))
      (Over E) :=
  .bind (h.conseq (fun _ h => ⟨h.1.sees, h.2⟩) (fun _ _ h => h) fun _ h => h.over hw he) fun _ =>
    Triple.pure.conseq (fun _ h => h.1.toStands.over hw (.refl s)) (fun _ _ h => h) fun _ h => h

/-- **One call**, both ways it can end. -/
theorem call_posts (hw : WellFormed s) (call : FsCall) (hp : Plain s call) :
    Triple (fun x => Stands s x ∧ x.cwd = s.cwd) call.run (fun _ => Over (Did s call))
      (Over (Left s call)) := by
  have hstay : ∀ {m : FsM Unit} {E : Fs → Prop}, Stays (Stands s) m → E s →
      Triple (fun x => Stands s x ∧ x.cwd = s.cwd) m (fun _ => Over (Intact s)) (Over E) :=
    fun h he => h.conseq (fun _ h => h.1) (fun _ _ h => h.over hw (.refl s)) fun _ h => h.over hw he
  have hsees : ∀ x, Stands s x ∧ x.cwd = s.cwd → Sees False s x ∧ x.cwd = s.cwd := fun _ h => ⟨h.1.sees, h.2⟩
  cases call with
  | readdir => exact hstay .pure (.inl (.refl s))
  | lookup path => exact reads_intact hw (fsLookup_reads hw nofun path) (.inl (.refl s))
  | stat path => exact reads_intact hw (fsStat_reads hw nofun path) (.inl (.refl s))
  | write path src len =>
    exact (fsWrite_stored hw nofun path src len).conseq hsees (fun _ _ h => h.over) fun _ h => h
  | sync =>
    rintro x ⟨hx, -⟩
    obtain ⟨x', h1, v', h2, h3, h4⟩ := fsSync_unmoved hw hx
    rw [show exec (FsCall.run .sync) x = _ from h1]
    exact ⟨fun _ _ => h3.over h2 ⟨_, h4⟩, nofun⟩
  | truncate path len =>
    exact (fsTruncate_cut hw nofun path len).conseq hsees (fun _ _ h => h.over) fun _ h => h
  | remove path => exact (fsRemove_freed hw nofun path).conseq hsees (fun _ _ h => h.over) fun _ h => h
  | rename src dst =>
    exact (fsRename_retitled hw nofun src dst hp).conseq hsees (fun _ _ h => h.over) fun _ h => h
  | copy src dst => exact (fsCopy_copied hw nofun src dst).conseq hsees (fun _ _ h => h.over) fun _ h => h
  | link src dst => exact hp.elim
  | mkdir path => exact (fsMkdir_added hw nofun path).conseq hsees (fun _ _ h => h.over) fun _ h => h
  | rmdir path => exact (fsRmdir_freed hw nofun path).conseq hsees (fun _ _ h => h.over) fun _ h => h
  | chdir path => exact hstay (fsChdir_stands hw path) (.inl (.refl s))
  | setcwd cl => exact hstay (goto_stands hw hp) (.inl (.refl s))
  | setpwd path =>
    have hpath : ∀ p : Name, Stays (Stands s) (upd fun s => { s with path := p }) :=
      fun p => calm_stays (.upd fun _ => ⟨rfl, id⟩)
    exact hstay (.check fun _ => .ite (fun _ => hpath path) fun _ => .bind
      (calm_stays (.upd fun _ => ⟨rfl, id⟩)) fun _ => .failed) (.inl (.refl s))

theorem call_step (hg : Good s) (call : FsCall) (hp : Plain s call) : Step s (exec call.run s).2 := by
  obtain ⟨h1, h2⟩ := call_posts hg.well call hp s ⟨hg.stands, rfl⟩
  cases hx : (exec call.run s).1 with
  | none => exact (h2 hx).step fun _ h => h.one
  | some a => exact (h1 a hx).step fun _ h => h.one

/-! ## Mounting -/

/-- A mounted volume, when it is well formed. -/
theorem mounted_good {s0 : Fs} (h : exec fsInit s0 = (some (), s)) (he : s0.errs = []) (hw : WellFormed s)
    (hreach : ∀ lba n, 0 < n → lba + n ≤ s.geo.firstData + s.geo.clusters → pastEnd s.dev lba n = false) :
    Good s ∧ (Listable s → Whole s s) := by
  have hkeep : ∀ {β : Type} {m : FsM β}, Keeps Cached m → Triple (fun s => s.errs = [] ∧ s.cwd = 0 ∧
    s.savedCwd = 0) m
      (fun _ s => s.errs = [] ∧ s.cwd = 0 ∧ s.savedCwd = 0) fun _ => True :=
    fun hm s hs =>
      ⟨fun _ _ => ⟨(hm s).errs hs.1, (hm s).cwd.trans hs.2.1, (hm s).savedCwd.trans hs.2.2⟩,
        fun _ => trivial⟩
  have hscan : Triple (fun s => s.errs = [] ∧ s.cwd = 0 ∧ s.savedCwd = 0) scanDir
      (fun _ s => ∃ s2 : Fs, s2.errs = [] ∧ s2.cwd = 0 ∧ s2.savedCwd = 0 ∧
        exec scanDir s2 = (some (), s)) fun _ => True :=
    fun s hs => ⟨fun _ ha => ⟨s, hs.1, hs.2.1, hs.2.2, Prod.ext ha rfl⟩, fun _ => trivial⟩
  have hmount : Triple (fun s => s.errs = []) fsInit
      (fun _ s => ∃ s2 : Fs, s2.errs = [] ∧ s2.cwd = 0 ∧ s2.savedCwd = 0 ∧
        exec scanDir s2 = (some (), s)) fun _ => True :=
    .bind (R := fun _ s => s.errs = [] ∧ s.cwd = 0 ∧ s.savedCwd = 0)
      (.change fun _ h => ⟨h, rfl, rfl⟩) fun _ => .bind (hkeep pageBuf_cached) fun _ =>
    .bind (hkeep pageBuf_cached) fun _ => .bind (R := fun _ s => s.errs = [] ∧ s.cwd = 0 ∧
      s.savedCwd = 0) (.change fun _ h => h) fun _ =>
    .bind (hkeep (bread_cached 0)) fun _ => .bind (hkeep .orFailWith) fun _ =>
    .bind (R := fun _ s => s.errs = [] ∧ s.cwd = 0 ∧ s.savedCwd = 0) (.change fun _ h => h) fun _ =>
    .bind (.bind (hkeep (fetch_cached _ _)) fun _ => .change fun _ h => h) fun _ => .bind hscan fun _ =>
    .read fun s hs => Triple.need.conseq (fun s h => by split; exacts [h, trivial]) (fun _ _ h => h)
      fun _ h => h
  obtain ⟨s2, h1, h2, h3, h4⟩ := (hmount s0 he).1 () (by rw [h])
  rw [h] at h4
  have hc := scanDir_cached s2
  rw [h4] at hc
  have hv : SameVol s s2 := ⟨hc.geo.symm, hc.disk.symm, hc.fat.symm⟩
  have hrel : Reliable s2 := ⟨h1, fun lba n hn hle => hc.dev ▸ hreach lba n hn (hc.geo ▸ hle)⟩
  have hb : Based s s2 := ⟨hv, hrel, h2 ▸ .root, h3 ▸ .root⟩
  have hsees := (scanDir_sees hw (F := Listable s) id s2 hb).1 () (by rw [h4])
  rw [h4] at hsees
  exact ⟨⟨hw, hsees.toStands⟩, hsees.full⟩

/-! ## A volume with one file -/

/-- The file `a` of 5 bytes at cluster 2, and cluster 3 free. -/
def oneFile : Fs :=
  let disk lba :=
    if lba = 0 then bootSector 1 2 16 1 6
    else if lba = 1 ∨ lba = 2 then ofList [0xF8, 0xFF, 0xFF, 0xFF, 0x0F, 0x00]
    else if lba = 3 then putBytes (rootSector 2) 28 (ofList [5]) 1
    else fun _ => 9
  (exec fsInit { bootVolume 2 with disk := disk }).2

theorem oneFile_slots :
    oneFile.dirLen 0 = 16 ∧ (∀ j < 16, ownsChain (oneFile.dirData 0) j = true → j = 0) ∧
    oneFile.slotIsDir 0 0 = false ∧
    oneFile.slotStart 0 0 = 2 ∧ oneFile.slotSize 0 0 = 5 ∧ oneFile.owned 0 0 = [2] ∧
    oneFile.dirClusters 0 = [] ∧ (oneFile.listing 0).length = 1 := by
  decide +kernel

theorem oneFile_slot (h : oneFile.Occupied 0 j) : j = 0 := oneFile_slots.2.1 j (oneFile_slots.1 ▸ h.1) h.2

theorem oneFile_root (h : Dir oneFile d) : d = 0 := by
  induction h with
  | root => rfl
  | sub hp hk hdir ih =>
    subst ih
    rw [oneFile_slot hk, oneFile_slots.2.2.1] at hdir
    cases hdir

/-- Two FATs of one sector, and room for two clusters in six sectors. -/
theorem oneFile_boot :
    geoOf (bootSector 1 2 16 1 6) = some ⟨1, 1, 2, 3, 4⟩ ∧ 2 ≤ (bootSector 1 2 16 1 6 16).toNat ∧
    bpbTotal (bootSector 1 2 16 1 6) = 6 := by
  decide +kernel

theorem oneFile_mounted :
    oneFile.geo = ⟨1, 1, 2, 3, 4⟩ ∧ oneFile.dev = ⟨1, 0⟩ ∧ isCluster (oneFile.fatEnt 1) = false ∧
    isCluster (oneFile.fatEnt 2) = false ∧ oneFile.fatEnt 2 ≠ 0 ∧
    ∀ k < 16, (k ≠ 0 → oneFile.dirData 0 (32 * k) = 0) ∧
      (k = 0 → oneFile.dirData 0 (32 * k) ≠ 0) ∧ oneFile.dirData 0 (32 * k + 11) ≠ 0x0F := by
  decide +kernel

theorem oneFile_well : WellFormed oneFile := by
  obtain ⟨h1, -, h3, h4, h5, h6, h7, -⟩ := oneFile_slots
  obtain ⟨hboot, hfats, htotal⟩ := oneFile_boot
  obtain ⟨hgeo, -, hroot, hend, hused, hclear⟩ := oneFile_mounted
  have hsep := (geoOf_ok hboot).separate hfats
  rw [htotal] at hsep
  constructor
  · rw [hgeo]
    exact ⟨by decide, by decide, hsep⟩
  · rw [h7]
    exact .nil hroot
  · intro d j hd hj
    obtain rfl := oneFile_root hd
    obtain rfl := oneFile_slot hj
    refine ⟨?_, fun _ => ?_, fun ht => ?_⟩
    · rw [h4, h6]
      exact ⟨.step (by decide) (.stop hend), by simp [hgeo], fun c hc => List.mem_singleton.1 hc ▸ hused⟩
    · rw [h5, h6]
      decide
    · rw [h3] at ht
      cases ht
  · have hslot : ∀ o : Owner, o.Live oneFile → o = .root ∨ o = .slot 0 0 := by
      rintro (_ | ⟨d, j⟩) ho
      · exact .inl rfl
      · obtain ⟨hd, hj⟩ := ho
        obtain rfl := oneFile_root hd
        obtain rfl := oneFile_slot hj
        exact .inr rfl
    have hheld : oneFile.held .root = [] := h7
    intro o o' ho ho' hne
    rcases hslot o ho with rfl | rfl
    · rw [hheld]
      exact List.disjoint_nil_left _
    · rcases hslot o' ho' with rfl | rfl
      · rw [hheld]
        exact List.disjoint_nil_right _
      · exact absurd rfl hne
  · intro d hd
    obtain rfl := oneFile_root hd
    rw [h1]
    refine ⟨fun k m hkm hm h0 => ?_, fun k hk _ h11 => absurd h11 (hclear k hk).2.2⟩
    by_cases hk : k = 0
    · exact absurd h0 ((hclear k (by omega)).2.1 hk)
    · exact (hclear m hm).1 (by omega)

theorem oneFile_good : Good oneFile ∧ Distinct oneFile ∧ Listable oneFile ∧ Whole oneFile oneFile := by
  have hwell := oneFile_well
  obtain ⟨h1, h2⟩ := mounted_good (s := oneFile) (Prod.ext (by decide +kernel) rfl) rfl hwell
    fun lba n hn _ => by
    unfold pastEnd
    simp [oneFile_mounted.2.1, Nat.ne_of_gt hn]
  have hlist : Listable oneFile := fun d hd j hj => by
    obtain rfl := oneFile_root hd
    obtain rfl := oneFile_slot hj
    obtain ⟨f, hf⟩ :=
      List.exists_mem_of_length_pos
        (Nat.lt_of_lt_of_eq Nat.zero_lt_one oneFile_slots.2.2.2.2.2.2.2.symm)
    obtain ⟨k, hk⟩ := mem_listing hf
    obtain rfl := oneFile_slot hk.mem
    exact ⟨f, hf, hk⟩
  refine ⟨h1, fun d hd j k hj hk _ => ?_, hlist, h2 hlist⟩
  obtain rfl := oneFile_root hd
  rw [oneFile_slot hj, oneFile_slot hk]

/-! ## Runs -/

/-- Each call has a driver that does not fail, and is `Plain` where it starts. -/
def PlainRun : Fs → List (FsCall × Offer) → Prop
  | _, [] => True
  | s, call :: cs => call.2.errs = [] ∧ Plain (s.supplied call.2) call.1 ∧
      PlainRun (exec call.1.run (s.supplied call.2)).2 cs

theorem Good.supplied (hg : Good s) {o : Offer} (ho : o.errs = []) :
    Good (s.supplied o) ∧ Intact s (s.supplied o) := by
  have hs : Stands s (s.supplied o) := hg.stands.calm ⟨rfl, fun _ => ho⟩
  obtain ⟨h1, h2⟩ := hs.good hg.well
  exact ⟨h1, _, h2⟩

/-- **The volume stays well formed**, and `n` calls change `n` slots at most. -/
theorem run_good (hg : Good s) (cs : List (FsCall × Offer)) (h : PlainRun s cs) :
    Good (s.after cs) ∧ ∃ l : List (Nat × Nat), l.length ≤ cs.length ∧ ∀ e k, (e, k) ∉ l →
    SlotSame s (s.after cs) e k := by
  induction cs generalizing s with
  | nil => exact ⟨hg, [], Nat.le_refl _, fun e k _ => .refl s e k⟩
  | cons call cs ih =>
    obtain ⟨he, hp, hrest⟩ := h
    obtain ⟨h1, h2⟩ := hg.supplied he
    obtain ⟨h3, d, j, h4⟩ := call_step h1 call.1 hp
    obtain ⟨h5, l, hl, h6⟩ := ih h3 hrest
    refine ⟨h5, (d, j) :: l, Nat.succ_le_succ hl, fun e k hm => ?_⟩
    rw [List.mem_cons, not_or] at hm
    exact ((h2.slotSame e k).trans (h4 e k hm.1)).trans (h6 e k hm.2)

theorem run_good_oneFile :
    Good (oneFile.after [(.write [98] (fun _ => 7) 5, ⟨9, []⟩), (.mkdir [100], ⟨9, []⟩),
    (.remove [97], ⟨9, []⟩)]) ∧
    ∃ l : List (Nat × Nat), l.length ≤ 3 ∧
      ∀ e k, (e, k) ∉ l →
      SlotSame oneFile
        (oneFile.after [(.write [98] (fun _ => 7) 5, ⟨9, []⟩), (.mkdir [100], ⟨9, []⟩),
      (.remove [97], ⟨9, []⟩)]) e k :=
  run_good oneFile_good.1 _ ⟨rfl, trivial, rfl, trivial, rfl, trivial, trivial⟩

/-- **One call between two**: what it has done when it succeeds, and all that it may have done when
it fails. -/
theorem call_effect (hg : Good s) (call : FsCall) (hp : Plain s call) :
    ((exec call.run s).1.isSome → ∃ v', WellFormed v' ∧ Stands v' (exec call.run s).2 ∧ Did s call v') ∧
      ((exec call.run s).1 = none → ∃ v', WellFormed v' ∧ Stands v' (exec call.run s).2 ∧
      Left s call v') := by
  obtain ⟨h1, h2⟩ := call_posts hg.well call hp s ⟨hg.stands, rfl⟩
  refine ⟨fun h => ?_, h2⟩
  obtain ⟨a, ha⟩ := Option.isSome_iff_exists.1 h
  exact h1 a ha

theorem call_effect_oneFile :
    ∃ v', WellFormed v' ∧ Stands v' (exec (fsMkdir [100]) oneFile).2 ∧
    Did oneFile (.mkdir [100]) v' :=
  (call_effect oneFile_good.1 (.mkdir [100]) trivial).1 (by decide +kernel)

end VampireOS.Fs
