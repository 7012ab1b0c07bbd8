import VampireOS.Fs.Remove

/-!
# Making a directory, and renaming in place (kernel/fs.c:1706-1785, 1861-1938)

`fs_mkdir` writes the dots of the new directory before the entry that leads to it. `fs_rename`
within a directory changes the 11 bytes of the name and nothing else.
-/

namespace VampireOS.Fs

open Lib

variable {v v' u u' u1 s s' : Fs} {b b' : Bytes} {d e i j k m n p cl parent : Nat}
    {own ext l : List Nat} {f : FileEnt} {name a : Name}

/-! ## The first sector of a directory -/

theorem dotSector_dot (hk : k < 32) : dotSector cl parent k = newEntry (padTo 11 [dot]) 0x10 cl k := by
  unfold dotSector
  rw [putBytes_out (.inl hk)]
  have h : putBytes (fun _ => 0) 0 (newEntry (padTo 11 [dot]) 0x10 cl) 32 (0 + k) =
      newEntry (padTo 11 [dot]) 0x10 cl k := putBytes_in hk
  rwa [Nat.zero_add] at h

theorem dotSector_dots (hk : k < 32) :
    dotSector cl parent (32 + k) = newEntry (padTo 11 [dot, dot]) 0x10 parent k := putBytes_in hk

theorem dotSector_zero (hk : 64 ≤ k) : dotSector cl parent k = 0 := by
  unfold dotSector
  rw [putBytes_out (.inr (by omega)), putBytes_out (.inr (by omega))]

theorem dotSector_hasDots (hp : parent < 65536) : HasDots (dotSector cl parent) parent := by
  constructor
  · exact dotSector_dot (by decide)
  · exact dotSector_dots (k := 0) (by decide)
  · have h11 : dotSector cl parent (32 + 11) = 0x10 := dotSector_dots (by decide)
    rw [show (43 : Nat) = 32 + 11 from rfl, h11]
    decide
  · have h := (newEntry_read (a := padTo 11 [dot, dot]) (by decide) 0x10 parent).2.2.1
    rw [Nat.mod_eq_of_lt hp] at h
    have h26 : ∀ i < 32, dotSector cl parent (32 + i) = newEntry (padTo 11 [dot, dot]) 0x10 parent
        i := fun i hi => dotSector_dots hi
    have h58 : rdU16 (dotSector cl parent) (32 + 26) =
        rdU16 (newEntry (padTo 11 [dot, dot]) 0x10 parent) 26 := by
      unfold rdU16
      rw [h26 26 (by decide), Nat.add_assoc, h26 (26 + 1) (by decide)]
    exact h58.trans h

/-- No slot of it owns a chain. -/
theorem dotSector_hollow (cl parent k : Nat) :
    ownsChain (dotSector cl parent) k = false ∧ (2 ≤ k → dotSector cl parent (32 * k) = 0) ∧
    (k < 2 → dotSector cl parent (32 * k) = dot ∧ dotSector cl parent (32 * k + 11) = 0x10) := by
  have hzero : 2 ≤ k → dotSector cl parent (32 * k) = 0 := fun h => dotSector_zero (by omega)
  have hdots : k < 2 → dotSector cl parent (32 * k) = dot ∧ dotSector cl parent (32 * k + 11) = 0x10 := by
    intro hk
    obtain rfl | rfl : k = 0 ∨ k = 1 := by omega
    · exact ⟨dotSector_dot (by decide), dotSector_dot (k := 11) (by decide)⟩
    · exact ⟨dotSector_dots (k := 0) (by decide), dotSector_dots (k := 11) (by decide)⟩
  refine ⟨?_, hzero, hdots⟩
  unfold ownsChain freeMark
  rcases Nat.lt_or_ge k 2 with hk | hk
  · simp [(hdots hk).1]
  · simp [hzero hk]

theorem dotSector_tidy (n : Nat) : Tidy (dotSector cl parent) n := by
  constructor
  · intro k m hkm _ h0
    obtain ⟨-, -, hdots⟩ := dotSector_hollow cl parent k
    obtain ⟨-, hzero, -⟩ := dotSector_hollow cl parent m
    by_cases hk : k < 2
    · rw [(hdots hk).1] at h0
      cases h0
    · exact hzero (by omega)
  · intro k _ hf h11
    obtain ⟨-, hzero, hdots⟩ := dotSector_hollow cl parent k
    rcases Nat.lt_or_ge k 2 with hk | hk
    · rw [(hdots hk).2] at h11
      cases h11
    · rw [hzero hk] at hf
      cases hf

/-! ## `fs_mkdir` -/

/-- After a step from the volume `v`, slot `j` of the directory at `d` is an empty directory of this
name, and the others are as before. -/
structure Made (v v' s : Fs) (d j : Nat) (name : Name) : Prop where
  well : WellFormed v'
  stands : Stands v' s
  frame : Frame v v' d j
  fresh : ¬ v.Occupied d j
  mem : v'.Occupied d j
  isDir : v'.slotIsDir d j = true
  name : v'.slotName d j = listedAs name
  empty : ∀ k, ¬ v'.Occupied (v'.slotStart d j) k
  mark : skipMark (v'.dirData d (32 * j)) = false

/-- The sector of the dots is not among those of the directory. -/
theorem Put.dots {page : Bytes} (hw : WellFormed v) (hd : Dir v d) (ho : Opened v u u1 d ext)
    (hput : Put v { u1 with dir := page } u' d p c ext) (hlone : Lone v u' cl ext)
    (hfree : v.fatEnt cl = 0) (hcl2 : 2 ≤ cl) (hin : cl ≤ v.geo.clusters + 1)
    (hdots : u.disk (v.geo.dataLba cl) = b) : u'.disk (v.geo.dataLba cl) = b := by
  rw [hput.other cl hcl2 hin ?_]
  · show u1.disk _ = _
    rw [ho.disk _ (hw.data_not_fat hcl2 hin)]
    exact hdots
  · intro hm
    rcases List.mem_append.1 hm with hm | hm
    · exact (hw.dirChain hd).chain.not_mem hfree hm
    · exact hlone.out hm

/-- A directory of one cluster with the dots in it has 16 slots and no entry. -/
theorem Lone.emptyDir (h : Lone v u' cl ext) (hcl2 : 2 ≤ cl)
    (hsector : u'.disk (v.geo.dataLba cl) = dotSector cl d) :
    u'.dirLen cl = 16 ∧ Agree (u'.dirData cl) (dotSector cl d) (32 * 16) ∧ ∀ k, ¬ u'.Occupied cl k := by
  have hchain : DirChain u' cl [cl] := by
    refine ⟨?_, ?_, fun _ e => by cases e⟩
    · unfold dirHead
      rw [if_neg (by omega)]
      exact h.chain
    · rw [if_neg (by omega)]
      simp [chainMax]
  have hlen : u'.dirLen cl = 16 := by
    rw [hchain.len, sectorsOf, if_neg (by omega)]
    rfl
  have hagree : Agree (u'.dirData cl) (dotSector cl d) (32 * 16) := fun i hi => by
    rw [hchain.data, sectorsOf, if_neg (by omega), List.nil_append, List.map_singleton,
      sectorBytes_head _ _ _ (by unfold secSize; omega), h.geo, hsector]
  refine ⟨hlen, hagree, ?_⟩
  rintro k ⟨hk, hown⟩
  rw [hlen] at hk
  have := (dotSector_hollow cl d k).1
  unfold ownsChain at hown this
  rw [hagree _ (by omega), hagree _ (by omega), this] at hown
  cases hown

theorem WellFormed.dir_lt (hw : WellFormed v) (hd : Dir v d) : d < 65536 := by
  by_cases h0 : d = 0
  · omega
  · have hm := (hw.dirChain hd).self_mem (hw.two_le hd h0)
    have h1 := (hw.dirChain hd).chain.inside d hm
    have h2 := hw.geo.clusters
    unfold fat12Max at h2
    omega

/-- The new entry is stored: `u'` has the directory. -/
theorem put_made (hw : WellFormed v) (hs : Stands v s) (ho : Opened v u u1 s.cwd ext)
    (h83 : to83 name = some a)
    (hput : Put v { u1 with dir := putBytes u1.dir (32 * p) (newEntry a 0x10 cl) 32 } u' s.cwd p 0
      ext)
    (hfree : v.fatEnt cl = 0) (hcl2 : 2 ≤ cl) (hin : cl ≤ v.geo.clusters + 1)
    (heof : u.fatEnt cl = fat12Eof) (hdots : u.disk (v.geo.dataLba cl) = dotSector cl s.cwd)
    (hr : Reliable u') (hc : u'.cwd = s.cwd) (hsv : u'.savedCwd = s.savedCwd)
    (hf : u'.files = s.files) : Made v u' u' s.cwd p name := by
  have hd := hs.cwd
  set d := s.cwd
  have hfield := to83_field h83
  have hents := entries_short u1.dir a 0x10 p cl
  have hlone := hput.lone hw hd ho rfl hfree hcl2 hin heof
  have hnew := hput.newFile hents
  obtain ⟨-, h11, h26, -⟩ := newEntry_read hfield.length 0x10 cl
  rw [Nat.add_zero] at hnew
  have hstart : u'.slotStart d p = cl := by rw [hnew.start, h26, cluster_mod hw hin]
  have hdir : u'.slotIsDir d p = true := by
    rw [hnew.isDir, h11]
    decide
  have howned : u'.owned d p = [cl] := by
    unfold owned
    rw [hstart, hlone.alone]
  have hsector := hput.dots hw hd ho hlone hfree hcl2 hin hdots
  obtain ⟨hlen, hagree, hempty⟩ := hlone.emptyDir hcl2 hsector
  have hedit := hput.edit fun _ => by
    rw [Nat.add_zero]
    refine ⟨⟨?_, fun ht => ?_, fun _ => ⟨?_, ?_⟩⟩, fun x hx => ?_, fun _ => ⟨?_, ?_⟩⟩
    · rw [hstart, howned]
      exact hlone.chain
    · rw [hdir] at ht
      cases ht
    · rw [hstart]
      exact isCluster_inside hw.geo.clusters hcl2 hin
    · rw [hstart, hlone.geo, hsector]
      exact dotSector_hasDots (hw.dir_lt hd)
    · rw [howned, List.mem_singleton] at hx
      rw [hx]
      exact ⟨.inr hfree, hlone.out⟩
    · rw [hstart]
      exact hempty
    · rw [hstart, hlen]
      exact (dotSector_tidy 16).congr hagree
  have hstate := hput.state
  have hmem := hput.mem
  have hfresh := hput.free
  have hnames := hput.names
  have hlisted : u'.slotName d (p + 0) = listedAs name := (hput.slotName hents hfield (.inl ⟨rfl, h83⟩)).1
  have hseen := hput.seen hents hfield.start
  rw [Nat.add_zero] at hmem hfresh hedit hnames hlisted hseen
  refine ⟨hedit.wellFormed hw hd, ?_, hedit.frame hw hd (.inl rfl) hnames, hfresh, hmem, hdir,
    hlisted, ?_, hseen⟩
  · refine hs.edit hw hedit (fun hg => hfresh hg.1) ⟨rfl, rfl, rfl⟩ hr hc hsv ?_ ?_ ?_
    · rw [hput.len, hstate]
      exact ho.bytes
    · rw [hput.len]
      intro i hi
      rw [hput.page i hi, hstate]
    · rw [hf]
      exact hs.cache.stay hedit hw hd hnames hfresh
  · rw [hstart]
    exact hempty

theorem mkdirBody_made (hw : WellFormed v) (hs : Stands v s) (h83 : to83 name = some a) :
    Triple (fun x => x = s) (mkdirBody a)
    (fun _ x => x.cwd = s.cwd ∧ x.savedCwd = s.savedCwd ∧ ∃ v' j, Made v v' x s.cwd j name)
    (Unmoved v s.cwd) := by
  rintro s rfl
  unfold mkdirBody
  cases hfind : s.fatFind with
  | none =>
    rw [exec_bind, exec_fatAlloc_full (fatFind_none.1 hfind)]
    exact ⟨nofun, fun _ => hs.unmoved hw _⟩
  | some cl =>
    have ha := exec_fatAlloc hfind
    obtain ⟨s1, h1, hstate1, -, hout1, hrel1, hfree, hcl2, hin, heof, hgeo1⟩ := taken hw hs ha
    rw [exec_bind_of ha, exec_bind_of (exec_attempt _ _), h1]
    dsimp only [Option.isSome_some]
    rw [if_neg (by decide), exec_bind_of (exec_gets _ _)]
    simp only [id]
    -- the dots
    have hcwd1 : s1.cwd = s.cwd := by rw [hstate1]
    have hparent : (if s1.cwd < 2 then 0 else s1.cwd) = s.cwd := by
      rw [hcwd1]
      split
      · by_contra h0
        have := hw.two_le hs.cwd (fun e => h0 e.symm)
        omega
      · rfl
    rw [exec_bind_of (exec_attempt _ _), exec_bwrite hrel1.errs (hrel1.cluster hcl2 (hgeo1 ▸ hin)),
      hparent, hgeo1]
    dsimp only [Option.isSome_some]
    rw [if_neg (by decide)]
    set s2 : Fs := { s1.logged (v.geo.dataLba cl) 1 with
      disk := Function.update s1.disk (v.geo.dataLba cl) (dotSector cl s.cwd) } with hs2
    have honly2 : DiskOnly s1 s2 := rfl
    have hout2 : Outside v s2 [] :=
      hout1.store hw honly2 (l := [cl]) (by simp [hcl2, hin, hfree]) fun lba hl => by
      rw [List.map_singleton, List.mem_singleton] at hl
      exact Function.update_of_ne hl ..
    have hrel2 := hrel1.diskOnly honly2
    have hdots : s2.disk (v.geo.dataLba cl) = dotSector cl s.cwd := Function.update_self ..
    have hcwd2 : s2.cwd = s.cwd := hcwd1
    have hsaved2 : s2.savedCwd = s.savedCwd := by
      show s1.savedCwd = _
      rw [hstate1]
    have hfiles2 : s2.files = s.files := by
      show s1.files = _
      rw [hstate1]
    rw [exec_bind_of (exec_attempt _ _)]
    rcases dirSlots_cases hw hs.cwd hout2 hrel2 hcwd2 (show (1 : Nat) ≠ 0 ∧ 1 ≤ 16 by decide)
      with ⟨s3, h3, hload⟩ | ⟨s3, p, ext, h3, hopen, hrun⟩
    · obtain ⟨s4, h4, hun⟩ := no_room hw hs hload hout2 hrel2 hcwd2 hsaved2 hfiles2 hfree hcl2 hin
        s3.pages Unit
      have hentry : exec (mkdirEntry a cl) s2 = (none, s3) := by
        unfold mkdirEntry
        rw [exec_bind, h3]
        rfl
      rw [hentry]
      dsimp only [Option.isSome_none]
      rw [if_pos rfl, h4]
      exact ⟨nofun, fun _ => hun⟩
    · have hstate3 := hopen.state
      set s4 : Fs := { s3 with dir := putBytes s3.dir (32 * p) (newEntry a 0x10 cl) 32 } with hs4
      have hcwd4 : s4.cwd = s.cwd := by
        rw [hs4, hstate3]
        exact hcwd2
      have hrel4 : Reliable s4 := by
        rw [hs4, hstate3]
        exact hrel2.same rfl rfl rfl
      have hfield := to83_field h83
      have hents : Entries s3.dir s4.dir p 0 (newEntry a 0x10 cl) := entries_short s3.dir a 0x10 p cl
      obtain ⟨s5, h5, hput⟩ := put_at (s := s4) hw hs.cwd hopen hrun rfl hrel4 hcwd4 hents.out
        hents.long (hents.owns hfield.start (by decide))
      have hstate5 := hput.state
      have hentry : exec (mkdirEntry a cl) s2 = (some (), s5) := by
        unfold mkdirEntry
        rw [exec_bind_of h3, exec_bind_of (exec_putEntry _ _ _), h5]
      rw [hentry]
      dsimp only [Option.isSome_some]
      rw [if_neg (by decide)]
      have hcwd5 : s5.cwd = s.cwd := by
        rw [hstate5]
        exact hcwd4
      have hsaved5 : s5.savedCwd = s.savedCwd := by
        rw [hstate5, hs4, hstate3]
        exact hsaved2
      refine ⟨fun _ _ => ⟨hcwd5, hsaved5, s5, p, ?_⟩, nofun⟩
      refine put_made hw hs hopen h83 hput hfree hcl2 hin heof hdots ?_ hcwd5 hsaved5 ?_
      · rw [hstate5]
        exact hrel4.same rfl rfl rfl
      · show s5.files = _
        rw [hstate5, hs4, hstate3]
        exact hfiles2

/-! ## `fs_rename` within a directory -/

/-- After a step from the volume `v`, slot `j` of the directory at `d` has other bytes of a name.
Nothing else of it has changed, and the others are as before. -/
structure Renamed (v v' s : Fs) (d j : Nat) (name : Name) : Prop where
  well : WellFormed v'
  stands : Stands v' s
  frame : Frame v v' d j
  mem : v.Occupied d j ∧ v'.Occupied d j
  same : SameSlot83 v v' d j
  file : v.slotIsDir d j = false → v'.fileBytes (v.slotStart d j) = v.fileBytes (v.slotStart d j)
  name : lfnRunAt (v.dirData d) j = none → v'.slotName d j = listedAs name
  mark : skipMark (v'.dirData d (32 * j)) = false

/-- The page with the new bytes is stored. -/
theorem rename_stored (hw : WellFormed v) (hs : Stands v s) (hf : AtEntry v s.cwd j f)
    (h83 : to83 name = some a) :
    ∃ u', exec dirStore { s with dir := renamed s.dir j a } = (some (), u') ∧ WellFormed u' ∧ Based u' u' ∧
      ∀ x, Stands u' x → Renamed v u' x s.cwd j name := by
  have hd := hs.cwd
  set d := s.cwd
  have hfield := to83_field h83
  have hmem := hf.mem
  have hlt := hmem.1
  have hnone : ¬ v.Occupied d (v.dirLen d) := fun ho => Nat.lt_irrefl _ ho.1
  set ux : Fs := { s with dir := renamed s.dir j a } with hux
  have hout : Outside v ux [] := ⟨⟨hs.vol.geo, (hs.vol.outside []).fat, (hs.vol.outside []).disk⟩,
    ⟨(hs.vol.outside []).head, (hs.vol.outside []).first⟩⟩
  have hrel : Reliable ux := hs.rel.same rfl rfl rfl
  have hpage : Agree ux.dir (renamed (v.dirData d) j a) (32 * v.dirLen d) := hs.page.putBytes
  have hblock : Block (v.dirData d) (renamed (v.dirData d) j a) (v.dirLen d) j j :=
    renamed_block hmem.2 (v.dirLen d)
  have htidy' := renamed_tidy hfield.start hmem.2 (hw.tidy d hd)
  have hslots : SlotsKept (v.dirData d) (renamed (v.dirData d) j a) (v.dirLen d) (v.dirLen d) :=
    fun k _ _ => ⟨renamed_owns hfield.start hmem.2, fun _ => renamed_tail⟩
  have hlow : 2 ≤ d → ∀ i < 64, renamed (v.dirData d) j a i = v.dirData d i := fun h2 i hi => by
    have := hmem.two_le hw hd h2
    exact renamed_out (.inl (by omega))
  obtain ⟨u', h1, h2⟩ := page_at hw hd (fun _ _ _ => List.disjoint_nil_left _) hout hrel
    rfl hs.bytes hpage hslots hlow htidy'
  have hnone' : ¬ u'.Occupied d (v.dirLen d) := fun ho => Nat.lt_irrefl _ (h2.len ▸ ho.1)
  have hedit := h2.edit (fun ho => absurd ho hnone') fun ho => absurd ho hnone
  have hn : NamesKept v u' d j := fun k hk ho => names_kept hblock (Nat.le_refl _) hlt
    (hw.tidy d hd) htidy' h2.page hk ho
  have hne : (d, j) ≠ (d, v.dirLen d) := fun e => by
    have := (Prod.mk.inj e).2
    omega
  obtain ⟨hocc, hsame⟩ := hedit.slots j fun e => hne (by rw [e])
  have hcwd : u'.cwd = d := by rw [h2.state]
  have hsaved : u'.savedCwd = s.savedCwd := by rw [h2.state]
  have hwell := hedit.wellFormed hw hd
  refine ⟨u', h1, hwell, ⟨⟨rfl, rfl, rfl⟩, ?_, ?_, ?_⟩, fun x hx => ?_⟩
  · rw [h2.state]
    exact hrel.same rfl rfl rfl
  · rw [hcwd]
    exact hedit.dir_self hw hd
  · rw [hsaved]
    exact hedit.dir_new hw hd hs.saved fun hg => hnone hg.1
  · refine ⟨hwell, hx, hedit.frame hw hd (.inr ⟨hnone, hnone'⟩) hn, ⟨hmem, hocc.2 hmem⟩, hsame hmem,
      fun hfile => ?_, fun hrun => ?_, ?_⟩
    · obtain ⟨-, -, hs', -, hbytes⟩ := hedit.other hw hd hd hmem hne hfile
      rw [hs'.start] at hbytes
      exact hbytes
    · have hrun' : lfnRunAt (u'.dirData d) j = none := by
        rw [lfnRunAt_congr fun k hk => ?_, hrun]
        rw [h2.page _ (by omega), h2.page _ (by omega)]
        exact ⟨renamed_out (by omega), renamed_out (by omega)⟩
      unfold slotName entryName listedAs
      rw [hrun', Option.bind_none, Option.getD_none, h83, if_pos Option.isSome_some,
        fatName_at (ofList a) fun i hi => ?_, fatName_to83 h83]
      rw [h2.page _ (by omega)]
      exact putBytes_in hi
    · have hfirst : renamed (v.dirData d) j a (32 * j + 0) = ofList a 0 := putBytes_in (by decide)
      rw [h2.page _ (by omega)]
      exact hfirst ▸ hfield.start.2

/-- **`fs_rename` within a directory**: the entry of this name has the other one, whether or not the
scan behind it fails. -/
theorem renameHere_renamed (hw : WellFormed v) (hs : Stands v s) (leaf : Name)
    (h83 : to83 name = some a) :
    Triple (fun x => x = s) (renameHere leaf a)
      (fun _ x => ∃ v' j, Renamed v v' x s.cwd j name ∧ v.slotName s.cwd j = leaf ∧
      (Listable v' → Whole v' x))
      (fun x => Stands v x ∨ ∃ v' j, Renamed v v' x s.cwd j name ∧ v.slotName s.cwd j = leaf) := by
  unfold renameHere
  refine .readAt fun s hx => .take (fun x hx' => .inl (hx' ▸ hx ▸ hs)) fun i hi => ?_
  subst hx
  obtain ⟨j, hj⟩ := hs.cache.entry i _ (findFile_get hi).1
  rintro x rfl
  obtain ⟨u, h1, hpage⟩ := dirLoad_pageAt hw hs
  have hu := hpage.stands hs
  have hcwd : u.cwd = x.cwd := by rw [hpage.state]
  have hfile : u.fileAt i = x.fileAt i := by rw [hpage.state]; rfl
  rw [exec_bind_of h1, exec_bind_of (exec_upd _ _), hfile, show (x.fileAt i).dirOff = 32 * j from hj.off]
  rw [← hcwd] at hj ⊢
  obtain ⟨u', h2, hwell, hb, h3⟩ := rename_stored hw hu hj h83
  rw [show putBytes u.dir (32 * j) (ofList a) 11 = renamed u.dir j a from rfl, exec_bind_of h2]
  obtain ⟨h4, h5⟩ := scanDir_sees hwell (F := Listable u') id u' hb
  have hname : v.slotName u.cwd j = leaf := hj.name.symm.trans (findFile_get hi).2
  exact ⟨fun r hr => ⟨u', j, h3 _ (h4 r hr).toStands, hname, (h4 r hr).full⟩,
    fun hn => .inr ⟨u', j, h3 _ (h5 hn), hname⟩⟩

end VampireOS.Fs
