import VampireOS.Fs.Room

/-!
# Creating a file (kernel/fs.c:1011-1100)

`fs_create` takes a cluster, finds slots for the entries of the name, puts them there and stores the
page. When it fails the cluster is free again, and the directory is as it was or longer by free
slots.
-/

namespace VampireOS.Fs

open Lib

variable {v u u' u1 s s' : Fs} {b page e : Bytes} {d i j k n p c cl len : Nat}
    {l own ext : List Nat} {f : FileEnt} {name a : Name}

/-! ## Names -/

theorem upper_start {x : UInt8} (h : Alnum x) (rest : Name) :
    NameStart (upper (foldAz x) :: rest) := upper_first x h

theorem Part.start {max n : Nat} {l : Name} (h : Part max l) (rest : Name) :
    NameStart (padTo n (l.map fun c => Fs.upper (foldAz c)) ++ rest) := by
  cases l with
  | nil => exact absurd rfl h.ne_nil
  | cons x l => exact upper_start (h.alnum x List.mem_cons_self) _

/-- An 8.3 field. -/
structure Field (a : Name) : Prop where
  length : a.length = 11
  start : NameStart a

theorem to83_field (h : to83 name = some a) : Field a := by
  have hlen : ∀ {max : Nat} {l : Name}, Part max l → (l.map fun c => upper (foldAz c)).length ≤
      max := fun hp => by
    rw [List.length_map]
    exact hp.le
  cases is83_of_to83 h with
  | base hb =>
    rw [to83_base hb, Option.some.injEq] at h
    rw [← h]
    refine ⟨?_, hb.start _⟩
    rw [List.length_append, padTo_length (hlen hb), padTo_length (Nat.zero_le _)]
  | ext hb he =>
    rw [to83_ext hb he, Option.some.injEq] at h
    rw [← h]
    refine ⟨?_, hb.start _⟩
    rw [List.length_append, padTo_length (hlen hb), padTo_length (hlen he)]

theorem Alias.field (h : Alias s a) : Field a := ⟨h.length, h.first⟩

/-- The name that a new file is listed under. -/
def listedAs (name : Name) : Name := if (to83 name).isSome then name.map foldAz else name

theorem fatName_at (d' : Bytes) (h : ∀ i < 11, b (k + i) = d' i) : fatName b k = fatName d' 0 := by
  have hpart : ∀ x n : Nat, x + n ≤ 11 → ((List.range n).map fun i => b (k + x + i)) =
      (List.range n).map fun i => d' (0 + x + i) := by
    intro x n hle
    apply List.map_congr_left
    intro i hi
    rw [Nat.add_assoc, h _ (by have := List.mem_range.1 hi; omega), Nat.zero_add]
  unfold fatName fatChars
  simp only
  rw [hpart 0 8 (by decide), hpart 8 3 (by decide), h 8 (by decide), Nat.zero_add]

/-! ## The entries of a name -/

/-- The entries of a new file in a page: `c` of its long name, and `e` behind them. -/
structure Entries (old page : Bytes) (p c : Nat) (e : Bytes) : Prop where
  out : ∀ i, ¬ (32 * p ≤ i ∧ i < 32 * (p + c + 1)) → page i = old i
  long : ∀ k, p ≤ k → k < p + c → freeMark (page (32 * k)) = false ∧ page (32 * k + 11) = 0x0F
  last : ∀ o < 32, page (32 * (p + c) + o) = e o

theorem newEntry_mark (attr : UInt8) (cl : Nat) :
    newEntry a attr cl 0 = ofList a 0 ∧ newEntry a attr cl 11 = attr := ⟨rfl, rfl⟩

theorem Entries.mark (h : Entries b page p c e) : page (32 * (p + c)) = e 0 := h.last 0 (by decide)

/-- A scan does not pass over it. -/
theorem Entries.seen {attr : UInt8} (h : Entries b page p c (newEntry a attr cl))
      (ha : NameStart a) : skipMark (page (32 * (p + c))) = false := by
  rw [h.mark, (newEntry_mark attr cl).1]
  exact ha.2

theorem Entries.owns {attr : UInt8} (h : Entries b page p c (newEntry a attr cl)) (ha : NameStart a)
    (hattr : skippedAttr attr = false) :
    ownsChain page (p + c) = true := by
  obtain ⟨h1, h2⟩ := ha.not_free
  unfold ownsChain
  rw [h.mark, h.last 11 (by decide), (newEntry_mark attr cl).1, (newEntry_mark attr cl).2, h1, hattr]
  simp [h2]

/-- The entry on the volume. -/
structure NewFile (v : Fs) (d j : Nat) (e : Bytes) : Prop where
  start : v.slotStart d j = rdU16 e 26
  size : v.slotSize d j = rdU32 e 28
  isDir : v.slotIsDir d j = decide (e 11 &&& 0x10 ≠ 0)

theorem newFile_of (h : ∀ o < 32, v.dirData d (32 * j + o) = e o) : NewFile v d j e := by
  constructor
  · unfold slotStart rdU16
    simp only [Nat.add_assoc, Nat.reduceAdd]
    rw [h 26 (by decide), h 27 (by decide)]
  · unfold slotSize rdU32
    simp only [Nat.add_assoc, Nat.reduceAdd]
    rw [h 28 (by decide), h 29 (by decide), h 30 (by decide), h 31 (by decide)]
  · unfold slotIsDir
    rw [h 11 (by decide)]

theorem entries_short (old : Bytes) (a : Name) (attr : UInt8) (p cl : Nat) :
    Entries old (putBytes old (32 * p) (newEntry a attr cl) 32) p 0 (newEntry a attr cl) := by
  refine ⟨fun i hi => putBytes_out (by omega), fun k _ _ => by omega, fun o ho => ?_⟩
  rw [Nat.add_zero]
  exact putBytes_in ho

theorem exec_entries (name a : Name) (hc : c = 0 ∨ LongOk name ∧ c = lfnCount name) (cl p : Nat)
    (s : Fs) : ∃ s1 page,
    exec (putLfn (32 * p) c (lfnCksum a) name c) s = (some (), s1) ∧
      exec (putEntry (32 * p + 32 * c) (newEntry a 0x20 cl)) s1 = (some (), { s with dir := page }) ∧
      Entries s.dir page p c (newEntry a 0x20 cl) ∧ (c ≠ 0 → Written page p name a cl) := by
  rcases hc with rfl | ⟨hok, rfl⟩
  · exact ⟨s, _, rfl, rfl, entries_short s.dir a 0x20 p cl, fun h => absurd rfl h⟩
  · obtain ⟨s1, page, h1, h2, h3, h4⟩ := exec_put p name a cl s
    refine ⟨s1, page, h1, h2, ⟨fun i hi => h4 i (by omega), fun k hk hlt => ?_, h3.short⟩, fun _ => h3⟩
    obtain ⟨x, rfl⟩ := Nat.exists_eq_add_of_le hk
    obtain ⟨h5, h6, -⟩ := h3.mark (show x < lfnCount name by omega)
    refine ⟨?_, h6⟩
    obtain ⟨h7, h8, -⟩ := marks hok (show x < lfnCount name by omega)
    rw [h5]
    unfold skipMark at h8
    simp only [Bool.or_eq_false_iff, decide_eq_false_iff_not] at h8
    simp [freeMark, h7, h8.1.1]

theorem Written.congr (h : Written b p name a cl) (b' : Bytes)
    (hb : Agree b' b (32 * (p + lfnCount name + 1))) : Written b' p name a cl where
  long := fun k hk o ho => by
    rw [hb _ (by omega)]
    exact h.long k hk o ho
  short := fun o ho => by
    rw [hb _ (by omega)]
    exact h.short o ho

/-- **The name is listed as it was meant.** -/
theorem Put.slotName {attr : UInt8} (hp : Put v u u' d p c ext)
    (he : Entries b u.dir p c (newEntry a attr cl)) (ha : Field a)
    (hc : c = 0 ∧ to83 name = some a ∨ to83 name = none ∧ LongOk name ∧ c = lfnCount name ∧
      Written u.dir p name a cl) :
    u'.slotName d (p + c) = listedAs name ∧
    (if c ≠ 0 then name else fatName u.dir (32 * p + 32 * c)) = listedAs name := by
  have hlt : p + c < u.dirLen d := hp.len ▸ hp.mem.1
  unfold Fs.slotName listedAs
  rcases hc with ⟨rfl, h83⟩ | ⟨h83, hok, rfl, hwr⟩
  · have hfat : fatName u.dir (32 * p) = name.map foldAz := by
      rw [fatName_at (ofList a) fun i hi => ?_, fatName_to83 h83]
      rw [show 32 * p + i = 32 * (p + 0) + i by omega, he.last i (by omega)]
      unfold newEntry wrU16 putBytes
      rw [if_neg (by omega), Function.update_of_ne (by omega), if_pos (by omega), Nat.sub_zero]
    have hrun : lfnRunAt (u'.dirData d) p = none := by
      cases p with
      | zero => rfl
      | succ k =>
        rw [lfnRunAt_succ, if_neg (hp.first rfl k rfl)]
        split <;> rfl
    have hpage : fatName (u'.dirData d) (32 * p) = fatName u.dir (32 * p) :=
      fatName_congr fun k hk => hp.page _ (by omega)
    rw [h83, Nat.add_zero, hrun, if_pos Option.isSome_some, if_neg (by simp)]
    exact ⟨hpage.trans hfat, hfat⟩
  · have hcount := hok.count
    have hwr' := hwr.congr (u'.dirData d) fun i hi => hp.page i (by omega)
    rw [h83, if_neg (by simp), if_pos (by omega), hwr'.runAt hok _ (Nat.le_refl _) (by omega)]
    exact ⟨hwr'.entryName hok ha.length, rfl⟩

/-! ## `fs_create` -/

/-- All slots of the volume `v` are as before. -/
def Unmoved (v : Fs) (d : Nat) (s : Fs) : Prop := ∃ v', WellFormed v' ∧ Stands v' s ∧ ∀ j, Frame v v' d j

theorem Stands.unmoved (h : Stands v s) (hw : WellFormed v) (d : Nat) : Unmoved v d s :=
  ⟨v, hw, h, fun j => .refl v d j⟩

/-- Nothing in use has been written. -/
theorem Outside.unmoved (h : Outside v u []) (hw : WellFormed v) (hs : Stands v s) (hr : Reliable u)
    (hc : u.cwd = s.cwd) (hsv : u.savedCwd = s.savedCwd) (hf : u.files = s.files)
    (hb : u.dirBytes = 32 * v.dirLen s.cwd)
    (hp : Agree u.dir (v.dirData s.cwd) (32 * v.dirLen s.cwd)) : Unmoved v s.cwd u := by
  have hd := hs.cwd
  set d := s.cwd
  obtain ⟨-, hdata, hlen⟩ := h.dirAt hw hd (List.disjoint_nil_left _)
  have hnone : ¬ v.Occupied d (v.dirLen d) := fun ho => Nat.lt_irrefl _ ho.1
  have hnone' : ¬ u.Occupied d (v.dirLen d) := fun ho => hnone ((slots_congr hdata hlen _).1.1 ho)
  have hedit : Edit v u d (v.dirLen d) [] [] := h.edit hw hd (fun _ _ _ => List.disjoint_nil_left _)
    (fun ho => absurd ho hnone') fun ho => absurd ho hnone
  have hn : ∀ j, NamesKept v u d j := fun j k _ _ => slotName_congr hdata
  refine ⟨u, hedit.wellFormed hw hd, ?_, fun j => hedit.frame hw hd (.inr ⟨hnone, hnone'⟩) (hn j)⟩
  refine hs.edit hw hedit (fun hg => hnone hg.1) ⟨rfl, rfl, rfl⟩ hr hc hsv ?_ ?_ ?_
  · rw [hlen]
    exact hb
  · rw [hdata, hlen]
    exact hp
  · rw [hf]
    exact hs.cache.stay hedit hw hd (hn _) hnone

theorem PageAt.stands (h : PageAt v s u s.cwd) (hs : Stands v s) : Stands v u := by
  have hstate := h.state
  refine ⟨hs.toBased.of ?_ ?_ ?_ ?_ ?_, ?_, ?_, ?_⟩
  · rw [hstate]
    exact ⟨rfl, rfl, rfl⟩
  · rw [hstate]
    exact id
  all_goals rw [hstate]
  · exact h.bytes
  · exact h.page
  · exact hs.cache

/-- `dir_load` in the directory. -/
theorem dirLoad_pageAt (hw : WellFormed v) (hs : Stands v s) :
    ∃ u, exec dirLoad s = (some (), u) ∧ PageAt v s u s.cwd := by
  obtain ⟨u, h1, h2, h3, h4⟩ := dirLoad_at hw hs.cwd (hs.vol.outside []) (List.disjoint_nil_left _) hs.rel rfl
  exact ⟨u, h1, h2, h3, h4⟩

/-- What `fs_create` uses for the name. -/
def FieldOf (name a : Name) (c : Nat) : Prop :=
  c = 0 ∧ to83 name = some a ∨ to83 name = none ∧ LongOk name ∧ c = lfnCount name

theorem createName_spec (hw : WellFormed v) (hs : Stands v s) (name : Name) :
    Triple (fun x => x = s) (createName name)
    (fun r x => Stands v x ∧ x.files = s.files ∧ x.cwd = s.cwd ∧ x.savedCwd = s.savedCwd ∧
    Field r.1 ∧ FieldOf name r.1 r.2) (Stands v) := by
  unfold createName
  cases h83 : to83 name with
  | some a =>
    rintro x rfl
    exact ⟨fun r hr => Option.some.inj hr ▸ ⟨hs, rfl, rfl, rfl, to83_field h83, .inl ⟨rfl, h83⟩⟩, nofun⟩
  | none =>
    rintro x rfl
    obtain ⟨u, h1, h2⟩ := dirLoad_pageAt hw hs
    have hu := h2.stands hs
    have hstate := h2.state
    dsimp only
    rw [exec_bind_of h1]
    cases hok : lfnOk name with
    | false => exact ⟨nofun, fun _ => hu⟩
    | true =>
      rw [exec_bind_of (show exec (need true) u = (some (), u) from rfl), exec_bind_of (exec_gets _ _)]
      simp only [id]
      cases ha : u.makeAlias name with
      | none => exact ⟨nofun, fun _ => hu⟩
      | some a =>
        have hcount := (longOk hok).count
        have hneed : (1 ≤ (name.length + 12) / 13 ∧ (name.length + 12) / 13 ≤ 2) := by
          unfold lfnCount at hcount
          omega
        rw [exec_bind_of (show exec (orFailWith (some a)) u = (some a, u) from rfl),
          exec_bind_of (show exec (need _) u = (some (), u) by rw [decide_eq_true hneed]; rfl)]
        refine ⟨fun r hr => ?_, nofun⟩
        obtain rfl := Option.some.inj hr
        refine ⟨hu, ?_, ?_, ?_, (makeAlias_spec ha).field, .inr ⟨h83, longOk hok, rfl⟩⟩
        all_goals exact hstate ▸ rfl

/-- A new file of size 0: the name, its slot, and the cached entry. -/
structure Born (v v' s s' : Fs) (j k : Nat) (f : FileEnt) (name : Name) : Prop where
  well : WellFormed v'
  stands : Stands v' s'
  frame : Frame v v' s.cwd j
  fresh : ¬ v.Occupied s.cwd j
  cwd : s'.cwd = s.cwd
  saved : s'.savedCwd = s.savedCwd
  get : s'.files[k]? = some f
  entry : AtEntry v' s.cwd j f
  isDir : f.isDir = false
  name : f.name = listedAs name
  len : f.len = 0

theorem FieldOf.count (h : FieldOf name a c) : c + 1 ≠ 0 ∧ c + 1 ≤ 16 := by
  rcases h with ⟨rfl, -⟩ | ⟨-, hok, rfl⟩
  · decide
  · have := hok.count
    omega

/-- A cluster is taken, and the FAT flushed. -/
theorem taken (hw : WellFormed v) (hs : Stands v s) (ha : exec fatAlloc s = (some cl, u)) :
    ∃ u', exec fatFlush u = (some (), u') ∧
    u' = { u with disk := u'.disk, sent := u'.sent } ∧ u = { s with fat := u.fat } ∧
    Outside v u' [] ∧ Reliable u' ∧ v.fatEnt cl = 0 ∧
      2 ≤ cl ∧ cl ≤ v.geo.clusters + 1 ∧ u'.fatEnt cl = fat12Eof ∧ u'.geo = v.geo := by
  obtain ⟨honly, h2, hcl, hfree, hent⟩ := fatAlloc_ok ha
  rw [hs.vol.fatEnt] at hfree hent
  have hout : Outside v u [] := by
    refine (hs.vol.outside []).fatStep honly (fun c _ hu => ?_) ?_
    · rw [hent, Function.update_of_ne (by rintro rfl; exact hu hfree), hs.vol.fatEnt]
    · rw [hent, Function.update_of_ne (by omega), hs.vol.fatEnt]
  have hr := hs.rel.fatOnly honly
  obtain ⟨u', h3, h4, h5⟩ := fatFlush_spec hr (hout.geo ▸ hw.geo)
  rw [hout.geo] at h5
  have hu' : u' = { u with disk := u'.disk, sent := u'.sent } := h4
  refine ⟨u', h3, h4, honly, hout.flush hw h4 h5, hr.diskOnly h4, hfree, h2, hs.vol.geo ▸ hcl, ?_, ?_⟩
  · rw [hu']
    exact (congrFun hent cl).trans (Function.update_self ..)
  · rw [hu']
    exact hout.geo

/-- The cluster is given back. -/
theorem given_back (hw : WellFormed v) (h : Outside v u []) (hr : Reliable u)
    (hf : v.fatEnt cl = 0) (h2 : 2 ≤ cl) (hcl : cl ≤ v.geo.clusters + 1) {α : Type} :
    ∃ u', exec (giveBack cl : FsM α) u = (none, u') ∧
      u' = { u with fat := u'.fat, disk := u'.disk, sent := u'.sent } ∧
      Outside v u' [] ∧ Reliable u' := by
  have hin : u.geo.Entry cl := by
    rw [h.geo]
    exact hw.geo.entry hcl
  set u1 : Fs := { u with fat := fat12Set u.geo u.fat cl 0 } with hu1
  have hent : u1.fatEnt = Function.update u.fatEnt cl 0 := fatEnt_set hin 0
  have hout : Outside v u1 [] := by
    refine h.fatStep rfl (fun c _ hu => ?_) ?_
    · rw [hent, Function.update_of_ne (by rintro rfl; exact hu hf)]
    · rw [hent, Function.update_of_ne (by omega)]
  have hr1 : Reliable u1 := hr.same rfl rfl rfl
  obtain ⟨u', h3, h4, h5⟩ := fatFlush_spec hr1 (hout.geo ▸ hw.geo)
  rw [hout.geo] at h5
  have hu' : u' = { u1 with disk := u'.disk, sent := u'.sent } := h4
  refine ⟨u', ?_, ?_, hout.flush hw h4 h5, hr1.diskOnly h4⟩
  · unfold giveBack
    rw [exec_bind_of (exec_fatSet _ _ _), exec_bind_of (exec_attempt _ _), h3]
    rfl
  · rw [hu', hu1]

/-- The cluster that was taken is a chain of its own when the page is stored. -/
structure Lone (v u : Fs) (cl : Nat) (ext : List Nat) : Prop where
  geo : u.geo = v.geo
  chain : OwnChain u cl [cl]
  alone : u.chainAt cl = [cl]
  out : cl ∉ ext

theorem Put.lone (hw : WellFormed v) (hd : Dir v d) (ho : Opened v u u1 d ext)
    (hput : Put v s s' d p c ext) (hs : s = { u1 with dir := s.dir }) (hfree : v.fatEnt cl = 0)
    (h2 : 2 ≤ cl) (hin : cl ≤ v.geo.clusters + 1) (heof : u.fatEnt cl = fat12Eof) :
    Lone v s' cl ext := by
  have hstate := hput.state
  have hout : cl ∉ v.dirClusters d := (hw.dirChain hd).chain.not_mem hfree
  have hent : s'.fatEnt = u1.fatEnt := by
    rw [hstate, hs]
    rfl
  have hgeo : s'.geo = v.geo := by
    rw [hstate, hs]
    exact ho.kept.geo
  have hchain : OwnChain s' cl [cl] := by
    apply OwnChain.single (hgeo ▸ hw.geo.clusters) h2 (hgeo ▸ hin)
    rw [hent, ho.fat cl h2 hout (by rw [heof]; decide), heof]
  refine ⟨hgeo, hchain, chainAt_eq hchain (by simp [chainMax]), fun hm => ?_⟩
  have := (ho.free cl hm).2
  rw [heof] at this
  cases this

/-- A scan does not pass over the new entry. -/
theorem Put.seen {attr : UInt8} (hput : Put v u u' d p c ext)
    (he : Entries b u.dir p c (newEntry a attr cl)) (ha : NameStart a) :
    skipMark (u'.dirData d (32 * (p + c))) = false := by
  have hlt : p + c < u.dirLen d := hput.len ▸ hput.mem.1
  rw [hput.page _ (by omega)]
  exact he.seen ha

/-- The entry of a slot that starts at this cluster. -/
theorem Put.newFile (hput : Put v u u' d p c ext) (he : Entries b u.dir p c e) : NewFile u' d (p + c) e := by
  have hlt : p + c < u.dirLen d := hput.len ▸ hput.mem.1
  apply newFile_of
  intro o ho
  rw [hput.page _ (by omega)]
  exact he.last o ho

theorem cluster_mod (hw : WellFormed v) (hin : cl ≤ v.geo.clusters + 1) : cl % 65536 = cl := by
  have := hw.geo.clusters
  unfold fat12Max at this
  omega

/-- The directory has no room: the cluster is given back. -/
theorem no_room (hw : WellFormed v) (hs : Stands v s) (hload : PageAt v u u1 s.cwd) (hout : Outside v u [])
    (hr : Reliable u) (hc : u.cwd = s.cwd) (hsv : u.savedCwd = s.savedCwd) (hf : u.files = s.files)
    (hfree : v.fatEnt cl = 0) (hcl2 : 2 ≤ cl) (hin : cl ≤ v.geo.clusters + 1) (n : Nat) (α : Type) :
    ∃ u', exec (giveBack cl : FsM α) { u1 with pages := n } = (none, u') ∧ Unmoved v s.cwd u' := by
  set u2 : Fs := { u1 with pages := n } with hu2
  have hstate := hload.state
  have hout2 : Outside v u2 [] := by
    have := hload.outside hout
    exact ⟨⟨this.geo, this.fat, this.disk⟩, ⟨this.head, this.first⟩⟩
  have hr2 : Reliable u2 := by
    rw [hu2, hstate]
    exact hr.same rfl rfl rfl
  obtain ⟨u', h1, hstate', hout', hr'⟩ := given_back (α := α) hw hout2 hr2 hfree hcl2 hin
  refine ⟨u', h1, hout'.unmoved hw hs hr' ?_ ?_ ?_ ?_ ?_⟩
  · rw [hstate', hu2, hstate]
    exact hc
  · rw [hstate', hu2, hstate]
    exact hsv
  · rw [hstate', hu2, hstate]
    exact hf
  · rw [hstate']
    exact hload.bytes
  · rw [hstate']
    exact hload.page

/-- The slot of a file that has the cluster and no bytes. -/
theorem Put.edit_file (hw : WellFormed v) (hput : Put v u u' d p c ext) (hlone : Lone v u' cl ext)
    (hents : Entries b u.dir p c (newEntry a 0x20 cl)) (ha : a.length = 11) (hfree : v.fatEnt cl = 0)
    (hin : cl ≤ v.geo.clusters + 1) :
    Edit v u' d (p + c) [] ext ∧ u'.slotStart d (p + c) = cl ∧ u'.slotSize d (p + c) = 0 ∧
      u'.slotIsDir d (p + c) = false := by
  obtain ⟨-, h11, h26, h28⟩ := newEntry_read ha 0x20 cl
  have hnew := hput.newFile hents
  have hstart : u'.slotStart d (p + c) = cl := by rw [hnew.start, h26, cluster_mod hw hin]
  have hsize : u'.slotSize d (p + c) = 0 := hnew.size.trans h28
  have hfile : u'.slotIsDir d (p + c) = false := by
    rw [hnew.isDir, h11]
    decide
  have howned : u'.owned d (p + c) = [cl] := by
    unfold owned
    rw [hstart, hlone.alone]
  refine ⟨hput.edit fun _ => ?_, hstart, hsize, hfile⟩
  refine ⟨⟨?_, fun _ => ?_, fun ht => ?_⟩, fun x hx => ?_, fun ht => ?_⟩
  · rw [hstart, howned]
    exact hlone.chain
  · rw [hsize]
    exact ⟨Nat.zero_le _, Nat.zero_le _⟩
  · rw [hfile] at ht
    cases ht
  · rw [howned, List.mem_singleton] at hx
    rw [hx]
    exact ⟨.inr hfree, hlone.out⟩
  · rw [hfile] at ht
    cases ht

/-- The page with the new entry is stored: `u'` has the file, and its cache gets it too. -/
theorem put_born (hw : WellFormed v) (hs : Stands v s) (ho : Opened v u u1 s.cwd ext)
    (hput : Put v { u1 with dir := page } u' s.cwd p c ext)
    (hents : Entries u1.dir page p c (newEntry a 0x20 cl)) (hfield : Field a) (hname : FieldOf name a c)
    (hwritten : c ≠ 0 → Written page p name a cl) (hfree : v.fatEnt cl = 0) (hcl2 : 2 ≤ cl)
    (hin : cl ≤ v.geo.clusters + 1) (heof : u.fatEnt cl = fat12Eof) (hr : Reliable u')
    (hc : u'.cwd = s.cwd) (hsv : u'.savedCwd = s.savedCwd) (hf : u'.files = s.files) (junk : Bytes) :
    let f : FileEnt := ⟨if c ≠ 0 then name else fatName u'.dir (32 * p + 32 * c), some junk, 0, cl,
      32 * p + 32 * c, false⟩
    Born v u' s { u' with files := u'.files ++ [f] } (p + c) u'.files.length f name := by
  intro f
  have hd := hs.cwd
  have hstate := hput.state
  have hdir : u'.dir = page := by rw [hstate]
  have hlone := hput.lone hw hd ho rfl hfree hcl2 hin heof
  obtain ⟨hedit, hstart, hsize, hfile⟩ := hput.edit_file hw hlone hents hfield.length hfree hin
  obtain ⟨hslot, hlisted⟩ := hput.slotName hents hfield (hname.imp id fun ⟨h83, hok, e⟩ =>
    ⟨h83, hok, e, hwritten (by have := hok.count; omega)⟩)
  have hfname : f.name = listedAs name := by
    show (if c ≠ 0 then name else fatName u'.dir (32 * p + 32 * c)) = _
    rw [hdir]
    exact hlisted
  have hentry : AtEntry u' s.cwd (p + c) f := by
    refine ⟨hput.mem, hfname.trans hslot.symm, ?_, hfile.symm, .inl hstart.symm, fun _ => hsize.symm,
      fun _ => ⟨junk, rfl, ?_⟩, hput.seen hents hfield.start⟩
    · show 32 * p + 32 * c = _
      omega
    · exact fun _ h => absurd h (Nat.not_lt_zero _)
  refine ⟨hedit.wellFormed hw hd, ?_, hedit.frame hw hd (.inl rfl) hput.names, hput.free, hc, hsv, ?_,
    hentry, rfl, hfname, rfl⟩
  · refine hs.edit hw hedit (fun hg => hput.free hg.1) ⟨rfl, rfl, rfl⟩ (hr.same rfl rfl rfl) hc hsv ?_ ?_ ?_
    · show u'.dirBytes = _
      rw [hput.len, hstate]
      exact ho.bytes
    · show Agree u'.dir _ _
      rw [hput.len, hdir]
      exact fun i hi => (hput.page i hi).symm
    · show Cache u' _ (u'.files ++ [f])
      rw [hf]
      exact hs.cache.add hedit hw hd hput.names hput.free hentry fun x hx => by
        rw [show u'.chainAt f.cluster = [cl] from hlone.alone, List.mem_singleton] at hx
        rw [hx]
        exact hfree
  · show (u'.files ++ [f])[u'.files.length]? = _
    simp

theorem fsCreate_born (hw : WellFormed v) (hs : Stands v s) (name : Name) :
    Triple (fun x => x = s) (fsCreate name)
    (fun k x => (k = s.files.length ∧ k < fsMax) ∧ ∃ v' j f, Born v v' s x j k f name)
    (Unmoved v s.cwd) := by
  unfold fsCreate
  refine .readAt fun x hx => .check (fun y hy => ?_) fun hmax => ?_
  · rw [hy, hx]
    exact hs.unmoved hw _
  rw [hx] at hmax ⊢
  have hmax : s.files.length < fsMax := of_decide_eq_true hmax
  refine .bind ((createName_spec hw hs name).conseq (fun _ h => h) (fun _ _ h => h) fun y hy =>
    hy.unmoved hw _) fun r => ?_
  obtain ⟨a, c⟩ := r
  rintro s1 ⟨h1, hfiles1, hcwd1, hsaved1, hfield, hname⟩
  dsimp only
  by_cases hpages : s1.pages = 0
  · rw [exec_bind, show exec pageBuf s1 = (none, s1) by unfold pageBuf; simp [exec_bind, hpages]]
    exact ⟨nofun, fun _ => h1.unmoved hw _⟩
  rw [exec_bind_of (exec_pageBuf hpages)]
  set s2 : Fs := { s1 with pages := s1.pages - 1 } with hs2
  have h2 : Stands v s2 := h1.calm ⟨rfl, id⟩
  rw [exec_bind_of (exec_result _ _)]
  cases hfind : s2.fatFind with
  | none =>
    rw [exec_fatAlloc_full (fatFind_none.1 hfind)]
    have h3 := h2.calm (show Calm s2 { s2 with pages := s2.pages + 1 } from ⟨rfl, id⟩)
    exact ⟨nofun, fun _ => h3.unmoved hw _⟩
  | some cl =>
    have ha := exec_fatAlloc hfind
    obtain ⟨s4, h3, hstate4, -, hout, hrel, hfree, hcl2, hin, heof, -⟩ := taken hw h2 ha
    rw [ha]
    dsimp only
    rw [exec_bind_of (exec_attempt _ _), h3]
    dsimp only [Option.isSome_some]
    rw [if_neg (by decide), exec_bind_of (exec_result _ _)]
    have hcwd4 : s4.cwd = s.cwd := by
      rw [hstate4]
      exact hcwd1
    have hsaved4 : s4.savedCwd = s.savedCwd := by
      rw [hstate4]
      exact hsaved1
    have hfiles4 : s4.files = s.files := by
      rw [hstate4]
      exact hfiles1
    rcases dirSlots_cases hw hs.cwd hout hrel hcwd4 hname.count
      with ⟨s5, h5, hload⟩ | ⟨s5, p, ext, h5, hopen, hrun⟩
    · rw [h5]
      dsimp only
      obtain ⟨s6, h6, hun⟩ := no_room hw hs hload hout hrel hcwd4 hsaved4 hfiles4 hfree hcl2 hin
        (s5.pages + (some s1.junk).toList.length) Nat
      rw [exec_bind_of (show exec (dropPage (some s1.junk)) s5 = (some (), _) from rfl), h6]
      exact ⟨nofun, fun _ => hun⟩
    · rw [h5]
      dsimp only
      have hstate5 := hopen.state
      obtain ⟨sa, page, h6, h7, hents, hwritten⟩ :=
        exec_entries name a (hname.imp (fun h => h.1) fun h => h.2) cl p s5
      rw [exec_bind_of h6, exec_bind_of h7]
      set s6 : Fs := { s5 with dir := page } with hs6
      have hcwd6 : s6.cwd = s.cwd := by
        rw [hs6, hstate5]
        exact hcwd4
      have hrel6 : Reliable s6 := by
        rw [hs6, hstate5]
        exact hrel.same rfl rfl rfl
      obtain ⟨s7, h8, hput⟩ := put_at (s := s6) hw hs.cwd hopen hrun rfl hrel6 hcwd6 hents.out
        hents.long (hents.owns hfield.start (by decide))
      rw [exec_bind_of (exec_attempt _ _), h8]
      dsimp only [Option.isSome_some]
      rw [if_neg (by decide), exec_bind_of (exec_gets _ _)]
      have hstate7 := hput.state
      have hfiles7 : s7.files = s.files := by
        rw [hstate7, hs6, hstate5]
        exact hfiles4
      refine ⟨fun k hk => ?_, nofun⟩
      obtain rfl : s7.files.length = k := Option.some.inj hk
      refine ⟨⟨by rw [hfiles7], by rw [hfiles7]; exact hmax⟩, s7, p + c, _,
        put_born hw hs hopen hput hents hfield hname hwritten hfree hcl2 hin heof ?_ ?_ ?_ hfiles7 s1.junk⟩
      · rw [hstate7]
        exact hrel6.same rfl rfl rfl
      · rw [hstate7]
        exact hcwd6
      · rw [hstate7, hs6, hstate5]
        exact hsaved4

end VampireOS.Fs
