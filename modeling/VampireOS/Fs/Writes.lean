import VampireOS.Fs.Frame

/-!
# Writing and truncating (kernel/fs.c:922-1000, 1533-1660)

The chain of the file is made as long as it has to be, its contents are stored, and the entry is
written. When the clusters run out the chain keeps what it got: behind a file that has a chain, or
in the cache only when the file is empty.
-/

namespace VampireOS.Fs

open Lib

variable {v u u' s s' : Fs} {d i j k c cl start count len : Nat} {own old l : List Nat}
    {f : FileEnt} {files : List FileEnt}

/-! ## A chain gets another length -/

/-- What `fat_resize` leaves, whatever it returns. -/
structure Regrown (s s' : Fs) (start cl : Nat) (old l : List Nat) : Prop where
  only : FatOnly s s'
  chain : OwnChain s' cl l
  short : l.length ≤ chainMax
  taken : ∀ c ∈ l, c ∈ old ∨ s.fatEnt c = 0
  front : old.take l.length <+: l
  other : ∀ c, c ∉ old → s.fatEnt c ≠ 0 → s'.fatEnt c = s.fatEnt c
  head : s'.fatEnt 1 = s.fatEnt 1

/-- `fat_resize` to a length that a file can have. -/
theorem fatResize_cases (hg : s.geo.Sane) (hold : OwnChain s start old)
    (hlen : old.length ≤ chainMax) (hcount : count ≠ 0 ∧ count ≤ chainMax) :
    ∃ cl ok s' l, exec (fatResize start count) s = (some (cl, ok), s') ∧
    Regrown s s' start cl old l ∧ (ok = true → l.length = count) ∧
      (ok = false → old <+: l ∧ (old ≠ [] → cl = start)) := by
  have hlast : ∀ c ∈ old.getLast?, s.geo.Entry c :=
    fun c hc => hg.entry (hold.inside c (List.mem_of_getLast? hc))
  obtain ⟨new, s1, h1, h2, h3⟩ := fatExtend_spec (count - old.length) hg.clusters hold.head (.inr hlast)
  by_cases hn : new.length = count - old.length
  · -- as many as asked for
    have hrun : ∃ cl s', exec (fatResize start count) s = (some (cl, true), s') := by
      obtain ⟨s2, h4⟩ := exec_fatClear ((old ++ new).drop count).reverse s1
      refine ⟨(old ++ new).getD 0 0,
        { s2 with fat := fat12Set s2.geo s2.fat ((old ++ new).getD (count - 1) 0) fat12Eof }, ?_⟩
      unfold fatResize
      rw [if_neg (by omega), exec_bind_of (exec_gets _ _)]
      simp only [id, hold.chain_eq hlen]
      rw [exec_bind_of h1]
      simp only [hn, decide_true, if_true]
      rw [exec_bind_of h4, exec_bind_of (exec_fatSet _ _ _)]
      rfl
    obtain ⟨cl, s', hx⟩ := hrun
    obtain ⟨new', h4, -, h6, h7, h8, h9, -, h11, h12⟩ :=
      fatResize_yields hg.clusters hold hlen hcount (.inr hlast) hx
    refine ⟨cl, true, s', _, hx, ⟨h12, h4, by omega, fun c hc => ?_, ?_, fun c hc hu => h9 c hc
      fun hm => hu (h7 c hm).2.2, h11⟩, fun _ => h6, nofun⟩
    · rcases List.mem_append.1 hc with hc | hc
      · exact .inl (List.mem_of_mem_take hc)
      · exact .inr (h7 c hc).2.2
    · rw [h6]
      exact List.prefix_append _ _
  · -- none is free any more
    have hfree : ∀ c ∈ new, s.fatEnt c = 0 := fun c hc => (h3.free c hc).2.2
    have hrun : exec (fatResize start count) s =
        (some (if old = [] then (old ++ new).getD 0 start else start, false), s1) := by
      unfold fatResize
      rw [if_neg (by omega), exec_bind_of (exec_gets _ _)]
      simp only [id, hold.chain_eq hlen]
      rw [exec_bind_of h1]
      simp only [hn, decide_false]
      rfl
    have hstart : OwnChain s1 (if old = [] then (old ++ new).getD 0 start else start) (old ++ new) := by
      have hchain := h3.chain
      cases hold' : old with
      | nil =>
        rw [hold'] at hold hchain
        rw [if_pos rfl, List.nil_append]
        cases hnew : new with
        | nil => exact .nil (Links.nil_iff.1 hold.links)
        | cons a t =>
          rw [hnew] at hchain
          exact hchain
      | cons a t =>
        rw [hold'] at hold hchain
        obtain ⟨rfl, -, -⟩ := Links.cons_iff.1 hold.links
        rw [if_neg nofun]
        exact hchain
    refine ⟨_, false, s1, old ++ new, hrun, ⟨h3.only, hstart, ?_, fun c hc => ?_, ?_,
      fun c hc hu => ?_, ?_⟩, nofun, fun _ => ⟨List.prefix_append _ _, fun hne => if_neg hne⟩⟩
    · rw [List.length_append]
      omega
    · rcases List.mem_append.1 hc with hc | hc
      · exact .inl hc
      · exact .inr (hfree c hc)
    · rw [List.take_of_length_le (by rw [List.length_append]; omega)]
      exact List.prefix_append _ _
    · apply h3.other
      rw [List.mem_append, not_or]
      exact ⟨hc, fun hm => hu (hfree c hm)⟩
    · apply h3.other
      rw [List.mem_append, not_or]
      exact ⟨fun hm => absurd (hold.two_le 1 hm) (by decide), fun hm => absurd (h3.free 1 hm).1 (by decide)⟩

/-- The bytes in front are those of the old chain. -/
theorem front_bytes (disk : Nat → Bytes) (g : Geo) {old l : List Nat}
      (h : old.take l.length <+: l) :
    Agree (sectorBytes disk (l.map g.dataLba)) (sectorBytes disk (old.map g.dataLba))
      (secSize * min old.length l.length) := by
  intro i hi
  have hlt : i / secSize < min old.length l.length := Nat.div_lt_of_lt_mul hi
  have hget : l[i / secSize]? = old[i / secSize]? := by
    obtain ⟨t, ht⟩ := h
    rw [← ht, List.getElem?_append_left (by rw [List.length_take]; omega), List.getElem?_take_of_lt
      (by omega)]
  unfold sectorBytes
  rw [List.getElem?_map, List.getElem?_map, hget]

theorem Regrown.outside (h : Regrown s s' start cl old l) (hv : SameVol v s) : Outside v s' old :=
  (hv.outside old).fatStep h.only (fun c hc hu => h.other c hc (by rw [hv.fatEnt]; exact hu)) h.head

/-- Clusters of the new chain that are not of the old one were free. -/
theorem Regrown.fresh (h : Regrown s s' start cl old l) (hv : SameVol v s) :
    ∀ c ∈ l, c ∈ old ∨ v.fatEnt c = 0 := by
  intro c hc
  rw [← hv.fatEnt]
  exact h.taken c hc

/-! ## The entry stays -/

/-- The page of no directory is new. -/
theorem Outside.edit (h : Outside v u own) (hw : WellFormed v) (hd : Dir v d)
    (mine : Mine v d j own) (self : u.Occupied d j → NewSlot v u d j own [])
    (gone : v.Occupied d j → v.slotIsDir d j = true → ∀ k, ¬ v.Occupied (v.slotStart d j) k) :
    Edit v u d j own [] := by
  obtain ⟨h1, h2, h3⟩ := h.dirAt hw hd (mine.dir hw hd)
  constructor
  · exact ⟨h.geo, fun c a b hu hout => h.fat c a b hu fun hm => hout (List.mem_append_right _ hm),
      fun c a b hu hout => h.disk c a b hu fun hm => hout (List.mem_append_right _ hm)⟩
  · exact fun _ => h.toKeptRoot
  · rw [List.append_nil]
    exact h1
  · exact nofun
  · exact mine
  · intro k _
    obtain ⟨h4, h5, h6, h7⟩ := slots_congr h2 h3 k
    exact ⟨h4, fun _ => ⟨h5, h6, h7⟩⟩
  · intro _ b _
    rw [h2]
  · rw [h2, h3]
    exact hw.tidy d hd
  · exact self
  · exact gone

theorem slotName_congr (h : u.dirData d = v.dirData d) : NameKept v u d k := by
  unfold NameKept slotName
  rw [h]
  exact ⟨rfl, rfl⟩

/-! ## The entry is written -/

/-- The page is stored with another first cluster and size of file `j`; the clusters `l` are of the
list or were free. -/
structure Rewritten (v u' : Fs) (d j cl len : Nat) (own l : List Nat) : Prop where
  edit : Edit v u' d j own []
  mem : u'.Occupied d j
  start : u'.slotStart d j = cl
  size : u'.slotSize d j = len
  isDir : u'.slotIsDir d j = false
  chain : u'.chainAt cl = l
  names : ∀ k, v.Occupied d k → NameKept v u' d k

theorem Agree.putBytes {b b' src : Bytes} {n off m : Nat} (h : Agree b b' n) :
    Agree (VampireOS.putBytes b off src m) (VampireOS.putBytes b' off src m) n := by
  intro i hi
  unfold VampireOS.putBytes
  split
  · rfl
  · exact h i hi

theorem Agree.resized {b b' : Bytes} {n : Nat} (h : Agree b b' n) :
    Agree (resized b j cl len) (resized b' j cl len) n := by
  unfold Fs.resized wrU16 wrU32
  exact h.putBytes.putBytes

theorem lfnRunAt_before (b : Bytes) (k : Nat) : RunBefore k (lfnRunAt b k) := by
  induction k with
  | zero => exact .none
  | succ k ih =>
    rw [lfnRunAt_succ]
    split
    · exact .none
    · split
      · exact ih.next b
      · exact .none

theorem Agree.name {b b' : Bytes} {n : Nat} (h : Agree b b' (32 * n)) (hk : k < n) :
    Fs.entryName b k (lfnRunAt b k) = Fs.entryName b' k (lfnRunAt b' k) := by
  rw [lfnRunAt_congr fun m hm => ⟨h _ (by omega), h _ (by omega)⟩]
  exact h.entryName (lfnRunAt_before b' k) (by omega)

/-- Names of the other slots, when the slots in a row are new. -/
theorem names_kept {b' : Bytes} {n a j : Nat} (hb : Block (v.dirData d) b' n a j)
    (hn : v.dirLen d ≤ n) (hj : j < n) (tidy : Tidy (v.dirData d) n) (tidy' : Tidy b' n)
    (hp : Agree (u.dirData d) b' (32 * n)) (hk : k ≠ j) (ho : v.Occupied d k) :
    NameKept v u d k := by
  have hblock := hb.congr hj hp
  have hlt := Nat.lt_of_lt_of_le ho.1 hn
  exact ⟨hblock.name tidy (tidy'.congr hp) hlt hk ho.2, (hblock.outside hlt hk ho.2).mark⟩

theorem rewrite_at (len : Nat) (hw : WellFormed v) (hd : Dir v d) (hmem : v.Occupied d j)
    (hfile : v.slotIsDir d j = false) (mine : Mine v d j own) (h : Outside v u own)
    (hr : Reliable u) (hc : u.cwd = d) (hb : u.dirBytes = 32 * v.dirLen d)
    (hp : Agree u.dir (resized (v.dirData d) j cl len) (32 * v.dirLen d)) (hchain : OwnChain u cl l)
    (hl : l.length ≤ chainMax) (taken : ∀ c ∈ l, c ∈ own ∨ v.fatEnt c = 0) (hcl : cl < 2 ^ 16)
    (hlen : len ≤ fileMax ∧ len ≤ secSize * l.length) :
    ∃ u', exec dirStore u = (some (), u') ∧ u' = { u with disk := u'.disk, sent := u'.sent } ∧
    Rewritten v u' d j cl len own l ∧
      u'.dirLen d = v.dirLen d ∧ Agree u'.dir (u'.dirData d) (32 * v.dirLen d) ∧ ∀ c ∈ l,
      u'.disk (v.geo.dataLba c) = u.disk (v.geo.dataLba c) := by
  have hres := resized_resize (v.dirData d) j cl len
  have hblock := hres.block hmem.2 (v.dirLen d)
  have htidy := hres.tidy (hw.tidy d hd)
  obtain ⟨u', h1, h2⟩ := page_at hw hd mine h hr hc hb hp hblock.slots
    (fun h2 => hblock.dots (hmem.two_le hw hd h2) (by have := hw.dirLen_ge hd; omega)) htidy
  have hstate := h2.state
  have hlt : 32 * j + 32 ≤ 32 * v.dirLen d := by
    have := hmem.1
    omega
  have hstart : u'.slotStart d j = cl := (h2.page.rdU16 (by omega)).trans (resized_start _ _ _ hcl)
  have hsize : u'.slotSize d j = len :=
    (h2.page.rdU32 (by omega)).trans (resized_size _ _ _ (by have := hlen.1; unfold fileMax at this; omega))
  have hattr : u'.dirData d (32 * j + 11) = v.dirData d (32 * j + 11) := by
    rw [h2.page _ (by omega)]
    exact (hres.mark j).2
  have hmem' : u'.Occupied d j := by
    refine ⟨h2.len.symm ▸ hmem.1, ?_⟩
    have := hmem.2
    unfold ownsChain at this ⊢
    rw [hattr, h2.page _ (by omega), (hres.mark j).1]
    exact this
  have hdir : u'.slotIsDir d j = false := by
    unfold slotIsDir at hfile ⊢
    rw [hattr]
    exact hfile
  have hent : u'.fatEnt = u.fatEnt := by
    rw [hstate]
    rfl
  have hchain' : OwnChain u' cl l := hchain.congr (by rw [hstate]) fun a _ => congrFun hent a
  have hat : u'.chainAt cl = l := hchain'.chain_eq hl
  have howned : u'.owned d j = l := by
    unfold owned
    rw [hstart, hat]
  have hnew : NewSlot v u' d j own [] := by
    refine ⟨⟨?_, fun _ => ?_, fun ht => ?_⟩, fun c hc => ?_, fun ht => ?_⟩
    · rw [hstart, howned]
      exact hchain'
    · rw [hsize, howned]
      exact hlen
    · rw [hdir] at ht
      cases ht
    · rw [howned] at hc
      exact ⟨taken c hc, nofun⟩
    · rw [hdir] at ht
      cases ht
  have hedit := h2.edit (fun _ => hnew) fun _ ht => by
    rw [hfile] at ht
    cases ht
  have hnames : ∀ k, v.Occupied d k → NameKept v u' d k := by
    intro k hk
    by_cases hkj : k = j
    · subst hkj
      have hreach := (hw.tidy d hd).before hk.1 (owns_mark hk.2)
      refine ⟨?_, (h2.page _ (by omega)).trans (hres.mark k).1⟩
      unfold slotName
      rw [h2.page.name hk.1]
      exact hres.name (owns_breaks hk.2) fun m hm => hreach m (Nat.le_of_lt hm)
    · exact names_kept hblock (Nat.le_refl _) hmem.1 (hw.tidy d hd) htidy h2.page hkj hk
  refine ⟨u', h1, hstate, ⟨hedit, hmem', hstart, hsize, hdir, hat, hnames⟩, h2.len, ?_, fun c hc => ?_⟩
  · intro i hi
    rw [h2.page i hi, hstate]
    exact hp i hi
  · have hout : c ∉ v.dirClusters d := by
      intro hm
      rcases taken c hc with h3 | h3
      · exact mine.dir hw hd h3 hm
      · exact (hw.dirChain hd).chain.used c hm h3
    exact h2.other c (hchain.two_le c hc) (h.geo ▸ hchain.inside c hc) hout

/-! ## Cached entries -/

theorem modify_eq_set (hi : files[i]? = some f) (g : FileEnt → FileEnt) :
    files.modify i g = files.set i (g f) := by
  apply List.ext_getElem?
  intro k
  rw [List.getElem?_modify, List.getElem?_set]
  split
  · next e =>
    subst e
    rw [hi, if_pos (List.getElem?_eq_some_iff.1 hi).1]
    rfl
  · cases files[k]? <;> rfl

theorem chainAt_stop (v : Fs) (h : isCluster cl = false) : v.chainAt cl = [] :=
  chainAt_eq (.nil h) (Nat.zero_le _)

theorem fileBytes_eq (v : Fs) (cl : Nat) :
    v.fileBytes cl = sectorBytes v.disk ((v.chainAt cl).map v.geo.dataLba) := rfl

/-- The slot's own chain, or none while the entry has a spare one. -/
theorem AtEntry.cases (h : AtEntry v d j f) (hw : WellFormed v) (hd : Dir v d) :
    (f.cluster = v.slotStart d j ∧ v.chainAt f.cluster = v.owned d j ∧ v.owned d j ≠ []) ∨
      v.owned d j = [] ∧ isCluster (v.slotStart d j) = false ∧ (f.isDir = false → f.len = 0) := by
  have hchain := (hw.slot d j hd h.mem).chain
  by_cases hnil : v.owned d j = []
  · refine .inr ⟨hnil, ?_, fun hfile => ?_⟩
    · rw [hnil] at hchain
      exact Links.nil_iff.1 hchain.links
    · have := ((hw.slot d j hd h.mem).file (h.isDir ▸ hfile)).2
      rw [hnil] at this
      rw [h.len hfile]
      simpa using this
  · rcases h.cluster with hc | ⟨-, hn, -⟩
    · exact .inl ⟨hc, by rw [hc]; rfl, hnil⟩
    · exact absurd hn hnil

/-- What a file of the volume is. -/
theorem fileAt_self (h : v.Occupied d j) (hf : v.slotIsDir d j = false) :
    FileAt v d j (v.slotName d j) (v.fileBytes (v.slotStart d j)) (v.slotSize d j) :=
  ⟨h, hf, rfl, rfl, fun _ _ => rfl⟩

/-- A file and its size and contents as they were. -/
def Unwritten (v : Fs) (d j : Nat) (s : Fs) : Prop :=
  Wrote v d j (v.slotName d j) (v.fileBytes (v.slotStart d j)) (v.slotSize d j) s

theorem Stands.unwritten (h : Stands v s) (hw : WellFormed v) (hm : v.Occupied d j)
    (hf : v.slotIsDir d j = false) : Unwritten v d j s :=
  ⟨v, hw, h, .refl v d j, fileAt_self hm hf⟩

/-- The clusters ran out while the chain of a cached file grew: it is `l` now, from `cl` on. -/
structure RanOut (v s s' : Fs) (j cl : Nat) (f : FileEnt) (l : List Nat) : Prop where
  entry : AtEntry v s.cwd j f
  isDir : f.isDir = false
  regrown : Regrown s s' f.cluster cl (v.chainAt f.cluster) l
  front : v.chainAt f.cluster <+: l
  start : v.chainAt f.cluster ≠ [] → cl = f.cluster

namespace RanOut

theorem kind (h : RanOut v s s' j cl f l) : v.slotIsDir s.cwd j = false := h.entry.isDir ▸ h.isDir

theorem chain_eq (h : RanOut v s s' j cl f l) : s'.chainAt cl = l := h.regrown.chain.chain_eq h.regrown.short

theorem data (h : RanOut v s s' j cl f l) (hw : WellFormed v) (hs : Stands v s) :
    s'.dirData s.cwd = v.dirData s.cwd ∧ s'.dirLen s.cwd = v.dirLen s.cwd :=
  ((h.regrown.outside hs.vol).dirAt hw hs.cwd ((h.entry.mine hw hs.cwd).dir hw hs.cwd)).2

/-- Either the slot has the chain, or none at all. -/
theorem cases (h : RanOut v s s' j cl f l) (hw : WellFormed v) (hs : Stands v s) :
    (s'.owned s.cwd j = l ∧ cl = v.slotStart s.cwd j ∧ v.owned s.cwd j = v.chainAt f.cluster ∧
        f.cluster = v.slotStart s.cwd j) ∨
      (v.owned s.cwd j = [] ∧ s'.owned s.cwd j = [] ∧ f.len = 0) := by
  obtain ⟨hdata, hlen⟩ := h.data hw hs
  have hstart := (slots_congr hdata hlen j).2.1
  rcases h.entry.cases hw hs.cwd with ⟨h1, h2, h3⟩ | ⟨h1, h2, h3⟩
  · have he : cl = f.cluster := h.start fun e => h3 (h2.symm.trans e)
    refine .inl ⟨?_, he.trans h1, h2.symm, h1⟩
    unfold owned
    rw [hstart, ← h1, ← he, h.chain_eq]
  · refine .inr ⟨h1, ?_, h3 h.isDir⟩
    unfold owned
    rw [hstart]
    exact chainAt_stop s' h2

theorem newSlot (h : RanOut v s s' j cl f l) (hw : WellFormed v) (hs : Stands v s) :
    NewSlot v s' s.cwd j (v.chainAt f.cluster) [] := by
  obtain ⟨hdata, hlen⟩ := h.data hw hs
  obtain ⟨-, hstart, hsize, hdir⟩ := slots_congr hdata hlen j
  have hok := hw.slot s.cwd j hs.cwd h.entry.mem
  have hcase := h.cases hw hs
  have hkind := h.kind
  refine ⟨⟨?_, fun _ => ?_, fun ht => ?_⟩, fun c hc => ?_, fun ht => ?_⟩
  · rw [hstart]
    rcases hcase with ⟨h1, h2, -, -⟩ | ⟨h1, h2, -⟩
    · rw [h1, ← h2]
      exact h.regrown.chain
    · have h3 := hok.chain
      rw [h1] at h3
      rw [h2]
      exact .nil (Links.nil_iff.1 h3.links)
  · rw [hsize]
    obtain ⟨h3, h4⟩ := hok.file hkind
    refine ⟨h3, Nat.le_trans h4 (Nat.mul_le_mul_left _ ?_)⟩
    rcases hcase with ⟨h1, -, h2, -⟩ | ⟨h1, h2, -⟩
    · rw [h1, h2]
      exact h.front.length_le
    · rw [h1, h2]
  · rw [hdir, hkind] at ht
    cases ht
  · refine ⟨?_, nofun⟩
    rcases hcase with ⟨h1, -, -, -⟩ | ⟨-, h2, -⟩
    · rw [h1] at hc
      exact h.regrown.fresh hs.vol c hc
    · rw [h2] at hc
      cases hc
  · rw [hdir, hkind] at ht
    cases ht

theorem edit (h : RanOut v s s' j cl f l) (hw : WellFormed v) (hs : Stands v s) :
    Edit v s' s.cwd j (v.chainAt f.cluster) [] :=
  (h.regrown.outside hs.vol).edit hw hs.cwd (h.entry.mine hw hs.cwd) (fun _ => h.newSlot hw hs) fun _ ht => by
    rw [h.kind] at ht
    cases ht

/-- The bytes of the file are those it had. -/
theorem reads (h : RanOut v s s' j cl f l) (hw : WellFormed v) (hs : Stands v s) :
    Agree (s'.fileBytes cl) (v.fileBytes f.cluster) f.len := by
  have honly : s' = { s with fat := s'.fat } := h.regrown.only
  have hdisk : s'.disk = v.disk := by
    rw [honly]
    exact hs.vol.disk
  have hbytes : Agree (s'.fileBytes cl) (v.fileBytes f.cluster) (secSize * (v.chainAt f.cluster).length) := by
    have := front_bytes v.disk v.geo h.regrown.front
    rw [Nat.min_eq_left h.front.length_le] at this
    rw [fileBytes_eq, fileBytes_eq, h.chain_eq, hdisk, (h.regrown.outside hs.vol).geo]
    exact this
  rcases h.cases hw hs with ⟨-, -, h2, -⟩ | ⟨-, -, h3⟩
  · refine hbytes.mono ?_
    rw [h.entry.len h.isDir, ← h2]
    exact ((hw.slot s.cwd j hs.cwd h.entry.mem).file h.kind).2
  · rw [h3]
    exact fun _ h => absurd h (Nat.not_lt_zero _)

/-- The chain that the slot does not have is nobody's. -/
theorem spare (h : RanOut v s s' j cl f l) (hw : WellFormed v) (hs : Stands v s)
    (hnone : s'.owned s.cwd j = []) : Spare s' cl := by
  refine ⟨h.chain_eq.symm ▸ h.regrown.chain, fun o ho => ?_⟩
  have hmine := h.entry.mine hw hs.cwd
  rw [h.chain_eq]
  by_cases hoj : o = .slot s.cwd j
  · subst hoj
    rw [show s'.held (.slot s.cwd j) = [] from hnone]
    exact List.disjoint_nil_right _
  · obtain ⟨hlive, x, hheld, hx0, -⟩ := (h.edit hw hs).held_other hw hs.cwd ho hoj
    have hx0 : x = [] := hx0.elim id fun h => h.1
    rw [hheld, hx0, List.append_nil]
    intro c hc hc'
    rcases h.regrown.fresh hs.vol c hc with h3 | h3
    · exact hmine o hlive hoj h3 hc'
    · exact hw.held_used hlive c hc' h3

theorem atEntry (h : RanOut v s s' j cl f l) (hw : WellFormed v) (hs : Stands v s) :
    AtEntry s' s.cwd j { f with cluster := cl } := by
  obtain ⟨hdata, hlen⟩ := h.data hw hs
  obtain ⟨hocc, hstart, hsize, hdir⟩ := slots_congr hdata hlen j
  have hf := h.entry
  refine ⟨hocc.2 hf.mem, hf.name.trans (slotName_congr hdata).1.symm, hf.off, hf.isDir.trans hdir.symm, ?_,
    fun _ => (hf.len h.isDir).trans hsize.symm, fun _ => ?_, hdata ▸ hf.mark⟩
  · rcases h.cases hw hs with ⟨-, h2, -, -⟩ | ⟨-, h2, -⟩
    · exact .inl (h2.trans hstart.symm)
    · exact .inr ⟨h.isDir, h2, h.spare hw hs h2⟩
  · obtain ⟨p, hp, hag⟩ := hf.page h.isDir
    exact ⟨p, hp, fun b hb => (hag b hb).trans (h.reads hw hs b hb).symm⟩

end RanOut

/-- **The clusters ran out**: the chain is as long as it got, and all files have the size and
contents they had. -/
theorem grow_fails (hw : WellFormed v) (hs : Stands v s) (hi : s.files[i]? = some f)
    (h : RanOut v s s' j cl f l) :
    Unwritten v s.cwd j { s' with files := s'.files.modify i fun f => { f with cluster := cl } } := by
  have hd := hs.cwd
  have hx := h.regrown
  have honly : s' = { s with fat := s'.fat } := hx.only
  obtain ⟨hdata, hlen⟩ := h.data hw hs
  obtain ⟨hocc, hstart, hsize, hdir⟩ := slots_congr hdata hlen j
  have hedit := h.edit hw hs
  have hnames : NamesKept v s' s.cwd j := fun k _ _ => slotName_congr hdata
  have hread := h.reads hw hs
  refine ⟨s', hedit.wellFormed hw hd, ?_, hedit.frame hw hd (.inl rfl) hnames, hocc.2 h.entry.mem,
    hdir.trans h.kind, (slotName_congr hdata).1, hsize, ?_⟩
  · have hcache := hs.cache.put hedit hw hd hnames hi h.entry rfl (h.atEntry hw hs) fun c hc => by
      change c ∈ s'.chainAt cl at hc
      rw [h.chain_eq] at hc
      exact hx.fresh hs.vol c hc
    have hfiles : s'.files = s.files := by rw [honly]
    have hmod := modify_eq_set hi fun f => { f with cluster := cl }
    refine hs.edit hw hedit (fun hg => ?_) ⟨rfl, rfl, rfl⟩ ?_ ?_ ?_ ?_ ?_ ?_
    · have := hg.2.1
      rw [h.kind] at this
      cases this
    · exact (hs.rel.fatOnly hx.only).same rfl rfl rfl
    · rw [honly]
    · rw [honly]
    · rw [hlen, ← hs.bytes]
      rw [honly]
    · rw [hdata, hlen]
      have := hs.page
      rw [honly]
      exact this
    · show Cache s' s.cwd (s'.files.modify i _)
      rw [hfiles, hmod]
      exact hcache
  · have hlen' := h.entry.len h.isDir
    rw [hstart]
    rcases h.cases hw hs with ⟨-, h2, -, h3⟩ | ⟨-, -, h3⟩
    · rw [hlen', h3] at hread
      rw [← h2] at hread ⊢
      exact hread
    · rw [← hlen', h3]
      exact fun _ h => absurd h (Nat.not_lt_zero _)

theorem FileAt.agree {name : Name} {data data' : Bytes} (h : FileAt v d j name data len)
    (ha : Agree data data' len) : FileAt v d j name data' len :=
  ⟨h.mem, h.isDir, h.name, h.size, fun b hb => (h.bytes b hb).trans (ha b hb)⟩

theorem fileAt_set (hi : s.files[i]? = some f) : s.fileAt i = f := by
  unfold fileAt
  rw [List.getD_eq_getElem?_getD, hi, Option.getD_some]

/-- The state of a call after the FAT and the contents of the file are written. -/
structure Ready (v s u : Fs) (own : List Nat) : Prop where
  out : Outside v u own
  rel : Reliable u
  cwd : u.cwd = s.cwd
  saved : u.savedCwd = s.savedCwd

/-- **The end of a write or a truncation.** -/
theorem rewrite_ends (hw : WellFormed v) (hs : Stands v s) (hi : s.files[i]? = some f)
    (hf : AtEntry v s.cwd j f) (hfile : f.isDir = false) (hu : Ready v s u (v.chainAt f.cluster))
    (hchain : OwnChain u cl l) (hl : l.length ≤ chainMax)
    (taken : ∀ c ∈ l, c ∈ v.chainAt f.cluster ∨ v.fatEnt c = 0) (hcl : cl < 2 ^ 16)
    (hlen : len ≤ fileMax ∧ len ≤ secSize * l.length) {p : Bytes}
    (hp : Agree p (u.fileBytes cl) len) :
    ∃ u1 u2, exec dirLoad u = (some (), u1) ∧
    exec dirStore { u1 with dir := resized u1.dir j cl len } = (some (), u2) ∧ u2.files = u.files ∧
      u2.cwd = s.cwd ∧ Wrote v s.cwd j (v.slotName s.cwd j) p len
      { u2 with files := s.files.set i { f with cluster := cl, data := some p, len := len } } := by
  have hd := hs.cwd
  set d := s.cwd
  have hmine : Mine v d j (v.chainAt f.cluster) := hf.mine hw hd
  have hkind : v.slotIsDir d j = false := hf.isDir ▸ hfile
  obtain ⟨u1, h1, h2, h3, h4⟩ := dirLoad_at hw hd hu.out (hmine.dir hw hd) hu.rel hu.cwd
  set ux : Fs := { u1 with dir := resized u1.dir j cl len } with hux
  have hux' : ux = { u with dir := ux.dir, dirBytes := ux.dirBytes } := by rw [hux, h2]
  have hent : ux.fatEnt = u.fatEnt := by
    rw [hux']
    rfl
  have hout : Outside v ux (v.chainAt f.cluster) := by
    rw [hux']
    exact ⟨⟨hu.out.geo, hu.out.fat, hu.out.disk⟩, ⟨hu.out.head, hu.out.first⟩⟩
  have hrel : Reliable ux := by
    rw [hux']
    exact hu.rel.same rfl rfl rfl
  obtain ⟨u2, h5, h6, h7, h8, h9, h10⟩ := rewrite_at len hw hd hf.mem hkind hmine hout hrel
    (by rw [hux']; exact hu.cwd) h3 h4.resized (hchain.congr (by rw [hux']) fun a _ => congrFun hent
    a) hl taken hcl hlen
  have hu2 : u2 = { u with
      disk := u2.disk, sent := u2.sent, dir := u2.dir, dirBytes := u2.dirBytes } := by
    rw [h6, hux']
  have hbytes : u2.fileBytes cl = u.fileBytes cl := by
    have hgeo : u2.geo = u.geo := by rw [hu2]
    have hat : u.chainAt cl = l := hchain.chain_eq hl
    rw [fileBytes_eq, fileBytes_eq, h7.chain, hat, hgeo]
    apply sectorBytes_congr
    intro lba hm
    obtain ⟨c, hc, rfl⟩ := List.mem_map.1 hm
    rw [hu.out.geo, h10 c hc, hux']
  have hframe : Frame v u2 d j := h7.edit.frame hw hd (.inl rfl) fun k _ hk => h7.names k hk
  have hentry : AtEntry u2 d j { f with cluster := cl, data := some p, len := len } := by
    refine ⟨h7.mem, hf.name.trans (h7.names j hf.mem).1.symm, hf.off, hfile.trans h7.isDir.symm,
      .inl h7.start.symm, fun _ => h7.size.symm, fun _ => ⟨p, rfl, ?_⟩,
      (h7.names j hf.mem).2 ▸ hf.mark⟩
    change Agree p (u2.fileBytes cl) len
    rw [hbytes]
    exact hp
  refine ⟨u1, u2, h1, h5, by rw [hu2], by rw [hu2]; exact hu.cwd, u2, h7.edit.wellFormed hw hd, ?_,
    hframe, h7.mem, h7.isDir, (h7.names j hf.mem).1, h7.size, ?_⟩
  · refine hs.edit hw h7.edit (fun hg => ?_) ⟨rfl, rfl, rfl⟩ ?_ ?_ ?_ ?_ ?_ ?_
    · have := hg.2.1
      rw [hkind] at this
      cases this
    · have hrel2 : Reliable u2 := by
        rw [h6]
        exact hrel.same rfl rfl rfl
      exact hrel2.same rfl rfl rfl
    · show u2.cwd = d
      rw [hu2]
      exact hu.cwd
    · show u2.savedCwd = s.savedCwd
      rw [hu2]
      exact hu.saved
    · show u2.dirBytes = 32 * u2.dirLen d
      rw [h8, h6]
      exact h3
    · show Agree u2.dir (u2.dirData d) (32 * u2.dirLen d)
      rw [h8]
      exact h9
    · refine hs.cache.put h7.edit hw hd (fun k _ hk => h7.names k hk) hi hf rfl hentry fun c hc => ?_
      change c ∈ u2.chainAt cl at hc
      rw [h7.chain] at hc
      exact taken c hc
  · rw [h7.start, hbytes]
    exact fun b hb => (hp b hb).symm

theorem needFor_le (h : len ≤ fileMax) : needFor len ≤ chainMax := by
  unfold needFor secSize chainMax
  unfold fileMax at h
  omega

theorem needFor_ne (h : len ≠ 0) : needFor len ≠ 0 := by
  unfold needFor secSize
  omega

/-- The chain has its new length, and the FAT is flushed. -/
theorem Regrown.flushed (hw : WellFormed v) (hs : Stands v s) (h : Regrown s s' start cl old l)
    (files : List FileEnt) :
    ∃ u, exec fatFlush { s' with files := files } = (some (), u) ∧ Ready v s u old ∧ OwnChain u cl l ∧
      u = { s with fat := u.fat, disk := u.disk, sent := u.sent, files := files } ∧ u.fatEnt = s'.fatEnt ∧
      ∀ lba, lba ∉ v.geo.fatSectors → u.disk lba = v.disk lba := by
  have hout := h.outside hs.vol
  have honly : s' = { s with fat := s'.fat } := h.only
  set s2 : Fs := { s' with files := files } with hs2
  have hgeo : s2.geo = v.geo := hout.geo
  have hrel : Reliable s2 := (hs.rel.fatOnly h.only).same rfl rfl rfl
  obtain ⟨u, h1, h2, h3⟩ := fatFlush_spec hrel (hgeo ▸ hw.geo)
  rw [hgeo] at h3
  have hu : u = { s2 with disk := u.disk, sent := u.sent } := h2
  have hout2 : Outside v s2 old := ⟨⟨hout.geo, hout.fat, hout.disk⟩, ⟨hout.head, hout.first⟩⟩
  have hent : u.fatEnt = s'.fatEnt := by
    rw [hu]
    rfl
  refine ⟨u, h1, ⟨hout2.flush hw h2 h3, hrel.diskOnly h2, ?_, ?_⟩, ?_, ?_, hent, fun lba hl => ?_⟩
  · rw [hu, hs2, honly]
  · rw [hu, hs2, honly]
  · exact h.chain.congr (by rw [hu]) fun a _ => congrFun hent a
  · rw [hu, hs2, honly]
  · rw [h3 lba hl, hs2]
    show s'.disk lba = _
    rw [honly]
    exact congrFun hs.vol.disk lba

theorem Regrown.sameFiles (h : Regrown s s' start cl old l) : s'.files = s.files := by
  rw [show s' = _ from h.only]

/-- The contents are stored in the new chain. -/
theorem Ready.store (hw : WellFormed v) (hu : Ready v s u own) (hchain : OwnChain u cl l)
    (hl : l.length = needFor len) (taken : ∀ c ∈ l, c ∈ own ∨ v.fatEnt c = 0) (src : Bytes)
    (hlen : len ≤ fileMax) :
    ∃ u', exec (storeChain cl src len) u = (some (), u') ∧ Ready v s u' own ∧ OwnChain u' cl l ∧
    u'.files = u.files ∧
      Agree src (u'.fileBytes cl) len := by
  obtain ⟨u', h1, h2⟩ := storeChain_spec hu.rel hchain.links hchain.inside src hlen
  rw [if_pos (Nat.le_of_eq hl.symm)] at h1
  rw [← hl, List.take_length] at h2
  have hu' : u' = { u with disk := u'.disk, sent := u'.sent } := h2.only
  have hent : u'.fatEnt = u.fatEnt := by
    rw [hu']
    rfl
  have hchain' : OwnChain u' cl l := hchain.congr (by rw [hu']) fun a _ => congrFun hent a
  have hmax : l.length ≤ chainMax := hl ▸ needFor_le hlen
  have hat : u'.chainAt cl = l := hchain'.chain_eq hmax
  refine ⟨u', h1,
    ⟨hu.out.store hw h2.only (l := l)
      (fun c hc => ⟨hchain.two_le c hc, hu.out.geo ▸ hchain.inside c hc, taken c hc⟩) fun lba hm =>
    ?_, ?_, ?_, ?_⟩, hchain', by rw [hu'], fun b hb => ?_⟩
  · rw [← hu.out.geo] at hm
    exact h2.other lba hm
  · exact hu.rel.diskOnly h2.only
  · rw [hu']
    exact hu.cwd
  · rw [hu']
    exact hu.saved
  · have hgeo : u'.geo = u.geo := by rw [hu']
    have hsec : b < secSize * l.length := by
      rw [hl]
      exact Nat.lt_of_lt_of_le hb (needFor_spec len).1
    rw [fileBytes_eq, hat, hgeo, h2.bytes b hsec, if_pos hb]

theorem cluster_small (h : OwnChain u cl l) (hl : l ≠ []) : cl < 2 ^ 16 := by
  have hlinks := h.links
  cases l with
  | nil => exact absurd rfl hl
  | cons a l =>
    obtain ⟨rfl, hlive, -⟩ := Links.cons_iff.1 hlinks
    have := (isCluster_iff.1 hlive).2
    unfold fat12Eof at this
    omega

theorem exec_putSize (off cl len : Nat) (s : Fs) (h : off = 32 * j) :
    exec (putSize off cl len) s = (some (), { s with dir := resized s.dir j cl len }) := by
  subst h
  rfl

theorem exec_modFile (i : Nat) (g : FileEnt → FileEnt) (s : Fs) :
    exec (modFile i g) s = (some (), { s with files := s.files.modify i g }) := rfl

/-- **`fs_write`** of a file in the cache: the file has the contents, or all files are as before. -/
theorem writeFile_wrote (hw : WellFormed v) (hs : Stands v s) (hi : s.files[i]? = some f)
    (hf : AtEntry v s.cwd j f) (hfile : f.isDir = false) (src : Bytes) (len : Nat) :
    Triple (fun s' => s' = s) (writeFile i src len)
      (fun _ s' => len = 0 ∧ s' = s ∨ len ≠ 0 ∧ Wrote v s.cwd j (v.slotName s.cwd j) src len s' ∧ Seated s s')
      (Unwritten v s.cwd j) := by
  rintro s rfl
  have hkind : v.slotIsDir s.cwd j = false := hf.isDir ▸ hfile
  have hsame : Unwritten v s.cwd j s := hs.unwritten hw hf.mem hkind
  unfold writeFile
  by_cases h0 : len = 0
  · rw [if_pos h0]
    exact ⟨fun _ _ => .inl ⟨h0, rfl⟩, nofun⟩
  rw [if_neg h0]
  by_cases hmax : len ≤ fileMax
  · have hold : OwnChain s f.cluster (v.chainAt f.cluster) := (hf.chain hw hs.cwd).sameVol hs.vol
    obtain ⟨cl, ok, s1, l, hx, hgrow, htrue, hfalse⟩ := fatResize_cases (hs.vol.geo ▸ hw.geo) hold
      (v.chainAt_length _) ⟨needFor_ne h0, needFor_le hmax⟩
    rw [exec_bind_of (show exec (need _) s = (some (), s) by simp [hmax]), exec_bind_of (exec_gets _ _)]
    simp only [id, fileAt_set hi]
    rw [exec_bind_of hx, exec_bind_of (exec_modFile _ _ _)]
    cases ok with
    | false =>
      obtain ⟨h1, h2⟩ := hfalse rfl
      exact ⟨nofun, fun _ => grow_fails hw hs hi ⟨hf, hfile, hgrow, h1, h2⟩⟩
    | true =>
      have hl := htrue rfl
      have hfresh := hgrow.fresh hs.vol
      obtain ⟨u, h1, hu, hchain, hstate, -⟩ :=
        hgrow.flushed hw hs (s1.files.modify i fun f => { f with cluster := cl })
      have hfiles : u.files = s.files.modify i fun f => { f with cluster := cl } := by
        rw [hstate, hgrow.sameFiles]
      obtain ⟨u', h2, hu', hchain', hfiles', hread⟩ := hu.store hw hchain hl hfresh src hmax
      obtain ⟨p, hp, -⟩ := hf.page hfile
      have hagree : Agree (putBytes p 0 src len) (u'.fileBytes cl) len := fun b hb => by
        rw [← hread b hb]
        unfold putBytes
        rw [if_pos (by omega), Nat.sub_zero]
      have hcl : cl < 2 ^ 16 := cluster_small hchain' fun e => needFor_ne h0 (by rw [← hl, e]; rfl)
      have hfit : len ≤ fileMax ∧ len ≤ secSize * l.length := ⟨hmax, hl ▸ (needFor_spec len).1⟩
      obtain ⟨u1, u2, h3, h4, h5, hcwd, h6⟩ := rewrite_ends hw hs hi hf hfile hu' hchain'
        hgrow.short hfresh hcl hfit hagree
      rw [exec_bind_of (show exec (need true) _ = (some (), _) from rfl), exec_bind_of h1,
        exec_bind_of h2, exec_bind_of h3, exec_bind_of (exec_putSize _ _ _ _ hf.off),
        exec_bind_of h4, exec_modFile]
      refine ⟨fun _ _ => .inr ⟨h0, ?_⟩, nofun⟩
      have hset : u2.files.modify i
        (fun g => { g with data := g.data.map fun d => putBytes d 0 src len, len := len }) =
          s.files.set i { f with cluster := cl, data := some (putBytes p 0 src len), len := len } := by
        rw [h5, hfiles', hfiles, modify_eq_set hi]
        rw [modify_eq_set (f := { f with cluster := cl })
          (by rw [List.getElem?_set_self (List.getElem?_eq_some_iff.1 hi).1]), List.set_set, hp]
        rfl
      simp only [hset]
      obtain ⟨v', h7, h8, h9, h10⟩ := h6
      exact ⟨⟨v', h7, h8, h9, h10.agree fun b hb => (hagree b hb).trans (hread b hb).symm⟩, hcwd,
        List.length_set⟩
  · rw [exec_bind, exec_need]
    rw [if_neg (by simpa using hmax)]
    exact ⟨nofun, fun _ => hsame⟩

end VampireOS.Fs
