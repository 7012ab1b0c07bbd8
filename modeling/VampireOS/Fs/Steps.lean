import VampireOS.Fs.Stands

/-!
# The steps of a call that writes (kernel/fs.c:500, 541-728, 897-1000)

A call changes the FAT, flushes it, writes clusters of its own, and loads the directory, changes the
page and stores it. `Outside v u own` holds up to the last of these; storing the page makes an
`Edit` of it.
-/

namespace VampireOS.Fs

open Lib

variable {v v' u u' s s' : Fs} {b b' c' : Bytes} {d j k n m a c cl : Nat} {own ext l : List Nat}

/-! ## The FAT and the clusters -/

theorem SameVol.fatEnt (h : SameVol v s) : s.fatEnt = v.fatEnt := by
  funext c
  unfold Fs.fatEnt
  rw [h.geo, h.fat]

theorem SameVol.outside (h : SameVol v s) (own : List Nat) : Outside v s own where
  geo := h.geo
  fat := fun c _ _ _ _ => congrFun h.fatEnt c
  disk := fun c _ _ _ _ => by rw [h.disk]
  head := congrFun h.fatEnt 1
  first := by rw [h.disk]

namespace Outside

theorem mono (h : Outside v u own) (hl : own ⊆ l) : Outside v u l where
  geo := h.geo
  fat := fun c h2 hc hu hout => h.fat c h2 hc hu fun hm => hout (hl hm)
  disk := fun c h2 hc hu hout => h.disk c h2 hc hu fun hm => hout (hl hm)
  head := h.head
  first := h.first

/-- Other entries of the FAT. -/
theorem fatStep (h : Outside v u own) (ho : FatOnly u u')
    (hf : ∀ c, c ∉ own → v.fatEnt c ≠ 0 → u'.fatEnt c = u.fatEnt c)
      (h1 : u'.fatEnt 1 = u.fatEnt 1) : Outside v u' own := by
  have hdisk : u'.disk = u.disk := by rw [show u' = _ from ho]
  constructor
  · constructor
    · exact ho.geo.trans h.geo
    · intro c h2 hc hu hout
      rw [hf c hout hu]
      exact h.fat c h2 hc hu hout
    · intro c h2 hc hu hout
      rw [hdisk]
      exact h.disk c h2 hc hu hout
  · constructor
    · exact h1.trans h.head
    · rw [hdisk]
      exact h.first

/-- Sectors that are neither in use outside the list nor the first of the root. -/
theorem diskStep (h : Outside v u own) (ho : DiskOnly u u')
    (hd : ∀ c, 2 ≤ c → c ≤ v.geo.clusters + 1 → v.fatEnt c ≠ 0 → c ∉ own →
      u'.disk (v.geo.dataLba c) = u.disk (v.geo.dataLba c))
    (h1 : u'.disk v.geo.firstRoot = u.disk v.geo.firstRoot) : Outside v u' own := by
  have hent : u'.fatEnt = u.fatEnt := by
    rw [show u' = _ from ho]
    rfl
  constructor
  · constructor
    · rw [show u' = _ from ho]
      exact h.geo
    · intro c h2 hc hu hout
      rw [hent]
      exact h.fat c h2 hc hu hout
    · intro c h2 hc hu hout
      rw [hd c h2 hc hu hout]
      exact h.disk c h2 hc hu hout
  · constructor
    · rw [hent]
      exact h.head
    · rw [h1]
      exact h.first

theorem flush (h : Outside v u own) (hw : WellFormed v) (ho : DiskOnly u u')
    (hd : ∀ lba, lba ∉ v.geo.fatSectors → u'.disk lba = u.disk lba) :
    Outside v u' own :=
  h.diskStep ho (fun _ h2 hc _ _ => hd _ (hw.data_not_fat h2 hc)) (hd _ hw.geo.separate.fatRoot)

/-- Clusters of the list, or free ones, get other contents. -/
theorem store (h : Outside v u own) (hw : WellFormed v) (ho : DiskOnly u u')
    (hl : ∀ c ∈ l, 2 ≤ c ∧ c ≤ v.geo.clusters + 1 ∧ (c ∈ own ∨ v.fatEnt c = 0))
    (hd : ∀ lba, lba ∉ l.map v.geo.dataLba → u'.disk lba = u.disk lba) : Outside v u' own := by
  apply h.diskStep ho
  · intro c h2 hc hu hout
    apply hd
    intro hm
    obtain ⟨x, hx, e⟩ := List.mem_map.1 hm
    obtain ⟨hx2, hxc, hx'⟩ := hl x hx
    rw [hw.geo.separate.clusters ⟨hx2, hxc⟩ ⟨h2, hc⟩ e] at hx'
    exact hx'.elim hout hu
  · apply hd
    intro hm
    obtain ⟨x, hx, e⟩ := List.mem_map.1 hm
    obtain ⟨hx2, hxc, -⟩ := hl x hx
    exact hw.geo.separate.rootData ⟨x, ⟨hx2, hxc⟩, e⟩

/-- The directory is the old one, when its clusters are not in the list. -/
theorem dirAt (h : Outside v u own) (hw : WellFormed v) (hd : Dir v d) (ho : own.Disjoint (v.dirClusters d)) :
    DirChain u d (v.dirClusters d) ∧ u.dirData d = v.dirData d ∧ u.dirLen d = v.dirLen d :=
  h.toKept.dir (fun _ => h.toKeptRoot) (hw.dirChain hd) ho

end Outside

/-- No cluster of the directory is among those of a slot. -/
theorem Mine.dir (hw : WellFormed v) (hd : Dir v d) (h : Mine v d j own) :
    own.Disjoint (v.dirClusters d) := by
  obtain ⟨o, ho, hh⟩ := hd.home
  rw [← hw.home_held ho hh]
  apply h o ho
  rintro rfl
  obtain ⟨hdir, e⟩ := hh.slot_inv
  exact hw.not_self hd j ho.2 hdir e

/-! ## The page of the directory -/

/-- `dir_load` in a directory that is still the old one. -/
theorem dirLoad_at (hw : WellFormed v) (hd : Dir v d) (h : Outside v u own)
    (ho : own.Disjoint (v.dirClusters d)) (hr : Reliable u) (hc : u.cwd = d) :
    ∃ u', exec dirLoad u = (some (), u') ∧ u' = { u with dir := u'.dir, dirBytes := u'.dirBytes } ∧
      u'.dirBytes = 32 * v.dirLen d ∧ Agree u'.dir (v.dirData d) (32 * v.dirLen d) := by
  obtain ⟨hchain, hdata, hlen⟩ := h.dirAt hw hd ho
  subst hc
  obtain ⟨u', h1, h2, h3, h4⟩ := dirLoad_total hr (h.geo ▸ hw.geo) hchain
  have herrs : u'.errs = u.errs := by
    have := (dirLoad_cached u).errs hr.errs
    rw [h1] at this
    rw [this, hr.errs]
  refine ⟨u', h1, ?_, ?_, ?_⟩
  · rw [show u' = { u with errs := u'.errs, dir := u'.dir, dirBytes := u'.dirBytes } from h2, herrs]
  · rw [h4, ← hlen, hchain.len]
    unfold secSize
    omega
  · rw [← hdata, ← hlen, hchain.data, hchain.len]
    exact h3.mono (by unfold secSize; omega)

/-- `dir_store` has written the page to the directory. -/
structure DirStored (u u' : Fs) (d : Nat) (l : List Nat) : Prop where
  only : DiskOnly u u'
  other : ∀ lba, lba ∉ sectorsOf u.geo d l → u'.disk lba = u.disk lba
  chain : DirChain u' d l
  page : Agree (u'.dirData d) u.dir (32 * u.dirLen d)

theorem DirChain.same (h : DirChain u d l) (hgeo : u'.geo = u.geo) (hent : u'.fatEnt = u.fatEnt) :
    DirChain u' d l := by
  refine ⟨?_, h.length, h.ne⟩
  have hhead : u'.dirHead d = u.dirHead d := by
    unfold dirHead
    rw [hent]
  rw [hhead]
  exact h.chain.congr hgeo.symm fun a _ => congrFun hent a

theorem DirChain.diskOnly (h : DirChain u d l) (ho : DiskOnly u u') : DirChain u' d l := by
  apply h.same
  · rw [show u' = _ from ho]
  · rw [show u' = _ from ho]
    rfl

theorem dirStore_at (hr : Reliable u) (hg : u.geo.Sane) (h : DirChain u d l) (hc : u.cwd = d)
    (hb : u.dirBytes = 32 * u.dirLen d) :
    ∃ u', exec dirStore u = (some (), u') ∧ DirStored u u' d l := by
  subst hc
  have hb' : u.dirBytes = secSize * (sectorsOf u.geo u.cwd l).length := by
    rw [hb, h.len]
    unfold secSize
    omega
  obtain ⟨u', h1, h2, h3, h4⟩ := dirStore_spec hr hg h hb'
  have hchain := h.diskOnly h2
  refine ⟨u', h1, h2, h3, hchain, ?_⟩
  have hgeo : u'.geo = u.geo := by rw [show u' = _ from h2]
  rw [hchain.data, hgeo, ← hb]
  exact h4

/-! ## What the other slots have -/

theorem SlotsKept.congr (h : SlotsKept b b' n j) (ha : Agree c' b' (32 * n)) : SlotsKept b c' n j := by
  intro k hk hne
  obtain ⟨h1, h2⟩ := h k hk hne
  have hbyte : ∀ i < 32, c' (32 * k + i) = b' (32 * k + i) := fun i hi => ha _ (by omega)
  have hmark : c' (32 * k) = b' (32 * k) := ha _ (by omega)
  refine ⟨?_, fun ho => ⟨?_, fun i hi hlt => ?_⟩⟩
  · rw [← h1]
    unfold ownsChain
    rw [hmark, hbyte 11 (by decide)]
  · rw [hbyte 11 (by decide)]
    exact (h2 ho).attr
  · rw [hbyte i hlt]
    exact (h2 ho).last i hi hlt

theorem Tidy.congr (h : Tidy b' n) (ha : Agree c' b' (32 * n)) : Tidy c' n := by
  constructor
  · intro k m hkm hm h0
    rw [ha _ (by omega)] at h0 ⊢
    exact h.zero k m hkm hm h0
  · intro k hk hf h11
    rw [ha _ (by omega)] at hf h11
    obtain ⟨h1, h2⟩ := h.long k hk hf h11
    rw [ha _ (by omega)]
    exact ⟨h1, h2⟩

theorem Block.congr (h : Block b b' n a j) (hj : j < n) (ha : Agree c' b' (32 * n)) : Block b c' n a j := by
  have hmark : ∀ k < n, c' (32 * k) = b' (32 * k) ∧ c' (32 * k + 11) = b' (32 * k + 11) :=
    fun k hk => ⟨ha _ (by omega), ha _ (by omega)⟩
  refine ⟨h.le, fun k hk hout i hi => ?_, fun k h1 h2 => ⟨(h.hidden k h1 h2).1, ?_⟩, h.old, ?_⟩
  · rw [ha _ (by omega)]
    exact h.same k hk hout i hi
  · have := (h.hidden k h1 h2).2
    unfold ownsChain at this ⊢
    rw [(hmark k (by omega)).1, (hmark k (by omega)).2]
    exact this
  · have := h.new
    unfold Breaks at this ⊢
    rw [(hmark j hj).1, (hmark j hj).2]
    exact this

/-- Behind the directory there is nothing. -/
theorem owns_lt (h : DirChain v d l) (ho : ownsChain (v.dirData d) k = true) : k < v.dirLen d := by
  by_contra hle
  apply owns_mark ho
  have hlen := h.len
  rw [h.data]
  unfold sectorBytes
  rw [List.getElem?_eq_none_iff.2]
  · rfl
  · unfold secSize
    omega

theorem SameTail.slot (h : SameTail (v.dirData d) (v'.dirData d) k) : SameSlot83 v v' d k := by
  constructor
  · unfold slotStart rdU16
    simp only [Nat.add_assoc, Nat.reduceAdd]
    rw [h.last 26 (by decide) (by decide), h.last 27 (by decide) (by decide)]
  · unfold slotSize rdU32
    simp only [Nat.add_assoc, Nat.reduceAdd]
    rw [h.last 28 (by decide) (by decide), h.last 29 (by decide) (by decide),
      h.last 30 (by decide) (by decide), h.last 31 (by decide) (by decide)]
  · unfold slotIsDir
    rw [h.attr]

/-- **Storing the page ends the edit.** -/
theorem DirStored.edit (hw : WellFormed v) (hd : Dir v d) (hk : Kept v u (v.dirClusters d ++ own))
    (hr : d ≠ 0 → KeptRoot v u) (hs : DirStored u u' d (v.dirClusters d ++ ext))
    (hc : DirChain u d (v.dirClusters d ++ ext)) (free : ∀ c ∈ ext, v.fatEnt c = 0)
    (mine : Mine v d j own) (hp : Agree u.dir b' (32 * u.dirLen d))
    (slots : SlotsKept (v.dirData d) b' (u.dirLen d) j)
    (low : 2 ≤ d → ∀ i < 64, b' i = v.dirData d i) (tidy : Tidy b' (u.dirLen d))
    (self : u'.Occupied d j → NewSlot v u' d j own ext)
    (gone : v.Occupied d j → v.slotIsDir d j = true → ∀ k, ¬ v.Occupied (v.slotStart d j) k) :
    Edit v u' d j own ext := by
  have hgeo : u'.geo = u.geo := by rw [show u' = _ from hs.only]
  have hent : u'.fatEnt = u.fatEnt := by
    rw [show u' = _ from hs.only]
    rfl
  have hlen : u'.dirLen d = u.dirLen d := by rw [hs.chain.len, hc.len, hgeo]
  have hold := hw.dirChain hd
  have hle : v.dirLen d ≤ u.dirLen d := by
    rw [hold.len, hc.len, hk.geo]
    unfold sectorsOf
    simp only [List.length_append, List.length_map]
    omega
  have hpage : Agree (u'.dirData d) b' (32 * u.dirLen d) := fun i hi => (hs.page i hi).trans (hp i hi)
  have hslots := slots.congr hpage
  have hpos : 2 ≤ u.dirLen d := by
    have hne := List.length_pos_of_ne_nil hc.sectors_ne
    rw [hc.len]
    omega
  have hsep := hw.geo.separate
  -- a cluster in use is not among those of the directory
  have hdisk : ∀ c, 2 ≤ c → c ≤ v.geo.clusters + 1 → v.fatEnt c ≠ 0 → c ∉ v.dirClusters d →
      v.geo.dataLba c ∉ sectorsOf u.geo d (v.dirClusters d ++ ext) := by
    intro c h2 hcl hu hout hm
    rw [hk.geo] at hm
    unfold sectorsOf at hm
    rcases List.mem_append.1 hm with hm | hm
    · split at hm
      · rw [List.mem_singleton] at hm
        exact hsep.rootData ⟨c, ⟨h2, hcl⟩, hm⟩
      · cases hm
    · obtain ⟨x, hx, e⟩ := List.mem_map.1 hm
      have hx2 := hc.chain.two_le x hx
      have hxc := hc.chain.inside x hx
      rw [hk.geo] at hxc
      rw [hsep.clusters ⟨hx2, hxc⟩ ⟨h2, hcl⟩ e] at hx
      rcases List.mem_append.1 hx with hx | hx
      · exact hout hx
      · exact hu (free c hx)
  constructor
  · constructor
    · exact hgeo.trans hk.geo
    · intro c h2 hcl hu hout
      rw [hent]
      exact hk.fat c h2 hcl hu hout
    · intro c h2 hcl hu hout
      rw [hs.other _ (hdisk c h2 hcl hu fun hm => hout (List.mem_append_left _ hm))]
      exact hk.disk c h2 hcl hu hout
  · intro h0
    have h2 := hw.two_le hd h0
    constructor
    · rw [hent]
      exact (hr h0).head
    · rw [hs.other _ ?_]
      · exact (hr h0).first
      · rw [hk.geo]
        unfold sectorsOf
        rw [if_neg (by omega), List.nil_append]
        intro hm
        obtain ⟨x, hx, e⟩ := List.mem_map.1 hm
        have hxc := hc.chain.inside x hx
        rw [hk.geo] at hxc
        exact hsep.rootData ⟨x, ⟨hc.chain.two_le x hx, hxc⟩, e⟩
  · exact hs.chain
  · exact free
  · exact mine
  · intro k hne
    constructor
    · constructor
      · rintro ⟨hlt, ho⟩
        rw [hlen] at hlt
        rw [(hslots k hlt hne).1] at ho
        exact ⟨owns_lt hold ho, ho⟩
      · rintro ⟨hlt, ho⟩
        have hlt' : k < u.dirLen d := by omega
        exact ⟨hlen ▸ hlt', by rw [(hslots k hlt' hne).1]; exact ho⟩
    · rintro ⟨hlt, ho⟩
      exact ((hslots k (by omega) hne).2 ho).slot
  · intro h2 i hi
    rw [hpage i (by omega)]
    exact low h2 i hi
  · rw [hlen]
    exact tidy.congr hpage
  · exact self
  · exact gone

/-- The dots of a subdirectory. -/
theorem WellFormed.dots (hw : WellFormed v) (hd : Dir v d) (h2 : 2 ≤ d) :
    v.dirData d 0 = dot ∧ v.dirData d 32 = dot ∧ v.dirData d 43 ≠ 0x0F := by
  cases hd with
  | root => omega
  | @sub p q hp hq hdir =>
    have hdots := ((hw.slot p q hp hq).dir hdir).2
    have hfirst : ∀ i < secSize, v.dirData (v.slotStart p q) i = v.disk (v.geo.dataLba (v.slotStart p q)) i :=
      fun i hi => (hw.dirChain (.sub hp hq hdir)).first h2 hi
    rw [hfirst 0 (by decide), hfirst 32 (by decide), hfirst 43 (by decide)]
    exact ⟨hdots.dot, hdots.dots, hdots.attr⟩

/-- The dots own nothing. -/
theorem Occupied.two_le (h : v.Occupied d j) (hw : WellFormed v) (hd : Dir v d) (h2 : 2 ≤ d) : 2 ≤ j := by
  obtain ⟨h0, h1, -⟩ := hw.dots hd h2
  have hown := h.2
  by_contra hlt
  have hj : j = 0 ∨ j = 1 := by omega
  unfold ownsChain at hown
  rcases hj with rfl | rfl
  · rw [Nat.mul_zero, h0] at hown
    simp at hown
  · rw [Nat.mul_one, h1] at hown
    simp at hown

theorem WellFormed.dirLen_ge (hw : WellFormed v) (hd : Dir v d) : 16 ≤ v.dirLen d := by
  have hchain := hw.dirChain hd
  have := List.length_pos_of_ne_nil hchain.sectors_ne
  rw [hchain.len]
  omega

/-- A directory that has not grown is stored with the page `b'`. -/
structure Paged (v u u' : Fs) (d j : Nat) (own : List Nat) (b' : Bytes) : Prop where
  state : u' = { u with disk := u'.disk, sent := u'.sent }
  other : ∀ c, 2 ≤ c → c ≤ v.geo.clusters + 1 → c ∉ v.dirClusters d → u'.disk (v.geo.dataLba c) =
    u.disk (v.geo.dataLba c)
  len : u'.dirLen d = v.dirLen d
  page : Agree (u'.dirData d) b' (32 * v.dirLen d)
  edit : (u'.Occupied d j → NewSlot v u' d j own []) → (v.Occupied d j → v.slotIsDir d j = true →
    ∀ k, ¬ v.Occupied (v.slotStart d j) k) →
    Edit v u' d j own []

theorem page_at (hw : WellFormed v) (hd : Dir v d) (mine : Mine v d j own) (h : Outside v u own)
    (hr : Reliable u) (hc : u.cwd = d) (hb : u.dirBytes = 32 * v.dirLen d)
    (hp : Agree u.dir b' (32 * v.dirLen d)) (slots : SlotsKept (v.dirData d) b' (v.dirLen d) j)
    (low : 2 ≤ d → ∀ i < 64, b' i = v.dirData d i) (tidy : Tidy b' (v.dirLen d)) :
    ∃ u', exec dirStore u = (some (), u') ∧ Paged v u u' d j own b' := by
  obtain ⟨hchain, -, hlen⟩ := h.dirAt hw hd (mine.dir hw hd)
  obtain ⟨u', h1, h2⟩ := dirStore_at hr (h.geo ▸ hw.geo) hchain hc (hlen.symm ▸ hb)
  have hgeo : u'.geo = u.geo := by rw [show u' = _ from h2.only]
  have hsep := hw.geo.separate
  refine ⟨u', h1, h2.only, ?_, ?_, ?_, fun self gone => ?_⟩
  · intro c hc2 hcl hout
    apply h2.other
    rw [h.geo]
    intro hm
    rcases List.mem_append.1 hm with hm | hm
    · split at hm
      · rw [List.mem_singleton] at hm
        exact hsep.rootData ⟨c, ⟨hc2, hcl⟩, hm⟩
      · cases hm
    · obtain ⟨x, hx, e⟩ := List.mem_map.1 hm
      have hxc := hchain.chain.inside x hx
      rw [h.geo] at hxc
      rw [hsep.clusters ⟨hchain.chain.two_le x hx, hxc⟩ ⟨hc2, hcl⟩ e] at hx
      exact hout hx
  · rw [h2.chain.len, (hw.dirChain hd).len, hgeo, h.geo]
  · intro i hi
    rw [h2.page i (hlen.symm ▸ hi), hp i hi]
  · have hkept : Kept v u (v.dirClusters d ++ own) :=
      ⟨h.geo, fun c a b hu hout => h.fat c a b hu fun hm => hout (List.mem_append_right _ hm),
        fun c a b hu hout => h.disk c a b hu fun hm => hout (List.mem_append_right _ hm)⟩
    rw [← List.append_nil (v.dirClusters d)] at h2 hchain
    rw [← hlen] at hp slots tidy
    exact h2.edit hw hd hkept (fun _ => h.toKeptRoot) hchain nofun mine hp slots low tidy self gone

end VampireOS.Fs
