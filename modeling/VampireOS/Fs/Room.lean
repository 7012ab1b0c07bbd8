import VampireOS.Fs.Truncate

/-!
# New entries (kernel/fs.c:650-720, 1011-1090)

`dir_slots` finds free slots in a row, in the directory as it is or in the cluster that it gets
behind its last one. The entry is put there and the page stored; only then the directory has a new
name.
-/

namespace VampireOS.Fs

open Lib

variable {v u u' u1 s s' : Fs} {b b' page : Bytes} {d i j k n p c cl nxt count len : Nat}
    {l own ext : List Nat} {f : FileEnt}

/-! ## A directory grows -/

theorem DirChain.last (h : DirChain u d l) (hc : u.cwd = d) :
    u.dirLast = l.getLastD (if d < 2 then 1 else d) := by
  unfold dirLast
  rw [hc, ← h.eq]
  split
  · next h2 => rw [dirClusters_root h2]
  · next h2 =>
    rw [dirClusters_sub (Nat.le_of_not_lt h2)]
    rfl

/-- `dir_grow` has linked a new cluster behind the directory. -/
structure Grown (u u' : Fs) (d nxt : Nat) (l : List Nat) : Prop where
  only : FatOnly u u'
  chain : DirChain u' d (l ++ [nxt])
  free : u.fatEnt nxt = 0
  other : ∀ c, c ∉ l → c ≠ nxt → (c = 1 → 2 ≤ d) → u'.fatEnt c = u.fatEnt c

theorem grown (hg : u.geo.Sane) (h : DirChain u d l) (hc : u.cwd = d)
    (hroom : (l ++ [nxt]).length ≤ if d < 2 then chainMax - 1 else chainMax)
    (ha : exec fatAlloc u = (some nxt, u1)) :
    Grown u { u1 with fat := fat12Set u1.geo u1.fat u.dirLast nxt } d nxt l := by
  obtain ⟨honly, h2, hin, hfree, hent⟩ := fatAlloc_ok ha
  have hlast := h.last hc
  rcases List.eq_nil_or_concat l with rfl | ⟨pre, prev, rfl⟩
  · -- the first extension of the root
    have hd : d < 2 := by
      by_contra hd
      exact h.ne (Nat.le_of_not_lt hd) rfl
    rw [if_pos hd] at hlast
    rw [hlast, List.getLastD_nil]
    set u' : Fs := { u1 with fat := fat12Set u1.geo u1.fat 1 nxt } with hu'
    have hmod : nxt % 4096 = nxt := Nat.mod_eq_of_lt (by
      have := hg.clusters
      unfold fat12Max at this
      omega)
    have hent' : u'.fatEnt = Function.update u1.fatEnt 1 nxt := by
      rw [hu', fatEnt_set (honly.geo ▸ hg.entry (by omega)), hmod]
    have hgeo : u'.geo = u.geo := honly.geo
    refine ⟨IsTrans.trans _ _ _ honly (show FatOnly u1 u' from rfl),
      ⟨?_, hroom, fun h2 => absurd hd (by omega)⟩, hfree, fun a ha hne h1 => ?_⟩
    · unfold dirHead
      rw [if_pos hd, hent', Function.update_self]
      apply OwnChain.single (hgeo ▸ hg.clusters) h2 (hgeo ▸ hin)
      rw [hent', Function.update_of_ne (by omega), hent, Function.update_self]
    · rw [hent', Function.update_of_ne fun e => absurd (h1 e) (by omega), hent, Function.update_of_ne hne]
  · rw [List.concat_eq_append] at *
    rw [List.getLastD_concat] at hlast
    obtain ⟨u', h3, h4⟩ := Extended.push hg.clusters h.chain.head
      (fun q hq => hg.entry (h.chain.inside q (List.mem_of_getLast? hq))) ha
    rw [List.getLast?_concat] at h3
    obtain rfl := (Prod.mk.inj h3).2
    have hhead : ((pre ++ [prev]) ++ [nxt]).headD 0 = u.dirHead d := by
      have hlinks := h.chain.links
      cases pre with
      | nil => exact (Links.cons_iff.1 hlinks).1
      | cons a pre => exact (Links.cons_iff.1 hlinks).1
    rw [hlast]
    refine ⟨h4.only, ⟨?_, hroom, fun _ e => by simp at e⟩, hfree, fun a ha hne _ => h4.other a ?_⟩
    · have hchain := h4.chain
      rw [hhead] at hchain
      have hsame : ({ u1 with fat := fat12Set u1.geo u1.fat prev nxt } : Fs).dirHead d = u.dirHead d := by
        unfold dirHead
        split
        · apply h4.other
          intro hm
          rcases List.mem_append.1 hm with hm | hm
          · exact absurd (h.chain.two_le 1 hm) (by decide)
          · rw [← List.mem_singleton.1 hm] at h2
            omega
        · rfl
      rw [hsame]
      exact hchain
    · rw [List.mem_append, List.mem_singleton, not_or]
      exact ⟨ha, hne⟩

/-! ## Free slots -/

/-- Behind the slots of a directory there are zeros. -/
theorem dirData_beyond (h : DirChain v d l) (hn : 32 * v.dirLen d ≤ i) : v.dirData d i = 0 := by
  rw [h.data]
  unfold sectorBytes
  rw [List.getElem?_eq_none_iff.2]
  · rfl
  · have hlen := h.len
    unfold secSize
    omega

/-- So a longer directory is tidy too. -/
theorem Tidy.grow (h : Tidy b n) (h0 : ∀ i, 32 * n ≤ i → b i = 0) (hn : n ≤ k) : Tidy b k := by
  constructor
  · intro x y hxy hy hx
    rcases Nat.lt_or_ge y n with hlt | hge
    · exact h.zero x y hxy hlt hx
    · exact h0 _ (by omega)
  · intro x _ hf h11
    rcases Nat.lt_or_ge x n with hlt | hge
    · obtain ⟨h1, h2⟩ := h.long x hlt hf h11
      exact ⟨by omega, h2⟩
    · rw [h0 _ (by omega)] at hf
      cases hf

/-- The page of the directory is loaded. -/
structure PageAt (v u u' : Fs) (d : Nat) : Prop where
  state : u' = { u with dir := u'.dir, dirBytes := u'.dirBytes }
  bytes : u'.dirBytes = 32 * v.dirLen d
  page : Agree u'.dir (v.dirData d) (32 * v.dirLen d)

/-- The page of the directory is loaded; `ext` is the cluster that the directory may have got behind
its last one. -/
structure Opened (v u u' : Fs) (d : Nat) (ext : List Nat) : Prop where
  state : u' = { u with
    fat := u'.fat, disk := u'.disk, sent := u'.sent, dir := u'.dir, dirBytes := u'.dirBytes }
  kept : Kept v u' (v.dirClusters d)
  root : d ≠ 0 → KeptRoot v u'
  chain : DirChain u' d (v.dirClusters d ++ ext)
  free : ∀ c ∈ ext, v.fatEnt c = 0 ∧ u.fatEnt c = 0
  bytes : u'.dirBytes = 32 * u'.dirLen d
  page : Agree u'.dir (v.dirData d) (32 * u'.dirLen d)
  longer : v.dirLen d ≤ u'.dirLen d
  fat : ∀ c, 2 ≤ c → c ∉ v.dirClusters d → u.fatEnt c ≠ 0 → u'.fatEnt c = u.fatEnt c
  disk : ∀ lba, lba ∉ v.geo.fatSectors → u'.disk lba = u.disk lba

theorem PageAt.fatEnt (h : PageAt v u u' d) : u'.fatEnt = u.fatEnt := by
  rw [h.state]
  rfl

theorem PageAt.outside (h : PageAt v u u' d) (ho : Outside v u own) : Outside v u' own := by
  rw [h.state]
  exact ⟨⟨ho.geo, ho.fat, ho.disk⟩, ⟨ho.head, ho.first⟩⟩

theorem PageAt.opened (hw : WellFormed v) (hd : Dir v d) (h : Outside v u [])
      (hl : PageAt v u u' d) : Opened v u u' d [] := by
  have hout := hl.outside h
  obtain ⟨hchain, -, hlen⟩ := hout.dirAt hw hd (List.disjoint_nil_left _)
  have hstate := hl.state
  refine ⟨by rw [hstate], hout.mono (List.nil_subset _) |>.toKept, fun _ => hout.toKeptRoot, ?_,
    nofun, ?_, ?_, Nat.le_of_eq hlen.symm, fun c _ _ _ => ?_, fun lba _ => by rw [hstate]⟩
  · rwa [List.append_nil]
  · rw [hlen]
    exact hl.bytes
  · rw [hlen]
    exact hl.page
  · rw [hl.fatEnt]

theorem Opened.trans (h : PageAt v u u1 d) (ho : Opened v u1 u' d ext) : Opened v u u' d ext := by
  have hent := h.fatEnt
  have hstate := h.state
  refine ⟨?_, ho.kept, ho.root, ho.chain, ?_, ho.bytes, ho.page, ho.longer, ?_, ?_⟩
  · rw [ho.state, hstate]
  · rw [← hent]
    exact ho.free
  · rw [← hent]
    exact ho.fat
  · intro lba hl
    rw [ho.disk lba hl, hstate]

/-- The FAT is flushed (`u'`), and the page gets zeros for the new cluster. -/
theorem Grown.opened {u2 : Fs} (hw : WellFormed v) (hd : Dir v d) (h : Outside v u [])
    (hg : Grown u u2 d nxt (v.dirClusters d)) (hin : 2 ≤ nxt ∧ nxt ≤ v.geo.clusters + 1)
    (hb : u.dirBytes = 32 * v.dirLen d) (hp : Agree u.dir (v.dirData d) (32 * v.dirLen d))
    (honly : DiskOnly u2 u') (hdisk : ∀ lba, lba ∉ v.geo.fatSectors → u'.disk lba = u2.disk lba) :
    let u'' := { u' with
      dir := putBytes u'.dir u'.dirBytes (fun _ => 0) secSize, dirBytes := u'.dirBytes + secSize }
    Opened v u u'' d [nxt] ∧ u''.dirLen d = v.dirLen d + 16 := by
  intro u''
  have hold := hw.dirChain hd
  have hu2 : u2 = { u with fat := u2.fat } := hg.only
  have hu' : u' = { u2 with disk := u'.disk, sent := u'.sent } := honly
  have hstate : ∀ b n, ({ u' with dir := b, dirBytes := n } : Fs) =
      { u with fat := u'.fat, disk := u'.disk, sent := u'.sent, dir := b, dirBytes := n } := by
    intro b n
    rw [hu', hu2]
  have hgeo : u''.geo = v.geo := by
    show u'.geo = _
    rw [hu', hu2]
    exact h.geo
  have hent : u''.fatEnt = u2.fatEnt := by
    show u'.fatEnt = _
    rw [hu']
    rfl
  have hpage : u'.dir = u.dir ∧ u'.dirBytes = u.dirBytes := by
    rw [hu', hu2]
    exact ⟨rfl, rfl⟩
  have hdisk' : ∀ lba, lba ∉ v.geo.fatSectors → u''.disk lba = u.disk lba := fun lba hl =>
    (hdisk lba hl).trans (by rw [hu2])
  have hchain : DirChain u'' d (v.dirClusters d ++ [nxt]) := (hg.chain.diskOnly honly).same rfl rfl
  have hlen : u''.dirLen d = v.dirLen d + 16 := by
    rw [hchain.len, hold.len, hgeo]
    unfold sectorsOf
    simp only [List.length_append, List.length_map, List.length_singleton]
    omega
  have hnxt : v.fatEnt nxt = 0 := by
    by_contra hu
    have h0 := hg.free
    rw [h.fat nxt hin.1 hin.2 hu nofun] at h0
    exact hu h0
  have hother : ∀ c, 2 ≤ c → c ∉ v.dirClusters d → u.fatEnt c ≠ 0 → u''.fatEnt c = u.fatEnt c := by
    intro c h2 hc hu
    rw [hent]
    exact hg.other c hc (fun e => hu (e ▸ hg.free)) fun e => by omega
  refine ⟨⟨?_, ⟨hgeo, fun c h2 hc hu hout => ?_, fun c h2 hc hu hout => ?_⟩, fun h0 => ⟨?_, ?_⟩,
    hchain, fun c hc => ?_, ?_, fun i hi => ?_, by omega, hother, hdisk'⟩, hlen⟩
  · exact hstate _ _
  · have hu' : u.fatEnt c = v.fatEnt c := h.fat c h2 hc hu nofun
    rw [hother c h2 hout (by rw [hu']; exact hu), hu']
  · rw [hdisk' _ (hw.data_not_fat h2 hc)]
    exact h.disk c h2 hc hu nofun
  · have h2 := hw.two_le hd h0
    rw [hent, hg.other 1 (fun hm => absurd (hold.chain.two_le 1 hm) (by decide)) (fun e => by omega)
      fun _ => h2]
    exact h.head
  · rw [hdisk' _ hw.geo.separate.fatRoot]
    exact h.first
  · rw [List.mem_singleton.1 hc]
    exact ⟨hnxt, hg.free⟩
  · rw [hlen]
    show u'.dirBytes + secSize = _
    rw [hpage.2, hb]
    unfold secSize
    omega
  · show putBytes u'.dir u'.dirBytes (fun _ => 0) secSize i = _
    rw [hpage.1, hpage.2, hb]
    rcases Nat.lt_or_ge i (32 * v.dirLen d) with hlt | hge
    · rw [putBytes_out (.inl hlt)]
      exact hp i hlt
    · rw [dirData_beyond hold hge]
      unfold putBytes
      rw [if_pos]
      refine ⟨hge, ?_⟩
      rw [hlen] at hi
      unfold secSize
      omega

/-- A longer directory has at most as many clusters as `dir_load` reads. -/
theorem DirChain.room {l : List Nat} (h : DirChain v d l)
    (hroom : 32 * v.dirLen d + secSize ≤ chainMax * secSize) :
    (l ++ [nxt]).length ≤ if d < 2 then chainMax - 1 else chainMax := by
  have hsect : (sectorsOf v.geo d l).length = (if d < 2 then 1 else 0) + l.length := by
    unfold sectorsOf
    rw [List.length_append, List.length_map]
    split <;> rfl
  rw [h.len, hsect] at hroom
  rw [List.length_append, List.length_singleton]
  unfold secSize chainMax at *
  split at hroom <;> split <;> omega

/-- `dir_grow` in a directory whose page is loaded. -/
theorem dirGrow_cases (hw : WellFormed v) (hd : Dir v d) (h : Outside v u []) (hr : Reliable u)
    (hc : u.cwd = d) (hb : u.dirBytes = 32 * v.dirLen d)
    (hp : Agree u.dir (v.dirData d) (32 * v.dirLen d)) : exec dirGrow u = (none, u) ∨
      ∃ u' nxt, exec dirGrow u = (some (), u') ∧ Opened v u u' d [nxt] ∧ u'.dirLen d = v.dirLen d +
      16 := by
  obtain ⟨hchain, -, -⟩ := h.dirAt hw hd (List.disjoint_nil_left _)
  unfold dirGrow
  rw [exec_bind_of (exec_gets _ _)]
  simp only [id]
  by_cases hroom : u.dirBytes + secSize ≤ chainMax * secSize
  · rw [exec_bind_of (show exec (need _) u = (some (), u) by simp [hroom])]
    cases hf : u.fatFind with
    | none =>
      refine .inl ?_
      rw [exec_bind, exec_fatAlloc_full (fatFind_none.1 hf)]
      rfl
    | some nxt =>
      have ha := exec_fatAlloc hf
      obtain ⟨h2, hin, -⟩ := fatFind_some hf
      have hg := grown (h.geo ▸ hw.geo) hchain hc ((hw.dirChain hd).room (hb ▸ hroom)) ha
      set u1 : Fs := { u with fat := fat12Set u.geo u.fat nxt fat12Eof }
      set u2 : Fs := { u1 with fat := fat12Set u1.geo u1.fat u.dirLast nxt } with hu2
      obtain ⟨u3, h1, honly, hdisk⟩ := fatFlush_spec (s := u2) (hr.fatOnly hg.only) (h.geo ▸ hw.geo)
      refine .inr ⟨_, nxt, ?_, hg.opened hw hd h ⟨h2, h.geo ▸ hin⟩ hb hp honly fun lba hl => hdisk lba ?_⟩
      · rw [exec_bind_of ha, exec_bind_of (exec_fatSet _ _ _), exec_bind_of (exec_attempt _ _)]
        simp only [hu2] at h1
        rw [h1]
        rfl
      · rw [← h.geo] at hl
        exact hl
  · refine .inl ?_
    rw [exec_bind, exec_need, if_neg (by simpa using hroom)]
    rfl

theorem dirFindRun_at (hb : s.dirBytes = 32 * n) (hp : Agree s.dir b (32 * n))
    (h : s.dirFindRun count = some k) :
    ∃ p, k = 32 * p ∧ FirstRun b n count p := by
  obtain ⟨p, rfl, hr⟩ := dirFindRun_some h
  have hents : s.dirEnts = n := by
    unfold dirEnts
    omega
  rw [hents] at hr
  exact ⟨p, rfl, hr.congr fun i hi => (hp i hi).symm⟩

/-- `dir_slots`. -/
theorem dirSlots_cases (hw : WellFormed v) (hd : Dir v d) (h : Outside v u []) (hr : Reliable u)
    (hc : u.cwd = d) (hcount : count ≠ 0 ∧ count ≤ 16) :
    (∃ u', exec (dirSlots count) u = (none, u') ∧ PageAt v u u' d) ∨
      ∃ u' p ext, exec (dirSlots count) u = (some (32 * p), u') ∧ Opened v u u' d ext ∧
      FirstRun (v.dirData d) (u'.dirLen d) count p := by
  obtain ⟨u1, h1, h2, h3, h4⟩ := dirLoad_at hw hd h (List.disjoint_nil_left _) hr hc
  have hl : PageAt v u u1 d := ⟨h2, h3, h4⟩
  have hout := hl.outside h
  have hr1 : Reliable u1 := by
    rw [h2]
    exact hr.same rfl rfl rfl
  have hc1 : u1.cwd = d := by rw [h2]; exact hc
  unfold dirSlots
  rw [exec_bind_of h1, exec_bind_of (exec_gets _ _)]
  simp only [id]
  cases hf : u1.dirFindRun count with
  | some off =>
    obtain ⟨p, rfl, hp⟩ := dirFindRun_at h3 h4 hf
    have ho := hl.opened hw hd h
    have hlen := (hout.dirAt hw hd (List.disjoint_nil_left _)).2.2
    exact .inr ⟨u1, p, [], rfl, ho, hlen.symm ▸ hp⟩
  | none =>
    rcases dirGrow_cases hw hd hout hr1 hc1 h3 h4 with hg | ⟨u2, nxt, hg, ho, hlen⟩
    · refine .inl ⟨u1, ?_, hl⟩
      dsimp only
      rw [exec_bind, hg]
      rfl
    · dsimp only
      rw [exec_bind_of hg, exec_bind_of (exec_gets _ _)]
      simp only [id]
      have hents : u2.dirEnts = v.dirLen d + 16 := by
        unfold dirEnts
        rw [ho.bytes, hlen]
        omega
      cases hf2 : u2.dirFindRun count with
      | none =>
        -- the new cluster has 16 free slots
        obtain ⟨k, h5, h6, h7⟩ := dirFindRun_none (q := v.dirLen d) hf2 hcount.1 (by omega)
        unfold freeSlot at h7
        rw [ho.page _ (by omega), dirData_beyond (hw.dirChain hd) (by omega)] at h7
        cases h7
      | some off =>
        obtain ⟨p, rfl, hp⟩ := dirFindRun_at ho.bytes ho.page hf2
        exact .inr ⟨u2, p, [nxt], rfl, .trans hl ho, hp⟩

/-! ## Entries are put there -/

/-- The slots from `p` to `p + c` are those of `page`. -/
def overlay (b page : Bytes) (p c : Nat) : Bytes :=
  fun i => if 32 * p ≤ i ∧ i < 32 * (p + c + 1) then page i else b i

theorem overlay_in (b : Bytes) (hk : p ≤ k ∧ k ≤ p + c) (hi : i < 32) :
    overlay b page p c (32 * k + i) = page (32 * k + i) := if_pos (by omega)

theorem overlay_placed (b : Bytes)
    (hlong : ∀ k, p ≤ k → k < p + c → freeMark (page (32 * k)) = false ∧ page (32 * k + 11) = 0x0F)
    (howns : ownsChain page (p + c) = true) : Placed b (overlay b page p c) p c := by
  have hmark : ∀ k, p ≤ k → k ≤ p + c → overlay b page p c (32 * k) = page (32 * k) :=
    fun k h1 h2 => overlay_in (i := 0) b ⟨h1, h2⟩ (by decide)
  constructor
  · intro k hk i hi
    exact if_neg (by omega)
  · intro k h1 h2
    rw [hmark k h1 (by omega), overlay_in b ⟨h1, by omega⟩ (by decide)]
    exact hlong k h1 h2
  · unfold ownsChain at howns ⊢
    rw [hmark (p + c) (by omega) (Nat.le_refl _), overlay_in b ⟨by omega, Nat.le_refl _⟩ (by decide)]
    exact howns

/-- Entries are put into slots `p` to `p + c`, and the page is stored. -/
structure Put (v u u' : Fs) (d p c : Nat) (ext : List Nat) : Prop where
  state : u' = { u with disk := u'.disk, sent := u'.sent }
  len : u'.dirLen d = u.dirLen d
  page : Agree (u'.dirData d) u.dir (32 * u.dirLen d)
  free : ¬ v.Occupied d (p + c)
  mem : u'.Occupied d (p + c)
  names : NamesKept v u' d (p + c)
  first : c = 0 → ∀ k, k + 1 = p → u'.dirData d (32 * k + 11) ≠ 0x0F
  edit : (u'.Occupied d (p + c) → NewSlot v u' d (p + c) [] ext) → Edit v u' d (p + c) [] ext
  other : ∀ x, 2 ≤ x → x ≤ v.geo.clusters + 1 → x ∉ v.dirClusters d ++ ext →
    u'.disk (v.geo.dataLba x) = u.disk (v.geo.dataLba x)

theorem put_at (hw : WellFormed v) (hd : Dir v d) (ho : Opened v u u1 d ext)
    (hrun : FirstRun (v.dirData d) (u1.dirLen d) (c + 1) p) (hs : s = { u1 with dir := s.dir })
    (hr : Reliable s) (hc : s.cwd = d)
    (hout : ∀ i, ¬ (32 * p ≤ i ∧ i < 32 * (p + c + 1)) → s.dir i = u1.dir i)
    (hlong : ∀ k, p ≤ k → k < p + c → freeMark (s.dir (32 * k)) = false ∧ s.dir (32 * k + 11) =
      0x0F)
    (howns : ownsChain s.dir (p + c) = true) :
    ∃ s', exec dirStore s = (some (), s') ∧ Put v s s' d p c ext := by
  have hgeo : s.geo = v.geo := by
    rw [hs]
    exact ho.kept.geo
  have hent : s.fatEnt = u1.fatEnt := by
    rw [hs]
    rfl
  have hchain : DirChain s d (v.dirClusters d ++ ext) := ho.chain.same (by rw [hs]) hent
  have hlen : s.dirLen d = u1.dirLen d := by
    rw [hchain.len, ho.chain.len, hgeo, ho.kept.geo]
  have hbytes : s.dirBytes = 32 * s.dirLen d := by
    rw [hlen, ← ho.bytes, hs]
  obtain ⟨s', h1, h2⟩ := dirStore_at hr (hgeo ▸ hw.geo) hchain hc hbytes
  have hplaced := overlay_placed (v.dirData d) hlong howns
  set b' := overlay (v.dirData d) s.dir p c with hb'
  rw [← hlen] at hrun
  have hblock := hplaced.block hrun
  have hold : Tidy (v.dirData d) (s.dirLen d) :=
    (hw.tidy d hd).grow (fun i hi => dirData_beyond (hw.dirChain hd) hi) (hlen ▸ ho.longer)
  have htidy := hplaced.tidy hrun hold
  have hagree : Agree s.dir b' (32 * s.dirLen d) := by
    intro i hi
    rw [hb']
    unfold overlay
    split
    · rfl
    · next hnot =>
      rw [hout i hnot, ho.page i (hlen ▸ hi)]
  have hinside := hrun.inside
  have hkept : Kept v s (v.dirClusters d ++ []) := by
    rw [List.append_nil, hs]
    exact ⟨ho.kept.geo, ho.kept.fat, ho.kept.disk⟩
  have hroot : d ≠ 0 → KeptRoot v s := by
    intro h0
    rw [hs]
    exact ⟨(ho.root h0).head, (ho.root h0).first⟩
  have hfree : ¬ v.Occupied d (p + c) := by
    rintro ⟨-, hown⟩
    have := hrun.free (p + c) (by omega) (by omega)
    unfold freeSlot at this
    rw [owns_used hown] at this
    cases this
  have hstate : s' = { s with disk := s'.disk, sent := s'.sent } := h2.only
  have hlen' : s'.dirLen d = s.dirLen d := by
    rw [h2.chain.len, hchain.len, show s'.geo = s.geo by rw [hstate]]
  have hpage : Agree (s'.dirData d) b' (32 * s.dirLen d) := fun i hi => (h2.page i hi).trans (hagree i hi)
  -- the dots of a subdirectory are not free
  have hp2 : 2 ≤ d → 2 ≤ p := by
    intro h2
    obtain ⟨h3, h4, -⟩ := hw.dots hd h2
    by_contra hlt
    have hslot := hrun.free p (Nat.le_refl p) (by omega)
    unfold freeSlot at hslot
    have hp : p = 0 ∨ p = 1 := by omega
    rcases hp with rfl | rfl
    · rw [Nat.mul_zero, h3] at hslot
      cases hslot
    · rw [Nat.mul_one, h4] at hslot
      cases hslot
  have hsep := hw.geo.separate
  refine ⟨s', h1, hstate, hlen', h2.page, hfree, ⟨?_, ?_⟩, fun k hk ho' => ?_, fun h0 k hk => ?_,
    fun self => ?_, fun x hx2 hxc hout' => ?_⟩
  · rw [hlen']
    omega
  · have := hplaced.owns
    unfold ownsChain at this ⊢
    rw [hpage _ (by omega), hpage _ (by omega)]
    exact this
  · exact names_kept hblock (hlen ▸ ho.longer) (by omega) hold htidy hpage hk ho'
  · -- the slot in front is not free, so it is no long-name entry
    subst h0
    obtain ⟨x, h3, h4, h5⟩ := hrun.first k (by omega)
    obtain rfl : x = k := by omega
    rw [hpage _ (by omega), (hplaced.out x (by omega)).attr]
    intro h11
    have := (hold.long x (by omega) h5 h11).2
    rw [hk] at this
    have hslot := hrun.free p (Nat.le_refl p) (by omega)
    unfold freeSlot at hslot
    rw [this] at hslot
    cases hslot
  · refine h2.edit hw hd hkept hroot hchain (fun x hx => (ho.free x hx).1)
      (fun _ _ _ => List.disjoint_nil_left _) hagree hblock.slots ?_ htidy self
      fun hocc => absurd hocc hfree
    intro h2
    have h16 := hw.dirLen_ge hd
    exact hblock.dots (hp2 h2) (by have := ho.longer; omega)
  · apply h2.other
    rw [hgeo]
    intro hm
    rcases List.mem_append.1 hm with hm | hm
    · split at hm
      · rw [List.mem_singleton] at hm
        exact hsep.rootData ⟨x, ⟨hx2, hxc⟩, hm⟩
      · cases hm
    · obtain ⟨y, hy, e⟩ := List.mem_map.1 hm
      have hyc := hchain.chain.inside y hy
      rw [hgeo] at hyc
      rw [hsep.clusters ⟨hchain.chain.two_le y hy, hyc⟩ ⟨hx2, hxc⟩ e] at hy
      exact hout' hy

end VampireOS.Fs
