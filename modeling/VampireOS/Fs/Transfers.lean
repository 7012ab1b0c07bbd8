import VampireOS.Fs.Chains
import VampireOS.Fs.Denote

/-!
# Transfers to a device that does not fail (kernel/fs.c:500, 541-650, 978, 1207)

What `fat_flush`, `dir_load`, `dir_store`, `store_chain` and `load_file` do on a device that answers
every transfer inside the volume: each succeeds as far as its chain goes, and writes its own sectors
only.
-/

namespace VampireOS.Fs

open Lib

/-- The driver does not fail, and the device has all sectors of the volume. -/
structure Reliable (s : Fs) : Prop where
  errs : s.errs = []
  reach : ∀ lba n, 0 < n → lba + n ≤ s.geo.firstData + s.geo.clusters → pastEnd s.dev lba n = false

/-- Only the device has changed. -/
def DiskOnly (s s' : Fs) : Prop := s' = { s with disk := s'.disk, sent := s'.sent }

instance : Std.Refl DiskOnly := ⟨fun _ => rfl⟩

instance : IsTrans Fs DiskOnly := ⟨fun s s' s'' h h' => by
  unfold DiskOnly at *
  rw [h', h]⟩

variable {s s' v : Fs} {cl c d : Nat} {l : List Nat}

theorem Reliable.same (h : Reliable s) (he : s'.errs = s.errs) (hd : s'.dev = s.dev)
    (hg : s'.geo = s.geo) : Reliable s' :=
  ⟨he.trans h.errs, fun lba n hn hle => by
    rw [hd]
    exact h.reach lba n hn (by rwa [hg] at hle)⟩

theorem Reliable.diskOnly (h : Reliable s) (ho : DiskOnly s s') : Reliable s' := by
  rw [show s' = _ from ho]
  exact h.same rfl rfl rfl

theorem Reliable.fatOnly (h : Reliable s) (ho : FatOnly s s') : Reliable s' := by
  rw [show s' = _ from ho]
  exact h.same rfl rfl rfl

theorem Reliable.one (h : Reliable s) {lba : Nat} (hl : lba < s.geo.firstData + s.geo.clusters) :
    pastEnd s.dev lba 1 = false :=
  h.reach lba 1 Nat.one_pos hl

/-- The sector of a cluster of the volume. -/
theorem Reliable.cluster (h : Reliable s) (h2 : 2 ≤ c) (hc : c ≤ s.geo.clusters + 1) :
    pastEnd s.dev (s.geo.dataLba c) 1 = false := by
  refine h.one ?_
  unfold Geo.dataLba
  omega

theorem exec_bwrite_only (hr : Reliable s) {lba : Nat} (hp : pastEnd s.dev lba 1 = false) (b : Bytes) :
    ∃ s', exec (bwrite lba b) s = (some (), s') ∧ DiskOnly s s' ∧ s'.disk = Function.update s.disk lba b ∧
      s'.sent = s.sent ++ [((lba + s.dev.part) % 2 ^ 32, 1)] :=
  ⟨_, exec_bwrite hr.errs hp b, rfl, rfl, rfl⟩

/-! ## Sector lists -/

theorem sectorBytes_head (disk : Nat → Bytes) (l : Nat) (ls : List Nat) {i : Nat} (hi : i < secSize) :
    sectorBytes disk (l :: ls) i = disk l i := by
  unfold sectorBytes
  rw [Nat.div_eq_of_lt hi, Nat.mod_eq_of_lt hi]
  rfl

theorem sectorBytes_tail (disk : Nat → Bytes) (l : Nat) (ls : List Nat) (i : Nat) :
    sectorBytes disk (l :: ls) (secSize + i) = sectorBytes disk ls i := by
  unfold sectorBytes
  rw [Nat.add_div_left i (by decide), Nat.add_mod_left]
  rfl

/-- The bytes of sectors that are the same on both devices. -/
theorem sectorBytes_congr {disk disk' : Nat → Bytes} {ls : List Nat} (h : ∀ l ∈ ls, disk' l = disk l) :
    sectorBytes disk' ls = sectorBytes disk ls := by
  funext i
  unfold sectorBytes
  cases hx : ls[i / secSize]? with
  | none => rfl
  | some l => simp only [Option.elim_some, h l (List.mem_of_getElem? hx)]

/-! ## The FAT -/

theorem fatFlush_spec (hr : Reliable s) (hg : s.geo.Sane) :
    ∃ s', exec fatFlush s = (some (), s') ∧ DiskOnly s s' ∧
    ∀ l, l ∉ s.geo.fatSectors → s'.disk l = s.disk l := by
  have hfit : s.geo.rsvd + 2 * s.geo.fatsz ≤ s.geo.firstData + s.geo.clusters ∧ 0 < s.geo.fatsz := by
    have h1 := hg.fits
    unfold fatBytes at h1
    have hpos : 0 < s.geo.fatsz := by
      rcases Nat.eq_zero_or_pos s.geo.fatsz with e | e
      · rw [e, Nat.zero_mul] at h1
        omega
      · exact e
    have h2 := hg.separate.below (s.geo.rsvd + 2 * s.geo.fatsz - 1) (.inl ⟨by omega, by omega⟩)
    omega
  have h1 := hr.reach s.geo.rsvd s.geo.fatsz hfit.2 (by omega)
  have h2 := hr.reach (s.geo.rsvd + s.geo.fatsz) s.geo.fatsz hfit.2 (by omega)
  unfold fatFlush
  rw [exec_bind_of (exec_gets _ _)]
  simp only [id]
  rw [exec_bind_of (exec_bwriteN hr.errs h1 s.fat), exec_bwriteN (by exact hr.errs) (by exact h2)]
  refine ⟨_, rfl, rfl, fun l hl => ?_⟩
  have hout : ¬ (s.geo.rsvd ≤ l ∧ l < s.geo.rsvd + 2 * s.geo.fatsz) := hl
  simp only
  rw [if_neg (by omega)]
  exact if_neg (by omega)

/-! ## Chains -/

/-- The write of a cluster as the driver gets it. -/
def clusterWrite (s : Fs) (c : Nat) : Nat × Nat := ((s.geo.dataLba c + s.dev.part) % 2 ^ 32, 1)

theorem dataLba_inj {g : Geo} {a : Nat} (ha : 2 ≤ a) (hc : 2 ≤ c) (h : g.dataLba a = g.dataLba c) :
    a = c := by
  unfold Geo.dataLba at h
  omega

/-- `store_chain` over clusters that the length reaches: each is written once, and it fails when
they do not do. -/
theorem storeChainFrom_spec (src : Bytes) (len : Nat) (cls : List Nat) :
    ∀ {s : Fs} (off : Nat), Reliable s →
    (∀ c ∈ cls, 2 ≤ c ∧ c ≤ s.geo.clusters + 1) → cls.Nodup → (∀ k < cls.length, off + secSize * k < len) →
    ∃ s', exec (storeChainFrom src len off cls) s = (if len ≤ off + secSize * cls.length
      then some () else none, s') ∧
      DiskOnly s s' ∧ s'.sent = s.sent ++ cls.map s.clusterWrite ∧
      (∀ l, l ∉ cls.map s.geo.dataLba → s'.disk l = s.disk l) ∧
      ∀ i < secSize * cls.length, sectorBytes s'.disk (cls.map s.geo.dataLba) i = if off + i < len
        then src (off + i) else 0 := by
  induction cls with
  | nil =>
    intro s off _ _ _ _
    refine ⟨s, ?_, rfl, (List.append_nil _).symm, fun _ _ => rfl, nofun⟩
    unfold storeChainFrom
    simp
  | cons c cls ih =>
    intro s off hr hin hnodup hall
    have hlt : off < len := by simpa using hall 0 (by simp)
    obtain ⟨hc2, hc⟩ := hin c List.mem_cons_self
    obtain ⟨s1, h1, h2, h3, hlog⟩ := exec_bwrite_only hr (hr.cluster hc2 hc)
      (padSector (fromByte src off) (min (len - off) secSize))
    have hgeo : s1.geo = s.geo := by rw [show s1 = _ from h2]
    have hdev : s1.dev = s.dev := by rw [show s1 = _ from h2]
    rw [List.nodup_cons] at hnodup
    rw [List.length_cons] at hall ⊢
    obtain ⟨s', h4, h5, h8, h6, h7⟩ := ih (s := s1) (off + secSize) (hr.diskOnly h2)
      (fun x hx => hgeo ▸ hin x (List.mem_cons_of_mem _ hx)) hnodup.2
      (fun k hk => by
        have := hall (k + 1) (by omega)
        rw [Nat.mul_succ] at this
        omega)
    have hwrite : s1.clusterWrite = s.clusterWrite := by
      funext x
      unfold clusterWrite
      rw [hgeo, hdev]
    rw [hgeo] at h6 h7
    have hnew : s.geo.dataLba c ∉ cls.map s.geo.dataLba := fun hm => by
      obtain ⟨x, hx, e⟩ := List.mem_map.1 hm
      exact hnodup.1 (dataLba_inj (hin x (List.mem_cons_of_mem _ hx)).1 hc2 e ▸ hx)
    refine ⟨s', ?_, IsTrans.trans _ _ _ h2 h5, ?_, fun l hl => ?_, fun i hi => ?_⟩
    · unfold storeChainFrom
      rw [if_neg (by omega), exec_bind_of (exec_gets _ _)]
      simp only [id]
      rw [exec_bind_of h1, h4, Nat.mul_succ, Nat.add_assoc, Nat.add_comm secSize]
    · rw [h8, hlog, hwrite, List.map_cons, List.append_assoc]
      rfl
    · rw [List.map_cons, List.mem_cons, not_or] at hl
      rw [h6 l hl.2, h3, Function.update_of_ne hl.1]
    · rw [List.map_cons]
      rcases Nat.lt_or_ge i secSize with hi' | hi'
      · rw [sectorBytes_head _ _ _ hi', h6 _ hnew, h3, Function.update_self]
        simp only [padSector, fromByte]
        split
        · rw [if_pos (by omega)]
        · rw [if_neg (by omega)]
      · obtain ⟨j, rfl⟩ := Nat.exists_eq_add_of_le hi'
        rw [Nat.mul_succ] at hi
        rw [sectorBytes_tail, h7 j (by omega), Nat.add_assoc]

/-- Clusters behind the length are not reached. -/
theorem storeChainFrom_take (src : Bytes) (len : Nat) (m : Nat) :
    ∀ (off : Nat) (cls : List Nat), len ≤ off + secSize * m →
    storeChainFrom src len off cls = storeChainFrom src len off (cls.take m) := by
  induction m with
  | zero =>
    intro off cls h
    cases cls with
    | nil => rfl
    | cons c cls =>
      unfold storeChainFrom
      rw [if_pos (by omega), decide_eq_true (by omega)]
      rfl
  | succ m ih =>
    intro off cls h
    cases cls with
    | nil => rfl
    | cons c cls =>
      rw [List.take_succ_cons]
      unfold storeChainFrom
      rw [ih (off + secSize) cls (by rw [Nat.mul_succ] at h; omega)]

theorem needFor_spec (len : Nat) : len ≤ secSize * needFor len ∧ ∀ k < needFor len, secSize * k < len := by
  unfold needFor secSize
  exact ⟨by omega, fun k hk => by omega⟩

/-- What `store_chain` leaves: the first clusters of the chain hold the bytes and zeros behind them,
and nothing else is written. -/
structure Stored (s s' : Fs) (cls : List Nat) (src : Bytes) (len : Nat) : Prop where
  only : DiskOnly s s'
  sent : s'.sent = s.sent ++ cls.map s.clusterWrite
  other : ∀ l, l ∉ cls.map s.geo.dataLba → s'.disk l = s.disk l
  bytes : ∀ i < secSize * cls.length, sectorBytes s'.disk (cls.map s.geo.dataLba) i = if i < len
    then src i else 0

theorem storeChain_spec (hr : Reliable s) (h : Links isCluster s.fatEnt cl l)
    (hin : ∀ c ∈ l, c ≤ s.geo.clusters + 1) (src : Bytes) {len : Nat} (hlen : len ≤ fileMax) :
    ∃ s', exec (storeChain cl src len) s =
      (if needFor len ≤ l.length then some () else none, s') ∧ Stored s s' (l.take (needFor len))
      src len := by
  obtain ⟨h1, h2⟩ := needFor_spec len
  have hmax : needFor len ≤ chainMax := by
    unfold needFor secSize chainMax
    unfold fileMax at hlen
    omega
  set cls := l.take (needFor len) with hcls
  have hlength : cls.length = min (needFor len) l.length := List.length_take
  have hmem : ∀ c ∈ cls, 2 ≤ c ∧ c ≤ s.geo.clusters + 1 := fun c hc =>
    ⟨(isCluster_iff.1 (h.live_of_mem c (List.mem_of_mem_take hc))).1, hin c (List.mem_of_mem_take hc)⟩
  obtain ⟨s', h3, h4, h5, h6, h7⟩ := storeChainFrom_spec src len cls 0 hr hmem
    (h.nodup.sublist (List.take_sublist _ _)) (fun k hk => by
      have := h2 k (by omega)
      omega)
  refine ⟨s', ?_, h4, h5, h6, fun i hi => ?_⟩
  · unfold storeChain
    rw [exec_bind_of (exec_gets _ _)]
    simp only [id]
    rw [chain_take h, storeChainFrom_take src len (needFor len) 0 _ (by omega), List.take_take,
      Nat.min_eq_left hmax, h3, hlength]
    congr 1
    by_cases hn : needFor len ≤ l.length
    · rw [if_pos hn, if_pos (by rw [Nat.min_eq_left hn]; omega)]
    · have := h2 (min (needFor len) l.length) (by omega)
      rw [if_neg hn, if_neg (by omega)]
  · have := h7 i hi
    rwa [Nat.zero_add] at this

/-- What `load_file` puts into `dst`: the bytes of the sectors it reaches. -/
def loaded (dst : Bytes) (size off : Nat) (disk : Nat → Bytes) (ls : List Nat) : Bytes := fun i =>
  if off ≤ i ∧ i < size ∧ i < off + secSize * ls.length then sectorBytes disk ls (i - off) else dst i

theorem loaded_cons (dst : Bytes) (size off : Nat) (disk : Nat → Bytes) (l : Nat) (ls : List Nat) :
    loaded (putBytes dst off (disk l) (min (size - off) secSize)) size (off + secSize) disk ls =
    loaded dst size off disk (l :: ls) := by
  funext i
  unfold loaded putBytes
  rw [List.length_cons, Nat.mul_succ]
  by_cases h1 : i < off + secSize
  · rw [if_neg (by omega)]
    by_cases h2 : off ≤ i ∧ i < size
    · rw [if_pos (by omega), if_pos (by omega), sectorBytes_head _ _ _ (by omega)]
    · rw [if_neg (by omega), if_neg (by omega)]
  · obtain ⟨j, rfl⟩ := Nat.exists_eq_add_of_le (Nat.le_of_not_lt h1)
    rw [if_neg (show ¬ (off ≤ off + secSize + j ∧ off + secSize + j < off + min (size - off)
      secSize) by omega), Nat.add_sub_cancel_left, Nat.add_assoc off secSize j,
      Nat.add_sub_cancel_left, sectorBytes_tail]
    congr 1
    apply propext
    omega

theorem loadFileFrom_spec (size : Nat) (cls : List Nat) : ∀ (dst : Bytes) (off : Nat), Reliable s →
    (∀ c ∈ cls, 2 ≤ c ∧ c ≤ s.geo.clusters + 1) → exec (loadFileFrom dst size off cls) s =
      (some (loaded dst size off s.disk (cls.map s.geo.dataLba),
      decide (size ≤ off + secSize * cls.length)), s) := by
  induction cls with
  | nil =>
    intro dst off _ _
    have hnone : loaded dst size off s.disk [] = dst := by
      funext i
      unfold loaded
      exact if_neg (by simp only [List.length_nil]; omega)
    unfold loadFileFrom
    rw [List.map_nil, hnone]
    rfl
  | cons c cls ih =>
    intro dst off hr hin
    unfold loadFileFrom
    by_cases hoff : size ≤ off
    · have hnone : loaded dst size off s.disk ((c :: cls).map s.geo.dataLba) = dst := by
        funext i
        unfold loaded
        exact if_neg (by omega)
      rw [if_pos hoff, hnone, decide_eq_true (by omega)]
      rfl
    · obtain ⟨hc2, hc⟩ := hin c List.mem_cons_self
      rw [if_neg hoff, exec_bind_of (exec_gets _ _)]
      simp only [id]
      rw [exec_bind_of (exec_result _ _), exec_bread hr.errs (hr.cluster hc2 hc)]
      simp only
      rw [ih _ _ hr (fun x hx => hin x (List.mem_cons_of_mem _ hx)), List.map_cons, loaded_cons,
        List.length_cons, Nat.mul_succ, Nat.add_assoc, Nat.add_comm secSize]

/-- `load_file` of any length, along a chain of any length. -/
theorem loadFile_spec (hr : Reliable s) (h : Links isCluster s.fatEnt cl l)
    (hin : ∀ c ∈ l, c ≤ s.geo.clusters + 1) (dst : Bytes) (size : Nat) :
    exec (loadFile dst cl size) s =
      (some (loaded dst size 0 s.disk ((l.take chainMax).map s.geo.dataLba),
      decide (size ≤ secSize * min chainMax l.length)), s) := by
  have hmem : ∀ c ∈ l.take chainMax, 2 ≤ c ∧ c ≤ s.geo.clusters + 1 := fun c hc =>
    ⟨(isCluster_iff.1 (h.live_of_mem c (List.mem_of_mem_take hc))).1, hin c (List.mem_of_mem_take hc)⟩
  unfold loadFile
  rw [exec_bind_of (exec_gets _ _)]
  simp only [id]
  rw [chain_take h, loadFileFrom_spec size _ dst 0 hr hmem, List.length_take, Nat.zero_add]

theorem loadFile_total (hr : Reliable s) (h : OwnChain s cl l) (hl : l.length ≤ chainMax) {size : Nat}
    (hsize : size ≤ secSize * l.length) (dst : Bytes) :
    ∃ data, exec (loadFile dst cl size) s = (some (data, true), s) ∧ Agree data (s.fileBytes cl) size := by
  have hload := loadFile_spec hr h.links h.inside dst size
  rw [Nat.min_eq_right hl, decide_eq_true hsize] at hload
  refine ⟨_, hload, fun i hi => ?_⟩
  unfold loaded fileBytes
  rw [chain_take h.links, List.length_map, List.length_take, Nat.min_eq_right hl, if_pos (by omega)]
  rfl

/-- The first sectors of a chain alone. -/
theorem sectorBytes_take (disk : Nat → Bytes) (ls : List Nat) {m i : Nat} (hi : i < secSize * m) :
    sectorBytes disk (ls.take m) i = sectorBytes disk ls i := by
  unfold sectorBytes
  rw [List.getElem?_take_of_lt (Nat.div_lt_of_lt_mul hi)]

theorem needFor_mono {n len : Nat} (h : n ≤ len) : needFor n ≤ needFor len := by
  unfold needFor secSize
  omega

/-- What was stored is read back, and a chain that is too short fails both. -/
theorem store_load_inverse (hr : Reliable s) (h : Links isCluster s.fatEnt cl l)
    (hin : ∀ c ∈ l, c ≤ s.geo.clusters + 1) (src : Bytes) {len : Nat} (hlen : len ≤ fileMax) :
    (needFor len ≤ l.length → ∃ s', exec (storeChain cl src len) s = (some (), s') ∧
    Stored s s' (l.take (needFor len)) src len ∧
      ∀ n ≤ len, ∀ dst, exec (loadFile dst cl n) s' =
      (some (fun i => if i < n then src i else dst i, true), s')) ∧
    (l.length < needFor len →
      (∃ s', exec (storeChain cl src len) s = (none, s') ∧ Stored s s' l src len) ∧
      ∀ n, l.length < needFor n → n ≤ len → ∀ dst, exec (loadFile dst cl n) s =
        (some (fun i => if i < secSize * l.length then sectorBytes s.disk (l.map s.geo.dataLba) i
          else dst i, false), s)) := by
  obtain ⟨s', h1, h2⟩ := storeChain_spec hr h hin src hlen
  have hmax : ∀ n ≤ len, needFor n ≤ chainMax := fun n hn => by
    unfold needFor secSize chainMax
    unfold fileMax at hlen
    omega
  refine ⟨fun hn => ⟨s', by rw [h1, if_pos hn], h2, fun n hle dst => ?_⟩,
    fun hn => ⟨⟨s', by rw [h1, if_neg (by omega)], ?_⟩, fun n hshort hle dst => ?_⟩⟩
  · have hgeo : s'.geo = s.geo := by rw [show s' = _ from h2.only]
    have hent : s'.fatEnt = s.fatEnt := by rw [show s' = _ from h2.only]; rfl
    have hload := loadFile_spec (hr.diskOnly h2.only) (hent.symm ▸ h : Links isCluster s'.fatEnt cl
      l) (by rwa [hgeo]) dst n
    have hneed := needFor_mono hle
    have hsize := (needFor_spec n).1
    have hroom : secSize * needFor n ≤ secSize * min chainMax l.length := Nat.mul_le_mul_left _ (by
      have := hmax n hle
      omega)
    rw [hload, decide_eq_true (by omega)]
    congr 3
    funext i
    unfold loaded
    rw [List.length_map, List.length_take]
    by_cases hi : i < n
    · have hsec : i < secSize * needFor len := by
        have := (needFor_spec len).1
        omega
      have hbytes := h2.bytes i (by rwa [List.length_take, Nat.min_eq_left hn])
      rw [List.map_take, sectorBytes_take _ _ hsec, if_pos (by omega)] at hbytes
      rw [if_pos (by omega), if_pos hi, Nat.sub_zero, hgeo, List.map_take,
        sectorBytes_take _ _
          (Nat.lt_of_lt_of_le hsec (Nat.mul_le_mul_left _ (hmax len (Nat.le_refl _)))), hbytes]
    · rw [if_neg (by omega), if_neg hi]
  · rwa [List.take_of_length_le (by omega)] at h2
  · have hle8 := hmax n hle
    have hall := (needFor_spec n).2 l.length hshort
    rw [loadFile_spec hr h hin dst n, List.take_of_length_le (by omega),
      Nat.min_eq_right (by omega), decide_eq_false (by omega)]
    congr 3
    funext i
    unfold loaded
    rw [List.length_map]
    by_cases hi : i < secSize * l.length
    · rw [if_pos (by omega), if_pos hi, Nat.sub_zero]
    · rw [if_neg (by omega), if_neg hi]


theorem store_load_inverse_two : let s := twoClusters [0xF8, 0xFF, 0xFF, 0x03, 0xF0, 0xFF]
    ∃ s', exec (storeChain 2 (fun _ => 7) 600) s = (some (), s') ∧
      exec (loadFile (fun _ => 0) 2 600) s' = (some (fun i => if i < 600 then 7 else 0, true), s') := by
  intro s
  have hdev : s.dev = ⟨1, 0⟩ := by decide +kernel
  have hr : Reliable s := by
    refine ⟨by decide +kernel, fun lba n hn _ => ?_⟩
    rw [hdev]
    unfold pastEnd
    simp
    omega
  have hl : Links isCluster s.fatEnt 2 [2, 3] := by
    refine .step (by decide) ?_
    rw [show s.fatEnt 2 = 3 by decide +kernel]
    exact .step (by decide) (.stop (by decide +kernel))
  have hin : ∀ c ∈ [2, 3], c ≤ s.geo.clusters + 1 := by
    rw [show s.geo.clusters = 2 by decide +kernel]
    decide
  obtain ⟨s', h1, -, h3⟩ :=
    (store_load_inverse hr hl hin (fun _ => 7) (show 600 ≤ fileMax by decide)).1 (by decide)
  exact ⟨s', h1, h3 600 (by decide) _⟩

/-! ## Directories -/

/-- The clusters of the directory at `d`; the first sector of the root comes before them. -/
def dirHead (v : Fs) (d : Nat) : Nat := if d < 2 then v.fatEnt 1 else d

/-- The directory at `d` has the clusters `l`. -/
structure DirChain (v : Fs) (d : Nat) (l : List Nat) : Prop where
  chain : OwnChain v (v.dirHead d) l
  length : l.length ≤ if d < 2 then chainMax - 1 else chainMax
  ne : 2 ≤ d → l ≠ []

/-- The sectors of a directory with the clusters `l`. -/
def sectorsOf (g : Geo) (d : Nat) (l : List Nat) : List Nat :=
  (if d < 2 then [g.firstRoot] else []) ++ l.map g.dataLba

theorem DirChain.sectors (h : DirChain v d l) (hs : s.cwd = d) (hg : s.geo = v.geo) (hf : s.fat = v.fat) :
    s.dirSectors = sectorsOf v.geo d l := by
  have hent : s.fatEnt = v.fatEnt := by
    unfold fatEnt
    rw [hg, hf]
  have hchain := h.chain.links
  have hlen := h.length
  unfold dirSectors sectorsOf
  rw [hs, hent, hg, hf]
  unfold dirHead at hchain
  by_cases hd : d < 2
  · simp only [hd, if_true] at hchain hlen ⊢
    rw [chain_follow, show fat12Ent v.geo v.fat = v.fatEnt from rfl, hchain.follow_all hlen]
    rfl
  · simp only [hd, if_false] at hchain hlen ⊢
    rw [chain_follow, show fat12Ent v.geo v.fat = v.fatEnt from rfl, hchain.follow_all hlen]
    rfl

theorem DirChain.sectors_ne (h : DirChain v d l) : sectorsOf v.geo d l ≠ [] := by
  unfold sectorsOf
  split
  · exact nofun
  · next hd =>
    have := h.ne (by omega)
    simpa using this

/-- The sectors of a directory are different, and on the device. -/
theorem DirChain.sectors_ok (h : DirChain v d l) (hg : v.geo.Sane) : (sectorsOf v.geo d l).Nodup ∧
    ∀ lba ∈ sectorsOf v.geo d l, lba < v.geo.firstData + v.geo.clusters ∧ lba ∉ v.geo.fatSectors := by
  have hin : ∀ c ∈ l, v.geo.dataLba c ∈ v.geo.dataSectors :=
    fun c hc => ⟨c, ⟨h.chain.two_le c hc, h.chain.inside c hc⟩, rfl⟩
  have hdata : ∀ lba ∈ l.map v.geo.dataLba, lba ∈ v.geo.dataSectors := fun lba hl => by
    obtain ⟨c, hc, rfl⟩ := List.mem_map.1 hl
    exact hin c hc
  have hsep := hg.separate
  have hnodup : (l.map v.geo.dataLba).Nodup := by
    refine h.chain.links.nodup.map_on fun a ha b hb e => ?_
    exact hsep.clusters ⟨h.chain.two_le a ha, h.chain.inside a ha⟩ ⟨h.chain.two_le b hb,
      h.chain.inside b hb⟩ e
  unfold sectorsOf
  refine ⟨?_, fun lba hl => ?_⟩
  · split
    · exact List.nodup_cons.2 ⟨fun hm => hsep.rootData (hdata _ hm), hnodup⟩
    · exact hnodup
  · rcases List.mem_append.1 hl with hl | hl
    · split at hl
      · rw [List.mem_singleton.1 hl]
        exact ⟨hsep.below _ (.inr (.inl rfl)), hsep.fatRoot⟩
      · cases hl
    · exact ⟨hsep.below _ (.inr (.inr (hdata _ hl))), fun hm => Set.disjoint_left.1 hsep.fatData hm
        (hdata _ hl)⟩

theorem dirLoadFrom_total (ls : List Nat) : ∀ {s : Fs} (off : Nat), Reliable s →
    (∀ l ∈ ls, l < s.geo.firstData + s.geo.clusters) → ∃ s', exec (dirLoadFrom off ls) s = (some (), s') := by
  induction ls with
  | nil => exact fun {s} off _ _ => ⟨_, rfl⟩
  | cons l ls ih =>
    intro s off hr hin
    obtain ⟨s', h⟩ := ih (s := { s with dir := putBytes s.dir off (s.disk l) secSize })
      (off + secSize) (hr.same rfl rfl rfl) fun x hx => hin x (List.mem_cons_of_mem _ hx)
    refine ⟨s', ?_⟩
    unfold dirLoadFrom
    rw [exec_bind_of (exec_bread hr.errs (hr.one (hin l List.mem_cons_self))), exec_bind_of (exec_upd _ _)]
    exact h

/-- `dir_load` of a directory of the volume. -/
theorem dirLoad_total (hr : Reliable s) (hg : s.geo.Sane) (h : DirChain s s.cwd l) :
    ∃ s', exec dirLoad s = (some (), s') ∧
    DirOnly s s' ∧ Agree s'.dir (sectorBytes s.disk (sectorsOf s.geo s.cwd l))
      (secSize * (sectorsOf s.geo s.cwd l).length) ∧
      s'.dirBytes = secSize * (sectorsOf s.geo s.cwd l).length := by
  have hsect := h.sectors rfl rfl rfl
  obtain ⟨s', hx⟩ := dirLoadFrom_total (sectorsOf s.geo s.cwd l) 0 hr fun lba hl =>
    ((h.sectors_ok hg).2 lba hl).1
  have hload : exec dirLoad s = (some (), s') := by
    unfold dirLoad
    rw [exec_bind_of (exec_gets _ _)]
    simp only [id, hsect]
    rw [exec_bind_of hx, exec_need, decide_eq_true h.sectors_ne]
    rfl
  have honly := dirLoad_dirOnly s
  rw [hload] at honly
  obtain ⟨h1, h2⟩ := dirLoad_loads hload
  rw [hsect] at h1 h2
  exact ⟨s', hload, honly, h1, h2⟩

theorem dirStoreFrom_spec (ls : List Nat) : ∀ {s : Fs} (off : Nat), Reliable s →
    (∀ l ∈ ls, l < s.geo.firstData + s.geo.clusters) → ls.Nodup → s.dirBytes = off + secSize * ls.length →
    ∃ s', exec (dirStoreFrom off ls) s = (some (), s') ∧ DiskOnly s s' ∧
    (∀ l, l ∉ ls → s'.disk l = s.disk l) ∧
      ∀ i < secSize * ls.length, sectorBytes s'.disk ls i = s.dir (off + i) := by
  induction ls with
  | nil =>
    intro s off _ _ _ hb
    rw [List.length_nil, Nat.mul_zero, Nat.add_zero] at hb
    refine ⟨s, ?_, rfl, fun _ _ => rfl, nofun⟩
    unfold dirStoreFrom
    rw [exec_bind_of (exec_gets _ _)]
    simp [hb]
  | cons l ls ih =>
    intro s off hr hin hnodup hb
    rw [List.nodup_cons] at hnodup
    rw [List.length_cons, Nat.mul_succ] at hb
    obtain ⟨s1, h1, h2, h3, -⟩ := exec_bwrite_only hr (hr.one (hin l List.mem_cons_self)) (fromByte s.dir off)
    have hgeo : s1.geo = s.geo := by rw [show s1 = _ from h2]
    have hdir : s1.dir = s.dir := by rw [show s1 = _ from h2]
    have hbytes : s1.dirBytes = s.dirBytes := by rw [show s1 = _ from h2]
    obtain ⟨s', h4, h5, h6, h7⟩ := ih (s := s1) (off + secSize) (hr.diskOnly h2)
      (fun x hx => hgeo ▸ hin x (List.mem_cons_of_mem _ hx)) hnodup.2 (by omega)
    refine ⟨s', ?_, IsTrans.trans _ _ _ h2 h5, fun x hx => ?_, fun i hi => ?_⟩
    · unfold dirStoreFrom
      rw [exec_bind_of (exec_gets _ _)]
      simp only [id]
      rw [if_neg (by unfold secSize at *; omega), exec_bind_of h1]
      exact h4
    · rw [List.mem_cons, not_or] at hx
      rw [h6 x hx.2, h3, Function.update_of_ne hx.1]
    · rcases Nat.lt_or_ge i secSize with hi' | hi'
      · rw [sectorBytes_head _ _ _ hi', h6 l hnodup.1, h3, Function.update_self]
        rfl
      · obtain ⟨j, rfl⟩ := Nat.exists_eq_add_of_le hi'
        rw [List.length_cons, Nat.mul_succ] at hi
        rw [sectorBytes_tail, h7 j (by omega), hdir, Nat.add_assoc]

/-- `dir_store` of a directory page as long as the directory. -/
theorem dirStore_spec (hr : Reliable s) (hg : s.geo.Sane) (h : DirChain s s.cwd l)
    (hb : s.dirBytes = secSize * (sectorsOf s.geo s.cwd l).length) :
    ∃ s', exec dirStore s = (some (), s') ∧ DiskOnly s s' ∧
      (∀ lba, lba ∉ sectorsOf s.geo s.cwd l → s'.disk lba = s.disk lba) ∧
      Agree (sectorBytes s'.disk (sectorsOf s.geo s.cwd l)) s.dir s.dirBytes := by
  have hsect := h.sectors rfl rfl rfl
  obtain ⟨hnodup, hin⟩ := h.sectors_ok hg
  have hpos : 0 < (sectorsOf s.geo s.cwd l).length := List.length_pos_of_ne_nil h.sectors_ne
  obtain ⟨s', h1, h2, h3, h4⟩ := dirStoreFrom_spec (sectorsOf s.geo s.cwd l) 0 hr
    (fun lba hl => (hin lba hl).1) hnodup (by rw [hb, Nat.zero_add])
  refine ⟨s', ?_, h2, h3, fun i hi => ?_⟩
  · unfold dirStore
    rw [exec_bind_of (exec_gets _ _)]
    simp only [id, hsect]
    have hne : s.dirBytes ≠ 0 := by
      rw [hb]
      unfold secSize
      omega
    rw [exec_bind, exec_need, decide_eq_true hne]
    exact h1
  · rw [h4 i (hb ▸ hi), Nat.zero_add]

end VampireOS.Fs
