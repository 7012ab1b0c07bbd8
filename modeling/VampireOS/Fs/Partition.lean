import VampireOS.Fs.Confine
import VampireOS.Fs.Exec

/-!
# The volume and its partition (kernel/bio.c:41-68)

| here | there |
| --- | --- |
| `bioInit` | `bio_init`: start and count of the partition; the count is not kept |
| `unmounted` | the statics before `fs_init`, and the device with sectors `content` |
-/

namespace VampireOS

open Lib

/-- Start and count of the first FAT12 entry. -/
def bioInit (mbr : Bytes) : Option (Nat × Nat) :=
  if mbr 510 ≠ 0x55 ∨ mbr 511 ≠ 0xAA then none
  else ((List.range 4).map fun i => 0x1BE + i * 16).findSome? fun o =>
    if mbr (o + 4) = 1 ∧ rdU32 mbr (o + 8) ≠ 0 ∧ rdU32 mbr (o + 12) ≠ 0 then
      some (rdU32 mbr (o + 8), rdU32 mbr (o + 12))
    else none

namespace Fs

def unmounted (content : Nat → Bytes) (d : Dev) (junk : Bytes) (o : Offer) : Fs where
  disk := fun lba => content ((lba + d.part) % 2 ^ 32)
  dev := d
  errs := o.errs
  pages := o.pages
  geo := ⟨0, 0, 0, 0, 0⟩
  fat := fun _ => 0
  cwd := 0
  savedCwd := 0
  path := []
  dir := fun _ => 0
  dirBytes := 0
  files := []
  view := none
  junk := junk
  sent := []

/-- On a device of `lim` sectors (0 when unknown), whatever is on it and whatever is called, the
driver writes only to the partition of `count` sectors from `start` on. -/
def Confined (start count lim : Nat) : Prop :=
  ∀ (content : Nat → Bytes) (junk : Bytes) (o : Offer), bioInit (content 0) = some (start, count) →
    (exec fsInit (unmounted content ⟨start, lim⟩ junk o)).1 = some () → bpbTotal (content start) ≤ count →
    ∀ (cs : List (FsCall × Offer)),
      ∀ w ∈ ((exec fsInit (unmounted content ⟨start, lim⟩ junk o)).2.after cs).sent,
      start ≤ w.1 ∧ w.1 + w.2 ≤ start + count

/-! ## What reaches the driver -/

/-- A write that got past the test for the end of the device. -/
def Sent (g : Geo) (d : Dev) (w : Nat × Nat) : Prop :=
  ∃ lba, ((lba = g.rsvd ∨ lba = g.rsvd + g.fatsz) ∧ w.2 = g.fatsz ∨ Target g lba ∧ w.2 = 1) ∧
    pastEnd d lba w.2 = false ∧ w.1 = (lba + d.part) % 2 ^ 32

structure Logged (g : Geo) (d : Dev) (s : Fs) : Prop where
  geo : s.geo = g
  dev : s.dev = d
  sent : ∀ w ∈ s.sent, Sent g d w

variable {g : Geo} {d : Dev}

theorem driver_logged : Stays (Logged g d) driver :=
  driver_cached.stays fun _ _ h hs => ⟨h.geo.trans hs.geo, h.dev.trans hs.dev, h.sent.symm ▸ hs.sent⟩

theorem send_logged (lba n : Nat)
    (ht : (lba = g.rsvd ∨ lba = g.rsvd + g.fatsz) ∧ n = g.fatsz ∨ Target g lba ∧ n = 1) :
    Stays (Logged g d) (send lba n) := by
  refine .read fun s hs => .check fun hp => ?_
  have hp : pastEnd d lba n = false := by
    rw [← hs.dev]
    simpa using hp
  refine .bind (.upd fun s hs => ⟨hs.geo, hs.dev, fun w hw => ?_⟩) fun _ => driver_logged
  rcases List.mem_append.1 hw with hw | hw
  · exact hs.sent w hw
  · obtain rfl := List.mem_singleton.1 hw
    exact ⟨lba, ht, hp, by rw [hs.dev]⟩

theorem bwriteN_logged (lba n : Nat) (b : Bytes)
    (ht : (lba = g.rsvd ∨ lba = g.rsvd + g.fatsz) ∧ n = g.fatsz ∨ Target g lba ∧ n = 1) :
    Stays (Logged g d) (bwriteN lba n b) :=
  (send_logged lba n ht).bind fun _ => .upd fun _ hs => ⟨hs.geo, hs.dev, hs.sent⟩

theorem logged_closed : Closed g (Logged g d) where
  geo _ hs := hs.geo
  cached _ _ h hs := ⟨h.geo.trans hs.geo, h.dev.trans hs.dev, h.sent.symm ▸ hs.sent⟩
  fat _ _ hs := ⟨hs.geo, hs.dev, hs.sent⟩
  cwd _ _ hs := ⟨hs.geo, hs.dev, hs.sent⟩
  savedCwd _ hs := ⟨hs.geo, hs.dev, hs.sent⟩
  path _ _ hs := ⟨hs.geo, hs.dev, hs.sent⟩
  flush := .read fun s hs => by
    have h1 : s.geo = g := hs.geo
    simp only [id, h1]
    exact (bwriteN_logged g.rsvd g.fatsz _ (.inl ⟨.inl rfl, rfl⟩)).bind fun _ =>
      bwriteN_logged (g.rsvd + g.fatsz) g.fatsz _ (.inl ⟨.inr rfl, rfl⟩)
  write lba b ht := (send_logged lba 1 (.inr ⟨ht, rfl⟩)).bind fun _ => .upd fun _ hs =>
    ⟨hs.geo, hs.dev, hs.sent⟩

/-- Along a run every write that reached the driver is accounted for. -/
theorem Logged.after {s : Fs} (h : Logged g d s) (cs : List (FsCall × Offer)) : Logged g d (s.after cs) := by
  induction cs generalizing s with
  | nil => exact h
  | cons c cs ih => exact ih ((logged_closed.call c.1).exec ⟨h.geo, h.dev, h.sent⟩)

/-- Mounting only reads. -/
theorem fsInit_reads : Stays (fun s => s.sent = [] ∧ s.dev = d) fsInit := by
  have hread : ∀ {α : Type} {m : FsM α}, Keeps Cached m → Stays (fun s : Fs => s.sent = [] ∧ s.dev = d) m :=
    fun h => h.stays fun _ _ h hs => ⟨h.sent.trans hs.1, h.dev.trans hs.2⟩
  exact .bind (.upd fun _ hs => hs) fun _ => (hread pageBuf_cached).bind fun _ =>
    (hread pageBuf_cached).bind fun _ =>
    .bind (.upd fun _ hs => hs) fun _ => (hread (bread_cached 0)).bind fun _ => Stays.orFailWith.bind fun g =>
    .bind (.upd fun _ hs => hs) fun _ => .bind (.bind (hread (fetch_cached _ _)) fun _ => .upd fun _
      hs => hs) fun _ =>
    (hread scanDir_cached).bind fun _ => .read fun _ _ => .need

theorem rdU32_lt (b : Bytes) (o : Nat) : rdU32 b o < 2 ^ 32 := by
  have h1 := (b o).toNat_lt
  have h2 := (b (o + 1)).toNat_lt
  have h3 := (b (o + 2)).toNat_lt
  have h4 := (b (o + 3)).toNat_lt
  unfold rdU32
  omega

theorem bioInit_range {mbr : Bytes} {start count : Nat} (h : bioInit mbr = some (start, count)) :
    0 < start ∧ start < 2 ^ 32 ∧ 0 < count ∧ count < 2 ^ 32 := by
  unfold bioInit at h
  split at h
  · cases h
  · obtain ⟨o, -, ho⟩ := List.exists_of_findSome?_eq_some h
    split at ho
    · rename_i hc
      obtain ⟨rfl, rfl⟩ := Prod.mk.injEq .. ▸ Option.some.inj ho
      exact ⟨Nat.pos_of_ne_zero hc.2.1, rdU32_lt _ _, Nat.pos_of_ne_zero hc.2.2, rdU32_lt _ _⟩
    · cases ho

/-- The last sector that a cluster number below 0xFF8 can name, on any accepted volume. -/
def lastTarget : Nat := 74736

theorem Sent.bound {b : Bytes} {w : Nat × Nat} (hb : BpbOk b g) (h : Sent g d w) :
    ∃ lba, lba + w.2 ≤ lastTarget + 1 ∧ pastEnd d lba w.2 = false ∧ w.1 = (lba + d.part) % 2 ^ 32 := by
  obtain ⟨lba, ht, hp, e⟩ := h
  refine ⟨lba, ?_, hp, e⟩
  obtain ⟨n, -, hn, hdata⟩ := hb.data
  have hfats : (b 16).toNat * g.fatsz ≤ 255 * 4 := Nat.mul_le_mul (by have := hb.nfats.2; omega) hb.fatsz.2
  have hroot := hb.root
  have hrsvd := hb.rsvd.2
  have hfatsz := hb.fatsz.2
  have hcl := hb.clusters.2
  unfold lastTarget
  unfold fat12Max at hcl
  rcases ht with ⟨h | h, e2⟩ | ⟨h | ⟨cl, h2, h3, h⟩, e2⟩
  · omega
  · omega
  · omega
  · unfold Geo.dataLba at h
    unfold fat12Eof at h3
    omega

theorem pastEnd_false {lba n : Nat} (h : pastEnd d lba n = false) : 0 < n ∧ (d.sectors ≠ 0 →
    lba ≤ (lba + d.part) % 2 ^ 32 ∧ (lba + d.part) % 2 ^ 32 + n ≤ d.sectors) := by
  unfold pastEnd at h
  simp only [Bool.or_eq_false_iff, Bool.and_eq_false_imp, decide_eq_false_iff_not, decide_eq_true_eq] at h
  obtain ⟨h1, h2⟩ := h
  refine ⟨by omega, fun h0 => ?_⟩
  have h3 := h2 h0
  omega

/-- The device ends with the partition or before; or the partition is smaller than any volume, or so
large that no cluster number reaches beyond it. -/
def EndsInside (start count lim : Nat) : Prop :=
  (lim ≠ 0 ∧ lim ≤ start + count) ∨ count < 5 ∨ (lastTarget < count ∧ (lim ≠ 0 ∨ start + lastTarget < 2 ^ 32))

instance (start count lim : Nat) : Decidable (EndsInside start count lim) := by
  unfold EndsInside; infer_instance

theorem confined_of_ends {start count lim : Nat} (h : EndsInside start count lim) :
    Confined start count lim := by
  intro content junk o hmbr hinit htot cs w hw
  obtain ⟨hstart, hstart32, -, -⟩ := bioInit_range hmbr
  set s0 := unmounted content ⟨start, lim⟩ junk o with hs0
  have hdisk : s0.disk 0 = content start := by
    simp only [hs0, unmounted, Nat.zero_add, Nat.mod_eq_of_lt hstart32]
  have hb : BpbOk (content start) (exec fsInit s0).2.geo :=
    hdisk ▸ geoOf_ok ((fsInit_geo s0.disk s0 rfl).1 () hinit)
  have hread := (fsInit_reads (d := ⟨start, lim⟩)).exec (s := s0) ⟨rfl, rfl⟩
  have hlog : Logged (exec fsInit s0).2.geo ⟨start, lim⟩ (exec fsInit s0).2 :=
    ⟨rfl, hread.2, fun w hw => by rw [hread.1] at hw; cases hw⟩
  obtain ⟨lba, hlba, hpast, e⟩ := ((hlog.after cs).sent w hw).bound hb
  obtain ⟨hpos, hlim⟩ := pastEnd_false hpast
  simp only at hlim e
  have hsmall : lba + w.2 ≤ 74737 := hlba
  rw [e]
  rcases h with ⟨h0, hle⟩ | h | ⟨hc, h⟩
  · have := hlim h0
    omega
  · -- no volume is that small
    have htotal := hb.total
    obtain ⟨n, hn, -, hdata⟩ := hb.data
    have hfat : 1 * 1 ≤ (content start 16).toNat * (exec fsInit s0).2.geo.fatsz :=
      Nat.mul_le_mul hb.nfats.1 hb.fatsz.1
    have hroot := hb.root
    have hrsvd := hb.rsvd.1
    have hcl := hb.clusters.1
    omega
  · unfold lastTarget at hc h
    rcases h with h0 | h32
    · have := hlim h0
      omega
    · omega

/-! ## A volume that reaches beyond its end -/

/-- The root directory that holds the file `A` alone. -/
theorem exec_scanDir_root {s : Fs} {cl : Nat} (he : s.errs = []) (hpages : s.pages ≠ 0)
    (hp : pastEnd s.dev s.geo.firstRoot 1 = false) (hfat : s.fat = fun _ => 0) (hcwd : s.cwd = 0)
    (hfiles : s.files = [])
    (hroot : s.disk s.geo.firstRoot = rootSector cl) (hcl : cl < 65536) :
    ∃ d, exec scanDir s = (some (), { s with
      dir := d, dirBytes := secSize, pages := s.pages - 1, files :=
        [⟨[97], some s.junk, 0, cl, 0, false⟩] }) := by
  have hsect : s.dirSectors = [s.geo.firstRoot] := by
    unfold dirSectors fatEnt
    rw [hcwd, hfat]
    rcases fat12Ent_zero s.geo 1 with e | e <;> rw [e] <;> rfl
  set d := putBytes s.dir 0 (rootSector cl) secSize with hd
  have hbyte : ∀ i, i < 512 → d i = rootSector cl i := fun i hi => by
    simp only [hd, putBytes, secSize]
    rw [if_pos ⟨Nat.zero_le i, by omega⟩, Nat.sub_zero]
  refine ⟨d, ?_⟩
  set s1 : Fs := { s with dir := d, dirBytes := secSize } with hs1
  have hload : exec dirLoad s = (some (), s1) := by
    rw [exec_dirLoad_one he hp hsect, hroot]
  have hsame : { s with files := [] } = s := by rw [← hfiles]
  have hfirst : exec (scanFrom 16 0 none) s1 = exec (scanFrom 15 1 none) { s1 with
      pages := s.pages - 1, files := [⟨[97], some s.junk, 0, cl, 0, false⟩] } := by
    have e0 : d (32 * 0) = 65 := hbyte 0 (by omega)
    have e11 : d (32 * 0 + 11) = 0x20 := hbyte 11 (by omega)
    have ecl : rdU16 d (32 * 0 + 26) = cl := by
      unfold rdU16
      rw [hbyte _ (by omega), hbyte _ (by omega)]
      change (UInt8.ofNat (cl / 256 ^ 0)).toNat + (UInt8.ofNat (cl / 256 ^ 1)).toNat * 256 = cl
      simp only [UInt8.toNat_ofNat']
      omega
    have esz : rdU32 d (32 * 0 + 28) = 0 := by
      unfold rdU32
      rw [hbyte _ (by omega), hbyte _ (by omega), hbyte _ (by omega), hbyte _ (by omega)]
      change (0 : UInt8).toNat + (0 : UInt8).toNat * 256 + (0 : UInt8).toNat * 65536 +
        (0 : UInt8).toNat * 16777216 = 0
      decide
    have ename : entryName d 0 none = [97] := by
      change fatName d 0 = [97]
      unfold fatName fatChars
      have e8 : d (0 + 8) = blank := hbyte 8 (by omega)
      simp only [e8, ne_eq, not_true, if_false, List.append_nil]
      have hpart : ((List.range 8).map fun i => d (0 + 0 + i)) = (List.range 8).map (rootSector cl) :=
        List.map_congr_left fun i hi => by
          have := List.mem_range.1 hi
          rw [Nat.zero_add]
          exact hbyte i (by omega)
      rw [hpart]
      rfl
    conv_lhs => unfold scanFrom
    rw [exec_bind_of (exec_gets _ _)]
    simp only [id, hs1, e0, e11, ecl, esz, ename]
    rw [if_neg (by rw [hfiles]; decide), if_neg (by decide), if_neg (by decide), if_neg (by decide),
      if_neg (by decide), if_neg (by decide), exec_bind_of (exec_pageBuf (s := s1) hpages)]
    rw [exec_bind_of (exec_loadFile_zero _ _ _), exec_bind_of (exec_upd _ _), hfiles]
    rfl
  unfold scanDir
  rw [exec_bind_of (exec_gets _ _)]
  simp only [id, hfiles, dropAll]
  rw [exec_bind_of (exec_pure _ _), exec_bind_of (exec_upd _ _), hsame, exec_bind_of hload,
    exec_bind_of (exec_gets _ _)]
  simp only [id]
  have hents : s1.dirEnts = 16 := by simp [dirEnts, hs1, secSize]
  rw [hents, hfirst]
  have e32 : d (32 * 1) = 0 := hbyte 32 (by omega)
  unfold scanFrom
  rw [exec_bind_of (exec_gets _ _)]
  simp only [id, hs1, e32]
  rfl

/-- The geometry `g` of a boot sector, an empty FAT and one file in the root: what mounting gives. -/
structure OneFile (s : Fs) (g : Geo) (cl : Nat) : Prop where
  errs : s.errs = []
  pages : 3 ≤ s.pages
  junk : s.junk = fun _ => 0
  boot : geoOf (s.disk 0) = some g
  fat : ∀ l, g.rsvd ≤ l → l < g.rsvd + g.fatsz → s.disk l = fun _ => 0
  root : s.disk g.firstRoot = rootSector cl
  reads : ∀ lba n, 0 < n → lba + n ≤ g.firstData → pastEnd s.dev lba n = false
  order : g.rsvd + g.fatsz ≤ g.firstRoot ∧ g.firstRoot < g.firstData ∧ 0 < g.fatsz
  cluster : cl < 65536

theorem OneFile.mount {s : Fs} {g : Geo} {cl : Nat} (h : OneFile s g cl) :
    ∃ s', exec fsInit s = (some (), s') ∧ s'.geo = g ∧ s'.errs = [] ∧ s'.dev = s.dev ∧ (s'.fat = fun _ => 0) ∧
      s'.cwd = 0 ∧ (∃ b, s'.files = [⟨[97], some b, 0, cl, 0, false⟩]) := by
  obtain ⟨he, hpages, hjunk, hboot, hfat, hroot, hreads, ⟨ho1, ho2, ho3⟩, hcl⟩ := h
  have hread0 : pastEnd s.dev 0 1 = false := hreads 0 1 (by omega) (by omega)
  have hreadfat : pastEnd s.dev g.rsvd g.fatsz = false := hreads _ _ ho3 (by omega)
  have hreadroot : pastEnd s.dev g.firstRoot 1 = false := hreads _ _ (by omega) (by omega)
  have hfat0 : putBytes (fun _ => 0) 0 (fun i => s.disk (g.rsvd + i / secSize) (i % secSize))
      (fatBytes g) = fun _ => 0 := by
    funext i
    unfold putBytes fatBytes
    split
    · rename_i hi
      simp only [Nat.sub_zero]
      rw [hfat _ (Nat.le_add_right _ _) (by
        have : i / secSize < g.fatsz := Nat.div_lt_of_lt_mul (by rw [Nat.mul_comm]; omega)
        omega)]
    · rfl
  unfold fsInit
  rw [exec_bind_of (exec_upd _ _), exec_bind_of (exec_pageBuf (by dsimp only; omega))]
  dsimp only
  rw [exec_bind_of (exec_pageBuf (by dsimp only; omega))]
  dsimp only
  rw [exec_bind_of (exec_upd _ _)]
  dsimp only
  rw [exec_bind_of (exec_bread (by exact he) (by exact hread0))]
  simp only [hboot, hjunk]
  rw [exec_bind_of (exec_orFailWith _ _), exec_bind_of (exec_upd _ _)]
  dsimp only
  rw [exec_bind_of (exec_loadFat (by exact he) (by exact hreadfat))]
  dsimp only
  rw [hfat0]
  set s2 : Fs := { s with
    pages := s.pages - 1 - 1, geo := g, fat := fun _ => 0, cwd := 0, savedCwd := 0, path :=
      [slash], dir := fun _ => 0,
    dirBytes := 0, files := [], view := none, junk := fun _ => 0 }
  obtain ⟨d, hscan⟩ := exec_scanDir_root (s := s2) he (by change s.pages - 1 - 1 ≠ 0; omega)
    hreadroot rfl rfl rfl hroot hcl
  rw [exec_bind_of hscan]
  exact ⟨_, rfl, rfl, he, rfl, rfl, rfl, _, rfl⟩

/-- The write `w` is in the log. -/
def HasSent (g : Geo) (w : Nat × Nat) (s : Fs) : Prop := s.geo = g ∧ w ∈ s.sent

/-- The log is never shortened. -/
theorem sent_closed (w : Nat × Nat) : Closed g (HasSent g w) := by
  have hsend : ∀ lba n, Stays (HasSent g w) (send lba n) := fun lba n =>
    .read fun _ _ => Stays.need.bind fun _ => .bind
      (.upd fun _ hs => ⟨hs.1, List.mem_append_left _ hs.2⟩) fun _ =>
      driver_cached.stays fun _ _ h hs => ⟨h.geo.trans hs.1, h.sent.symm ▸ hs.2⟩
  have hwrite : ∀ lba n b, Stays (HasSent g w) (bwriteN lba n b) := fun lba n b =>
    (hsend lba n).bind fun _ => .upd fun _ hs => hs
  exact {
    geo := fun _ hs => hs.1
    cached := fun _ _ h hs => ⟨h.geo.trans hs.1, h.sent.symm ▸ hs.2⟩
    fat := fun _ _ hs => hs
    cwd := fun _ _ hs => hs
    savedCwd := fun _ hs => hs
    path := fun _ _ hs => hs
    flush := .read fun _ _ => (hwrite _ _ _).bind fun _ => hwrite _ _ _
    write := fun lba b _ => (hsend lba 1).bind fun _ => .upd fun _ hs => hs }

theorem exec_fatResize_one {s : Fs} {cl : Nat} (hfat : s.fat = fun _ => 0) (hcl : isCluster cl = true) :
    exec (fatResize cl 1) s = (some (cl, true), { s with fat := fat12Set s.geo s.fat cl fat12Eof }) := by
  unfold fatResize
  rw [if_neg (by decide), exec_bind_of (exec_gets _ _)]
  have hc : chain s.geo s.fat chainMax cl = [cl] := by
    rw [hfat]
    exact chain_zero s.geo 7 cl hcl
  simp only [id, hc]
  rfl

theorem writes_target {s : Fs} {cl : Nat} {b : Bytes} (he : s.errs = []) (hfat : s.fat = fun _ => 0)
    (hfiles : s.files = [⟨[97], some b, 0, cl, 0, false⟩]) (hcl : isCluster cl = true)
    (h1 : pastEnd s.dev s.geo.rsvd s.geo.fatsz = false)
    (h2 : pastEnd s.dev (s.geo.rsvd + s.geo.fatsz) s.geo.fatsz = false)
    (h3 : pastEnd s.dev (s.geo.dataLba cl) 1 = false) (src : Bytes) :
    ((s.geo.dataLba cl + s.dev.part) % 2 ^ 32, 1) ∈ (exec (fsWrite [97] src 1) s).2.sent := by
  set w : Nat × Nat := ((s.geo.dataLba cl + s.dev.part) % 2 ^ 32, 1) with hw
  have hI := sent_closed (g := s.geo) w
  have henter : exec (enterParent [97]) s = (some [97], { s with savedCwd := s.cwd }) := rfl
  have hfind : Fs.findFile { s with savedCwd := s.cwd } [97] = some 0 := by
    unfold findFile
    rw [if_neg (by decide)]
    simp only [hfiles]
    rfl
  have hat : Fs.fileAt { s with savedCwd := s.cwd } 0 = ⟨[97], some b, 0, cl, 0, false⟩ := by
    unfold fileAt
    simp only [hfiles]
    rfl
  set s1 : Fs := { s with savedCwd := s.cwd } with hs1
  have hbody : HasSent s.geo w (exec (writeFile 0 src 1) s1).2 := by
    have hwrite : writeFile 0 src 1 = (do
        need (1 ≤ fileMax)
        let s ← gets id
        let r ← fatResize (s.fileAt 0).cluster (needFor 1)
        modFile 0 fun f => { f with cluster := r.1 }
        need r.2
        fatFlush
        storeChain r.1 src 1
        dirLoad
        putSize (s.fileAt 0).dirOff r.1 1
        dirStore
        modFile 0 fun f => { f with data := f.data.map fun d => putBytes d 0 src 1, len := 1 }) := rfl
    have hres := exec_fatResize_one (s := s1) hfat hcl
    set s2 : Fs := { s1 with
      fat := fat12Set s1.geo s1.fat cl fat12Eof, files :=
        s1.files.modify 0 fun f => { f with cluster := cl } } with hs2
    obtain ⟨dk, l, hflush⟩ := exec_fatFlush (s := s2) he h1 h2
    set s3 : Fs := { s2 with disk := dk, sent := s2.sent ++ l } with hs3
    have hstore : HasSent s.geo w (exec (storeChain cl src 1) s3).2 := by
      have hchain : ∃ rest, chain s3.geo s3.fat chainMax cl = cl :: rest := ⟨_, if_pos hcl⟩
      obtain ⟨rest, hrest⟩ := hchain
      have hcls : ∀ c ∈ rest, isCluster c = true := fun c hc =>
        chain_isCluster _ _ chainMax cl c (hrest ▸ List.mem_cons_of_mem _ hc)
      unfold storeChain
      refine exec_then (P := HasSent s.geo w) (exec_gets _ _) ?_
      simp only [id, hrest]
      unfold storeChainFrom
      rw [if_neg (by decide)]
      refine exec_then (exec_gets _ _) (exec_then (exec_bwrite (s := s3) he h3 _) ?_)
      exact (hI.storeChainFrom _ _ _ hcls _).exec ⟨rfl, List.mem_append_right _ List.mem_cons_self⟩
    rw [hwrite]
    -- the chain is the one cluster, and it is stored behind the FAT flush
    refine exec_then (P := HasSent s.geo w) (exec_need _ _) (exec_then (exec_gets _ _) ?_)
    simp only [id, hat]
    refine exec_then hres (exec_then (exec_upd _ _) (exec_then (exec_need _ _) (exec_then hflush ?_)))
    have hlast : Stays (HasSent s.geo w) (dirLoad >>= fun _ => putSize 0 cl 1 >>= fun _ =>
      dirStore >>= fun _ =>
        modFile 0 fun f => { f with data := f.data.map fun d => putBytes d 0 src 1, len := 1 }) :=
      (hI.read dirLoad_cached).bind fun _ => (hI.putSize _ _ _).bind fun _ => hI.dirStore.bind fun _ =>
        hI.read (modFile_cached _ _)
    exact Stays.exec_bind hstore fun _ => hlast
  have hrest : ∀ r : Option Unit, Stays (HasSent s.geo w) (leaveParent >>= fun _ =>
      (orFailWith r : FsM Unit)) := fun r => hI.leaveParent.bind fun _ => .orFailWith
  unfold fsWrite
  rw [exec_bind_of henter, exec_bind_of (exec_gets _ _)]
  simp only [id, hfind, hat]
  rw [if_neg (by decide)]
  exact (Stays.exec_bind (I := HasSent s.geo w) (m := result (writeFile 0 src 1)) hbody hrest).2

/-- For every sector up to the last target there is a volume of which a cluster number names the
sector, though the volume ends before. -/
theorem layout_exists {l : Nat} (h5 : 5 ≤ l) (hl : l ≤ lastTarget) :
    ∃ rsvd nfats rootEnt fatsz n cl,
    (0 < rsvd ∧ rsvd < 65536) ∧ (0 < nfats ∧ nfats < 256) ∧ (0 < rootEnt ∧ rootEnt < 65536) ∧
    (0 < fatsz ∧ fatsz ≤ 4) ∧
      n = (rootEnt * 32 + 511) / 512 ∧ 4 ≤ cl ∧ cl < fat12Eof ∧ rsvd + nfats * fatsz + n + cl = l +
      2 := by
  unfold lastTarget at hl
  unfold fat12Eof
  by_cases h1 : l ≤ 65539
  · exact ⟨l - 4, 1, 16, 1, 1, 4, by omega, by omega, by omega, by omega, rfl, by omega, by omega, by omega⟩
  by_cases h2 : l ≤ 69634
  · exact ⟨65535, 1, min (16 * (l - 65538)) 65535, 1, l - 65538, 4, by omega, by omega, by omega,
      by omega, by omega, by omega, by omega, by omega⟩
  by_cases h3 : l ≤ 70653
  · exact ⟨65535, 255, min (16 * (l - 66557)) 65535, 4, l - 66557, 4, by omega, by omega, by omega,
      by omega, by omega, by omega, by omega, by omega⟩
  · exact ⟨65535, 255, 65535, 4, 4096, l - 70649, by omega, by omega, by omega, by omega, by omega,
      by omega, by omega, by omega⟩

/-- A partition table with one FAT12 entry. -/
def mbrSector (start count : Nat) : Bytes := fun i =>
  if i = 450 then 1
  else if i = 510 then 0x55
  else if i = 511 then 0xAA
  else if i < 458 then UInt8.ofNat (start / 256 ^ (i - 454))
  else UInt8.ofNat (count / 256 ^ (i - 458))

theorem mbrSector_start {start count i : Nat} (hi : i < 4) :
    mbrSector start count (454 + i) = UInt8.ofNat (start / 256 ^ i) := by
  unfold mbrSector
  rw [if_neg (by omega), if_neg (by omega), if_neg (by omega), if_pos (by omega), Nat.add_sub_cancel_left]

theorem mbrSector_count {start count i : Nat} (hi : i < 4) :
    mbrSector start count (458 + i) = UInt8.ofNat (count / 256 ^ i) := by
  unfold mbrSector
  rw [if_neg (by omega), if_neg (by omega), if_neg (by omega), if_neg (by omega), Nat.add_sub_cancel_left]

/-- The four bytes of a number give it back. -/
theorem rdU32_bytes {b : Bytes} {o v : Nat} (hv : v < 2 ^ 32)
    (h : ∀ i, i < 4 → b (o + i) = UInt8.ofNat (v / 256 ^ i)) :
    rdU32 b o = v := by
  unfold rdU32
  have h0 := h 0 (by omega)
  rw [Nat.add_zero] at h0
  rw [h0, h 1 (by omega), h 2 (by omega), h 3 (by omega)]
  simp only [UInt8.toNat_ofNat']
  omega

/-- The first entry of a table counts when it is of the right type and not empty. -/
theorem bioInit_first {b : Bytes} (h510 : b 510 = 0x55) (h511 : b 511 = 0xAA) (h450 : b 450 = 1)
    (hs : rdU32 b 454 ≠ 0) (hc : rdU32 b 458 ≠ 0) : bioInit b = some (rdU32 b 454, rdU32 b 458) := by
  unfold bioInit
  have hrange : (List.range 4).map (fun i => 0x1BE + i * 16) = 446 :: [462, 478, 494] := by decide
  rw [if_neg (by simp [h510, h511]), hrange, List.findSome?_cons]
  simp only [Nat.reduceAdd]
  rw [if_pos ⟨h450, hs, hc⟩]

theorem bioInit_mbrSector {start count : Nat} (hs : 0 < start) (hs32 : start < 2 ^ 32) (hc : 0 < count)
    (hc32 : count < 2 ^ 32) : bioInit (mbrSector start count) = some (start, count) := by
  have e1 : rdU32 (mbrSector start count) 454 = start := rdU32_bytes hs32 fun _ => mbrSector_start
  have e2 : rdU32 (mbrSector start count) 458 = count := rdU32_bytes hc32 fun _ => mbrSector_count
  rw [bioInit_first (by simp [mbrSector]) (by simp [mbrSector]) (by simp [mbrSector]) (by omega)
    (by omega), e1, e2]

/-- A device with a volume that announces two clusters, and with a file at cluster `cl`. -/
def shortVolume (start count rsvd nfats rootEnt fatsz n cl a : Nat) : Bytes :=
  if a = 0 then mbrSector start count
  else if a = start then bootSector rsvd nfats rootEnt fatsz (rsvd + nfats * fatsz + n + 2)
  else if a = start + (rsvd + nfats * fatsz) then rootSector cl
  else fun _ => 0

/-- A file at a cluster number behind the clusters is written behind the partition. -/
theorem reaches_beyond {start count lim : Nat} (hs : 0 < start) (hlim : lim < 2 ^ 32)
    (hsum : start + count ≤ 2 ^ 32) (h : ¬ EndsInside start count lim) :
    ¬ Confined start count lim := by
  unfold EndsInside at h
  push Not at h
  obtain ⟨h1, h5, h2⟩ := h
  have hc : count ≤ lastTarget := by
    by_contra hgt
    have := h2 (by omega)
    omega
  have hwide : lim = 0 ∨ start + count < lim := by
    rcases Nat.eq_zero_or_pos lim with h0 | h0
    · exact .inl h0
    · exact .inr (h1 (by omega))
  obtain ⟨rsvd, nfats, rootEnt, fatsz, n, cl, hr, hn, hre, hf, rfl, hcl4, hcl, hl⟩ := layout_exists h5 hc
  have hfats : 1 * 1 ≤ nfats * fatsz := Nat.mul_le_mul hn.1 hf.1
  have hone : 1 * fatsz ≤ nfats * fatsz := Nat.mul_le_mul_right _ hn.1
  set n := (rootEnt * 32 + 511) / 512 with hndef
  have hn0 : 0 < n := by omega
  set content := shortVolume start count rsvd nfats rootEnt fatsz n cl with hcontent
  set s := unmounted content ⟨start, lim⟩ (fun _ => 0) ⟨100, []⟩ with hsdef
  set g : Geo := ⟨rsvd, fatsz, 2, rsvd + nfats * fatsz, rsvd + nfats * fatsz + n⟩ with hg
  have hend : ∀ lba k, 0 < k → lba + k ≤ count + 1 → pastEnd ⟨start, lim⟩ lba k = false := by
    intro lba k hk hle
    unfold pastEnd
    simp only [Bool.or_eq_false_iff, Bool.and_eq_false_imp, decide_eq_false_iff_not, decide_eq_true_eq]
    refine ⟨by omega, fun h0 => ?_⟩
    omega
  have hdisk : ∀ lba, lba < rsvd + nfats * fatsz + n → s.disk lba = content (lba + start) := fun lba hlt => by
    simp only [hsdef, unmounted]
    rw [Nat.mod_eq_of_lt (by omega)]
  have hboot : content start = bootSector rsvd nfats rootEnt fatsz (rsvd + nfats * fatsz + n + 2) := by
    simp only [hcontent, shortVolume]
    rw [if_neg (by omega), if_pos trivial]
  have hmount : OneFile s g cl := by
    refine ⟨rfl, (by decide : 3 ≤ 100), rfl, ?_, fun l h1 h2 => ?_, ?_, fun lba k hk hle => hend lba
      k hk ?_, ⟨?_, ?_, hf.1⟩, ?_⟩
    · rw [hdisk 0 (by omega), Nat.zero_add, hboot]
      exact geoOf_bootSector hr hn hre hf (by unfold fat12Max; omega) n hndef
    · simp only [hg] at h1 h2
      rw [hdisk l (by omega)]
      simp only [hcontent, shortVolume]
      rw [if_neg (by omega), if_neg (by omega), if_neg (by omega)]
    · simp only [hg]
      rw [hdisk _ (by omega)]
      simp only [hcontent, shortVolume]
      rw [if_neg (by omega), if_neg (by omega), if_pos (by omega)]
    · simp only [hg] at hle
      omega
    · simp only [hg]
      omega
    · simp only [hg]
      omega
    · unfold fat12Eof at hcl
      omega
  obtain ⟨s', hinit, hgeo, -, hdev, hfat, hcwd, b, hfiles⟩ := hmount.mount
  intro hconf
  have htot : bpbTotal (content start) ≤ count := by
    have hb := (geoOf_ok (hdisk 0 (by omega) ▸ hmount.boot)).total
    rw [Nat.zero_add] at hb
    rw [hb]
    simp only [hg]
    omega
  have hrun := hconf content (fun _ => 0) ⟨100, []⟩
    (by simp only [hcontent, shortVolume]; exact bioInit_mbrSector hs (by omega) (by omega) (by omega))
    (by rw [← hsdef, hinit]) htot [(.write [97] (fun _ => 0) 1, ⟨100, []⟩)]
  rw [← hsdef, hinit] at hrun
  have hgeo' : (s'.supplied ⟨100, []⟩).geo = g := hgeo
  have hdev' : (s'.supplied ⟨100, []⟩).dev = ⟨start, lim⟩ := hdev
  have hw := writes_target (s := s'.supplied ⟨100, []⟩) rfl hfat hfiles
    (by unfold isCluster; simp only [Bool.and_eq_true, decide_eq_true_eq]; omega)
    (by rw [hgeo', hdev']; exact hend _ _ hf.1 (by simp only [hg]; omega))
    (by rw [hgeo', hdev']; exact hend _ _ hf.1 (by simp only [hg]; omega))
    (by rw [hgeo', hdev']; exact hend _ _ (by omega) (by simp only [hg, Geo.dataLba]; omega)) (fun _ => 0)
  rw [hgeo', hdev'] at hw
  obtain ⟨h1, h2⟩ := hrun _ hw
  simp only [hg, Geo.dataLba] at h1 h2
  omega

/-- **The driver writes only to the partition** exactly when nothing lies behind it on the device,
or when it is smaller than any volume or larger than any cluster number reaches. -/
theorem writes_confined {start count lim : Nat} (hs : 0 < start) (hlim : lim < 2 ^ 32) :
    (EndsInside start count lim → Confined start count lim) ∧
      (start + count ≤ 2 ^ 32 → Confined start count lim → EndsInside start count lim) := by
  refine ⟨confined_of_ends, fun hsum hconf => ?_⟩
  by_contra h
  exact reaches_beyond hs hlim hsum h hconf

theorem writes_confined_whole : (EndsInside 2048 4096 6144 → Confined 2048 4096 6144) ∧
    (2048 + 4096 ≤ 2 ^ 32 → Confined 2048 4096 6144 → EndsInside 2048 4096 6144) :=
  writes_confined (by decide) (by decide)

/-- With another partition behind it a volume of 4096 sectors is left. -/
theorem writes_behind_partition : ¬ Confined 2048 4096 8192 :=
  reaches_beyond (by decide) (by decide) (by decide) (by decide)

end Fs

end VampireOS
