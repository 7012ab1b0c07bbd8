import Mathlib.Data.Set.BooleanAlgebra
import Mathlib.Order.CompletePartialOrder
import Mathlib.Order.Interval.Set.Basic
import VampireOS.Fs.Cwd

/-!
# Mounting the volume (kernel/fs.c:1317-1404)

| here | there |
| --- | --- |
| `bpbTotal`, `geoOf` | the BPB fields of `fs_init` and its checks |
| `fsInit` | `fs_init`, without the messages |
| `Geo.fatSectors`, `Geo.firstRoot`, `Geo.dataSectors` | what `fat_flush`, `dir_store` and others write |
-/

namespace VampireOS

open Lib

/-- `FAT12_MAX`. -/
def fat12Max : Nat := 4084

def bpbTotal (b : Bytes) : Nat := if rdU16 b 19 ≠ 0 then rdU16 b 19 else rdU32 b 32

/-- The geometry, when the boot sector is accepted. -/
def geoOf (b : Bytes) : Option Geo :=
  let spc := (b 13).toNat
  let rsvd := rdU16 b 14
  let nfats := (b 16).toNat
  let rootEnt := rdU16 b 17
  let fatsz := rdU16 b 22
  let tot := bpbTotal b
  let rootSecs := (rootEnt * 32 + (secSize - 1)) / secSize
  if rdU16 b 11 ≠ secSize ∨ spc ≠ 1 ∨ rsvd = 0 ∨ nfats = 0 ∨ fatsz = 0 ∨ fatsz > 4 ∨ rootEnt = 0 ∨
    tot = 0 then none
  else if tot < rsvd + nfats * fatsz + rootSecs then none
  else
    let clusters := (tot - rsvd - nfats * fatsz - rootSecs) / spc
    if clusters < 2 ∨ clusters > fat12Max then none
    else some ⟨rsvd, fatsz, clusters, rsvd + nfats * fatsz, rsvd + nfats * fatsz + rootSecs⟩

namespace Fs

/-- `bread(g_rsvd, g_fatsz, g_fat)`. -/
def loadFat (g : Geo) : FsM Unit := do
  fetch g.rsvd g.fatsz
  upd fun s => { s with
    fat := putBytes s.fat 0 (fun i => s.disk (g.rsvd + i / secSize) (i % secSize)) (fatBytes g) }

def fsInit : FsM Unit := do
  upd fun s => { s with
    files := [], dirBytes := 0, view := none, geo := { s.geo with fatsz := 0 }, cwd :=
      0, savedCwd := 0, path := [slash] }
  let scratch ← pageBuf
  let dir ← pageBuf
  upd fun s => { s with fat := scratch, dir := dir }
  let b ← bread 0
  let g ← orFailWith (geoOf b)
  upd fun s => { s with geo := g }
  loadFat g
  scanDir
  let s ← gets id
  need (s.files ≠ [])

end Fs

/-! ## The layout -/

structure BpbOk (b : Bytes) (g : Geo) : Prop where
  rsvd : 0 < g.rsvd ∧ g.rsvd < 65536
  fatsz : 0 < g.fatsz ∧ g.fatsz ≤ 4
  clusters : 2 ≤ g.clusters ∧ g.clusters ≤ fat12Max
  nfats : 0 < (b 16).toNat ∧ (b 16).toNat < 256
  root : g.firstRoot = g.rsvd + (b 16).toNat * g.fatsz
  data : ∃ n, 0 < n ∧ n ≤ 4096 ∧ g.firstData = g.firstRoot + n
  total : bpbTotal b = g.firstData + g.clusters

theorem rdU16_lt (b : Bytes) (o : Nat) : rdU16 b o < 65536 := by
  have h1 := (b o).toNat_lt
  have h2 := (b (o + 1)).toNat_lt
  unfold rdU16
  omega

/-- What the checks say. -/
theorem geoOf_ok {b : Bytes} {g : Geo} (h : geoOf b = some g) : BpbOk b g := by
  unfold geoOf at h
  simp only at h
  split at h
  · cases h
  · split at h
    · cases h
    · split at h
      · cases h
      · rename_i h1 h2 h3
        obtain rfl := Option.some.inj h
        push Not at h1 h2 h3
        obtain ⟨-, hspc, hr, hn, hf, hf4, hroot, -⟩ := h1
        have hr16 := rdU16_lt b 14
        have hroot16 := rdU16_lt b 17
        have hn8 := (b 16).toNat_lt
        rw [hspc, Nat.div_one] at h3 ⊢
        refine ⟨⟨Nat.pos_of_ne_zero hr, hr16⟩, ⟨Nat.pos_of_ne_zero hf, hf4⟩, h3,
          ⟨Nat.pos_of_ne_zero hn, hn8⟩, rfl, ⟨_, ?_, ?_, rfl⟩, ?_⟩
        · unfold secSize
          omega
        · unfold secSize
          omega
        · simp only
          omega

namespace Geo

/-- Both copies of the FAT. -/
def fatSectors (g : Geo) : Set Nat := Set.Ico g.rsvd (g.rsvd + 2 * g.fatsz)

def dataSectors (g : Geo) : Set Nat := g.dataLba '' Set.Icc 2 (g.clusters + 1)

end Geo

/-- The FAT copies, the root directory and the clusters are apart from each other and inside `tot` sectors. -/
structure Separate (g : Geo) (tot : Nat) : Prop where
  fatRoot : g.firstRoot ∉ g.fatSectors
  fatData : Disjoint g.fatSectors g.dataSectors
  rootData : g.firstRoot ∉ g.dataSectors
  clusters : Set.InjOn g.dataLba (Set.Icc 2 (g.clusters + 1))
  below : ∀ l, l ∈ g.fatSectors ∨ l = g.firstRoot ∨ l ∈ g.dataSectors → l < tot

theorem Geo.mem_dataSectors {g : Geo} {l : Nat} :
    l ∈ g.dataSectors ↔ g.firstData ≤ l ∧ l < g.firstData + g.clusters := by
  unfold dataSectors dataLba
  constructor
  · rintro ⟨cl, ⟨h1, h2⟩, rfl⟩
    simp only
    omega
  · rintro ⟨h1, h2⟩
    exact ⟨l - g.firstData + 2, ⟨by omega, by omega⟩, by simp only; omega⟩

/-- With two FATs or more the regions are apart. -/
theorem BpbOk.separate {b : Bytes} {g : Geo} (h : BpbOk b g) (hn : 2 ≤ (b 16).toNat) :
    Separate g (bpbTotal b) := by
  obtain ⟨n, hn0, -, hdata⟩ := h.data
  have hfats : 2 * g.fatsz ≤ (b 16).toNat * g.fatsz := Nat.mul_le_mul_right _ hn
  have hroot := h.root
  have htotal := h.total
  refine ⟨fun hm => ?_, Set.disjoint_left.2 fun l hl hd => ?_, fun hm => ?_,
    fun c hc c' hc' e => ?_, fun l hl => ?_⟩
  · have := hm.2
    omega
  · have h1 := hl.2
    have h2 := (Geo.mem_dataSectors.1 hd).1
    omega
  · have h2 := (Geo.mem_dataSectors.1 hm).1
    omega
  · have h1 := hc.1
    have h2 := hc'.1
    unfold Geo.dataLba at e
    omega
  · rcases hl with hl | rfl | hl
    · have h1 := hl.2
      omega
    · omega
    · have h2 := (Geo.mem_dataSectors.1 hl).2
      omega

/-- A single FAT is flushed over the root directory. -/
theorem BpbOk.one_fat {b : Bytes} {g : Geo} (h : BpbOk b g) (hn : (b 16).toNat = 1) :
    g.firstRoot ∈ g.fatSectors := by
  have hroot := h.root
  have hpos := h.fatsz.1
  rw [hn, Nat.one_mul] at hroot
  exact ⟨by omega, by omega⟩

namespace Fs

theorem cached_disk {α : Type} {m : FsM α} (h : Keeps Cached m) (d : Nat → Bytes) :
    Triple (fun s => s.disk = d) m (fun _ s => s.disk = d) fun _ => True := fun s hs =>
  ⟨fun _ _ => (h s).disk.trans hs, fun _ => trivial⟩

theorem cached_geo {α : Type} {m : FsM α} (h : Keeps Cached m) (g : Geo) :
    Triple (fun s => s.geo = g) m (fun _ s => s.geo = g) fun _ => True := fun s hs =>
  ⟨fun _ _ => (h s).geo.trans hs, fun _ => trivial⟩

theorem bread_disk (d : Nat → Bytes) (lba : Nat) :
    Triple (fun s => s.disk = d) (bread lba) (fun b s => b = d lba ∧ s.disk = d) fun _ => True :=
  (cached_disk (fetch_cached lba 1) d).bind fun _ => Triple.gets.conseq
    (fun s hs => ⟨by rw [hs], hs⟩) (fun _ _ h => h) fun _ h => h

/-- A volume that is mounted has the geometry of its boot sector. -/
theorem fsInit_geo (d : Nat → Bytes) :
    Triple (fun s => s.disk = d) fsInit (fun _ s => geoOf (d 0) = some s.geo) fun _ => True := by
  have hgeo : ∀ g, Triple (fun s => s.geo = g) (do loadFat g; scanDir; let s ← gets id; need (s.files ≠ []))
      (fun _ s => s.geo = g) fun _ => True := by
    intro g
    refine .bind (.bind (cached_geo (fetch_cached _ _) g) fun _ => .change fun _ h => h) fun _ =>
      .bind (cached_geo scanDir_cached g) fun _ => .bind (cached_geo .gets g) fun _ => ?_
    exact cached_geo .need g
  refine .bind (R := fun _ s => s.disk = d) (.change fun _ h => h) fun _ => .bind
    (cached_disk pageBuf_cached d) fun _ =>
    .bind (cached_disk pageBuf_cached d) fun _ => .bind (R := fun _ s => s.disk = d)
      (.change fun _ h => h) fun _ =>
    .bind (bread_disk d 0) fun b => .bind (R := fun g s => geoOf (d 0) = some g) ?_ fun g => ?_
  · refine Triple.orFailWith.conseq (fun s hs => ?_) (fun _ _ h => h) fun _ h => h
    rw [hs.1]
    cases geoOf (d 0) with
    | none => trivial
    | some g => rfl
  · intro s hs
    have hrest := (Triple.change (f := fun s => { s with geo := g }) (P := fun _ => True)
      (Q := fun _ (s' : Fs) => s'.geo = g) fun _ _ => rfl).bind
      fun _ => hgeo g
    exact (hrest.conseq (fun _ h => h) (fun _ s' h => hs.trans (congrArg some h.symm)) fun _ h => h) s trivial

/-- **The regions of a mounted volume are apart** exactly when its boot sector does not announce a
single FAT. -/
theorem regions_separate {s : Fs} (h : (exec fsInit s).1 = some ()) :
    Separate (exec fsInit s).2.geo (bpbTotal (s.disk 0)) ↔ (s.disk 0 16).toNat ≠ 1 := by
  have hok := geoOf_ok ((fsInit_geo s.disk s rfl).1 () h)
  constructor
  · intro hsep h1
    exact hsep.fatRoot (hok.one_fat h1)
  · intro h1
    have := hok.nfats.1
    exact hok.separate (by omega)

/-- The bytes of a number, low byte first. -/
def leBytes (n v : Nat) : List UInt8 := (List.range n).map fun i => UInt8.ofNat (v / 256 ^ i)

/-- A boot sector for 512-byte clusters. -/
def bootSector (rsvd nfats rootEnt fatsz tot : Nat) : Bytes :=
  ofList (List.replicate 11 0 ++ [0, 2, 1] ++ leBytes 2 rsvd ++ leBytes 1 nfats ++ leBytes 2
    rootEnt ++ [0, 0, 0xF8] ++ leBytes 2 fatsz ++ List.replicate 8 0 ++ leBytes 4 tot)

theorem geoOf_bootSector {rsvd nfats rootEnt fatsz clusters : Nat} (h1 : 0 < rsvd ∧ rsvd < 65536)
    (h2 : 0 < nfats ∧ nfats < 256) (h3 : 0 < rootEnt ∧ rootEnt < 65536) (h4 : 0 < fatsz ∧ fatsz ≤ 4)
    (h5 : 2 ≤ clusters ∧ clusters ≤ fat12Max) (n : Nat) (hn : n = (rootEnt * 32 + 511) / 512) :
    geoOf (bootSector rsvd nfats rootEnt fatsz (rsvd + nfats * fatsz + n + clusters)) =
      some ⟨rsvd, fatsz, clusters, rsvd + nfats * fatsz, rsvd + nfats * fatsz + n⟩ := by
  set tot := rsvd + nfats * fatsz + n + clusters with htot
  set b := bootSector rsvd nfats rootEnt fatsz tot with hb
  have hfats : nfats * fatsz ≤ 255 * 4 := Nat.mul_le_mul (by omega) h4.2
  have hcl : clusters ≤ 4084 := h5.2
  have e1 : rdU16 b 14 = rsvd := by
    change (UInt8.ofNat (rsvd / 256 ^ 0)).toNat + (UInt8.ofNat (rsvd / 256 ^ 1)).toNat * 256 = rsvd
    simp only [UInt8.toNat_ofNat']
    omega
  have e2 : (b 16).toNat = nfats := by
    change (UInt8.ofNat (nfats / 256 ^ 0)).toNat = nfats
    simp only [UInt8.toNat_ofNat']
    omega
  have e3 : rdU16 b 17 = rootEnt := by
    change (UInt8.ofNat (rootEnt / 256 ^ 0)).toNat + (UInt8.ofNat (rootEnt / 256 ^ 1)).toNat * 256 = rootEnt
    simp only [UInt8.toNat_ofNat']
    omega
  have e4 : rdU16 b 22 = fatsz := by
    change (UInt8.ofNat (fatsz / 256 ^ 0)).toNat + (UInt8.ofNat (fatsz / 256 ^ 1)).toNat * 256 = fatsz
    simp only [UInt8.toNat_ofNat']
    omega
  have e5 : rdU32 b 32 = tot := by
    change (UInt8.ofNat (tot / 256 ^ 0)).toNat + (UInt8.ofNat (tot / 256 ^ 1)).toNat * 256 +
      (UInt8.ofNat (tot / 256 ^ 2)).toNat * 65536 + (UInt8.ofNat (tot / 256 ^ 3)).toNat * 16777216 = tot
    simp only [UInt8.toNat_ofNat']
    omega
  have e0 : rdU16 b 19 = 0 := by
    change (0 : UInt8).toNat + (0 : UInt8).toNat * 256 = 0
    decide
  have e6 : bpbTotal b = tot := by
    unfold bpbTotal
    rw [if_neg (not_not.2 e0), e5]
  have e7 : rdU16 b 11 = secSize := by
    change (0 : UInt8).toNat + (2 : UInt8).toNat * 256 = 512
    decide
  have e8 : (b 13).toNat = 1 := by
    change (1 : UInt8).toNat = 1
    decide
  unfold geoOf
  simp only [e1, e2, e3, e4, e6, e7, e8, Nat.div_one]
  have hroot : (rootEnt * 32 + (secSize - 1)) / secSize = n := hn.symm
  rw [hroot, if_neg (by unfold secSize; omega), if_neg (by omega)]
  have hclusters : tot - rsvd - nfats * fatsz - n = clusters := by omega
  rw [hclusters, if_neg (by unfold fat12Max; omega)]

/-- A root directory with the empty file `A` at cluster `cl`. -/
def rootSector (cl : Nat) : Bytes :=
  ofList ([65] ++ List.replicate 10 0x20 ++ [0x20] ++ List.replicate 14 0 ++ leBytes 2 cl)

/-- A small volume with `nfats` FATs of one sector. -/
def bootVolume (nfats : Nat) : Fs where
  disk := fun lba =>
    if lba = 0 then bootSector 1 nfats 16 1 (nfats + 12)
    else if lba = 1 + nfats then rootSector 0
    else fun _ => 0
  dev := ⟨1, 0⟩
  errs := []
  pages := 100
  geo := ⟨0, 0, 0, 0, 0⟩
  fat := fun _ => 0
  cwd := 0
  savedCwd := 0
  path := []
  dir := fun _ => 0
  dirBytes := 0
  files := []
  view := none
  junk := fun _ => 0
  sent := []

theorem regions_separate_two :
    Separate (exec fsInit (bootVolume 2)).2.geo (bpbTotal ((bootVolume 2).disk 0)) ↔
    ((bootVolume 2).disk 0 16).toNat ≠ 1 := regions_separate (by decide +kernel)

/-- With one FAT the second copy is the root directory. -/
theorem one_fat_overlaps : (exec fsInit (bootVolume 1)).1 = some () ∧
    ¬ Separate (exec fsInit (bootVolume 1)).2.geo (bpbTotal ((bootVolume 1).disk 0)) := by
  have h : (exec fsInit (bootVolume 1)).1 = some () := by decide +kernel
  refine ⟨h, fun hsep => ?_⟩
  exact hsep.fatRoot ((geoOf_ok ((fsInit_geo _ (bootVolume 1) rfl).1 () h)).one_fat (by decide))

end Fs

end VampireOS
