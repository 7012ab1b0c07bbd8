import VampireOS.Fs.Slots
import VampireOS.Fs.Transfers

/-!
# A well-formed volume

Every occupied slot owns the clusters of its chain, and the root the clusters of its extension. On a
well-formed volume these chains are finite and apart from each other, each file is at most 4096
bytes and its chain covers it, each subdirectory knows its parent, behind the first slot that starts
with 0 a directory has only such slots, and its long-name entries are directly followed by an entry.
-/

namespace VampireOS.Fs

open Lib

/-- The bytes of the directory at `d`, as a scan loads them. -/
def dirData (v : Fs) (d : Nat) : Bytes := sectorBytes v.disk ({ v with cwd := d } : Fs).dirSectors

/-- Its number of slots. -/
def dirLen (v : Fs) (d : Nat) : Nat := ({ v with cwd := d } : Fs).dirSectors.length * 16

/-- All entries of the directory at `d`. -/
def entries (v : Fs) (d : Nat) : List FileEnt := entriesOf (v.dirData d) (v.dirLen d)

/-- A slot with a chain of its own: not free, no long name, no label, not `.` or `..`. -/
def ownsChain (b : Bytes) (j : Nat) : Bool :=
  !(freeMark (b (32 * j)) || b (32 * j) = dot || skippedAttr (b (32 * j + 11)))

def Occupied (v : Fs) (d j : Nat) : Prop := j < v.dirLen d ∧ ownsChain (v.dirData d) j = true

def slotStart (v : Fs) (d j : Nat) : Nat := rdU16 (v.dirData d) (32 * j + 26)
def slotSize (v : Fs) (d j : Nat) : Nat := rdU32 (v.dirData d) (32 * j + 28)
def slotIsDir (v : Fs) (d j : Nat) : Bool := v.dirData d (32 * j + 11) &&& 0x10 ≠ 0

/-- The name that a scan lists. -/
def slotName (v : Fs) (d j : Nat) : Name := entryName (v.dirData d) j (lfnRunAt (v.dirData d) j)

/-- The chain from `cl` as the loops of the file system see it. -/
def chainAt (v : Fs) (cl : Nat) : List Nat := chain v.geo v.fat chainMax cl

/-- The clusters of slot `j` of the directory at `d`. -/
def owned (v : Fs) (d j : Nat) : List Nat := v.chainAt (v.slotStart d j)

/-- The clusters of the directory at `d`; its first sector is not among them when it is the root. -/
def dirClusters (v : Fs) (d : Nat) : List Nat :=
  if d < 2 then chain v.geo v.fat (chainMax - 1) (v.fatEnt 1) else v.chainAt d

/-- The directories of the volume. -/
inductive Dir (v : Fs) : Nat → Prop where
  | root : Dir v 0
  | sub {d j : Nat} : Dir v d → v.Occupied d j → v.slotIsDir d j = true → Dir v (v.slotStart d j)

/-- The first sector of a subdirectory: `.`, and `..` with the parent. -/
structure HasDots (b : Bytes) (parent : Nat) : Prop where
  dot : b 0 = dot
  dots : b 32 = VampireOS.dot
  attr : b 43 ≠ 0x0F
  up : rdU16 b 58 = parent

/-- An occupied slot: its chain is finite, and covers the file or is a directory. -/
structure SlotOk (v : Fs) (d j : Nat) : Prop where
  chain : OwnChain v (v.slotStart d j) (v.owned d j)
  file : v.slotIsDir d j = false → v.slotSize d j ≤ fileMax ∧ v.slotSize d j ≤ secSize * (v.owned d j).length
  dir : v.slotIsDir d j = true → isCluster (v.slotStart d j) = true ∧
    HasDots (v.disk (v.geo.dataLba (v.slotStart d j))) d

/-- Who has clusters: the root, or a slot of a directory. -/
inductive Owner where
  | root
  | slot (d j : Nat)

def Owner.Live (v : Fs) : Owner → Prop
  | .root => True
  | .slot d j => Dir v d ∧ v.Occupied d j

def held (v : Fs) : Owner → List Nat
  | .root => v.dirClusters 0
  | .slot d j => v.owned d j

/-- Behind a slot that starts with 0 there are only such slots, and no long-name entry is in front
of a free slot. -/
structure Tidy (b : Bytes) (n : Nat) : Prop where
  zero : ∀ k m, k ≤ m → m < n → b (32 * k) = 0 → b (32 * m) = 0
  long : ∀ k < n, freeMark (b (32 * k)) = false → b (32 * k + 11) = 0x0F → k + 1 < n ∧
    freeMark (b (32 * (k + 1))) = false

structure WellFormed (v : Fs) : Prop where
  geo : v.geo.Sane
  root : OwnChain v (v.fatEnt 1) (v.dirClusters 0)
  slot : ∀ d j, Dir v d → v.Occupied d j → SlotOk v d j
  apart : ∀ o o', o.Live v → o'.Live v → o ≠ o' → (v.held o).Disjoint (v.held o')
  tidy : ∀ d, Dir v d → Tidy (v.dirData d) (v.dirLen d)

variable {v v' : Fs} {d d' e j j' c : Nat} {l : List Nat} {o : Owner}

theorem DirChain.sectorsAt (h : DirChain v d l) :
    ({ v with cwd := d } : Fs).dirSectors = sectorsOf v.geo d l :=
  h.sectors (s := { v with cwd := d }) rfl rfl rfl

theorem DirChain.data (h : DirChain v d l) : v.dirData d = sectorBytes v.disk (sectorsOf v.geo d l) := by
  unfold dirData
  rw [h.sectorsAt]

theorem DirChain.len (h : DirChain v d l) : v.dirLen d = (sectorsOf v.geo d l).length * 16 := by
  unfold dirLen
  rw [h.sectorsAt]

theorem listing_take (v : Fs) (d : Nat) : v.listing d = (v.entries d).take fsMax := listing_entries v d

theorem chainAt_length (v : Fs) (c : Nat) : (v.chainAt c).length ≤ chainMax := chain_length _ _ _ _

theorem chainAt_eq (hc : OwnChain v c l) (hl : l.length ≤ chainMax) : v.chainAt c = l := hc.chain_eq hl

theorem dirClusters_root (h : d < 2) :
    v.dirClusters d = chain v.geo v.fat (chainMax - 1) (v.fatEnt 1) := if_pos h

theorem dirClusters_sub (h : 2 ≤ d) : v.dirClusters d = v.chainAt d := if_neg (by omega)

theorem DirChain.eq (h : DirChain v d l) : v.dirClusters d = l := by
  have hchain := h.chain.links
  have hlen := h.length
  unfold dirHead at hchain
  by_cases hd : d < 2
  · rw [if_pos hd] at hchain hlen
    rw [dirClusters_root hd, chain_follow]
    exact hchain.follow_all hlen
  · rw [if_neg hd] at hchain hlen
    rw [dirClusters_sub (by omega), chainAt, chain_follow]
    exact hchain.follow_all hlen

/-- A chain that starts at a cluster has it. -/
theorem OwnChain.start_mem (h : OwnChain v c l) (hc : isCluster c = true) : c ∈ l := by
  have hlinks := h.links
  cases l with
  | nil =>
    rw [Links.nil_iff, hc] at hlinks
    cases hlinks
  | cons a l =>
    rw [(Links.cons_iff.1 hlinks).1]
    exact List.mem_cons_self

theorem DirChain.self_mem (h : DirChain v d l) (h2 : 2 ≤ d) : d ∈ l := by
  have hchain := h.chain
  unfold dirHead at hchain
  rw [if_neg (by omega)] at hchain
  cases hc : isCluster d with
  | true => exact hchain.start_mem hc
  | false =>
    have hlinks := hchain.links
    cases l with
    | nil => exact absurd rfl (h.ne h2)
    | cons a l =>
      obtain ⟨rfl, hlive, -⟩ := Links.cons_iff.1 hlinks
      rw [hc] at hlive
      cases hlive

/-- The first sector of a subdirectory is that of its first cluster. -/
theorem DirChain.first (h : DirChain v d l) (h2 : 2 ≤ d) {k : Nat} (hk : k < secSize) :
    v.dirData d k = v.disk (v.geo.dataLba d) k := by
  have hchain := h.chain.links
  unfold dirHead at hchain
  rw [if_neg (by omega)] at hchain
  rw [h.data, sectorsOf, if_neg (by omega), List.nil_append]
  cases l with
  | nil => exact absurd rfl (h.ne h2)
  | cons a l =>
    obtain ⟨rfl, -, -⟩ := Links.cons_iff.1 hchain
    rw [List.map_cons, sectorBytes_head _ _ _ hk]

/-- A directory with the same bytes has the same slots. -/
theorem slots_congr (h : v'.dirData d = v.dirData d) (hn : v'.dirLen d = v.dirLen d) (j : Nat) :
    (v'.Occupied d j ↔ v.Occupied d j) ∧ v'.slotStart d j = v.slotStart d j ∧
    v'.slotSize d j = v.slotSize d j ∧
      v'.slotIsDir d j = v.slotIsDir d j := by
  unfold Occupied slotStart slotSize slotIsDir
  rw [h, hn]
  exact ⟨Iff.rfl, rfl, rfl, rfl⟩

/-! ## Directories and their slots -/

/-- The owner of the clusters of the directory at `d`. -/
inductive Home (v : Fs) : Nat → Owner → Prop where
  | root : Home v 0 .root
  | slot {p j : Nat} : v.slotIsDir p j = true → Home v (v.slotStart p j) (.slot p j)

theorem Home.slot_inv {p : Nat} (h : Home v e (.slot p j)) :
    v.slotIsDir p j = true ∧ v.slotStart p j = e := by
  cases h with
  | slot hdir => exact ⟨hdir, rfl⟩

theorem Dir.home (hd : Dir v d) : ∃ o : Owner, o.Live v ∧ Home v d o := by
  cases hd with
  | root => exact ⟨.root, trivial, .root⟩
  | @sub p j hp hj hdir => exact ⟨.slot p j, ⟨hp, hj⟩, .slot hdir⟩

namespace WellFormed

/-- A directory other than the root starts at a cluster. -/
theorem sub_cluster (h : WellFormed v) {p : Nat} (hp : Dir v p) (hj : v.Occupied p j)
    (hdir : v.slotIsDir p j = true) :
    2 ≤ v.slotStart p j := (isCluster_iff.1 ((h.slot p j hp hj).dir hdir).1).1

theorem two_le (h : WellFormed v) (hd : Dir v d) (h0 : d ≠ 0) : 2 ≤ d := by
  cases hd with
  | root => exact absurd rfl h0
  | sub hp hj hdir => exact h.sub_cluster hp hj hdir

theorem home_held (h : WellFormed v) (ho : o.Live v) (hh : Home v d o) : v.held o = v.dirClusters d := by
  cases hh with
  | root => rfl
  | @slot p j hdir => exact (dirClusters_sub (h.sub_cluster ho.1 ho.2 hdir)).symm

theorem dirChain (h : WellFormed v) (hd : Dir v d) : DirChain v d (v.dirClusters d) := by
  cases hd with
  | root =>
    refine ⟨h.root, ?_, nofun⟩
    rw [dirClusters_root (by decide)]
    exact chain_length _ _ _ _
  | @sub p j hp hj hdir =>
    have h2 := h.sub_cluster hp hj hdir
    have hchain := (h.slot p j hp hj).chain
    rw [dirClusters_sub h2]
    refine ⟨?_, ?_, fun _ hnil => ?_⟩
    · unfold dirHead
      rw [if_neg (by omega)]
      exact hchain
    · rw [if_neg (by omega)]
      exact v.chainAt_length _
    · have hm := hchain.start_mem ((h.slot p j hp hj).dir hdir).1
      unfold owned at hm
      rw [hnil] at hm
      cases hm

theorem held_chain (h : WellFormed v) (ho : o.Live v) : ∃ cl, OwnChain v cl (v.held o) := by
  cases o with
  | root => exact ⟨_, h.root⟩
  | slot d j => exact ⟨_, (h.slot d j ho.1 ho.2).chain⟩

/-- Clusters that are held are in use. -/
theorem held_used (h : WellFormed v) (ho : o.Live v) : ∀ c ∈ v.held o, v.fatEnt c ≠ 0 := by
  obtain ⟨cl, hc⟩ := h.held_chain ho
  exact hc.used

/-- A directory has one owner. -/
theorem home_unique (h : WellFormed v) {o' : Owner} (ho : o.Live v) (ho' : o'.Live v)
    (hh : Home v d o) (hh' : Home v d o') : o = o' := by
  cases hh with
  | root =>
    generalize hz : (0 : Nat) = z at hh'
    cases hh' with
    | root => rfl
    | slot hdir =>
      have := h.sub_cluster ho'.1 ho'.2 hdir
      omega
  | @slot p j hdir =>
    have h2 := h.sub_cluster ho.1 ho.2 hdir
    by_contra hne
    have hd : Dir v (v.slotStart p j) := .sub ho.1 ho.2 hdir
    have hm := (h.dirChain hd).self_mem h2
    refine h.apart _ _ ho ho' hne ?_ ((h.home_held ho' hh').symm ▸ hm)
    rw [h.home_held ho (.slot hdir)]
    exact hm

/-- No directory is a slot of its own. -/
theorem not_self (h : WellFormed v) (hd : Dir v d) :
    ∀ k, v.Occupied d k → v.slotIsDir d k = true → v.slotStart d k ≠ d := by
  induction hd with
  | root =>
    intro k hk hdir e
    have := h.sub_cluster .root hk hdir
    omega
  | @sub p j hp hj hdir ih =>
    intro k hk hkdir e
    have hd : Dir v (v.slotStart p j) := .sub hp hj hdir
    have hhome : Home v (v.slotStart p j) (.slot (v.slotStart p j) k) := by
      have := Home.slot hkdir
      rwa [e] at this
    obtain ⟨hp', rfl⟩ := Owner.slot.inj (h.home_unique (o := .slot p j) ⟨hp, hj⟩ ⟨hd, hk⟩ (.slot hdir) hhome)
    exact ih j hj hdir hp'.symm

/-- An owner that is not the directory's shares no cluster with it. -/
theorem dir_apart (h : WellFormed v) (hd : Dir v d) (ho : o.Live v) (hne : ¬ Home v d o) :
    (v.dirClusters d).Disjoint (v.held o) := by
  obtain ⟨o', ho', hh⟩ := hd.home
  rw [← h.home_held ho' hh]
  exact h.apart o' o ho' ho fun e => hne (e ▸ hh)

theorem data_not_fat (hw : WellFormed v) (h2 : 2 ≤ c) (hc : c ≤ v.geo.clusters + 1) :
    v.geo.dataLba c ∉ v.geo.fatSectors :=
  fun hm => Set.disjoint_left.1 hw.geo.separate.fatData hm ⟨c, ⟨h2, hc⟩, rfl⟩

end WellFormed

end VampireOS.Fs
