import Mathlib.Data.List.Basic
import VampireOS.Fs.Scan

/-!
# The entries of a directory by their slots (kernel/fs.c:722, 911, 1232)

A scan looks at one slot after another and carries the run of long names along. `lfnRunAt` is that
run in front of a slot and `entryAt` what the slot adds to the cache, so that a directory is the
list of its slots and a change of one slot can be followed. `entriesOf` are all entries; the cache
has room for the first 48.
-/

namespace VampireOS.Fs

open Lib

/-- The run of long names in front of slot `i`, when no slot before it ends the directory. -/
def lfnRunAt (d : Bytes) : Nat → LfnRun
  | 0 => none
  | i + 1 => if skipMark (d (32 * i)) then none else if d (32 * i + 11) = 0x0F
      then nextRun d i (lfnRunAt d i) else none

/-- What slot `i` adds to the cache; the page is left out. -/
def entryAt (d : Bytes) (i : Nat) : Option FileEnt :=
  let attr := d (32 * i + 11)
  if skipMark (d (32 * i)) || skippedAttr attr then none
  else
    let f : FileEnt := ⟨entryName d i (lfnRunAt d i), none, 0, rdU16 d (32 * i + 26), 32 * i, false⟩
    if attr &&& 0x10 ≠ 0 then some { f with isDir := true }
    else if rdU32 d (32 * i + 28) > fileMax then none
    else some { f with len := rdU32 d (32 * i + 28) }

/-- All entries of a directory of `n` slots. -/
def entriesOf (d : Bytes) (n : Nat) : List FileEnt := (entriesFrom d n 0).filterMap (entryAt d)

variable {d d' : Bytes} {n i j : Nat}

theorem lfnRunAt_succ (d : Bytes) (i : Nat) : lfnRunAt d (i + 1) =
    if skipMark (d (32 * i)) then none else if d (32 * i + 11) = 0x0F
    then nextRun d i (lfnRunAt d i) else none := rfl

theorem entriesFrom_zero (left : Nat) (h : d (32 * i) = 0) : entriesFrom d (left + 1) i = [] := if_pos h

theorem entriesFrom_succ (left : Nat) (h : d (32 * i) ≠ 0) :
    entriesFrom d (left + 1) i = i :: entriesFrom d left (i + 1) := if_neg h

theorem entryAt_skip (h : skipMark (d (32 * i)) = true) : entryAt d i = none := by
  unfold entryAt
  simp only [h, Bool.true_or, if_true]

theorem entryAt_attr (h : skippedAttr (d (32 * i + 11)) = true) : entryAt d i = none := by
  unfold entryAt
  simp only [h, Bool.or_true, if_true]

/-- A slot that is neither passed over nor a long name nor a label. -/
theorem entryAt_used (hs : skipMark (d (32 * i)) = false)
    (ha : skippedAttr (d (32 * i + 11)) = false) : entryAt d i =
    if d (32 * i + 11) &&& 0x10 ≠ 0 then some ⟨entryName d i (lfnRunAt d i), none, 0,
    rdU16 d (32 * i + 26), 32 * i, true⟩
    else if rdU32 d (32 * i + 28) > fileMax then none
    else some ⟨entryName d i (lfnRunAt d i), none, rdU32 d (32 * i + 28), rdU16 d (32 * i + 26),
    32 * i, false⟩ := by
  unfold entryAt
  simp only [hs, ha, Bool.or_self, Bool.false_eq_true, if_false]

/-- A scan is a walk over the slots, as far as there is room. -/
theorem listFrom_slots (d : Bytes) (left : Nat) : ∀ i room : Nat,
    listFrom d left i (lfnRunAt d i) room = ((entriesFrom d left i).filterMap (entryAt d)).take room := by
  induction left with
  | zero => exact fun i room => List.take_nil.symm
  | succ left ih =>
    intro i room
    by_cases h0 : d (32 * i) = 0
    · unfold listFrom
      simp only
      rw [entriesFrom_zero left h0, List.filterMap_nil, List.take_nil, if_pos (Or.inr h0)]
    · rw [entriesFrom_succ left h0]
      cases room with
      | zero =>
        unfold listFrom
        simp only
        rw [if_pos (Or.inl trivial), List.take_zero]
      | succ room =>
        have hnext := ih (i + 1)
        rw [lfnRunAt_succ] at hnext
        unfold listFrom
        simp only
        rw [if_neg (by simp [h0]), List.filterMap_cons]
        cases hs : skipMark (d (32 * i)) with
        | true =>
          simp only [hs, if_true] at hnext
          rw [if_pos rfl, entryAt_skip hs]
          exact hnext _
        | false =>
          simp only [hs, Bool.false_eq_true, if_false] at hnext ⊢
          by_cases hl : d (32 * i + 11) = 0x0F
          · rw [if_pos hl] at hnext ⊢
            rw [entryAt_attr (by simp [skippedAttr, hl])]
            exact hnext _
          · rw [if_neg hl] at hnext ⊢
            by_cases hv : d (32 * i + 11) &&& 0x08 ≠ 0
            · rw [if_pos hv, entryAt_attr (by simp [skippedAttr, hv])]
              exact hnext _
            · rw [if_neg hv, entryAt_used hs (by simpa [skippedAttr, hl] using hv)]
              split
              · rw [List.take_succ_cons, Nat.add_sub_cancel, hnext]
              · split
                · exact hnext _
                · rw [List.take_succ_cons, Nat.add_sub_cancel, hnext]

/-- The listing is the first 48 entries. -/
theorem listing_entries (s : Fs) (cl : Nat) : s.listing cl =
    (entriesOf (sectorBytes s.disk ({ s with cwd := cl } : Fs).dirSectors)
      (({ s with cwd := cl } : Fs).dirSectors.length * 16)).take fsMax :=
  listFrom_slots _ _ 0 fsMax

theorem mem_entriesFrom (d : Bytes) (left : Nat) : ∀ i, j ∈ entriesFrom d left i ↔
    i ≤ j ∧ j < i + left ∧ ∀ k, i ≤ k → k ≤ j → d (32 * k) ≠ 0 := by
  induction left with
  | zero => exact fun i => ⟨nofun, fun h => by omega⟩
  | succ left ih =>
    intro i
    by_cases h0 : d (32 * i) = 0
    · rw [entriesFrom_zero left h0]
      exact ⟨nofun, fun h => absurd h0 (h.2.2 i (Nat.le_refl _) h.1)⟩
    · rw [entriesFrom_succ left h0, List.mem_cons, ih]
      constructor
      · rintro (rfl | ⟨h1, h2, h3⟩)
        · refine ⟨Nat.le_refl _, by omega, fun k h1 h2 => ?_⟩
          obtain rfl : k = j := by omega
          exact h0
        · refine ⟨by omega, by omega, fun k hk hk' => ?_⟩
          rcases Nat.eq_or_lt_of_le hk with rfl | hlt
          · exact h0
          · exact h3 k hlt hk'
      · rintro ⟨h1, h2, h3⟩
        rcases Nat.eq_or_lt_of_le h1 with rfl | hlt
        · exact .inl rfl
        · exact .inr ⟨hlt, by omega, fun k hk hk' => h3 k (by omega) hk'⟩

/-- In front of a slot that the scan reaches, the run is one of long names. -/
theorem lfnRunAt_run (h : ∀ k, k < i → d (32 * k) ≠ 0) : RunAt d i (lfnRunAt d i) := by
  induction i with
  | zero => exact .none
  | succ i ih =>
    have hi := ih fun k hk => h k (by omega)
    rw [lfnRunAt_succ]
    split
    · exact .none
    · next hs =>
      split
      · next hl => exact hi.next (by simpa using hs) (h i (by omega)) hl
      · exact .none

/-! ## Bytes that count -/

/-- Slot `i` has the same bytes. -/
def SameSlot (d d' : Bytes) (i : Nat) : Prop := ∀ k < 32, d' (32 * i + k) = d (32 * i + k)

theorem SameSlot.lfnChars (h : SameSlot d d' i) (out : Name) :
    lfnChars d' (32 * i) out = lfnChars d (32 * i) out := by
  have hslot : (lfnSlot.map fun p => (d' (32 * i + p), d' (32 * i + p + 1))) = lfnSlot.map fun p =>
      (d (32 * i + p), d (32 * i + p + 1)) := by
    refine List.map_congr_left fun p hp => ?_
    have : p ≤ 30 := by
      revert p
      decide
    rw [h p (by omega), Nat.add_assoc, h (p + 1) (by omega)]
  unfold Fs.lfnChars
  rw [hslot, h 11 (by decide), h 12 (by decide)]

/-- The same long-name entries, and the same 8.3 name behind them. -/
theorem lfnBuild_congr {first count : Nat}
    (hrun : ∀ k, first ≤ k → k < first + count → SameSlot d d' k)
    (hname : name83 d' (32 * i) = name83 d (32 * i)) :
    lfnBuild d' first count (32 * i) = lfnBuild d first count (32 * i) := by
  have hslot : ∀ k ∈ List.range count, SameSlot d d' (first + k) := fun k hk => by
    have := List.mem_range.1 hk
    exact hrun _ (by omega) (by omega)
  have hall : ((List.range count).all fun k => d' (32 * (first + k)) =
    (UInt8.ofNat (count - k) ||| if k = 0 then 0x40 else 0) &&
      d' (32 * (first + k) + 13) = lfnCksum (name83 d (32 * i))) =
      (List.range count).all fun k => d (32 * (first + k)) = (UInt8.ofNat (count - k) ||| if k = 0
        then 0x40 else 0) &&
      d (32 * (first + k) + 13) = lfnCksum (name83 d (32 * i)) := by
    rw [Bool.eq_iff_iff, List.all_eq_true, List.all_eq_true]
    refine forall₂_congr fun k hk => ?_
    have h0 := hslot k hk 0 (by decide)
    rw [Nat.add_zero] at h0
    rw [h0, hslot k hk 13 (by decide)]
  have hparts : ∀ (is : List Nat) (a : Option Name), (∀ k ∈ is, k ∈ List.range count) →
      longChars d' first is a = longChars d first is a := by
    intro is
    induction is with
    | nil => exact fun _ _ => rfl
    | cons k is ih =>
      intro a hl
      have he : (a.bind fun out => Fs.lfnChars d' (32 * (first + k)) out) = a.bind fun out =>
          Fs.lfnChars d (32 * (first + k)) out :=
        congrArg a.bind (funext fun out => (hslot k (hl k List.mem_cons_self)).lfnChars out)
      have hstep : ∀ d, longChars d first (k :: is) a = longChars d first is
          (a.bind fun out => Fs.lfnChars d (32 * (first + k)) out) :=
        fun _ => rfl
      rw [hstep, hstep, he]
      exact ih _ fun j hj => hl j (List.mem_cons_of_mem _ hj)
  have hbuild : ∀ d, lfnBuild d first count (32 * i) = if count = 0 ∨ count > 2 ∨
    !(List.range count).all fun k =>
      d (32 * (first + k)) = (UInt8.ofNat (count - k) ||| if k = 0 then 0x40 else 0) &&
        d (32 * (first + k) + 13) = lfnCksum (name83 d (32 * i)) then none
      else (longChars d first (List.range count).reverse (some [])).filter fun n => n ≠ [] := fun _ => rfl
  rw [hbuild, hbuild, hname, hall, hparts _ _ fun k hk => List.mem_reverse.1 hk]

theorem name83_congr (h : ∀ k < 11, d' (32 * i + k) = d (32 * i + k)) :
    name83 d' (32 * i) = name83 d (32 * i) :=
  List.map_congr_left fun k hk => h k (List.mem_range.1 hk)

theorem fatName_congr (h : ∀ k < 11, d' (32 * i + k) = d (32 * i + k)) :
    fatName d' (32 * i) = fatName d (32 * i) := by
  have hpart : ∀ a n, a + n ≤ 11 → ((List.range n).map fun k => d' (32 * i + a + k)) =
      (List.range n).map fun k => d (32 * i + a + k) :=
    fun a n han => List.map_congr_left fun k hk => by
      have := List.mem_range.1 hk
      rw [Nat.add_assoc, h (a + k) (by omega)]
  unfold fatName fatChars
  simp only
  rw [hpart 0 8 (by decide), hpart 8 3 (by decide), h 8 (by decide)]

theorem entryName_congr {run : LfnRun}
    (hrun : ∀ r, run = some r → ∀ k, r.1 ≤ k → k < r.1 + r.2 → SameSlot d d' k)
    (hname : ∀ k < 11, d' (32 * i + k) = d (32 * i + k)) :
    entryName d' i run = entryName d i run := by
  unfold entryName
  rw [fatName_congr hname]
  cases run with
  | none => rfl
  | some r => rw [Option.bind_some, Option.bind_some, lfnBuild_congr (hrun r rfl) (name83_congr hname)]

/-- Marks and attributes decide the runs. -/
theorem lfnRunAt_congr (h : ∀ k < i, d' (32 * k) = d (32 * k) ∧
      d' (32 * k + 11) = d (32 * k + 11)) : lfnRunAt d' i = lfnRunAt d i := by
  induction i with
  | zero => rfl
  | succ i ih =>
    obtain ⟨h0, h11⟩ := h i (Nat.lt_succ_self i)
    have hnext : ∀ run, nextRun d' i run = nextRun d i run := fun run => by
      unfold nextRun
      rw [h0]
    rw [lfnRunAt_succ, lfnRunAt_succ, h0, h11, ih fun k hk => h k (by omega), hnext]

/-! ## A new size and first cluster -/

/-- Only the last six bytes of slot `j`, its first cluster and size, may differ. -/
def Resize (d d' : Bytes) (j : Nat) : Prop := ∀ k, ¬ (32 * j + 26 ≤ k ∧ k < 32 * j + 32) → d' k = d k

theorem Resize.mark (h : Resize d d' j) (k : Nat) :
    d' (32 * k) = d (32 * k) ∧ d' (32 * k + 11) = d (32 * k + 11) :=
  ⟨h _ (by omega), h _ (by omega)⟩

theorem Resize.slot (h : Resize d d' j) {k : Nat} (hk : k ≠ j) : SameSlot d d' k := fun b hb => h _ (by omega)

/-- A reached slot's name is as before: `j` is no long name. -/
theorem Resize.name (h : Resize d d' j) (hj : d (32 * j + 11) ≠ 0x0F) (hreach : ∀ k, k < i → d (32 * k) ≠ 0) :
    entryName d' i (lfnRunAt d' i) = entryName d i (lfnRunAt d i) := by
  rw [lfnRunAt_congr fun k _ => h.mark k]
  refine entryName_congr (fun r hr k h1 h2 => h.slot fun e => ?_) fun k hk => h _ (by omega)
  have hrun := lfnRunAt_run hreach r hr
  rw [hrun.before] at h2
  exact hj (e ▸ (hrun.long k h1 h2).1)

/-- What is known of a slot that is listed. -/
structure Listed83 (d : Bytes) (i : Nat) (f : FileEnt) : Prop where
  skip : skipMark (d (32 * i)) = false
  attr : skippedAttr (d (32 * i + 11)) = false
  off : f.dirOff = 32 * i
  cluster : f.cluster = rdU16 d (32 * i + 26)
  dir : f.isDir = true ↔ d (32 * i + 11) &&& 0x10 ≠ 0
  len : f.isDir = false → f.len = rdU32 d (32 * i + 28) ∧ f.len ≤ fileMax
  name : f.name = entryName d i (lfnRunAt d i)
  data : f.data = none

theorem entryAt_some {f : FileEnt} (h : entryAt d i = some f) : Listed83 d i f := by
  cases hs : skipMark (d (32 * i)) with
  | true => rw [entryAt_skip hs] at h; cases h
  | false =>
    cases ha : skippedAttr (d (32 * i + 11)) with
    | true => rw [entryAt_attr ha] at h; cases h
    | false =>
      rw [entryAt_used hs ha] at h
      split at h
      · next hd =>
        obtain rfl := Option.some.inj h
        exact ⟨hs, ha, rfl, rfl, ⟨fun _ => hd, fun _ => rfl⟩, nofun, rfl, rfl⟩
      · next hd =>
        split at h
        · cases h
        · next hle =>
          obtain rfl := Option.some.inj h
          exact ⟨hs, ha, rfl, rfl, ⟨nofun, fun h => absurd h hd⟩, fun _ => ⟨rfl, Nat.not_lt.1 hle⟩, rfl, rfl⟩

theorem mem_entriesOf {f : FileEnt} :
    f ∈ entriesOf d n ↔ ∃ i, i ∈ entriesFrom d n 0 ∧ entryAt d i = some f := List.mem_filterMap

end VampireOS.Fs
