import Mathlib.Data.Finset.Card
import VampireOS.Fs.Paths

/-!
# Complete listings and caches (kernel/fs.c:1040-1100, 1232-1260)

The entries of a directory are its slots in use that a scan does not pass over, and the cache has
room for 48. So a directory is listed whole when it has 48 slots in use at most, none of them with
the mark of a deleted one, and a cache is complete when it has as many entries as the directory has
such slots. That is how a call that changes one slot leaves both.
-/

namespace VampireOS.Fs

variable {v v' s : Fs} {d e j k : Nat} {f : FileEnt} {files : List FileEnt}

/-- The slots in use of the directory at `d`. -/
def slots (v : Fs) (d : Nat) : Finset Nat :=
  {j ∈ Finset.range (v.dirLen d) | ownsChain (v.dirData d) j = true}

theorem mem_slots : j ∈ v.slots d ↔ v.Occupied d j := by
  unfold slots Occupied
  rw [Finset.mem_filter, Finset.mem_range]

/-- The slots that these entries belong to. -/
def slotsOf (files : List FileEnt) : Finset Nat := (files.map fun f => f.dirOff / 32).toFinset

theorem mem_slotsOf : j ∈ slotsOf files ↔ ∃ f ∈ files, f.dirOff / 32 = j := by
  unfold slotsOf
  rw [List.mem_toFinset, List.mem_map]

theorem slotsOf_card (h : files.Pairwise fun f g => f.dirOff / 32 ≠ g.dirOff / 32) :
    (slotsOf files).card = files.length := by
  unfold slotsOf
  rw [List.toFinset_card_of_nodup (List.pairwise_map.2 h), List.length_map]

/-! ## The cache -/

theorem AtEntry.slot (h : AtEntry v d j f) : f.dirOff / 32 = j := by
  rw [h.off]
  omega

/-- Each entry has a slot of its own. -/
theorem Cache.slots (h : Cache v d files) :
    slotsOf files ⊆ v.slots d ∧ (slotsOf files).card = files.length := by
  refine ⟨fun j hj => ?_, slotsOf_card (List.pairwise_iff_getElem.2 fun i k hi hk hik => ?_)⟩
  · obtain ⟨f, hf, rfl⟩ := mem_slotsOf.1 hj
    obtain ⟨i, hi⟩ := List.mem_iff_getElem?.1 hf
    obtain ⟨m, hm⟩ := h.entry i f hi
    rw [hm.slot]
    exact mem_slots.2 hm.mem
  · have hgi := List.getElem?_eq_getElem hi
    have hgk := List.getElem?_eq_getElem hk
    obtain ⟨m, hm⟩ := h.entry i _ hgi
    obtain ⟨n, hn⟩ := h.entry k _ hgk
    have hne := (h.apart i k _ _ (Nat.ne_of_lt hik) hgi hgk).1
    rw [hm.off, hn.off] at hne
    rw [hm.slot, hn.slot]
    omega

theorem Cache.length_le (h : Cache v d files) : files.length ≤ (v.slots d).card := by
  rw [← h.slots.2]
  exact Finset.card_le_card h.slots.1

/-- **A cache with as many entries as there are slots in use has them all.** -/
theorem Cache.whole (h : Cache v d files) (hn : (v.slots d).card ≤ files.length)
    (hj : v.Occupied d j) : ∃ f ∈ files, AtEntry v d j f := by
  obtain ⟨hsub, hcard⟩ := h.slots
  rw [← mem_slots, ← Finset.eq_of_subset_of_card_le hsub (by rw [hcard]; exact hn)] at hj
  obtain ⟨f, hf, rfl⟩ := mem_slotsOf.1 hj
  obtain ⟨i, hi⟩ := List.mem_iff_getElem?.1 hf
  obtain ⟨m, hm⟩ := h.entry i f hi
  exact ⟨f, hf, hm.slot.symm ▸ hm⟩

/-- A complete cache has no fewer. -/
theorem Whole.card (h : Whole v s) : (v.slots s.cwd).card ≤ s.files.length := by
  have hsub : v.slots s.cwd ⊆ slotsOf s.files := fun j hj => by
    obtain ⟨f, hf, hat⟩ := h j (mem_slots.1 hj)
    exact mem_slotsOf.2 ⟨f, hf, hat.slot⟩
  exact (Finset.card_le_card hsub).trans ((List.toFinset_card_le _).trans (Nat.le_of_eq (List.length_map _)))

/-! ## The listing -/

theorem AtSlot.slot (h : AtSlot v d j f) : f.dirOff / 32 = j := by
  rw [h.off]
  omega

theorem Listable.mark (hl : Listable v) (hd : Dir v d) (hj : v.Occupied d j) :
    skipMark (v.dirData d (32 * j)) = false := by
  obtain ⟨f, -, hat⟩ := hl d hd j hj
  exact hat.mark

theorem Listable.card (hl : Listable v) (hd : Dir v d) : (v.slots d).card ≤ fsMax := by
  have hsub : v.slots d ⊆ slotsOf (v.listing d) := fun j hj => by
    obtain ⟨f, hf, hat⟩ := hl d hd j (mem_slots.1 hj)
    exact mem_slotsOf.2 ⟨f, hf, hat.slot⟩
  calc (v.slots d).card ≤ (slotsOf (v.listing d)).card := Finset.card_le_card hsub
    _ ≤ ((v.listing d).map fun f => f.dirOff / 32).length := List.toFinset_card_le _
    _ = (v.listing d).length := List.length_map _
    _ ≤ fsMax := by
      rw [listing_take]
      exact List.length_take_le _ _

/-- A slot that a scan does not pass over is an entry. -/
theorem Occupied.entry (hj : v.Occupied d j) (hw : WellFormed v) (hd : Dir v d)
    (hm : skipMark (v.dirData d (32 * j)) = false) :
    ∃ f ∈ v.entries d, AtSlot v d j f := by
  have hreach := (hw.tidy d hd).before hj.1 (owns_mark hj.2)
  have hattr : skippedAttr (v.dirData d (32 * j + 11)) = false := by
    have := hj.2
    unfold ownsChain at this
    simp only [Bool.not_eq_true', Bool.or_eq_false_iff] at this
    exact this.2
  have hin : j ∈ entriesFrom (v.dirData d) (v.dirLen d) 0 :=
    (mem_entriesFrom _ _ 0).2 ⟨Nat.zero_le j, by have := hj.1; omega, fun k _ hk => hreach k hk⟩
  obtain ⟨f, hf⟩ : ∃ f, entryAt (v.dirData d) j = some f := by
    rw [entryAt_used hm hattr]
    split
    · exact ⟨_, rfl⟩
    · next hdir =>
      have hfile : v.slotIsDir d j = false := by simpa [slotIsDir] using hdir
      have hsize : v.slotSize d j ≤ fileMax := ((hw.slot d j hd hj).file hfile).1
      exact ⟨_, if_neg (Nat.not_lt.2 hsize)⟩
  have hmem : f ∈ v.entries d := mem_entriesOf.2 ⟨j, hin, hf⟩
  obtain ⟨m, hat, hm'⟩ := mem_entries hmem
  obtain rfl : j = m := by
    have h1 := (entryAt_some hf).off
    have h2 := hat.off
    omega
  exact ⟨f, hmem, hat⟩

/-- **A volume is listed whole** when no directory has more than 48 slots in use, or one that a scan
passes over. -/
theorem listable_of (hw : WellFormed v) (hcard : ∀ d, Dir v d → (v.slots d).card ≤ fsMax)
    (hmark : ∀ d j, Dir v d → v.Occupied d j → skipMark (v.dirData d (32 * j)) = false) : Listable v := by
  intro d hd j hj
  obtain ⟨f, hf, hat⟩ := hj.entry hw hd (hmark d j hd hj)
  have hsub : slotsOf (v.entries d) ⊆ v.slots d := fun k hk => by
    obtain ⟨g, hg, rfl⟩ := mem_slotsOf.1 hk
    obtain ⟨m, hm, -⟩ := mem_entries hg
    rw [hm.slot]
    exact mem_slots.2 hm.mem
  have hnodup : (v.entries d).Pairwise fun f g => f.dirOff / 32 ≠ g.dirOff / 32 := by
    rw [List.pairwise_iff_getElem]
    intro i k hi hk hik
    obtain ⟨a, ha, -⟩ := mem_entries (List.getElem_mem hi)
    obtain ⟨b, hb, -⟩ := mem_entries (List.getElem_mem hk)
    have hlt := List.pairwise_iff_getElem.1 (entries_sorted v d) i k hi hk hik
    rw [ha.off, hb.off] at hlt
    rw [ha.slot, hb.slot]
    omega
  have hlen : (v.entries d).length ≤ fsMax := by
    rw [← slotsOf_card hnodup]
    exact (Finset.card_le_card hsub).trans (hcard d hd)
  refine ⟨f, ?_, hat⟩
  rw [listing_take, List.take_of_length_le hlen]
  exact hf

/-! ## After a change of one slot -/

/-- A frame keeps the listing of every directory, when slot `j` is not passed over and its directory
is not too long. -/
theorem Frame.listable (h : Frame v v' d j) (hl : Listable v) (hw : WellFormed v')
    (hj : v'.Occupied d j → skipMark (v'.dirData d (32 * j)) = false)
    (hn : (v'.slots d).card ≤ fsMax) : Listable v' := by
  refine listable_of hw (fun e he => ?_) fun e k he hk => ?_
  · by_cases hed : e = d
    · exact hed ▸ hn
    have hold : ∀ k, v'.Occupied e k → Dir v e ∧ v.Occupied e k :=
      fun k hk => (h.slot e k fun heq => hed (Prod.mk.inj heq).1).1 ⟨he, hk⟩
    have hsub : v'.slots e ⊆ v.slots e := fun k hk => mem_slots.2 (hold k (mem_slots.1 hk)).2
    rcases (v'.slots e).eq_empty_or_nonempty with h0 | ⟨k, hk⟩
    · rw [h0]
      exact Nat.zero_le _
    · exact (Finset.card_le_card hsub).trans (hl.card (hold k (mem_slots.1 hk)).1)
  · by_cases heq : (e, k) = (d, j)
    · obtain ⟨rfl, rfl⟩ := Prod.mk.inj heq
      exact hj hk
    · obtain ⟨hd, hk'⟩ := (h.slot e k heq).1 ⟨he, hk⟩
      rw [(h.same e k heq hd hk').2.2]
      exact hl.mark hd hk'

section
variable (h : Frame v v' d j) (hd : Dir v d) (hd' : Dir v' d)
include h hd hd'

theorem Frame.slots_other (hk : k ≠ j) : k ∈ v'.slots d ↔ k ∈ v.slots d := by
  have := h.slot d k fun heq => hk (Prod.mk.inj heq).2
  rw [mem_slots, mem_slots]
  simpa [hd, hd'] using this

/-- Slot `j` is in use afterwards. -/
theorem Frame.slots_insert (hj : v'.Occupied d j) : v'.slots d = insert j (v.slots d) := by
  ext k
  rw [Finset.mem_insert]
  by_cases hk : k = j
  · simp [hk, mem_slots, hj]
  · simp [hk, h.slots_other hd hd' hk]

/-- Slot `j` is free afterwards. -/
theorem Frame.slots_erase (hj : ¬ v'.Occupied d j) : v'.slots d = (v.slots d).erase j := by
  ext k
  rw [Finset.mem_erase]
  by_cases hk : k = j
  · simp [hk, mem_slots, hj]
  · simp [hk, h.slots_other hd hd' hk]

end

/-- **After a change of slot `j`** a cache with as many entries as there are slots in use is
complete, and all is listed as before. -/
theorem Stands.whole (hs : Stands v' s) (hw : WellFormed v') (h : Frame v v' s.cwd j)
    (hl : Listable v) (hn : (v'.slots s.cwd).card ≤ s.files.length ∧ (v'.slots s.cwd).card ≤
      fsMax) : Whole v' s ∧ Listable v' := by
  have hwhole : Whole v' s := fun k hk => hs.cache.whole hn.1 hk
  refine ⟨hwhole, h.listable hl hw (fun hj => ?_) hn.2⟩
  obtain ⟨f, -, hat⟩ := hwhole j hj
  exact hat.mark

end VampireOS.Fs
