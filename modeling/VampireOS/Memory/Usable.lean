import VampireOS.Memory.Alloc

/-!
# What is free after `pmm_init` (pmm.c:73-173)

Regions are rounded inwards, the reserved part outwards. Without a whole usable frame there is no allocator:
`frame_count` and `reserved_end` are 0.
-/

namespace VampireOS

open Lib

/-- A usable entry that holds the whole frame. -/
def E820Entry.Holds (e : E820Entry) (f : Nat) : Prop :=
  e.type = 1 ∧ e.base ≤ f * pageSize ∧ (f + 1) * pageSize ≤ e.base + e.length

/-- Only usable memory is free, and all of it above the reserved part. -/
structure FreesUsable (map : E820Map) (p : Pmm) : Prop where
  /-- Every address of a clear frame is in a usable entry. -/
  usable : ∀ f, p.used f = false → p.reservedEnd ≤ f * pageSize ∧ ∀ a, f * pageSize ≤ a →
    a < (f + 1) * pageSize →
    ∃ e ∈ map.entries, e.type = 1 ∧ e.base ≤ a ∧ a < e.base + e.length
  all : ∀ f, f < p.frameCount → p.reservedEnd ≤ f * pageSize → ∀ e ∈ map.entries, e.Holds f → p.used f = false
  bitmap : p.bitmapPhys + (p.frameCount + 7) / 8 ≤ p.reservedEnd ∧ p.reservedEnd ≤ Pmm.identityEnd

/-- The kernel image is below `reserved_end`. -/
def CoversKernel (p : Pmm) : Prop := Pmm.kernelEnd ≤ p.reservedEnd

namespace Pmm

section
variable {p : Pmm} {f g n : Nat}

theorem region_spec (hb : p.bitmapPhys ≠ 0) {base length : Nat} (hlen : base + length < 2 ^ 52) :
    Keeps p (pmmMarkRegionFree p base length) ∧ ∀ g, (pmmMarkRegionFree p base length).used g = false ↔
      p.used g = false ∨ g < p.frameCount ∧ base ≤ g * pageSize ∧ (g + 1) * pageSize ≤ base + length := by
  unfold pmmMarkRegionFree
  have htop : (base + length) % 2 ^ 64 = base + length := Nat.mod_eq_of_lt (by omega)
  have hup : alignUp base pageSize = (base + 4095) / 4096 * 4096 := by
    simp only [alignUp, pageSize]
    omega
  simp only [htop, hup, alignDown, pageSize]
  split
  · refine ⟨⟨rfl, rfl, rfl⟩, fun g => (or_iff_left ?_).symm⟩
    omega
  · obtain ⟨h1, h2⟩ := freeRun_spec hb ((base + 4095) / 4096 * 4096 / 4096)
      (((base + length) / 4096 * 4096 - (base + 4095) / 4096 * 4096) / 4096)
    refine ⟨h1, fun g => ?_⟩
    rw [h2]
    split
    · refine iff_of_true rfl (.inr ?_)
      omega
    · refine (or_iff_left ?_).symm
      omega

theorem usable_spec {es : List E820Entry} (hb : p.bitmapPhys ≠ 0)
    (hes : ∀ e ∈ es, e.base + e.length < 2 ^ 52) :
    Keeps p (markUsable p es) ∧ ∀ g, (markUsable p es).used g = false ↔
      p.used g = false ∨ g < p.frameCount ∧ ∃ e ∈ es, e.Holds g := by
  induction es generalizing p with
  | nil => exact ⟨⟨rfl, rfl, rfl⟩, fun g => by simp [markUsable]⟩
  | cons e es ih =>
    unfold markUsable
    have hrest := fun e' he' => hes e' (List.mem_cons_of_mem _ he')
    split
    · rename_i ht
      obtain ⟨h1, h2⟩ := region_spec hb (hes e List.mem_cons_self)
      obtain ⟨h3, h4⟩ := ih (p := pmmMarkRegionFree p e.base e.length) (by rw [h1.bitmap]; exact hb) hrest
      refine ⟨⟨h3.frames.trans h1.frames, h3.reserved.trans h1.reserved, h3.bitmap.trans h1.bitmap⟩,
        fun g => ?_⟩
      rw [h4, h2, h1.frames, List.exists_mem_cons_iff, or_assoc, ← and_or_left, E820Entry.Holds]
      simp [ht]
    · rename_i ht
      obtain ⟨h3, h4⟩ := ih hb hrest
      refine ⟨h3, fun g => ?_⟩
      rw [h4, List.exists_mem_cons_iff, E820Entry.Holds]
      simp [ht]

end

end Pmm

/-- **`pmm_init` frees only usable memory**, and all of it; if there is any whole usable frame, it
reserves the kernel image. -/
theorem pmmInit_frees (map : E820Map) (hcount : map.entries.length ≤ 32)
    (hlen : ∀ e ∈ map.entries, e.base + e.length < 2 ^ 52) :
    FreesUsable map (pmmInit map) ∧ ((pmmInit map).frameCount ≠ 0 → CoversKernel (pmmInit map)) := by
  refine ⟨?_, fun h0 => (pmmInit_ok map).low (Nat.pos_of_ne_zero h0)⟩
  have hseen : map.seen = map.entries ∨ map.seen = [] := by
    unfold E820Map.seen
    split
    · exact .inl (List.take_of_length_le hcount)
    · exact .inr rfl
  have hsub : ∀ e ∈ map.seen, e ∈ map.entries := by
    rcases hseen with h | h <;> rw [h]
    · exact fun _ he => he
    · exact nofun
  rcases pmmInit_cases map with ⟨-, e⟩ | ⟨frames, stop, hpos, hroom, hmax, hstop, e⟩
  · rw [e]
    exact ⟨nofun, fun f hf => absurd hf (Nat.not_lt_zero f), by decide⟩
  · have hfull : map.seen = map.entries := hseen.resolve_right fun h => by
      rw [h] at hmax
      simp only [maxPhys, Nat.zero_div] at hmax
      omega
    obtain ⟨h1, h2⟩ := Pmm.usable_spec (p := ⟨fun _ => true, frames, 0, 0, 0x126000⟩) (Nat.succ_ne_zero _)
      fun e he => hlen e (hsub e he)
    generalize markUsable ⟨fun _ => true, frames, 0, 0, 0x126000⟩ map.seen = q at h1 h2 e
    have hb : q.bitmapPhys = 0x126000 := h1.bitmap
    have hn : q.frameCount = frames := h1.frames
    obtain ⟨h3, h4⟩ := Pmm.markRun_spec (p := { q with reservedEnd := stop }) (by rw [hb]; decide) 0
      (stop / pageSize)
    simp only [Nat.zero_add] at h3 h4
    rw [← e] at h3 h4
    have hres : (pmmInit map).reservedEnd = stop := h3.reserved
    have hcnt : (pmmInit map).frameCount = frames := h3.frames.trans hn
    have hclear : ∀ f, (pmmInit map).used f = false ↔ stop ≤ f * pageSize ∧ f < frames ∧
        ∃ e ∈ map.entries, e.Holds f := by
      intro f
      rw [h4]
      simp only [hn]
      rw [← hfull]
      split
      · refine iff_of_false nofun ?_
        simp only [pageSize] at *
        omega
      · rw [h2]
        simp only [pageSize] at *
        constructor
        · rintro (h | ⟨h, he⟩)
          · cases h
          · exact ⟨by omega, h, he⟩
        · exact fun h => .inr h.2
    refine ⟨fun f hf => ?_, fun f hf hr e he hh => ?_, ?_⟩
    · obtain ⟨hr, -, e, he, ht, hlo, hhi⟩ := (hclear f).1 hf
      rw [hres]
      exact ⟨hr, fun a ha ha' => ⟨e, he, ht, by omega, by omega⟩⟩
    · rw [hres] at hr
      rw [hcnt] at hf
      exact (hclear f).2 ⟨hr, hf, e, he, hh⟩
    · rw [hres, hcnt, h3.bitmap, hb, hstop]
      simp only [Pmm.identityEnd, pageSize]
      omega

/-- One usable region above the kernel. -/
theorem pmmInit_frees_small :
    FreesUsable ⟨24, [⟨0x200000, 0x20000, 1⟩]⟩ (pmmInit ⟨24, [⟨0x200000, 0x20000, 1⟩]⟩) ∧
    ((pmmInit ⟨24, [⟨0x200000, 0x20000, 1⟩]⟩).frameCount ≠ 0 →
      CoversKernel (pmmInit ⟨24, [⟨0x200000, 0x20000, 1⟩]⟩)) :=
  pmmInit_frees _ (by decide) (by decide)

/-- An empty map reserves nothing. -/
theorem empty_map_covers_nothing : ¬ CoversKernel (pmmInit ⟨24, []⟩) := by
  unfold CoversKernel
  decide

end VampireOS
