import VampireOS.Lib.Loop
import VampireOS.Memory.Phys

/-!
# The frame allocator (kernel/pmm.c)

| here | there |
| --- | --- |
| `Pmm` | `bitmap_phys`, the bitmap, `frame_count`, `free_count`, `reserved_end` (pmm.c:17-20) |
| `Pmm.markUsed`, `Pmm.markFree` | `pmm_mark_used`, `pmm_mark_free` (pmm.c:39-71) |
| `Pmm.allocFrame`, `pmmAlloc`, `pmmAllocAbove` | `pmm_alloc_frame`, `pmm_alloc`, `pmm_alloc_above` |
| `pmmFree` | `pmm_free` (pmm.c:238) |
| `pmmInit` | `pmm_init` (pmm.c:93) |

The bitmap is one bit per frame (`true` = used); which byte and bit hold it is not modelled. A
`bitmap_phys` of 0 means that there is no bitmap, and every operation then does nothing.

`Pmm.Ok` is what every state after `pmm_init` satisfies. `Took` and `Gave` are the two things an
allocator call can do to the bitmap; the page-table proofs only use those.
-/

namespace VampireOS

open Lib

structure Pmm where
  used : Nat → Bool
  frameCount : Nat
  freeCount : Nat
  reservedEnd : Nat
  bitmapPhys : Nat

namespace Pmm

/-- `KERNEL_PHYS + KERNEL_SIZE` (pmm.c:10-13). -/
def kernelEnd : Nat := 0x100000 + 304 * 512

/-- `IDENTITY_END` (pmm.c:14). -/
def identityEnd : Nat := 0x200000

/-- `align_up` on `uint64_t`, for a power of two. -/
def alignUp (v a : Nat) : Nat := (v + a - 1) % 2 ^ 64 / a * a

def alignDown (v a : Nat) : Nat := v / a * a

def markUsed (p : Pmm) (frame : Nat) : Pmm :=
  if frame ≥ p.frameCount ∨ p.bitmapPhys = 0 then p
  else if p.used frame = false then
    { p with used := fun f => if f = frame then true else p.used f, freeCount := p.freeCount - 1 }
  else p

def markFree (p : Pmm) (frame : Nat) : Pmm :=
  if frame ≥ p.frameCount ∨ p.bitmapPhys = 0 then p
  else if p.used frame = true then
    { p with used := fun f => if f = frame then false else p.used f, freeCount := p.freeCount + 1 }
  else p

/-- The scan of `pmm_alloc_frame`: the first clear bit among `n` frames from `frame` on. -/
def findFree (used : Nat → Bool) : Nat → Nat → Option Nat
  | 0, _ => none
  | n + 1, frame => if used frame = false then some frame else findFree used n (frame + 1)

/-- `pmm_alloc_frame`; address 0 is failure. -/
def allocFrame (p : Pmm) (start : Nat) : Nat × Pmm :=
  if p.bitmapPhys = 0 then (0, p)
  else
    match findFree p.used (p.frameCount - start) start with
    | none => (0, p)
    | some f => (f * pageSize, p.markUsed f)

end Pmm

def pmmAlloc (p : Pmm) : Nat × Pmm := p.allocFrame 0

def pmmAllocAbove (p : Pmm) (minPhys : Nat) : Nat × Pmm :=
  p.allocFrame (Pmm.alignUp minPhys pageSize / pageSize)

/-- `pmm_alloc_above(min)`, then `pmm_alloc()` when that finds nothing (`alloc_page`, user.c:123;
`vmm_cow_break`, vmm.c:810; `alloc_pipe`, sched.c:221). -/
def pmmAllocFrom (p : Pmm) (minPhys : Nat) : Nat × Pmm :=
  match pmmAllocAbove p minPhys with
  | (0, _) => pmmAlloc p
  | r => r

def pmmFree (p : Pmm) (phys : Nat) : Pmm :=
  if phys < p.reservedEnd ∨ phys % pageSize ≠ 0 then p else p.markFree (phys / pageSize)

/-! ## `pmm_init` -/

structure E820Entry where
  base : Nat
  length : Nat
  type : Nat
deriving DecidableEq, Repr

/-- The firmware map; `entries` holds `count` entries (e820.h). -/
structure E820Map where
  entrySize : Nat
  entries : List E820Entry
deriving DecidableEq, Repr

/-- The entries `pmm_init` looks at: at most `E820_MAX`, none when the entry size is wrong. -/
def E820Map.seen (map : E820Map) : List E820Entry :=
  if map.entrySize = 24 then map.entries.take 32 else []

/-- First loop of `pmm_init`: the end of the highest usable entry. -/
def maxPhys : List E820Entry → Nat → Nat
  | [], acc => acc
  | e :: es, acc =>
    let top := (e.base + e.length) % 2 ^ 64
    if e.type ≠ 1 ∨ e.length = 0 ∨ top < e.base then maxPhys es acc
    else maxPhys es (if top > acc then top else acc)

def pmmMarkRegionFree (p : Pmm) (base length : Nat) : Pmm :=
  let top := (base + length) % 2 ^ 64
  if length = 0 ∨ top < base then p
  else
    let start := Pmm.alignUp base pageSize
    let stop := Pmm.alignDown top pageSize
    forTo (fun k p => p.markFree (start / pageSize + k)) ((stop - start) / pageSize) p

/-- Second loop of `pmm_init`. -/
def markUsable (p : Pmm) : List E820Entry → Pmm
  | [] => p
  | e :: es => markUsable (if e.type = 1 then pmmMarkRegionFree p e.base e.length else p) es

def Pmm.empty : Pmm := ⟨fun _ => true, 0, 0, 0, 0⟩

def pmmInit (map : E820Map) : Pmm :=
  let bitmapPhys := Pmm.alignUp Pmm.kernelEnd pageSize
  if bitmapPhys ≥ Pmm.identityEnd then Pmm.empty
  else
    let room := (Pmm.identityEnd - bitmapPhys) * 8
    let frames := maxPhys map.seen 0 / pageSize
    let frameCount := if frames > room then room else frames
    let bitmapBytes := (frameCount + 7) / 8
    if frameCount = 0 ∨ bitmapPhys + bitmapBytes > Pmm.identityEnd then Pmm.empty
    else
      let p := markUsable ⟨fun _ => true, frameCount, 0, 0, bitmapPhys⟩ map.seen
      let reservedEnd := Pmm.alignUp (bitmapPhys + bitmapBytes) pageSize
      forTo (fun f p => p.markUsed f) (reservedEnd / pageSize) { p with reservedEnd := reservedEnd }

/-! ## What a call does to the bitmap -/

namespace Pmm

/-- Every state after `pmm_init`: no frame below `reserved_end` is free, the boot page tables lie
below it, and the bitmap's place bounds the number of frames. -/
structure Ok (p : Pmm) : Prop where
  reserved : ∀ f, f < p.frameCount → f * pageSize < p.reservedEnd → p.used f = true
  low : 0 < p.frameCount → kernelEnd ≤ p.reservedEnd
  room : p.frameCount ≤ 0x6D0000
  bitmap : 0 < p.frameCount → p.bitmapPhys ≠ 0

/-- `phys` is a frame the allocator has handed out. -/
structure Owned (p : Pmm) (phys : Nat) : Prop where
  page : Page phys
  above : p.reservedEnd ≤ phys
  below : phys / pageSize < p.frameCount
  taken : p.used (phys / pageSize) = true

/-- The call handed out `phys`: its bit was clear and is now set, no other bit changed. -/
structure Took (p : Pmm) (phys : Nat) (p' : Pmm) : Prop where
  page : Page phys
  below : phys / pageSize < p.frameCount
  clear : p.used (phys / pageSize) = false
  used : ∀ f, p'.used f = if f = phys / pageSize then true else p.used f
  frames : p'.frameCount = p.frameCount
  reserved : p'.reservedEnd = p.reservedEnd
  bitmap : p'.bitmapPhys = p.bitmapPhys

/-- The call took `phys` back. -/
structure Gave (p : Pmm) (phys : Nat) (p' : Pmm) : Prop where
  used : ∀ f, p'.used f = if f = phys / pageSize then false else p.used f
  frames : p'.frameCount = p.frameCount
  reserved : p'.reservedEnd = p.reservedEnd
  bitmap : p'.bitmapPhys = p.bitmapPhys

theorem findFree_some {used : Nat → Bool} :
    ∀ {n frame f : Nat}, findFree used n frame = some f → frame ≤ f ∧ f < frame + n ∧ used f = false
  | 0, _, _, h => by simp [findFree] at h
  | n + 1, frame, f, h => by
    unfold findFree at h
    split at h
    · cases h; exact ⟨Nat.le_refl _, by omega, by assumption⟩
    · obtain ⟨h1, h2, h3⟩ := findFree_some h
      exact ⟨by omega, by omega, h3⟩

theorem findFree_none {used : Nat → Bool} :
    ∀ {n frame : Nat}, findFree used n frame = none → ∀ f, frame ≤ f → f < frame + n → used f = true
  | 0, _, _, f, h1, h2 => by omega
  | n + 1, frame, h, f, h1, h2 => by
    unfold findFree at h
    split at h
    · cases h
    · rename_i hu
      by_cases hf : f = frame
      · subst hf; simpa using hu
      · exact findFree_none h f (by omega) (by omega)

theorem markUsed_took {p : Pmm} {f : Nat} (hb : p.bitmapPhys ≠ 0) (hf : f < p.frameCount)
    (hu : p.used f = false) :
    Took p (f * pageSize) (p.markUsed f) := by
  have hdiv : f * pageSize / pageSize = f := Nat.mul_div_cancel f (by decide)
  have e : p.markUsed f =
      { p with used := fun g => if g = f then true else p.used g, freeCount := p.freeCount - 1 } := by
    simp [markUsed, hb, hu]; omega
  rw [e]
  exact ⟨Nat.mul_mod_left _ _, by rw [hdiv]; exact hf, by rw [hdiv]; exact hu,
    fun g => by rw [hdiv], rfl, rfl, rfl⟩

/-- `pmm_alloc_frame` fails and changes nothing, or hands out one frame at or above `start`. -/
theorem allocFrame_spec (p : Pmm) (hp : p.Ok) (start : Nat) :
    p.allocFrame start = (0, p) ∨
      ((p.allocFrame start).1 ≠ 0 ∧ Took p (p.allocFrame start).1 (p.allocFrame start).2) := by
  unfold allocFrame
  by_cases hb : p.bitmapPhys = 0
  · exact Or.inl (if_pos hb)
  · rw [if_neg hb]
    cases hf : findFree p.used (p.frameCount - start) start with
    | none => exact Or.inl rfl
    | some f =>
      obtain ⟨h1, h2, h3⟩ := findFree_some hf
      have hlt : f < p.frameCount := by omega
      refine Or.inr ⟨?_, markUsed_took hb hlt h3⟩
      intro h0
      have : f * pageSize < p.reservedEnd := by
        have := hp.low (by omega)
        simp only [kernelEnd, pageSize] at *
        omega
      rw [hp.reserved f hlt this] at h3
      cases h3

end Pmm

theorem pmmAlloc_spec (p : Pmm) (hp : p.Ok) :
    pmmAlloc p = (0, p) ∨ ((pmmAlloc p).1 ≠ 0 ∧ p.Took (pmmAlloc p).1 (pmmAlloc p).2) :=
  p.allocFrame_spec hp 0

theorem pmmAllocFrom_spec (p : Pmm) (hp : p.Ok) (m : Nat) :
    pmmAllocFrom p m = (0, p) ∨
    ((pmmAllocFrom p m).1 ≠ 0 ∧ p.Took (pmmAllocFrom p m).1 (pmmAllocFrom p m).2) := by
  unfold pmmAllocFrom
  rcases hr : pmmAllocAbove p m with ⟨a, p'⟩
  have h := p.allocFrame_spec hp (Pmm.alignUp m pageSize / pageSize)
  rw [show p.allocFrame (Pmm.alignUp m pageSize / pageSize) = (a, p') from hr] at h
  cases a with
  | zero => exact pmmAlloc_spec p hp
  | succ a =>
    rcases h with h | h
    · cases h
    · exact Or.inr h

/-- `pmm_alloc_above` with the fallback fails only when no frame at all is free. -/
theorem pmmAllocFrom_none {p : Pmm} (hp : p.Ok) {m : Nat} (h : (pmmAllocFrom p m).1 = 0) :
    ∀ f, f < p.frameCount → p.used f = true := by
  have h0 : (pmmAlloc p).1 = 0 := by
    unfold pmmAllocFrom at h
    rcases hr : pmmAllocAbove p m with ⟨a, p'⟩
    rw [hr] at h
    cases a with
    | zero => exact h
    | succ a => cases h
  rcases pmmAlloc_spec p hp with h1 | ⟨h1, -⟩
  · intro f hf
    have hb := hp.bitmap (by omega)
    unfold pmmAlloc Pmm.allocFrame at h1
    rw [if_neg hb] at h1
    cases hff : Pmm.findFree p.used (p.frameCount - 0) 0 with
    | none => exact Pmm.findFree_none hff f (Nat.zero_le _) (by omega)
    | some g =>
      exfalso
      have h2 : (pmmAlloc p).1 = g * pageSize := by
        simp only [pmmAlloc, Pmm.allocFrame, if_neg hb, hff]
      obtain ⟨-, hg, hgu⟩ := Pmm.findFree_some hff
      have hlow := hp.low (by omega)
      have hres := hp.reserved g (by omega) (by simp only [Pmm.kernelEnd, pageSize] at *; omega)
      rw [hres] at hgu
      cases hgu
  · exact absurd h0 h1

/-- `pmm_free` of a frame that is in use takes it back. -/
theorem pmmFree_gave {p : Pmm} (hp : p.Ok) {phys : Nat} (h : p.Owned phys) :
    p.Gave phys (pmmFree p phys) := by
  have h1 : ¬(phys < p.reservedEnd ∨ phys % pageSize ≠ 0) := by
    rintro (h2 | h2)
    · exact absurd h.above (by omega)
    · exact h2 h.page
  have hbelow := h.below
  have hb := hp.bitmap (Nat.lt_of_le_of_lt (Nat.zero_le _) hbelow)
  have e : pmmFree p phys = { p with
      used := fun g => if g = phys / pageSize then false else p.used g, freeCount := p.freeCount + 1 } := by
    unfold pmmFree
    rw [if_neg h1]
    unfold Pmm.markFree
    rw [if_neg (by rintro (h | h) <;> [omega; exact hb h]), if_pos h.taken]
  rw [e]
  exact ⟨fun _ => rfl, rfl, rfl, rfl⟩

namespace Pmm

theorem div_ne {p q : Nat} (hp : Page p) (hq : Page q) (hne : q ≠ p) : q / pageSize ≠ p / pageSize := by
  simp only [Page, pageSize] at *
  omega

theorem Owned.lt {p : Pmm} (hp : p.Ok) {a : Nat} (h : p.Owned a) : a + pageSize ≤ 2 ^ 35 := by
  have h1 := h.below
  have h2 := hp.room
  have h3 := h.page
  simp only [Page, pageSize] at *
  omega

theorem Owned.ne_zero {p : Pmm} (hp : p.Ok) {a : Nat} (h : p.Owned a) : a ≠ 0 := by
  have h1 := hp.low (Nat.lt_of_le_of_lt (Nat.zero_le _) h.below)
  have h2 := h.above
  simp only [kernelEnd] at h1
  omega

/-- The boot PML4 at `0x1000` is never handed out. -/
theorem Owned.ne_boot {p : Pmm} (hp : p.Ok) {a : Nat} (h : p.Owned a) : a ≠ 0x1000 := by
  have h1 := hp.low (Nat.lt_of_le_of_lt (Nat.zero_le _) h.below)
  have h2 := h.above
  simp only [kernelEnd] at h1
  omega

section
variable {p p' : Pmm} {a b : Nat}

theorem Took.ok (h : p.Took a p') (hp : p.Ok) : p'.Ok := by
  refine ⟨fun f hf hr => ?_, fun hf => ?_, ?_, fun hf => ?_⟩
  · rw [h.used]
    split
    · rfl
    · exact hp.reserved f (h.frames ▸ hf) (h.reserved ▸ hr)
  · rw [h.reserved]; exact hp.low (h.frames ▸ hf)
  · rw [h.frames]; exact hp.room
  · rw [h.bitmap]; exact hp.bitmap (h.frames ▸ hf)

theorem Took.owned (h : p.Took a p') (hp : p.Ok) : p'.Owned a := by
  refine ⟨h.page, ?_, h.frames ▸ h.below, by rw [h.used, if_pos rfl]⟩
  rw [h.reserved]
  by_contra hlt
  have hpage := h.page
  have hc := h.clear
  rw [hp.reserved _ h.below (by simp only [Page, pageSize] at *; omega)] at hc
  cases hc

theorem Took.mono (h : p.Took a p') (hb : p.Owned b) : p'.Owned b := by
  refine ⟨hb.page, h.reserved ▸ hb.above, h.frames ▸ hb.below, ?_⟩
  rw [h.used]
  split
  · rfl
  · exact hb.taken

theorem Took.fresh (h : p.Took a p') (hb : p.Owned b) : b ≠ a := by
  rintro rfl
  have := hb.taken
  rw [h.clear] at this
  cases this

theorem Gave.ok (h : p.Gave a p') (ha : p.Owned a) (hp : p.Ok) : p'.Ok := by
  refine ⟨fun f hf hr => ?_, fun hf => ?_, ?_, fun hf => ?_⟩
  · rw [h.used]
    split
    · rename_i hfa
      have h1 := ha.above
      have h2 := ha.page
      rw [h.reserved] at hr
      simp only [Page, pageSize] at *
      omega
    · exact hp.reserved f (h.frames ▸ hf) (h.reserved ▸ hr)
  · rw [h.reserved]; exact hp.low (h.frames ▸ hf)
  · rw [h.frames]; exact hp.room
  · rw [h.bitmap]; exact hp.bitmap (h.frames ▸ hf)

theorem Gave.keep (h : p.Gave a p') (ha : p.Owned a) (hb : p.Owned b) (hne : b ≠ a) : p'.Owned b := by
  refine ⟨hb.page, h.reserved ▸ hb.above, h.frames ▸ hb.below, ?_⟩
  rw [h.used, if_neg (div_ne ha.page hb.page hne)]
  exact hb.taken

end

/-! ## `pmm_init` establishes `Ok` -/

theorem markFree_frames (p : Pmm) (f : Nat) : (p.markFree f).frameCount = p.frameCount := by
  unfold markFree; split <;> [rfl; (split <;> rfl)]

theorem markFree_bitmap (p : Pmm) (f : Nat) : (p.markFree f).bitmapPhys = p.bitmapPhys := by
  unfold markFree; split <;> [rfl; (split <;> rfl)]

theorem markUsable_keeps : ∀ (es : List E820Entry) (p : Pmm),
    (markUsable p es).frameCount = p.frameCount ∧ (markUsable p es).bitmapPhys = p.bitmapPhys
  | [], _ => ⟨rfl, rfl⟩
  | e :: es, p => by
    have hr : ∀ q : Pmm, ∀ base len, (pmmMarkRegionFree q base len).frameCount = q.frameCount ∧
        (pmmMarkRegionFree q base len).bitmapPhys = q.bitmapPhys := by
      intro q base len
      unfold pmmMarkRegionFree
      simp only
      split
      · exact ⟨rfl, rfl⟩
      · exact forTo_inv (fun _ r => r.frameCount = q.frameCount ∧ r.bitmapPhys = q.bitmapPhys) ⟨rfl, rfl⟩
          fun i r _ ⟨h1, h2⟩ => ⟨(markFree_frames r _).trans h1, (markFree_bitmap r _).trans h2⟩
    obtain ⟨h1, h2⟩ := markUsable_keeps es (if e.type = 1 then pmmMarkRegionFree p e.base e.length else p)
    unfold markUsable
    rw [h1, h2]
    split
    · exact hr p e.base e.length
    · exact ⟨rfl, rfl⟩

/-- The last loop of `pmm_init` sets the bit of every frame below its bound. -/
theorem reserve_spec (q : Pmm) (n : Nat) :
    (forTo (fun f p => p.markUsed f) n q).frameCount = q.frameCount ∧
    (forTo (fun f p => p.markUsed f) n q).bitmapPhys = q.bitmapPhys ∧
    (forTo (fun f p => p.markUsed f) n q).reservedEnd = q.reservedEnd ∧
    (q.bitmapPhys ≠ 0 → ∀ f, f < n → f < q.frameCount →
      (forTo (fun f p => p.markUsed f) n q).used f = true) := by
  refine forTo_inv (fun i (r : Pmm) => r.frameCount = q.frameCount ∧ r.bitmapPhys = q.bitmapPhys ∧
    r.reservedEnd = q.reservedEnd ∧ (q.bitmapPhys ≠ 0 → ∀ f, f < i → f < q.frameCount → r.used f = true))
    ⟨rfl, rfl, rfl, fun _ f hf => by omega⟩ ?_
  rintro i r - ⟨h1, h2, h3, h4⟩
  unfold markUsed
  split
  · rename_i hc
    refine ⟨h1, h2, h3, fun hb f hf hfc => ?_⟩
    by_cases hfi : f = i
    · subst hfi
      rcases hc with hc | hc
      · omega
      · exact absurd (h2 ▸ hc) hb
    · exact h4 hb f (by omega) hfc
  · split
    · refine ⟨h1, h2, h3, fun hb f hf hfc => ?_⟩
      by_cases hfi : f = i
      · simp [hfi]
      · simp only [if_neg hfi]; exact h4 hb f (by omega) hfc
    · rename_i hu
      refine ⟨h1, h2, h3, fun hb f hf hfc => ?_⟩
      by_cases hfi : f = i
      · subst hfi; simpa using hu
      · exact h4 hb f (by omega) hfc

end Pmm

/-- Whatever the firmware map says, `pmm_init` leaves a consistent allocator. -/
theorem pmmInit_ok (map : E820Map) : (pmmInit map).Ok := by
  have hempty : Pmm.empty.Ok := ⟨fun f hf => by simp [Pmm.empty] at hf, fun h => by simp [Pmm.empty] at h,
    by simp [Pmm.empty], fun h => by simp [Pmm.empty] at h⟩
  have hbp : Pmm.alignUp Pmm.kernelEnd pageSize = 0x126000 := by decide
  unfold pmmInit
  simp only [hbp, Pmm.identityEnd]
  rw [if_neg (by decide)]
  generalize maxPhys map.seen 0 / pageSize = frames
  generalize hfc : (if frames > (0x200000 - 0x126000) * 8 then (0x200000 - 0x126000) * 8 else frames) = fc
  have hfc' : fc ≤ 0x6D0000 := by rw [← hfc]; split <;> omega
  split
  · exact hempty
  · rename_i hne
    simp only [not_or, Nat.not_lt, gt_iff_lt] at hne
    obtain ⟨k1, k2⟩ := Pmm.markUsable_keeps map.seen ⟨fun _ => true, fc, 0, 0, 0x126000⟩
    generalize hq : markUsable ⟨fun _ => true, fc, 0, 0, 0x126000⟩ map.seen = q at k1 k2
    have hre : Pmm.alignUp (0x126000 + (fc + 7) / 8) pageSize =
        (0x126000 + (fc + 7) / 8 + 4095) / 4096 * 4096 := by
      simp only [Pmm.alignUp, pageSize]; omega
    obtain ⟨r1, r2, r3, r4⟩ := Pmm.reserve_spec
      { q with reservedEnd := Pmm.alignUp (0x126000 + (fc + 7) / 8) pageSize }
      (Pmm.alignUp (0x126000 + (fc + 7) / 8) pageSize / pageSize)
    simp only at r1 r2 r3 r4 k1 k2
    refine ⟨fun f hf hr => ?_, fun _ => ?_, ?_, fun _ => ?_⟩
    · apply r4 (by rw [k2]; decide) f _ (by omega)
      rw [r3, hre] at hr
      rw [hre]
      simp only [pageSize] at *
      omega
    · rw [r3, hre, Pmm.kernelEnd]; omega
    · rw [r1, k1]; exact hfc'
    · rw [r2, k2]; decide

end VampireOS
