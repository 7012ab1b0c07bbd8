import Mathlib.Data.List.Basic
import VampireOS.Fs.Volume

/-!
# Filling rectangles (kernel/fb.c:134-150, 312-350)

| here | there |
| --- | --- |
| `Geometry` | `fb_w`, `fb_h`, `fb_pitch`, `fb_bpp`; `none` while `fb_front` or `fb_mem` is 0 |
| `fbPixel` | `fb_pixel` |
| `fillWords`, `fillPixels`, `fbFillRect` | the two pairs of loops of `fb_fill_rect`, `fb_fill_rect` |
| `offset`, `InRect` | where a pixel stands in the shadow, and the pixels of a clipped rectangle |

The shadow is the memory from `fb_mem` on. `int` and `uint32_t` are 32 bits wide, a pointer is as
wide as needed.
-/

namespace VampireOS.Framebuffer

structure Geometry where
  width : UInt32
  height : UInt32
  pitch : UInt32
  bpp : UInt32
  depth : bpp = 24 ∨ bpp = 32
  row : width.toNat * (bpp.toNat / 8) ≤ pitch.toNat
  size : pitch.toNat * height.toNat < 2 ^ 32

/-- Byte `j` of a color. -/
def colorByte (color : UInt32) (j : Nat) : UInt8 := UInt8.ofNat (color.toNat >>> (8 * j))

/-- The `n` bytes of a color from `off` on. -/
def store (n : Nat) (color : UInt32) (m : Bytes) (off : Nat) : Bytes := fun i =>
  if off ≤ i ∧ i < off + n then colorByte color (i - off) else m i

def fbPixel (g : Geometry) (x y : Int32) (color : UInt32) (m : Bytes) : Bytes :=
  if x < 0 ∨ y < 0 ∨ x.toUInt32 ≥ g.width ∨ y.toUInt32 ≥ g.height then m
  else
    let bytes := g.bpp / 8
    let p := (y.toUInt32 * g.pitch).toNat + (x.toUInt32 * bytes).toNat
    let m := Function.update m p color.toUInt8
    let m := Function.update m (p + 1) (color >>> 8).toUInt8
    let m := Function.update m (p + 2) (color >>> 16).toUInt8
    if g.bpp = 32 then Function.update m (p + 3) (color >>> 24).toUInt8 else m

/-- `for (i = lo; i < hi; i++)` over 32-bit numbers. -/
def forUp (lo hi : UInt32) (body : UInt32 → Bytes → Bytes) (m : Bytes) : Bytes :=
  (List.range' lo.toNat (hi.toNat - lo.toNat)).foldl (fun m i => body (UInt32.ofNat i) m) m

def fillWords (g : Geometry) (x x1 y y1 color : UInt32) : Bytes → Bytes :=
  forUp y y1 fun yy => forUp x x1 fun xx m => store 4 color m (yy.toNat * g.pitch.toNat + 4 * xx.toNat)

def fillPixels (g : Geometry) (x x1 y y1 color : UInt32) : Bytes → Bytes :=
  forUp y y1 fun yy => forUp x x1 fun xx => fbPixel g xx.toInt32 yy.toInt32 color

/-- The end of a side: the sum wraps. -/
def clip (a n max : UInt32) : UInt32 := if a + n < a ∨ a + n > max then max else a + n

/-- The shadow afterwards, or -1. -/
def fbFillRect (fb : Option Geometry) (x y w h color : UInt32) (m : Bytes) : Option Bytes :=
  match fb with
  | none => none
  | some g =>
    if w = 0 ∨ h = 0 then none
    else if x ≥ g.width ∨ y ≥ g.height then none
    else
      let x1 := clip x w g.width
      let y1 := clip y h g.height
      if g.bpp = 32 ∧ g.pitch &&& 3 = 0 then some (fillWords g x x1 y y1 color m)
      else some (fillPixels g x x1 y y1 color m)

/-! ## Pixels -/

variable {g : Geometry} {color : UInt32} {m : Bytes}

/-- The bytes of a pixel. -/
def Geometry.bytes (g : Geometry) : Nat := g.bpp.toNat / 8

def Geometry.offset (g : Geometry) (px py : Nat) : Nat := py * g.pitch.toNat + px * g.bytes

theorem bytes_cases (g : Geometry) : g.bpp = 24 ∧ g.bytes = 3 ∨ g.bpp = 32 ∧ g.bytes = 4 := by
  unfold Geometry.bytes
  rcases g.depth with h | h
  · exact .inl ⟨h, by rw [h]; rfl⟩
  · exact .inr ⟨h, by rw [h]; rfl⟩

/-- A pixel ends in its row, and its row in the shadow. -/
theorem offset_lt {px py : Nat} (hx : px < g.width.toNat) (hy : py < g.height.toNat) :
    px * g.bytes + g.bytes ≤ g.pitch.toNat ∧ g.offset px py + g.bytes ≤ g.pitch.toNat * g.height.toNat := by
  have hrow : px * g.bytes + g.bytes ≤ g.pitch.toNat := by
    have h : (px + 1) * g.bytes ≤ g.width.toNat * g.bytes := Nat.mul_le_mul_right _ hx
    rw [Nat.add_mul, Nat.one_mul] at h
    exact Nat.le_trans h g.row
  refine ⟨hrow, ?_⟩
  have h : (py + 1) * g.pitch.toNat ≤ g.height.toNat * g.pitch.toNat := Nat.mul_le_mul_right _ hy
  rw [Nat.add_mul, Nat.one_mul, Nat.mul_comm g.height.toNat] at h
  unfold Geometry.offset
  omega

/-- Two multiples of `n` less than `n` apart from one number are one. -/
theorem stride_inj {n a b r s : Nat} (hr : r < n) (hs : s < n) (h : a * n + r = b * n + s) : a = b := by
  have hn : 0 < n := by omega
  have ha : (a * n + r) / n = a := by
    rw [Nat.mul_comm, Nat.mul_add_div hn, Nat.div_eq_of_lt hr, Nat.add_zero]
  have hb : (b * n + s) / n = b := by
    rw [Nat.mul_comm, Nat.mul_add_div hn, Nat.div_eq_of_lt hs, Nat.add_zero]
  rw [← ha, h, hb]

/-- A byte belongs to one pixel. -/
theorem offset_inj {px py qx qy j k : Nat} (hpx : px < g.width.toNat) (hqx : qx < g.width.toNat)
    (hpy : py < g.height.toNat) (hqy : qy < g.height.toNat) (hj : j < g.bytes) (hk : k < g.bytes)
    (h : g.offset px py + j = g.offset qx qy + k) :
    px = qx ∧ py = qy := by
  have h1 := (offset_lt hpx hpy).1
  have h2 := (offset_lt hqx hqy).1
  unfold Geometry.offset at h
  have hrow : py = qy := by
    apply stride_inj (n := g.pitch.toNat) (r := px * g.bytes + j) (s := qx * g.bytes + k) <;> omega
  subst hrow
  refine ⟨?_, rfl⟩
  exact stride_inj hj hk (by omega)

theorem store_zero (off : Nat) : store 0 color m off = m := by
  funext i
  unfold store
  rw [if_neg (by omega)]

theorem store_succ (n off : Nat) :
    store (n + 1) color m off = Function.update (store n color m off) (off + n) (colorByte color n) := by
  funext i
  unfold store Function.update
  by_cases h : i = off + n
  · subst h
    simp
  · rw [dif_neg h]
    congr 1
    apply propext
    omega

theorem not_toInt32_neg {u : UInt32} (h : u.toNat < 2 ^ 31) : ¬ u.toInt32 < 0 := by
  rw [Int32.lt_iff_toInt_lt]
  have hint : u.toInt32.toInt = u.toNat := by
    rw [← Int32.toInt_toBitVec, UInt32.toBitVec_toInt32, BitVec.toInt_eq_toNat_of_lt (by simp; omega)]
    rfl
  rw [hint]
  show ¬ ((u.toNat : Int) < 0)
  omega

theorem colorByte_shift (k : Nat) (hk : k < 4) :
    (color >>> UInt32.ofNat (8 * k)).toUInt8 = colorByte color k := by
  unfold colorByte
  apply UInt8.toNat_inj.mp
  rw [UInt32.toNat_toUInt8, UInt32.toNat_shiftRight, UInt8.toNat_ofNat', UInt32.toNat_ofNat']
  congr 2
  omega

/-- On the screen the signed test passes and the 32-bit address does not wrap. -/
theorem fbPixel_store {xx yy : UInt32} (hx : xx < g.width) (hy : yy < g.height) :
    fbPixel g xx.toInt32 yy.toInt32 color m = store g.bytes color m (g.offset xx.toNat yy.toNat) := by
  have hx' : xx.toNat < g.width.toNat := UInt32.lt_iff_toNat_lt.mp hx
  have hy' : yy.toNat < g.height.toNat := UInt32.lt_iff_toNat_lt.mp hy
  obtain ⟨hrow, hend⟩ := offset_lt hx' hy'
  have hsize := g.size
  have hpitch := g.pitch.toNat_lt
  have h3 : 3 ≤ g.bytes := by rcases bytes_cases g with h | h <;> omega
  have hx31 : xx.toNat < 2 ^ 31 := by
    have : xx.toNat * 3 ≤ xx.toNat * g.bytes := Nat.mul_le_mul_left _ h3
    omega
  have hy31 : yy.toNat < 2 ^ 31 := by
    have : yy.toNat * 3 ≤ yy.toNat * g.pitch.toNat := Nat.mul_le_mul_left _ (by omega)
    unfold Geometry.offset at hend
    omega
  have hbytes : (g.bpp / 8).toNat = g.bytes := UInt32.toNat_div ..
  have hp : (yy * g.pitch).toNat + (xx * (g.bpp / 8)).toNat = g.offset xx.toNat yy.toNat := by
    unfold Geometry.offset at hend ⊢
    rw [UInt32.toNat_mul, UInt32.toNat_mul, hbytes, Nat.mod_eq_of_lt (by omega), Nat.mod_eq_of_lt (by omega)]
  unfold fbPixel
  rw [if_neg, UInt32.toUInt32_toInt32, UInt32.toUInt32_toInt32]
  · have h0 : color.toUInt8 = colorByte color 0 := colorByte_shift 0 (by omega)
    have h1 : (color >>> 8).toUInt8 = colorByte color 1 := colorByte_shift 1 (by omega)
    have h2 : (color >>> 16).toUInt8 = colorByte color 2 := colorByte_shift 2 (by omega)
    have h4 : (color >>> 24).toUInt8 = colorByte color 3 := colorByte_shift 3 (by omega)
    simp only [hp, h0, h1, h2, h4]
    rcases bytes_cases g with ⟨hb, hn⟩ | ⟨hb, hn⟩
    · rw [if_neg (by rw [hb]; decide), hn]
      simp only [store_succ, store_zero, Nat.add_zero]
    · rw [if_pos hb, hn]
      simp only [store_succ, store_zero, Nat.add_zero]
  · have := UInt32.not_le.mpr hx
    have := UInt32.not_le.mpr hy
    simp [not_toInt32_neg hx31, not_toInt32_neg hy31, *]

/-! ## Loops -/

variable {x x1 y y1 w h : UInt32}

theorem forUp_eq {lo hi : UInt32} {body : UInt32 → Bytes → Bytes} {f : Nat → Bytes → Bytes}
    (hbody : ∀ i m, i < hi → body i m = f i.toNat m) (m : Bytes) :
    forUp lo hi body m = (List.range' lo.toNat (hi.toNat - lo.toNat)).foldl (fun m i => f i m) m := by
  apply List.foldl_ext
  intro m i hi'
  rw [List.mem_range'_1] at hi'
  have hlt := hi.toNat_lt
  have hi2 : (UInt32.ofNat i).toNat = i := by
    rw [UInt32.toNat_ofNat', Nat.mod_eq_of_lt (by omega)]
  rw [hbody _ _ (UInt32.lt_iff_toNat_lt.mpr (by omega)), hi2]

/-- Where the loops store, in their order. -/
def offsets (g : Geometry) (x x1 y y1 : UInt32) : List Nat :=
  (List.range' y.toNat (y1.toNat - y.toNat)).flatMap fun py =>
    (List.range' x.toNat (x1.toNat - x.toNat)).map fun px => g.offset px py

theorem mem_offsets {o : Nat} : o ∈ offsets g x x1 y y1 ↔
    ∃ px py, (x.toNat ≤ px ∧ px < x1.toNat) ∧ (y.toNat ≤ py ∧ py < y1.toNat) ∧ o = g.offset px py := by
  unfold offsets
  simp only [List.mem_flatMap, List.mem_map, List.mem_range'_1]
  constructor
  · rintro ⟨py, hy, px, hx, rfl⟩
    exact ⟨px, py, by omega, by omega, rfl⟩
  · rintro ⟨px, py, hx, hy, rfl⟩
    exact ⟨py, by omega, px, by omega, rfl⟩

theorem fillPixels_eq (hx : x1 ≤ g.width) (hy : y1 ≤ g.height) :
    fillPixels g x x1 y y1 color m = (offsets g x x1 y y1).foldl (store g.bytes color) m := by
  unfold fillPixels offsets
  rw [List.foldl_flatMap]
  apply forUp_eq (f := fun py m =>
    ((List.range' x.toNat (x1.toNat - x.toNat)).map fun px => g.offset px py).foldl (store g.bytes color) m)
  intro yy m hyy
  rw [List.foldl_map]
  apply forUp_eq (f := fun px m => store g.bytes color m (g.offset px yy.toNat))
  intro xx m hxx
  exact fbPixel_store (UInt32.lt_of_lt_of_le hxx hx) (UInt32.lt_of_lt_of_le hyy hy)

theorem fillWords_eq (hb : g.bpp = 32) :
    fillWords g x x1 y y1 color m = (offsets g x x1 y y1).foldl (store g.bytes color) m := by
  have h4 : g.bytes = 4 := by
    unfold Geometry.bytes
    rw [hb]
    rfl
  unfold fillWords offsets
  rw [List.foldl_flatMap]
  apply forUp_eq (f := fun py m =>
    ((List.range' x.toNat (x1.toNat - x.toNat)).map fun px => g.offset px py).foldl (store g.bytes color) m)
  intro yy m _
  rw [List.foldl_map]
  apply forUp_eq (f := fun px m => store g.bytes color m (g.offset px yy.toNat))
  intro xx m _
  unfold Geometry.offset
  rw [h4, Nat.mul_comm 4]

/-! ## What a run of stores leaves -/

theorem foldl_store_miss {l : List Nat} {n i : Nat} (h : ∀ o ∈ l, ∀ j < n, i ≠ o + j) :
    l.foldl (store n color) m i = m i := by
  induction l generalizing m with
  | nil => rfl
  | cons o l ih =>
    rw [List.foldl_cons, ih fun o' ho' => h o' (List.mem_cons_of_mem _ ho')]
    unfold store
    rw [if_neg]
    rintro ⟨hlo, hhi⟩
    exact h o List.mem_cons_self (i - o) (by omega) (by omega)

/-- Equal offsets store equal bytes, so the last store to the byte decides nothing. -/
theorem foldl_store_hit {l : List Nat} {n o j : Nat} (ho : o ∈ l) (hj : j < n)
    (h : ∀ o' ∈ l, ∀ k < n, o + j = o' + k → o' = o) :
    l.foldl (store n color) m (o + j) = colorByte color j := by
  induction l generalizing m with
  | nil => cases ho
  | cons a l ih =>
    rw [List.foldl_cons]
    by_cases hl : o ∈ l
    · exact ih hl fun o' ho' => h o' (List.mem_cons_of_mem _ ho')
    · obtain rfl : o = a := by
        rcases List.mem_cons.mp ho with rfl | hmem
        · rfl
        · exact absurd hmem hl
      rw [foldl_store_miss]
      · unfold store
        rw [if_pos (by omega), Nat.add_sub_cancel_left]
      · intro o' ho' k hk heq
        exact hl (h o' (List.mem_cons_of_mem _ ho') k hk heq ▸ ho')

/-- The pixels of a rectangle that are on the screen. -/
def InRect (g : Geometry) (x y w h : UInt32) (px py : Nat) : Prop :=
  (x.toNat ≤ px ∧ px < min (x.toNat + w.toNat) g.width.toNat) ∧
    y.toNat ≤ py ∧ py < min (y.toNat + h.toNat) g.height.toNat

theorem clip_toNat {a n max : UInt32} : (clip a n max).toNat = min (a.toNat + n.toNat) max.toNat := by
  have ha := a.toNat_lt
  have hn := n.toNat_lt
  have hm := max.toNat_lt
  unfold clip
  simp only [gt_iff_lt, UInt32.lt_iff_toNat_lt, UInt32.toNat_add]
  split
  · omega
  · rw [UInt32.toNat_add]
    omega

theorem mem_rect {o : Nat} : o ∈ offsets g x (clip x w g.width) y (clip y h g.height) ↔
    ∃ px py, InRect g x y w h px py ∧ o = g.offset px py := by
  rw [mem_offsets, clip_toNat, clip_toNat]
  unfold InRect
  simp only [and_assoc]

theorem InRect.onScreen {px py : Nat} (hr : InRect g x y w h px py) :
    px < g.width.toNat ∧ py < g.height.toNat := by
  unfold InRect at hr
  omega

/-- Both pairs of loops. -/
theorem fbFillRect_some {m' : Bytes} (hfill : fbFillRect (some g) x y w h color m = some m') :
    m' = (offsets g x (clip x w g.width) y (clip y h g.height)).foldl (store g.bytes color) m := by
  have hx : clip x w g.width ≤ g.width := by
    rw [UInt32.le_iff_toNat_le, clip_toNat]
    omega
  have hy : clip y h g.height ≤ g.height := by
    rw [UInt32.le_iff_toNat_le, clip_toNat]
    omega
  unfold fbFillRect at hfill
  simp only at hfill
  split at hfill
  · cases hfill
  · split at hfill
    · cases hfill
    · split at hfill
      · next hb =>
        rw [← fillWords_eq hb.1]
        exact (Option.some.inj hfill).symm
      · rw [← fillPixels_eq hx hy]
        exact (Option.some.inj hfill).symm

/-- The pixels of the clipped rectangle hold the color, every other byte is kept, and the word
stores are the pixel stores. -/
theorem fbFillRect_exact (g : Geometry) (x y w h color : UInt32) (m : Bytes) :
    (fbFillRect (some g) x y w h color m = none ↔ w = 0 ∨ h = 0 ∨ x ≥ g.width ∨ y ≥ g.height) ∧
      (∀ m', fbFillRect (some g) x y w h color m = some m' →
        (∀ px py j, InRect g x y w h px py → j < g.bytes → m' (g.offset px py + j) = colorByte color j) ∧
        (∀ i, (∀ px py j, InRect g x y w h px py → j < g.bytes → i ≠ g.offset px py + j) → m' i = m i) ∧
        ∀ i, g.pitch.toNat * g.height.toNat ≤ i → m' i = m i) ∧
      (g.bpp = 32 → ∀ x1 y1, x1 ≤ g.width → y1 ≤ g.height →
        fillWords g x x1 y y1 color m = fillPixels g x x1 y y1 color m) := by
  refine ⟨?_, fun m' hfill => ?_, fun hb x1 y1 hx hy => ?_⟩
  · unfold fbFillRect
    simp only
    by_cases hn : w = 0 ∨ h = 0
    · simp [hn]
      tauto
    · by_cases ho : x ≥ g.width ∨ y ≥ g.height
      · simp [hn, ho]
      · rw [if_neg hn, if_neg ho]
        constructor
        · intro h
          split at h <;> cases h
        · intro h
          tauto
  · have hkept : ∀ i, (∀ px py j, InRect g x y w h px py → j < g.bytes → i ≠ g.offset px py + j) →
        m' i = m i := by
      intro i hi
      rw [fbFillRect_some hfill]
      apply foldl_store_miss
      intro o ho j hj
      obtain ⟨px, py, hr, rfl⟩ := mem_rect.mp ho
      exact hi px py j hr hj
    refine ⟨fun px py j hr hj => ?_, hkept, fun i hi => hkept i fun px py j hr hj heq => ?_⟩
    · rw [fbFillRect_some hfill]
      apply foldl_store_hit (mem_rect.mpr ⟨px, py, hr, rfl⟩) hj
      intro o ho k hk heq
      obtain ⟨qx, qy, hq, rfl⟩ := mem_rect.mp ho
      obtain ⟨rfl, rfl⟩ := offset_inj hr.onScreen.1 hq.onScreen.1 hr.onScreen.2 hq.onScreen.2 hj hk heq
      rfl
    · have hlt := (offset_lt hr.onScreen.1 hr.onScreen.2).2
      omega
  · rw [fillWords_eq hb, fillPixels_eq hx hy]

end VampireOS.Framebuffer
