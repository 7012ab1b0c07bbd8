import Mathlib.Data.List.TakeWhile
import VampireOS.Lib.Ink
import VampireOS.Drivers.Font
import VampireOS.Drivers.Framebuffer
import VampireOS.Drivers.Vga

/-!
# Drawing text on the shadow (kernel/fb.c:405-476, 532-648, 685-710)

| here | there |
| --- | --- |
| `drawGlyph` | the loops of `fb_overlay_cell` and `fb_glyph_1x`: a pixel is a square of `scale` |
| `forBreak` | a `for` whose body begins with `if (..) break;` |
| `fbOverlayY`, `fbHitsOverlay`, `fbOverlayCell`, `fbOverlayClearFrom` | the same |
| `fbPromptLine`, `fbGlyph1x`, `fbVgaBlit` | the same |
| `textLoop` | the loop of `fb_draw_text` |

An `int` is an `Int`: the screen is far smaller than 2^31. Every function here draws an `Ink` of
pixels: `draw_textLoop`, `draw_promptLine`, `draw_vgaBlit`.
-/

namespace VampireOS.Framebuffer

open Lib

/-- `FB_BG`, `FB_FG`. -/
def fbBg : UInt32 := 0x001A0A12
def fbFg : UInt32 := 0x00F4E4C8

/-- `FB_PROMPT_SCALE`, `fb_prompt_cell`, `FB_OVERLAY_PAD`. -/
def promptScale : Nat := 2
def promptCell : Nat := 8 * promptScale
def overlayPad : Nat := 8

def forBreak {M : Type} (n : Nat) (stop : Nat → Bool) (body : Nat → M → M) (m : M) : M :=
  ((List.range n).takeWhile fun i => !stop i).foldl (fun m i => body i m) m

/-- Bit `gx` of a row, from the left. -/
def bit (bits : UInt8) (gx : Nat) : Bool := bits &&& (0x80 >>> UInt8.ofNat gx) ≠ 0

/-- The glyph of a character; what has none is a blank. -/
def glyphOf (c : UInt8) : Glyph := font8x8.getD ((if c < 32 ∨ c > 126 then 32 else c).toNat - 32) []

def shade (b : Bool) : UInt32 := if b then fbFg else fbBg

def drawGlyph (g : Geometry) (scale : Nat) (x y : Int) (c : UInt8) (m : Bytes) : Bytes :=
  (List.range 8).foldl (fun m (gy : Nat) => (List.range 8).foldl (fun m (gx : Nat) =>
    let color := shade (bit ((glyphOf c).getD gy 0) gx)
    (List.range scale).foldl (fun m (sy : Nat) => (List.range scale).foldl (fun m (sx : Nat) =>
      fbPixel g (Int32.ofInt (x + gx * scale + sx)) (Int32.ofInt (y + gy * scale + sy)) color m) m) m) m) m

def fbOverlayCell (g : Geometry) : (x y : Int) → UInt8 → Bytes → Bytes := drawGlyph g promptScale

/-- With one pixel for each of the font's. -/
def fbGlyph1x (g : Geometry) : (x y : Int) → UInt8 → Bytes → Bytes := drawGlyph g 1

/-- The top of the strip, unless the screen is too low for one. -/
def fbOverlayY (g : Geometry) : Option Nat :=
  if g.height.toNat < promptCell + overlayPad then none else some (g.height.toNat - promptCell - overlayPad)

def fbHitsOverlay (g : Geometry) (y h : UInt32) : Bool :=
  match fbOverlayY g with
  | none => false
  | some oy =>
    if h = 0 then false
    else
      let y1 := if y + h < y ∨ y + h > g.height then g.height else y + h
      if y.toNat ≥ oy + promptCell then false else if y1.toNat ≤ oy then false else true

/-- A column of the strip that does not fit. -/
def past (g : Geometry) (col : Nat) : Bool := col * promptCell + promptCell > g.width.toNat

/-- No column from `fb_w` on fits, so the endless loop ends before. -/
def fbOverlayClearFrom (g : Geometry) (y : Nat) (m : Bytes) : Bytes :=
  forBreak g.width.toNat (past g) (fun col m => fbOverlayCell g (col * promptCell) y 32 m) m

/-- The two loops over the prompt and the typed text; the second one starts where the first one ends. -/
def fbPromptLine (g : Geometry) (prompt buf : Name) (m : Bytes) : Bytes :=
  match fbOverlayY g with
  | none => m
  | some y =>
    let m := fbOverlayClearFrom g y m
    let m := forBreak prompt.length (past g) (fun col m => fbOverlayCell g (col * promptCell) y
      (prompt.getD col 0) m) m
    if (List.range prompt.length).any (past g) then m
    else
      forBreak buf.length (fun i => past g (prompt.length + i))
        (fun i m => fbOverlayCell g ((prompt.length + i) * promptCell) y (buf.getD i 0) m) m

def fbVgaBlit (g : Geometry) (v : Console.Vga) (m : Bytes) : Bytes :=
  forBreak Console.height
    (fun row => row * 8 + 8 > g.height.toNat ∨ (fbOverlayY g).any fun oy => row * 8 + 8 > oy ∧
      row * 8 < oy + promptCell)
    (fun row m => forBreak Console.width (fun col => col * 8 + 8 > g.width.toNat)
      (fun col m => fbGlyph1x g (col * 8) (row * 8) (Console.vgaCharAt v row col) m) m) m

def textLoop (g : Geometry) (x y : Int) (s : Name) (m : Bytes) : Bytes :=
  forBreak s.length
    (fun col => x + col * promptCell < 0 ∨ x + col * promptCell + promptCell > g.width.toNat ∨
      y + promptCell > g.height.toNat)
    (fun col m => fbOverlayCell g (x + col * promptCell) y (s.getD col 0) m) m

/-! ## Pixels -/

variable {g : Geometry} {m : Bytes} {C C' : Ink (Nat × Nat) UInt32}

/-- The pixel that a byte is of, and its number in it. -/
def Geometry.place (g : Geometry) (i : Nat) : Option ((Nat × Nat) × Nat) :=
  let r := i % g.pitch.toNat
  if r / g.bytes < g.width.toNat ∧ i / g.pitch.toNat < g.height.toNat then
    some ((r / g.bytes, i / g.pitch.toNat), r % g.bytes)
  else none

theorem bytes_pos (g : Geometry) : 0 < g.bytes := by
  rcases bytes_cases g with h | h <;> omega

theorem place_offset {px py j : Nat} (hx : px < g.width.toNat) (hy : py < g.height.toNat) (hj : j < g.bytes) :
    g.place (g.offset px py + j) = some ((px, py), j) := by
  have hrow := (offset_lt hx hy).1
  have hdiv : (px * g.bytes + j) / g.bytes = px := by
    rw [Nat.mul_comm, Nat.mul_add_div (bytes_pos g), Nat.div_eq_of_lt hj, Nat.add_zero]
  have hmod : (px * g.bytes + j) % g.bytes = j := by
    rw [Nat.mul_comm, Nat.mul_add_mod, Nat.mod_eq_of_lt hj]
  have hoff : g.offset px py + j = g.pitch.toNat * py + (px * g.bytes + j) := by
    rw [Geometry.offset, Nat.mul_comm py, Nat.add_assoc]
  have hp : (g.offset px py + j) / g.pitch.toNat = py := by
    rw [hoff, Nat.mul_add_div (by omega), Nat.div_eq_of_lt (by omega), Nat.add_zero]
  have hr : (g.offset px py + j) % g.pitch.toNat = px * g.bytes + j := by
    rw [hoff, Nat.mul_add_mod, Nat.mod_eq_of_lt (by omega)]
  simp only [Geometry.place, hp, hr, hdiv, hmod, hx, hy, and_self, if_true]

theorem place_some {i px py j : Nat} (h : g.place i = some ((px, py), j)) :
    px < g.width.toNat ∧ py < g.height.toNat ∧ j < g.bytes ∧ i = g.offset px py + j := by
  unfold Geometry.place at h
  simp only at h
  split at h
  · rename_i hin
    cases h
    refine ⟨hin.1, hin.2, Nat.mod_lt _ (bytes_pos g), ?_⟩
    rw [Geometry.offset, Nat.add_assoc, Nat.mul_comm (i % _ / _), Nat.div_add_mod, Nat.mul_comm,
      Nat.div_add_mod]
  · cases h

/-- The bytes of a drawing. -/
def Geometry.spread (g : Geometry) (C : Ink (Nat × Nat) UInt32) : Ink Nat UInt8 := fun i =>
  (g.place i).bind fun q => (C q.1).map fun color => colorByte color q.2

/-- A drawing on the shadow. -/
def Geometry.draw (g : Geometry) (C : Ink (Nat × Nat) UInt32) (m : Bytes) : Bytes := (g.spread C).on m

theorem spread_atop : g.spread (C.atop C') = (g.spread C).atop (g.spread C') := by
  funext i
  simp only [Geometry.spread, Ink.atop]
  cases g.place i with
  | none => rfl
  | some q => simp only [Option.bind_some]; cases C q.1 <;> rfl

theorem spread_blank : g.spread Ink.blank = Ink.blank := by
  funext i
  simp only [Geometry.spread, Ink.blank]
  cases g.place i <;> rfl

theorem draw_draw : g.draw C (g.draw C' m) = g.draw (C.atop C') m := by
  rw [Geometry.draw, Geometry.draw, Geometry.draw, Ink.on_on, spread_atop]

theorem draw_blank : g.draw Ink.blank m = m := by
  rw [Geometry.draw, spread_blank, Ink.on_blank]

/-- A loop whose turns draw. -/
theorem foldl_draw {A : Type} {l : List A} {f : Bytes → A → Bytes} {F : A → Ink (Nat × Nat) UInt32}
    (h : ∀ a ∈ l, ∀ m, f m a = g.draw (F a) m) : l.foldl f m = g.draw (Ink.all l F) m := by
  induction l generalizing m with
  | nil => exact draw_blank.symm
  | cons a l ih =>
    rw [List.foldl_cons, ih fun b hb => h b (List.mem_cons_of_mem _ hb), h a List.mem_cons_self,
      draw_draw, Ink.all_cons]

/-- A byte of a pixel. -/
theorem draw_pixel {px py j : Nat} (hx : px < g.width.toNat) (hy : py < g.height.toNat)
    (hj : j < g.bytes) :
    g.draw C m (g.offset px py + j) =
      ((C (px, py)).map fun color => colorByte color j).getD (m (g.offset px py + j)) := by
  rw [Geometry.draw, Ink.on, Geometry.spread, place_offset hx hy hj]
  rfl

theorem draw_miss {i : Nat} (h : ∀ q, g.place i = some q → C q.1 = none) : g.draw C m i = m i := by
  apply Ink.on_none
  rw [Geometry.spread]
  cases hq : g.place i with
  | none => rfl
  | some q => simp [h q hq]

/-- One pixel, on the screen or not. -/
def dot (x y : Int) (color : UInt32) : Ink (Nat × Nat) UInt32 := fun p =>
  if (p.1 : Int) = x ∧ (p.2 : Int) = y then some color else none

theorem toInt_ofInt {x : Int} (h : -2 ^ 31 ≤ x ∧ x < 2 ^ 31) : (Int32.ofInt x).toInt = x :=
  Int32.toInt_ofInt_of_le (by simpa using h.1) (by simpa using h.2)

theorem toUInt32_ofInt {x : Int} (h : 0 ≤ x ∧ x < 2 ^ 31) : (Int32.ofInt x).toUInt32 = UInt32.ofNat x.toNat ∧
    (UInt32.ofNat x.toNat).toNat = x.toNat := by
  have hn : (UInt32.ofNat x.toNat).toNat = x.toNat := by
    rw [UInt32.toNat_ofNat', Nat.mod_eq_of_lt (by omega)]
  refine ⟨?_, hn⟩
  obtain ⟨n, rfl⟩ := Int.eq_ofNat_of_zero_le h.1
  rfl

theorem store_draw {px py : Nat} (color : UInt32) (hx : px < g.width.toNat) (hy : py < g.height.toNat) :
    store g.bytes color m (g.offset px py) = g.draw (dot px py color) m := by
  funext i
  unfold store
  split
  · rename_i hin
    obtain ⟨j, rfl⟩ : ∃ j, i = g.offset px py + j := ⟨i - g.offset px py, by omega⟩
    rw [draw_pixel hx hy (by omega), Nat.add_sub_cancel_left]
    simp [dot]
  · rename_i hout
    rw [draw_miss]
    rintro ⟨⟨qx, qy⟩, j⟩ hq
    obtain ⟨-, -, hj, rfl⟩ := place_some hq
    rw [dot, if_neg]
    rintro ⟨ex, ey⟩
    obtain rfl : qx = px := by exact_mod_cast ex
    obtain rfl : qy = py := by exact_mod_cast ey
    omega

/-- `fb_pixel` draws a dot; off the screen there is none. -/
theorem fbPixel_dot {x y : Int} (color : UInt32) (hx : -2 ^ 31 ≤ x ∧ x < 2 ^ 31)
    (hy : -2 ^ 31 ≤ y ∧ y < 2 ^ 31) :
    fbPixel g (Int32.ofInt x) (Int32.ofInt y) color m = g.draw (dot x y color) m := by
  by_cases hin : (0 ≤ x ∧ x.toNat < g.width.toNat) ∧ (0 ≤ y ∧ y.toNat < g.height.toNat)
  · obtain ⟨⟨hx0, hxw⟩, hy0, hyh⟩ := hin
    obtain ⟨ex, nx⟩ := toUInt32_ofInt ⟨hx0, hx.2⟩
    obtain ⟨ey, ny⟩ := toUInt32_ofInt ⟨hy0, hy.2⟩
    have hxw' : UInt32.ofNat x.toNat < g.width := by rw [UInt32.lt_iff_toNat_lt, nx]; exact hxw
    have hyh' : UInt32.ofNat y.toNat < g.height := by rw [UInt32.lt_iff_toNat_lt, ny]; exact hyh
    have hstore : fbPixel g (UInt32.ofNat x.toNat).toInt32 (UInt32.ofNat y.toNat).toInt32 color m =
        g.draw (dot x y color) m := by
      rw [fbPixel_store hxw' hyh', nx, ny, store_draw color hxw hyh, Int.toNat_of_nonneg hx0,
        Int.toNat_of_nonneg hy0]
    rw [← ex, ← ey, Int32.toInt32_toUInt32, Int32.toInt32_toUInt32] at hstore
    exact hstore
  · have hoff : fbPixel g (Int32.ofInt x) (Int32.ofInt y) color m = m := by
      rw [fbPixel, if_pos]
      by_contra hon
      simp only [not_or, ge_iff_le, Int32.lt_iff_toInt_lt, toInt_ofInt hx, toInt_ofInt hy] at hon
      obtain ⟨h1, h2, h3, h4⟩ := hon
      have hx0 : 0 ≤ x := Int.not_lt.1 h1
      have hy0 : 0 ≤ y := Int.not_lt.1 h2
      obtain ⟨ex, nx⟩ := toUInt32_ofInt ⟨hx0, hx.2⟩
      obtain ⟨ey, ny⟩ := toUInt32_ofInt ⟨hy0, hy.2⟩
      rw [ex, UInt32.le_iff_toNat_le, nx] at h3
      rw [ey, UInt32.le_iff_toNat_le, ny] at h4
      exact hin ⟨⟨hx0, Nat.lt_of_not_le h3⟩, hy0, Nat.lt_of_not_le h4⟩
    rw [hoff]
    funext i
    rw [draw_miss]
    rintro ⟨⟨px, py⟩, j⟩ hq
    obtain ⟨hpx, hpy, -, -⟩ := place_some hq
    rw [dot, if_neg]
    rintro ⟨rfl, rfl⟩
    exact hin ⟨⟨Int.natCast_nonneg _, by simpa using hpx⟩, Int.natCast_nonneg _, by simpa using hpy⟩

/-! ## Cells -/

abbrev col (p : Nat × Nat) : Int := p.1
abbrev row (p : Nat × Nat) : Int := p.2

/-- A character, its glyph drawn as squares of `scale`. -/
def cellInk (scale : Nat) (x y : Int) (c : UInt8) : Ink (Nat × Nat) UInt32 :=
  Ink.strips row y scale 8 fun gy => Ink.strips col x scale 8 fun gx _ =>
    some (shade (bit ((glyphOf c).getD gy 0) gx))

theorem dot_within {x y : Int} (color : UInt32) :
    dot x y color = Ink.within row y 1 (Ink.within col x 1 fun _ => some color) := by
  funext p
  simp only [dot, Ink.within, col, row]
  by_cases hy : (p.2 : Int) = y
  · by_cases hx : (p.1 : Int) = x
    · simp [hx, hy]
    · rw [if_neg (fun h => hx h.1), if_pos (by omega), if_neg (by omega)]
  · rw [if_neg (fun h => hy h.2), if_neg (by omega)]

theorem within_all {P α A : Type} {t : P → Int} {lo : Int} {s : Nat} (l : List A) (F : A → Ink P α) :
    Ink.all l (fun a => Ink.within t lo s (F a)) = Ink.within t lo s (Ink.all l F) := by
  induction l with
  | nil =>
    funext p
    simp [Ink.within]
  | cons a l ih =>
    rw [Ink.all_cons, ih, Ink.all_cons]
    funext p
    simp only [Ink.atop, Ink.within]
    split <;> rfl

/-- A square of one color. -/
theorem draw_square {scale : Nat} {x y : Int} (color : UInt32) (hx : -2 ^ 31 ≤ x ∧ x + scale ≤ 2 ^ 31)
    (hy : -2 ^ 31 ≤ y ∧ y + scale ≤ 2 ^ 31) (m : Bytes) :
    ((List.range scale).foldl (fun m (sy : Nat) => (List.range scale).foldl (fun m (sx : Nat) =>
      fbPixel g (Int32.ofInt (x + sx)) (Int32.ofInt (y + sy)) color m) m) m) =
    g.draw (Ink.within row y scale (Ink.within col x scale fun _ => some color)) m := by
  have hrow : ∀ sy ∈ List.range scale, ∀ m : Bytes, ((List.range scale).foldl (fun m (sx : Nat) =>
      fbPixel g (Int32.ofInt (x + sx)) (Int32.ofInt (y + sy)) color m) m) =
      g.draw (Ink.within row (y + sy * (1 : Nat)) 1 (Ink.within col x scale fun _ => some color)) m := by
    intro sy hsy m
    have hlt := List.mem_range.1 hsy
    rw [foldl_draw (F := fun (sx : Nat) => Ink.within row (y + sy) 1
      (Ink.within col (x + sx * (1 : Nat)) 1 fun _ => some color)),
      within_all, Ink.all_strips Nat.one_pos]
    · congr 2
      · simp
      · funext p
        simp [Ink.strips, Ink.within]
    · intro sx hsx m
      have := List.mem_range.1 hsx
      rw [fbPixel_dot color (by omega) (by omega), dot_within]
      simp
  rw [foldl_draw hrow, Ink.all_strips Nat.one_pos]
  congr 1
  funext p
  simp [Ink.strips, Ink.within]

theorem drawGlyph_draw {scale : Nat} {x y : Int} (hs : 0 < scale) (c : UInt8)
    (hx : -2 ^ 31 ≤ x ∧ x + 8 * scale ≤ 2 ^ 31) (hy : -2 ^ 31 ≤ y ∧ y + 8 * scale ≤ 2 ^ 31)
    (m : Bytes) :
    drawGlyph g scale x y c m = g.draw (cellInk scale x y c) m := by
  have hsq : ∀ gy ∈ List.range 8, ∀ gx ∈ List.range 8, -2 ^ 31 ≤ x + gx * scale ∧
    x + gx * scale + scale ≤ 2 ^ 31 ∧
      -2 ^ 31 ≤ y + gy * scale ∧ y + gy * scale + scale ≤ 2 ^ 31 := by
    intro gy hgy gx hgx
    have h1 : (gy * scale + scale : Nat) ≤ 8 * scale := by
      have := Nat.mul_le_mul_right scale (List.mem_range.1 hgy)
      rwa [Nat.succ_mul] at this
    have h2 : (gx * scale + scale : Nat) ≤ 8 * scale := by
      have := Nat.mul_le_mul_right scale (List.mem_range.1 hgx)
      rwa [Nat.succ_mul] at this
    have h1' : (gy * scale : Int) + scale ≤ 8 * scale := by exact_mod_cast h1
    have h2' : (gx * scale : Int) + scale ≤ 8 * scale := by exact_mod_cast h2
    have h3 : (0 : Int) ≤ gy * scale := by positivity
    have h4 : (0 : Int) ≤ gx * scale := by positivity
    exact ⟨by linarith [hx.1], by linarith [hx.2], by linarith [hy.1], by linarith [hy.2]⟩
  have hrow : ∀ gy ∈ List.range 8, ∀ m : Bytes, ((List.range 8).foldl (fun m (gx : Nat) =>
      (List.range scale).foldl (fun m (sy : Nat) => (List.range scale).foldl (fun m (sx : Nat) =>
        fbPixel g (Int32.ofInt (x + gx * scale + sx)) (Int32.ofInt (y + gy * scale + sy))
          (shade (bit ((glyphOf c).getD gy 0) gx)) m) m) m) m) =
      g.draw (Ink.within row (y + gy * scale) scale
        (Ink.strips col x scale 8 fun gx _ => some (shade (bit ((glyphOf c).getD gy 0) gx)))) m := by
    intro gy hgy m
    rw [foldl_draw (F := fun (gx : Nat) => Ink.within row (y + gy * scale) scale
      (Ink.within col (x + gx * scale) scale fun _ =>
      some (shade (bit ((glyphOf c).getD gy 0) gx)))), within_all, Ink.all_strips hs]
    intro gx hgx m
    obtain ⟨h1, h2, h3, h4⟩ := hsq gy hgy gx hgx
    exact draw_square _ ⟨h1, h2⟩ ⟨h3, h4⟩ m
  rw [cellInk, ← Ink.all_strips hs]
  exact foldl_draw hrow

/-! ## Lines -/

/-- A loop ends where its first turn breaks. -/
theorem takeWhile_range {stop : Nat → Bool} {k : Nat} (n : Nat) (h : ∀ i, i < k → stop i = false)
    (hk : stop k = true) :
    ((List.range n).takeWhile fun i => !stop i) = List.range (min n k) := by
  by_cases hn : n ≤ k
  · rw [Nat.min_eq_left hn, List.takeWhile_eq_self_iff]
    intro i hi
    simp [h i (Nat.lt_of_lt_of_le (List.mem_range.1 hi) hn)]
  · have hsplit : List.range n = List.range k ++ List.range' k (n - k) := by
      have happ := @List.range'_append_1 0 k (n - k)
      rw [Nat.zero_add, Nat.add_sub_cancel' (by omega)] at happ
      rw [List.range_eq_range', List.range_eq_range', happ]
    have hhead : List.range' k (n - k) = k :: List.range' (k + 1) (n - k - 1) := by
      rw [show n - k = (n - k - 1) + 1 by omega, List.range'_succ]
      rfl
    rw [hsplit, List.takeWhile_append_of_pos (fun i hi => by simp [h i (List.mem_range.1 hi)]), hhead,
      List.takeWhile_cons_of_neg (by simp [hk]), List.append_nil, Nat.min_eq_right (by omega)]

theorem forBreak_draw {stop : Nat → Bool} {k n : Nat} {body : Nat → Bytes → Bytes}
    {F : Nat → Ink (Nat × Nat) UInt32} (h : ∀ i, i < k → stop i = false) (hk : stop k = true)
    (hbody : ∀ i, i < k → ∀ m, body i m = g.draw (F i) m) :
    forBreak n stop body m = g.draw (Ink.all (List.range (min n k)) F) m := by
  rw [forBreak, takeWhile_range n h hk]
  apply foldl_draw
  intro i hi m
  exact hbody i (Nat.lt_of_lt_of_le (List.mem_range.1 hi) (Nat.min_le_right _ _)) m

/-- A place between the edges is in one of the strips. -/
theorem strips_apply {P α : Type} {t : P → Int} {lo : Int} {s n : Nat} {F : Nat → Ink P α} {p : P}
    (hs : 0 < s) :
    Ink.strips t lo s n F p =
      if lo ≤ t p ∧ (t p - lo).toNat / s < n then F ((t p - lo).toNat / s) p else none := by
  rw [Ink.strips]
  by_cases hlo : lo ≤ t p
  · congr 1
    rw [Nat.div_lt_iff_lt_mul hs]
    apply propext
    constructor
    · rintro ⟨-, h⟩
      refine ⟨hlo, ?_⟩
      have hd : ((t p - lo).toNat : Int) < n * s := by rw [Int.toNat_of_nonneg (by linarith)]; linarith
      exact_mod_cast hd
    · rintro ⟨-, h⟩
      have hd : ((t p - lo).toNat : Int) < n * s := by exact_mod_cast h
      rw [Int.toNat_of_nonneg (by linarith)] at hd
      exact ⟨hlo, by linarith⟩
  · rw [if_neg (fun h => hlo h.1), if_neg (fun h => hlo h.1)]

theorem cellInk_within (scale : Nat) (x y : Int) (c : UInt8) :
    Ink.within col x (scale * 8) (cellInk scale x y c) = cellInk scale x y c := by
  funext p
  simp only [Ink.within, cellInk, Ink.strips]
  by_cases hx : x ≤ col p ∧ col p < x + (scale * 8 : Nat)
  · rw [if_pos hx]
  · have hx' : ¬ (x ≤ col p ∧ col p < x + (8 : Nat) * scale) := by
      push_cast at hx ⊢
      rwa [mul_comm (8 : Int)]
    rw [if_neg hx, if_neg hx', ite_self]

/-- Characters side by side. -/
def lineInk (scale : Nat) (x y : Int) (n : Nat) (c : Nat → UInt8) : Ink (Nat × Nat) UInt32 :=
  Ink.strips col x (scale * 8) n fun k => cellInk scale (x + k * (scale * 8 : Nat)) y (c k)

theorem all_cells {scale : Nat} (hs : 0 < scale) (x y : Int) (n : Nat) (c : Nat → UInt8) :
    Ink.all (List.range n) (fun k => cellInk scale (x + k * (scale * 8 : Nat)) y (c k)) =
    lineInk scale x y n c := by
  rw [lineInk, ← Ink.all_strips (by omega)]
  congr 1
  funext k
  exact (cellInk_within _ _ _ _).symm

/-- Nothing above or below the line. -/
theorem lineInk_row {scale : Nat} {x y : Int} {n : Nat} {c : Nat → UInt8} {p : Nat × Nat}
    (h : ¬ (y ≤ row p ∧ row p < y + (8 : Nat) * scale)) : lineInk scale x y n c p = none := by
  simp only [lineInk, Ink.strips, cellInk, if_neg h, ite_self]

/-- A pixel of a character in a line. -/
theorem lineInk_pixel {scale x y n k gx gy : Nat} {c : Nat → UInt8} (hs : 0 < scale) (hk : k < n)
    (hgx : gx < scale * 8) (hgy : gy < scale * 8) :
    lineInk scale x y n c (x + (k * (scale * 8) + gx), y + gy) =
      some (shade (bit ((glyphOf (c k)).getD (gy / scale) 0) (gx / scale))) := by
  have hs8 : 0 < scale * 8 := by omega
  have hidx : ((x + (k * (scale * 8) + gx) : Nat) - (x : Int)).toNat / (scale * 8) = k := by
    have hsub : ((x + (k * (scale * 8) + gx) : Nat) - (x : Int)).toNat = k * (scale * 8) + gx := by omega
    rw [hsub, Nat.mul_comm k, Nat.mul_add_div hs8, Nat.div_eq_of_lt hgx, Nat.add_zero]
  have hcol : ((x + (k * (scale * 8) + gx) : Nat) - ((x : Int) + k * (scale * 8 : Nat))).toNat = gx := by
    push_cast
    omega
  have hrow : ((y + gy : Nat) - (y : Int)).toNat = gy := by omega
  have hlo : (x : Int) + k * (scale * 8 : Nat) ≤ (x + (k * (scale * 8) + gx) : Nat) := by
    push_cast
    omega
  rw [lineInk, strips_apply hs8, if_pos ⟨by simp only [col]; omega, by simp only [col, hidx]; exact hk⟩]
  simp only [col, hidx]
  rw [cellInk, strips_apply hs, if_pos ⟨by simp only [row]; omega, by
    simp only [row, hrow]
    exact (Nat.div_lt_iff_lt_mul hs).2 (by rwa [Nat.mul_comm])⟩]
  rw [strips_apply hs, if_pos ⟨hlo, by
    simp only [col, hcol]
    exact (Nat.div_lt_iff_lt_mul hs).2 (by rwa [Nat.mul_comm])⟩]
  simp only [col, row, hcol, hrow]

/-! ## The strip -/

/-- How many characters fit. -/
def Geometry.columns (g : Geometry) : Nat := g.width.toNat / promptCell

theorem past_iff {k : Nat} : past g k = decide (g.columns ≤ k) := by
  rw [past, decide_eq_decide]
  simp only [Geometry.columns, promptCell, promptScale]
  omega

/-- The shadow is below 2^32 bytes, so no coordinate comes near 2^31. -/
theorem size_lt (g : Geometry) (hh : 0 < g.height.toNat) :
    g.width.toNat + 2 < 2 ^ 31 ∧ g.height.toNat + 2 < 2 ^ 31 ∨ g.width.toNat = 0 := by
  by_cases hw : 0 < g.width.toNat
  · left
    have hend :=
      (offset_lt (g := g) (show g.width.toNat - 1 < _ by omega)
        (show g.height.toNat - 1 < _ by omega)).1
    have h3 : 3 ≤ g.bytes := by rcases bytes_cases g with h | h <;> omega
    have hpw : 3 * g.width.toNat ≤ g.pitch.toNat := by
      have h1 : (g.width.toNat - 1) * 3 ≤ (g.width.toNat - 1) * g.bytes := Nat.mul_le_mul_left _ h3
      omega
    have hsize := g.size
    have h1 : g.pitch.toNat * 1 ≤ g.pitch.toNat * g.height.toNat := Nat.mul_le_mul_left _ hh
    have h2 : 3 * g.height.toNat ≤ g.pitch.toNat * g.height.toNat := Nat.mul_le_mul_right _ (by omega)
    omega
  · exact .inr (by omega)

/-- What the strip shows. -/
def promptInk (g : Geometry) (oy : Nat) (text : Name) : Ink (Nat × Nat) UInt32 :=
  lineInk promptScale 0 oy g.columns fun k => text.getD k 32

/-- A text on the strip, as far as it fits. -/
theorem forBreak_past {n at0 oy : Nat} {c : Nat → UInt8} (hh : oy + promptCell ≤ g.height.toNat)
    (m : Bytes) :
    forBreak n (fun i => past g (at0 + i))
      (fun i m => fbOverlayCell g ((at0 + i : Nat) * promptCell : Nat) oy (c i) m) m =
      g.draw (lineInk promptScale (at0 * promptCell : Nat) oy (min n (g.columns - at0)) c) m := by
  have hs : 0 < promptScale := by decide
  have h0 : 0 < g.height.toNat := by
    simp only [promptCell, promptScale] at hh
    omega
  rw [← all_cells hs]
  have hbody : ∀ i, i < g.columns - at0 → ∀ m, fbOverlayCell g ((at0 + i : Nat) * promptCell : Nat)
    oy (c i) m =
      g.draw (cellInk promptScale ((at0 * promptCell : Nat) + i * (promptScale * 8 : Nat)) oy (c i)) m := by
    intro i hi m
    rcases size_lt g h0 with ⟨hw, hht⟩ | hw
    · have hlt : (at0 + i) * promptCell + promptCell ≤ g.width.toNat := by
        have hk : at0 + i + 1 ≤ g.width.toNat / promptCell := by
          rw [Geometry.columns] at hi
          omega
        have := (Nat.le_div_iff_mul_le (by decide)).1 hk
        rwa [Nat.succ_mul] at this
      have hcell : ((at0 * promptCell : Nat) + i * (promptScale * 8 : Nat) : Int) =
          (((at0 + i) * promptCell : Nat) : Int) := by
        simp only [promptCell]
        push_cast
        ring
      rw [hcell, fbOverlayCell]
      simp only [promptCell, promptScale] at hlt hh ⊢
      exact drawGlyph_draw (by decide) _ ⟨by omega, by push_cast; omega⟩ ⟨by omega, by push_cast; omega⟩ m
    · rw [Geometry.columns, hw] at hi
      simp at hi
  rcases Nat.le_total at0 g.columns with hle | hle
  · apply forBreak_draw _ _ hbody
    · intro i hi
      rw [past_iff, decide_eq_false_iff_not]
      omega
    · rw [past_iff, decide_eq_true_iff]
      omega
  · apply forBreak_draw _ _ hbody
    · intro i hi
      omega
    · rw [past_iff, decide_eq_true_iff]
      omega

theorem fbOverlayY_some {oy : Nat} (h : fbOverlayY g = some oy) :
    oy + promptCell + overlayPad = g.height.toNat := by
  unfold fbOverlayY at h
  split at h
  · cases h
  · cases h
    omega

/-- The first part of a line that is drawn twice. -/
theorem lineInk_atop {scale : Nat} {x y : Int} {n n' : Nat} {c c' : Nat → UInt8} (d : Nat → UInt8)
    (hs : 0 < scale) (hn : n ≤ n') (h : ∀ k, k < n → d k = c k)
    (h' : ∀ k, n ≤ k → k < n' → d k = c' k) :
    (lineInk scale x y n c).atop (lineInk scale x y n' c') = lineInk scale x y n' d := by
  have hs8 : 0 < scale * 8 := by omega
  funext p
  simp only [Ink.atop, lineInk, strips_apply hs8]
  by_cases hlo : x ≤ col p
  · by_cases hk : (col p - x).toNat / (scale * 8) < n
    · rw [if_pos ⟨hlo, hk⟩, if_pos ⟨hlo, by omega⟩, if_pos ⟨hlo, by omega⟩, h _ hk]
      have hdrawn : ∀ e e' : UInt8,
        (cellInk scale (x + ((col p - x).toNat / (scale * 8) : Nat) * (scale * 8 : Nat)) y e p).or
          (cellInk scale (x + ((col p - x).toNat / (scale * 8) : Nat) * (scale * 8 : Nat)) y e' p) =
          cellInk scale (x + ((col p - x).toNat / (scale * 8) : Nat) * (scale * 8 : Nat)) y e p := by
        intro e e'
        simp only [cellInk, Ink.strips]
        split
        · split <;> rfl
        · rfl
      exact hdrawn _ _
    · rw [if_neg (fun h => hk h.2), Option.none_or]
      by_cases hk' : (col p - x).toNat / (scale * 8) < n'
      · rw [if_pos ⟨hlo, hk'⟩, if_pos ⟨hlo, hk'⟩, h' _ (by omega) hk']
      · rw [if_neg (fun h => hk' h.2), if_neg (fun h => hk' h.2)]
  · simp [hlo]

/-- A line behind another one. -/
theorem lineInk_append {scale : Nat} {x y : Int} {n n' : Nat} {c c' : Nat → UInt8} (d : Nat → UInt8)
    (hs : 0 < scale) (h : ∀ k, k < n → d k = c k) (h' : ∀ k, k < n' → d (n + k) = c' k) :
    (lineInk scale (x + n * (scale * 8 : Nat)) y n' c').atop (lineInk scale x y n c) = lineInk scale
    x y (n + n') d := by
  have hs8 : 0 < scale * 8 := by omega
  rw [← all_cells hs x, ← all_cells hs x, ← all_cells hs, List.range_add, Ink.all_append, Ink.all_map]
  congr 1
  · apply Ink.all_congr
    intro k hk
    rw [h' k (List.mem_range.1 hk)]
    congr 1
    push_cast
    ring
  · apply Ink.all_congr
    intro k hk
    rw [h k (List.mem_range.1 hk)]

/-- A column that fits is on the screen. -/
theorem columns_lt {k gx : Nat} (hk : k < g.columns) (hgx : gx < promptCell) :
    k * promptCell + gx < g.width.toNat := by
  have hle : (k + 1) * promptCell ≤ g.width.toNat := (Nat.le_div_iff_mul_le (by decide)).1 hk
  rw [Nat.succ_mul] at hle
  omega

/-- `fb_prompt_line` shows the prompt and the typed text, and blanks behind them. -/
theorem draw_promptLine {oy : Nat} (hy : fbOverlayY g = some oy) (prompt buf : Name) (m : Bytes) :
    fbPromptLine g prompt buf m = g.draw (promptInk g oy (prompt ++ buf)) m := by
  have hh : oy + promptCell ≤ g.height.toNat := by
    have := fbOverlayY_some hy
    omega
  have hs : 0 < promptScale := by decide
  have hloop : ∀ (n at0 : Nat) (c : Nat → UInt8) (m : Bytes),
      forBreak n (fun i => past g (at0 + i))
        (fun i m => fbOverlayCell g (((at0 : Int) + i) * promptCell) oy (c i) m) m =
      g.draw (lineInk promptScale (at0 * (promptScale * 8 : Nat)) oy (min n (g.columns - at0)) c) m := by
    intro n at0 c m
    have := @forBreak_past g n at0 oy c hh m
    push_cast at this
    exact this
  have hclear : fbOverlayClearFrom g oy m = g.draw (lineInk promptScale 0 oy g.columns fun _ => 32) m := by
    have h0 := hloop g.width.toNat 0 (fun _ => 32) m
    have hmin : min g.width.toNat g.columns = g.columns := Nat.min_eq_right (Nat.div_le_self _ _)
    simpa [fbOverlayClearFrom, hmin] using h0
  have hprompt : ∀ m : Bytes, forBreak prompt.length (past g)
      (fun k m => fbOverlayCell g (k * promptCell) oy (prompt.getD k 0) m) m =
      g.draw (lineInk promptScale 0 oy (min prompt.length g.columns) fun k => prompt.getD k 0) m := by
    intro m
    simpa using hloop prompt.length 0 (fun k => prompt.getD k 0) m
  have hbuf := fun m => hloop buf.length prompt.length (fun i => buf.getD i 0) m
  rw [fbPromptLine, hy]
  simp only [hclear, hprompt, hbuf, draw_draw]
  split
  · rename_i hany
    -- the prompt alone fills the strip
    have hfull : g.columns ≤ prompt.length := by
      obtain ⟨k, hk, hp⟩ := List.any_eq_true.1 hany
      rw [past_iff, decide_eq_true_iff] at hp
      exact Nat.le_trans hp (Nat.le_of_lt (List.mem_range.1 hk))
    rw [lineInk_atop (fun k => (prompt ++ buf).getD k 32) hs (Nat.min_le_right _ _), promptInk]
    · intro k hk
      have hlt : k < prompt.length := by omega
      simp [List.getD_eq_getElem?_getD, List.getElem?_append_left hlt, List.getElem?_eq_getElem hlt]
    · intro k hk hk'
      omega
  · rename_i hany
    have hfits : prompt.length ≤ g.columns := by
      by_contra hout
      apply hany
      rw [List.any_eq_true]
      exact ⟨g.columns, List.mem_range.2 (by omega), by simp [past_iff]⟩
    rw [Nat.min_eq_left hfits, ← Ink.atop_assoc]
    have happ : (lineInk promptScale (prompt.length * (promptScale * 8 : Nat)) oy
      (min buf.length (g.columns - prompt.length))
        fun i => buf.getD i 0).atop (lineInk promptScale 0 oy prompt.length fun k => prompt.getD k 0) =
        lineInk promptScale 0 oy (prompt.length + min buf.length (g.columns - prompt.length))
          fun k => (prompt ++ buf).getD k 32 := by
      rw [← lineInk_append (fun k => (prompt ++ buf).getD k 32) hs, zero_add]
      · intro k hk
        simp [List.getD_eq_getElem?_getD, List.getElem?_append_left hk, List.getElem?_eq_getElem hk]
      · intro k hk
        have hlt : k < buf.length := by omega
        simp [List.getD_eq_getElem?_getD, List.getElem?_append_right (Nat.le_add_right _ _),
          List.getElem?_eq_getElem hlt]
    rw [happ, lineInk_atop (fun k => (prompt ++ buf).getD k 32) hs (by omega), promptInk]
    · intro k hk
      rfl
    · intro k hk hk'
      have hge : (prompt ++ buf).length ≤ k := by
        rw [List.length_append]
        omega
      simp [List.getD_eq_getElem?_getD, List.getElem?_eq_none hge]

/-! ## Other texts -/

/-- A loop draws for the turns before its `break`. -/
theorem forBreak_prefix {stop : Nat → Bool} {n : Nat} {body : Nat → Bytes → Bytes}
    {F : Nat → Ink (Nat × Nat) UInt32} (h : ∀ i, stop i = false → ∀ m, body i m = g.draw (F i) m)
    (m : Bytes) :
    ∃ k, k ≤ n ∧ forBreak n stop body m = g.draw (Ink.all (List.range k) F) m := by
  have hpre : ((List.range n).takeWhile fun i => !stop i) <+: List.range n := List.takeWhile_prefix _
  have htake := List.prefix_iff_eq_take.1 hpre
  rw [List.take_range] at htake
  refine ⟨min ((List.range n).takeWhile fun i => !stop i).length n, Nat.min_le_right _ _, ?_⟩
  rw [forBreak, ← htake]
  apply foldl_draw
  intro i hi m
  apply h
  simpa using List.mem_takeWhile_imp hi

/-- `fb_draw_text` draws a line of characters on the rows from `y` on. -/
theorem draw_textLoop {y : Int} (hy0 : 0 ≤ y) (x : Int) (s : Name) (m : Bytes) :
    ∃ n, n ≤ s.length ∧ textLoop g x y s m = g.draw (lineInk promptScale x y n fun k => s.getD k 0) m := by
  have hloop : ∃ n, n ≤ s.length ∧ textLoop g x y s m =
      g.draw (Ink.all (List.range n) fun k => cellInk promptScale (x + k * (promptScale * 8 : Nat))
        y (s.getD k 0)) m := by
    apply forBreak_prefix
    intro i hi m
    rw [decide_eq_false_iff_not, not_or, not_or, not_lt, gt_iff_lt, not_lt, gt_iff_lt, not_lt] at hi
    obtain ⟨h1, h2, h3⟩ := hi
    simp only [promptCell, promptScale, fbOverlayCell] at h1 h2 h3 ⊢
    push_cast at h1 h2 h3 ⊢
    rcases size_lt g (by omega) with ⟨hw, hht⟩ | hw
    · exact drawGlyph_draw (by decide) _ ⟨by omega, by push_cast; omega⟩ ⟨by omega, by push_cast; omega⟩ m
    · omega
  obtain ⟨n, hn, he⟩ := hloop
  refine ⟨n, hn, ?_⟩
  rw [he, all_cells (by decide)]

/-- How many rows of the console stand above the strip. -/
def textRows (g : Geometry) : Nat := (fbOverlayY g).getD g.height.toNat / 8

/-- The console's text, eight pixels a character. -/
def consoleInk (g : Geometry) (v : Console.Vga) : Ink (Nat × Nat) UInt32 :=
  Ink.strips row 0 8 (min Console.height (textRows g)) fun r =>
    lineInk 1 0 (r * (8 : Nat)) (min Console.width (g.width.toNat / 8)) fun c => Console.vgaCharAt v r c

/-- The row at which the loop breaks. -/
theorem textRows_stop (r : Nat) : (r < textRows g → (decide (r * 8 + 8 > g.height.toNat ∨
      (fbOverlayY g).any fun oy => r * 8 + 8 > oy ∧ r * 8 < oy + promptCell)) = false) ∧
    (r = textRows g → (decide (r * 8 + 8 > g.height.toNat ∨
      (fbOverlayY g).any fun oy => r * 8 + 8 > oy ∧ r * 8 < oy + promptCell)) = true) := by
  unfold textRows
  cases hy : fbOverlayY g with
  | none =>
    simp only [Option.getD_none, Option.any_none, Bool.false_eq_true, or_false,
      decide_eq_false_iff_not, decide_eq_true_eq]
    omega
  | some oy =>
    have := fbOverlayY_some hy
    simp only [Option.getD_some, Option.any_some, decide_eq_true_eq, decide_eq_false_iff_not]
    simp only [promptCell, promptScale] at this ⊢
    omega

theorem draw_vgaBlit (v : Console.Vga) (m : Bytes) : fbVgaBlit g v m = g.draw (consoleInk g v) m := by
  have hrow : ∀ r, r < textRows g → ∀ m, forBreak Console.width (fun col => col * 8 + 8 > g.width.toNat)
      (fun col m => fbGlyph1x g (col * 8) (r * 8) (Console.vgaCharAt v r col) m) m =
      g.draw (Ink.within row (0 + r * (8 : Nat)) 8
        (lineInk 1 0 (r * (8 : Nat)) (min Console.width (g.width.toNat / 8)) fun c =>
          Console.vgaCharAt v r c)) m := by
    intro r hr m
    have hin := (textRows_stop r).1 hr
    rw [decide_eq_false_iff_not, not_or] at hin
    have hwithin : Ink.within row (0 + r * (8 : Nat)) 8
        (lineInk 1 0 (r * (8 : Nat)) (min Console.width (g.width.toNat / 8)) fun c =>
          Console.vgaCharAt v r c) =
        lineInk 1 0 (r * (8 : Nat)) (min Console.width (g.width.toNat / 8)) fun c =>
          Console.vgaCharAt v r c := by
      funext p
      by_cases hp : (r : Int) * (8 : Nat) ≤ row p ∧ row p < (r : Int) * (8 : Nat) + (8 : Nat) * (1 : Nat)
      · rw [Ink.within, if_pos (by push_cast at hp ⊢; omega)]
      · rw [lineInk_row hp, Ink.within, lineInk_row hp, ite_self]
    rw [hwithin, ← all_cells (by decide)]
    apply forBreak_draw
    · intro i hi
      rw [decide_eq_false_iff_not]
      omega
    · rw [decide_eq_true_eq]
      omega
    · intro i hi m
      rcases size_lt g (by omega) with ⟨hw, hht⟩ | hw
      · have hcell : (0 + i * (1 * 8 : Nat) : Int) = (i : Int) * 8 := by push_cast; ring
        rw [hcell, fbGlyph1x]
        push_cast
        exact drawGlyph_draw (by decide) _ ⟨by omega, by push_cast; omega⟩ ⟨by omega, by push_cast; omega⟩ m
      · omega
  rw [fbVgaBlit, consoleInk, ← Ink.all_strips (by decide)]
  apply forBreak_draw
  · intro r hr
    exact (textRows_stop r).1 hr
  · exact (textRows_stop _).2 rfl
  · exact hrow

end VampireOS.Framebuffer
