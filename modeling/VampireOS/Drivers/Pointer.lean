import VampireOS.Drivers.Draw

/-!
# The visible memory and the pointer (kernel/fb.c:352-403, 650-683, kernel/mouse.c:97-126, 208-245)

| here | there |
| --- | --- |
| `presentCopy` | the two pairs of loops of `fb_present` |
| `fbFrontGet`, `fbFrontPixel`, `fbXorPixel`, `fbPointer` | the same, on the visible memory |
| `Mouse` | the variables of mouse.c |
| `Mouse.clampPos`, `Mouse.onByte` | `clamp_pos`, and `mouse_on_byte` without what it draws |

A cross is drawn by inverting pixels, so drawing it again takes it away: `fbPointer_flip`, `flip_flip`.
-/

namespace VampireOS.Framebuffer

open Lib

/-- `n` bytes of `src` from `off` on. -/
def copyBytes (n : Nat) (src : Bytes) (dst : Bytes) (off : Nat) : Bytes := fun i =>
  if off ≤ i ∧ i < off + n then src i else dst i

def presentCopy (g : Geometry) (shadow : Bytes) : Bytes → Bytes :=
  if g.bpp = 32 ∧ g.pitch &&& 3 = 0 then
    forUp 0 g.height fun y => forUp 0 g.width fun x dst => copyBytes 4 shadow dst
      (y.toNat * g.pitch.toNat + 4 * x.toNat)
  else
    forUp 0 g.height fun y => forUp 0 g.width fun x dst =>
      copyBytes (if g.bpp = 32 then 4 else 3) shadow dst (y.toNat * g.pitch.toNat + x.toNat *
        (g.bpp / 8).toNat)

def onScreen (g : Geometry) (x y : Int) : Bool :=
  0 ≤ x ∧ 0 ≤ y ∧ x.toNat < g.width.toNat ∧ y.toNat < g.height.toNat

def fbFrontGet (g : Geometry) (x y : Int) (front : Bytes) : UInt32 :=
  if onScreen g x y = false then 0
  else
    let p := y.toNat * g.pitch.toNat + x.toNat * (g.bpp / 8).toNat
    let color := (front p).toUInt32 ||| ((front (p + 1)).toUInt32 <<< 8) ||| ((front (p + 2)).toUInt32 <<< 16)
    if g.bpp = 32 then color ||| ((front (p + 3)).toUInt32 <<< 24) else color

def fbFrontPixel (g : Geometry) (x y : Int) (color : UInt32) (front : Bytes) : Bytes :=
  fbPixel g (Int32.ofInt x) (Int32.ofInt y) color front

def fbXorPixel (g : Geometry) (x y : Int) (front : Bytes) : Bytes :=
  fbFrontPixel g x y (fbFrontGet g x y front ^^^ 0x00FFFFFF) front

def fbPointer (g : Geometry) (x y : Int) (front : Bytes) : Bytes :=
  [1, 2].foldl (fun m (d : Int) =>
    fbXorPixel g x (y - d)
      (fbXorPixel g x (y + d) (fbXorPixel g (x - d) y (fbXorPixel g (x + d) y m))))
      (fbXorPixel g x y front)

/-! ## The copy -/

variable {g : Geometry} {m : Bytes}

theorem foldl_copy {l : List Nat} {n i : Nat} {src : Bytes} (m : Bytes) :
    l.foldl (copyBytes n src) m i = if ∃ o ∈ l, o ≤ i ∧ i < o + n then src i else m i := by
  induction l generalizing m with
  | nil => simp
  | cons o l ih =>
    rw [List.foldl_cons, ih]
    by_cases hl : ∃ o ∈ l, o ≤ i ∧ i < o + n
    · have hc : ∃ a ∈ o :: l, a ≤ i ∧ i < a + n := by
        obtain ⟨a, ha, hi⟩ := hl
        exact ⟨a, List.mem_cons_of_mem _ ha, hi⟩
      rw [if_pos hl, if_pos hc]
    · rw [if_neg hl, copyBytes]
      congr 1
      apply propext
      constructor
      · intro h
        exact ⟨o, List.mem_cons_self, h⟩
      · rintro ⟨a, ha, hi⟩
        rcases List.mem_cons.1 ha with rfl | ha
        · exact hi
        · exact absurd ⟨a, ha, hi⟩ hl

theorem place_isSome {i : Nat} : (g.place i).isSome ↔
    ∃ px py, px < g.width.toNat ∧ py < g.height.toNat ∧ g.offset px py ≤ i ∧ i < g.offset px py +
    g.bytes := by
  constructor
  · intro h
    obtain ⟨⟨⟨px, py⟩, j⟩, hq⟩ := Option.isSome_iff_exists.1 h
    obtain ⟨hx, hy, hj, rfl⟩ := place_some hq
    exact ⟨px, py, hx, hy, by omega, by omega⟩
  · rintro ⟨px, py, hx, hy, hlo, hhi⟩
    obtain ⟨j, rfl⟩ : ∃ j, i = g.offset px py + j := ⟨i - g.offset px py, by omega⟩
    rw [place_offset hx hy (by omega)]
    rfl

/-- Every pixel is copied, and nothing else. -/
theorem presentCopy_eq (shadow front : Bytes) :
    presentCopy g shadow front = fun i => if (g.place i).isSome then shadow i else front i := by
  have hloops : presentCopy g shadow front = (offsets g 0 g.width 0 g.height).foldl
      (copyBytes g.bytes shadow) front := by
    unfold presentCopy offsets
    rw [List.foldl_flatMap]
    split
    · rename_i hfast
      have h4 : g.bytes = 4 := by
        unfold Geometry.bytes
        rw [hfast.1]
        rfl
      apply forUp_eq
        (f := fun py m =>
          ((List.range' (0 : UInt32).toNat (g.width.toNat - (0 : UInt32).toNat)).map fun px =>
        g.offset px py).foldl (copyBytes g.bytes shadow) m)
      intro yy m _
      rw [List.foldl_map]
      apply forUp_eq (f := fun px m => copyBytes g.bytes shadow m (g.offset px yy.toNat))
      intro xx m _
      rw [Geometry.offset, h4, Nat.mul_comm 4]
    · have hb : (if g.bpp = 32 then 4 else 3) = g.bytes ∧ (g.bpp / 8).toNat = g.bytes := by
        rcases bytes_cases g with ⟨hb, hn⟩ | ⟨hb, hn⟩
        · rw [hn, hb]
          exact ⟨rfl, rfl⟩
        · rw [hn, hb]
          exact ⟨rfl, rfl⟩
      rw [hb.1, hb.2]
      apply forUp_eq
        (f := fun py m =>
          ((List.range' (0 : UInt32).toNat (g.width.toNat - (0 : UInt32).toNat)).map fun px =>
        g.offset px py).foldl (copyBytes g.bytes shadow) m)
      intro yy m _
      rw [List.foldl_map]
      exact forUp_eq (f := fun px m => copyBytes g.bytes shadow m (g.offset px yy.toNat))
        (fun xx m _ => rfl) m
  rw [hloops]
  funext i
  rw [foldl_copy]
  congr 1
  apply propext
  rw [place_isSome]
  constructor
  · rintro ⟨o, ho, hi⟩
    obtain ⟨px, py, hx, hy, rfl⟩ := mem_offsets.1 ho
    exact ⟨px, py, hx.2, hy.2, hi⟩
  · rintro ⟨px, py, hx, hy, hi⟩
    exact ⟨_, mem_offsets.2 ⟨px, py, ⟨Nat.zero_le _, hx⟩, ⟨Nat.zero_le _, hy⟩, rfl⟩, hi⟩

/-! ## Inverting -/

/-- The pixels of `S` with their colors inverted; a fourth byte is kept. -/
def Geometry.flip (g : Geometry) (S : Nat × Nat → Bool) (m : Bytes) : Bytes := fun i =>
  m i ^^^ (if (g.place i).any fun q => S q.1 && decide (q.2 < 3) then 0xFF else 0)

/-- Inverting twice. -/
theorem flip_flip_xor (S T : Nat × Nat → Bool) : g.flip S (g.flip T m) = g.flip (fun p => S p ^^ T p) m := by
  funext i
  simp only [Geometry.flip, UInt8.xor_assoc]
  cases g.place i with
  | none => simp
  | some q => cases hs : S q.1 <;> cases ht : T q.1 <;> cases hq : decide (q.2 < 3) <;> simp [hs, ht, hq]

/-- Drawn again it is gone. -/
theorem flip_flip (S : Nat × Nat → Bool) : g.flip S (g.flip S m) = m := by
  rw [flip_flip_xor]
  funext i
  simp [Geometry.flip]

theorem colorByte_or (a b : UInt32) (j : Nat) : colorByte (a ||| b) j = colorByte a j ||| colorByte b j := by
  apply UInt8.toNat_inj.1
  simp [colorByte, Nat.shiftRight_or_distrib]

theorem colorByte_xor (a b : UInt32) (j : Nat) : colorByte (a ^^^ b) j = colorByte a j ^^^ colorByte b j := by
  apply UInt8.toNat_inj.1
  simp [colorByte, Nat.shiftRight_xor_distrib]

/-- A byte moved to its place. -/
theorem colorByte_shl (b : UInt8) {j : Nat} (hj : j < 4) :
    colorByte b.toUInt32 j = (if j = 0 then b else 0) ∧ colorByte (b.toUInt32 <<< 8) j =
    (if j = 1 then b else 0) ∧
      colorByte (b.toUInt32 <<< 16) j = (if j = 2 then b else 0) ∧ colorByte (b.toUInt32 <<< 24) j =
      (if j = 3 then b else 0) := by
  obtain ⟨n, hn, rfl⟩ : ∃ n < 256, b = UInt8.ofNat n := ⟨b.toNat, b.toNat_lt, by simp⟩
  revert n
  revert j
  decide +kernel

theorem colorByte_mask : ∀ j, j < 4 → colorByte 0x00FFFFFF j = if j < 3 then 0xFF else 0 := by decide +kernel

/-- What `fb_front_get` reads of a pixel. -/
theorem frontGet_byte {px py j : Nat} (hx : px < g.width.toNat) (hy : py < g.height.toNat)
    (hj : j < g.bytes) (front : Bytes) :
    colorByte (fbFrontGet g px py front) j = front (g.offset px py + j) := by
  have hon : onScreen g px py = true := by simp [onScreen, hx, hy]
  have hp : py * g.pitch.toNat + px * (g.bpp / 8).toNat = g.offset px py := rfl
  rw [fbFrontGet, if_neg (by simp [hon])]
  simp only [Int.toNat_natCast, hp]
  have hj4 : j < 4 := by rcases bytes_cases g with h | h <;> omega
  have hshl := fun b : UInt8 => colorByte_shl b hj4
  rcases bytes_cases g with ⟨hb, hn⟩ | ⟨hb, hn⟩
  · rw [if_neg (by rw [hb]; decide)]
    have hcases : j = 0 ∨ j = 1 ∨ j = 2 := by omega
    simp only [colorByte_or, hshl]
    rcases hcases with rfl | rfl | rfl <;> simp
  · rw [if_pos hb]
    have hcases : j = 0 ∨ j = 1 ∨ j = 2 ∨ j = 3 := by omega
    simp only [colorByte_or, hshl]
    rcases hcases with rfl | rfl | rfl | rfl <;> simp

/-- `fb_xor_pixel` inverts one pixel, if it is on the screen. -/
theorem fbXorPixel_flip {x y : Int} (hx : -2 ^ 31 ≤ x ∧ x < 2 ^ 31) (hy : -2 ^ 31 ≤ y ∧ y < 2 ^ 31)
    (front : Bytes) :
    fbXorPixel g x y front = g.flip (fun p => decide ((p.1 : Int) = x ∧ (p.2 : Int) = y)) front := by
  rw [fbXorPixel, fbFrontPixel, fbPixel_dot _ hx hy]
  funext i
  simp only [Geometry.flip]
  cases hq : g.place i with
  | none =>
    rw [draw_miss (by simp [hq])]
    simp
  | some q =>
    obtain ⟨⟨px, py⟩, j⟩ := q
    obtain ⟨hpx, hpy, hj, rfl⟩ := place_some hq
    rw [draw_pixel hpx hpy hj]
    by_cases he : (px : Int) = x ∧ (py : Int) = y
    · obtain ⟨rfl, rfl⟩ := he
      have hmask : colorByte 0x00FFFFFF j = if j < 3 then 0xFF else 0 :=
        colorByte_mask j (by rcases bytes_cases g with h | h <;> omega)
      rw [dot, if_pos ⟨rfl, rfl⟩, Option.map_some, Option.getD_some, colorByte_xor,
        frontGet_byte hpx hpy hj, hmask]
      simp
    · rw [dot, if_neg he]
      simp [he]

/-- The cross of five pixels each way. -/
def cross (x y : Int) (p : Nat × Nat) : Bool :=
  ((p.2 : Int) = y ∧ x - 2 ≤ p.1 ∧ p.1 ≤ x + 2) ∨ ((p.1 : Int) = x ∧ y - 2 ≤ p.2 ∧ p.2 ≤ y + 2)

theorem cross_bits (d e : Int) :
    (decide (d = 0 ∧ e = -2) ^^
    (decide (d = 0 ∧ e = 2) ^^ (decide (d = -2 ∧ e = 0) ^^ (decide (d = 2 ∧ e = 0) ^^
      (decide (d = 0 ∧ e = -1) ^^
      (decide (d = 0 ∧ e = 1) ^^ (decide (d = -1 ∧ e = 0) ^^ (decide (d = 1 ∧ e = 0) ^^
        decide (d = 0 ∧ e = 0))))))))) = decide ((e = 0 ∧ -2 ≤ d ∧ d ≤ 2) ∨ (d = 0 ∧ -2 ≤ e ∧ e ≤ 2)) := by
  by_cases hd : d = 0
  · subst hd
    by_cases he : -2 ≤ e ∧ e ≤ 2
    · have hcases : e = -2 ∨ e = -1 ∨ e = 0 ∨ e = 1 ∨ e = 2 := by omega
      rcases hcases with rfl | rfl | rfl | rfl | rfl <;> rfl
    · have h1 : ¬ e = -2 ∧ ¬ e = 2 ∧ ¬ e = -1 ∧ ¬ e = 1 ∧ ¬ e = 0 := by omega
      simp [h1, he]
  · by_cases he : e = 0
    · subst he
      by_cases hr : -2 ≤ d ∧ d ≤ 2
      · have hcases : d = -2 ∨ d = -1 ∨ d = 1 ∨ d = 2 := by omega
        rcases hcases with rfl | rfl | rfl | rfl <;> rfl
      · have h1 : ¬ d = -2 ∧ ¬ d = 2 ∧ ¬ d = -1 ∧ ¬ d = 1 := by omega
        simp [h1, hd, hr]
    · simp [hd, he]

/-- `fb_pointer` inverts the cross: no pixel of it is drawn twice. -/
theorem fbPointer_flip {x y : Int} (hx : -2 ^ 31 + 2 ≤ x ∧ x + 2 < 2 ^ 31)
    (hy : -2 ^ 31 + 2 ≤ y ∧ y + 2 < 2 ^ 31) (front : Bytes) :
    fbPointer g x y front = g.flip (cross x y) front := by
  simp only [fbPointer, List.foldl_cons, List.foldl_nil]
  repeat rw [fbXorPixel_flip (by omega) (by omega)]
  simp only [flip_flip_xor]
  congr 1
  funext p
  obtain ⟨px, py⟩ := p
  simp only [cross]
  generalize (px : Int) = a
  generalize (py : Int) = b
  obtain ⟨d, rfl⟩ : ∃ d, a = x + d := ⟨a - x, by omega⟩
  obtain ⟨e, rfl⟩ : ∃ e, b = y + e := ⟨b - y, by omega⟩
  simp only [sub_eq_add_neg, add_right_inj, add_eq_left, add_le_add_iff_left]
  exact cross_bits d e

/-! ## The mouse -/

structure Mouse where
  mx : Int
  my : Int
  maxX : Int
  maxY : Int
  ptrX : Int
  ptrY : Int
  ptrOn : Bool
  leftDown : Bool
  pkt : Nat → UInt8
  pktI : Nat

namespace Mouse

/-- One coordinate in `clamp_pos`. -/
def clampOne (z max : Int) : Int :=
  let z := if z < 0 then 0 else z
  if max > 0 ∧ z ≥ max then max - 1 else z

def clampPos (s : Mouse) : Mouse := { s with mx := clampOne s.mx s.maxX, my := clampOne s.my s.maxY }

/-- A byte that completes a packet says where the pointer goes, and whether the left button went
down: `some click`. -/
def onByte (s : Mouse) (data : UInt8) : Mouse × Option Bool :=
  if s.pktI = 0 ∧ data &&& 0x08 = 0 then (s, none)
  else
    let s := { s with pkt := Function.update s.pkt s.pktI data, pktI := s.pktI + 1 }
    if s.pktI < 3 then (s, none)
    else
      let s := { s with pktI := 0 }
      if s.pkt 0 &&& 0xC0 ≠ 0 then (s, none)
      else
        let s := clampPos { s with mx := s.mx + (s.pkt 1).toInt8.toInt, my := s.my - (s.pkt 2).toInt8.toInt }
        let left := decide (s.pkt 0 &&& 0x01 ≠ 0)
        ({ s with leftDown := left }, some (left && !s.leftDown))

/-! ### Packets -/

/-- Where the mouse is, and its left button. -/
structure Spot where
  x : Int
  y : Int
  left : Bool

def spot (s : Mouse) : Spot := ⟨s.mx, s.my, s.leftDown⟩

/-- The packets in a stream of bytes: a byte that cannot be the first one is skipped. -/
def packets : List UInt8 → List (UInt8 × UInt8 × UInt8)
  | b :: x :: y :: rest => if b &&& 0x08 = 0 then packets (x :: y :: rest) else (b, x, y) :: packets rest
  | _ => []

/-- What a packet does, and the click that it is: an overflow is dropped. -/
def Spot.move (maxX maxY : Int) (t : Spot) (p : UInt8 × UInt8 × UInt8) : Spot × List (Int × Int) :=
  if p.1 &&& 0xC0 ≠ 0 then (t, [])
  else
    let x := clampOne (t.x + p.2.1.toInt8.toInt) maxX
    let y := clampOne (t.y - p.2.2.toInt8.toInt) maxY
    let left := decide (p.1 &&& 0x01 ≠ 0)
    (⟨x, y, left⟩, if left && !t.left then [(x, y)] else [])

/-- Packets one after the other, with the clicks. -/
def Spot.follow (maxX maxY : Int) (t : Spot) : List (UInt8 × UInt8 × UInt8) → Spot × List (Int × Int)
  | [] => (t, [])
  | p :: ps => ((follow maxX maxY (t.move maxX maxY p).1 ps).1, (t.move maxX maxY p).2 ++
      (follow maxX maxY (t.move maxX maxY p).1 ps).2)

/-- Bytes one after the other, with the places where `mouse_on_byte` saw a click. -/
def feed (s : Mouse) : List UInt8 → Mouse × List (Int × Int)
  | [] => (s, [])
  | b :: bs =>
    ((feed (s.onByte b).1 bs).1,
      (if (s.onByte b).2 = some true then [((s.onByte b).1.mx, (s.onByte b).1.my)] else []) ++
        (feed (s.onByte b).1 bs).2)

theorem onByte_skip {s : Mouse} {b : UInt8} (h : s.pktI = 0) (hb : b &&& 0x08 = 0) :
    s.onByte b = (s, none) := by
  rw [onByte, if_pos ⟨h, hb⟩]

/-- A byte that does not complete a packet. -/
theorem onByte_store {s : Mouse} {b : UInt8} (h : s.pktI = 0 → b &&& 0x08 ≠ 0) (hi : s.pktI < 2) :
    s.onByte b = ({ s with pkt := Function.update s.pkt s.pktI b, pktI := s.pktI + 1 }, none) := by
  rw [onByte, if_neg (fun hh => h hh.1 hh.2)]
  simp only
  rw [if_pos (by omega)]

/-- Before the third byte of a packet the mouse stays where it is. -/
theorem onByte_quiet {s : Mouse} (b : UInt8) (hi : s.pktI < 2) :
    (s.onByte b).1.spot = s.spot ∧ (s.onByte b).2 = none ∧ (s.onByte b).1.pktI ≤ s.pktI + 1 := by
  by_cases h : s.pktI = 0 ∧ b &&& 0x08 = 0
  · rw [onByte_skip h.1 h.2]
    exact ⟨rfl, rfl, Nat.le_succ _⟩
  · rw [onByte_store (fun h0 hb => h ⟨h0, hb⟩) hi]
    exact ⟨rfl, rfl, Nat.le_refl _⟩

/-- The byte that completes one. -/
theorem onByte_third {s : Mouse} {y : UInt8} (hi : s.pktI = 2) :
    (s.onByte y).1.spot = (s.spot.move s.maxX s.maxY (s.pkt 0, s.pkt 1, y)).1 ∧ (s.onByte y).1.pktI = 0 ∧
      (s.onByte y).1.maxX = s.maxX ∧ (s.onByte y).1.maxY = s.maxY ∧
      (if (s.onByte y).2 = some true then [((s.onByte y).1.mx, (s.onByte y).1.my)] else []) =
        (s.spot.move s.maxX s.maxY (s.pkt 0, s.pkt 1, y)).2 := by
  have h0 : Function.update s.pkt 2 y 0 = s.pkt 0 := Function.update_of_ne (by decide) _ _
  have h1 : Function.update s.pkt 2 y 1 = s.pkt 1 := Function.update_of_ne (by decide) _ _
  have h2 : Function.update s.pkt 2 y 2 = y := Function.update_self _ _ _
  unfold onByte Spot.move
  rw [if_neg (by omega)]
  simp only [hi, h0, h1, h2]
  rw [if_neg (by decide)]
  by_cases hov : s.pkt 0 &&& 0xC0 ≠ 0
  · rw [if_pos hov, if_pos hov]
    exact ⟨rfl, rfl, rfl, rfl, rfl⟩
  · rw [if_neg hov, if_neg hov]
    refine ⟨rfl, rfl, rfl, rfl, ?_⟩
    simp [spot, clampPos]

/-- **The stream.** The bytes of the mouse, taken one interrupt at a time, move it and click as the
packets in them do. -/
theorem feed_packets (bs : List UInt8) {s : Mouse} (h : s.pktI = 0) :
    (s.feed bs).1.spot = (s.spot.follow s.maxX s.maxY (packets bs)).1 ∧
      (s.feed bs).2 = (s.spot.follow s.maxX s.maxY (packets bs)).2 := by
  induction bs using packets.induct generalizing s with
  | case1 b x y rest hb ih =>
    -- no packet begins here
    have hskip : s.feed (b :: x :: y :: rest) = s.feed (x :: y :: rest) := by
      rw [feed, onByte_skip h hb]
      simp
    rw [packets, if_pos hb, hskip]
    exact ih h
  | case2 b x y rest hb ih =>
    rw [packets, if_neg hb]
    have h1 := onByte_store (s := s) (b := b) (fun _ => hb) (by omega)
    have h2 := onByte_store (s := (s.onByte b).1) (b := x) (fun h0 => by rw [h1] at h0; simp at h0)
      (by rw [h1]; simp [h])
    have hi : ((s.onByte b).1.onByte x).1.pktI = 2 := by rw [h2, h1]; simp [h]
    obtain ⟨hspot, hzero, hmx, hmy, hclick⟩ := onByte_third (y := y) hi
    have hmove : ((s.onByte b).1.onByte x).1.spot = s.spot ∧ ((s.onByte b).1.onByte x).1.maxX = s.maxX ∧
        ((s.onByte b).1.onByte x).1.maxY = s.maxY ∧ ((s.onByte b).1.onByte x).1.pkt 0 = b ∧
        ((s.onByte b).1.onByte x).1.pkt 1 = x := by
      rw [h2, h1]
      simp [spot, h]
    obtain ⟨e1, e2, e3, e4, e5⟩ := hmove
    rw [e1, e2, e3, e4, e5] at hspot hclick
    obtain ⟨ih1, ih2⟩ := ih hzero
    rw [hspot, hmx, hmy, e2, e3] at ih1 ih2
    have hquiet : (s.onByte b).2 = none ∧ ((s.onByte b).1.onByte x).2 = none := by
      rw [h2, h1]
      exact ⟨rfl, rfl⟩
    rw [feed, feed, feed, Spot.follow]
    simp only [hquiet.1, hquiet.2, ih1, ih2, hclick]
    simp
  | case3 bs hbs =>
    -- fewer than three bytes are no packet
    match bs, hbs with
    | [], _ => exact ⟨rfl, rfl⟩
    | [b], _ =>
      obtain ⟨hs, hc, -⟩ := onByte_quiet b (show s.pktI < 2 by omega)
      simp [feed, packets, Spot.follow, hs, hc]
    | [b, x], _ =>
      obtain ⟨hs, hc, hi⟩ := onByte_quiet b (show s.pktI < 2 by omega)
      obtain ⟨hs', hc', -⟩ := onByte_quiet x (show (s.onByte b).1.pktI < 2 by omega)
      simp [feed, packets, Spot.follow, hs, hc, hs', hc']
    | b :: x :: y :: rest, h3 => exact absurd rfl (h3 b x y rest)

/-- The mouse without the cross it has drawn. -/
def bare (s : Mouse) : Mouse := { s with ptrX := 0, ptrY := 0, ptrOn := false }

theorem bare_spot (s : Mouse) : s.bare.spot = s.spot := rfl

theorem onByte_bare (s : Mouse) (b : UInt8) : (s.onByte b).1.bare = (s.bare.onByte b).1 := by
  unfold onByte
  have hpkt : s.bare.pkt = s.pkt ∧ s.bare.pktI = s.pktI := ⟨rfl, rfl⟩
  simp only [hpkt]
  split_ifs <;> rfl

/-- A byte that moves nothing. -/
theorem onByte_rest {s : Mouse} {b : UInt8} (h : (s.onByte b).2 = none) :
    (s.onByte b).1.mx = s.mx ∧ (s.onByte b).1.my = s.my ∧ (s.onByte b).1.ptrX = s.ptrX ∧
    (s.onByte b).1.ptrY = s.ptrY ∧
      (s.onByte b).1.ptrOn = s.ptrOn := by
  revert h
  unfold onByte
  simp only
  split_ifs
  · exact fun _ => ⟨rfl, rfl, rfl, rfl, rfl⟩
  · exact fun _ => ⟨rfl, rfl, rfl, rfl, rfl⟩
  · exact fun _ => ⟨rfl, rfl, rfl, rfl, rfl⟩
  · intro h
    cases h

end Mouse

end VampireOS.Framebuffer
