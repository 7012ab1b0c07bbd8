import Mathlib.Data.List.Basic
import Mathlib.Logic.Function.Basic
import VampireOS.User.Printf

/-!
# The text console (kernel/vga.c, kernel/serial.c:19-72)

| here | there |
| --- | --- |
| `Vga` | `cells` (the memory at `VGA_PHYS`), `cursor_row`, `cursor_col`, what the serial line got |
| `serialPutc` | `serial_putc` |
| `vgaPoke`, `vgaClear`, `vgaSetCursor`, `vgaScroll`, `vgaPutc` | the same |
| `vgaCharAt`, `vgaWriteAt`, `vgaWriteHex64At`, `vgaWriteDecAt` | the same |
| `Sheet` | an endless sheet of paper behind a window of 25 rows |

The serial line is there (`serial_ok`). `sheet_run`: whatever is written, the window shows the sheet
where the cursor is.
-/

namespace VampireOS.Console

/-- `VGA_WIDTH`, `VGA_HEIGHT`. -/
def width : Nat := 80
def height : Nat := 25

def space : UInt8 := 32
def newline : UInt8 := 10
def tab : UInt8 := 9
def backspace : UInt8 := 8

/-- A character with `VGA_ATTR_WHITE`. -/
def white (c : UInt8) : UInt16 := c.toUInt16 ||| ((0x0F : UInt16) <<< 8)

structure Vga where
  cells : Nat → UInt16
  buf : Nat → UInt16
  cursorRow : Nat
  cursorCol : Nat
  sent : List UInt8

/-- What a character becomes on the line. -/
def serialPutc (c : UInt8) : List UInt8 :=
  if c = newline then [13, 10] else if c = backspace then [8, 32, 8] else [c]

def vgaPoke (v : Vga) (pos : Nat) (c : UInt8) : Vga :=
  { v with cells := Function.update v.cells pos (white c), buf := Function.update v.buf pos (white c) }

def vgaClear (v : Vga) : Vga :=
  { (List.range (width * height)).foldl (fun v i => vgaPoke v i space) v with cursorRow := 3, cursorCol := 0 }

def vgaSetCursor (v : Vga) (row col : Nat) : Vga := { v with cursorRow := row, cursorCol := col }

/-- Both loops go upwards, so a cell is read before it is overwritten. -/
def vgaScroll (v : Vga) : Vga :=
  let v := (List.range (width * (height - 1))).foldl (fun v i => vgaPoke v i (v.cells (i + width)).toUInt8) v
  let v := (List.range' (width * (height - 1)) width).foldl (fun v i => vgaPoke v i space) v
  { v with cursorRow := height - 1 }

/-- To the start of the next row at the right edge. -/
def wrap (v : Vga) : Vga :=
  if v.cursorCol ≥ width then { v with cursorCol := 0, cursorRow := v.cursorRow + 1 } else v

/-- The four branches of `vga_putc`. -/
def advance (v : Vga) (c : UInt8) : Vga :=
  if c = newline then { v with cursorCol := 0, cursorRow := v.cursorRow + 1 }
  else if c = tab then wrap { v with cursorCol := (v.cursorCol + 4) / 4 * 4 }
  else if c = backspace then
    if v.cursorCol > 0 then
      vgaPoke { v with cursorCol := v.cursorCol - 1 } (v.cursorRow * width + (v.cursorCol - 1)) space
    else v
  else
    let v := vgaPoke v (v.cursorRow * width + v.cursorCol) c
    wrap { v with cursorCol := v.cursorCol + 1 }

def vgaPutc (v : Vga) (c : UInt8) : Vga :=
  let v := advance v c
  let v := if v.cursorRow ≥ height then vgaScroll v else v
  { v with sent := v.sent ++ serialPutc c }

def vgaCharAt (v : Vga) (row col : Nat) : UInt8 :=
  if row ≥ height ∨ col ≥ width then space else (v.cells (row * width + col)).toUInt8

/-- The loop of `vga_write_at`: to the end of the text or of the row. -/
def pokeAll (v : Vga) (pos col : Nat) : List UInt8 → Vga
  | [] => v
  | c :: cs => if col < width then pokeAll (vgaPoke v pos c) (pos + 1) (col + 1) cs else v

def vgaWriteAt (v : Vga) (row col : Nat) (msg : List UInt8) : Vga :=
  if row ≥ height ∨ col ≥ width then v else pokeAll v (row * width + col) col msg

def hexDigit (n : UInt64) : UInt8 := if n < 10 then 48 + n.toUInt8 else 97 + (n - 10).toUInt8

/-- The sixteen digits, the highest first. -/
def hexDigits (value : UInt64) : List UInt8 :=
  (List.range 16).map fun k => hexDigit (value >>> UInt64.ofNat (4 * (15 - k)) &&& 0xF)

def vgaWriteHex64At (v : Vga) (row col : Nat) (value : UInt64) : Vga :=
  if row ≥ height ∨ col ≥ width then v else pokeAll v (row * width + col) col (hexDigits value)

/-- The digits, the lowest first. -/
def decDigits : (left : Nat) → UInt32 → List UInt8
  | 0, _ => []
  | left + 1, v => if v = 0 then [] else (48 + (v % 10).toUInt8) :: decDigits left (v / 10)

def vgaWriteDecAt (v : Vga) (row col : Nat) (value : UInt32) : Vga :=
  let buf := if value = 0 then [48] else decDigits 10 value
  if row ≥ height ∨ col ≥ width then v else pokeAll v (row * width + col) col buf.reverse

/-! ## The sheet -/

/-- Rows have no end below; the window is the 25 rows from `top` on. `said` is all that was put. -/
structure Sheet where
  text : Nat → Nat → UInt8
  top : Nat
  row : Nat
  col : Nat
  said : List UInt8

namespace Sheet

def write (s : Sheet) (row col : Nat) (c : UInt8) : Sheet :=
  { s with text := fun r k => if r = row ∧ k = col then c else s.text r k }

/-- The window follows the cursor down. -/
def move (s : Sheet) (row col : Nat) : Sheet :=
  { s with row := row, col := col, top := max s.top (row + 1 - height) }

def next (s : Sheet) : Sheet := s.move (s.row + 1) 0

def right (s : Sheet) (col : Nat) : Sheet := if col ≥ width then s.next else s.move s.row col

def put (s : Sheet) (c : UInt8) : Sheet :=
  if c = newline then s.next
  else if c = tab then s.right ((s.col + 4) / 4 * 4)
  else if c = backspace then if s.col > 0 then (s.move s.row (s.col - 1)).write s.row (s.col - 1) space else s
  else (s.write s.row s.col c).right (s.col + 1)

def putc (s : Sheet) (c : UInt8) : Sheet := { s.put c with said := s.said ++ [c] }

/-- A text on a row of the window, as far as the row goes. -/
def writeAt (s : Sheet) (row col : Nat) (msg : List UInt8) : Sheet :=
  if row ≥ height then s
  else { s with text := fun r k => if r = s.top + row ∧ col ≤ k ∧ k < width
    then (msg[k - col]?).getD (s.text r k) else s.text r k }

def clear (s : Sheet) : Sheet :=
  { s with text := fun r k => if s.top ≤ r then space else s.text r k, row := s.top + 3, col := 0 }

def setCursor (s : Sheet) (row col : Nat) : Sheet := { s with row := s.top + row, col := col }

/-- Before anything is written. -/
def fresh : Sheet := ⟨fun _ _ => space, 0, 3, 0, []⟩

end Sheet

/-- The console shows the window of the sheet. -/
structure Shows (v : Vga) (s : Sheet) : Prop where
  cell : ∀ r, r < height → ∀ k, k < width → v.cells (r * width + k) = white (s.text (s.top + r) k)
  buf : ∀ i, i < width * height → v.buf i = v.cells i
  row : s.top + v.cursorRow = s.row
  col : v.cursorCol = s.col
  inRow : v.cursorRow < height
  inCol : v.cursorCol < width
  below : ∀ r, s.top + height ≤ r → ∀ k, s.text r k = space
  sent : v.sent = s.said.flatMap serialPutc

/-! ## Cells -/

variable {v : Vga} {s : Sheet} {row col : Nat} {c : UInt8}

theorem width_pos : 0 < width := by decide

theorem three_lt : 3 < height := by decide

theorem low_white (c : UInt8) : (white c).toUInt8 = c := by
  obtain ⟨n, hn, rfl⟩ : ∃ n < 256, c = UInt8.ofNat n := ⟨c.toNat, c.toNat_lt, by simp⟩
  revert n
  decide +kernel

theorem pos_lt (hr : row < height) (hc : col < width) : row * width + col < width * height := by
  simp only [width, height] at *
  omega

theorem pos_inj {r k : Nat} (hc : col < width) (hk : k < width) :
    r * width + k = row * width + col ↔ r = row ∧ k = col := by
  simp only [width] at *
  omega

@[simp] theorem vgaPoke_cells (v : Vga) (pos : Nat) (c : UInt8) :
    (vgaPoke v pos c).cells = Function.update v.cells pos (white c) := rfl
@[simp] theorem vgaPoke_buf (v : Vga) (pos : Nat) (c : UInt8) :
    (vgaPoke v pos c).buf = Function.update v.buf pos (white c) := rfl
@[simp] theorem vgaPoke_row (v : Vga) (pos : Nat) (c : UInt8) :
    (vgaPoke v pos c).cursorRow = v.cursorRow := rfl
@[simp] theorem vgaPoke_col (v : Vga) (pos : Nat) (c : UInt8) :
    (vgaPoke v pos c).cursorCol = v.cursorCol := rfl
@[simp] theorem vgaPoke_sent (v : Vga) (pos : Nat) (c : UInt8) : (vgaPoke v pos c).sent = v.sent := rfl

/-- `vga_char_at` reads the sheet. -/
theorem Shows.charAt (h : Shows v s) (row col : Nat) :
    vgaCharAt v row col = if row < height ∧ col < width then s.text (s.top + row) col else space := by
  unfold vgaCharAt
  by_cases hin : row < height ∧ col < width
  · rw [if_neg (by omega), if_pos hin, h.cell row hin.1 col hin.2, low_white]
  · rw [if_pos (by omega), if_neg hin]

/-- A character in the window. -/
theorem Shows.poke (h : Shows v s) (hr : row < height) (hc : col < width) (c : UInt8) :
    Shows (vgaPoke v (row * width + col) c) (s.write (s.top + row) col c) where
  cell r hr' k hk := by
    simp only [vgaPoke_cells, Function.update_apply, Sheet.write, pos_inj hc hk, Nat.add_left_cancel_iff]
    split
    · rfl
    · exact h.cell r hr' k hk
  buf i hi := by
    simp only [vgaPoke_cells, vgaPoke_buf, Function.update_apply, h.buf i hi]
  row := h.row
  col := h.col
  inRow := h.inRow
  inCol := h.inCol
  below r hr' k := by
    have hne : ¬ (r = s.top + row ∧ k = col) := by
      simp only [Sheet.write] at hr'
      omega
    simp only [Sheet.write, if_neg hne]
    exact h.below r hr' k
  sent := h.sent

/-- The cursor within its row. -/
theorem Shows.along (h : Shows v s) (hc : col < width) :
    Shows { v with cursorCol := col } (s.move s.row col) := by
  have htop : max s.top (s.row + 1 - height) = s.top := by
    have := h.row
    have := h.inRow
    omega
  refine ⟨?_, h.buf, ?_, rfl, h.inRow, hc, ?_, h.sent⟩
  · simp only [Sheet.move, htop]
    exact h.cell
  · simp only [Sheet.move, htop]
    exact h.row
  · simp only [Sheet.move, htop]
    exact h.below

/-! ## Scrolling -/

/-- A loop of pokes from the bottom up. -/
theorem poke_loop (f : Vga → Nat → UInt8) (a n : Nat)
    (hf : ∀ i v v', a ≤ i → (∀ j, i ≤ j → v'.cells j = v.cells j) → f v' i = f v i) (v : Vga) :
    ∃ w, (List.range' a n).foldl (fun v i => vgaPoke v i (f v i)) v = w ∧
      (∀ j, w.cells j = if a ≤ j ∧ j < a + n then white (f v j) else v.cells j) ∧
      (∀ j, w.buf j = if a ≤ j ∧ j < a + n then white (f v j) else v.buf j) ∧
      w.cursorRow = v.cursorRow ∧ w.cursorCol = v.cursorCol ∧ w.sent = v.sent := by
  induction n with
  | zero => exact ⟨v, rfl, by simp, by simp, rfl, rfl, rfl⟩
  | succ n ih =>
    obtain ⟨w, hw, hcells, hbuf, hrow, hcol, hsent⟩ := ih
    have hlast : f w (a + n) = f v (a + n) := by
      apply hf _ _ _ (Nat.le_add_right a n)
      intro j hj
      rw [hcells, if_neg (by omega)]
    refine ⟨vgaPoke w (a + n) (f w (a + n)), ?_, fun j => ?_, fun j => ?_, hrow, hcol, hsent⟩
    · rw [List.range'_concat, List.foldl_append, hw]
      simp
    · simp only [vgaPoke_cells, Function.update_apply, hlast, hcells]
      by_cases hj : j = a + n
      · simp [hj]
      · rw [if_neg hj]
        congr 1
        exact propext ⟨fun h => by omega, fun h => by omega⟩
    · simp only [vgaPoke_buf, Function.update_apply, hlast, hbuf]
      by_cases hj : j = a + n
      · simp [hj]
      · rw [if_neg hj]
        congr 1
        exact propext ⟨fun h => by omega, fun h => by omega⟩

theorem above_last (hr : row + 1 < height) (hc : col < width) : row * width + col < width * (height - 1) := by
  simp only [width, height] at *
  omega

theorem last_row (hr : row < height) (hl : ¬ row + 1 < height) (hc : col < width) :
    width * (height - 1) ≤ row * width + col ∧ row * width + col < width * (height - 1) + width := by
  simp only [width, height] at *
  omega

/-- Rows move up by one, the last one is cleared. -/
theorem vgaScroll_spec (v : Vga) : ∃ w, vgaScroll v = w ∧
    (∀ r, r < height → ∀ k, k < width → w.cells (r * width + k) =
      if r + 1 < height then white (v.cells ((r + 1) * width + k)).toUInt8 else white space) ∧
    (∀ i, i < width * height → w.buf i = w.cells i) ∧
    w.cursorRow = height - 1 ∧ w.cursorCol = v.cursorCol ∧ w.sent = v.sent := by
  obtain ⟨a, ha, acells, abuf, -, acol, asent⟩ :=
    poke_loop (fun v i => (v.cells (i + width)).toUInt8) 0 (width * (height - 1))
    (fun i v v' _ h => by rw [h _ (Nat.le_add_right i width)]) v
  obtain ⟨b, hb, bcells, bbuf, -, bcol, bsent⟩ := poke_loop (fun _ _ => space) (width * (height - 1)) width
    (fun _ _ _ _ _ => rfl) a
  have hscroll : vgaScroll v = { b with cursorRow := height - 1 } := by
    rw [← hb, ← ha, vgaScroll, List.range_eq_range']
  refine ⟨_, hscroll, fun r hr k hk => ?_, fun i hi => ?_, rfl, bcol.trans acol, bsent.trans asent⟩
  · simp only [bcells, acells]
    by_cases hl : r + 1 < height
    · have hlt := above_last hl hk
      rw [if_neg (by omega), if_pos (by omega), if_pos hl, Nat.add_mul, Nat.one_mul, Nat.add_right_comm]
    · rw [if_pos (last_row hr hl hk), if_neg hl]
  · simp only [bbuf, bcells, abuf, acells]
    by_cases hl : width * (height - 1) ≤ i ∧ i < width * (height - 1) + width
    · rw [if_pos hl, if_pos hl]
    · have hlt : i < width * (height - 1) := by
        simp only [width, height] at *
        omega
      rw [if_neg hl, if_neg hl, if_pos (by omega), if_pos (by omega)]

/-- The end of `vga_putc`. -/
def settle (v : Vga) : Vga := if v.cursorRow ≥ height then vgaScroll v else v

theorem settle_of_lt (h : v.cursorRow < height) : settle v = v := by
  rw [settle, if_neg (by omega)]

/-- To the next row: at the bottom the window moves. -/
theorem Shows.next (h : Shows v s) :
    Shows (settle { v with cursorCol := 0, cursorRow := v.cursorRow + 1 }) s.next := by
  have hrow := h.row
  have hin := h.inRow
  by_cases hl : v.cursorRow + 1 < height
  · have htop : max s.top (s.row + 1 + 1 - height) = s.top := by omega
    rw [settle_of_lt hl]
    refine ⟨?_, h.buf, ?_, rfl, hl, width_pos, ?_, h.sent⟩
    · simp only [Sheet.next, Sheet.move, htop]
      exact h.cell
    · simp only [Sheet.next, Sheet.move, htop]
      omega
    · simp only [Sheet.next, Sheet.move, htop]
      exact h.below
  · have htop : max s.top (s.row + 1 + 1 - height) = s.top + 1 := by omega
    obtain ⟨w, hw, hcells, hbuf, wrow, wcol, wsent⟩ :=
      vgaScroll_spec { v with cursorCol := 0, cursorRow := v.cursorRow + 1 }
    rw [settle, if_pos (by simpa using hl), hw]
    refine ⟨fun r hr k hk => ?_, hbuf, ?_, wcol, ?_, ?_, fun r hr k => ?_, ?_⟩
    · rw [hcells r hr k hk]
      simp only [Sheet.next, Sheet.move, htop]
      by_cases hlast : r + 1 < height
      · rw [if_pos hlast, h.cell _ hlast k hk, low_white, Nat.add_right_comm, Nat.add_assoc]
      · rw [if_neg hlast, h.below _ (by omega)]
    · simp only [Sheet.next, Sheet.move, htop, wrow, height] at *
      omega
    · rw [wrow]
      decide
    · rw [wcol]
      exact width_pos
    · simp only [Sheet.next, Sheet.move, htop] at hr ⊢
      exact h.below r (by omega) k
    · rw [wsent]
      exact h.sent

/-- To the right: at the edge to the next row. -/
theorem Shows.right (h : Shows v s) (col : Nat) :
    Shows (settle (wrap { v with cursorCol := col })) (s.right col) := by
  by_cases hc : col ≥ width
  · have hw : wrap { v with cursorCol := col } = { v with cursorCol := 0, cursorRow := v.cursorRow + 1 } := by
      simp [wrap, hc]
    rw [hw, Sheet.right, if_pos hc]
    exact h.next
  · have hw : wrap { v with cursorCol := col } = { v with cursorCol := col } := by simp [wrap, hc]
    have hal := h.along (Nat.lt_of_not_le hc)
    rw [hw, Sheet.right, if_neg hc, settle_of_lt hal.inRow]
    exact hal

/-- One character. -/
theorem Shows.put (h : Shows v s) (c : UInt8) : Shows (settle (advance v c)) (s.put c) := by
  unfold advance Sheet.put
  by_cases hn : c = newline
  · rw [if_pos hn, if_pos hn]
    exact h.next
  rw [if_neg hn, if_neg hn]
  by_cases ht : c = tab
  · rw [if_pos ht, if_pos ht, ← h.col]
    exact h.right _
  rw [if_neg ht, if_neg ht]
  by_cases hb : c = backspace
  · rw [if_pos hb, if_pos hb, ← h.col]
    by_cases hc : v.cursorCol > 0
    · have hlt : v.cursorCol - 1 < width := by
        have := h.inCol
        omega
      have hpoke := (h.along hlt).poke h.inRow hlt space
      have htop : (s.move s.row (v.cursorCol - 1)).top + v.cursorRow = s.row := (h.along hlt).row
      rw [htop] at hpoke
      rw [if_pos hc, if_pos hc, settle_of_lt hpoke.inRow]
      exact hpoke
    · rw [if_neg hc, if_neg hc, settle_of_lt h.inRow]
      exact h
  · rw [if_neg hb, if_neg hb, ← h.col]
    have hpoke := h.poke h.inRow h.inCol c
    rw [h.row] at hpoke
    exact hpoke.right (v.cursorCol + 1)

theorem Shows.putc (h : Shows v s) (c : UInt8) : Shows (vgaPutc v c) (s.putc c) := by
  have hput := h.put c
  have hsent : (settle (advance v c)).sent = s.said.flatMap serialPutc := by
    rw [hput.sent]
    unfold Sheet.put Sheet.right Sheet.next Sheet.move Sheet.write
    split_ifs <;> rfl
  refine ⟨hput.cell, hput.buf, hput.row, hput.col, hput.inRow, hput.inCol, hput.below, ?_⟩
  simp only [Sheet.putc, List.flatMap_append, List.flatMap_singleton, ← hsent]
  rfl

/-! ## Texts at fixed places -/

theorem Sheet.writeAt_nil (s : Sheet) (row col : Nat) : s.writeAt row col [] = s := by
  simp [writeAt]

/-- Nothing goes past the edge. -/
theorem Sheet.writeAt_edge (s : Sheet) (row : Nat) (msg : List UInt8) (hc : width ≤ col) :
    s.writeAt row col msg = s := by
  have hnone : ∀ k, ¬ (col ≤ k ∧ k < width) := fun k => by omega
  simp [writeAt, hnone]

theorem Sheet.writeAt_cons (s : Sheet) (c : UInt8) (cs : List UInt8) (hr : row < height) (hc : col < width) :
    s.writeAt row col (c :: cs) = (s.write (s.top + row) col c).writeAt row (col + 1) cs := by
  have htext : ∀ r k, (s.writeAt row col (c :: cs)).text r k =
      ((s.write (s.top + row) col c).writeAt row (col + 1) cs).text r k := by
    intro r k
    simp only [writeAt, if_neg (Nat.not_le.2 hr), write]
    by_cases hrow : r = s.top + row
    · rcases Nat.lt_trichotomy k col with hk | rfl | hk
      · simp [hrow, Nat.not_le.2 hk, Nat.ne_of_lt hk, Nat.not_le.2 (Nat.lt_succ_of_lt hk)]
      · simp [hrow, hc]
      · obtain ⟨n, rfl⟩ : ∃ n, k = col + 1 + n := ⟨k - (col + 1), by omega⟩
        have hsub : col + 1 + n - col = n + 1 := by omega
        have hle : col ≤ col + 1 + n := by omega
        have hne : ¬ col + 1 + n = col := by omega
        simp [hrow, hsub, hle, hne]
    · simp [hrow]
  have hrest : ∀ (t u : Sheet), t.text = u.text → t.top = u.top → t.row = u.row → t.col = u.col →
      t.said = u.said → t = u := by
    rintro ⟨⟩ ⟨⟩ rfl rfl rfl rfl rfl
    rfl
  apply hrest
  · funext r k
    exact htext r k
  all_goals simp [writeAt, Nat.not_le.2 hr, write]

theorem Shows.pokeAll (h : Shows v s) (hr : row < height) (msg : List UInt8) :
    Shows (pokeAll v (row * width + col) col msg) (s.writeAt row col msg) := by
  induction msg generalizing v s col with
  | nil =>
    rw [Sheet.writeAt_nil]
    exact h
  | cons c cs ih =>
    unfold Console.pokeAll
    split
    · rename_i hlt
      rw [Sheet.writeAt_cons s c cs hr hlt]
      exact @ih _ _ (col + 1) (h.poke hr hlt c)
    · rename_i hge
      rw [Sheet.writeAt_edge s row _ (Nat.le_of_not_lt hge)]
      exact h

/-- `vga_write_at`, and the two that write a number. -/
theorem Shows.guarded (h : Shows v s) (row col : Nat) (msg : List UInt8) :
    Shows (if row ≥ height ∨ col ≥ width then v else Console.pokeAll v (row * width + col) col msg)
      (s.writeAt row col msg) := by
  by_cases hr : row ≥ height
  · rw [if_pos (Or.inl hr), Sheet.writeAt, if_pos hr]
    exact h
  by_cases hc : col ≥ width
  · rw [if_pos (Or.inr hc), Sheet.writeAt_edge s row msg hc]
    exact h
  · rw [if_neg (not_or.2 ⟨hr, hc⟩)]
    exact h.pokeAll (Nat.lt_of_not_le hr) msg

/-! ## Numbers -/

theorem decDigits_eq (left : Nat) : ∀ n : UInt32, n.toNat < 10 ^ left →
    decDigits left n = (Nat.digits 10 n.toNat).map Printf.digitByte := by
  induction left with
  | zero =>
    intro n hn
    have h0 : n.toNat = 0 := by simpa using hn
    simp [decDigits, h0]
  | succ left ih =>
    intro n hn
    unfold decDigits
    by_cases h0 : n = 0
    · simp [h0]
    · have hpos : 0 < n.toNat := Nat.pos_of_ne_zero fun h => h0 (UInt32.toNat_inj.1 h)
      have hdiv : (n / 10).toNat < 10 ^ left := by
        rw [UInt32.toNat_div]
        exact Nat.div_lt_of_lt_mul (by rwa [Nat.pow_succ, Nat.mul_comm] at hn)
      have hmod : (n % 10).toNat < 10 := by
        rw [UInt32.toNat_mod]
        exact Nat.mod_lt _ (by decide)
      have hdigit : 48 + (n % 10).toUInt8 = Printf.digitByte (n % 10).toNat := by
        rw [← Printf.digit_byte (by omega), Printf.digit, if_pos (UInt32.lt_iff_toNat_lt.2 hmod)]
      rw [if_neg h0, ih _ hdiv, hdigit, Nat.digits_def' (by omega) hpos, UInt32.toNat_div, UInt32.toNat_mod]
      rfl

/-- The decimal text. -/
theorem vgaWriteDecAt_eq (v : Vga) (row col : Nat) (value : UInt32) :
    vgaWriteDecAt v row col value = vgaWriteAt v row col (Printf.unsigned 10 value.toNat) := by
  have hlt : value.toNat < 10 ^ 10 := value.toNat_lt.trans (by decide)
  have hbuf : (if value = 0 then [48] else decDigits 10 value).reverse = Printf.unsigned 10 value.toNat := by
    unfold Printf.unsigned
    by_cases h0 : value = 0
    · simp [h0]
    · have hn : value.toNat ≠ 0 := fun hz => h0 (UInt32.toNat_inj.1 hz)
      rw [if_neg h0, if_neg hn, decDigits_eq 10 value hlt]
  rw [vgaWriteDecAt, vgaWriteAt, hbuf]

/-! ## Runs -/

theorem Shows.setCursor (h : Shows v s) (hr : row < height) (hc : col < width) :
    Shows (vgaSetCursor v row col) (s.setCursor row col) :=
  ⟨h.cell, h.buf, rfl, rfl, hr, hc, h.below, h.sent⟩

/-- All blank, whatever was there. -/
theorem vgaClear_cells (v : Vga) : (∀ i, i < width * height → (vgaClear v).cells i = white space) ∧
    (∀ i, i < width * height → (vgaClear v).buf i = (vgaClear v).cells i) ∧ (vgaClear v).sent = v.sent := by
  obtain ⟨w, hw, hcells, hbuf, -, -, hsent⟩ := poke_loop (fun _ _ => space) 0 (width * height)
    (fun _ _ _ _ _ => rfl) v
  have hclear : vgaClear v = { w with cursorRow := 3, cursorCol := 0 } := by
    rw [← hw, vgaClear, List.range_eq_range']
  rw [hclear]
  refine ⟨fun i hi => ?_, fun i hi => ?_, hsent⟩
  · rw [hcells, if_pos (by omega)]
  · rw [hbuf, hcells]
    simp only [Nat.zero_le, true_and, Nat.zero_add, hi, if_true]

theorem Shows.clear (h : Shows v s) : Shows (vgaClear v) s.clear := by
  obtain ⟨hcells, hbuf, hsent⟩ := vgaClear_cells v
  refine ⟨fun r hr k hk => ?_, hbuf, rfl, rfl, three_lt, width_pos, fun r hr k => ?_, hsent.trans h.sent⟩
  · simp [hcells _ (pos_lt hr hk), Sheet.clear]
  · have hle : s.top ≤ r := Nat.le_trans (Nat.le_add_right _ _) hr
    simp [Sheet.clear, hle]

theorem shows_fresh (v : Vga) (hs : v.sent = []) : Shows (vgaClear v) .fresh := by
  obtain ⟨hcells, hbuf, hsent⟩ := vgaClear_cells v
  refine ⟨fun r hr k hk => ?_, hbuf, rfl, rfl, three_lt, width_pos, fun _ _ _ => rfl, hsent.trans hs⟩
  rw [hcells _ (pos_lt hr hk)]
  rfl

/-- What the kernel does to the console. -/
inductive Act where
  | clear
  | setCursor (row col : Nat)
  | putc (c : UInt8)
  | writeAt (row col : Nat) (msg : List UInt8)
  | writeHex64At (row col : Nat) (value : UInt64)
  | writeDecAt (row col : Nat) (value : UInt32)

namespace Act

/-- A cursor is set to a place in the window. -/
def Sound : Act → Prop
  | setCursor row col => row < height ∧ col < width
  | _ => True

def run (v : Vga) : Act → Vga
  | clear => vgaClear v
  | setCursor row col => vgaSetCursor v row col
  | putc c => vgaPutc v c
  | writeAt row col msg => vgaWriteAt v row col msg
  | writeHex64At row col value => vgaWriteHex64At v row col value
  | writeDecAt row col value => vgaWriteDecAt v row col value

/-- The same on paper. -/
def onSheet (s : Sheet) : Act → Sheet
  | clear => s.clear
  | setCursor row col => s.setCursor row col
  | putc c => s.putc c
  | writeAt row col msg => s.writeAt row col msg
  | writeHex64At row col value => s.writeAt row col (hexDigits value)
  | writeDecAt row col value => s.writeAt row col (Printf.unsigned 10 value.toNat)

end Act

theorem Shows.act (h : Shows v s) {a : Act} (ha : a.Sound) : Shows (a.run v) (a.onSheet s) := by
  cases a with
  | clear => exact h.clear
  | setCursor row col => exact h.setCursor ha.1 ha.2
  | putc c => exact h.putc c
  | writeAt row col msg => exact h.guarded row col msg
  | writeHex64At row col value => exact h.guarded row col _
  | writeDecAt row col value =>
    rw [Act.run, vgaWriteDecAt_eq]
    exact h.guarded row col _

/-- **The window shows the sheet.** After `vga_clear` and whatever is written then, every cell of
the console is the one of the sheet, the visible memory is the copy, the cursor is in the window,
and the serial line has had all that was put. -/
theorem sheet_run (v : Vga) (hs : v.sent = []) (acts : List Act) (ha : ∀ a ∈ acts, a.Sound) :
    Shows (acts.foldl Act.run (vgaClear v)) (acts.foldl Act.onSheet .fresh) := by
  suffices hrun : ∀ acts : List Act, (∀ a ∈ acts, a.Sound) → ∀ v s, Shows v s →
      Shows (acts.foldl Act.run v) (acts.foldl Act.onSheet s) from hrun acts ha _ _ (shows_fresh v hs)
  intro acts
  induction acts with
  | nil => exact fun _ _ _ h => h
  | cons a acts ih =>
    intro ha v s h
    exact ih (fun b hb => ha b (List.mem_cons_of_mem _ hb)) _ _ (h.act (ha a List.mem_cons_self))

/-- A line, a tab, a correction and a text at a fixed place. -/
def greeting : List Act :=
  [.setCursor 24 78, .putc 104, .putc 105, .putc tab, .putc backspace, .putc newline,
    .writeAt 0 76 [116, 105, 99, 107, 115]]

theorem sheet_run_greeting : Shows (greeting.foldl Act.run (vgaClear ⟨fun _ => 7, fun _ => 9, 30, 99, []⟩))
    (greeting.foldl Act.onSheet .fresh) :=
  sheet_run _ rfl greeting fun a ha => by
    simp only [greeting, List.mem_cons, List.not_mem_nil, or_false] at ha
    rcases ha with rfl | rfl | rfl | rfl | rfl | rfl | rfl <;> simp [Act.Sound, height, width]

end VampireOS.Console
