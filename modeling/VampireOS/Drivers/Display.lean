import VampireOS.Drivers.Pointer

/-!
# What is on the screen (kernel/fb.c, kernel/mouse.c, kernel/vga.c, kernel/user.c, kernel/kbd.c)

| here | there |
| --- | --- |
| `Display` | the shadow, the visible memory, the console and the mouse |
| `Display.back`, `shadow`, `setMem` | the pages of `fb_alloc_shadow`; `fb_mem`, and a drawing on it |
| `Display.fbPresent`, `fbDrawText` | `fb_present`, `fb_draw_text` |
| `promptLine`, `fbLine` | `kbd_overlay_refresh`; `fb_line` and `kbd_console_sync` |
| `Display.sysFbpix` | `SYS_FBPIX` after its argument is read |
| `Display.movePointer`, `printClick`, `mouseOnByte` | mouse.c |

`shown` is what `fb_present` copied last and `prompted` the last text of the strip: the source keeps
neither. Where `fb_alloc_shadow` fails, `fb_mem` is the visible memory itself: a present then copies
nothing and inverts the cross once more (`present_shared`).

| the result | says |
| --- | --- |
| `front_run` | with a shadow, the visible memory is the last picture with the pointer's cross inverted |
| `prompt_run` | nothing wipes the prompt off a shadow |
| `line_shows` | after a line is refreshed the screen shows the console's text and the prompt |
| `pointer_run` | with a shadow, the cross is where the packets of the mouse lead |
-/

namespace VampireOS.Framebuffer

open Lib

structure Display where
  g : Geometry
  /-- The pages of the shadow; `none` when there were no frames for them, and `fb_mem` is `fb_front`. -/
  back : Option Bytes
  front : Bytes
  vga : Console.Vga
  mouse : Mouse
  shown : Bytes
  prompted : Name

namespace Display

/-- `fb_mem`. -/
def shadow (d : Display) : Bytes := d.back.getD d.front

def setMem (d : Display) (m : Bytes) : Display :=
  match d.back with
  | none => { d with front := m }
  | some _ => { d with back := some m }

def mouseRepaint (d : Display) : Display :=
  if d.mouse.ptrOn then { d with front := fbPointer d.g d.mouse.ptrX d.mouse.ptrY d.front } else d

def fbPresent (d : Display) : Display :=
  if d.g.width = 0 ∨ d.g.height = 0 then d
  else
    match d.back with
    | none => mouseRepaint d
    | some m => mouseRepaint { d with
        front := presentCopy d.g m d.front
        shown := fun i => if (d.g.place i).isSome then m i else d.shown i }

def fbDrawText (d : Display) (x y : Int) (s : Name) : Display :=
  if y < 0 then d else fbPresent (d.setMem (textLoop d.g x y s d.shadow))

/-- `$` and what is typed to a program, or `kbd>` and the line of the kernel. -/
def promptOf (dollar : Bool) (typed : Name) : Name := (if dollar then [36] else [107, 98, 100, 62]) ++ typed

def promptLine (d : Display) (dollar : Bool) (typed : Name) : Display :=
  { d.setMem (fbPromptLine d.g (if dollar then [36] else [107, 98, 100, 62]) typed d.shadow) with
    prompted := promptOf dollar typed }

def fbLine (d : Display) (dollar : Bool) (typed : Name) : Display :=
  fbPresent (promptLine (d.setMem (fbVgaBlit d.g d.vga d.shadow)) dollar typed)

/-- A fill over the strip brings the prompt back. -/
def sysFbpix (d : Display) (x y w h color : UInt32) (dollar : Bool) (typed : Name) : Display :=
  match fbFillRect (some d.g) x y w h color d.shadow with
  | none => d
  | some m =>
    let d := d.setMem m
    if fbHitsOverlay d.g y h then promptLine d dollar typed else d

def movePointer (d : Display) : Display :=
  let front := if d.mouse.ptrOn then fbPointer d.g d.mouse.ptrX d.mouse.ptrY d.front else d.front
  { d with
    front := fbPointer d.g d.mouse.mx d.mouse.my front
    mouse := { d.mouse with ptrX := d.mouse.mx, ptrY := d.mouse.my, ptrOn := true } }

/-- `put_num`. -/
def putNum (v : UInt32) : Name := (if v = 0 then [48] else Console.decDigits 10 v).reverse

def clickText (s : Mouse) : Name :=
  let buf := putNum (UInt32.ofNat s.mx.toNat) ++ [44] ++ putNum (UInt32.ofNat s.my.toNat)
  buf ++ List.replicate (12 - buf.length) 32

def printClick (d : Display) : Display :=
  fbDrawText { d with vga := Console.vgaWriteAt d.vga 2 0 (clickText d.mouse) } 8 8 (clickText d.mouse)

def mouseOnByte (d : Display) (data : UInt8) : Display :=
  let r := d.mouse.onByte data
  match r.2 with
  | none => { d with mouse := r.1 }
  | some click =>
    let d := movePointer { d with mouse := r.1 }
    if click then printClick d else d

/-- What programs, the console and the interrupts do to the screen. -/
inductive Event where
  | fbpix (x y w h color : UInt32) (dollar : Bool) (typed : Name)
  | present
  | line (dollar : Bool) (typed : Name)
  | text (x y : Int) (s : Name)
  | console (a : Console.Act)
  | mouse (data : UInt8)

def step (d : Display) : Event → Display
  | .fbpix x y w h color dollar typed => d.sysFbpix x y w h color dollar typed
  | .present => d.fbPresent
  | .line dollar typed => d.fbLine dollar typed
  | .text x y s => d.fbDrawText x y s
  | .console a => { d with vga := a.run d.vga }
  | .mouse data => d.mouseOnByte data

def run (d : Display) (es : List Event) : Display := es.foldl step d

/-! ## The visible memory -/

variable {d : Display}

section
variable (d : Display) (m : Bytes)

@[simp] theorem setMem_g : (d.setMem m).g = d.g := by
  unfold setMem
  split <;> rfl

@[simp] theorem setMem_vga : (d.setMem m).vga = d.vga := by
  unfold setMem
  split <;> rfl

@[simp] theorem setMem_mouse : (d.setMem m).mouse = d.mouse := by
  unfold setMem
  split <;> rfl

@[simp] theorem setMem_shown : (d.setMem m).shown = d.shown := by
  unfold setMem
  split <;> rfl

@[simp] theorem setMem_prompted : (d.setMem m).prompted = d.prompted := by
  unfold setMem
  split <;> rfl

@[simp] theorem setMem_own : (d.setMem m).back.isSome = d.back.isSome := by
  unfold setMem
  split <;> simp [*]

@[simp] theorem setMem_shadow : (d.setMem m).shadow = m := by
  unfold setMem shadow
  split <;> simp [*]

end

section
variable (d : Display) (dollar : Bool) (typed : Name)

@[simp] theorem promptLine_g : (d.promptLine dollar typed).g = d.g := setMem_g _ _

@[simp] theorem promptLine_own : (d.promptLine dollar typed).back.isSome = d.back.isSome := setMem_own _ _

@[simp] theorem promptLine_mouse : (d.promptLine dollar typed).mouse = d.mouse := setMem_mouse _ _

@[simp] theorem promptLine_shadow : (d.promptLine dollar typed).shadow =
    fbPromptLine d.g (if dollar then [36] else [107, 98, 100, 62]) typed d.shadow := setMem_shadow _ _

end

/-- A shadow of its own keeps drawings off the visible memory. -/
theorem setMem_front (h : d.back.isSome = true) (m : Bytes) : (d.setMem m).front = d.front := by
  unfold setMem
  split
  · simp_all
  · rfl

theorem shadow_of_back {d' : Display} (h : d.back.isSome = true) (hb : d'.back = d.back) :
    d'.shadow = d.shadow := by
  obtain ⟨m, hm⟩ := Option.isSome_iff_exists.1 h
  rw [shadow, shadow, hb, hm]
  rfl

/-- The cross, while there is one. -/
def pointer (d : Display) (p : Nat × Nat) : Bool := d.mouse.ptrOn && cross d.mouse.ptrX d.mouse.ptrY p

/-- A coordinate of the screen, which has `n` of them. -/
def OnAxis (z : Int) (max : Int) (n : Nat) : Prop := 0 ≤ z ∧ z < n ∧ max = n

/-- What a screen with a shadow shows, and where the pointer may be. -/
structure Faces (d : Display) : Prop where
  front : d.back.isSome = true → d.front = d.g.flip d.pointer d.shown
  atX : OnAxis d.mouse.ptrX d.mouse.maxX d.g.width.toNat
  atY : OnAxis d.mouse.ptrY d.mouse.maxY d.g.height.toNat
  nextX : OnAxis d.mouse.mx d.mouse.maxX d.g.width.toNat
  nextY : OnAxis d.mouse.my d.mouse.maxY d.g.height.toNat

theorem OnAxis.pos {z max : Int} {n : Nat} (h : OnAxis z max n) : 0 < n := by
  have h0 := h.1
  have hn := h.2.1
  omega

theorem OnAxis.clamp {z max : Int} {n : Nat} (h : OnAxis z max n) (z' : Int) :
    OnAxis (Mouse.clampOne z' max) max n := by
  have hn := h.pos
  have hm := h.2.2
  unfold OnAxis Mouse.clampOne
  simp only
  refine ⟨?_, ?_, hm⟩ <;> split <;> split <;> omega

/-- On the screen `fb_pointer` inverts the cross. -/
theorem pointer_flip {g : Geometry} {x y u v : Int} (hx : OnAxis x u g.width.toNat)
    (hy : OnAxis y v g.height.toNat) (m : Bytes) :
    fbPointer g x y m = g.flip (cross x y) m := by
  have hx0 := hx.1
  have hxn := hx.2.1
  have hy0 := hy.1
  have hyn := hy.2.1
  rcases size_lt g hy.pos with ⟨hw, hh⟩ | hw
  · exact fbPointer_flip ⟨by omega, by omega⟩ ⟨by omega, by omega⟩ m
  · exact absurd hw (Nat.ne_of_gt hx.pos)

theorem flip_off {g : Geometry} {S : Nat × Nat → Bool} (h : ∀ p, S p = false) (m : Bytes) :
    g.flip S m = m := by
  funext i
  simp [Geometry.flip, h]

/-- What draws on the shadow or writes on the console leaves the visible memory alone. -/
theorem Faces.same {d' : Display} (h : Faces d) (hg : d'.g = d.g)
    (hb : d'.back.isSome = d.back.isSome) (hf : d.back.isSome = true → d'.front = d.front)
    (hm : d'.mouse = d.mouse) (hs : d'.shown = d.shown) : Faces d' := by
  refine ⟨fun hown => ?_, ?_, ?_, ?_, ?_⟩
  · have hp : d'.pointer = d.pointer := by
      funext p
      simp only [pointer, hm]
    rw [hb] at hown
    rw [hf hown, hg, hs, hp]
    exact h.front hown
  · rw [hm, hg]
    exact h.atX
  · rw [hm, hg]
    exact h.atY
  · rw [hm, hg]
    exact h.nextX
  · rw [hm, hg]
    exact h.nextY

theorem Faces.setMem (h : Faces d) (m : Bytes) : Faces (d.setMem m) :=
  h.same (setMem_g d m) (setMem_own d m) (fun hown => setMem_front hown m) (setMem_mouse d m)
    (setMem_shown d m)

theorem Faces.promptLine (h : Faces d) (dollar : Bool) (typed : Name) : Faces (d.promptLine dollar typed) :=
  (h.setMem (fbPromptLine d.g (if dollar then [36] else [107, 98, 100, 62]) typed d.shadow)).same
    rfl rfl (fun _ => rfl) rfl rfl

/-- The cross is drawn on what is there then. -/
theorem mouseRepaint_front {u v : Int} (hx : OnAxis d.mouse.ptrX u d.g.width.toNat)
    (hy : OnAxis d.mouse.ptrY v d.g.height.toNat) :
    d.mouseRepaint.front = d.g.flip d.pointer d.front := by
  unfold mouseRepaint
  by_cases hon : d.mouse.ptrOn = true
  · rw [if_pos hon]
    simp only
    rw [pointer_flip hx hy]
    congr 1
    funext p
    simp only [pointer, hon, Bool.true_and]
  · rw [if_neg hon, flip_off]
    intro p
    simp [pointer, hon]

theorem mouseRepaint_keeps (d : Display) :
    d.mouseRepaint.g = d.g ∧ d.mouseRepaint.back = d.back ∧ d.mouseRepaint.vga = d.vga ∧
    d.mouseRepaint.mouse = d.mouse ∧ d.mouseRepaint.shown = d.shown ∧ d.mouseRepaint.prompted =
    d.prompted := by
  unfold mouseRepaint
  split <;> exact ⟨rfl, rfl, rfl, rfl, rfl, rfl⟩

/-- Repainting leaves the rest: the screen still faces what it should. -/
theorem Faces.repaint {d' : Display} (h : Faces d) (hg : d'.g = d.g) (hm : d'.mouse = d.mouse)
    (hfront : d'.back.isSome = true → d'.front = d'.shown) : Faces d'.mouseRepaint := by
  obtain ⟨eg, eb, -, em, es, -⟩ := mouseRepaint_keeps d'
  refine ⟨fun hown => ?_, ?_, ?_, ?_, ?_⟩
  · rw [eb] at hown
    have hp : d'.mouseRepaint.pointer = d'.pointer := by
      funext p
      simp only [pointer, em]
    rw [mouseRepaint_front (by rw [hm, hg]; exact h.atX) (by rw [hm, hg]; exact h.atY), eg, es, hp,
      hfront hown]
  · rw [em, eg, hm, hg]
    exact h.atX
  · rw [em, eg, hm, hg]
    exact h.atY
  · rw [em, eg, hm, hg]
    exact h.nextX
  · rw [em, eg, hm, hg]
    exact h.nextY

/-- The picture is copied, when it is elsewhere, and the cross drawn on it again. -/
theorem Faces.present (h : Faces d) : Faces d.fbPresent := by
  unfold fbPresent
  split
  · exact h
  · split
    · rename_i hb
      refine h.repaint rfl rfl fun hown => ?_
      rw [hb] at hown
      cases hown
    · rename_i m hb
      refine h.repaint rfl rfl fun _ => ?_
      have hown : d.back.isSome = true := by rw [hb]; rfl
      simp only
      rw [presentCopy_eq, h.front hown]
      funext i
      cases hq : d.g.place i <;> simp [Geometry.flip, hq]

theorem fbPresent_keeps (d : Display) :
    d.fbPresent.g = d.g ∧ d.fbPresent.back = d.back ∧ d.fbPresent.vga = d.vga ∧
    d.fbPresent.mouse = d.mouse ∧ d.fbPresent.prompted = d.prompted := by
  unfold fbPresent
  split
  · exact ⟨rfl, rfl, rfl, rfl, rfl⟩
  · split
    · obtain ⟨h1, h2, h3, h4, -, h6⟩ := mouseRepaint_keeps d
      exact ⟨h1, h2, h3, h4, h6⟩
    · rename_i m _
      obtain ⟨h1, h2, h3, h4, -, h6⟩ := mouseRepaint_keeps { d with
        front := presentCopy d.g m d.front
        shown := fun i => if (d.g.place i).isSome then m i else d.shown i }
      exact ⟨h1, h2, h3, h4, h6⟩

theorem Faces.drawText (h : Faces d) (x y : Int) (s : Name) : Faces (d.fbDrawText x y s) := by
  unfold fbDrawText
  split
  · exact h
  · exact (h.setMem _).present

theorem Faces.line (h : Faces d) (dollar : Bool) (typed : Name) : Faces (d.fbLine dollar typed) :=
  ((h.setMem _).promptLine dollar typed).present

theorem Faces.fbpix (h : Faces d) (x y w k color : UInt32) (dollar : Bool) (typed : Name) :
    Faces (d.sysFbpix x y w k color dollar typed) := by
  unfold sysFbpix
  split
  · exact h
  · simp only
    split
    · exact (h.setMem _).promptLine dollar typed
    · exact h.setMem _

/-- The old cross goes, the new one comes. -/
theorem Faces.move (h : Faces d) : Faces d.movePointer := by
  have hold : d.back.isSome = true →
      (if d.mouse.ptrOn then fbPointer d.g d.mouse.ptrX d.mouse.ptrY d.front else d.front) = d.shown := by
    intro hown
    have hfront := h.front hown
    split
    · rename_i hon
      rw [pointer_flip h.atX h.atY, hfront]
      have hp : d.pointer = cross d.mouse.ptrX d.mouse.ptrY := by
        funext p
        simp [pointer, hon]
      rw [hp, flip_flip]
    · rename_i hoff
      rw [hfront, flip_off]
      intro p
      simp [pointer, hoff]
  unfold movePointer
  refine ⟨fun hown => ?_, h.nextX, h.nextY, h.nextX, h.nextY⟩
  simp only at hown ⊢
  rw [hold hown, pointer_flip h.nextX h.nextY]
  congr 1

/-- A byte of the mouse keeps the pointer on the screen. -/
theorem Faces.byte (h : Faces d) (data : UInt8) : Faces { d with mouse := (d.mouse.onByte data).1 } := by
  have hptr : (d.mouse.onByte data).1.ptrX = d.mouse.ptrX ∧ (d.mouse.onByte data).1.ptrY = d.mouse.ptrY ∧
      (d.mouse.onByte data).1.ptrOn = d.mouse.ptrOn ∧ (d.mouse.onByte data).1.maxX = d.mouse.maxX ∧
      (d.mouse.onByte data).1.maxY = d.mouse.maxY := by
    unfold Mouse.onByte
    simp only
    split_ifs <;> exact ⟨rfl, rfl, rfl, rfl, rfl⟩
  have hx : OnAxis (d.mouse.onByte data).1.mx d.mouse.maxX d.g.width.toNat := by
    unfold Mouse.onByte
    simp only
    split_ifs
    all_goals first | exact h.nextX | exact h.nextX.clamp _
  have hy : OnAxis (d.mouse.onByte data).1.my d.mouse.maxY d.g.height.toNat := by
    unfold Mouse.onByte
    simp only
    split_ifs
    all_goals first | exact h.nextY | exact h.nextY.clamp _
  obtain ⟨ex, ey, eon, emx, emy⟩ := hptr
  refine ⟨fun hown => ?_, ?_, ?_, ?_, ?_⟩
  · have hp : pointer { d with mouse := (d.mouse.onByte data).1 } = d.pointer := by
      funext p
      simp only [pointer, ex, ey, eon]
    rw [hp]
    exact h.front hown
  · simp only [ex, emx]
    exact h.atX
  · simp only [ey, emy]
    exact h.atY
  · simp only [emx]
    exact hx
  · simp only [emy]
    exact hy

theorem Faces.printClick (h : Faces d) : Faces d.printClick := by
  unfold Display.printClick
  apply Faces.drawText
  exact h.same rfl rfl (fun _ => rfl) rfl rfl

theorem Faces.mouseOnByte (h : Faces d) (data : UInt8) : Faces (d.mouseOnByte data) := by
  have hbyte := h.byte data
  unfold Display.mouseOnByte
  simp only
  split
  · exact hbyte
  · split
    · exact hbyte.move.printClick
    · exact hbyte.move

theorem Faces.step (h : Faces d) (e : Event) : Faces (d.step e) := by
  cases e with
  | fbpix x y w k color dollar typed => exact h.fbpix x y w k color dollar typed
  | present => exact h.present
  | line dollar typed => exact h.line dollar typed
  | text x y s => exact h.drawText x y s
  | console a => exact h.same rfl rfl (fun _ => rfl) rfl rfl
  | mouse data => exact h.mouseOnByte data

theorem Faces.run (h : Faces d) (es : List Event) : Faces (d.run es) := by
  induction es generalizing d with
  | nil => exact h
  | cons e es ih => exact ih (h.step e)

theorem step_own (d : Display) (e : Event) : (d.step e).back.isSome = d.back.isSome := by
  have hpresent : ∀ d : Display, d.fbPresent.back.isSome = d.back.isSome := fun d => by
    rw [(fbPresent_keeps d).2.1]
  cases e with
  | fbpix x y w k color dollar typed =>
    simp only [Display.step, sysFbpix]
    split
    · rfl
    · split <;> simp [Display.promptLine]
  | present => exact hpresent d
  | line dollar typed => simp [Display.step, fbLine, hpresent, Display.promptLine]
  | text x y s =>
    simp only [Display.step, fbDrawText]
    split
    · rfl
    · simp [hpresent]
  | console a => rfl
  | mouse data =>
    simp only [Display.step, Display.mouseOnByte]
    split
    · rfl
    · split
      · simp only [Display.printClick, fbDrawText]
        split
        · rfl
        · simp [hpresent, movePointer]
      · rfl

theorem run_own (d : Display) (es : List Event) : (d.run es).back.isSome = d.back.isSome := by
  induction es generalizing d with
  | nil => rfl
  | cons e es ih => exact (ih (d.step e)).trans (step_own d e)

/-- **What is seen.** On a screen whose shadow has pages of its own, over any run of fills,
presents, texts, refreshed lines and bytes of the mouse, the visible memory is the picture presented
last with the pixels of the pointer's cross inverted, and the pointer stays on the screen. -/
theorem front_run (hd : Faces d) (hown : d.back.isSome = true) (es : List Event) :
    (d.run es).front = (d.run es).g.flip (d.run es).pointer (d.run es).shown ∧
      (0 ≤ (d.run es).mouse.ptrX ∧ (d.run es).mouse.ptrX < (d.run es).g.width.toNat) ∧
      0 ≤ (d.run es).mouse.ptrY ∧ (d.run es).mouse.ptrY < (d.run es).g.height.toNat := by
  have h := hd.run es
  exact ⟨h.front ((run_own d es).trans hown), ⟨h.atX.1, h.atX.2.1⟩, h.atY.1, h.atY.2.1⟩

/-- Without a shadow a present inverts the cross on the picture, where it stands already: every
other one takes it away. -/
theorem present_shared (hd : Faces d) (hb : d.back = none) :
    d.fbPresent.front = d.g.flip d.pointer d.front ∧ d.fbPresent.fbPresent.front = d.front := by
  have hsize : ¬ (d.g.width = 0 ∨ d.g.height = 0) := by
    have hw := hd.atX.pos
    have hh := hd.atY.pos
    rintro (h | h)
    · rw [h] at hw
      exact absurd hw (Nat.lt_irrefl 0)
    · rw [h] at hh
      exact absurd hh (Nat.lt_irrefl 0)
  have hpresent : ∀ {d' : Display}, Faces d' → d'.back = none → d'.g = d.g → d'.fbPresent.front =
      d'.g.flip d'.pointer d'.front := by
    intro d' h' hb' hg'
    rw [fbPresent, hg', if_neg hsize, hb', ← hg']
    exact mouseRepaint_front h'.atX h'.atY
  obtain ⟨hg, hback, -, hm, -⟩ := fbPresent_keeps d
  refine ⟨hpresent hd hb rfl, ?_⟩
  have hp : d.fbPresent.pointer = d.pointer := by
    funext p
    simp only [pointer, hm]
  rw [hpresent hd.present (hback.trans hb) hg, hp, hpresent hd hb rfl, hg, flip_flip]

/-- A small screen. -/
def small : Geometry where
  width := 320
  height := 200
  pitch := 1280
  bpp := 32
  depth := .inr rfl
  row := by decide
  size := by decide

/-- The screen after the first prompt: the mouse is in the middle and not drawn. -/
def atPrompt : Display := promptLine
  { g := small
    back := some fun _ => 0
    front := fun _ => 0
    vga := Console.vgaClear ⟨fun _ => 7, fun _ => 9, 30, 99, []⟩
    mouse := { mx := 160, my := 100, maxX := 320, maxY := 200, ptrX := 160, ptrY := 100,
               ptrOn := false, leftDown := false,
               pkt := fun _ => 0, pktI := 0 }
    shown := fun _ => 0
    prompted := [] } true [108, 115]

theorem faces_atPrompt : Faces atPrompt :=
  ⟨fun _ => (flip_off (fun _ => rfl) _).symm, ⟨by decide, by decide, rfl⟩,
    ⟨by decide, by decide, rfl⟩, ⟨by decide, by decide, rfl⟩, ⟨by decide, by decide, rfl⟩⟩

/-- A fill over the whole screen, a click and a text. -/
def busy : List Event :=
  [.fbpix 0 0 320 200 0x00FF00 true [108, 115, 32], .mouse 0x09, .mouse 3, .mouse 4, .present,
    .text 40 60 [104, 105], .console .clear]

theorem front_run_busy : (atPrompt.run busy).front =
    (atPrompt.run busy).g.flip (atPrompt.run busy).pointer (atPrompt.run busy).shown ∧
      (0 ≤ (atPrompt.run busy).mouse.ptrX ∧ (atPrompt.run busy).mouse.ptrX <
      (atPrompt.run busy).g.width.toNat) ∧
      0 ≤ (atPrompt.run busy).mouse.ptrY ∧ (atPrompt.run busy).mouse.ptrY <
      (atPrompt.run busy).g.height.toNat :=
  front_run faces_atPrompt rfl busy

/-! ## The strip -/

/-- The prompt stands on the shadow, which has pages of its own: drawing it again changes nothing. -/
structure Strip (d : Display) : Prop where
  own : d.back.isSome = true
  drawn : ∀ oy, fbOverlayY d.g = some oy → d.g.draw (promptInk d.g oy d.prompted) d.shadow = d.shadow

theorem draw_self {g : Geometry} (C : Ink (Nat × Nat) UInt32) (m : Bytes) :
    g.draw C (g.draw C m) = g.draw C m := by
  rw [draw_draw, Ink.atop_self]

/-- Drawings that share no pixel. -/
theorem draw_comm {g : Geometry} {C C' : Ink (Nat × Nat) UInt32} (h : ∀ p, C p = none ∨ C' p = none)
    (m : Bytes) :
    g.draw C (g.draw C' m) = g.draw C' (g.draw C m) := by
  rw [draw_draw, draw_draw]
  congr 1
  funext p
  rcases h p with hp | hp <;> simp [Ink.atop, hp]

theorem promptInk_row {g : Geometry} {oy : Nat} {text : Name} {p : Nat × Nat}
    (h : p.2 < oy ∨ oy + promptCell ≤ p.2) :
    promptInk g oy text p = none := by
  apply lineInk_row
  simp only [promptCell, promptScale, row] at h ⊢
  omega

/-- A drawing above or below the strip. -/
theorem Strip.apart (h : Strip d) {C : Ink (Nat × Nat) UInt32}
    (hC : ∀ oy, fbOverlayY d.g = some oy → ∀ p : Nat × Nat, oy ≤ p.2 → p.2 < oy + promptCell → C p = none) :
    Strip (d.setMem (d.g.draw C d.shadow)) := by
  refine ⟨by rw [setMem_own, h.own], fun oy hy => ?_⟩
  rw [setMem_g] at hy
  rw [setMem_g, setMem_shadow, setMem_prompted, draw_comm, h.drawn oy hy]
  intro p
  by_cases hp : p.2 < oy ∨ oy + promptCell ≤ p.2
  · exact .inl (promptInk_row hp)
  · exact .inr (hC oy hy p (by omega) (by omega))

theorem Strip.same {d' : Display} (h : Strip d) (hg : d'.g = d.g) (hb : d'.back = d.back)
    (hp : d'.prompted = d.prompted) :
    Strip d' := by
  refine ⟨by rw [hb, h.own], fun oy hy => ?_⟩
  rw [hg] at hy
  rw [hg, shadow_of_back h.own hb, hp]
  exact h.drawn oy hy

/-- The prompt is drawn. -/
theorem strip_promptLine (hown : d.back.isSome = true) (dollar : Bool) (typed : Name) :
    Strip (d.promptLine dollar typed) := by
  refine ⟨by rw [promptLine_own, hown], fun oy hy => ?_⟩
  rw [promptLine_g] at hy
  rw [promptLine_g, promptLine_shadow, draw_promptLine hy]
  exact draw_self _ _

theorem Strip.present (h : Strip d) : Strip d.fbPresent := by
  obtain ⟨hg, hb, -, -, hp⟩ := fbPresent_keeps d
  exact h.same hg hb hp

/-- The pixels of a clipped rectangle. -/
def rectInk (g : Geometry) (x y w h color : UInt32) : Ink (Nat × Nat) UInt32 := fun p =>
  if (x.toNat ≤ p.1 ∧ p.1 < min (x.toNat + w.toNat) g.width.toNat) ∧
      y.toNat ≤ p.2 ∧ p.2 < min (y.toNat + h.toNat) g.height.toNat then
    some color
  else none

theorem fbFillRect_draw {g : Geometry} {x y w h color : UInt32} {m m' : Bytes}
    (hf : fbFillRect (some g) x y w h color m = some m') :
    m' = g.draw (rectInk g x y w h color) m := by
  rw [fbFillRect_some hf]
  funext i
  by_cases hin : ∃ px py j, InRect g x y w h px py ∧ j < g.bytes ∧ i = g.offset px py + j
  · obtain ⟨px, py, j, hr, hj, rfl⟩ := hin
    rw [draw_pixel hr.onScreen.1 hr.onScreen.2 hj, rectInk, if_pos (by exact hr)]
    apply foldl_store_hit (mem_rect.2 ⟨px, py, hr, rfl⟩) hj
    intro o ho k hk he
    obtain ⟨qx, qy, hq, rfl⟩ := mem_rect.1 ho
    obtain ⟨rfl, rfl⟩ := offset_inj hr.onScreen.1 hq.onScreen.1 hr.onScreen.2 hq.onScreen.2 hj hk he
    rfl
  · rw [draw_miss, foldl_store_miss]
    · intro o ho j hj he
      obtain ⟨px, py, hr, rfl⟩ := mem_rect.1 ho
      exact hin ⟨px, py, j, hr, hj, he⟩
    · rintro ⟨⟨px, py⟩, j⟩ hq
      obtain ⟨-, -, hj, rfl⟩ := place_some hq
      rw [rectInk, if_neg]
      intro hr
      exact hin ⟨px, py, j, hr, hj, rfl⟩

/-- A fill that does not hit the strip is above or below it. -/
theorem rectInk_apart {g : Geometry} {x y w h color : UInt32} {oy : Nat} (hy : fbOverlayY g = some oy)
    (hhit : fbHitsOverlay g y h = false) {p : Nat × Nat} (hlo : oy ≤ p.2) (hhi : p.2 < oy + promptCell) :
    rectInk g x y w h color p = none := by
  have hclip : (if y + h < y ∨ y + h > g.height then g.height else y + h) = clip y h g.height := rfl
  rw [fbHitsOverlay, hy] at hhit
  simp only [hclip, clip_toNat] at hhit
  rw [rectInk, if_neg]
  rintro ⟨-, h1, h2⟩
  by_cases h0 : h = 0
  · subst h0
    simp only [UInt32.toNat_zero] at h2
    omega
  · rw [if_neg h0] at hhit
    split at hhit
    · omega
    · split at hhit
      · omega
      · cases hhit

theorem Strip.fbpix (h : Strip d) (x y w k color : UInt32) (dollar : Bool) (typed : Name) :
    Strip (d.sysFbpix x y w k color dollar typed) := by
  unfold sysFbpix
  split
  · exact h
  · rename_i m hf
    simp only
    split
    · exact strip_promptLine (by rw [setMem_own, h.own]) dollar typed
    · rename_i hhit
      rw [fbFillRect_draw hf]
      apply h.apart
      intro oy hy p hlo hhi
      exact rectInk_apart hy (by simpa using hhit) hlo hhi

/-- A text away from the strip. -/
def Away (g : Geometry) (y : Int) : Prop :=
  ∀ oy : Nat, fbOverlayY g = some oy → y + promptCell ≤ oy ∨ oy + promptCell ≤ y

theorem Strip.drawText (h : Strip d) {y : Int} (hy : Away d.g y) (x : Int) (s : Name) :
    Strip (d.fbDrawText x y s) := by
  unfold fbDrawText
  split
  · exact h
  · rename_i hy0
    obtain ⟨n, -, he⟩ := draw_textLoop (g := d.g) (Int.not_lt.1 hy0) x s d.shadow
    rw [he]
    apply Strip.present
    apply h.apart
    intro oy hoy p hlo hhi
    apply lineInk_row
    have haway := hy oy hoy
    simp only [promptCell, promptScale, row] at haway hhi ⊢
    omega

theorem Strip.line (hown : d.back.isSome = true) (dollar : Bool) (typed : Name) :
    Strip (d.fbLine dollar typed) :=
  Strip.present (strip_promptLine (by rw [setMem_own, hown]) dollar typed)

theorem Strip.mouseOnByte (h : Strip d) (hh : 200 ≤ d.g.height.toNat) (data : UInt8) :
    Strip (d.mouseOnByte data) := by
  have haway : Away d.g 8 := by
    intro oy hy
    have := fbOverlayY_some hy
    simp only [promptCell, promptScale, overlayPad] at this ⊢
    omega
  unfold Display.mouseOnByte
  simp only
  split
  · exact h.same rfl rfl rfl
  · split
    · unfold Display.printClick
      apply Strip.drawText
      · exact h.same rfl rfl rfl
      · exact haway
    · exact h.same rfl rfl rfl

/-- Texts of the kernel are not on the strip. -/
def Event.Clear (g : Geometry) : Event → Prop
  | .text _ y _ => Away g y
  | _ => True

theorem fbDrawText_keeps (d : Display) (x y : Int) (s : Name) : (d.fbDrawText x y s).g = d.g ∧
    (d.fbDrawText x y s).mouse = d.mouse := by
  unfold fbDrawText
  split
  · exact ⟨rfl, rfl⟩
  · obtain ⟨hg, -, -, hm, -⟩ := fbPresent_keeps (d.setMem (textLoop d.g x y s d.shadow))
    exact ⟨hg.trans (setMem_g _ _), hm.trans (setMem_mouse _ _)⟩

theorem step_g (d : Display) (e : Event) : (d.step e).g = d.g := by
  cases e with
  | fbpix x y w k color dollar typed =>
    simp only [Display.step, sysFbpix]
    split
    · rfl
    · split <;> simp
  | present => exact (fbPresent_keeps d).1
  | line dollar typed => simp [Display.step, fbLine, (fbPresent_keeps _).1]
  | text x y s => exact (fbDrawText_keeps d x y s).1
  | console a => rfl
  | mouse data =>
    simp only [Display.step, Display.mouseOnByte]
    split
    · rfl
    · split
      · exact (fbDrawText_keeps _ _ _ _).1
      · rfl

theorem Strip.step (h : Strip d) (hh : 200 ≤ d.g.height.toNat) {e : Event} (he : e.Clear d.g) :
    Strip (d.step e) := by
  cases e with
  | fbpix x y w k color dollar typed => exact h.fbpix x y w k color dollar typed
  | present => exact h.present
  | line dollar typed => exact Strip.line h.own dollar typed
  | text x y s => exact h.drawText he x s
  | console a => exact h.same rfl rfl rfl
  | mouse data => exact h.mouseOnByte hh data

theorem Strip.run (h : Strip d) (hh : 200 ≤ d.g.height.toNat) (es : List Event) (he : ∀ e ∈ es, e.Clear d.g) :
    Strip (d.run es) ∧ (d.run es).g = d.g := by
  induction es generalizing d with
  | nil => exact ⟨h, rfl⟩
  | cons e es ih =>
    have hg := step_g d e
    have hrest := ih (h.step hh (he e List.mem_cons_self)) (by rw [hg]; exact hh) fun f hf => by
      rw [hg]
      exact he f (List.mem_cons_of_mem _ hf)
    exact ⟨hrest.1, hrest.2.trans hg⟩

/-- A pixel of the strip: character `k` of the text, which blanks follow. -/
theorem promptInk_pixel {g : Geometry} {oy k gx gy : Nat} {text : Name} (hk : k < g.columns)
    (hgx : gx < promptCell) (hgy : gy < promptCell) :
    promptInk g oy text (k * promptCell + gx, oy + gy) =
      some (shade (bit ((glyphOf (text.getD k 32)).getD (gy / promptScale) 0)
        (gx / promptScale))) := by
  have hx : k * promptCell + gx = 0 + (k * (promptScale * 8) + gx) := by
    simp only [promptCell, promptScale]
    omega
  rw [promptInk, hx]
  exact lineInk_pixel (by decide) hk hgx hgy

/-- **The prompt stays.** On a screen that `fb_init` accepts, whatever rectangles the programs fill
and whatever comes else, the strip of the shadow shows the text it was given last. -/
theorem prompt_run (hd : Strip d) (hh : 200 ≤ d.g.height.toNat) (es : List Event)
    (he : ∀ e ∈ es, e.Clear d.g) {oy k gx gy j : Nat} (hy : fbOverlayY d.g = some oy)
    (hk : k < d.g.columns) (hgx : gx < promptCell) (hgy : gy < promptCell) (hj : j < d.g.bytes) :
    (d.run es).shadow (d.g.offset (k * promptCell + gx) (oy + gy) + j) =
      colorByte (shade (bit ((glyphOf ((d.run es).prompted.getD k 32)).getD (gy / promptScale) 0)
        (gx / promptScale))) j := by
  obtain ⟨hstrip, hg⟩ := hd.run hh es he
  have hon : oy + gy < d.g.height.toNat := by
    have := fbOverlayY_some hy
    omega
  have hsame := hstrip.drawn oy (by rw [hg]; exact hy)
  rw [hg] at hsame
  rw [← hsame, draw_pixel (columns_lt hk hgx) hon hj, promptInk_pixel hk hgx hgy]
  rfl

theorem prompt_run_busy : (atPrompt.run busy).shadow (small.offset 17 177) =
    colorByte (shade (bit ((glyphOf ((atPrompt.run busy).prompted.getD 1 32)).getD 0 0) 0)) 0 :=
  @prompt_run atPrompt (strip_promptLine rfl _ _) (by decide) busy
    (fun e he => by
      simp only [busy, List.mem_cons, List.not_mem_nil, or_false] at he
      rcases he with rfl | rfl | rfl | rfl | rfl | rfl | rfl
      all_goals first
        | exact trivial
        | intro oy hy
          have hoy : oy = 176 := Option.some.inj (hy.symm.trans (rfl : fbOverlayY small = some 176))
          subst hoy
          decide)
    176 1 1 1 0 rfl (by decide) (by decide) (by decide) (by decide)

/-! ## A refreshed line -/

/-- A pixel after a present, with or without a shadow. -/
theorem Faces.present_pixel (h : Faces d) {px py j : Nat} (hx : px < d.g.width.toNat)
    (hy : py < d.g.height.toNat) (hj : j < d.g.bytes) : d.fbPresent.front (d.g.offset px py + j) =
      d.shadow (d.g.offset px py + j) ^^^
        (if d.fbPresent.pointer (px, py) && decide (j < 3) then 0xFF else 0) := by
  have hw : ¬ (d.g.width = 0 ∨ d.g.height = 0) := by
    rintro (h | h)
    · rw [h] at hx
      exact absurd hx (Nat.not_lt_zero _)
    · rw [h] at hy
      exact absurd hy (Nat.not_lt_zero _)
  have hp : d.fbPresent.pointer = d.pointer := by
    funext p
    simp only [pointer, (fbPresent_keeps d).2.2.2.1]
  rw [hp, fbPresent, if_neg hw]
  split
  · rename_i hb
    rw [mouseRepaint_front h.atX h.atY, Geometry.flip, place_offset hx hy hj, Option.any_some, shadow, hb]
    rfl
  · rename_i m hb
    rw [mouseRepaint_front (by exact h.atX) (by exact h.atY), Geometry.flip, place_offset hx hy hj,
      Option.any_some]
    have hcopied : presentCopy d.g m d.front (d.g.offset px py + j) = m (d.g.offset px py + j) := by
      rw [presentCopy_eq]
      simp only [place_offset hx hy hj, Option.isSome_some, if_true]
    simp only [hcopied, shadow, hb, Option.getD_some]
    rfl

theorem consoleInk_pixel {g : Geometry} {v : Console.Vga} {r c gx gy : Nat}
    (hr : r < min Console.height (textRows g)) (hc : c < min Console.width (g.width.toNat / 8))
    (hgx : gx < 8) (hgy : gy < 8) :
    consoleInk g v (c * 8 + gx, r * 8 + gy) =
    some (shade (bit ((glyphOf (Console.vgaCharAt v r c)).getD gy 0) gx)) := by
  have hidx : ((r * 8 + gy : Nat) - (0 : Int)).toNat / 8 = r := by omega
  have hline := lineInk_pixel (x := 0) (y := r * 8) (c := fun c => Console.vgaCharAt v r c)
    Nat.one_pos hc hgx hgy
  rw [consoleInk, strips_apply (by decide),
    if_pos ⟨by simp only [row]; omega, by simp only [row, hidx]; exact hr⟩]
  simp only [row, hidx]
  rw [Nat.zero_add, Nat.one_mul, Nat.div_one, Nat.div_one] at hline
  push_cast at hline ⊢
  exact hline

/-- **A line.** After `fb_line`, on the visible memory every character of the console that fits
above the strip is the one of the sheet, drawn in the font, and the strip shows the prompt and what
is typed; under the pointer they are inverted. -/
theorem line_shows (hd : Faces d) {s : Console.Sheet} (hv : Console.Shows d.vga s) (dollar : Bool)
    (typed : Name) {j : Nat} (hj : j < d.g.bytes) :
    (∀ r c gx gy, r < min Console.height (textRows d.g) →
    c < min Console.width (d.g.width.toNat / 8) → gx < 8 → gy < 8 →
      (d.fbLine dollar typed).front (d.g.offset (c * 8 + gx) (r * 8 + gy) + j) =
        colorByte (shade (bit ((glyphOf (s.text (s.top + r) c)).getD gy 0) gx)) j ^^^
          (if (d.fbLine dollar typed).pointer (c * 8 + gx, r * 8 + gy) && decide (j < 3) then 0xFF else 0)) ∧
      ∀ oy k gx gy, fbOverlayY d.g = some oy → k < d.g.columns → gx < promptCell → gy < promptCell →
        (d.fbLine dollar typed).front (d.g.offset (k * promptCell + gx) (oy + gy) + j) =
          colorByte (shade
            (bit ((glyphOf ((promptOf dollar typed).getD k 32)).getD (gy / promptScale) 0)
            (gx / promptScale))) j ^^^
            (if (d.fbLine dollar typed).pointer (k * promptCell + gx, oy + gy) && decide (j < 3)
              then 0xFF else 0) := by
  have hdrawn := (hd.setMem (fbVgaBlit d.g d.vga d.shadow)).promptLine dollar typed
  have hg : (promptLine (d.setMem (fbVgaBlit d.g d.vga d.shadow)) dollar typed).g = d.g := by simp
  have hshadow : (promptLine (d.setMem (fbVgaBlit d.g d.vga d.shadow)) dollar typed).shadow =
      fbPromptLine d.g (if dollar then [36] else [107, 98, 100, 62]) typed
        (fbVgaBlit d.g d.vga d.shadow) := by simp
  have hfront : ∀ px py, px < d.g.width.toNat → py < d.g.height.toNat →
      (d.fbLine dollar typed).front (d.g.offset px py + j) =
        fbPromptLine d.g (if dollar then [36] else [107, 98, 100, 62]) typed
          (fbVgaBlit d.g d.vga d.shadow) (d.g.offset px py + j) ^^^
          (if (d.fbLine dollar typed).pointer (px, py) && decide (j < 3) then 0xFF else 0) := by
    intro px py hx hy
    have hpixel := hdrawn.present_pixel (j := j) (by rw [hg]; exact hx) (by rw [hg]; exact hy)
      (by rw [hg]; exact hj)
    rw [hg, hshadow] at hpixel
    exact hpixel
  refine ⟨fun r c gx gy hr hc hgx hgy => ?_, fun oy k gx gy hy hk hgx hgy => ?_⟩
  · have hrow : r < Console.height ∧ r < textRows d.g := by omega
    have hcol : c < Console.width ∧ c * 8 + gx < d.g.width.toNat := by omega
    have hline : r * 8 + gy < d.g.height.toNat := by
      have hin := (textRows_stop (g := d.g) r).1 hrow.2
      rw [decide_eq_false_iff_not, not_or] at hin
      omega
    have hchar : Console.vgaCharAt d.vga r c = s.text (s.top + r) c := by
      rw [hv.charAt, if_pos ⟨hrow.1, hcol.1⟩]
    have hcell : fbPromptLine d.g (if dollar then [36] else [107, 98, 100, 62]) typed
      (fbVgaBlit d.g d.vga d.shadow)
        (d.g.offset (c * 8 + gx) (r * 8 + gy) + j) =
          d.g.draw (consoleInk d.g d.vga) d.shadow (d.g.offset (c * 8 + gx) (r * 8 + gy) + j) := by
      rw [draw_vgaBlit]
      cases hy : fbOverlayY d.g with
      | none => rw [fbPromptLine, hy]
      | some oy =>
        rw [draw_promptLine hy, draw_pixel hcol.2 hline hj, promptInk_row]
        · rfl
        · left
          have hrows : textRows d.g = oy / 8 := by rw [textRows, hy, Option.getD_some]
          simp only
          omega
    rw [hfront _ _ hcol.2 hline, hcell, draw_pixel hcol.2 hline hj, consoleInk_pixel hr hc hgx hgy, hchar]
    rfl
  · have hline : oy + gy < d.g.height.toNat := by
      have := fbOverlayY_some hy
      omega
    rw [hfront _ _ (columns_lt hk hgx) hline]
    congr 1
    rw [draw_promptLine hy, draw_pixel (columns_lt hk hgx) hline hj, ← promptOf, promptInk_pixel hk hgx hgy]
    rfl

theorem line_shows_atPrompt : (atPrompt.fbLine true [112, 115]).front (small.offset 1 1) =
    colorByte (shade
      (bit ((glyphOf (Console.Sheet.fresh.text (Console.Sheet.fresh.top + 0) 0)).getD 1 0) 1)) 0 ^^^
      (if (atPrompt.fbLine true [112, 115]).pointer (1, 1) && decide (0 < 3) then 0xFF else 0) :=
  (line_shows faces_atPrompt (Console.shows_fresh _ rfl) true [112, 115] (j := 0) (by decide)).1 0 0
    1 1 (by decide) (by decide) (by decide) (by decide)

/-! ## Where the pointer is -/

/-- The bytes of the mouse among the events. -/
def bytesOf : List Event → List UInt8
  | [] => []
  | .mouse b :: es => b :: bytesOf es
  | _ :: es => bytesOf es

/-- The cross is where the mouse is. -/
def Pinned (d : Display) : Prop :=
  d.mouse.ptrOn = true → d.mouse.ptrX = d.mouse.mx ∧ d.mouse.ptrY = d.mouse.my

theorem step_mouse (d : Display) (e : Event) (he : ∀ b, e ≠ .mouse b) : (d.step e).mouse = d.mouse := by
  cases e with
  | fbpix x y w k color dollar typed =>
    simp only [Display.step, sysFbpix]
    split
    · rfl
    · split <;> simp
  | present => exact (fbPresent_keeps d).2.2.2.1
  | line dollar typed => simp [Display.step, fbLine, (fbPresent_keeps _).2.2.2.1]
  | text x y s => exact (fbDrawText_keeps d x y s).2
  | console a => rfl
  | mouse b => exact absurd rfl (he b)

theorem mouseOnByte_none {b : UInt8} (h : (d.mouse.onByte b).2 = none) :
    (d.mouseOnByte b).mouse = (d.mouse.onByte b).1 := by
  rw [Display.mouseOnByte]
  simp only [h]

theorem mouseOnByte_some {b : UInt8} {click : Bool} (h : (d.mouse.onByte b).2 = some click) :
    (d.mouseOnByte b).mouse =
      { (d.mouse.onByte b).1 with
        ptrX := (d.mouse.onByte b).1.mx, ptrY := (d.mouse.onByte b).1.my, ptrOn := true } := by
  rw [Display.mouseOnByte]
  simp only [h]
  split
  · exact (fbDrawText_keeps _ _ _ _).2
  · rfl

/-- What `mouse_on_byte` draws is no part of the stream. -/
theorem mouseOnByte_bare (d : Display) (b : UInt8) :
    (d.mouseOnByte b).mouse.bare = (d.mouse.bare.onByte b).1 := by
  have hbare := d.mouse.onByte_bare b
  cases hr : (d.mouse.onByte b).2 with
  | none => rw [mouseOnByte_none hr, hbare]
  | some click =>
    rw [mouseOnByte_some hr, ← hbare]
    rfl

theorem Pinned.same {d' : Display} (h : Pinned d) (hm : d'.mouse = d.mouse) : Pinned d' := by
  unfold Pinned
  rw [hm]
  exact h

theorem Pinned.mouseOnByte (h : Pinned d) (b : UInt8) : Pinned (d.mouseOnByte b) := by
  cases hr : (d.mouse.onByte b).2 with
  | none =>
    obtain ⟨hx, hy, hpx, hpy, hon⟩ := Mouse.onByte_rest hr
    unfold Pinned
    rw [mouseOnByte_none hr, hx, hy, hpx, hpy, hon]
    exact h
  | some click =>
    unfold Pinned
    rw [mouseOnByte_some hr]
    exact fun _ => ⟨rfl, rfl⟩

theorem run_mouse (h : Pinned d) (es : List Event) :
    Pinned (d.run es) ∧ (d.run es).mouse.bare = (d.mouse.bare.feed (bytesOf es)).1 := by
  induction es generalizing d with
  | nil => exact ⟨h, rfl⟩
  | cons e es ih =>
    by_cases he : ∃ b, e = .mouse b
    · obtain ⟨b, rfl⟩ := he
      obtain ⟨hp, hb⟩ := ih (h.mouseOnByte b)
      rw [mouseOnByte_bare] at hb
      exact ⟨hp, hb⟩
    · have hm := step_mouse d e fun b hb => he ⟨b, hb⟩
      obtain ⟨hp, hb⟩ := ih (h.same hm)
      have hnone : bytesOf (e :: es) = bytesOf es := by
        cases e with
        | mouse b => exact absurd ⟨b, rfl⟩ he
        | _ => rfl
      rw [hnone]
      rw [hm] at hb
      exact ⟨hp, hb⟩

/-- **The pointer.** On a screen whose shadow has pages of its own, whatever is drawn between the
bytes of the mouse, the cross that the visible memory shows is where the packets among them took it,
a packet at a time. -/
theorem pointer_run (hd : Faces d) (hown : d.back.isSome = true) (hp : Pinned d)
    (h0 : d.mouse.pktI = 0) (es : List Event) :
    (d.run es).front = if (d.run es).mouse.ptrOn then
      (d.run es).g.flip
      (cross (d.mouse.spot.follow d.mouse.maxX d.mouse.maxY (Mouse.packets (bytesOf es))).1.x
        (d.mouse.spot.follow d.mouse.maxX d.mouse.maxY (Mouse.packets (bytesOf es))).1.y) (d.run es).shown
    else (d.run es).shown := by
  obtain ⟨hpin, hbare⟩ := run_mouse hp es
  have hspot : (d.run es).mouse.spot =
      (d.mouse.spot.follow d.mouse.maxX d.mouse.maxY (Mouse.packets (bytesOf es))).1 := by
    rw [← Mouse.bare_spot, hbare]
    exact (Mouse.feed_packets (bytesOf es) (s := d.mouse.bare) h0).1
  rw [← hspot, (hd.run es).front ((run_own d es).trans hown)]
  split
  · rename_i hon
    obtain ⟨hx, hy⟩ := hpin hon
    have hcross : (d.run es).pointer = cross (d.run es).mouse.spot.x (d.run es).mouse.spot.y := by
      funext q
      simp only [pointer, hon, hx, hy, Mouse.spot, Bool.true_and]
    rw [hcross]
  · rename_i hoff
    rw [flip_off]
    intro q
    simp [pointer, hoff]

theorem pointer_run_busy : (atPrompt.run busy).front = if (atPrompt.run busy).mouse.ptrOn then
      (atPrompt.run busy).g.flip (cross 163 96) (atPrompt.run busy).shown
    else (atPrompt.run busy).shown :=
  pointer_run faces_atPrompt rfl (fun h => absurd h (by decide)) rfl busy

end Display

end VampireOS.Framebuffer
