import VampireOS.Drivers.Pointer

/-!
# The keyboard and its controller (kernel/kbd.c:18-60, 1041-1100, 1180-1199)

| here | there |
| --- | --- |
| `map`, `mapShift` | the same; a key that is not listed gives 0 |
| `Keys` | `shift`, `caps`, `ctrl` and `ext` |
| `Keys.scancode`, `Keys.pressed` | `kbd_scancode` and its end, with what it feeds instead of the call |
| `Input.kbdHandle` | `kbd_handle`: the controller's bytes in order, each with the device it is from |

| the result | says |
| --- | --- |
| `typed_run` | a text comes through whatever the mouse sends and however the interrupts fall |
| `fed_sound` | no scan codes make another character than the printable ones, newline, tab and backspace |
-/

namespace VampireOS.Keyboard

open Framebuffer

def scanRelease : UInt8 := 0x80
def scanExt : UInt8 := 0xE0
def scanLshift : UInt8 := 0x2A
def scanRshift : UInt8 := 0x36
def scanLctrl : UInt8 := 0x1D
def scanC : UInt8 := 0x2E
def scanCaps : UInt8 := 0x3A

def plainKeys : List (UInt8 × UInt8) := [
  (0x02, 49), (0x03, 50), (0x04, 51), (0x05, 52), (0x06, 53), (0x07, 54), (0x08, 55), (0x09, 56),
    (0x0A, 57), (0x0B, 48),
  (0x0C, 45), (0x0D, 61), (0x0E, 8), (0x0F, 9),
  (0x10, 113), (0x11, 119), (0x12, 101), (0x13, 114), (0x14, 116), (0x15, 121), (0x16, 117),
    (0x17, 105), (0x18, 111), (0x19, 112),
  (0x1A, 91), (0x1B, 93), (0x1C, 10),
  (0x1E, 97), (0x1F, 115), (0x20, 100), (0x21, 102), (0x22, 103), (0x23, 104), (0x24, 106),
    (0x25, 107), (0x26, 108), (0x27, 59),
  (0x28, 39), (0x29, 96),
  (0x2B, 92), (0x2C, 122), (0x2D, 120), (0x2E, 99), (0x2F, 118), (0x30, 98), (0x31, 110),
    (0x32, 109), (0x33, 44), (0x34, 46),
  (0x35, 47), (0x39, 32)]

def shiftKeys : List (UInt8 × UInt8) := [
  (0x02, 33), (0x03, 64), (0x04, 35), (0x05, 36), (0x06, 37), (0x07, 94), (0x08, 38), (0x09, 42),
    (0x0A, 40), (0x0B, 41),
  (0x0C, 95), (0x0D, 43), (0x0E, 8), (0x0F, 9),
  (0x10, 81), (0x11, 87), (0x12, 69), (0x13, 82), (0x14, 84), (0x15, 89), (0x16, 85), (0x17, 73),
    (0x18, 79), (0x19, 80),
  (0x1A, 123), (0x1B, 125), (0x1C, 10),
  (0x1E, 65), (0x1F, 83), (0x20, 68), (0x21, 70), (0x22, 71), (0x23, 72), (0x24, 74), (0x25, 75),
    (0x26, 76), (0x27, 58),
  (0x28, 34), (0x29, 126),
  (0x2B, 124), (0x2C, 90), (0x2D, 88), (0x2E, 67), (0x2F, 86), (0x30, 66), (0x31, 78), (0x32, 77),
    (0x33, 60), (0x34, 62),
  (0x35, 63), (0x39, 32)]

def map (code : UInt8) : UInt8 := (plainKeys.lookup code).getD 0

def mapShift (code : UInt8) : UInt8 := (shiftKeys.lookup code).getD 0

structure Keys where
  shift : Bool
  caps : Bool
  ctrl : Bool
  ext : Bool
deriving DecidableEq

/-- A character for `kbd_feed`, or SIGINT for the foreground. -/
inductive Stroke where
  | char (c : UInt8)
  | interrupt
deriving DecidableEq

/-- A small letter. -/
def isSmall (c : UInt8) : Bool := 97 ≤ c && c ≤ 122

namespace Keys

/-- What caps makes of a character; the second case is never met, as `map` has no capitals. -/
def letter (caps shift : Bool) (c : UInt8) : UInt8 :=
  if caps ∧ isSmall c then c - 97 + 65 else if caps ∧ (65 ≤ c ∧ c ≤ 90) ∧ shift = false
    then c - 65 + 97 else c

/-- The end of `kbd_scancode`: what the key `code` makes. -/
def pressed (s : Keys) (code : UInt8) : Option Stroke :=
  if s.ctrl ∧ code = scanC then some .interrupt
  else
    let c := if s.shift then mapShift code else map code
    if c = 0 then none else some (.char (letter s.caps s.shift c))

def scancode (s : Keys) (sc : UInt8) : Keys × Option Stroke :=
  if sc = scanExt then ({ s with ext := true }, none)
  else if s.ext then
    if sc = scanLctrl then ({ s with ext := false, ctrl := true }, none)
    else if sc = scanLctrl ||| scanRelease then ({ s with ext := false, ctrl := false }, none)
    else ({ s with ext := false }, none)
  else if sc = scanLshift ∨ sc = scanRshift then ({ s with shift := true }, none)
  else if sc = scanLshift ||| scanRelease ∨ sc = scanRshift ||| scanRelease
    then ({ s with shift := false }, none)
  else if sc = scanLctrl then ({ s with ctrl := true }, none)
  else if sc = scanLctrl ||| scanRelease then ({ s with ctrl := false }, none)
  else if sc = scanCaps then ({ s with caps := !s.caps }, none)
  else if sc &&& scanRelease ≠ 0 then (s, none)
  else (s, s.pressed (sc &&& 0x7F))

/-- Scan codes one after the other, with what they make. -/
def run (s : Keys) : List UInt8 → Keys × List Stroke
  | [] => (s, [])
  | sc :: scs => ((run (s.scancode sc).1 scs).1, (s.scancode sc).2.toList ++ (run (s.scancode sc).1 scs).2)

theorem run_append (s : Keys) (a b : List UInt8) :
    s.run (a ++ b) = (((s.run a).1.run b).1, (s.run a).2 ++ ((s.run a).1.run b).2) := by
  induction a generalizing s with
  | nil => rfl
  | cons sc a ih => simp [run, ih]

/-! ## What can be typed -/

/-- A printable character, a newline, a tab or a backspace. -/
def isTypable (c : UInt8) : Bool := (32 ≤ c && c ≤ 126) || c == 8 || c == 9 || c == 10

/-- What a scan code makes while caps is `caps`: nothing that cannot be typed, and with caps on no
small letter. -/
def isSound (caps : Bool) : Stroke → Bool
  | .char c => isTypable c && !(caps && isSmall c)
  | .interrupt => true

theorem lookup_mem (l : List (UInt8 × UInt8)) (code : UInt8) :
    (l.lookup code).getD 0 = 0 ∨ (l.lookup code).getD 0 ∈ l.map (·.2) := by
  induction l with
  | nil => exact .inl rfl
  | cons e l ih =>
    rw [List.lookup_cons]
    cases code == e.1 with
    | true => exact .inr List.mem_cons_self
    | false => exact ih.imp_right (List.mem_cons_of_mem _)

theorem letter_sound {caps shift : Bool} {c : UInt8}
    (hc : c ∈ (if shift then shiftKeys else plainKeys).map (·.2)) :
    isSound caps (.char (letter caps shift c)) = true := by
  have hall : ((if shift then shiftKeys else plainKeys).map (·.2)).all
      (fun c => isSound caps (.char (letter caps shift c))) = true := by
    cases shift <;> cases caps <;> decide +kernel
  exact List.all_eq_true.1 hall c hc

theorem pressed_sound (s : Keys) (code : UInt8) : (s.pressed code).all (isSound s.caps) = true := by
  unfold pressed
  by_cases hc : s.ctrl = true ∧ code = scanC
  · rw [if_pos hc]
    rfl
  · rw [if_neg hc]
    cases s.shift with
    | true =>
      by_cases hz : mapShift code = 0
      · simp [hz]
      · simp only [if_true, if_neg hz, Option.all_some]
        exact letter_sound ((lookup_mem shiftKeys code).resolve_left hz)
    | false =>
      by_cases hz : map code = 0
      · simp [hz]
      · simp only [Bool.false_eq_true, if_false, if_neg hz, Option.all_some]
        exact letter_sound ((lookup_mem plainKeys code).resolve_left hz)

theorem scancode_sound (s : Keys) (sc : UInt8) : (s.scancode sc).2.all (isSound s.caps) = true := by
  unfold scancode
  split_ifs
  all_goals first
    | rfl
    | exact pressed_sound s _

theorem scancode_caps (s : Keys) (sc : UInt8) : (s.scancode sc).1.caps = s.caps ∨ sc = scanCaps := by
  unfold scancode
  split_ifs
  all_goals first
    | exact .inl rfl
    | exact .inr ‹_›

theorem isSound_off {caps : Bool} {k : Stroke} (h : isSound caps k = true) : isSound false k = true := by
  cases k with
  | interrupt => rfl
  | char c =>
    simp only [isSound, Bool.and_eq_true] at h ⊢
    exact ⟨h.1, rfl⟩

/-- From any state, whatever bytes come. -/
theorem run_sound (s : Keys) (scs : List UInt8) : ∀ k ∈ (s.run scs).2, isSound false k = true := by
  induction scs generalizing s with
  | nil => exact fun _ h => nomatch h
  | cons sc scs ih =>
    intro k hk
    rcases List.mem_append.1 hk with hk | hk
    · have hsc := scancode_sound s sc
      rw [Option.mem_toList.1 hk] at hsc
      exact isSound_off hsc
    · exact ih _ k hk

/-- While caps is on. -/
theorem run_caps {s : Keys} (hs : s.caps = true) {scs : List UInt8} (hn : scanCaps ∉ scs) :
    (s.run scs).1.caps = true ∧ ∀ k ∈ (s.run scs).2, isSound true k = true := by
  induction scs generalizing s with
  | nil => exact ⟨hs, fun _ h => nomatch h⟩
  | cons sc scs ih =>
    have hkeep : (s.scancode sc).1.caps = true := by
      rcases scancode_caps s sc with h | h
      · rw [h, hs]
      · exact absurd (h ▸ List.mem_cons_self) hn
    obtain ⟨hend, hall⟩ := ih hkeep fun h => hn (List.mem_cons_of_mem _ h)
    refine ⟨hend, fun k hk => ?_⟩
    rcases List.mem_append.1 hk with hk | hk
    · have hsc := scancode_sound s sc
      rw [Option.mem_toList.1 hk, hs] at hsc
      exact hsc
    · exact hall k hk

/-! ## Typing -/

/-- The scan codes of a character: its key goes down and up, between those of the left shift when it
stands on the second map. -/
def strokes (c : UInt8) : List UInt8 :=
  match plainKeys.find? fun e => e.2 == c with
  | some e => [e.1, e.1 ||| scanRelease]
  | none =>
    match shiftKeys.find? fun e => e.2 == c with
    | some e => [scanLshift, e.1, e.1 ||| scanRelease, scanLshift ||| scanRelease]
    | none => []

/-- No key is down. -/
def atRest (caps : Bool) : Keys := ⟨false, caps, false, false⟩

/-- With caps on a small letter comes as a capital, and a capital too. -/
def withCaps (caps : Bool) (c : UInt8) : UInt8 := if caps && isSmall c then c - 97 + 65 else c

theorem run_strokes (caps : Bool) {c : UInt8} (hc : isTypable c = true) :
    (atRest caps).run (strokes c) = (atRest caps, [.char (withCaps caps c)]) := by
  obtain ⟨n, hn, rfl⟩ : ∃ n < 256, c = UInt8.ofNat n := ⟨c.toNat, c.toNat_lt, by simp⟩
  revert hc
  revert n
  revert caps
  decide +kernel

theorem run_text (caps : Bool) {text : List UInt8} (ht : ∀ c ∈ text, isTypable c = true) :
    (atRest caps).run (text.flatMap strokes) = (atRest caps, text.map fun c => .char (withCaps caps c)) := by
  induction text with
  | nil => rfl
  | cons c text ih =>
    rw [List.flatMap_cons, run_append, run_strokes caps (ht c List.mem_cons_self),
      ih fun b hb => ht b (List.mem_cons_of_mem _ hb)]
    rfl

end Keys

/-! ## The controller -/

structure Input where
  queue : List (Bool × UInt8)
  keys : Keys
  mouse : Mouse
  fed : List Stroke

namespace Input

/-- A byte of the controller; it is marked when it is from the mouse. -/
def take (s : Input) (e : Bool × UInt8) : Input :=
  if e.1 then { s with mouse := (s.mouse.onByte e.2).1 }
  else { s with keys := (s.keys.scancode e.2).1, fed := s.fed ++ (s.keys.scancode e.2).2.toList }

/-- The loop of `kbd_handle`. -/
def turns : Nat → Input → Input
  | 0, s => s
  | n + 1, s =>
    match s.queue with
    | [] => s
    | e :: rest => turns n (take { s with queue := rest } e)

def kbdHandle (s : Input) : Input := turns 16 s

/-- Bytes come and interrupts fall. -/
inductive Event where
  | arrive (e : Bool × UInt8)
  | irq

def step (s : Input) : Event → Input
  | .arrive e => { s with queue := s.queue ++ [e] }
  | .irq => kbdHandle s

def run (s : Input) (es : List Event) : Input := es.foldl step s

def arrived : List Event → List (Bool × UInt8)
  | [] => []
  | .arrive e :: es => e :: arrived es
  | .irq :: es => arrived es

/-- The bytes of one device. -/
def bytes (aux : Bool) (q : List (Bool × UInt8)) : List UInt8 := (q.filter fun e => e.1 == aux).map (·.2)

/-- Each device has had its own bytes, in their order. -/
structure Served (s0 : Input) (got : List (Bool × UInt8)) (s : Input) : Prop where
  keys : s.keys = (s0.keys.run (bytes false got)).1
  fed : s.fed = s0.fed ++ (s0.keys.run (bytes false got)).2
  mouse : s.mouse = (s0.mouse.feed (bytes true got)).1

theorem feed_append (s : Mouse) (a b : List UInt8) : (s.feed (a ++ b)).1 = ((s.feed a).1.feed b).1 := by
  induction a generalizing s with
  | nil => rfl
  | cons x a ih => exact ih _

theorem bytes_append (aux : Bool) (p q : List (Bool × UInt8)) :
    bytes aux (p ++ q) = bytes aux p ++ bytes aux q := by
  simp [bytes]

variable {s0 s : Input} {got : List (Bool × UInt8)}

theorem served_refl (s : Input) : Served s [] s := ⟨rfl, by simp [bytes, Keys.run], rfl⟩

theorem Served.take (h : Served s0 got s) (e : Bool × UInt8) : Served s0 (got ++ [e]) (s.take e) := by
  obtain ⟨aux, b⟩ := e
  cases aux with
  | true =>
    have hk : bytes false (got ++ [(true, b)]) = bytes false got := by simp [bytes]
    have hm : bytes true (got ++ [(true, b)]) = bytes true got ++ [b] := by simp [bytes]
    refine ⟨?_, ?_, ?_⟩
    · rw [hk]
      exact h.keys
    · rw [hk]
      exact h.fed
    · rw [hm, feed_append, ← h.mouse]
      rfl
  | false =>
    have hk : bytes false (got ++ [(false, b)]) = bytes false got ++ [b] := by simp [bytes]
    have hm : bytes true (got ++ [(false, b)]) = bytes true got := by simp [bytes]
    refine ⟨?_, ?_, ?_⟩
    · rw [hk, Keys.run_append, ← h.keys]
      rfl
    · rw [hk, Keys.run_append, ← h.keys, ← List.append_assoc, ← h.fed]
      simp [Input.take, Keys.run]
    · rw [hm]
      exact h.mouse

theorem take_queue (s : Input) (e : Bool × UInt8) : (s.take e).queue = s.queue := by
  unfold take
  split <;> rfl

/-- `n` turns take the first `n` bytes. -/
theorem Served.turns (h : Served s0 got s) (n : Nat) :
    Served s0 (got ++ s.queue.take n) (turns n s) ∧ (Input.turns n s).queue = s.queue.drop n := by
  induction n generalizing s got with
  | zero => simpa [Input.turns] using h
  | succ n ih =>
    cases hq : s.queue with
    | nil => simpa [Input.turns, hq] using h
    | cons e rest =>
      have hnext : Served s0 (got ++ [e]) (Input.take { s with queue := rest } e) :=
        Served.take (s := { s with queue := rest }) ⟨h.keys, h.fed, h.mouse⟩ e
      obtain ⟨hs, hd⟩ := ih hnext
      rw [take_queue] at hs hd
      rw [Input.turns]
      simp only [hq]
      refine ⟨?_, hd⟩
      simpa using hs

/-- What has come is what the devices have had and what is left. -/
theorem served_run (h : Served s0 got s) (es : List Event) :
    ∃ got', Served s0 got' (s.run es) ∧ got' ++ (s.run es).queue = got ++ s.queue ++ arrived es := by
  induction es generalizing s got with
  | nil => exact ⟨got, h, by simp [arrived, run]⟩
  | cons e es ih =>
    cases e with
    | arrive e =>
      obtain ⟨got', hs, he⟩ := ih (show Served s0 got (s.step (.arrive e)) from ⟨h.keys, h.fed, h.mouse⟩)
      exact ⟨got', hs, by rw [arrived]; simpa [step, run] using he⟩
    | irq =>
      obtain ⟨hs, hd⟩ := h.turns 16
      obtain ⟨got', hs', he⟩ := ih (s := s.step .irq) hs
      refine ⟨got', hs', he.trans ?_⟩
      simp only [step, kbdHandle, hd, List.append_assoc, List.take_append_drop, arrived]

/-- Interrupts go on until the controller is empty. -/
theorem queue_irqs (s : Input) (n : Nat) : (s.run (List.replicate n .irq)).queue = s.queue.drop (16 * n) := by
  induction n generalizing s with
  | zero => rfl
  | succ n ih =>
    have hd : (s.step .irq).queue = s.queue.drop 16 := ((served_refl s).turns 16).2
    rw [List.replicate_succ, run, List.foldl_cons, ← run, ih, hd, List.drop_drop]
    congr 1
    omega

theorem arrived_append (es es' : List Event) : arrived (es ++ es') = arrived es ++ arrived es' := by
  induction es with
  | nil => rfl
  | cons e es ih => cases e <;> simp [arrived, ih]

theorem arrived_irqs (n : Nat) : arrived (List.replicate n .irq) = [] := by
  induction n with
  | zero => rfl
  | succ n ih => exact ih

/-- **What is typed.** Whatever bytes arrive and however the interrupts fall, the characters fed are
printable or a newline, a tab or a backspace (so never 0, and never the 3 that `kbd_feed` takes for
an interrupt); while caps is on none is a small letter. -/
theorem fed_sound (s : Input) (es : List Event) : ∃ new,
    (s.run es).fed = s.fed ++ new ∧ (∀ k ∈ new, Keys.isSound false k = true) ∧
    (s.keys.caps = true → scanCaps ∉ bytes false (s.queue ++ arrived es) → ∀ k ∈ new,
    Keys.isSound true k = true) := by
  obtain ⟨got, hs, he⟩ := served_run (served_refl s) es
  refine ⟨_, hs.fed, Keys.run_sound _ _, fun hcaps hn => (Keys.run_caps hcaps fun h => hn ?_).2⟩
  rw [List.nil_append] at he
  rw [← he, bytes_append]
  exact List.mem_append_left _ h

/-- **A text comes through.** The scan codes of a text arrive with bytes of the mouse among them in
any way, and interrupts fall at any time and at the end: the characters of the text are fed in
order, no key stays down, and the mouse is where its packets lead. -/
theorem typed_run {s : Input} (hq : s.queue = []) {caps : Bool} (hk : s.keys = Keys.atRest caps)
    (hm : s.mouse.pktI = 0) {text : List UInt8} (ht : ∀ c ∈ text, Keys.isTypable c = true)
    (es : List Event) (he : bytes false (arrived es) = text.flatMap Keys.strokes) {n : Nat}
    (hn : (arrived es).length ≤ 16 * n) :
    (s.run (es ++ List.replicate n .irq)).fed = s.fed ++ text.map (fun c => .char (Keys.withCaps caps c)) ∧
      (s.run (es ++ List.replicate n .irq)).keys = Keys.atRest caps ∧
      (s.run (es ++ List.replicate n .irq)).mouse.spot =
        (s.mouse.spot.follow s.mouse.maxX s.mouse.maxY
          (Mouse.packets (bytes true (arrived es)))).1 := by
  have hempty : (s.run (es ++ List.replicate n .irq)).queue = [] := by
    obtain ⟨got, -, hall⟩ := served_run (served_refl s) es
    have hlen := congrArg List.length hall
    simp only [hq, List.append_nil, List.nil_append, List.length_append] at hlen
    rw [run, List.foldl_append, ← run, ← run, queue_irqs, List.drop_eq_nil_iff]
    omega
  obtain ⟨got, hs, hall⟩ := served_run (served_refl s) (es ++ List.replicate n .irq)
  rw [hempty, hq, arrived_append, arrived_irqs, List.append_nil, List.append_nil, List.append_nil,
    List.nil_append] at hall
  rw [hall] at hs
  have hrun := Keys.run_text caps ht
  refine ⟨?_, ?_, ?_⟩
  · rw [hs.fed, hk, he, hrun]
  · rw [hs.keys, hk, he, hrun]
  · rw [hs.mouse]
    exact (Mouse.feed_packets _ hm).1

/-- Two letters, typed while the mouse moves and clicks. -/
def busyHands : List Event :=
  [.arrive (false, 0x23), .irq, .arrive (true, 0x09), .arrive (false, 0xA3), .arrive (true, 3),
    .arrive (false, 0x2A), .irq,
   .arrive (false, 0x17), .arrive (true, 4), .arrive (false, 0x97), .arrive (false, 0xAA)]

def idle : Input where
  queue := []
  keys := Keys.atRest false
  mouse := { mx := 160, my := 100, maxX := 320, maxY := 200, ptrX := 160, ptrY := 100,
             ptrOn := false, leftDown := false,
             pkt := fun _ => 0, pktI := 0 }
  fed := []

theorem typed_run_busyHands : (idle.run (busyHands ++ List.replicate 1 .irq)).fed = [.char 104, .char 73] ∧
    (idle.run (busyHands ++ List.replicate 1 .irq)).keys = Keys.atRest false ∧
    (idle.run (busyHands ++ List.replicate 1 .irq)).mouse.spot = ⟨163, 96, true⟩ :=
  @typed_run idle rfl false rfl rfl [104, 73]
    (List.forall_mem_cons.2 ⟨rfl, List.forall_mem_singleton.2 rfl⟩) busyHands (by decide) 1
    (by decide)

end Input

end VampireOS.Keyboard
