import VampireOS.Sched.Reads

/-!
# The console line (kernel/kbd.c)

| here | there |
| --- | --- |
| `Kbd` | `stdin_buf`, `stdin_len`, `stdin_have`, `stdin_ready` (kbd.c:66-69) |
| `Kbd.feed` | `kbd_feed` while a task reads the console (kbd.c:1107-1151) |
| `Kbd.take` | `kbd_stdin_take` (kbd.c:924) |
| `isBuiltin` | the test of `kbd_dollar_builtin` (kbd.c:961-1000) |
| `readConsoles` | console `SYS_READ` calls with writable buffers (user.c:1370) |

Ctrl+C raises a signal and leaves the line alone.
-/

namespace VampireOS

open Lib

/-- `LINE_MAX` (kbd.c:28). -/
def lineMax : Nat := 80

def newline : UInt8 := 10
def backspace : UInt8 := 8
def tabKey : UInt8 := 9
def ctrlC : UInt8 := 3

def ascii (cs : List Char) : Name := cs.map fun c => UInt8.ofNat c.toNat

/-! ## Kernel commands -/

/-- `cmd_is`. -/
def cmdIs (line cmd : Name) : Bool := cmd.isPrefixOf line && ((line.drop cmd.length).head?.all (· == blank))

/-- `line_has_meta`. -/
def lineHasMeta (s : Name) : Bool := s.any fun c => [124, 60, 62].contains c

/-- Without the blanks at both ends. -/
def stripped (s : Name) : Name := ((s.dropWhile (· == blank)).reverse.dropWhile (· == blank)).reverse

/-- The commands that are run by the kernel at `$`. -/
def isBuiltin (line : Name) : Bool :=
  let s := stripped line
  [ascii ['p', 's'], ascii ['h', 'e', 'l', 'p'], ascii ['s', 'y', 'n', 'c'], ascii ['d', 'e', 'v', 's'],
    ascii ['m', 'e', 'm'], ascii ['d', 'a', 't', 'e']].contains s ||
  [ascii ['m', 'k', 'd', 'i', 'r'], ascii ['m', 'v'], ascii ['c', 'p'], ascii ['l', 'n'], ascii ['r', 'm'],
    ascii ['f', 'i', 'l', 'l'], ascii ['t', 'r', 'u', 'n', 'c'], ascii ['r', 'u', 'n'],
    ascii ['k', 'i', 'l', 'l']].any (cmdIs s) ||
  (cmdIs s (ascii ['c', 'a', 't']) && !lineHasMeta s) || (cmdIs s (ascii ['l', 's']) && !lineHasMeta s)

/-! ## The line buffer -/

structure Kbd where
  stdinBuf : Nat → UInt8
  stdinLen : Nat
  stdinHave : Nat
  stdinReady : Bool

namespace Kbd

/-- The first `n` bytes of the buffer. -/
def bytes (k : Kbd) (n : Nat) : Name := (List.range n).map k.stdinBuf

/-- The line being typed. -/
def text (k : Kbd) : Name := k.bytes k.stdinLen

/-- Append a character while there is room. -/
def push (k : Kbd) (c : UInt8) : Kbd :=
  if k.stdinLen + 1 < lineMax then
    { k with stdinBuf := Function.update k.stdinBuf k.stdinLen c, stdinLen := k.stdinLen + 1 }
  else k

def dollarBuiltin (k : Kbd) : Bool := if k.stdinLen + 1 ≥ lineMax then false else isBuiltin k.text

def feed (k : Kbd) (c : UInt8) : Kbd :=
  if c = 0 ∨ c = ctrlC then k
  else if c = newline then
    if k.dollarBuiltin then { k with stdinLen := 0 }
    else { k.push newline with stdinHave := (k.push newline).stdinLen, stdinLen := 0, stdinReady := true }
  else if c = backspace then { k with stdinLen := k.stdinLen - 1 }
  else if c = tabKey then k
  else k.push c

def take (k : Kbd) (max : Nat) : Kbd × Option Name :=
  if k.stdinReady = false then (k, none)
  else ({ k with stdinReady := false, stdinHave := 0 }, some (k.bytes (min k.stdinHave max)))

/-- The line that is ready, as the scheduler's model keeps it. -/
def pending (k : Kbd) : Option Name := if k.stdinReady then some (k.bytes k.stdinHave) else none

/-- What console reads with the maxima `ms` return, one after the other; a read that blocks returns
nothing. -/
def readConsoles (k : Kbd) : List Nat → Name
  | [] => []
  | m :: ms =>
    if min m fileMax = 0 then k.readConsoles ms
    else
      match k.take (min m fileMax) with
      | (k, none) => k.readConsoles ms
      | (k, some out) => out ++ k.readConsoles ms

end Kbd

/-! ## The edited line -/

/-- One character of line editing. -/
def editStep (s : Name) (c : UInt8) : Name :=
  if c = 0 ∨ c = tabKey then s else if c = backspace then s.dropLast else s ++ [c]

def edited (cs : Name) : Name := cs.foldl editStep []

/-- Typed characters before the newline: the text with a newline fits the buffer after each of them. -/
structure Typed (cs : Name) : Prop where
  plain : ∀ c ∈ cs, c ≠ newline ∧ c ≠ ctrlC
  fits : ∀ n, (edited (cs.take n)).length + 1 ≤ lineMax

/-- The reads return the edited line and its newline. -/
def ReadsWhole (k : Kbd) (cs : Name) (ms : List Nat) : Prop :=
  ((cs ++ [newline]).foldl Kbd.feed k).readConsoles ms = edited cs ++ [newline]

/-! ## Typing -/

namespace Kbd

theorem bytes_succ (k : Kbd) (n : Nat) : k.bytes (n + 1) = k.bytes n ++ [k.stdinBuf n] := by
  simp [bytes, List.range_succ]

theorem length_bytes (k : Kbd) (n : Nat) : (k.bytes n).length = n := by simp [bytes]

theorem take_bytes (k : Kbd) {n m : Nat} (h : n ≤ m) : (k.bytes m).take n = k.bytes n := by
  unfold bytes
  rw [← List.map_take, List.take_range, Nat.min_eq_left h]

theorem bytes_push (k : Kbd) (c : UInt8) (h : k.stdinLen + 1 < lineMax) :
    (k.push c).text = k.text ++ [c] := by
  unfold push text
  rw [if_pos h]
  dsimp only
  rw [bytes_succ]
  dsimp only
  rw [Function.update_self]
  congr 1
  refine List.map_congr_left fun i hi => ?_
  exact Function.update_of_ne (Nat.ne_of_lt (List.mem_range.1 hi)) _ _

/-- One character edits the text, as long as the result leaves room for a newline. -/
theorem text_feed (k : Kbd) {c : UInt8} (hc : c ≠ newline ∧ c ≠ ctrlC)
    (hfit : (editStep k.text c).length + 1 ≤ lineMax) :
    (k.feed c).text = editStep k.text c := by
  unfold feed editStep at *
  have hlen : k.text.length = k.stdinLen := length_bytes k _
  by_cases h0 : c = 0
  · simp [h0]
  by_cases hb : c = backspace
  · subst hb
    rw [if_neg (by decide), if_neg (by decide), if_pos rfl, if_neg (by decide), if_pos rfl,
      List.dropLast_eq_take, hlen]
    exact (take_bytes k (Nat.sub_le _ _)).symm
  by_cases ht : c = tabKey
  · subst ht
    rw [if_neg (by decide), if_neg (by decide), if_neg (by decide), if_pos rfl, if_pos (Or.inr rfl)]
  · have hplain : ¬(c = 0 ∨ c = ctrlC) := by simp [h0, hc.2]
    have hkey : ¬(c = 0 ∨ c = tabKey) := by simp [h0, ht]
    rw [if_neg hkey, if_neg hb] at hfit ⊢
    rw [if_neg hplain, if_neg hc.1, if_neg hb, if_neg ht]
    rw [List.length_append, List.length_singleton, hlen] at hfit
    exact bytes_push k c (by omega)

/-- After any number of characters the buffer holds the edited text. -/
theorem text_feeds {cs : Name} (ht : Typed cs) {k : Kbd} (h0 : k.stdinLen = 0) :
    ∀ n, ((cs.take n).foldl feed k).text = edited (cs.take n) := by
  intro n
  induction n with
  | zero => simp [text, bytes, h0, edited]
  | succ n ih =>
    by_cases hn : n < cs.length
    · rw [List.take_succ_eq_append_getElem hn, List.foldl_append, List.foldl_cons, List.foldl_nil]
      have hstep : edited (cs.take n ++ [cs[n]]) = editStep (edited (cs.take n)) cs[n] := by
        unfold edited
        rw [List.foldl_append, List.foldl_cons, List.foldl_nil]
      have hfit := ht.fits (n + 1)
      rw [List.take_succ_eq_append_getElem hn, hstep, ← ih] at hfit
      rw [text_feed _ (ht.plain _ (List.getElem_mem hn)) hfit, ih, hstep]
    · rw [List.take_of_length_le (by omega)]
      rw [List.take_of_length_le (by omega)] at ih
      exact ih

/-- What the newline makes ready: the text, and the newline when there is room for it. -/
theorem pending_newline {k : Kbd} (hb : isBuiltin k.text = false) :
    (k.feed newline).pending =
      some (if k.text.length + 1 < lineMax then k.text ++ [newline] else k.text) := by
  have hlen : k.text.length = k.stdinLen := length_bytes k _
  have hd : k.dollarBuiltin = false := by
    unfold dollarBuiltin
    split
    · rfl
    · exact hb
  have hfeed : k.feed newline =
      { k.push newline with stdinHave := (k.push newline).stdinLen, stdinLen := 0, stdinReady := true } := by
    unfold feed
    rw [if_neg (by decide), if_pos rfl, hd, if_neg (by decide)]
  rw [hfeed, pending, if_pos rfl, hlen]
  by_cases h : k.stdinLen + 1 < lineMax
  · rw [if_pos h]
    exact congrArg some (bytes_push k newline h)
  · rw [if_neg h]
    unfold push
    rw [if_neg h]
    rfl

/-! ## Reading -/

theorem take_pending (k : Kbd) (max : Nat) : (k.take max).2 = k.pending.map (·.take max) ∧
    (k.pending.isSome → (k.take max).1.pending = none) := by
  unfold take pending
  cases k.stdinReady with
  | false => exact ⟨rfl, fun h => by cases h⟩
  | true =>
    refine ⟨congrArg some ?_, fun _ => rfl⟩
    rw [← take_bytes k (Nat.min_le_left k.stdinHave max), List.take_eq_take_iff, length_bytes]
    omega

/-- Without a line nothing is returned. -/
theorem readConsoles_none {k : Kbd} (h : k.pending = none) (ms : List Nat) : k.readConsoles ms = [] := by
  induction ms with
  | nil => rfl
  | cons m ms ih =>
    unfold readConsoles
    split
    · exact ih
    · have hready : k.stdinReady = false := by
        unfold pending at h
        cases hr : k.stdinReady with
        | false => rfl
        | true => rw [hr, if_pos rfl] at h; cases h
      rw [take, if_pos hready]
      exact ih

/-- The line goes to the first read that asks for anything; what does not fit is lost. -/
theorem readConsoles_some {k : Kbd} {line : Name} (h : k.pending = some line) (ms : List Nat) :
    k.readConsoles ms = ((ms.find? (· ≠ 0)).map fun m => line.take (min m fileMax)).getD [] := by
  induction ms with
  | nil => rfl
  | cons m ms ih =>
    unfold readConsoles
    by_cases hm : m = 0
    · subst hm
      rw [if_pos (Nat.zero_min _), ih, List.find?_cons_of_neg (by simp)]
    · rw [if_neg (by simp only [fileMax]; omega), List.find?_cons_of_pos (by simpa using hm)]
      obtain ⟨h1, h2⟩ := take_pending k (min m fileMax)
      rw [h, Option.map_some] at h1
      rcases ht : k.take (min m fileMax) with ⟨k', out⟩
      rw [ht] at h1 h2
      dsimp only at h1 h2
      subst h1
      dsimp only
      rw [readConsoles_none (h2 (by rw [h]; rfl)), List.append_nil]
      rfl

end Kbd

/-- **Console lines reach the reader whole** exactly when there is room for the newline and the
first read that asks for anything asks for the whole line. -/
theorem reads_whole {k : Kbd} {cs : Name} (h0 : k.stdinLen = 0) (ht : Typed cs)
    (hb : isBuiltin (edited cs) = false) (ms : List Nat) : ReadsWhole k cs ms ↔
      (edited cs).length + 1 < lineMax ∧ ∃ m, ms.find? (· ≠ 0) = some m ∧ (edited cs).length + 1 ≤
      m := by
  have htext := Kbd.text_feeds ht h0 cs.length
  rw [List.take_length] at htext
  have hpend := Kbd.pending_newline (htext ▸ hb)
  rw [htext] at hpend
  unfold ReadsWhole
  rw [List.foldl_append, List.foldl_cons, List.foldl_nil, Kbd.readConsoles_some hpend]
  cases hm : ms.find? (· ≠ 0) with
  | none => simp
  | some m =>
    simp only [Option.map_some, Option.getD_some, Option.some.injEq, exists_eq_left']
    by_cases hroom : (edited cs).length + 1 < lineMax
    · rw [if_pos hroom]
      simp only [hroom, true_and]
      rw [List.take_eq_self_iff, List.length_append, List.length_singleton]
      simp only [lineMax, fileMax] at *
      omega
    · rw [if_neg hroom]
      simp only [hroom, false_and, iff_false]
      intro h
      have hlen := congrArg List.length h
      rw [List.length_take, List.length_append, List.length_singleton] at hlen
      omega

/-- The keyboard before anything is typed. -/
def Kbd.init : Kbd := ⟨fun _ => 0, 0, 0, false⟩

theorem length_edited (cs : Name) : (edited cs).length ≤ cs.length := by
  unfold edited
  induction cs using List.reverseRecOn with
  | nil => exact Nat.le_refl _
  | append_singleton cs c ih =>
    rw [List.foldl_append, List.foldl_cons, List.foldl_nil, List.length_append, List.length_singleton]
    generalize cs.foldl editStep [] = line at ih ⊢
    unfold editStep
    split
    · omega
    · split
      · rw [List.length_dropLast]
        omega
      · rw [List.length_append, List.length_singleton]
        omega

theorem typed_of_length {cs : Name} (hp : ∀ c ∈ cs, c ≠ newline ∧ c ≠ ctrlC)
    (h : cs.length + 1 ≤ lineMax) : Typed cs := by
  refine ⟨hp, fun n => ?_⟩
  have h1 := length_edited (cs.take n)
  have h2 := List.length_take_le' n cs
  omega

theorem reads_whole_wx : ReadsWhole .init (ascii ['w', 'c', Char.ofNat 8, 'x']) [0, 39] :=
  (reads_whole (k := .init) rfl (typed_of_length (by decide +kernel) (by decide))
    (by decide +kernel) [0, 39]).2 ⟨by decide, 39, rfl, by decide⟩

/-- A line of 40 bytes and two reads of the shell's 39. -/
theorem long_line_cut : Typed (List.replicate 39 97) ∧ isBuiltin (edited (List.replicate 39 97)) = false ∧
    ¬ReadsWhole .init (List.replicate 39 97) [39, 39] := by
  refine ⟨typed_of_length (fun c hc => ?_) (by decide), by decide +kernel, ?_⟩
  · rw [List.eq_of_mem_replicate hc]
    decide
  · unfold ReadsWhole
    decide +kernel

/-! ## The scheduler's view -/

theorem readConsole_take {M : Type} [MemSys M] {k : Kernel M} {kb : Kbd} (h : k.stdin = kb.pending)
    {want : Nat} (hw : want ≠ 0) : k.readConsole want =
      match kb.take want with
      | (_, none) => k.rewind.schedBlockKbd
      | (kb, some out) => { k with stdin := kb.pending }.answerBytes k.frame.rsi out := by
  unfold Kernel.readConsole
  rw [if_neg hw, h]
  obtain ⟨h1, h2⟩ := kb.take_pending want
  rcases ht : kb.take want with ⟨kb', out⟩
  rw [ht] at h1 h2
  dsimp only at h1 h2
  subst h1
  cases hp : kb.pending with
  | none => rfl
  | some line =>
    rw [hp] at h2
    dsimp only [Option.map_some]
    rw [h2 rfl]

end VampireOS
