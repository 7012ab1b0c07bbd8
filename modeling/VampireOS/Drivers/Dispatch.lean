import Mathlib.Data.List.TakeWhile
import VampireOS.Drivers.Console

/-!
# The two dispatchers of the kernel (kernel/kbd.c:779-864, 949-1039)

| here | there |
| --- | --- |
| `Verb`, `Verb.name`, `Verb.exact` | the commands; an exact one is compared with `streq` |
| `Command` | the function called, and the text handed to it |
| `runLine`, `runLineVerbs` | `run_line`, and the order of its tests |
| `dollarCommand`, `dollarVerbs` | `kbd_dollar_builtin`, and the order of its tests behind `isBuiltin` |

A line is what was typed, without the newline.
-/

namespace VampireOS

inductive Verb where
  | help | mem | uptime | date | pwd | ps | kill | ls | cat | run | put | rmdir | rm | mv | cp | ln
  | fill | trunc | sync
  | devs | mkdir | cd
deriving DecidableEq, Repr

def Verb.name : Verb → Name
  | help => ascii ['h', 'e', 'l', 'p']
  | mem => ascii ['m', 'e', 'm']
  | uptime => ascii ['u', 'p', 't', 'i', 'm', 'e']
  | date => ascii ['d', 'a', 't', 'e']
  | pwd => ascii ['p', 'w', 'd']
  | ps => ascii ['p', 's']
  | kill => ascii ['k', 'i', 'l', 'l']
  | ls => ascii ['l', 's']
  | cat => ascii ['c', 'a', 't']
  | run => ascii ['r', 'u', 'n']
  | put => ascii ['p', 'u', 't']
  | rmdir => ascii ['r', 'm', 'd', 'i', 'r']
  | rm => ascii ['r', 'm']
  | mv => ascii ['m', 'v']
  | cp => ascii ['c', 'p']
  | ln => ascii ['l', 'n']
  | fill => ascii ['f', 'i', 'l', 'l']
  | trunc => ascii ['t', 'r', 'u', 'n', 'c']
  | sync => ascii ['s', 'y', 'n', 'c']
  | devs => ascii ['d', 'e', 'v', 's']
  | mkdir => ascii ['m', 'k', 'd', 'i', 'r']
  | cd => ascii ['c', 'd']

/-- Compared as a whole. -/
def Verb.exact : Verb → Bool
  | help | mem | uptime | date | pwd | ps | sync | devs => true
  | _ => false

def Verb.test (s : Name) (v : Verb) : Bool := if v.exact then s = v.name else cmdIs s v.name

/-- What is behind the name. -/
def Verb.arg (s : Name) (v : Verb) : Name := if v.exact then [] else s.drop v.name.length

inductive Command where
  | verb (v : Verb) (arg : Name)
  | pipeLine (cmd : Name)
  | redirLine (cmd : Name)
  | unknown
deriving DecidableEq, Repr

def runLineVerbs : List Verb :=
  [.help, .mem, .uptime, .date, .pwd, .ps, .kill, .ls, .cat, .run, .put, .rmdir, .rm, .mv, .cp,
  .ln, .fill, .trunc, .sync, .devs, .mkdir, .cd]

/-- A blank line runs nothing. -/
def runLine (line : Name) : Option Command :=
  let cmd := stripped line
  if cmd = [] then none
  else if cmd.contains 124 then some (.pipeLine cmd)
  else if cmd.any fun c => c = 60 || c = 62 then some (.redirLine cmd)
  else
    match runLineVerbs.find? (Verb.test cmd) with
    | some v => some (.verb v (v.arg cmd))
    | none => some .unknown

/-- `mv` is what is left. -/
def dollarVerbs : List Verb :=
  [.ps, .kill, .help, .mem, .date, .sync, .devs, .mkdir, .fill, .trunc, .run, .ls, .cat, .cp, .ln,
    .rm]

/-- `ls` and `cat` are plain only. -/
def dollarTest (s : Name) (v : Verb) : Bool :=
  match v with
  | .ls | .cat => v.test s && !lineHasMeta s
  | _ => v.test s

/-- The result 0 is `none`. -/
def dollarCommand (line : Name) : Option Command :=
  if line.length + 1 ≥ lineMax then none
  else if isBuiltin line then
    let s := stripped line
    let v := (dollarVerbs.find? (dollarTest s)).getD .mv
    some (.verb v (v.arg s))
  else none

/-! ## One verb a line -/

/-- The first word of a line without a blank in front. -/
def firstWord (s : Name) : Name := s.takeWhile (· ≠ blank)

theorem name_plain (v : Verb) : v.name ≠ [] ∧ ∀ c ∈ v.name, c ≠ blank := by
  cases v <;> decide +kernel

theorem find_name (v : Verb) : runLineVerbs.find? (fun w => w.name = v.name) = some v := by
  cases v <;> decide +kernel

theorem name_inj {v w : Verb} (h : v.name = w.name) : v = w := by
  have hv := find_name v
  rw [h, find_name w] at hv
  exact (Option.some.inj hv).symm

theorem firstWord_of_cmdIs {s x : Name} (hx : ∀ c ∈ x, c ≠ blank) (h : cmdIs s x = true) :
    firstWord s = x := by
  unfold cmdIs at h
  rw [Bool.and_eq_true, List.isPrefixOf_iff_prefix] at h
  obtain ⟨⟨t, rfl⟩, ht⟩ := h
  rw [List.drop_left] at ht
  unfold firstWord
  rw [List.takeWhile_append_of_pos fun c hc => by simpa using hx c hc]
  cases t with
  | nil => simp
  | cons c t =>
    have hc : c = blank := by simpa using ht
    simp [hc]

theorem firstWord_of_test {s : Name} {v : Verb} (h : v.test s = true) : firstWord s = v.name := by
  have hplain := (name_plain v).2
  unfold Verb.test at h
  split at h
  · obtain rfl : s = v.name := by simpa using h
    unfold firstWord
    rw [List.takeWhile_eq_self_iff]
    exact fun c hc => by simpa using hplain c hc
  · exact firstWord_of_cmdIs hplain h

/-- No line is two commands. -/
theorem test_unique {s : Name} {v w : Verb} (hv : v.test s = true) (hw : w.test s = true) : v = w :=
  name_inj ((firstWord_of_test hv).symm.trans (firstWord_of_test hw))

/-- The order of the tests does not matter. -/
theorem find_test {s : Name} {v : Verb} (hv : v.test s = true) {l : List Verb} (hl : v ∈ l) :
    l.find? (Verb.test s) = some v := by
  have hsome : (l.find? (Verb.test s)).isSome := by
    rw [List.find?_isSome]
    exact ⟨v, hl, hv⟩
  obtain ⟨w, hw⟩ := Option.isSome_iff_exists.1 hsome
  rw [hw, test_unique hv (List.find?_some hw)]

/-! ## Blanks do not matter -/

theorem any_dropWhile_blank {p : UInt8 → Bool} (hp : p blank = false) (l : Name) :
    (l.dropWhile (· == blank)).any p = l.any p := by
  induction l with
  | nil => rfl
  | cons c l ih =>
    by_cases hc : c = blank
    · simp [hc, hp, ih]
    · simp [hc]

theorem lineHasMeta_stripped (line : Name) : lineHasMeta (stripped line) = lineHasMeta line := by
  have hblank : [124, 60, 62].contains blank = false := by decide
  unfold lineHasMeta stripped
  rw [List.any_reverse, any_dropWhile_blank hblank, List.any_reverse, any_dropWhile_blank hblank]

theorem lineHasMeta_iff (s : Name) :
    lineHasMeta s = true ↔ s.contains 124 = true ∨ (s.any fun c => c = 60 || c = 62) = true := by
  unfold lineHasMeta
  rw [List.any_eq_true, List.any_eq_true, List.contains_iff_mem]
  constructor
  · rintro ⟨c, hc, h⟩
    simp only [List.contains_cons, List.contains_nil, Bool.or_false, Bool.or_eq_true, beq_iff_eq] at h
    rcases h with rfl | h
    · exact .inl hc
    · exact .inr ⟨c, hc, by simpa using h⟩
  · rintro (h | ⟨c, hc, h⟩)
    · exact ⟨124, h, by decide⟩
    · refine ⟨c, hc, ?_⟩
      simp only [Bool.or_eq_true, decide_eq_true_eq] at h
      simp [h]

/-! ## The two of them -/

/-- The first test of `kbd_dollar_builtin` is one of the verbs. -/
theorem isBuiltin_verb {line : Name} (h : isBuiltin line = true) : ∃ v, v.test (stripped line) = true ∧
    (v = .mv ∨ v ∈ dollarVerbs) ∧ (v = .ls ∨ v = .cat → lineHasMeta (stripped line) = false) := by
  have exact : ∀ v : Verb, v.exact = true → stripped line = v.name → v.test (stripped line) =
      true := fun v hv hs => by
    simp [Verb.test, hv, hs]
  have begins : ∀ v : Verb, v.exact = false → cmdIs (stripped line) v.name = true →
      v.test (stripped line) = true := fun v hv hs => by
    simp [Verb.test, hv, hs]
  unfold isBuiltin at h
  simp only [Bool.or_eq_true, Bool.and_eq_true, Bool.not_eq_true', List.contains_cons,
    List.contains_nil, List.any_cons, List.any_nil, beq_iff_eq, Bool.false_eq_true, or_false] at h
  rcases h with ((h | h) | h) | h
  · rcases h with h | h | h | h | h | h
    · exact ⟨.ps, exact .ps rfl h, by decide, by simp⟩
    · exact ⟨.help, exact .help rfl h, by decide, by simp⟩
    · exact ⟨.sync, exact .sync rfl h, by decide, by simp⟩
    · exact ⟨.devs, exact .devs rfl h, by decide, by simp⟩
    · exact ⟨.mem, exact .mem rfl h, by decide, by simp⟩
    · exact ⟨.date, exact .date rfl h, by decide, by simp⟩
  · rcases h with h | h | h | h | h | h | h | h | h
    · exact ⟨.mkdir, begins .mkdir rfl h, by decide, by simp⟩
    · exact ⟨.mv, begins .mv rfl h, by decide, by simp⟩
    · exact ⟨.cp, begins .cp rfl h, by decide, by simp⟩
    · exact ⟨.ln, begins .ln rfl h, by decide, by simp⟩
    · exact ⟨.rm, begins .rm rfl h, by decide, by simp⟩
    · exact ⟨.fill, begins .fill rfl h, by decide, by simp⟩
    · exact ⟨.trunc, begins .trunc rfl h, by decide, by simp⟩
    · exact ⟨.run, begins .run rfl h, by decide, by simp⟩
    · exact ⟨.kill, begins .kill rfl h, by decide, by simp⟩
  · exact ⟨.cat, begins .cat rfl h.1, by decide, fun _ => h.2⟩
  · exact ⟨.ls, begins .ls rfl h.1, by decide, fun _ => h.2⟩

theorem dollarTest_of {s : Name} {v : Verb} (h : v.test s = true)
    (hplain : v = .ls ∨ v = .cat → lineHasMeta s = false) :
    dollarTest s v = true := by
  unfold dollarTest
  split
  · simp [h, hplain (.inl rfl)]
  · simp [h, hplain (.inr rfl)]
  · exact h

theorem test_of_dollarTest {s : Name} {v : Verb} (h : dollarTest s v = true) : v.test s = true := by
  unfold dollarTest at h
  split at h
  · exact (Bool.and_eq_true_iff.1 h).1
  · exact (Bool.and_eq_true_iff.1 h).1
  · exact h

/-- What the interrupt runs is the verb of the line. -/
theorem dollarCommand_verb {line : Name} {c : Command} (h : dollarCommand line = some c) :
    ∃ v, v.test (stripped line) = true ∧ c = .verb v (v.arg (stripped line)) := by
  unfold dollarCommand at h
  split at h
  · cases h
  · split at h
    · rename_i hb
      obtain ⟨v, hv, hl, hplain⟩ := isBuiltin_verb hb
      refine ⟨v, hv, ?_⟩
      have hfind : (dollarVerbs.find? (dollarTest (stripped line))).getD .mv = v := by
        cases hf : dollarVerbs.find? (dollarTest (stripped line)) with
        | none =>
          rcases hl with rfl | hl
          · rfl
          · exact absurd (dollarTest_of hv hplain) (List.find?_eq_none.1 hf v hl)
        | some w => exact test_unique (test_of_dollarTest (List.find?_some hf)) hv
      simp only [hfind] at h
      exact (Option.some.inj h).symm
    · cases h

/-- A verb in a line without metacharacters. -/
theorem runLine_verb {line : Name} {v : Verb} (hv : v.test (stripped line) = true)
    (h : lineHasMeta line = false) :
    runLine line = some (.verb v (v.arg (stripped line))) := by
  have hmeta : ¬lineHasMeta (stripped line) = true := by
    rw [lineHasMeta_stripped, h]
    exact nofun
  rw [lineHasMeta_iff, not_or] at hmeta
  have hne : stripped line ≠ [] := by
    intro h0
    have hw := firstWord_of_test hv
    rw [h0] at hw
    exact (name_plain v).1 hw.symm
  unfold runLine
  simp only
  rw [if_neg hne, if_neg hmeta.1, if_neg hmeta.2, find_test hv (by cases v <;> decide +kernel)]

/-- **The dispatchers agree** on a line that both take exactly when it has no metacharacter. -/
theorem dispatch_agrees {line : Name} {c : Command} (h : dollarCommand line = some c) :
    runLine line = some c ↔ lineHasMeta line = false := by
  obtain ⟨v, hv, rfl⟩ := dollarCommand_verb h
  constructor
  · intro hrun
    by_contra hmeta
    rw [Bool.not_eq_false, ← lineHasMeta_stripped, lineHasMeta_iff] at hmeta
    unfold runLine at hrun
    simp only at hrun
    split at hrun
    · cases hrun
    · split at hrun
      · cases hrun
      · rename_i hbar
        rw [if_pos (hmeta.resolve_left hbar)] at hrun
        cases hrun
  · exact runLine_verb hv

/-- `run cat` is run by both. -/
theorem dispatch_agrees_run : let line := ascii ['r', 'u', 'n', ' ', 'c', 'a', 't']
    dollarCommand line = some (.verb .run (ascii [' ', 'c', 'a', 't'])) ∧
    (runLine line = some (.verb .run (ascii [' ', 'c', 'a', 't'])) ↔ lineHasMeta line = false) :=
  ⟨by decide, dispatch_agrees (by decide)⟩

/-- `rm a > b`: the interrupt removes ` a > b`, the kernel's own line redirects. -/
theorem operator_in_argument : let line := ascii ['r', 'm', ' ', 'a', ' ', '>', ' ', 'b']
    dollarCommand line = some (.verb .rm (ascii [' ', 'a', ' ', '>', ' ', 'b'])) ∧
      runLine line = some (.redirLine line) := by
  decide

end VampireOS
