import VampireOS.Lib.Text
import VampireOS.Drivers.Console

/-!
# Lines of the shell (user/sh.c:28-65, 84-185)

| here | there |
| --- | --- |
| `skipWs`, `trimEnd`, `cutWord` | `skip_ws`, `trim_end`, `cut_word` |
| `splitFrom`, `splitPipes` | the loop of `split_pipes` with `left` places in `cmds`, `split_pipes` |
| `trimmed` | a stage without the blanks before it and the blanks and line ends behind it |

A line is cut in the buffer it stands in. A pointer is an index there, and `none` a read or a write
outside the buffer; the inner `none` is the result -1.
-/

namespace VampireOS.Shell

open Lib

def bar : UInt8 := 124
def carriage : UInt8 := 13

/-- What `trim_end` takes off. -/
def isEnd (c : UInt8) : Bool := c = blank || c = newline || c = carriage

def skipWs (m : Name) (s : Nat) : Option Nat := scan (· = blank) m s

def trimEnd (m : Name) (s : Nat) : Option Name := trim 0 isEnd m s

/-- The buffer, and where the next word starts. -/
def cutWord (m : Name) (s : Nat) : Option (Name × Nat) := do
  let e ← scan (fun c => c ≠ 0 && c ≠ blank) m s
  let c ← m[e]?
  if c ≠ 0 then
    let m ← setAt m e 0
    some (m, e + 1)
  else some (m, e)

def splitFrom : Nat → Name → Nat → List Nat → Option (Name × Option (List Nat))
  | 0, m, p, _ => do
    -- an empty stage and one too many have the same result
    let start ← skipWs m p
    let _ ← m[start]?
    some (m, none)
  | left + 1, m, p, cmds => do
    let start ← skipWs m p
    let c ← m[start]?
    if c = 0 || c = bar then some (m, none)
    else
      let p ← scan (fun c => c ≠ 0 && c ≠ bar) m p
      let c ← m[p]?
      if c = 0 then
        let m ← trimEnd m start
        if m[start]? = some 0 then some (m, none) else some (m, some (cmds ++ [start]))
      else
        let m ← setAt m p 0
        let m ← trimEnd m start
        if m[start]? = some 0 then some (m, none) else splitFrom left m (p + 1) (cmds ++ [start])

def splitPipes (m : Name) (line max : Nat) : Option (Name × Option (List Nat)) := splitFrom max m line []

/-! ## One stage -/

def trimmed (seg : Name) : Name := (seg.dropWhile (· = blank)).rdropWhile isEnd

section
variable {seg : Name}

theorem blank_split (seg : Name) : seg.takeWhile (· = blank) ++ seg.dropWhile (· = blank) = seg :=
  List.takeWhile_append_dropWhile

/-- `skip_ws` at a stage stops at its first other character, or behind it. -/
theorem skipWs_stage (seg a : Name) {e : UInt8} (he : e ≠ blank) (t : Name) :
    skipWs (a ++ seg ++ e :: t) a.length = some (a ++ seg.takeWhile (· = blank)).length ∧
    (a ++ seg ++ e :: t)[(a ++ seg.takeWhile (· = blank)).length]? =
    some ((seg.dropWhile (· = blank)).headD e) := by
  have hall : ∀ x ∈ seg.takeWhile (· = blank), decide (x = blank) = true := fun x hx =>
    List.mem_takeWhile_imp (p := fun c => decide (c = blank)) hx
  have hlen := @List.length_append _ a (seg.takeWhile (· = blank))
  have hsplit := blank_split seg
  cases hd : seg.dropWhile (· = blank) with
  | nil =>
    rw [hd, List.append_nil] at hsplit
    rw [hsplit] at hall ⊢
    refine ⟨?_, ?_⟩
    · rw [List.length_append]
      exact scan_append a hall (by simpa using he) t
    · rw [List.getElem?_append_right (Nat.le_refl _), Nat.sub_self]
      rfl
  | cons x rest =>
    have hx : decide (x = blank) = false := by
      have := List.head_dropWhile_not (fun c => decide (c = blank)) (show seg.dropWhile _ ≠ [] by simp [hd])
      simpa [hd] using this
    have hm : a ++ seg ++ e :: t = a ++ seg.takeWhile (· = blank) ++ x :: (rest ++ e :: t) := by
      conv_lhs => rw [← hsplit, hd]
      simp
    rw [hm]
    refine ⟨?_, ?_⟩
    · rw [hlen]
      exact scan_append a hall hx _
    · rw [List.getElem?_append_right (Nat.le_refl _), Nat.sub_self]
      rfl

/-- The buffer up to a stage that is cut short, its terminator and what is left of it. -/
def cutStage (a seg : Name) : Name := a ++ seg.takeWhile (· = blank) ++ trimmed seg ++
  0 :: List.replicate ((seg.dropWhile (· = blank)).length - (trimmed seg).length) 0

theorem cutStage_append (a seg : Name) : ∃ w, cutStage a seg = a ++ w := by
  unfold cutStage
  simp only [List.append_assoc]
  exact ⟨_, rfl⟩

theorem cutStage_length (a seg : Name) : (cutStage a seg).length = a.length + seg.length + 1 := by
  have h1 := congrArg List.length (blank_split seg)
  have h2 : (trimmed seg).length ≤ (seg.dropWhile (· = blank)).length :=
    (List.rdropWhile_prefix _ _).length_le
  rw [List.length_append] at h1
  unfold cutStage
  simp only [List.length_append, List.length_cons, List.length_replicate]
  omega

/-- `trim_end` at the first character of a stage. -/
theorem trimEnd_stage (a : Name) (h : (0 : UInt8) ∉ seg) (t : Name) :
    trimEnd (a ++ seg ++ 0 :: t) (a ++ seg.takeWhile (· = blank)).length = some (cutStage a seg ++ t) := by
  have hrest : (0 : UInt8) ∉ seg.dropWhile (· = blank) := fun hx => h ((List.dropWhile_suffix _).subset hx)
  have htrim := trim_append isEnd (a ++ seg.takeWhile (· = blank)) hrest t
  rw [List.append_assoc a, blank_split] at htrim
  refine htrim.trans ?_
  unfold cutStage trimmed
  simp only [List.append_assoc]
  rw [← List.singleton_append, ← List.append_assoc (List.replicate _ 0), ← List.replicate_succ',
    List.replicate_succ]

theorem mem_of_mem_trimmed {x : UInt8} (h : x ∈ trimmed seg) : x ∈ seg :=
  (List.dropWhile_suffix _).subset ((List.rdropWhile_prefix _ _).subset h)

/-- The stage is a text of its own, whatever is behind it. -/
theorem textAt_cutStage (a : Name) (h : (0 : UInt8) ∉ seg) (t : Name) :
    textAt 0 (cutStage a seg ++ t) (a ++ seg.takeWhile (· = blank)).length = trimmed seg := by
  unfold cutStage
  rw [List.append_assoc (_ ++ trimmed seg), List.cons_append]
  exact textAt_append _ (fun hx => h (mem_of_mem_trimmed hx)) _

theorem cutStage_head (a : Name) (h : (0 : UInt8) ∉ seg) (t : Name) :
    (cutStage a seg ++ t)[(a ++ seg.takeWhile (· = blank)).length]? = some 0 ↔ trimmed seg = [] := by
  unfold cutStage
  rw [List.append_assoc (_ ++ trimmed seg), List.append_assoc (a ++ _), List.getElem?_append_right
    (Nat.le_refl _), Nat.sub_self]
  cases ht : trimmed seg with
  | nil => simp
  | cons y ys =>
    have hy : y ∈ seg := mem_of_mem_trimmed (by simp [ht])
    simpa using ne_of_mem_of_not_mem hy h

end

/-! ## The whole line -/

/-- The stages of a line. -/
def stagesOf (line : Name) : List Name := line.splitOn bar

/-- The grammar: at most `max` stages, none of them empty. -/
def Pipeline (max : Nat) (line : Name) : Prop :=
  (stagesOf line).length ≤ max ∧ ∀ seg ∈ stagesOf line, trimmed seg ≠ []

instance (max : Nat) (line : Name) : Decidable (Pipeline max line) := inferInstanceAs (Decidable (_ ∧ _))

/-- One stage, up to its bar or the end of the line. -/
theorem splitFrom_stage (left : Nat) {a seg : Name} {e : UInt8} (he : e = 0 ∨ e = bar)
    (h0 : (0 : UInt8) ∉ seg) (hb : bar ∉ seg) (t : Name) (cmds : List Nat) :
    splitFrom (left + 1) (a ++ seg ++ e :: t) a.length cmds =
      if trimmed seg = [] then some (if seg.dropWhile (· = blank) = [] then a ++ seg ++ e :: t
      else cutStage a seg ++ t, none)
      else if e = 0 then some (cutStage a seg ++ t, some (cmds ++ [(a ++ seg.takeWhile (· = blank)).length]))
      else splitFrom left (cutStage a seg ++ t) (cutStage a seg).length
      (cmds ++ [(a ++ seg.takeWhile (· = blank)).length]) := by
  have heb : e ≠ blank := by
    rcases he with rfl | rfl
    · decide
    · decide
  have hmem : ∀ x ∈ seg, x ≠ 0 ∧ x ≠ bar :=
    fun x hx => ⟨ne_of_mem_of_not_mem hx h0, ne_of_mem_of_not_mem hx hb⟩
  obtain ⟨h1, h2⟩ := skipWs_stage seg a heb t
  have hscan : scan (fun c => c ≠ 0 && c ≠ bar) (a ++ seg ++ e :: t) a.length =
      some (a.length + seg.length) := by
    refine scan_append a (fun x hx => by simpa using hmem x hx) ?_ t
    rcases he with rfl | rfl
    · rfl
    · rfl
  have hread : (a ++ seg ++ e :: t)[a.length + seg.length]? = some e := by
    rw [← List.length_append, List.getElem?_append_right (Nat.le_refl _), Nat.sub_self]
    rfl
  have hput : setAt (a ++ seg ++ e :: t) (a.length + seg.length) 0 = some (a ++ seg ++ 0 :: t) := by
    rw [← List.length_append]
    exact setAt_append _ _ _ _
  rw [splitFrom]
  simp only [h1, h2, Option.bind_eq_bind, Option.bind_some]
  cases hd : seg.dropWhile (· = blank) with
  | nil =>
    have htr : trimmed seg = [] := by
      unfold trimmed
      rw [hd]
      rfl
    rw [if_pos htr, if_pos rfl, List.headD_nil, if_pos (by simpa using he)]
  | cons x rest =>
    have hx : x ∈ seg := (List.dropWhile_suffix _).subset (hd ▸ List.mem_cons_self)
    rw [List.headD_cons, if_neg (by simpa using hmem x hx), if_neg (List.cons_ne_nil _ _), hscan]
    simp only [Option.bind_some, hread, cutStage_length]
    rcases he with rfl | rfl
    · simp only [if_true, trimEnd_stage a h0, Option.bind_some, cutStage_head a h0]
    · have hne : bar ≠ 0 := by decide
      simp only [if_neg hne, hput, trimEnd_stage a h0, Option.bind_some, cutStage_head a h0]

/-- The stages found are those of the line, in a buffer that starts with `a`. -/
theorem splitFrom_spec (left : Nat) : ∀ (line a : Name) (cmds : List Nat), (0 : UInt8) ∉ line →
    (Pipeline left line → ∃ b ptrs, splitFrom left (a ++ line ++ [0]) a.length cmds =
    some (a ++ b, some (cmds ++ ptrs)) ∧
      ptrs.map (textAt 0 (a ++ b)) = (stagesOf line).map trimmed) ∧
    (¬Pipeline left line → ∃ m, splitFrom left (a ++ line ++ [0]) a.length cmds = some (m, none)) := by
  induction left with
  | zero =>
    intro line a cmds h0
    have hpos : 0 < (stagesOf line).length := List.length_pos_iff.2 (List.splitOn_ne_nil bar line)
    refine ⟨fun h => absurd h.1 (by omega), fun _ => ?_⟩
    obtain ⟨h1, h2⟩ := skipWs_stage line a (e := 0) (by decide) []
    exact ⟨a ++ line ++ [0], by simp only [splitFrom, h1, h2, Option.bind_eq_bind, Option.bind_some]⟩
  | succ left ih =>
    intro line a cmds h0
    by_cases hb : bar ∈ line
    · obtain ⟨seg, rest, rfl, hseg⟩ := List.eq_append_cons_of_mem hb
      have hstages : stagesOf (seg ++ bar :: rest) = seg :: stagesOf rest :=
        List.splitOn_append_cons_self_of_not_mem hseg rest
      have hseg0 : (0 : UInt8) ∉ seg := fun hx => h0 (List.mem_append_left _ hx)
      have hrest0 : (0 : UInt8) ∉ rest := fun hx => h0 (List.mem_append_right _ (List.mem_cons_of_mem _ hx))
      have hone := splitFrom_stage left (a := a) (.inr rfl) hseg0 hseg (rest ++ [0]) cmds
      have hpipe : Pipeline (left + 1) (seg ++ bar :: rest) ↔ trimmed seg ≠ [] ∧ Pipeline left rest := by
        unfold Pipeline
        rw [hstages]
        simp only [List.length_cons, List.forall_mem_cons, Nat.add_le_add_iff_right]
        tauto
      rw [show a ++ (seg ++ bar :: rest) ++ [0] = a ++ seg ++ bar :: (rest ++ [0]) by simp, hone,
        hpipe, hstages]
      by_cases htr : trimmed seg = []
      · rw [if_pos htr]
        exact ⟨fun h => absurd htr h.1, fun _ => ⟨_, rfl⟩⟩
      · rw [if_neg htr, if_neg (by decide), ← List.append_assoc]
        obtain ⟨hyes, hno⟩ :=
          ih rest (cutStage a seg) (cmds ++ [(a ++ seg.takeWhile (· = blank)).length]) hrest0
        refine ⟨fun h => ?_, fun h => hno fun hp => h ⟨htr, hp⟩⟩
        obtain ⟨b, ptrs, h1, h2⟩ := hyes h.2
        obtain ⟨w, hw⟩ := cutStage_append a seg
        refine ⟨w ++ b, (a ++ seg.takeWhile (· = blank)).length :: ptrs, ?_, ?_⟩
        · rw [h1, hw]
          simp
        · rw [← List.append_assoc, ← hw, List.map_cons, List.map_cons, h2, textAt_cutStage a hseg0]
    · have hstages : stagesOf line = [line] := List.splitOn_eq_singleton hb
      have hone := splitFrom_stage left (a := a) (.inl rfl) h0 hb [] cmds
      have hpipe : Pipeline (left + 1) line ↔ trimmed line ≠ [] := by
        unfold Pipeline
        rw [hstages]
        simp
      rw [hone, hpipe, hstages]
      by_cases htr : trimmed line = []
      · rw [if_pos htr]
        exact ⟨fun h => absurd htr h, fun _ => ⟨_, rfl⟩⟩
      · rw [if_neg htr, if_pos rfl]
        obtain ⟨w, hw⟩ := cutStage_append a line
        refine ⟨fun _ => ⟨w, [(a ++ line.takeWhile (· = blank)).length], ?_, ?_⟩, fun h => absurd htr h⟩
        · rw [List.append_nil, hw]
        · have htext := textAt_cutStage a h0 []
          rw [List.append_nil] at htext
          rw [← hw, List.map_singleton, List.map_singleton, htext]

/-- **`split_pipes` parses the pipelines**, and never leaves the line and its terminator. -/
theorem splitPipes_exact {line : Name} (h : (0 : UInt8) ∉ line) (max : Nat) :
    (Pipeline max line → ∃ m cmds, splitPipes (line ++ [0]) 0 max = some (m, some cmds) ∧ 1 ≤ cmds.length ∧
      cmds.length = (stagesOf line).length ∧ cmds.map (textAt 0 m) = (stagesOf line).map trimmed) ∧
    (¬Pipeline max line → ∃ m, splitPipes (line ++ [0]) 0 max = some (m, none)) := by
  obtain ⟨hyes, hno⟩ := splitFrom_spec max line [] [] h
  refine ⟨fun hp => ?_, hno⟩
  obtain ⟨b, ptrs, h1, h2⟩ := hyes hp
  have hlen : ptrs.length = (stagesOf line).length := by simpa using congrArg List.length h2
  refine ⟨b, ptrs, h1, ?_, hlen, h2⟩
  rw [hlen]
  exact List.length_pos_iff.2 (List.splitOn_ne_nil bar line)

/-- `" ls | cat\n"`. -/
theorem splitPipes_exact_ls : let line := ascii [' ', 'l', 's', ' ', '|', ' ', 'c', 'a', 't', '\n']
    ∃ m cmds, splitPipes (line ++ [0]) 0 4 = some (m, some cmds) ∧ 1 ≤ cmds.length ∧ cmds.length = 2 ∧
      cmds.map (textAt 0 m) = [ascii ['l', 's'], ascii ['c', 'a', 't']] :=
  (splitPipes_exact (show (0 : UInt8) ∉ ascii [' ', 'l', 's', ' ', '|', ' ', 'c', 'a', 't',
    '\n'] by decide) 4).1 (by decide)

end VampireOS.Shell
