import VampireOS.User.Parse

/-!
# Redirections of a stage (user/sh.c:84-147, kernel/kbd.c:694-737)

| here | there |
| --- | --- |
| `parseLine` | `parse_line` up to the tests of the two paths |
| `parseRest` | `parse_line` from `trim_end(name)` on |
| `countOps` | the first loop of `run_redir_line`: `n_in`, `n_out`, `n_app` |

`oflag` is `oflag[cur]`, which keeps its value when a stage has no operator. The loop of
`parse_line` ends at its first operator, so that `redir` is 0 when it is tested.
-/

namespace VampireOS.Shell

open Lib

def less : UInt8 := 60
def greater : UInt8 := 62

/-- The words of a stage, as pointers. -/
structure Stage where
  name : Nat
  inPath : Option Nat
  outPath : Option Nat
deriving DecidableEq, Repr

def parseRest (m : Name) (name : Nat) (inPath outPath : Option Nat) : Option (Name × Option Stage) := do
  let m ← trimEnd m name
  let name ← skipWs m name
  let c ← m[name]?
  if c = 0 then some (m, none)
  else
    let (m, p) ← cutWord m name
    let p ← skipWs m p
    let c ← m[p]?
    if c ≠ 0 && inPath = none then
      let (m, _) ← cutWord m p
      let m ← trimEnd m p
      let c ← m[p]?
      some (m, some ⟨name, if c ≠ 0 then some p else none, outPath⟩)
    else some (m, some ⟨name, inPath, outPath⟩)

/-- The buffer, `oflag` and the stage; no stage is -1. -/
def parseLine (m : Name) (oflag name : Nat) : Option (Name × Nat × Option Stage) := do
  let p ← scan (fun c => c ≠ 0 && c ≠ less && c ≠ greater) m name
  let redir ← m[p]?
  if redir = 0 then
    let (m, st) ← parseRest m name none none
    some (m, oflag, st)
  else
    let next ← (if redir = greater then m[p + 1]? else some 0)
    let oflag := if redir = greater && next = greater then 2 else 1
    let m ← setAt m p 0
    let q ← skipWs m (p + oflag)
    let (m, _) ← cutWord m q
    let m ← trimEnd m q
    let c ← m[q]?
    if c = 0 then some (m, oflag, none)
    else
      let (m, st) ← parseRest m name (if redir = less then some q else none) (if redir = less
        then none else some q)
      some (m, oflag, st)

/-- `n_in`, `n_out` and `n_app` of a text. -/
def countOps : Name → Nat × Nat × Nat
  | [] => (0, 0, 0)
  | c :: s =>
    if c = less then
      let (i, o, a) := countOps s
      (i + 1, o, a)
    else if c = greater then
      match s with
      | [] => (0, 1, 0)
      | d :: s' =>
        if d = greater then
          let (i, o, a) := countOps s'
          (i, o + 1, a + 1)
        else
          let (i, o, a) := countOps (d :: s')
          (i, o + 1, a)
    else countOps s

/-- The redirection operators of a stage. -/
def redirs (s : Name) : Nat := (countOps s).1 + (countOps s).2.1

/-! ## Where an operator stands -/

def noOp (c : UInt8) : Bool := c ≠ less && c ≠ greater

/-- The text in front of the first operator. -/
def command (s : Name) : Name := s.takeWhile noOp

/-- The text behind the first operator. -/
def behindOp (s : Name) : Name :=
  match s.dropWhile noOp with
  | [] => []
  | c :: r => if c = greater && r.head? = some greater then r.tail else r

/-- The file named behind the first operator. -/
def fileWord (s : Name) : Name :=
  (((behindOp s).dropWhile (· = blank)).takeWhile (· ≠ blank)).rdropWhile isEnd

/-- The stage has no command, or an operator without a file. -/
def Refused (s : Name) : Prop := trimmed (command s) = [] ∨ s.any (fun c => !noOp c) = true ∧ fileWord s = []

instance (s : Name) : Decidable (Refused s) := inferInstanceAs (Decidable (_ ∨ _))

/-! ## The calls do not leave the buffer -/

section
variable {m : Name} {s : Nat}

theorem skipWs_ends (h : Ends 0 m s) : ∃ e, skipWs m s = some e ∧ s ≤ e ∧ Ends 0 m e := by
  obtain ⟨z, hz, hm⟩ := h
  obtain ⟨e, c, h1, -, -, h2, h3⟩ := scan_ends (p := fun c => decide (c = blank)) (by decide) ⟨z, hz, hm⟩
  exact ⟨e, h1, h2, z, h3 z hz hm, hm⟩

theorem cutWord_ends (h : Ends 0 m s) : ∃ m' e, cutWord m s = some (m', e) ∧ Ends 0 m' e ∧ Ends 0 m' s := by
  obtain ⟨z, hz, hm⟩ := h
  obtain ⟨e, c, h1, h2, h3, h4, h5⟩ :=
    scan_ends (p := fun c => decide (c ≠ 0) && decide (c ≠ blank)) (z := (0 : UInt8)) (by decide)
    ⟨z, hz, hm⟩
  have hez := h5 z hz hm
  by_cases hc : c = 0
  · refine ⟨m, e, by rw [cutWord, h1]; simp [h2, hc], ⟨z, hez, hm⟩, ⟨z, hz, hm⟩⟩
  · have hne : e ≠ z := by
      rintro rfl
      rw [hm] at h2
      exact hc (Option.some.inj h2).symm
    have hkeep : (m.set e 0)[z]? = some 0 := getElem?_set_keeps hm
    refine ⟨m.set e 0, e + 1, by rw [cutWord, h1]; simp [h2, hc, setAt_some h2],
      ⟨z, by omega, hkeep⟩, ⟨z, hz, hkeep⟩⟩

theorem trimEnd_ends (h : Ends 0 m s) : ∃ m', trimEnd m s = some m' ∧ Ends 0 m' s := by
  obtain ⟨z, hz, hm⟩ := h
  obtain ⟨m', h1, h2⟩ := trim_ends (p := isEnd) ⟨z, hz, hm⟩
  exact ⟨m', h1, z, hz, h2 z hm⟩

end

/-! ## Whether a stage is accepted -/

theorem trimmed_eq_nil {b : Name} : trimmed b = [] ↔ ∀ c ∈ b, isEnd c = true := by
  unfold trimmed
  rw [List.rdropWhile_eq_nil_iff]
  constructor
  · intro h c hc
    rw [← blank_split b] at hc
    rcases List.mem_append.1 hc with hc | hc
    · have := List.mem_takeWhile_imp (p := fun c => decide (c = blank)) hc
      simp_all [isEnd]
    · exact h c hc
  · exact fun h c hc => h c ((List.dropWhile_suffix _).subset hc)

/-- The two ways around. -/
theorem trimmed_comm {b : Name} : (b.rdropWhile isEnd).dropWhile (· = blank) = [] ↔ trimmed b = [] := by
  rw [trimmed_eq_nil, ← List.rdropWhile_eq_nil_iff (p := isEnd)]
  constructor
  · intro h
    rw [List.dropWhile_eq_nil_iff] at h
    by_contra hne
    have hlast := List.rdropWhile_last_not isEnd b hne
    have hb := h _ (List.getLast_mem hne)
    simp_all [isEnd]
  · intro h
    rw [h]
    rfl

theorem parseRest_spec {b : Name} (h : (0 : UInt8) ∉ b) (t : Name) (inPath outPath : Option Nat) :
    ∃ m st, parseRest (b ++ 0 :: t) 0 inPath outPath = some (m, st) ∧ (st.isSome ↔ trimmed b ≠ []) := by
  have htrim : ∃ t', trimEnd (b ++ 0 :: t) 0 = some (b.rdropWhile isEnd ++ 0 :: t') := by
    refine ⟨List.replicate (b.length - (b.rdropWhile isEnd).length) 0 ++ t,
      (trim_append isEnd [] h t).trans ?_⟩
    simp only [List.nil_append, List.append_assoc]
    rw [← List.singleton_append, ← List.append_assoc (List.replicate _ 0), ← List.replicate_succ',
      List.replicate_succ]
    rfl
  obtain ⟨t', h1⟩ := htrim
  obtain ⟨h2, h3⟩ := skipWs_stage (b.rdropWhile isEnd) [] (e := 0) (by decide) t'
  rw [List.nil_append, List.nil_append] at h2 h3
  have hends : Ends 0 (b.rdropWhile isEnd ++ 0 :: t') ((b.rdropWhile isEnd).takeWhile (· = blank)).length :=
    ⟨(b.rdropWhile isEnd).length, (List.takeWhile_prefix _).length_le, by simp⟩
  unfold parseRest
  simp only [h1, Option.bind_eq_bind, Option.bind_some]
  rw [show skipWs (b.rdropWhile isEnd ++ 0 :: t') 0 = _ from h2]
  simp only [Option.bind_some, h3]
  cases hd : (b.rdropWhile isEnd).dropWhile (· = blank) with
  | nil => exact ⟨_, none, rfl, by simp [trimmed_comm.1 hd]⟩
  | cons x rest =>
    have hx : x ≠ 0 := by
      have hmem : x ∈ (b.rdropWhile isEnd).dropWhile (· = blank) := by simp [hd]
      exact ne_of_mem_of_not_mem
        ((List.rdropWhile_prefix _ _).subset ((List.dropWhile_suffix _).subset hmem)) h
    have hne : trimmed b ≠ [] := fun h0 => by simp [trimmed_comm.2 h0] at hd
    obtain ⟨m1, e1, k1, k2, -⟩ := cutWord_ends hends
    obtain ⟨e2, k3, -, k4⟩ := skipWs_ends k2
    obtain ⟨c, k5⟩ := k4.read
    rw [List.headD_cons, if_neg hx, k1]
    simp only [Option.bind_some, k3, k5]
    split
    · obtain ⟨m2, e3, k6, -, k7⟩ := cutWord_ends k4
      obtain ⟨m3, k8, k9⟩ := trimEnd_ends k7
      obtain ⟨c', k10⟩ := k9.read
      simp only [k6, Option.bind_some, k8, k10]
      exact ⟨_, _, rfl, by simp [hne]⟩
    · exact ⟨_, _, rfl, by simp [hne]⟩

/-- `cut_word` at a word. -/
theorem cutWord_word (a : Name) {w : Name} {e : UInt8} (hw : ∀ x ∈ w, x ≠ 0 ∧ x ≠ blank)
    (he : e = 0 ∨ e = blank) (t : Name) :
    ∃ p, cutWord (a ++ w ++ e :: t) a.length = some (a ++ w ++ 0 :: t, p) := by
  have hscan : scan (fun c => c ≠ 0 && c ≠ blank) (a ++ w ++ e :: t) a.length =
      some (a.length + w.length) := by
    refine scan_append a (fun x hx => by simpa using hw x hx) ?_ t
    rcases he with rfl | rfl
    · rfl
    · rfl
  have hread : (a ++ w ++ e :: t)[a.length + w.length]? = some e := by
    rw [← List.length_append, List.getElem?_append_right (Nat.le_refl _), Nat.sub_self]
    rfl
  unfold cutWord
  simp only [hscan, Option.bind_eq_bind, Option.bind_some, hread]
  by_cases h0 : e = 0
  · rw [if_neg (not_not.2 h0), h0]
    exact ⟨_, rfl⟩
  · rw [if_pos h0, ← List.length_append, setAt_append]
    exact ⟨_, rfl⟩

/-- A text that starts with its first word, in front of a terminator. -/
theorem word_split (d t : Name) :
    ∃ e t', (e = 0 ∨ e = blank) ∧ d ++ 0 :: t = d.takeWhile (· ≠ blank) ++ e :: t' := by
  have hsplit := List.takeWhile_append_dropWhile (p := fun c => decide (c ≠ blank)) (l := d)
  cases hd : d.dropWhile (· ≠ blank) with
  | nil =>
    rw [hd, List.append_nil] at hsplit
    exact ⟨0, t, .inl rfl, by rw [hsplit]⟩
  | cons x rest =>
    have hne : d.dropWhile (· ≠ blank) ≠ [] := hd ▸ List.cons_ne_nil _ _
    have hx := List.head_dropWhile_not (fun c => decide (c ≠ blank)) hne
    simp only [hd, List.head_cons, decide_eq_false_iff_not, not_not] at hx
    refine ⟨x, rest ++ 0 :: t, .inr hx, ?_⟩
    conv_lhs => rw [← hsplit, hd]
    simp

/-- The file behind an operator: the buffer up to it and the test of its first character. -/
theorem parseFile {a r : Name} (h : (0 : UInt8) ∉ r) : ∃ q t m e, skipWs (a ++ r ++ [0]) a.length = some q ∧
    cutWord (a ++ r ++ [0]) q = some (m, e) ∧ trimEnd m q = some (a ++ t) ∧ ∃ c, (a ++ t)[q]? = some c ∧
      (c = 0 ↔ ((r.dropWhile (· = blank)).takeWhile (· ≠ blank)).rdropWhile isEnd = []) := by
  obtain ⟨h1, -⟩ := skipWs_stage r a (e := 0) (by decide) []
  generalize hw : (r.dropWhile (· = blank)).takeWhile (· ≠ blank) = w
  have hmem : ∀ x ∈ w, x ≠ 0 ∧ x ≠ blank := by
    intro x hx
    rw [← hw] at hx
    refine ⟨?_, by simpa using List.mem_takeWhile_imp (p := fun c => decide (c ≠ blank)) hx⟩
    exact ne_of_mem_of_not_mem ((List.dropWhile_suffix _).subset ((List.takeWhile_prefix _).subset hx)) h
  obtain ⟨e, t, he, hsplit⟩ := word_split (r.dropWhile (· = blank)) []
  have hbuf : a ++ r ++ [0] = a ++ r.takeWhile (· = blank) ++ w ++ e :: t := by
    rw [hw] at hsplit
    conv_lhs => rw [← blank_split r]
    simp only [List.append_assoc] at hsplit ⊢
    rw [hsplit]
  obtain ⟨p, h2⟩ := cutWord_word (a ++ r.takeWhile (· = blank)) hmem he t
  have h3 := trim_append isEnd (a ++ r.takeWhile (· = blank)) (fun h0 => (hmem 0 h0).1 rfl) t
  refine ⟨_, r.takeWhile (· = blank) ++ (w.rdropWhile isEnd ++
    (List.replicate (w.length - (w.rdropWhile isEnd).length) 0 ++ 0 :: t)), _, p, h1, hbuf ▸ h2,
    h3.trans (by simp only [List.append_assoc]), ?_⟩
  rw [← List.append_assoc, List.getElem?_append_right (Nat.le_refl _), Nat.sub_self]
  cases hz : w.rdropWhile isEnd with
  | nil =>
    refine ⟨0, ?_, by simp⟩
    rw [List.nil_append]
    cases w.length - ([] : Name).length with
    | zero => rfl
    | succ n => rfl
  | cons y ys =>
    have hy : y ∈ w := (List.rdropWhile_prefix isEnd w).subset (hz ▸ List.mem_cons_self)
    exact ⟨y, rfl, by simpa using (hmem y hy).1⟩

/-- What the width of an operator skips. -/
theorem op_width (c : UInt8) (r : Name) :
    ∃ x, r = x ++ (if c = greater && r.head? = some greater then r.tail else r) ∧
    (if c = greater && (if c = greater then r.headD 0 else 0) = greater then 2 else 1) = 1 +
    x.length := by
  by_cases hc : c = greater
  · cases r with
    | nil => exact ⟨[], by simp, by simp [hc, greater]⟩
    | cons d r =>
      by_cases hd : d = greater
      · exact ⟨[d], by simp [hc, hd], by simp [hc, hd]⟩
      · exact ⟨[], by simp [hc, hd], by simp [hc, hd]⟩
  · exact ⟨[], by simp [hc], by simp [hc]⟩

/-- `parse_line` stays in its buffer and accepts what is not refused. -/
theorem parseLine_spec {s : Name} (h : (0 : UInt8) ∉ s) (oflag : Nat) :
    ∃ m f st, parseLine (s ++ [0]) oflag 0 = some (m, f, st) ∧ (st.isSome ↔ ¬Refused s) := by
  have hsplit := List.takeWhile_append_dropWhile (p := noOp) (l := s)
  have hcmd : (0 : UInt8) ∉ command s := fun h0 => h ((List.takeWhile_prefix _).subset h0)
  have hpass : ∀ x ∈ command s, (decide (x ≠ 0) && decide (x ≠ less) && decide (x ≠ greater)) = true := by
    intro x hx
    have hop := List.mem_takeWhile_imp (p := noOp) hx
    simpa [noOp, ne_of_mem_of_not_mem hx hcmd] using hop
  cases hd : s.dropWhile noOp with
  | nil =>
    have hs : command s = s := by rwa [hd, List.append_nil] at hsplit
    have hno : s.any (fun c => !noOp c) = false := by
      rw [List.any_eq_false]
      intro c hc
      have := List.dropWhile_eq_nil_iff.1 hd c hc
      simp [this]
    have hscan : scan (fun c => c ≠ 0 && c ≠ less && c ≠ greater) (s ++ [0]) 0 = some s.length := by
      have := scan_append (c := (0 : UInt8)) [] hpass (by decide) []
      simpa [hs] using this
    obtain ⟨m, st, h1, h2⟩ := parseRest_spec h [] none none
    refine ⟨m, oflag, st, ?_, ?_⟩
    · rw [parseLine, hscan]
      simp [h1]
    · simp [h2, Refused, hs, hno]
  | cons c r =>
    have hs : s = command s ++ c :: r := by rw [command, ← hd, hsplit]
    have hc : c ∈ s := hs ▸ List.mem_append_right _ List.mem_cons_self
    have hr : (0 : UInt8) ∉ r := fun h0 => h (hs ▸ List.mem_append_right _ (List.mem_cons_of_mem _ h0))
    have hop : c = less ∨ c = greater := by
      have hne : s.dropWhile noOp ≠ [] := hd ▸ List.cons_ne_nil _ _
      have := List.head_dropWhile_not noOp hne
      simp only [hd, List.head_cons, noOp] at this
      by_contra hx
      push Not at hx
      simp [hx.1, hx.2] at this
    have hc0 : c ≠ 0 := ne_of_mem_of_not_mem hc h
    have hany : s.any (fun c => !noOp c) = true := by
      rw [List.any_eq_true]
      refine ⟨c, hc, ?_⟩
      rcases hop with rfl | rfl
      · rfl
      · rfl
    have hbehind : behindOp s = if c = greater && r.head? = some greater then r.tail else r := by
      rw [behindOp, hd]
    obtain ⟨x, hx, hwidth⟩ := op_width c r
    rw [← hbehind] at hx
    have hfree : (0 : UInt8) ∉ behindOp s := fun h0 => hr (hx ▸ List.mem_append_right _ h0)
    have hbuf : s ++ [0] = command s ++ c :: (r ++ [0]) := by
      conv_lhs => rw [hs]
      simp
    have hscan : scan (fun c => c ≠ 0 && c ≠ less && c ≠ greater) (s ++ [0]) 0 = some (command s).length := by
      have := scan_append (c := c) (p := fun c => c ≠ 0 && c ≠ less && c ≠ greater) [] hpass
        (by rcases hop with rfl | rfl <;> rfl) (r ++ [0])
      rw [hbuf]
      simpa using this
    have hread : (s ++ [0])[(command s).length]? = some c := by
      rw [hbuf]
      simp
    have hnext : (if c = greater then (s ++ [0])[(command s).length + 1]? else some 0) =
        some (if c = greater then r.headD 0 else 0) := by
      rw [hbuf]
      split
      · cases r <;> simp
      · rfl
    have hput : setAt (s ++ [0]) (command s).length 0 = some (command s ++ 0 :: x ++ behindOp s ++ [0]) := by
      rw [hbuf, setAt_append]
      conv_lhs => rw [hx]
      simp
    obtain ⟨q, t, m, e, h1, h2, h3, d, h4, h5⟩ := parseFile (a := command s ++ 0 :: x) hfree
    have hlen : (command s).length + (1 + x.length) = (command s ++ 0 :: x).length := by
      rw [List.length_append, List.length_cons]
      omega
    rw [parseLine, hscan]
    simp only [Option.bind_eq_bind, Option.bind_some, hread, if_neg hc0, hnext, hput, hwidth, hlen,
      h1, h2, h3, h4]
    by_cases hd0 : d = 0
    · rw [if_pos hd0]
      have hfile : fileWord s = [] := h5.1 hd0
      exact ⟨_, _, none, rfl, by simp [Refused, hany, hfile]⟩
    · obtain ⟨m', st, h6, h7⟩ := parseRest_spec hcmd (x ++ t) (if c = less then some q else none)
        (if c = less then none else some q)
      rw [if_neg hd0, List.append_assoc, List.cons_append, h6]
      refine ⟨_, _, st, rfl, ?_⟩
      have hfile : fileWord s ≠ [] := mt h5.2 hd0
      simp [h7, Refused, hany, hfile]

theorem countOps_none {s : Name} (h : ∀ c ∈ s, noOp c = true) : countOps s = (0, 0, 0) := by
  induction s with
  | nil => rfl
  | cons c s ih =>
    have hc : c ≠ less ∧ c ≠ greater := by simpa [noOp] using h c List.mem_cons_self
    rw [countOps.eq_def]
    simp only [if_neg hc.1, if_neg hc.2]
    exact ih fun x hx => h x (List.mem_cons_of_mem _ hx)

/-- A text with two operators has one. -/
theorem any_of_redirs {s : Name} (h : 1 < redirs s) : s.any (fun c => !noOp c) = true := by
  by_contra hno
  have hall : ∀ c ∈ s, noOp c = true := by simpa using hno
  simp [redirs, countOps_none hall] at h

/-- **A stage with two operators is refused** exactly when it has no command or no file behind the
first one. -/
theorem redirs_refused {s : Name} (h : (0 : UInt8) ∉ s) (oflag : Nat) :
    (∀ m f st, parseLine (s ++ [0]) oflag 0 = some (m, f, some st) → redirs s ≤ 1) ↔
      redirs s ≤ 1 ∨ trimmed (command s) = [] ∨ fileWord s = [] := by
  obtain ⟨m, f, st, h1, h2⟩ := parseLine_spec h oflag
  constructor
  · intro hall
    by_contra hno
    push Not at hno
    obtain ⟨h3, h4, h5⟩ := hno
    have hok : st.isSome := h2.2 (by simp [Refused, h4, h5])
    obtain ⟨st', rfl⟩ := Option.isSome_iff_exists.1 hok
    exact absurd (hall m f st' h1) (by omega)
  · intro hor m' f' st' hx
    by_contra hmany
    rw [h1, Option.some.injEq, Prod.mk.injEq, Prod.mk.injEq] at hx
    have hok := h2.1 (by rw [hx.2.2]; rfl)
    refine hok ?_
    rcases hor with hor | hor | hor
    · exact absurd hor hmany
    · exact .inl hor
    · exact .inr ⟨any_of_redirs (by omega), hor⟩

/-- `cat <` without a file, `>` behind it. -/
theorem redirs_refused_empty : let s := ascii ['c', 'a', 't', ' ', '<', ' ', '\n', ' ', '>', ' ', 'b']
    redirs s = 2 ∧ ∀ m f st, parseLine (s ++ [0]) 0 0 = some (m, f, some st) → redirs s ≤ 1 :=
  ⟨by decide, (redirs_refused (by decide) 0).2 (by decide)⟩

/-- `cat < a > b` runs as `cat < a`; the kernel's own test of the text is `redirs s ≠ 1`. -/
theorem second_redir_dropped : let s := ascii ['c', 'a', 't', ' ', '<', ' ', 'a', ' ', '>', ' ', 'b']
    redirs s = 2 ∧ ∃ m st, parseLine (s ++ [0]) 0 0 = some (m, 1, some st) ∧ textAt 0 m st.name =
      ascii ['c', 'a', 't'] ∧
      st.inPath.map (textAt 0 m) = some (ascii ['a']) ∧ st.outPath = none :=
  ⟨by decide, _, _, rfl, by decide⟩

end VampireOS.Shell
