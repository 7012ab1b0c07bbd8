import Mathlib.Data.List.DropRight
import Mathlib.Data.List.TakeWhile
import Mathlib.Tactic.Common

/-!
# Text in a buffer

A buffer is a list of cells, and a text in it is what stands from a place on up to the terminator
`z`. Every access is checked: one that leaves the buffer has no result. A cursor that passes over
cells (`scan`) stops in front of the terminator, and cutting a text short (`trim`) leaves the cells
before and behind it alone.
-/

namespace VampireOS.Lib

variable {α : Type}

/-- Write to a cell of the buffer. -/
def setAt (m : List α) (i : Nat) (c : α) : Option (List α) := if i < m.length then some (m.set i c) else none

/-- The cells passed over before the first one that fails `p`; there has to be one. -/
def passed (p : α → Bool) : List α → Option Nat
  | [] => none
  | c :: rest => if p c then (passed p rest).map (· + 1) else some 0

/-- `while (p(*s)) s++;` -/
def scan (p : α → Bool) (m : List α) (s : Nat) : Option Nat := (passed p (m.drop s)).map (s + ·)

section
variable [DecidableEq α] (z : α)

/-- The text from `s` on. -/
def textAt (m : List α) (s : Nat) : List α := (m.drop s).takeWhile (· ≠ z)

/-- `while (n > 0 && p(s[n - 1])) s[--n] = z;` -/
def trimBack (p : α → Bool) (m : List α) (s : Nat) : Nat → Option (List α)
  | 0 => some m
  | n + 1 => do
    let c ← m[s + n]?
    if p c then
      let m ← setAt m (s + n) z
      trimBack p m s n
    else some m

/-- Take the cells of `p` off the end of the text at `s`. -/
def trim (p : α → Bool) (m : List α) (s : Nat) : Option (List α) := do
  let e ← scan (· ≠ z) m s
  trimBack z p m s (e - s)

end

/-! ## What they do to a text between others -/

variable {p : α → Bool} {a l t : List α} {c z : α}

theorem setAt_append (a : List α) (x : α) (t : List α) (c : α) :
    setAt (a ++ x :: t) a.length c = some (a ++ c :: t) := by
  unfold setAt
  rw [if_pos (by simp), List.set_append_right _ _ (by simp), Nat.sub_self]
  rfl

theorem passed_append (h : ∀ x ∈ l, p x = true) (hc : p c = false) (t : List α) :
    passed p (l ++ c :: t) = some l.length := by
  induction l with
  | nil => simp [passed, hc]
  | cons x l ih =>
    have hx := h x (by simp)
    have hl := ih fun y hy => h y (by simp [hy])
    simp [passed, hx, hl]

theorem scan_append (a : List α) (h : ∀ x ∈ l, p x = true) (hc : p c = false) (t : List α) :
    scan p (a ++ l ++ c :: t) a.length = some (a.length + l.length) := by
  unfold scan
  rw [List.append_assoc, List.drop_left, passed_append h hc]
  rfl

theorem trimBack_append (p : α → Bool) (a l : List α) :
    ∀ t, trimBack z p (a ++ l ++ z :: t) a.length l.length =
    some (a ++ l.rdropWhile p ++ List.replicate (l.length - (l.rdropWhile p).length) z ++ z :: t) := by
  induction l using List.reverseRecOn with
  | nil =>
    intro t
    simp [trimBack]
  | append_singleton l x ih =>
    intro t
    have hread : (a ++ (l ++ [x]) ++ z :: t)[a.length + l.length]? = some x := by
      simp
    have hput : setAt (a ++ (l ++ [x]) ++ z :: t) (a.length + l.length) z = some (a ++ l ++ z :: z :: t) := by
      have h := setAt_append (a ++ l) x (z :: t) z
      rw [List.length_append] at h
      simpa using h
    rw [List.length_append, List.length_singleton, trimBack, hread]
    simp only [Option.bind_eq_bind, Option.bind_some]
    by_cases hx : p x = true
    · have hle := (List.rdropWhile_prefix p l : l.rdropWhile p <+: l).length_le
      rw [if_pos hx, hput, Option.bind_some, ih, List.rdropWhile_concat_pos _ _ _ hx,
        show l.length + 1 - (l.rdropWhile p).length = (l.length - (l.rdropWhile p).length) + 1 by
          omega, List.replicate_succ']
      simp
    · rw [if_neg hx, List.rdropWhile_concat_neg _ _ _ hx]
      simp

section
variable [DecidableEq α]

theorem textAt_append (a : List α) (h : z ∉ l) (t : List α) : textAt z (a ++ l ++ z :: t) a.length = l := by
  unfold textAt
  rw [List.append_assoc, List.drop_left, List.takeWhile_append_of_pos, List.takeWhile_cons,
    if_neg (by simp), List.append_nil]
  intro x hx
  simpa using ne_of_mem_of_not_mem hx h

theorem trim_append (p : α → Bool) (a : List α) (h : z ∉ l) (t : List α) :
    trim z p (a ++ l ++ z :: t) a.length =
    some (a ++ l.rdropWhile p ++ List.replicate (l.length - (l.rdropWhile p).length) z ++ z :: t) := by
  have hl : ∀ x ∈ l, decide (x ≠ z) = true := fun x hx => by simpa using ne_of_mem_of_not_mem hx h
  unfold trim
  rw [scan_append a hl (by simp) t]
  simp only [Option.bind_eq_bind, Option.bind_some, Nat.add_sub_cancel_left]
  exact trimBack_append p a l t

end

/-! ## In front of a terminator -/

/-- There is a terminator at `s` or behind it. -/
def Ends (z : α) (m : List α) (s : Nat) : Prop := ∃ e, s ≤ e ∧ m[e]? = some z

theorem Ends.read {m : List α} {s : Nat} (h : Ends z m s) : ∃ c, m[s]? = some c := by
  obtain ⟨e, he, hz⟩ := h
  have := (List.getElem?_eq_some_iff.1 hz).1
  exact ⟨_, List.getElem?_eq_getElem (by omega)⟩

theorem passed_some (hz : p z = false) : ∀ {l : List α}, z ∈ l →
    ∃ n c, passed p l = some n ∧ l[n]? = some c ∧ p c = false ∧ ∀ i, l[i]? = some z → n ≤ i
  | [], h => absurd h List.not_mem_nil
  | x :: l, h => by
    by_cases hx : p x = true
    · have hmem : z ∈ l := by
        rcases List.mem_cons.1 h with rfl | h
        · rw [hz] at hx
          cases hx
        · exact h
      obtain ⟨n, c, h1, h2, h3, h4⟩ := passed_some hz hmem
      refine ⟨n + 1, c, by simp [passed, hx, h1], by simpa using h2, h3, fun i hi => ?_⟩
      cases i with
      | zero =>
        obtain rfl : x = z := by simpa using hi
        rw [hz] at hx
        cases hx
      | succ i => exact Nat.succ_le_succ (h4 i (by simpa using hi))
    · exact ⟨0, x, by simp [passed, hx], rfl, by simpa using hx, fun _ _ => Nat.zero_le _⟩

/-- A cursor that does not pass the terminator stops at it or before it. -/
theorem scan_ends {m : List α} {s : Nat} (hz : p z = false) (h : Ends z m s) :
    ∃ e c, scan p m s = some e ∧ m[e]? = some c ∧ p c = false ∧ s ≤ e ∧ ∀ i, s ≤ i →
    m[i]? = some z → e ≤ i := by
  obtain ⟨e, he, hm⟩ := h
  have hmem : z ∈ m.drop s := by
    refine List.mem_iff_getElem?.2 ⟨e - s, ?_⟩
    rw [List.getElem?_drop, Nat.add_sub_cancel' he]
    exact hm
  obtain ⟨n, c, h1, h2, h3, h4⟩ := passed_some hz hmem
  rw [List.getElem?_drop] at h2
  refine ⟨s + n, c, by simp [scan, h1], h2, h3, Nat.le_add_right s n, fun i hi hzi => ?_⟩
  have := h4 (i - s) (by rwa [List.getElem?_drop, Nat.add_sub_cancel' hi])
  omega

theorem setAt_some {m : List α} {i : Nat} {c x : α} (h : m[i]? = some x) : setAt m i c = some (m.set i c) :=
  if_pos (List.getElem?_eq_some_iff.1 h).1

theorem getElem?_set_keeps {m : List α} {i e : Nat} (h : m[e]? = some z) : (m.set i z)[e]? = some z := by
  rw [List.getElem?_set]
  split
  · rename_i hi
    rw [if_pos (hi ▸ (List.getElem?_eq_some_iff.1 h).1)]
  · exact h

theorem trimBack_ends {s : Nat} : ∀ (n : Nat) (m : List α), s + n ≤ m.length →
    ∃ m', trimBack z p m s n = some m' ∧ ∀ e : Nat, m[e]? = some z → m'[e]? = some z
  | 0, m, _ => ⟨m, rfl, fun _ h => h⟩
  | n + 1, m, h => by
    obtain ⟨c, hc⟩ : ∃ c, m[s + n]? = some c := ⟨_, List.getElem?_eq_getElem (by omega)⟩
    unfold trimBack
    simp only [hc, Option.bind_eq_bind, Option.bind_some]
    split
    · rw [setAt_some hc, Option.bind_some]
      have hlen : s + n ≤ (m.set (s + n) z).length := by
        rw [List.length_set]
        omega
      obtain ⟨m', h1, h2⟩ := trimBack_ends n (m.set (s + n) z) hlen
      exact ⟨m', h1, fun e he => h2 e (getElem?_set_keeps he)⟩
    · exact ⟨m, rfl, fun _ h => h⟩

theorem trim_ends [DecidableEq α] {m : List α} {s : Nat} (h : Ends z m s) :
    ∃ m', trim z p m s = some m' ∧ ∀ e : Nat, m[e]? = some z → m'[e]? = some z := by
  obtain ⟨e, c, h1, h2, -, hle, -⟩ := scan_ends (p := fun x => decide (x ≠ z)) (by simp) h
  obtain ⟨m', h4, h5⟩ := trimBack_ends (p := p) (z := z) (s := s) (e - s) m
    (by have := (List.getElem?_eq_some_iff.1 h2).1; omega)
  refine ⟨m', ?_, h5⟩
  unfold trim
  rw [h1]
  exact h4

end VampireOS.Lib
