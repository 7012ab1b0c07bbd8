import Mathlib.Data.List.Basic
import Mathlib.Tactic.Linarith
import Mathlib.Tactic.Positivity

/-!
# Drawing as partial functions

A drawing says what it leaves at each place, and `none` where it leaves alone what is there.
Drawings compose, the later one on top.
-/

namespace VampireOS.Lib

/-- What is left at each place. -/
abbrev Ink (P α : Type) := P → Option α

namespace Ink

variable {P α A B : Type} {s : P → α} {D D' : Ink P α} {p : P} {x : α}

/-- A picture with a drawing on it. -/
def on (D : Ink P α) (s : P → α) : P → α := fun p => (D p).getD (s p)

/-- Nothing is drawn. -/
def blank : Ink P α := fun _ => none

/-- First `D'`, then `D`. -/
def atop (D D' : Ink P α) : Ink P α := fun p => (D p).or (D' p)

/-- One drawing for each of a list, the last one on top. -/
def all (l : List A) (F : A → Ink P α) : Ink P α :=
  match l with
  | [] => blank
  | a :: l => (all l F).atop (F a)

@[simp] theorem on_blank : (blank : Ink P α).on s = s := rfl

@[simp] theorem atop_blank : D.atop blank = D := by
  funext p
  simp [atop, blank]

theorem atop_assoc (D₁ D₂ D₃ : Ink P α) : (D₁.atop D₂).atop D₃ = D₁.atop (D₂.atop D₃) := by
  funext p
  simp [atop, Option.or_assoc]

@[simp] theorem blank_apply : (blank : Ink P α) p = none := rfl

theorem on_on : D.on (D'.on s) = (D.atop D').on s := by
  funext p
  simp only [on, atop]
  cases D p <;> rfl

theorem on_none (h : D p = none) : D.on s p = s p := by simp [on, h]

/-- A drawing on itself. -/
@[simp] theorem atop_self : D.atop D = D := by
  funext p
  simp [atop]

/-! ## Loops -/

@[simp] theorem all_nil (F : A → Ink P α) : all [] F = blank := rfl

theorem all_cons (a : A) (l : List A) (F : A → Ink P α) : all (a :: l) F = (all l F).atop (F a) := rfl

theorem all_append (l l' : List A) (F : A → Ink P α) : all (l ++ l') F = (all l' F).atop (all l F) := by
  induction l with
  | nil => simp
  | cons a l ih =>
    funext p
    simp [all_cons, ih, atop, Option.or_assoc]

theorem all_map (l : List B) (f : B → A) (F : A → Ink P α) : all (l.map f) F = all l fun b => F (f b) := by
  induction l with
  | nil => rfl
  | cons b l ih => rw [List.map_cons, all_cons, all_cons, ih]

theorem all_congr {l : List A} {F F' : A → Ink P α} (h : ∀ a ∈ l, F a = F' a) : all l F = all l F' := by
  induction l with
  | nil => rfl
  | cons a l ih => rw [all_cons, all_cons, h a List.mem_cons_self,
      ih fun b hb => h b (List.mem_cons_of_mem _ hb)]

/-- Nothing is there but what one of the turns has drawn. -/
theorem all_mem {l : List A} {F : A → Ink P α} (h : all l F p = some x) : ∃ a ∈ l, F a p = some x := by
  induction l with
  | nil => cases h
  | cons a l ih =>
    rw [all_cons, atop, Option.or_eq_some_iff] at h
    rcases h with h | ⟨-, h⟩
    · obtain ⟨b, hb, hx⟩ := ih h
      exact ⟨b, List.mem_cons_of_mem _ hb, hx⟩
    · exact ⟨a, List.mem_cons_self, h⟩

theorem all_none {l : List A} {F : A → Ink P α} : all l F p = none ↔ ∀ a ∈ l, F a p = none := by
  induction l with
  | nil => simp
  | cons a l ih => simp [all_cons, atop, ih, and_comm]

/-- A loop draws `D` when each turn draws a part of it and all of it is drawn. -/
theorem all_eq {l : List A} {F : A → Ink P α} (hpart : ∀ a ∈ l, ∀ p x, F a p = some x → D p = some x)
    (hwhole : ∀ p x, D p = some x → ∃ a ∈ l, F a p ≠ none) : all l F = D := by
  funext p
  cases h : all l F p with
  | some x =>
    obtain ⟨a, ha, hx⟩ := all_mem h
    exact (hpart a ha p x hx).symm
  | none =>
    cases hd : D p with
    | none => rfl
    | some x =>
      obtain ⟨a, ha, hne⟩ := hwhole p x hd
      exact absurd (all_none.1 h a ha) hne

/-! ## Strips -/

/-- A part of a drawing: `s` places from `lo` on, along the coordinate `t`. -/
def within (t : P → Int) (lo : Int) (s : Nat) (D : Ink P α) : Ink P α := fun p =>
  if lo ≤ t p ∧ t p < lo + s then D p else none

/-- `n` strips of `s` places each, side by side from `lo` on. -/
def strips (t : P → Int) (lo : Int) (s n : Nat) (F : Nat → Ink P α) : Ink P α := fun p =>
  if lo ≤ t p ∧ t p < lo + n * s then F ((t p - lo).toNat / s) p else none

variable {t : P → Int} {lo : Int} {n w : Nat} {F : Nat → Ink P α}

/-- The strip that a place is in. -/
theorem strip_iff (k : Nat) (hw : 0 < w) (hp : lo ≤ t p) :
    (lo + k * w ≤ t p ∧ t p < lo + k * w + w) ↔ (t p - lo).toNat / w = k := by
  obtain ⟨d, hd⟩ : ∃ d : Nat, t p = lo + d := ⟨(t p - lo).toNat, by omega⟩
  have hsub : (lo + (d : Int) - lo).toNat = d := by omega
  rw [hd, hsub, Nat.div_eq_iff hw]
  constructor
  · rintro ⟨h, h'⟩
    have : k * w ≤ d := by exact_mod_cast (by linarith : (k : Int) * w ≤ d)
    have : d < k * w + w := by exact_mod_cast (by linarith : (d : Int) < k * w + w)
    omega
  · rintro ⟨h, h'⟩
    have : (k : Int) * w ≤ d := by exact_mod_cast h
    have : (d : Int) < k * w + w := by exact_mod_cast (by omega : d < k * w + w)
    constructor <;> linarith

/-- A loop over strips. -/
theorem all_strips (hw : 0 < w) :
    all (List.range n) (fun k => within t (lo + k * w) w (F k)) = strips t lo w n F := by
  apply all_eq
  · intro k hk p x hx
    have hin : lo + k * w ≤ t p ∧ t p < lo + k * w + w := by
      by_contra hout
      rw [within, if_neg hout] at hx
      cases hx
    have hlo : lo ≤ t p := by
      have : (0 : Int) ≤ k * w := by positivity
      linarith [hin.1]
    have hn : (k : Int) * w + w ≤ n * w := by
      have := Nat.mul_le_mul_right w (List.mem_range.1 hk)
      rw [Nat.succ_mul] at this
      exact_mod_cast this
    rw [within, if_pos hin] at hx
    rw [strips, if_pos ⟨hlo, by linarith [hin.2]⟩, (strip_iff k hw hlo).1 hin, hx]
  · intro p x hx
    have hin : lo ≤ t p ∧ t p < lo + n * w := by
      by_contra hout
      rw [strips, if_neg hout] at hx
      cases hx
    rw [strips, if_pos hin] at hx
    refine ⟨(t p - lo).toNat / w, List.mem_range.2 ?_, ?_⟩
    · rw [Nat.div_lt_iff_lt_mul hw]
      have hd : ((t p - lo).toNat : Int) < n * w := by
        rw [Int.toNat_of_nonneg (by linarith [hin.1])]
        linarith [hin.2]
      exact_mod_cast hd
    · rw [within, if_pos ((strip_iff _ hw hin.1).2 rfl), hx]
      exact Option.some_ne_none x

end Ink

end VampireOS.Lib
