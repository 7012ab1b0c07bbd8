import Mathlib.Data.List.Chain
import Mathlib.Data.List.Sort
import Mathlib.Tactic.Common

/-!
# Intervals

Intervals given by where they start and how long they are. Of intervals sorted by their start only
neighbours need to be compared.
-/

namespace VampireOS.Lib

section
variable {α : Type*} {lo len : α → Nat} {l l' : List α}

/-- The two do not overlap. -/
def Apart (lo len : α → Nat) (x y : α) : Prop := lo x + len x ≤ lo y ∨ lo y + len y ≤ lo x

theorem Apart.symm {x y : α} (h : Apart lo len x y) : Apart lo len y x := Or.symm h

/-- One interval ends before the next one starts. -/
def Before (lo len : α → Nat) (x y : α) : Prop := lo x + len x ≤ lo y

instance : Trans (Before lo len) (Before lo len) (Before lo len) := ⟨fun h h' => by
  unfold Before at *
  omega⟩

/-- **Neighbours decide**: sorted intervals that are not empty lie apart when each ends before the
next one starts. -/
theorem isChain_before_iff (hs : l.Pairwise fun x y => lo x ≤ lo y) (hpos : ∀ x ∈ l, 0 < len x) :
    l.IsChain (Before lo len) ↔ l.Pairwise (Apart lo len) := by
  rw [List.isChain_iff_pairwise]
  constructor
  · exact fun h => h.imp fun hb => .inl hb
  · intro h
    refine (hs.and h).imp_of_mem fun {x y} hx hy hxy => ?_
    obtain ⟨hle, ha | ha⟩ := hxy
    · exact ha
    · have := hpos x hx
      have := hpos y hy
      omega

theorem apart_perm (h : l.Perm l') : l.Pairwise (Apart lo len) ↔ l'.Pairwise (Apart lo len) :=
  h.pairwise_iff fun h => h.symm

end

end VampireOS.Lib
