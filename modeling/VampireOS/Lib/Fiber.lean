import Mathlib.Data.Finset.Card
import Mathlib.Data.Finset.Prod
import Mathlib.Tactic.Common

/-!
# Counting the preimages of a partial map

`fiber S g b` is the number of `x ∈ S` that the partial map `g` sends to `b`. Reference counts
are such numbers, and every operation on them changes `g` at one point; `fiber_update` says what
that does to every count.
-/

namespace VampireOS.Lib

variable {α β : Type*} [DecidableEq β]

/-- How many points of `S` does `g` send to `b`? -/
def fiber (S : Finset α) (g : α → Option β) (b : β) : Nat := (S.filter fun x => g x = some b).card

theorem fiber_congr {S : Finset α} {g g' : α → Option β} (h : ∀ x ∈ S, g' x = g x) (b : β) :
    fiber S g' b = fiber S g b := by
  unfold fiber
  congr 1
  exact Finset.filter_congr fun x hx => by rw [h x hx]

theorem fiber_pos {S : Finset α} {g : α → Option β} {b : β} : 0 < fiber S g b ↔ ∃ x ∈ S, g x = some b := by
  simp [fiber, Finset.card_pos, Finset.filter_nonempty_iff]

theorem fiber_eq_zero {S : Finset α} {g : α → Option β} {b : β} :
    fiber S g b = 0 ↔ ∀ x ∈ S, g x ≠ some b := by
  simp [fiber, Finset.filter_eq_empty_iff]

section
variable [DecidableEq α]

theorem fiber_erase {S : Finset α} {g : α → Option β} {x : α} (hx : x ∈ S) (b : β) :
    fiber S g b = fiber (S.erase x) g b + if g x = some b then 1 else 0 := by
  unfold fiber
  rw [Finset.filter_erase]
  split
  · rename_i h
    rw [Finset.card_erase_add_one (Finset.mem_filter.2 ⟨hx, h⟩)]
  · rename_i h
    have hm : x ∉ S.filter fun x => g x = some b := fun hm => h (Finset.mem_filter.1 hm).2
    rw [Finset.erase_eq_of_notMem hm, Nat.add_zero]

/-- Changing the map at the one point `x` moves one unit from the old value to the new one. -/
theorem fiber_update {S : Finset α} {g g' : α → Option β} {x : α} (hx : x ∈ S)
    (h : ∀ y ∈ S, y ≠ x → g' y = g y) (b : β) :
    fiber S g' b + (if g x = some b then 1 else 0) = fiber S g b + (if g' x = some b then 1 else 0) := by
  have e : fiber (S.erase x) g' b = fiber (S.erase x) g b :=
    fiber_congr (fun y hy => h y (Finset.mem_of_mem_erase hy) (Finset.ne_of_mem_erase hy)) b
  rw [fiber_erase hx, fiber_erase (g := g) hx, e]
  omega

/-- Points the map does not send anywhere do not count. -/
theorem fiber_union_none {S T : Finset α} {g : α → Option β} (hT : ∀ x ∈ T, g x = none) (b : β) :
    fiber (S ∪ T) g b = fiber S g b := by
  unfold fiber
  congr 1
  ext x
  simp only [Finset.mem_filter, Finset.mem_union]
  constructor
  · rintro ⟨hx | hx, h⟩
    · exact ⟨hx, h⟩
    · rw [hT x hx] at h; cases h
  · rintro ⟨hx, h⟩; exact ⟨Or.inl hx, h⟩

end

/-- In a fiber with one element every other point goes elsewhere. -/
theorem fiber_one {S : Finset α} {g : α → Option β} {b : β} (h : fiber S g b ≤ 1) {x y : α}
    (hx : x ∈ S) (hy : y ∈ S) (hgx : g x = some b) (hgy : g y = some b) : x = y := by
  unfold fiber at h
  exact Finset.card_le_one.1 h x (Finset.mem_filter.2 ⟨hx, hgx⟩) y (Finset.mem_filter.2 ⟨hy, hgy⟩)

end VampireOS.Lib
