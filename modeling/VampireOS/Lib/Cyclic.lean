import Mathlib.Data.Finset.Max
import Mathlib.Data.Finset.Card
import Mathlib.Tactic.Common

/-!
# Cyclic order

`cyclicNext R c` is the element of `R` that comes after `c`, going round from the largest to the
smallest. `rank` counts the elements below; the next element has the next rank, modulo the size, so
that going round `R` meets every element once.
-/

namespace VampireOS.Lib

variable {R : Finset Nat} {c s : Nat}

/-- The least element above `c`, else the least of all. -/
def cyclicNext (R : Finset Nat) (c : Nat) : Nat :=
  if h : (R.filter (c < ·)).Nonempty then (R.filter (c < ·)).min' h
  else if h : R.Nonempty then R.min' h
  else c

def rank (R : Finset Nat) (c : Nat) : Nat := (R.filter (· < c)).card

theorem cyclicNext_mem (h : c ∈ R) : cyclicNext R c ∈ R := by
  unfold cyclicNext
  split
  · rename_i hn
    exact (Finset.mem_filter.1 (Finset.min'_mem _ hn)).1
  · rw [dif_pos ⟨c, h⟩]
    exact Finset.min'_mem _ _

theorem rank_lt (h : s ∈ R) : rank R s < R.card := by
  refine Finset.card_lt_card ⟨Finset.filter_subset _ _, fun hsub => ?_⟩
  exact Nat.lt_irrefl s (Finset.mem_filter.1 (hsub h)).2

theorem rank_lt_rank (h : c ∈ R) (hlt : c < s) : rank R c < rank R s := by
  refine Finset.card_lt_card ⟨fun x hx => ?_, fun hsub => ?_⟩
  · obtain ⟨hx, hxc⟩ := Finset.mem_filter.1 hx
    exact Finset.mem_filter.2 ⟨hx, hxc.trans hlt⟩
  · exact Nat.lt_irrefl c (Finset.mem_filter.1 (hsub (Finset.mem_filter.2 ⟨h, hlt⟩))).2

theorem rank_inj (hc : c ∈ R) (hs : s ∈ R) (h : rank R c = rank R s) : c = s := by
  rcases Nat.lt_trichotomy c s with hlt | he | hgt
  · have := rank_lt_rank hc hlt
    omega
  · exact he
  · have := rank_lt_rank hs hgt
    omega

/-- The next element has the next rank. -/
theorem rank_next (h : c ∈ R) : rank R (cyclicNext R c) = (rank R c + 1) % R.card := by
  unfold cyclicNext
  split
  · rename_i hn
    set m := (R.filter (c < ·)).min' hn
    obtain ⟨hm, hcm⟩ := Finset.mem_filter.1 (Finset.min'_mem _ hn)
    -- between `c` and `m` there is only `c`
    have hset : R.filter (· < m) = insert c (R.filter (· < c)) := by
      ext x
      simp only [Finset.mem_filter, Finset.mem_insert]
      constructor
      · rintro ⟨hx, hxm⟩
        rcases Nat.lt_trichotomy x c with hlt | he | hgt
        · exact .inr ⟨hx, hlt⟩
        · exact .inl he
        · have : m ≤ x := Finset.min'_le _ x (Finset.mem_filter.2 ⟨hx, hgt⟩)
          omega
      · rintro (rfl | ⟨hx, hlt⟩)
        · exact ⟨h, hcm⟩
        · exact ⟨hx, hlt.trans hcm⟩
    have hrank : rank R m = rank R c + 1 := by
      unfold rank
      rw [hset, Finset.card_insert_of_notMem (by simp)]
    rw [← hrank]
    exact (Nat.mod_eq_of_lt (rank_lt hm)).symm
  · rename_i hn
    rw [dif_pos ⟨c, h⟩]
    -- `c` is the largest
    have hlast : R = insert c (R.filter (· < c)) := by
      ext x
      simp only [Finset.mem_filter, Finset.mem_insert]
      constructor
      · intro hx
        rcases Nat.lt_trichotomy x c with hlt | he | hgt
        · exact .inr ⟨hx, hlt⟩
        · exact .inl he
        · exact absurd ⟨x, Finset.mem_filter.2 ⟨hx, hgt⟩⟩ hn
      · rintro (rfl | ⟨hx, -⟩)
        · exact h
        · exact hx
    have hcard : R.card = rank R c + 1 := by
      conv_lhs => rw [hlast]
      exact Finset.card_insert_of_notMem (by simp)
    rw [← hcard, Nat.mod_self]
    unfold rank
    rw [Finset.card_eq_zero]
    refine Finset.filter_eq_empty_iff.2 fun x hx => ?_
    have := Finset.min'_le R x hx
    omega

theorem iterate_mem (h : c ∈ R) (i : Nat) : (cyclicNext R)^[i] c ∈ R := by
  induction i with
  | zero => exact h
  | succ i ih =>
    rw [Function.iterate_succ_apply']
    exact cyclicNext_mem ih

theorem rank_iterate (h : c ∈ R) (i : Nat) : rank R ((cyclicNext R)^[i] c) = (rank R c + i) % R.card := by
  induction i with
  | zero => exact (Nat.mod_eq_of_lt (rank_lt h)).symm
  | succ i ih =>
    rw [Function.iterate_succ_apply', rank_next (iterate_mem h i), ih, Nat.mod_add_mod, Nat.add_assoc]

/-- **Going round**: in as many steps as there are elements each of them comes up once. -/
theorem visits (h : c ∈ R) (hs : s ∈ R) : ∃! i, i < R.card ∧ (cyclicNext R)^[i + 1] c = s := by
  have hc := rank_lt h
  have hr := rank_lt hs
  set n := R.card
  have hkey : ∀ i, i < n → ((cyclicNext R)^[i + 1] c = s ↔ (rank R c + (i + 1)) % n = rank R s) := by
    intro i _
    rw [← rank_iterate h]
    exact ⟨fun e => congrArg _ e, fun e => rank_inj (iterate_mem h _) hs e⟩
  by_cases hle : rank R c < rank R s
  · refine ⟨rank R s - rank R c - 1, ⟨by omega, (hkey _ (by omega)).2 ?_⟩, ?_⟩
    · rw [show rank R c + (rank R s - rank R c - 1 + 1) = rank R s by omega]
      exact Nat.mod_eq_of_lt hr
    · rintro i ⟨hi, e⟩
      have e := (hkey i hi).1 e
      rcases Nat.lt_or_ge (rank R c + (i + 1)) n with hlt | hge
      · rw [Nat.mod_eq_of_lt hlt] at e
        omega
      · rw [Nat.mod_eq_sub_mod hge, Nat.mod_eq_of_lt (by omega)] at e
        omega
  · refine ⟨rank R s + n - rank R c - 1, ⟨by omega, (hkey _ (by omega)).2 ?_⟩, ?_⟩
    · rw [show rank R c + (rank R s + n - rank R c - 1 + 1) = rank R s + n by omega, Nat.add_mod_right]
      exact Nat.mod_eq_of_lt hr
    · rintro i ⟨hi, e⟩
      have e := (hkey i hi).1 e
      rcases Nat.lt_or_ge (rank R c + (i + 1)) n with hlt | hge
      · rw [Nat.mod_eq_of_lt hlt] at e
        omega
      · rw [Nat.mod_eq_sub_mod hge, Nat.mod_eq_of_lt (by omega)] at e
        omega

end VampireOS.Lib
