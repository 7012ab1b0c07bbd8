import Mathlib.Data.List.Nodup
import Mathlib.Data.List.TakeWhile
import Mathlib.Logic.Function.Basic

/-!
# Lists of cells linked by a table

`next` gives the cell after each cell; a list goes on as long as its cells are `live`. `Links c l`
says that the list from `c` on is `l`, ended by a cell that is not live. `follow n c` is a loop that
gives up after `n` cells.
-/

namespace VampireOS.Lib

variable {α : Type} {live : α → Bool} {next : α → α}

/-- The cells visited from `c` on, at most as many as the bound. -/
def follow (live : α → Bool) (next : α → α) : Nat → α → List α
  | 0, _ => []
  | n + 1, c => if live c then c :: follow live next n (next c) else []

inductive Links (live : α → Bool) (next : α → α) : α → List α → Prop where
  | stop {c : α} : live c = false → Links live next c []
  | step {c : α} {l : List α} : live c = true → Links live next (next c) l → Links live next c (c :: l)

namespace Links

variable {c : α} {l : List α}

theorem nil_iff : Links live next c [] ↔ live c = false := ⟨fun h => by cases h; assumption, .stop⟩

theorem cons_iff {a : α} : Links live next c (a :: l) ↔ a = c ∧ live c = true ∧ Links live next (next c) l :=
  ⟨fun h => by cases h with | step h1 h2 => exact ⟨rfl, h1, h2⟩, fun ⟨e, h1, h2⟩ => by
    subst e
    exact .step h1 h2⟩

theorem live_of_mem (h : Links live next c l) : ∀ a ∈ l, live a = true := by
  induction h with
  | stop _ => exact nofun
  | step hl _ ih =>
    intro a ha
    rcases List.mem_cons.1 ha with rfl | ha
    · exact hl
    · exact ih a ha

theorem unique {l' : List α} (h : Links live next c l) (h' : Links live next c l') : l = l' := by
  induction h generalizing l' with
  | stop hc =>
    cases h' with
    | stop _ => rfl
    | step hl _ => rw [hc] at hl; cases hl
  | step hl _ ih =>
    cases h' with
    | stop hc => rw [hc] at hl; cases hl
    | step _ h2 => rw [ih h2]

/-- From one of its cells on, the list is its rest. -/
theorem from_mem (h : Links live next c l) : ∀ a ∈ l, ∃ l', Links live next a l' ∧ l' <:+ l := by
  induction h with
  | stop _ => exact nofun
  | @step c l hl h2 ih =>
    intro a ha
    rcases List.mem_cons.1 ha with rfl | ha
    · exact ⟨_, .step hl h2, List.suffix_refl _⟩
    · obtain ⟨l', h1, h3⟩ := ih a ha
      exact ⟨l', h1, h3.trans (List.suffix_cons _ _)⟩

/-- A list that ends has no cell twice. -/
theorem nodup (h : Links live next c l) : l.Nodup := by
  induction h with
  | stop _ => exact List.nodup_nil
  | @step c l hl h2 ih =>
    refine List.nodup_cons.2 ⟨fun hm => ?_, ih⟩
    obtain ⟨l', h1, h3⟩ := h2.from_mem c hm
    have hlen := h3.length_le
    rw [h1.unique (.step hl h2), List.length_cons] at hlen
    omega

theorem follow_eq (h : Links live next c l) : ∀ n, follow live next n c = l.take n := by
  induction h with
  | stop hc =>
    intro n
    cases n with
    | zero => rfl
    | succ n => simp [follow, hc]
  | step hl _ ih =>
    intro n
    cases n with
    | zero => rfl
    | succ n => simp [follow, hl, ih n]

theorem follow_all {n : Nat} (h : Links live next c l) (hn : l.length ≤ n) : follow live next n c = l := by
  rw [h.follow_eq, List.take_of_length_le hn]

/-- A table with the same links in these cells. -/
theorem congr {next' : α → α} (h : Links live next c l) (he : ∀ a ∈ l, next' a = next a) :
    Links live next' c l := by
  induction h with
  | stop hc => exact .stop hc
  | @step c l hl _ ih =>
    refine .step hl ?_
    rw [he c List.mem_cons_self]
    exact ih fun a ha => he a (List.mem_cons_of_mem _ ha)

section
variable [DecidableEq α]

theorem update {a b : α} (h : Links live next c l) (ha : a ∉ l) : Links live (Function.update next a b) c l :=
  h.congr fun x hx => Function.update_of_ne (fun e : x = a => ha (e ▸ hx)) ..

/-- The list is cut behind its cell `a`. -/
theorem cut {pre post : List α} {a b : α} (h : Links live next c (pre ++ a :: post)) (hb : live b = false) :
    Links live (Function.update next a b) c (pre ++ [a]) := by
  have hnodup := h.nodup
  induction pre generalizing c with
  | nil =>
    obtain ⟨rfl, h1, -⟩ := cons_iff.1 h
    refine .step h1 (nil_iff.2 ?_)
    rwa [Function.update_self]
  | cons x pre ih =>
    obtain ⟨rfl, h1, h2⟩ := cons_iff.1 h
    rw [List.cons_append, List.nodup_cons] at hnodup
    refine .step h1 ?_
    rw [Function.update_of_ne fun e => hnodup.1 (by rw [e]; simp)]
    exact ih h2 hnodup.2

/-- The cell `b`, which ends, comes behind the last cell `a`. -/
theorem append {pre : List α} {a b : α} (h : Links live next c (pre ++ [a])) (hb : b ∉ pre ++ [a])
    (hend : Links live next b [b]) : Links live (Function.update next a b) c (pre ++ [a, b]) := by
  have hnodup := h.nodup
  have hab : b ≠ a := fun e => hb (by simp [e])
  induction pre generalizing c with
  | nil =>
    obtain ⟨rfl, h1, -⟩ := cons_iff.1 h
    refine .step h1 ?_
    rw [Function.update_self]
    exact hend.update fun hm => hab (List.mem_singleton.1 hm).symm
  | cons x pre ih =>
    obtain ⟨rfl, h1, h2⟩ := cons_iff.1 h
    rw [List.cons_append, List.nodup_cons] at hnodup
    refine .step h1 ?_
    rw [Function.update_of_ne fun e => hnodup.1 (by rw [e]; simp)]
    exact ih h2 (fun hm => hb (List.mem_cons_of_mem _ hm)) hnodup.2

end

end Links

end VampireOS.Lib
