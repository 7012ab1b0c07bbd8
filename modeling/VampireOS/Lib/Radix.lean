import Mathlib.Data.Set.Basic
import Mathlib.Tactic.Common

/-!
# Trees of tables

`next t i` is the table that entry `i` of table `t` leads to, and `descend next r p` the table that the
path `p`, deepest index first, leads to from the root `r`. On a set `D` of paths the tables form a tree
when no table is reached by two of them. A table is then added at one place and nowhere else.
-/

namespace VampireOS.Lib

variable {T I : Type*} {next next' : T → I → Option T} {r : T} {D : Set (List I)}

def descend (next : T → I → Option T) (r : T) : List I → Option T
  | [] => some r
  | i :: p => (descend next r p).bind fun t => next t i

theorem descend_cons (i : I) (p : List I) :
    descend next r (i :: p) = (descend next r p).bind fun t => next t i := rfl

/-- Some path of `D` reaches `t`. -/
def Reached (next : T → I → Option T) (r : T) (D : Set (List I)) (t : T) : Prop :=
  ∃ p ∈ D, descend next r p = some t

/-- A set of paths with all that lead to them. -/
def PathClosed (D : Set (List I)) : Prop := ∀ i p, i :: p ∈ D → p ∈ D

/-- No table is reached twice. -/
def Branching (next : T → I → Option T) (r : T) (D : Set (List I)) : Prop :=
  ∀ p ∈ D, ∀ q ∈ D, ∀ t, descend next r p = some t → descend next r q = some t → p = q

/-- The tables stay where they are when the entries that lead to them do. -/
theorem descend_congr (hD : PathClosed D)
    (h : ∀ i p t, i :: p ∈ D → descend next r p = some t → next' t i = next t i) :
    ∀ p ∈ D, descend next' r p = descend next r p := by
  intro p
  induction p with
  | nil => exact fun _ => rfl
  | cons i p ih =>
    intro hp
    rw [descend_cons, descend_cons, ih (hD i p hp)]
    cases ht : descend next r p with
    | none => rfl
    | some t => exact h i p t hp ht

/-- A walk that checks more reaches no other table. -/
theorem descend_mono (h : ∀ t i s, next' t i = some s → next t i = some s) {p : List I} {t : T}
    (ht : descend next' r p = some t) : descend next r p = some t := by
  induction p generalizing t with
  | nil => exact ht
  | cons i p ih =>
    rw [descend_cons] at ht ⊢
    obtain ⟨u, hu, hn⟩ := Option.bind_eq_some_iff.1 ht
    rw [ih hu]
    exact h u i t hn

theorem Branching.mono (hb : Branching next r D) (h : ∀ t i s, next' t i = some s → next t i = some s) :
    Branching next' r D :=
  fun p hp q hq t ht ht' => hb p hp q hq t (descend_mono h ht) (descend_mono h ht')

section
variable {p : List I} {i : I} {t s : T} [DecidableEq T] [DecidableEq I]

/-- **A table is added** below entry `i` of `t`: it is found there, it is empty, and nothing else changes. -/
theorem descend_add (hD : PathClosed D) (hb : Branching next r D) (hp : i :: p ∈ D)
    (ht : descend next r p = some t) (h0 : next t i = none) (hs : ¬ Reached next r D s)
    (hn : ∀ j q x, j :: q ∈ D → x = s ∨ Reached next r D x → next' x j = if x = t ∧ j = i
      then some s else if x = s then none else next x j) :
    ∀ q ∈ D, descend next' r q = if q = i :: p then some s else descend next r q := by
  have hts : t ≠ s := by
    rintro rfl
    exact hs ⟨p, hD i p hp, ht⟩
  intro q
  induction q with
  | nil =>
    intro _
    rw [if_neg (List.cons_ne_nil i p).symm]
    rfl
  | cons j q ih =>
    intro hq
    have hq' := hD j q hq
    rw [descend_cons, ih hq']
    split
    · -- below the new table, which is empty
      rename_i hqp
      rw [Option.bind_some, hn j q s hq (.inl rfl), if_neg fun h => hts h.1.symm, if_pos rfl,
        if_neg, descend_cons, hqp, descend_cons, ht, Option.bind_some, h0]
      · rfl
      · intro h
        have hlen := congrArg List.length h
        rw [hqp] at hlen
        simp at hlen
    · cases hx : descend next r q with
      | none =>
        rw [Option.bind_none, descend_cons, hx, Option.bind_none, if_neg]
        intro h
        rw [(List.cons.inj h).2, ht] at hx
        cases hx
      | some x =>
        have hxs : x ≠ s := by
          rintro rfl
          exact hs ⟨q, hq', hx⟩
        rw [Option.bind_some, hn j q x hq (.inr ⟨q, hq', hx⟩), if_neg hxs, descend_cons, hx, Option.bind_some]
        congr 1
        refine propext ⟨?_, ?_⟩
        · rintro ⟨rfl, rfl⟩
          rw [hb q hq' p (hD _ _ hp) x hx ht]
        · intro h
          obtain ⟨rfl, rfl⟩ := List.cons.inj h
          exact ⟨Option.some.inj (hx.symm.trans ht), rfl⟩

theorem Branching.add (hD : PathClosed D) (hb : Branching next r D) (hp : i :: p ∈ D)
    (ht : descend next r p = some t) (h0 : next t i = none) (hs : ¬ Reached next r D s)
    (hn : ∀ j q x, j :: q ∈ D → x = s ∨ Reached next r D x → next' x j = if x = t ∧ j = i
      then some s else if x = s then none else next x j) :
    Branching next' r D ∧ ∀ x, Reached next' r D x ↔ Reached next r D x ∨ x = s := by
  have hall := descend_add hD hb hp ht h0 hs hn
  have hnone : descend next r (i :: p) = none := by
    rw [descend_cons, ht]
    exact h0
  refine ⟨fun q hq q' hq' x hx hx' => ?_, fun x => ⟨?_, ?_⟩⟩
  · rw [hall q hq] at hx
    rw [hall q' hq'] at hx'
    split at hx
    · rename_i h1
      split at hx'
      · rename_i h2
        rw [h1, h2]
      · exact absurd ⟨q', hq', hx'.trans hx.symm⟩ hs
    · split at hx'
      · exact absurd ⟨q, hq, hx.trans hx'.symm⟩ hs
      · exact hb q hq q' hq' x hx hx'
  · rintro ⟨q, hq, hx⟩
    rw [hall q hq] at hx
    split at hx
    · exact .inr (Option.some.inj hx).symm
    · exact .inl ⟨q, hq, hx⟩
  · rintro (⟨q, hq, hx⟩ | rfl)
    · refine ⟨q, hq, ?_⟩
      rw [hall q hq, if_neg]
      · exact hx
      · rintro rfl
        rw [hnone] at hx
        cases hx
    · exact ⟨i :: p, hp, by rw [hall _ hp, if_pos rfl]⟩

end

/-- The same tables are reached. -/
theorem reached_congr (h : ∀ p ∈ D, descend next' r p = descend next r p) (t : T) :
    Reached next' r D t ↔ Reached next r D t :=
  exists_congr fun p => and_congr_right fun hp => by rw [h p hp]

theorem Branching.congr (hb : Branching next r D) (h : ∀ p ∈ D, descend next' r p = descend next r p) :
    Branching next' r D := fun p hp q hq t ht ht' => hb p hp q hq t (h p hp ▸ ht) (h q hq ▸ ht')

end VampireOS.Lib
