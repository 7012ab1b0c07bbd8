import Mathlib.Data.List.Basic
import Mathlib.Data.List.Pairwise
import Mathlib.Tactic.Common

/-!
# A fixed table of reference counts

A table is a list of slots, each a key with a count; count 0 marks a free slot. `refs? tab k` is
the count stored for `k`. The table is `Unique` when no key has two live slots; then a table is
the finite map `refs?` and the three edits below change that map at one key only.
-/

namespace VampireOS.Lib

/-- One slot of a reference table. -/
structure RefSlot (κ : Type*) where
  key : κ
  refs : Nat
deriving DecidableEq, Repr

variable {κ : Type*}

/-- Rewrite the first element that satisfies `p`. -/
def modifyFirst {α : Type*} (p : α → Bool) (f : α → α) : List α → List α
  | [] => []
  | a :: l => if p a then f a :: l else a :: modifyFirst p f l

theorem mem_modifyFirst {α : Type*} {p : α → Bool} {f : α → α} {x : α} :
    ∀ {l : List α}, x ∈ modifyFirst p f l → x ∈ l ∨ ∃ a ∈ l, p a = true ∧ x = f a
  | [], h => by simp [modifyFirst] at h
  | a :: l, h => by
    unfold modifyFirst at h
    split at h
    · rename_i hp
      rcases List.mem_cons.1 h with rfl | h
      · exact Or.inr ⟨a, by simp, hp, rfl⟩
      · exact Or.inl (by simp [h])
    · rcases List.mem_cons.1 h with rfl | h
      · exact Or.inl (by simp)
      · rcases mem_modifyFirst h with h | ⟨b, hb, hpb, rfl⟩
        · exact Or.inl (by simp [h])
        · exact Or.inr ⟨b, by simp [hb], hpb, rfl⟩

/-- No key has two live slots. -/
def Unique (tab : List (RefSlot κ)) : Prop :=
  tab.Pairwise fun a b => a.refs ≠ 0 → b.refs ≠ 0 → a.key ≠ b.key

variable [DecidableEq κ]

/-- The slot is live and holds key `k`. -/
def hit (k : κ) (e : RefSlot κ) : Bool := e.refs != 0 && e.key == k

/-- The count stored for `k`, if any. -/
def refs? (tab : List (RefSlot κ)) (k : κ) : Option Nat := (tab.find? (hit k)).map RefSlot.refs

theorem hit_iff {k : κ} {e : RefSlot κ} : hit k e = true ↔ e.refs ≠ 0 ∧ e.key = k := by simp [hit]

theorem refs?_cons (a : RefSlot κ) (l : List (RefSlot κ)) (k : κ) :
    refs? (a :: l) k = if a.refs ≠ 0 ∧ a.key = k then some a.refs else refs? l k := by
  unfold refs?
  rw [List.find?_cons]
  by_cases h : a.refs ≠ 0 ∧ a.key = k
  · rw [if_pos h, (hit_iff (e := a)).2 h]; rfl
  · rw [if_neg h]
    have : hit k a = false := by
      cases hb : hit k a with
      | false => rfl
      | true => exact absurd (hit_iff.1 hb) h
    rw [this]

theorem refs?_eq_none {tab : List (RefSlot κ)} {k : κ} :
    refs? tab k = none ↔ ∀ e ∈ tab, e.refs ≠ 0 → e.key ≠ k := by
  induction tab with
  | nil => simp [refs?]
  | cons a l ih =>
    rw [refs?_cons]
    by_cases h : a.refs ≠ 0 ∧ a.key = k
    · simp [h]
    · rw [if_neg h, ih]
      simp only [List.mem_cons, forall_eq_or_imp]
      exact ⟨fun hl => ⟨fun h0 hk => h ⟨h0, hk⟩, hl⟩, fun hl => hl.2⟩

theorem refs?_pos {tab : List (RefSlot κ)} {k : κ} {n : Nat} (h : refs? tab k = some n) : 0 < n := by
  induction tab with
  | nil => simp [refs?] at h
  | cons a l ih =>
    rw [refs?_cons] at h
    split at h
    · rename_i ha; cases h; omega
    · exact ih h

theorem any_hit {tab : List (RefSlot κ)} {k : κ} : tab.any (hit k) = (refs? tab k).isSome := by
  induction tab with
  | nil => rfl
  | cons a l ih =>
    rw [refs?_cons, List.any_cons, ih]
    by_cases h : a.refs ≠ 0 ∧ a.key = k
    · simp [h, hit_iff.2 h]
    · have : hit k a = false := by simpa [hit] using h
      rw [if_neg h, this, Bool.false_or]

/-- Rewriting the slot of `k` (to another count, or to a free slot) changes the map at `k` only. -/
theorem refs?_modify {k : κ} {f : RefSlot κ → RefSlot κ} (hf : ∀ e, (f e).refs ≠ 0 → (f e).key = e.key) :
    ∀ {tab : List (RefSlot κ)}, Unique tab → ∀ k', refs? (modifyFirst (hit k) f tab) k' =
      if k' = k then
        (tab.find? (hit k)).bind fun e => if (f e).refs = 0 then none else some (f e).refs
      else refs? tab k'
  | [], _, k' => by simp [modifyFirst, refs?]
  | a :: l, hu, k' => by
    obtain ⟨ha, hl⟩ := List.pairwise_cons.1 hu
    unfold modifyFirst
    by_cases hk : hit k a = true
    · obtain ⟨h0, rfl⟩ := hit_iff.1 hk
      rw [if_pos hk, refs?_cons, List.find?_cons, hk]
      by_cases hk' : k' = a.key
      · -- the rest of the table has no second slot for this key
        subst hk'
        have hnone : refs? l a.key = none :=
          refs?_eq_none.2 fun e he he0 => Ne.symm (ha e he h0 he0)
        rw [if_pos rfl, hnone]
        by_cases hz : (f a).refs = 0
        · simp [hz]
        · simp [hz, hf a hz]
      · rw [if_neg hk', if_neg (fun h => hk' (h.2.symm.trans (hf a h.1))), refs?_cons,
          if_neg (fun h => hk' h.2.symm)]
    · rw [if_neg hk, refs?_cons, refs?_modify hf hl k', refs?_cons, List.find?_cons]
      have hkf : hit k a = false := by simpa using hk
      rw [hkf]
      by_cases hk' : k' = k
      · subst hk'
        rw [if_neg (fun h => hk (hit_iff.2 h)), if_pos rfl, if_pos rfl]
      · simp only [if_neg hk']

/-- Taking a free slot for a new key `k` changes the map at `k` only. -/
theorem refs?_insert {k : κ} {n : Nat} (hn : n ≠ 0) :
    ∀ {tab : List (RefSlot κ)}, refs? tab k = none → tab.any (fun e => e.refs == 0) = true → ∀ k',
      refs? (modifyFirst (fun e => e.refs == 0) (fun _ => ⟨k, n⟩) tab) k' =
        if k' = k then some n else refs? tab k'
  | [], _, h, _ => by simp at h
  | a :: l, hk, h, k' => by
    rw [refs?_cons] at hk
    unfold modifyFirst
    by_cases ha : a.refs = 0
    · simp only [ha, beq_self_eq_true, if_true]
      rw [refs?_cons, refs?_cons]
      simp [ha, hn, eq_comm]
    · have hak : a.key ≠ k := by
        intro e; simp [ha, e] at hk
      have hk2 : refs? l k = none := by simpa [ha, hak] using hk
      have h2 : l.any (fun e => e.refs == 0) = true := by simpa [ha] using h
      simp only [beq_iff_eq, ha, if_false]
      rw [refs?_cons, refs?_insert hn hk2 h2 k', refs?_cons]
      by_cases hk' : k' = k
      · subst hk'; simp [hak]
      · simp [hk']

theorem unique_modify {k : κ} {f : RefSlot κ → RefSlot κ} (hf : ∀ e, (f e).refs ≠ 0 → (f e).key = e.key) :
    ∀ {tab : List (RefSlot κ)}, Unique tab → Unique (modifyFirst (hit k) f tab)
  | [], _ => List.Pairwise.nil
  | a :: l, hu => by
    obtain ⟨ha, hl⟩ := List.pairwise_cons.1 hu
    unfold modifyFirst
    split
    · rename_i hk
      obtain ⟨h0, -⟩ := hit_iff.1 hk
      refine List.pairwise_cons.2 ⟨fun b hb hfa hb0 => ?_, hl⟩
      rw [hf a hfa]
      exact ha b hb h0 hb0
    · refine List.pairwise_cons.2 ⟨fun b hb ha0 hb0 => ?_, unique_modify hf hl⟩
      rcases mem_modifyFirst hb with hb | ⟨c, hc, hck, rfl⟩
      · exact ha b hb ha0 hb0
      · rw [hf c hb0]
        exact ha c hc ha0 (hit_iff.1 hck).1

theorem unique_insert {k : κ} {n : Nat} :
    ∀ {tab : List (RefSlot κ)}, Unique tab → refs? tab k = none →
      Unique (modifyFirst (fun e => e.refs == 0) (fun _ => ⟨k, n⟩) tab)
  | [], _, _ => List.Pairwise.nil
  | a :: l, hu, hk => by
    obtain ⟨ha, hl⟩ := List.pairwise_cons.1 hu
    have hall := refs?_eq_none.1 hk
    unfold modifyFirst
    split
    · exact List.pairwise_cons.2 ⟨fun b hb _ hb0 => Ne.symm (hall b (by simp [hb]) hb0), hl⟩
    · have hk2 : refs? l k = none := refs?_eq_none.2 fun e he => hall e (by simp [he])
      refine List.pairwise_cons.2 ⟨fun b hb ha0 hb0 => ?_, unique_insert hl hk2⟩
      rcases mem_modifyFirst hb with hb | ⟨c, hc, -, rfl⟩
      · exact ha b hb ha0 hb0
      · exact hall a (by simp) ha0

end VampireOS.Lib
