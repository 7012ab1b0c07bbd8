import Mathlib.Data.List.Chain
import Mathlib.Data.List.Nodup
import Mathlib.Data.List.Perm.Basic
import Mathlib.Tactic.Common

/-!
# Heaps of blocks

A heap laid out as blocks, each behind a header of `w` bytes. `take` is first fit: the first free
block that is large enough is given out, and what is left over of it becomes a block when there are
at least `g` bytes of it. `release` frees the block at an address and joins it with the block after
it when that one is free. `extend` adds bytes at the end. `used` is what the heap is for: which
blocks are given out and how large they are.
-/

namespace VampireOS.Lib

structure Block where
  size : Nat
  free : Bool
deriving DecidableEq, Repr

namespace Block

/-- The block can serve a request. -/
def Fits (need : Nat) (b : Block) : Prop := b.free = true ∧ need ≤ b.size

instance (need : Nat) (b : Block) : Decidable (b.Fits need) := inferInstanceAs (Decidable (_ ∧ _))

section
variable (w g need : Nat)

/-- The bytes that blocks take up. -/
def span : List Block → Nat
  | [] => 0
  | b :: bs => w + b.size + span bs

/-- What a block becomes when it serves a request. -/
def carve (b : Block) : List Block :=
  if g ≤ b.size - need then [⟨need, false⟩, ⟨b.size - need - w, true⟩] else [⟨b.size, false⟩]

/-- First fit among blocks that stand at `p`. -/
def take : Nat → List Block → Option (Nat × List Block)
  | _, [] => none
  | p, b :: bs =>
    if b.Fits need then some (p, carve w g need b ++ bs)
    else (take (p + w + b.size) bs).map fun x => (x.1, b :: x.2)

/-- A block that is freed, with the blocks after it. -/
def absorb (b : Block) : List Block → List Block
  | [] => [⟨b.size, true⟩]
  | n :: r => if n.free then ⟨b.size + w + n.size, true⟩ :: r else ⟨b.size, true⟩ :: n :: r

/-- The block at `q` is freed, among blocks that stand at `p`. -/
def release (q : Nat) : Nat → List Block → List Block
  | _, [] => []
  | p, b :: bs =>
    if p = q then (if b.free then b :: bs else absorb w b bs) else b :: release q (p + w + b.size) bs

/-- `extra` bytes more: for the last block when it is free, else as a free block. -/
def extend (extra : Nat) : List Block → List Block
  | [] => [⟨extra - w, true⟩]
  | [b] => if b.free then [⟨b.size + extra, true⟩] else [b, ⟨extra - w, true⟩]
  | b :: c :: bs => b :: extend extra (c :: bs)

/-- Address and size of the blocks that are given out. -/
def used : Nat → List Block → List (Nat × Nat)
  | _, [] => []
  | p, b :: bs => (if b.free then [] else [(p, b.size)]) ++ used (p + w + b.size) bs

end

variable {w g need p q n : Nat} {b : Block} {bs bs' l r : List Block}

/-! ## Append -/

@[simp] theorem span_append (l r : List Block) : span w (l ++ r) = span w l + span w r := by
  induction l with
  | nil => simp [span]
  | cons b l ih =>
    simp only [List.cons_append, span, ih]
    omega

theorem used_append (l r : List Block) : used w p (l ++ r) = used w p l ++ used w (p + span w l) r := by
  induction l generalizing p with
  | nil => simp [used, span]
  | cons b l ih =>
    simp only [List.cons_append, used, span, ih, List.append_assoc]
    congr 3
    omega

theorem length_le_span (bs : List Block) : w * bs.length ≤ span w bs := by
  induction bs with
  | nil => simp [span]
  | cons b bs ih =>
    rw [List.length_cons, Nat.mul_succ, span]
    omega

/-! ## Where blocks stand -/

theorem used_bounds :
    ∀ {p : Nat} {bs : List Block} {x : Nat × Nat}, x ∈ used w p bs → p ≤ x.1 ∧
    x.1 + w + x.2 ≤ p + span w bs
  | _, [], _, h => by cases h
  | p, b :: bs, x, h => by
    rw [used, List.mem_append] at h
    simp only [span]
    rcases h with h | h
    · split at h
      · cases h
      · cases List.mem_singleton.1 h
        simp only
        omega
    · have := used_bounds h
      omega

/-- Blocks that are given out do not overlap. -/
theorem used_apart (p : Nat) (bs : List Block) : (used w p bs).Pairwise fun x y => x.1 + w + x.2 ≤ y.1 := by
  induction bs generalizing p with
  | nil => exact .nil
  | cons b bs ih =>
    rw [used]
    split
    · exact ih _
    · refine List.pairwise_cons.2 ⟨fun y hy => ?_, ih _⟩
      have := (used_bounds hy).1
      simpa using this

/-- A block that is given out is one of the blocks. -/
theorem mem_used : (q, n) ∈ used w p bs ↔ ∃ l r, bs = l ++ ⟨n, false⟩ :: r ∧ q = p + span w l := by
  constructor
  · intro h
    induction bs generalizing p with
    | nil => cases h
    | cons b bs ih =>
      rw [used, List.mem_append] at h
      rcases h with h | h
      · split at h
        · cases h
        · rename_i hb
          cases List.mem_singleton.1 h
          refine ⟨[], bs, ?_, by simp [span]⟩
          rw [List.nil_append, ← Bool.eq_false_iff.2 hb]
      · obtain ⟨l, r, rfl, rfl⟩ := ih h
        refine ⟨b :: l, r, rfl, ?_⟩
        simp only [span]
        omega
  · rintro ⟨l, r, rfl, rfl⟩
    rw [used_append, used]
    simp

theorem used_disjoint {x y : Nat × Nat} (hx : x ∈ used w p bs) (hy : y ∈ used w p bs) (hne : x.1 ≠ y.1) :
    x.1 + w + x.2 ≤ y.1 ∨ y.1 + w + y.2 ≤ x.1 := by
  let R (x y : Nat × Nat) : Prop := x.1 ≠ y.1 → x.1 + w + x.2 ≤ y.1 ∨ y.1 + w + y.2 ≤ x.1
  have hsymm : Std.Symm R := ⟨fun _ _ h hn => (h hn.symm).symm⟩
  have hpair : (used w p bs).Pairwise R := (used_apart p bs).imp fun h _ => .inl h
  exact hpair.forall_of_forall (fun _ _ h => absurd rfl h) hx hy hne

theorem used_nodup (hh : 0 < w) (p : Nat) (bs : List Block) : ((used w p bs).map Prod.fst).Nodup :=
  List.pairwise_map.2 ((used_apart p bs).imp fun h => by omega)

/-! ## `take` -/

theorem take_spec (h : take w g need p bs = some (q, bs')) :
    ∃ l b r, bs = l ++ b :: r ∧ b.Fits need ∧ q = p + span w l ∧ bs' = l ++ (carve w g need b ++ r) ∧
      ∀ c ∈ l, ¬c.Fits need := by
  induction bs generalizing p bs' with
  | nil => cases h
  | cons b bs ih =>
    rw [take] at h
    split at h
    · rename_i hb
      cases h
      exact ⟨[], b, bs, rfl, hb, rfl, rfl, nofun⟩
    · rename_i hb
      obtain ⟨⟨q', r'⟩, he, h⟩ := Option.map_eq_some_iff.1 h
      cases h
      obtain ⟨l, c, r, rfl, hc, rfl, rfl, hno⟩ := ih he
      refine ⟨b :: l, c, r, rfl, hc, ?_, rfl, List.forall_mem_cons.2 ⟨hb, hno⟩⟩
      simp only [span]
      omega

theorem take_eq_none : take w g need p bs = none ↔ ∀ b ∈ bs, ¬b.Fits need := by
  induction bs generalizing p with
  | nil => simp [take]
  | cons b bs ih =>
    rw [take]
    split
    · rename_i hb
      simp [hb]
    · rename_i hb
      simp [hb, ih]

theorem span_carve (hg : w ≤ g) (hb : b.Fits need) : span w (carve w g need b) = w + b.size := by
  have := hb.2
  unfold carve
  split
  · simp only [span]
    omega
  · simp [span]

theorem used_carve (hb : b.Fits need) :
    ∃ n, need ≤ n ∧ n ≤ b.size ∧ used w p (carve w g need b) = [(p, n)] := by
  unfold carve
  split
  · exact ⟨need, le_rfl, hb.2, by simp [used]⟩
  · exact ⟨b.size, hb.2, le_rfl, by simp [used]⟩

theorem span_take (hg : w ≤ g) (h : take w g need p bs = some (q, bs')) : span w bs' = span w bs := by
  obtain ⟨l, b, r, rfl, hb, -, rfl, -⟩ := take_spec h
  simp only [span_append, span, span_carve hg hb]

/-- `take` gives out one block more, and it is large enough. -/
theorem used_take (hg : w ≤ g) (h : take w g need p bs = some (q, bs')) :
    ∃ n, need ≤ n ∧ (used w p bs').Perm ((q, n) :: used w p bs) := by
  obtain ⟨l, b, r, rfl, hb, rfl, rfl, -⟩ := take_spec h
  obtain ⟨n, hn, -, e⟩ := used_carve (w := w) (g := g) (p := p + span w l) hb
  refine ⟨n, hn, ?_⟩
  simp only [used_append, e, span_carve hg hb, used, hb.1, if_true, List.nil_append, List.singleton_append]
  rw [show p + span w l + (w + b.size) = p + span w l + w + b.size by omega]
  exact List.perm_middle

theorem mem_used_take (hh : 0 < w) (hg : w ≤ g) (h : take w g need p bs = some (q, bs')) :
    ∃ n, need ≤ n ∧ (∀ x, x ∈ used w p bs' ↔ x = (q, n) ∨ x ∈ used w p bs) ∧ ∀ n', (q, n') ∉ used w p bs := by
  obtain ⟨n, hn, hperm⟩ := used_take hg h
  have hnodup := (hperm.map Prod.fst).nodup_iff.1 (used_nodup hh p bs')
  refine ⟨n, hn, fun x => by rw [hperm.mem_iff, List.mem_cons], fun n' hm => ?_⟩
  exact (List.nodup_cons.1 hnodup).1 (List.mem_map.2 ⟨_, hm, rfl⟩)

/-! ## `release` -/

/-- Where no block is given out, `release` does nothing. -/
theorem release_eq_self (h : ∀ n, (q, n) ∉ used w p bs) : release w q p bs = bs := by
  induction bs generalizing p with
  | nil => rfl
  | cons b bs ih =>
    rw [release]
    split
    · rename_i hp
      split
      · rfl
      · rename_i hb
        refine absurd ?_ (h b.size)
        rw [used, if_neg hb, hp]
        exact List.mem_append_left _ (List.mem_singleton_self _)
    · rw [ih fun n hn => h n ?_]
      rw [used]
      exact List.mem_append_right _ hn

theorem release_at (hh : 0 < w) (l r : List Block) (n : Nat) :
    release w (p + span w l) p (l ++ ⟨n, false⟩ :: r) = l ++ absorb w ⟨n, false⟩ r := by
  induction l generalizing p with
  | nil => simp [release, span]
  | cons b l ih =>
    rw [List.cons_append, release, if_neg]
    · rw [show p + span w (b :: l) = p + w + b.size + span w l by simp only [span]; omega, ih]
      rfl
    · simp only [span]
      omega

theorem span_absorb (b : Block) (r : List Block) : span w (absorb w b r) = w + b.size + span w r := by
  cases r with
  | nil => simp [absorb, span]
  | cons n r =>
    rw [absorb]
    split
    · simp only [span]
      omega
    · simp only [span]

theorem used_absorb (b : Block) (r : List Block) : used w p (absorb w b r) = used w (p + w + b.size) r := by
  cases r with
  | nil => simp [absorb, used]
  | cons n r =>
    rw [absorb]
    split
    · rename_i hn
      simp only [used, hn, if_true, List.nil_append]
      congr 1
      omega
    · simp [used]

theorem span_release (hh : 0 < w) : span w (release w q p bs) = span w bs := by
  by_cases h : ∃ n, (q, n) ∈ used w p bs
  · obtain ⟨n, hn⟩ := h
    obtain ⟨l, r, rfl, rfl⟩ := mem_used.1 hn
    rw [release_at hh, span_append, span_append, span_absorb]
    simp only [span]
  · rw [release_eq_self (not_exists.1 h)]

/-- `release` takes exactly the block at `q` back. -/
theorem used_release (hh : 0 < w) (h : (q, n) ∈ used w p bs) :
    (used w p bs).Perm ((q, n) :: used w p (release w q p bs)) := by
  obtain ⟨l, r, rfl, rfl⟩ := mem_used.1 h
  rw [release_at hh, used_append, used_append, used_absorb, used]
  exact List.perm_middle

theorem mem_used_release (hh : 0 < w) (h : (q, n) ∈ used w p bs) (x : Nat × Nat) :
    x ∈ used w p (release w q p bs) ↔ x ∈ used w p bs ∧ x.1 ≠ q := by
  have hperm := used_release hh h
  have hnodup := List.nodup_cons.1 ((hperm.map Prod.fst).nodup_iff.1 (used_nodup hh p bs))
  rw [hperm.mem_iff, List.mem_cons]
  constructor
  · exact fun hx => ⟨.inr hx, fun e => hnodup.1 (List.mem_map.2 ⟨x, hx, e⟩)⟩
  · rintro ⟨rfl | hx, hne⟩
    · exact absurd rfl hne
    · exact hx

/-! ## `extend` -/

theorem extend_spec (extra : Nat) (bs : List Block) :
    (bs = [] ∧ extend w extra bs = [⟨extra - w, true⟩]) ∨
      (∃ l n, bs = l ++ [⟨n, true⟩] ∧ extend w extra bs = l ++ [⟨n + extra, true⟩]) ∨
      ∃ l n, bs = l ++ [⟨n, false⟩] ∧ extend w extra bs = l ++ [⟨n, false⟩, ⟨extra - w, true⟩] := by
  induction bs with
  | nil => exact .inl ⟨rfl, rfl⟩
  | cons b bs ih =>
    cases bs with
    | nil =>
      obtain ⟨n, f⟩ := b
      cases f with
      | true => exact .inr (.inl ⟨[], n, rfl, rfl⟩)
      | false => exact .inr (.inr ⟨[], n, rfl, rfl⟩)
    | cons c bs =>
      rcases ih with ⟨e, -⟩ | ⟨l, n, e, e'⟩ | ⟨l, n, e, e'⟩
      · cases e
      · exact .inr (.inl ⟨b :: l, n, by rw [e]; rfl, by rw [extend, e']; rfl⟩)
      · exact .inr (.inr ⟨b :: l, n, by rw [e]; rfl, by rw [extend, e']; rfl⟩)

theorem span_extend {extra : Nat} (he : w ≤ extra) (bs : List Block) :
    span w (extend w extra bs) = span w bs + extra := by
  rcases extend_spec (w := w) extra bs with ⟨rfl, e⟩ | ⟨l, n, rfl, e⟩ | ⟨l, n, rfl, e⟩
  · rw [e]
    simp only [span]
    omega
  all_goals
    rw [e]
    simp only [span_append, span]
    omega

theorem used_extend (extra : Nat) (bs : List Block) : used w p (extend w extra bs) = used w p bs := by
  rcases extend_spec (w := w) extra bs with ⟨rfl, e⟩ | ⟨l, n, rfl, e⟩ | ⟨l, n, rfl, e⟩
  · rw [e]
    simp [used]
  all_goals
    rw [e]
    simp [used_append, used]

/-- After enough bytes more there is a block that fits. -/
theorem fits_extend {extra : Nat} (he : w + need ≤ extra) (bs : List Block) :
    ∃ b ∈ extend w extra bs, b.Fits need := by
  rcases extend_spec (w := w) extra bs with ⟨-, e⟩ | ⟨l, n, -, e⟩ | ⟨l, n, -, e⟩
  · exact ⟨_, by rw [e]; exact List.mem_singleton_self _, rfl, by simp only; omega⟩
  · exact ⟨⟨n + extra, true⟩, by simp [e], rfl, by simp only; omega⟩
  · exact ⟨⟨extra - w, true⟩, by simp [e], rfl, by simp only; omega⟩

/-! ## Sizes -/

/-- Every size is a multiple of `a`. -/
def Aligned (a : Nat) (bs : List Block) : Prop := ∀ b ∈ bs, a ∣ b.size

/-- The last block holds at least `k` bytes. -/
def Tail (k : Nat) (bs : List Block) : Prop := ∀ b, bs.getLast? = some b → k ≤ b.size

section
variable {a k extra : Nat}

theorem Aligned.take (h : Aligned a bs) (ha : a ∣ w) (hn : a ∣ need)
    (e : Block.take w g need p bs = some (q, bs')) : Aligned a bs' := by
  obtain ⟨l, b, r, rfl, hb, rfl, rfl, -⟩ := take_spec e
  have hsize : a ∣ b.size := h b (by simp)
  intro c hc
  rcases List.mem_append.1 hc with hc | hc
  · exact h c (by simp [hc])
  · rcases List.mem_append.1 hc with hc | hc
    · unfold carve at hc
      split at hc
      · rcases List.mem_cons.1 hc with rfl | hc
        · exact hn
        · rw [List.mem_singleton.1 hc]
          exact Nat.dvd_sub (Nat.dvd_sub hsize hn) ha
      · rw [List.mem_singleton.1 hc]
        exact hsize
    · exact h c (by simp [hc])

theorem Aligned.release (h : Aligned a bs) (hh : 0 < w) (ha : a ∣ w) :
    Aligned a (Block.release w q p bs) := by
  by_cases hq : ∃ n, (q, n) ∈ used w p bs
  · obtain ⟨n, hn⟩ := hq
    obtain ⟨l, r, rfl, rfl⟩ := mem_used.1 hn
    rw [release_at hh]
    have hsize : a ∣ n := h ⟨n, false⟩ (by simp)
    intro c hc
    rcases List.mem_append.1 hc with hc | hc
    · exact h c (by simp [hc])
    · cases r with
      | nil =>
        rw [List.mem_singleton.1 hc]
        exact hsize
      | cons m r =>
        have hm : a ∣ m.size := h m (by simp)
        rw [absorb] at hc
        split at hc
        · rcases List.mem_cons.1 hc with rfl | hc
          · exact Nat.dvd_add (Nat.dvd_add hsize ha) hm
          · exact h c (by simp [hc])
        · rcases List.mem_cons.1 hc with rfl | hc
          · exact hsize
          · exact h c (by simpa using .inr (.inr (List.mem_cons.1 hc)))
  · rw [release_eq_self (not_exists.1 hq)]
    exact h

theorem Aligned.extend (h : Aligned a bs) (ha : a ∣ w) (he : a ∣ extra) :
    Aligned a (Block.extend w extra bs) := by
  rcases extend_spec (w := w) extra bs with ⟨rfl, e⟩ | ⟨l, n, rfl, e⟩ | ⟨l, n, rfl, e⟩
  all_goals
    rw [e]
    intro c hc
  · rw [List.mem_singleton.1 hc]
    exact Nat.dvd_sub he ha
  · rcases List.mem_append.1 hc with hc | hc
    · exact h c (by simp [hc])
    · rw [List.mem_singleton.1 hc]
      exact Nat.dvd_add (h ⟨n, true⟩ (by simp)) he
  · rcases List.mem_append.1 hc with hc | hc
    · exact h c (by simp [hc])
    · rcases List.mem_cons.1 hc with rfl | hc
      · exact h _ (by simp)
      · rw [List.mem_singleton.1 hc]
        exact Nat.dvd_sub he ha

theorem tail_append (h : r ≠ []) : Tail k (l ++ r) ↔ Tail k r := by
  unfold Tail
  rw [List.getLast?_append_of_ne_nil _ h]

theorem tail_cons (h : r ≠ []) : Tail k (b :: r) ↔ Tail k r := tail_append (l := [b]) h

theorem tail_singleton : Tail k [b] ↔ k ≤ b.size := by simp [Tail]

theorem Tail.take (h : Tail k bs) (hg : w + k ≤ g) (e : Block.take w g need p bs = some (q, bs')) :
    Tail k bs' := by
  obtain ⟨l, b, r, rfl, hb, rfl, rfl, -⟩ := take_spec e
  have hc : carve w g need b ≠ [] := by
    unfold carve
    split <;> simp
  rw [tail_append (by simp)] at h
  rw [tail_append (by simp [hc])]
  cases r with
  | nil =>
    rw [tail_singleton] at h
    rw [List.append_nil]
    unfold carve
    split
    · rw [tail_cons (by simp), tail_singleton]
      simp only
      omega
    · rwa [tail_singleton]
  | cons c r =>
    rw [tail_cons (by simp)] at h
    rwa [tail_append (by simp)]

theorem Tail.release (h : Tail k bs) (hh : 0 < w) : Tail k (Block.release w q p bs) := by
  by_cases hq : ∃ n, (q, n) ∈ used w p bs
  · obtain ⟨n, hn⟩ := hq
    obtain ⟨l, r, rfl, rfl⟩ := mem_used.1 hn
    have hne : absorb w ⟨n, false⟩ r ≠ [] := by
      cases r with
      | nil => simp [absorb]
      | cons m r =>
        rw [absorb]
        split <;> simp
    rw [release_at hh, tail_append hne]
    rw [tail_append (by simp)] at h
    cases r with
    | nil =>
      rw [tail_singleton] at h
      exact tail_singleton.2 h
    | cons m r =>
      rw [tail_cons (by simp)] at h
      rw [absorb]
      split
      · cases r with
        | nil =>
          have := tail_singleton.1 h
          rw [tail_singleton]
          simp only
          omega
        | cons c r =>
          rw [tail_cons (by simp)] at h ⊢
          exact h
      · rwa [tail_cons (by simp)]
  · rw [release_eq_self (not_exists.1 hq)]
    exact h

theorem Tail.extend (h : Tail k bs) (he : w + k ≤ extra) : Tail k (Block.extend w extra bs) := by
  rcases extend_spec (w := w) extra bs with ⟨rfl, e⟩ | ⟨l, n, rfl, e⟩ | ⟨l, n, rfl, e⟩
  all_goals rw [e]
  · rw [tail_singleton]
    simp only
    omega
  · rw [tail_append (by simp), tail_singleton]
    simp only
    omega
  · rw [tail_append (by simp), tail_cons (by simp), tail_singleton]
    simp only
    omega

end

/-! ## No two free blocks side by side -/

def Separate (bs : List Block) : Prop := bs.IsChain fun b c => ¬(b.free = true ∧ c.free = true)

theorem separate_used {b : Block} (hb : b.free = false) (h : Separate bs) : Separate (b :: bs) := by
  refine List.isChain_cons.2 ⟨fun c _ hc => ?_, h⟩
  rw [hb] at hc
  exact Bool.noConfusion hc.1

theorem Separate.congr {b c : Block} (h : Separate (b :: bs)) (e : c.free = b.free) : Separate (c :: bs) := by
  obtain ⟨h1, h2⟩ := List.isChain_cons.1 h
  refine List.isChain_cons.2 ⟨fun d hd => ?_, h2⟩
  rw [e]
  exact h1 d hd

theorem Separate.take (h : Separate bs) (e : Block.take w g need p bs = some (q, bs')) : Separate bs' := by
  obtain ⟨l, b, r, rfl, hb, rfl, rfl, -⟩ := take_spec e
  obtain ⟨hl, hr, -⟩ := List.isChain_append.1 h
  have hrest : Separate (carve w g need b ++ r) := by
    unfold carve
    split
    · exact separate_used rfl (Separate.congr hr hb.1.symm)
    · exact separate_used rfl hr.tail
  refine List.isChain_append.2 ⟨hl, hrest, fun c _ d hd hc => ?_⟩
  have : d.free = false := by
    unfold carve at hd
    split at hd
    all_goals
      cases hd
      rfl
  rw [this] at hc
  exact Bool.noConfusion hc.2

/-- Blocks stay apart when the block before the freed one is not free. -/
theorem Separate.release (h : Separate bs) (hh : 0 < w)
    (hq : ∀ l b r, bs = l ++ b :: r → q = p + span w (l ++ [b]) → b.free = false) :
    Separate (Block.release w q p bs) := by
  by_cases hu : ∃ n, (q, n) ∈ used w p bs
  · obtain ⟨n, hn⟩ := hu
    obtain ⟨l, r, rfl, rfl⟩ := mem_used.1 hn
    rw [release_at hh]
    obtain ⟨hl, hr, -⟩ := List.isChain_append.1 h
    have hrest : Separate (absorb w ⟨n, false⟩ r) := by
      cases r with
      | nil => exact List.isChain_singleton _
      | cons m r =>
        rw [absorb]
        split
        · rename_i hm
          exact Separate.congr (b := m) hr.tail hm.symm
        · rename_i hm
          exact List.isChain_cons_cons.2 ⟨fun hc => hm hc.2, hr.tail⟩
    refine List.isChain_append.2 ⟨hl, hrest, fun c hc d _ hf => ?_⟩
    obtain ⟨l', rfl⟩ := List.getLast?_eq_some_iff.1 hc
    have := hq l' c (⟨n, false⟩ :: r) (by simp) rfl
    rw [this] at hf
    exact Bool.noConfusion hf.1
  · rw [release_eq_self (not_exists.1 hu)]
    exact h

/-- A heap of which nothing is given out is one block. -/
theorem Separate.whole (h : Separate bs) (hn : bs ≠ []) (hu : used w p bs = []) :
    bs = [⟨span w bs - w, true⟩] := by
  have hfree : ∀ b ∈ bs, b.free = true := by
    intro b hb
    obtain ⟨l, r, rfl⟩ := List.append_of_mem hb
    cases hf : b.free with
    | true => rfl
    | false =>
      have : (p + span w l, b.size) ∈ used w p (l ++ b :: r) := mem_used.2 ⟨l, r, by rw [← hf], rfl⟩
      rw [hu] at this
      cases this
  cases bs with
  | nil => exact absurd rfl hn
  | cons b bs =>
    cases bs with
    | nil =>
      have := hfree b (List.mem_singleton_self _)
      simp only [span, List.cons.injEq, and_true]
      rw [show w + b.size + 0 - w = b.size by omega, ← this]
    | cons c bs =>
      have := (List.isChain_cons_cons.1 h).1
      exact absurd ⟨hfree b (by simp), hfree c (by simp)⟩ this

end Block

end VampireOS.Lib
