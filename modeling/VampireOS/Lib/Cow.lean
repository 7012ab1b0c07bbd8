import VampireOS.Lib.Fiber
import Mathlib.Logic.Function.Basic

/-!
# Copy-on-write sharing

Sites (a page of an address space) show frames. A `Leaf` says which frame, whether the site's
owner may write to it, and whether the hardware already lets writes through. `refs` records
counts for some frames; `count refs f` reads an absent record as one.

`CowOk` is the accounting invariant: a record is the number of sites that show the frame, a frame
without a record is shown at most once, and a site that hardware-writes is alone on its frame.
One lemma for each thing a virtual memory system does to a site.
-/

namespace VampireOS.Lib

structure Leaf (φ : Type*) where
  frame : φ
  want : Bool
  hw : Bool
deriving DecidableEq, Repr

variable {α φ : Type*} [DecidableEq φ]

def frameOf (g : α → Option (Leaf φ)) (x : α) : Option φ := (g x).map Leaf.frame

/-- The number of sites that show `f`. -/
def mappings (S : Finset α) (g : α → Option (Leaf φ)) (f : φ) : Nat := fiber S (frameOf g) f

def count (refs : φ → Option Nat) (f : φ) : Nat := (refs f).getD 1

structure CowOk (S : Finset α) (g : α → Option (Leaf φ)) (refs : φ → Option Nat) : Prop where
  exact : ∀ f n, refs f = some n → 0 < n ∧ mappings S g f = n
  single : ∀ f, refs f = none → mappings S g f ≤ 1
  writable : ∀ x ∈ S, ∀ l, g x = some l → l.hw = true → l.want = true ∧ mappings S g l.frame = 1

/-- One mapping of `f` less: the record goes when the count reaches zero. -/
def putRefs (refs : φ → Option Nat) (f : φ) : φ → Option Nat :=
  Function.update refs f (if count refs f ≤ 1 then none else some (count refs f - 1))

/-- One mapping of `f` more. -/
def shareRefs (refs : φ → Option Nat) (f : φ) : φ → Option Nat :=
  Function.update refs f (some (count refs f + 1))

theorem mappings_pos {S : Finset α} {g : α → Option (Leaf φ)} {x : α} {l : Leaf φ} (hx : x ∈ S)
    (h : g x = some l) : 0 < mappings S g l.frame := fiber_pos.2 ⟨x, hx, by simp [frameOf, h]⟩

theorem mappings_eq_zero {S : Finset α} {g : α → Option (Leaf φ)} {f : φ} :
    mappings S g f = 0 ↔ ∀ x ∈ S, ∀ l, g x = some l → l.frame ≠ f := by
  unfold mappings
  rw [fiber_eq_zero]
  refine forall₂_congr fun x _ => ?_
  cases hg : g x <;> simp [frameOf, hg]

theorem mappings_congr {S : Finset α} {g g' : α → Option (Leaf φ)} (h : ∀ x ∈ S, g' x = g x) (f : φ) :
    mappings S g' f = mappings S g f := fiber_congr (fun x hx => by simp [frameOf, h x hx]) f

section
variable {S : Finset α} {g g' : α → Option (Leaf φ)} {refs refs' : φ → Option Nat} {x y : α}
  {l : Leaf φ} {f : φ}

/-- The count of a mapped frame is the number of its mappings. -/
theorem CowOk.count_eq (h : CowOk S g refs) (hx : x ∈ S) (hg : g x = some l) :
    count refs l.frame = mappings S g l.frame := by
  unfold count
  cases hr : refs l.frame with
  | some n => exact (h.exact _ _ hr).2.symm
  | none =>
    have := h.single _ hr
    have := mappings_pos hx hg
    simp only [Option.getD_none]
    omega

/-- A frame that no site shows has no record. -/
theorem CowOk.refs_none (h : CowOk S g refs) (hf : mappings S g f = 0) : refs f = none := by
  cases hr : refs f with
  | none => rfl
  | some n => have := h.exact _ _ hr; omega

theorem CowOk.congr (h : CowOk S g refs) (hg : ∀ x ∈ S, g' x = g x) : CowOk S g' refs := by
  refine ⟨fun f n hr => ?_, fun f hr => ?_, fun x hx l hl hw => ?_⟩
  · rw [mappings_congr hg]; exact h.exact f n hr
  · rw [mappings_congr hg]; exact h.single f hr
  · rw [mappings_congr hg]; exact h.writable x hx l (hg x hx ▸ hl) hw

/-- Forget the record of a frame that is shown at most once. -/
theorem CowOk.forget (h : CowOk S g refs) (hf : mappings S g f ≤ 1) (hr : refs' f = none)
    (ho : ∀ b, b ≠ f → refs' b = refs b) : CowOk S g refs' := by
  refine ⟨fun b n hb => ?_, fun b hb => ?_, h.writable⟩
  · have hbf : b ≠ f := by rintro rfl; rw [hr] at hb; cases hb
    exact h.exact b n (ho b hbf ▸ hb)
  · by_cases hbf : b = f
    · subst hbf; exact hf
    · exact h.single b (ho b hbf ▸ hb)

variable [DecidableEq α]

theorem mappings_update (hx : x ∈ S) (h : ∀ y ∈ S, y ≠ x → g' y = g y) (f : φ) :
    mappings S g' f + (if frameOf g x = some f then 1 else 0) =
      mappings S g f + (if frameOf g' x = some f then 1 else 0) :=
  fiber_update hx (fun y hy hyx => by simp [frameOf, h y hy hyx]) f

/-- Map a frame that no site shows. -/
theorem CowOk.map (h : CowOk S g refs) (hx : x ∈ S) (hg : g x = none) (hf : mappings S g f = 0)
    (hx' : g' x = some ⟨f, true, true⟩) (hy : ∀ y ∈ S, y ≠ x → g' y = g y) : CowOk S g' refs := by
  have hr := h.refs_none hf
  have hm : ∀ b, mappings S g' b = mappings S g b + if b = f then 1 else 0 := by
    intro b
    have := mappings_update hx hy b
    simp only [frameOf, hg, hx', Option.map_none, Option.map_some, reduceCtorEq, if_false,
      Option.some.injEq] at this
    simp only [eq_comm (a := b)]
    omega
  refine ⟨fun b n hb => ?_, fun b hb => ?_, fun z hz l hl hw => ?_⟩
  · have hbf : b ≠ f := by rintro rfl; rw [hr] at hb; cases hb
    rw [hm, if_neg hbf]
    exact h.exact b n hb
  · rw [hm]
    by_cases hbf : b = f
    · subst hbf; rw [if_pos rfl]; omega
    · rw [if_neg hbf]; exact h.single b hb
  · by_cases hzx : z = x
    · subst hzx
      rw [hx'] at hl
      cases hl
      rw [hm, if_pos rfl, hf]
      exact ⟨rfl, rfl⟩
    · rw [hy z hz hzx] at hl
      obtain ⟨h1, h2⟩ := h.writable z hz l hl hw
      have : l.frame ≠ f := by rintro rfl; omega
      rw [hm, if_neg this]
      exact ⟨h1, h2⟩

/-- Unmap a site; the frame is unused afterwards exactly when its count was one. -/
theorem CowOk.drop (h : CowOk S g refs) (hx : x ∈ S) (hg : g x = some l) (hx' : g' x = none)
    (hy : ∀ y ∈ S, y ≠ x → g' y = g y) :
    CowOk S g' (putRefs refs l.frame) ∧ (mappings S g' l.frame = 0 ↔ count refs l.frame ≤ 1) := by
  have hc := h.count_eq hx hg
  have hpos := mappings_pos hx hg
  have hm : ∀ b, mappings S g' b + (if b = l.frame then 1 else 0) = mappings S g b := by
    intro b
    have := mappings_update hx hy b
    simp only [frameOf, hg, hx', Option.map_none, Option.map_some, reduceCtorEq, if_false,
      Option.some.injEq] at this
    simp only [eq_comm (a := b)]
    omega
  have hml : mappings S g' l.frame + 1 = mappings S g l.frame := by simpa using hm l.frame
  refine ⟨⟨fun b n hb => ?_, fun b hb => ?_, fun z hz k hk hw => ?_⟩, by omega⟩
  · by_cases hbl : b = l.frame
    · subst hbl
      rw [putRefs, Function.update_self] at hb
      split at hb
      · cases hb
      · cases hb; omega
    · rw [putRefs, Function.update_of_ne hbl] at hb
      have := hm b
      rw [if_neg hbl] at this
      rw [← Nat.add_zero (mappings S g' b), this]
      exact h.exact b n hb
  · by_cases hbl : b = l.frame
    · subst hbl
      rw [putRefs, Function.update_self] at hb
      split at hb
      · omega
      · cases hb
    · rw [putRefs, Function.update_of_ne hbl] at hb
      have := hm b
      rw [if_neg hbl] at this
      have := h.single b hb
      omega
  · have hzx : z ≠ x := by rintro rfl; rw [hx'] at hk; cases hk
    rw [hy z hz hzx] at hk
    obtain ⟨h1, h2⟩ := h.writable z hz k hk hw
    have hkl : k.frame ≠ l.frame := by
      -- two sites on one frame contradict the single mapping of a writable one
      intro e
      refine hzx (fiber_one (Nat.le_of_eq h2) hz hx ?_ ?_) <;> simp [frameOf, hk, hg, e]
    have := hm k.frame
    rw [if_neg hkl] at this
    exact ⟨h1, by omega⟩

/-- Fork shares a leaf: both sites show the frame and neither hardware-writes. -/
theorem CowOk.share (h : CowOk S g refs) (hx : x ∈ S) (hy : y ∈ S) (hxy : x ≠ y) (hg : g x = some l)
    (hgy : g y = none) (hx' : g' x = some { l with hw := false }) (hy' : g' y = some { l with hw := false })
    (hz : ∀ z ∈ S, z ≠ x → z ≠ y → g' z = g z) : CowOk S g' (shareRefs refs l.frame) := by
  have hc := h.count_eq hx hg
  have hpos := mappings_pos hx hg
  have hm : ∀ b, mappings S g' b = mappings S g b + if b = l.frame then 1 else 0 := by
    intro b
    -- `g'` shows the same frames as `g` except at `y`
    have h1 : ∀ z ∈ S, z ≠ y → frameOf g' z = frameOf g z := by
      intro z hzS hzy
      by_cases hzx : z = x
      · subst hzx; simp [frameOf, hx', hg]
      · simp [frameOf, hz z hzS hzx hzy]
    have := fiber_update hy h1 b
    simp only [frameOf, hgy, hy', Option.map_none, Option.map_some, reduceCtorEq, if_false,
      Option.some.injEq] at this
    simp only [eq_comm (a := b)]
    exact this
  refine ⟨fun b n hb => ?_, fun b hb => ?_, fun z hzS k hk hw => ?_⟩
  · rw [hm]
    by_cases hbl : b = l.frame
    · subst hbl
      rw [shareRefs, Function.update_self] at hb
      cases hb
      simp only [if_true]
      omega
    · rw [shareRefs, Function.update_of_ne hbl] at hb
      rw [if_neg hbl]
      exact h.exact b n hb
  · have hbl : b ≠ l.frame := by
      rintro rfl; rw [shareRefs, Function.update_self] at hb; cases hb
    rw [shareRefs, Function.update_of_ne hbl] at hb
    rw [hm, if_neg hbl]
    exact h.single b hb
  · have hzx : z ≠ x := by rintro rfl; rw [hx'] at hk; cases hk; cases hw
    have hzy : z ≠ y := by rintro rfl; rw [hy'] at hk; cases hk; cases hw
    rw [hz z hzS hzx hzy] at hk
    obtain ⟨h1, h2⟩ := h.writable z hzS k hk hw
    have hkl : k.frame ≠ l.frame := by
      intro e
      refine hzx (fiber_one (Nat.le_of_eq h2) hzS hx ?_ ?_) <;> simp [frameOf, hk, hg, e]
    rw [hm, if_neg hkl]
    exact ⟨h1, h2⟩

/-- Change what a site may do; hardware writes only on an unshared frame. -/
theorem CowOk.recolor (h : CowOk S g refs) (hx : x ∈ S) (hg : g x = some l) {w hw : Bool}
    (hx' : g' x = some ⟨l.frame, w, hw⟩) (hy : ∀ y ∈ S, y ≠ x → g' y = g y)
    (hh : hw = true → w = true ∧ count refs l.frame ≤ 1) : CowOk S g' refs := by
  have hm : ∀ b, mappings S g' b = mappings S g b := by
    intro b
    refine fiber_congr (fun z hz => ?_) b
    by_cases hzx : z = x
    · subst hzx; simp [frameOf, hx', hg]
    · simp [frameOf, hy z hz hzx]
  refine ⟨fun b n hb => ?_, fun b hb => ?_, fun z hz k hk hkw => ?_⟩
  · rw [hm]; exact h.exact b n hb
  · rw [hm]; exact h.single b hb
  · by_cases hzx : z = x
    · subst hzx
      rw [hx'] at hk
      cases hk
      obtain ⟨h1, h2⟩ := hh hkw
      have hc := h.count_eq hx hg
      have hpos := mappings_pos hx hg
      exact ⟨h1, by rw [hm]; show mappings S g l.frame = 1; omega⟩
    · rw [hy z hz hzx] at hk
      rw [hm]
      exact h.writable z hz k hk hkw

/-- Move a site from its frame to one that no site shows (the copy of copy-on-write). -/
theorem CowOk.move (h : CowOk S g refs) (hx : x ∈ S) (hg : g x = some l) (hf : mappings S g f = 0)
    (hx' : g' x = some ⟨f, true, true⟩) (hy : ∀ y ∈ S, y ≠ x → g' y = g y) :
    CowOk S g' (putRefs refs l.frame) := by
  have h1 : CowOk S (Function.update g x none) (putRefs refs l.frame) :=
    (h.drop hx hg (Function.update_self ..) fun y _ hyx => Function.update_of_ne hyx ..).1
  refine h1.map hx (Function.update_self ..) ?_ hx' fun y hyS hyx => ?_
  · rw [mappings_eq_zero] at hf ⊢
    intro z hz k hk
    by_cases hzx : z = x
    · subst hzx; rw [Function.update_self] at hk; cases hk
    · rw [Function.update_of_ne hzx] at hk
      exact hf z hz k hk
  · rw [Function.update_of_ne hyx]
    exact hy y hyS hyx

/-- Sites that show nothing come and go freely. -/
theorem CowOk.extend {T : Finset α} (h : CowOk S g refs) (hT : ∀ x ∈ T, g x = none) :
    CowOk (S ∪ T) g refs := by
  have hm : ∀ b, mappings (S ∪ T) g b = mappings S g b :=
    fiber_union_none fun x hx => by simp [frameOf, hT x hx]
  refine ⟨fun b n hb => ?_, fun b hb => ?_, fun z hz k hk hw => ?_⟩
  · rw [hm]; exact h.exact b n hb
  · rw [hm]; exact h.single b hb
  · rw [hm]
    rcases Finset.mem_union.1 hz with hz | hz
    · exact h.writable z hz k hk hw
    · rw [hT z hz] at hk; cases hk

theorem CowOk.shrink {T : Finset α} (h : CowOk (S ∪ T) g refs) (hT : ∀ x ∈ T, g x = none) :
    CowOk S g refs := by
  have hm : ∀ b, mappings (S ∪ T) g b = mappings S g b :=
    fiber_union_none fun x hx => by simp [frameOf, hT x hx]
  refine ⟨fun b n hb => ?_, fun b hb => ?_, fun z hz k hk hw => ?_⟩
  · rw [← hm]; exact h.exact b n hb
  · rw [← hm]; exact h.single b hb
  · rw [← hm]; exact h.writable z (Finset.mem_union_left _ hz) k hk hw

end

end VampireOS.Lib
