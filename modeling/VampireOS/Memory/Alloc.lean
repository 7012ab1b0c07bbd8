import Mathlib.Data.Finset.Card
import VampireOS.Memory.Pmm

/-!
# The frame allocator over a run (kernel/pmm.c)

| here | there |
| --- | --- |
| `pmmAllocSpan` | `pmm_alloc_span` (pmm.c:205) |
| `PmmOp`, `Pmm.step` | a call of `pmm_alloc`, `pmm_alloc_above`, `pmm_alloc_span` or `pmm_free` |
| `Pmm.clear` | the clear bits among the frames below `frame_count` |

A call hands out the first frames that suit it, except that `align_up` wraps for the last page of the
address space: `pmm_alloc_above` then starts at frame 0.
-/

namespace VampireOS

open Lib

namespace Pmm

/-- The inner loop of `pmm_alloc_span`. -/
def spanFree (used : Nat → Bool) (frame pages : Nat) : Bool :=
  (List.range pages).all fun i => used (frame + i) = false

/-- Its outer loop, over `n` candidates. -/
def findSpan (used : Nat → Bool) (pages : Nat) : Nat → Nat → Option Nat
  | 0, _ => none
  | n + 1, frame => if spanFree used frame pages then some frame else findSpan used pages n (frame + 1)

end Pmm

def pmmAllocSpan (p : Pmm) (pages : Nat) : Nat × Pmm :=
  if p.bitmapPhys = 0 ∨ pages = 0 ∨ pages > p.frameCount then (0, p)
  else
    let start := Pmm.alignUp Pmm.identityEnd pageSize / pageSize
    if start ≥ p.frameCount then (0, p)
    else
      match Pmm.findSpan p.used pages (p.frameCount - pages + 1 - start) start with
      | none => (0, p)
      | some f => (f * pageSize, forTo (fun i p => p.markUsed (f + i)) pages p)

inductive PmmOp where
  | alloc
  | allocAbove (minPhys : UInt64)
  | allocSpan (pages : UInt64)
  | free (phys : UInt64)
deriving DecidableEq

namespace PmmOp

/-- How many frames are asked for. -/
def pages : PmmOp → Nat
  | alloc => 1
  | allocAbove _ => 1
  | allocSpan n => n.toNat
  | free _ => 0

/-- The least address asked for. -/
def least : PmmOp → Nat
  | alloc => 0
  | allocAbove minPhys => minPhys.toNat
  | allocSpan _ => Pmm.identityEnd
  | free _ => 0

/-- The frame at which the search starts. -/
def start : PmmOp → Nat
  | alloc => 0
  | allocAbove minPhys => Pmm.alignUp minPhys.toNat pageSize / pageSize
  | allocSpan _ => Pmm.alignUp Pmm.identityEnd pageSize / pageSize
  | free _ => 0

end PmmOp

namespace Pmm

/-- A call's answer and what it leaves; `pmm_free` answers nothing. -/
def step (p : Pmm) : PmmOp → Nat × Pmm
  | .alloc => pmmAlloc p
  | .allocAbove minPhys => pmmAllocAbove p minPhys.toNat
  | .allocSpan pages => pmmAllocSpan p pages.toNat
  | .free phys => (0, pmmFree p phys.toNat)

def run (p : Pmm) (ops : List PmmOp) : Pmm := ops.foldl (fun p op => (p.step op).2) p

def clear (p : Pmm) : Finset Nat := (Finset.range p.frameCount).filter fun f => p.used f = false

/-- A run of `n` clear frames from `f` on. -/
structure ClearRun (p : Pmm) (n f : Nat) : Prop where
  some : 0 < n
  below : f + n ≤ p.frameCount
  clear : ∀ i, i < n → p.used (f + i) = false

/-- It suits a request when it is not below what is asked for. -/
structure Suits (p : Pmm) (op : PmmOp) (f : Nat) : Prop extends ClearRun p op.pages f where
  least : op.least ≤ f * pageSize

/-- What a call should do. -/
def Answers (p : Pmm) : PmmOp → Prop
  | .free phys => ∀ g, (pmmFree p phys.toNat).used g =
      if phys.toNat = g * pageSize ∧ p.reservedEnd ≤ phys.toNat ∧ g < p.frameCount then false else p.used g
  | op =>
    ((p.step op).1 = 0 → (p.step op).2 = p ∧ ∀ f, ¬ p.Suits op f) ∧
    ((p.step op).1 ≠ 0 → ∃ f, (p.step op).1 = f * pageSize ∧ p.Suits op f ∧ p.reservedEnd ≤ f * pageSize ∧
      ∀ g, (p.step op).2.used g = if f ≤ g ∧ g < f + op.pages then true else p.used g)

/-- The frames a call hands out. -/
def handed (p : Pmm) (op : PmmOp) (g : Nat) : Prop :=
  (p.step op).1 ≠ 0 ∧ (p.step op).1 / pageSize ≤ g ∧ g < (p.step op).1 / pageSize + op.pages

/-- No `pmm_alloc_above` for the last page of the address space while a frame is clear. -/
def Fits (p : Pmm) : PmmOp → Prop
  | .allocAbove minPhys => minPhys.toNat ≤ 2 ^ 64 - pageSize ∨ p.clear = ∅
  | _ => True

/-- The allocator is consistent all through the run. -/
structure Consistent (p : Pmm) (ops : List PmmOp) : Prop where
  count : ∀ done, done <+: ops → (p.run done).freeCount = (p.run done).clear.card
  reserved : ∀ done, done <+: ops → ∀ f, f * pageSize < (p.run done).reservedEnd → f ∉ (p.run done).clear
  answers : ∀ done op, done ++ [op] <+: ops → (p.run done).Answers op
  /-- No frame is handed out twice without being freed in between. -/
  once : ∀ done op mid op', done ++ op :: mid ++ [op'] <+: ops → ∀ g, (p.run done).handed op g →
    (∀ phys, phys.toNat = g * pageSize → .free phys ∉ mid) → ¬ (p.run (done ++ op :: mid)).handed op' g

/-! ## The counter -/

section
variable {p : Pmm} {f g n : Nat}

theorem mem_clear : f ∈ p.clear ↔ f < p.frameCount ∧ p.used f = false := by
  rw [clear, Finset.mem_filter, Finset.mem_range]

/-- The counter counts the clear bits. -/
def Counted (p : Pmm) : Prop := p.freeCount = p.clear.card

theorem Counted.markUsed (h : p.Counted) (f : Nat) : (p.markUsed f).Counted := by
  unfold Pmm.markUsed
  split
  · exact h
  · rename_i hc
    split
    · rename_i hu
      have hf : f ∈ p.clear := mem_clear.2 ⟨by omega, hu⟩
      have he : clear { p with
          used := fun g => if g = f then true else p.used g, freeCount := p.freeCount - 1 } =
          p.clear.erase f := by
        ext g
        rw [Finset.mem_erase, mem_clear, mem_clear]
        by_cases hg : g = f <;> simp [hg]
      unfold Counted
      rw [he, Finset.card_erase_of_mem hf, ← show p.freeCount = p.clear.card from h]
    · exact h

theorem Counted.markFree (h : p.Counted) (f : Nat) : (p.markFree f).Counted := by
  unfold Pmm.markFree
  split
  · exact h
  · rename_i hc
    split
    · rename_i hu
      have hf : f ∉ p.clear := fun hf => by
        rw [(mem_clear.1 hf).2] at hu
        cases hu
      have he : clear { p with
          used := fun g => if g = f then false else p.used g, freeCount := p.freeCount + 1 } =
          insert f p.clear := by
        ext g
        rw [Finset.mem_insert, mem_clear, mem_clear]
        by_cases hg : g = f
        · subst hg
          simp
          omega
        · simp [hg]
      unfold Counted
      rw [he, Finset.card_insert_of_notMem hf, ← show p.freeCount = p.clear.card from h]
    · exact h

theorem Counted.allocFrame (h : p.Counted) (start : Nat) : (p.allocFrame start).2.Counted := by
  unfold Pmm.allocFrame
  split
  · exact h
  · split
    · exact h
    · exact h.markUsed _

theorem Counted.step (h : p.Counted) (op : PmmOp) : (p.step op).2.Counted := by
  cases op with
  | alloc => exact h.allocFrame 0
  | allocAbove minPhys => exact h.allocFrame _
  | allocSpan pages =>
    change (pmmAllocSpan p pages.toNat).2.Counted
    unfold pmmAllocSpan
    dsimp only
    split
    · exact h
    · split
      · exact h
      · split
        · exact h
        · exact forTo_inv (fun _ (p : Pmm) => p.Counted) h fun i q _ hq => hq.markUsed _
  | free phys =>
    change (pmmFree p phys.toNat).Counted
    unfold pmmFree
    split
    · exact h
    · exact h.markFree _

/-! ## One call -/

/-- Only the bitmap and the counter differ. -/
structure Keeps (p p' : Pmm) : Prop where
  frames : p'.frameCount = p.frameCount
  reserved : p'.reservedEnd = p.reservedEnd
  bitmap : p'.bitmapPhys = p.bitmapPhys

theorem markUsed_keeps (p : Pmm) (f : Nat) : Keeps p (p.markUsed f) := by
  unfold Pmm.markUsed
  split
  · exact ⟨rfl, rfl, rfl⟩
  · split <;> exact ⟨rfl, rfl, rfl⟩

theorem markFree_keeps (p : Pmm) (f : Nat) : Keeps p (p.markFree f) := by
  unfold Pmm.markFree
  split
  · exact ⟨rfl, rfl, rfl⟩
  · split <;> exact ⟨rfl, rfl, rfl⟩

theorem markUsed_used (hb : p.bitmapPhys ≠ 0) (f g : Nat) :
    (p.markUsed f).used g = if g = f ∧ f < p.frameCount then true else p.used g := by
  unfold Pmm.markUsed
  split
  · rename_i hc
    rw [if_neg fun h => by rcases hc with hc | hc <;> [omega; exact hb hc]]
  · rename_i hc
    have hf : f < p.frameCount := by omega
    split
    · simp [hf]
    · rename_i hu
      split
      · next h =>
        rw [h.1]
        simpa using hu
      · rfl

theorem markFree_used (hb : p.bitmapPhys ≠ 0) (f g : Nat) :
    (p.markFree f).used g = if g = f ∧ f < p.frameCount then false else p.used g := by
  unfold Pmm.markFree
  split
  · rename_i hc
    rw [if_neg fun h => by rcases hc with hc | hc <;> [omega; exact hb hc]]
  · rename_i hc
    have hf : f < p.frameCount := by omega
    split
    · simp [hf]
    · rename_i hu
      split
      · next h =>
        rw [h.1]
        simpa using hu
      · rfl

/-- A loop that marks `n` frames from `f` on. -/
theorem markRun_spec (hb : p.bitmapPhys ≠ 0) (f n : Nat) :
    Keeps p (forTo (fun i p => p.markUsed (f + i)) n p) ∧
      ∀ g, (forTo (fun i p => p.markUsed (f + i)) n p).used g =
        if (f ≤ g ∧ g < f + n) ∧ g < p.frameCount then true else p.used g := by
  induction n with
  | zero => exact ⟨⟨rfl, rfl, rfl⟩, fun g => by rw [if_neg (by omega)]; rfl⟩
  | succ n ih =>
    obtain ⟨h1, h2⟩ := ih
    have h3 := markUsed_keeps (forTo (fun i p => p.markUsed (f + i)) n p) (f + n)
    refine ⟨⟨h3.frames.trans h1.frames, h3.reserved.trans h1.reserved, h3.bitmap.trans h1.bitmap⟩,
      fun g => ?_⟩
    rw [forTo, markUsed_used (by rw [h1.bitmap]; exact hb), h1.frames, h2]
    by_cases hg : g = f + n ∧ f + n < p.frameCount
    · rw [if_pos hg, if_pos (by omega)]
    · rw [if_neg hg]
      congr 1
      exact propext (by omega)

/-- A loop that frees them. -/
theorem freeRun_spec (hb : p.bitmapPhys ≠ 0) (f n : Nat) :
    Keeps p (forTo (fun i p => p.markFree (f + i)) n p) ∧
      ∀ g, (forTo (fun i p => p.markFree (f + i)) n p).used g =
        if (f ≤ g ∧ g < f + n) ∧ g < p.frameCount then false else p.used g := by
  induction n with
  | zero => exact ⟨⟨rfl, rfl, rfl⟩, fun g => by rw [if_neg (by omega)]; rfl⟩
  | succ n ih =>
    obtain ⟨h1, h2⟩ := ih
    have h3 := markFree_keeps (forTo (fun i p => p.markFree (f + i)) n p) (f + n)
    refine ⟨⟨h3.frames.trans h1.frames, h3.reserved.trans h1.reserved, h3.bitmap.trans h1.bitmap⟩,
      fun g => ?_⟩
    rw [forTo, markFree_used (by rw [h1.bitmap]; exact hb), h1.frames, h2]
    by_cases hg : g = f + n ∧ f + n < p.frameCount
    · rw [if_pos hg, if_pos (by omega)]
    · rw [if_neg hg]
      congr 1
      exact propext (by omega)

theorem spanFree_iff {used : Nat → Bool} : spanFree used f n = true ↔ ∀ i, i < n → used (f + i) = false := by
  simp [spanFree]

theorem findSpan_some {used : Nat → Bool} {c frame : Nat} (h : findSpan used n c frame = some f) :
    frame ≤ f ∧ f < frame + c ∧ ∀ i, i < n → used (f + i) = false := by
  induction c generalizing frame with
  | zero => cases h
  | succ c ih =>
    unfold findSpan at h
    split at h
    · rename_i hs
      cases h
      exact ⟨Nat.le_refl _, by omega, spanFree_iff.1 hs⟩
    · obtain ⟨h1, h2, h3⟩ := ih h
      exact ⟨by omega, by omega, h3⟩

theorem findSpan_none {used : Nat → Bool} {c frame : Nat} (h : findSpan used n c frame = none)
    (h1 : frame ≤ f) (h2 : f < frame + c) : ¬ ∀ i, i < n → used (f + i) = false := by
  induction c generalizing frame with
  | zero => omega
  | succ c ih =>
    unfold findSpan at h
    split at h
    · cases h
    · rename_i hs
      by_cases hf : f = frame
      · rw [hf, ← spanFree_iff]
        exact hs
      · exact ih h (by omega) (by omega)

/-- A run that was granted: the first at or above `start`, which is marked used. -/
structure Granted (p : Pmm) (n start f : Nat) (res : Nat × Pmm) : Prop extends ClearRun p n f where
  start : start ≤ f
  answer : res.1 = f * pageSize
  above : p.reservedEnd ≤ f * pageSize
  keeps : Keeps p res.2
  used : ∀ g, res.2.used g = if f ≤ g ∧ g < f + n then true else p.used g

/-- A clear frame is not reserved. -/
theorem Ok.above (hp : p.Ok) (hf : f < p.frameCount) (hu : p.used f = false) :
    p.reservedEnd ≤ f * pageSize := by
  by_contra hlt
  rw [hp.reserved f hf (by omega)] at hu
  cases hu

theorem Granted.ne_zero {start : Nat} {res : Nat × Pmm} (hp : p.Ok) (h : Granted p n start f res) :
    res.1 ≠ 0 := by
  have hlow := hp.low (by have := h.some; have := h.below; omega)
  have habove := h.above
  rw [h.answer]
  simp only [kernelEnd] at hlow
  omega

theorem allocFrame_granted (hp : p.Ok) (start : Nat) :
    (p.allocFrame start = (0, p) ∧ ∀ f, start ≤ f → ¬ ClearRun p 1 f) ∨
      ∃ f, Granted p 1 start f (p.allocFrame start) := by
  unfold allocFrame
  by_cases hb : p.bitmapPhys = 0
  · rw [if_pos hb]
    exact .inl ⟨rfl, fun f _ hr => hp.bitmap (by have := hr.below; omega) hb⟩
  · rw [if_neg hb]
    cases hf : findFree p.used (p.frameCount - start) start with
    | none =>
      refine .inl ⟨rfl, fun f h1 hr => ?_⟩
      have hbelow := hr.below
      have hclear := hr.clear 0 (by decide)
      rw [Nat.add_zero, findFree_none hf f h1 (by omega)] at hclear
      cases hclear
    | some f =>
      obtain ⟨h1, h2, h3⟩ := findFree_some hf
      have hlt : f < p.frameCount := by omega
      refine .inr ⟨f, ⟨by decide, by omega, fun i hi => ?_⟩, h1, rfl, hp.above hlt h3,
        markUsed_keeps p f, fun g => ?_⟩
      · obtain rfl : i = 0 := by omega
        exact h3
      · rw [markUsed_used hb]
        congr 1
        exact propext (by omega)

theorem pmmAllocSpan_granted (hp : p.Ok) (n : Nat) :
    (pmmAllocSpan p n = (0, p) ∧ ∀ f, 512 ≤ f → ¬ ClearRun p n f) ∨
    ∃ f, Granted p n 512 f (pmmAllocSpan p n) := by
  have hstart : alignUp identityEnd pageSize / pageSize = 512 := by decide
  unfold pmmAllocSpan
  simp only [hstart]
  split
  · rename_i hc
    refine .inl ⟨rfl, fun f _ hr => ?_⟩
    have h1 := hr.some
    have h2 := hr.below
    rcases hc with hc | hc | hc
    · exact hp.bitmap (by omega) hc
    · omega
    · omega
  · rename_i hc
    simp only [not_or, Nat.not_lt, gt_iff_lt] at hc
    obtain ⟨hb, h0, hle⟩ := hc
    split
    · refine .inl ⟨rfl, fun f _ hr => ?_⟩
      have h1 := hr.some
      have h2 := hr.below
      omega
    · cases hf : findSpan p.used n (p.frameCount - n + 1 - 512) 512 with
      | none =>
        refine .inl ⟨rfl, fun f h1 hr => ?_⟩
        have h2 := hr.below
        exact findSpan_none hf h1 (by omega) hr.clear
      | some f =>
        obtain ⟨h1, h2, h3⟩ := findSpan_some hf
        obtain ⟨k1, k2⟩ := markRun_spec hb f n
        have hfirst := h3 0 (by omega)
        have hcut : ∀ g, ((f ≤ g ∧ g < f + n) ∧ g < p.frameCount) ↔ (f ≤ g ∧ g < f + n) := fun g => by omega
        simp only [hcut] at k2
        exact .inr ⟨f, ⟨by omega, by omega, h3⟩, h1, rfl, hp.above (by omega) hfirst, k1, k2⟩

/-- **Every request** is granted the first run at or above its start, or there is none. -/
theorem request_granted (hp : p.Ok) {op : PmmOp} (hop : ∀ phys, op ≠ .free phys) :
    (p.step op = (0, p) ∧ ∀ f, op.start ≤ f → ¬ ClearRun p op.pages f) ∨
    ∃ f, Granted p op.pages op.start f (p.step op) := by
  cases op with
  | alloc => exact allocFrame_granted hp 0
  | allocAbove minPhys => exact allocFrame_granted hp _
  | allocSpan pages => exact pmmAllocSpan_granted hp pages.toNat
  | free phys => exact absurd rfl (hop phys)

theorem pmmFree_used (hp : p.Ok) (phys g : Nat) : (pmmFree p phys).used g =
    if phys = g * pageSize ∧ p.reservedEnd ≤ phys ∧ g < p.frameCount then false else p.used g := by
  unfold pmmFree
  split
  · rename_i hc
    rw [if_neg fun h => ?_]
    rcases hc with hc | hc
    · omega
    · exact hc (by rw [h.1]; exact Nat.mul_mod_left ..)
  · rename_i hc
    simp only [not_or, Nat.not_lt, not_not] at hc
    by_cases hb : p.bitmapPhys = 0
    · have hnone : ¬ g < p.frameCount := fun hg => hp.bitmap (by omega) hb
      rw [if_neg fun h => hnone h.2.2]
      unfold Pmm.markFree
      rw [if_pos (.inr hb)]
    · rw [markFree_used hb]
      congr 1
      simp only [pageSize] at hc ⊢
      exact propext (by omega)

theorem pmmFree_keeps (p : Pmm) (phys : Nat) : Keeps p (pmmFree p phys) := by
  unfold pmmFree
  split
  · exact ⟨rfl, rfl, rfl⟩
  · exact markFree_keeps p _

theorem Ok.of_keeps {p' : Pmm} (hp : p.Ok) (hk : Keeps p p')
    (hu : ∀ f, f < p.frameCount → f * pageSize < p.reservedEnd → p'.used f = true) : p'.Ok := by
  refine ⟨fun f hf hr => hu f (hk.frames ▸ hf) (hk.reserved ▸ hr), fun hf => ?_, ?_, fun hf => ?_⟩
  · rw [hk.reserved]
    exact hp.low (hk.frames ▸ hf)
  · rw [hk.frames]
    exact hp.room
  · rw [hk.bitmap]
    exact hp.bitmap (hk.frames ▸ hf)

theorem Ok.step (hp : p.Ok) (op : PmmOp) : (p.step op).2.Ok := by
  by_cases hop : ∀ phys, op ≠ .free phys
  · rcases request_granted hp hop with ⟨e, -⟩ | ⟨f, h⟩
    · rw [e]
      exact hp
    · refine hp.of_keeps h.keeps fun g hg hr => ?_
      rw [h.used]
      split
      · rfl
      · exact hp.reserved g hg hr
  · push Not at hop
    obtain ⟨phys, rfl⟩ := hop
    refine hp.of_keeps (pmmFree_keeps p _) fun g hg hr => ?_
    change (pmmFree p phys.toNat).used g = true
    rw [pmmFree_used hp, if_neg (by omega)]
    exact hp.reserved g hg hr

/-! ## Requests are answered -/

/-- The search starts where the request says. -/
theorem start_le_iff {op : PmmOp}
    (h : ∀ minPhys, op = .allocAbove minPhys → minPhys.toNat ≤ 2 ^ 64 - pageSize) :
    op.start ≤ f ↔ op.least ≤ f * pageSize := by
  cases op with
  | alloc => simp [PmmOp.start, PmmOp.least]
  | allocAbove minPhys =>
    have := h _ rfl
    simp only [PmmOp.start, PmmOp.least, alignUp, pageSize] at this ⊢
    omega
  | allocSpan pages =>
    simp only [PmmOp.start, PmmOp.least, alignUp, identityEnd, pageSize]
    omega
  | free phys => simp [PmmOp.start, PmmOp.least]

theorem answers_request {op : PmmOp} (hop : ∀ phys, op ≠ .free phys) : p.Answers op ↔
    ((p.step op).1 = 0 → (p.step op).2 = p ∧ ∀ f, ¬ p.Suits op f) ∧
    ((p.step op).1 ≠ 0 → ∃ f, (p.step op).1 = f * pageSize ∧ p.Suits op f ∧ p.reservedEnd ≤ f * pageSize ∧
      ∀ g, (p.step op).2.used g = if f ≤ g ∧ g < f + op.pages then true else p.used g) := by
  cases op with
  | free phys => exact absurd rfl (hop phys)
  | _ => rfl

theorem Granted.answers {op : PmmOp} (hp : p.Ok) (hop : ∀ phys, op ≠ .free phys)
    (h : Granted p op.pages op.start f (p.step op)) : p.Answers op ↔ op.least ≤ f * pageSize := by
  rw [answers_request hop]
  constructor
  · rintro ⟨-, h2⟩
    obtain ⟨g, hg, hs, -⟩ := h2 (h.ne_zero hp)
    rw [← h.answer, hg]
    exact hs.least
  · intro hl
    exact ⟨fun h0 => absurd h0 (h.ne_zero hp), fun _ => ⟨f, h.answer, ⟨h.toClearRun, hl⟩, h.above, h.used⟩⟩

/-- **A call does what it should** unless it asks for a frame in the last page of the address space
and there are clear frames. -/
theorem answers_iff (hp : p.Ok) (op : PmmOp) : p.Answers op ↔ p.Fits op := by
  by_cases hop : ∀ phys, op ≠ .free phys
  · by_cases hfit : ∀ minPhys, op = .allocAbove minPhys → minPhys.toNat ≤ 2 ^ 64 - pageSize
    · have hfits : p.Fits op := by
        cases op with
        | allocAbove minPhys => exact .inl (hfit _ rfl)
        | _ => trivial
      refine iff_of_true ?_ hfits
      rcases request_granted hp hop with ⟨e, hn⟩ | ⟨f, h⟩
      · rw [answers_request hop, e]
        exact ⟨fun _ => ⟨rfl, fun f hs => hn f ((start_le_iff hfit).2 hs.least) hs.toClearRun⟩,
          fun h => absurd rfl h⟩
      · exact (h.answers hp hop).2 ((start_le_iff hfit).1 h.start)
    · -- `align_up` wraps: the search starts at frame 0
      push Not at hfit
      obtain ⟨minPhys, rfl, hlarge⟩ := hfit
      have hstart : PmmOp.start (.allocAbove minPhys) = 0 := by
        have := minPhys.toNat_lt
        simp only [PmmOp.start, alignUp, pageSize] at hlarge ⊢
        omega
      have hfits : p.Fits (.allocAbove minPhys) ↔ p.clear = ∅ := or_iff_right (by omega)
      rw [hfits]
      rcases request_granted hp hop with ⟨e, hn⟩ | ⟨f, h⟩
      · refine iff_of_true ?_ ?_
        · rw [answers_request hop, e]
          exact ⟨fun _ => ⟨rfl, fun f hs => hn f (by omega) hs.toClearRun⟩, fun h => absurd rfl h⟩
        · refine Finset.eq_empty_of_forall_notMem fun f hf => hn f (by omega) ⟨Nat.one_pos, ?_,
            fun i hi => ?_⟩
          · exact (mem_clear.1 hf).1
          · obtain rfl : i = 0 := Nat.lt_one_iff.1 hi
            exact (mem_clear.1 hf).2
      · have hbelow := h.below
        have hroom := hp.room
        refine iff_of_false ?_ (Finset.nonempty_iff_ne_empty.1 ⟨f, mem_clear.2 ⟨?_, h.clear 0 h.some⟩⟩)
        · rw [h.answers hp hop]
          simp only [PmmOp.least, PmmOp.pages, pageSize] at *
          omega
        · have := h.some
          omega
  · push Not at hop
    obtain ⟨phys, rfl⟩ := hop
    exact iff_of_true (fun g => pmmFree_used hp _ g) trivial

/-! ## Runs -/

theorem Ok.run (hp : p.Ok) (ops : List PmmOp) : (p.run ops).Ok :=
  foldl_inv Ok (fun _ op h => h.step op) ops p hp

theorem Counted.run (hp : p.Counted) (ops : List PmmOp) : (p.run ops).Counted :=
  foldl_inv Counted (fun _ op h => h.step op) ops p hp

/-- What is handed out was clear and is used from then on. -/
theorem handed_used (hp : p.Ok) {op : PmmOp} (h : p.handed op g) :
    p.used g = false ∧ (p.step op).2.used g = true ∧ g < p.frameCount := by
  obtain ⟨h0, h1, h2⟩ := h
  have hop : ∀ phys, op ≠ .free phys := by
    rintro phys rfl
    exact h0 rfl
  rcases request_granted hp hop with ⟨e, -⟩ | ⟨f, hg⟩
  · rw [e] at h0
    exact absurd rfl h0
  · have hdiv : (p.step op).1 / pageSize = f := by
      rw [hg.answer]
      exact Nat.mul_div_cancel f (by decide)
    rw [hdiv] at h1 h2
    have hclear := hg.clear (g - f) (by omega)
    rw [Nat.add_sub_cancel' h1] at hclear
    refine ⟨hclear, ?_, by have := hg.below; omega⟩
    rw [hg.used, if_pos ⟨h1, h2⟩]

/-- It stays used until it is freed. -/
theorem used_step (hp : p.Ok) {op : PmmOp} (hf : ∀ phys, phys.toNat = g * pageSize → op ≠ .free phys)
    (h : p.used g = true) : (p.step op).2.used g = true := by
  by_cases hop : ∀ phys, op ≠ .free phys
  · rcases request_granted hp hop with ⟨e, -⟩ | ⟨f, hg⟩
    · rw [e]
      exact h
    · rw [hg.used]
      split
      · rfl
      · exact h
  · push Not at hop
    obtain ⟨phys, rfl⟩ := hop
    change (pmmFree p phys.toNat).used g = true
    rw [pmmFree_used hp, if_neg fun hc => hf phys hc.1 rfl]
    exact h

theorem used_run (hp : p.Ok) {ops : List PmmOp} (hf : ∀ phys, phys.toNat = g * pageSize → .free phys ∉ ops)
    (h : p.used g = true) : (p.run ops).used g = true := by
  induction ops generalizing p with
  | nil => exact h
  | cons op ops ih =>
    refine ih (hp.step op) (fun phys hphys hm => hf phys hphys (List.mem_cons_of_mem _ hm))
      (used_step hp ?_ h)
    rintro phys hphys rfl
    exact hf phys hphys List.mem_cons_self

/-! ## `pmm_init` -/

theorem Counted.region (h : p.Counted) (base length : Nat) : (pmmMarkRegionFree p base length).Counted := by
  unfold pmmMarkRegionFree
  dsimp only
  split
  · exact h
  · exact forTo_inv (fun _ (p : Pmm) => p.Counted) h fun i q _ hq => hq.markFree _

theorem Counted.usable (h : p.Counted) (es : List E820Entry) : (markUsable p es).Counted := by
  induction es generalizing p with
  | nil => exact h
  | cons e es ih =>
    unfold markUsable
    apply ih
    split
    · exact h.region _ _
    · exact h

end

end Pmm

/-- Either there is no whole usable frame and no allocator, or the two loops run. -/
theorem pmmInit_cases (map : E820Map) : (maxPhys map.seen 0 < pageSize ∧ pmmInit map = Pmm.empty) ∨
    ∃ frames stop, 0 < frames ∧ frames ≤ 0x6D0000 ∧ frames ≤ maxPhys map.seen 0 / pageSize ∧
      stop = (0x126000 + (frames + 7) / 8 + 4095) / pageSize * pageSize ∧
      pmmInit map = forTo (fun f p => p.markUsed f) (stop / pageSize)
        { markUsable ⟨fun _ => true, frames, 0, 0, 0x126000⟩ map.seen with reservedEnd := stop } := by
  have hbp : Pmm.alignUp Pmm.kernelEnd pageSize = 0x126000 := by decide
  unfold pmmInit
  simp only [hbp, Pmm.identityEnd]
  rw [if_neg (by decide)]
  generalize maxPhys map.seen 0 = top
  generalize hfc : (if top / pageSize > (0x200000 - 0x126000) * 8 then (0x200000 - 0x126000) * 8
    else top / pageSize) = frames
  have hle : frames ≤ 0x6D0000 ∧ frames ≤ top / pageSize ∧ (frames = 0 → top / pageSize = 0) := by
    rw [← hfc]
    split <;> omega
  split
  · rename_i hc
    refine .inl ⟨?_, rfl⟩
    simp only [pageSize] at *
    omega
  · rename_i hc
    refine .inr ⟨frames, Pmm.alignUp (0x126000 + (frames + 7) / 8) pageSize, by omega, hle.1,
      hle.2.1, ?_, rfl⟩
    simp only [Pmm.alignUp, pageSize]
    omega

theorem pmmInit_counted (map : E820Map) : (pmmInit map).Counted := by
  rcases pmmInit_cases map with ⟨-, e⟩ | ⟨frames, stop, -, -, -, -, e⟩
  · rw [e]
    rfl
  · rw [e]
    have hnone : Pmm.clear ⟨fun _ => true, frames, 0, 0, 0x126000⟩ = ∅ := by
      refine Finset.eq_empty_of_forall_notMem fun f hf => ?_
      cases (Pmm.mem_clear.1 hf).2
    have hstart : Pmm.Counted ⟨fun _ => true, frames, 0, 0, 0x126000⟩ := by
      unfold Pmm.Counted
      rw [hnone]
      rfl
    exact forTo_inv (fun _ (p : Pmm) => p.Counted) (hstart.usable map.seen) fun i q _ hq => hq.markUsed i

/-- **The frame allocator is consistent** over a run exactly when every call fits. -/
theorem pmm_consistent (map : E820Map) (ops : List PmmOp) : (pmmInit map).Consistent ops ↔
    ∀ done op, done ++ [op] <+: ops → ((pmmInit map).run done).Fits op := by
  have hok : ∀ done, ((pmmInit map).run done).Ok := fun done => (pmmInit_ok map).run done
  constructor
  · exact fun h done op hpre => (Pmm.answers_iff (hok done) op).1 (h.answers done op hpre)
  · intro hfit
    refine ⟨fun done _ => (pmmInit_counted map).run done, fun done _ f hr hc => ?_,
      fun done op hpre => ?_, ?_⟩
    · obtain ⟨hf, hu⟩ := Pmm.mem_clear.1 hc
      rw [(hok done).reserved f hf hr] at hu
      cases hu
    · exact (Pmm.answers_iff (hok done) op).2 (hfit done op hpre)
    · intro done op mid op' _ g hg hfree hg'
      obtain ⟨-, h1, -⟩ := Pmm.handed_used (hok done) hg
      obtain ⟨h2, -⟩ := Pmm.handed_used (hok _) hg'
      have hrun : (pmmInit map).run (done ++ op :: mid) = (((pmmInit map).run done).step op).2.run mid := by
        rw [Pmm.run, List.foldl_append]
        rfl
      rw [hrun, Pmm.used_run ((hok done).step op) hfree h1] at h2
      cases h2

theorem not_consistent {p : Pmm} {op : PmmOp} (hop : ∀ phys, op ≠ .free phys) (h0 : (p.step op).1 ≠ 0)
    (hlt : (p.step op).1 < op.least) : ¬ p.Consistent [op] := by
  intro h
  obtain ⟨f, h1, h2, -⟩ := ((Pmm.answers_request hop).1 (h.answers [] op (List.prefix_refl _))).2 h0
  have h3 := h2.least
  have h4 : (p.step op).1 = f * pageSize := h1
  omega

/-- Nothing lies above the last page of the address space, and yet a frame is handed out. -/
theorem alloc_above_wraps :
    ¬ (pmmInit ⟨24, [⟨0x200000, 0x20000, 1⟩]⟩).Consistent [.allocAbove 0xFFFFFFFFFFFFFFFF] :=
  not_consistent nofun (by decide +kernel) (by decide +kernel)

end VampireOS
