import VampireOS.Memory.Vmm
import VampireOS.Lib.Cow
import Mathlib.Data.Finset.Basic

/-!
# The shape of the page tables

A page of the user half is its number `n < 2 ^ 35`; `vpn virt` is the number of the page that holds
`virt`. The table of level `ℓ` (0 the PML4, 3 a page table) on the way to `n` is named by the
prefix `n / 512 ^ (4 - ℓ)`, and entry `i` of the table `(ℓ, q)` leads to `(ℓ + 1, 512 q + i)`. So
`tab m r ℓ q` is the table at that place below the PML4 `r`, and `view m r n` the decoded leaf.

`PtInv` says that these tables are a forest of frames the allocator has handed out, apart from the
mapped frames and from the frames `kern` the kernel holds for itself, and that every entry has
one of the shapes that vmm.c writes. Each lemma below is one thing the code does to the forest.
-/

namespace VampireOS

open Lib

/-! ## Places -/

/-- The number of the page of `virt`; only 48 bits take part in a walk. -/
def vpn (virt : Nat) : Nat := virt / 0x1000 % 0x1000000000

/-- Pages of the user half (PML4 entries 0-255). -/
def userPages : Nat := 0x800000000

/-- A place of the user half: `q` is the prefix of some user page. -/
def Place (ℓ q : Nat) : Prop := ℓ ≤ 3 ∧ 512 ^ (4 - ℓ) * q < userPages

def tab (m : Mem) (r : Nat) : Nat → Nat → Option Nat
  | 0, _ => some r
  | ℓ + 1, q => (tab m r ℓ (q / 512)).bind fun t => next tableEnt m t (q % 512)

/-- The flags vmm.c gives to a leaf. -/
def leafFlags (want hw : Bool) : Nat :=
  pteUserRo ||| (if want then pteWantWrite else 0) ||| (if hw then pdeWrite else 0)

def decode (e : Nat) : Option (Leaf Nat) :=
  if userLeaf e then some ⟨e &&& addrMask, e &&& pteWantWrite != 0, e &&& pdeWrite != 0⟩ else none

def encode (l : Leaf Nat) : Nat := l.frame ||| leafFlags l.want l.hw

/-- What the task with PML4 `r` sees at page `n`. -/
def view (m : Mem) (r n : Nat) : Option (Leaf Nat) :=
  (tab m r 3 (n / 512)).bind fun pt => decode (ent m pt (n % 512))

theorem tab_zero (m : Mem) (r q : Nat) : tab m r 0 q = some r := rfl

theorem tab_succ (m : Mem) (r ℓ q : Nat) :
    tab m r (ℓ + 1) q = (tab m r ℓ (q / 512)).bind fun t => next tableEnt m t (q % 512) := rfl

theorem Place.parent {ℓ q : Nat} (h : Place (ℓ + 1) q) : Place ℓ (q / 512) := by
  obtain ⟨h1, h2⟩ := h
  unfold Place userPages at *
  have : ℓ = 0 ∨ ℓ = 1 ∨ ℓ = 2 := by omega
  rcases this with rfl | rfl | rfl <;>
    simp only [Nat.reduceAdd, Nat.reduceSub, Nat.reducePow] at * <;> omega

theorem Place.child {ℓ q i : Nat} (h : Place ℓ q) (hℓ : ℓ < 3) (hi : i < 512) (h0 : ℓ ≠ 0 ∨ i < 256) :
    Place (ℓ + 1) (512 * q + i) := by
  obtain ⟨h1, h2⟩ := h
  unfold Place userPages at *
  have : ℓ = 0 ∨ ℓ = 1 ∨ ℓ = 2 := by omega
  rcases this with rfl | rfl | rfl <;>
    simp only [Nat.reduceAdd, Nat.reduceSub, Nat.reducePow] at * <;> omega

theorem place_root {q : Nat} : Place 0 q ↔ q = 0 := by
  unfold Place userPages
  simp only [Nat.reduceSub, Nat.reducePow]
  omega

theorem place_pt {n : Nat} (hn : n < userPages) : Place 3 (n / 512) := by
  unfold Place userPages at *
  simp only [Nat.reduceSub, Nat.reducePow]
  omega

theorem page_lt {q i : Nat} (h : Place 3 q) (hi : i < 512) : 512 * q + i < userPages := by
  obtain ⟨-, h2⟩ := h
  simp only [userPages, Nat.reduceSub, Nat.reducePow] at h2
  unfold userPages
  omega

theorem vpn_lt (virt : Nat) : vpn virt < 0x1000000000 := Nat.mod_lt _ (by decide)

section Indexes
variable (virt : Nat)

theorem pml4I_eq : pml4I virt = vpn virt / 512 / 512 / 512 := by
  unfold pml4I vpn
  rw [show (511 : Nat) = 2 ^ 9 - 1 from rfl, Nat.and_two_pow_sub_one_eq_mod, Nat.shiftRight_eq_div_pow]
  omega

theorem pdptI_eq : pdptI virt = vpn virt / 512 / 512 % 512 := by
  unfold pdptI vpn
  rw [show (511 : Nat) = 2 ^ 9 - 1 from rfl, Nat.and_two_pow_sub_one_eq_mod, Nat.shiftRight_eq_div_pow]
  omega

theorem pdI_eq : pdI virt = vpn virt / 512 % 512 := by
  unfold pdI vpn
  rw [show (511 : Nat) = 2 ^ 9 - 1 from rfl, Nat.and_two_pow_sub_one_eq_mod, Nat.shiftRight_eq_div_pow]
  omega

theorem ptI_eq : ptI virt = vpn virt % 512 := by
  unfold ptI vpn
  rw [show (511 : Nat) = 2 ^ 9 - 1 from rfl, Nat.and_two_pow_sub_one_eq_mod, Nat.shiftRight_eq_div_pow]
  omega

theorem pml4I_mod : pml4I virt % 512 = pml4I virt :=
  Nat.mod_eq_of_lt (by have := vpn_lt virt; rw [pml4I_eq]; omega)

end Indexes

/-- `kernelIndex` is the two PML4 entries 256 and 511. -/
theorem kernelIndex_iff (virt : Nat) : kernelIndex virt = true ↔ pml4I virt = 256 ∨ pml4I virt = 511 := by
  simp [kernelIndex, hhdmPml4Index, kernelPml4Index]

theorem user_half_iff (virt : Nat) : pml4I virt < 256 ↔ vpn virt < userPages := by
  rw [pml4I_eq, userPages]
  omega

theorem tab_three (m : Mem) (r q : Nat) :
    tab m r 3 q = (next tableEnt m r (q / 512 / 512 % 512)).bind fun pdpt =>
      (next tableEnt m pdpt (q / 512 % 512)).bind fun pd => next tableEnt m pd (q % 512) := by
  rw [show 3 = 2 + 1 from rfl, tab_succ, show 2 = 1 + 1 from rfl, tab_succ, show 1 = 0 + 1 from rfl, tab_succ,
    tab_zero, Option.bind_assoc, Option.bind_some]

theorem walkPt_tab (m : Mem) (r virt : Nat) : walkPt tableEnt m r virt = tab m r 3 (vpn virt / 512) := by
  have h := pml4I_mod virt
  rw [pml4I_eq] at h
  rw [tab_three, h, ← pml4I_eq, ← pdptI_eq, ← pdI_eq]
  rfl

/-! ## Entries -/

theorem leafFlags_lt (want hw : Bool) : leafFlags want hw < pageSize := by cases want <;> cases hw <;> decide

theorem userFlags_lt : pteUserFlags < pageSize := by decide

theorem userFlags_eq : pteUserFlags = leafFlags true true := by decide

theorem decode_zero : decode 0 = none := by decide

theorem decode_encode {l : Leaf Nat} (hp : Page l.frame) (h64 : l.frame < 2 ^ 64) :
    decode (encode l) = some l := by
  obtain ⟨f, want, hw⟩ := l
  have hand : ∀ k, k < pageSize → encode ⟨f, want, hw⟩ &&& k = leafFlags want hw &&& k :=
    fun k hk => or_flags_and hp hk
  have haddr : encode ⟨f, want, hw⟩ &&& addrMask = f := or_flags_addr hp h64 (leafFlags_lt _ _)
  unfold decode userLeaf
  rw [haddr, hand _ (by decide), hand _ (by decide), hand _ (by decide), hand _ (by decide)]
  cases want <;> cases hw <;> simp [leafFlags, pteUserRo, pdePresent, pteUser, pteWantWrite, pdeWrite]

/-- An entry that leads to the table `t`. -/
def dirEnt (t : Nat) : Nat := t ||| pteUserFlags

section
variable {m : Mem} {t i s : Nat}

theorem tableEnt_dirEnt (hp : Page s) : tableEnt (dirEnt s) = true := by
  unfold tableEnt dirEnt
  rw [or_flags_and hp (by decide), or_flags_and hp (by decide)]
  decide

theorem userTableEnt_dirEnt (hp : Page s) : userTableEnt (dirEnt s) = true := by
  unfold userTableEnt dirEnt
  rw [or_flags_and hp (by decide), or_flags_and hp (by decide), or_flags_and hp (by decide)]
  decide

theorem next_zero (h : ent m t i = 0) : next tableEnt m t i = none := by
  unfold next
  rw [h]
  rfl

theorem next_user_zero (h : ent m t i = 0) : next userTableEnt m t i = none := by
  unfold next
  rw [h]
  rfl

theorem next_dirEnt (h : ent m t i = dirEnt s) (hp : Page s) (h64 : s < 2 ^ 64) :
    next tableEnt m t i = some s := by
  unfold next
  rw [h, if_pos (tableEnt_dirEnt hp)]
  exact congrArg some (or_flags_addr hp h64 userFlags_lt)

theorem next_user_dirEnt (h : ent m t i = dirEnt s) (hp : Page s) (h64 : s < 2 ^ 64) :
    next userTableEnt m t i = some s := by
  unfold next
  rw [h, if_pos (userTableEnt_dirEnt hp)]
  exact congrArg some (or_flags_addr hp h64 userFlags_lt)

end

/-! ## The invariant -/

/-- `t` is a table of one of the trees. -/
def IsTable (m : Mem) (roots : Finset Nat) (t : Nat) : Prop :=
  ∃ r ∈ roots, ∃ ℓ q, Place ℓ q ∧ tab m r ℓ q = some t

/-- `f` may be mapped: handed out, and neither a table nor the kernel's own. -/
structure Data (m : Mem) (pmm : Pmm) (roots kern : Finset Nat) (f : Nat) : Prop where
  owned : pmm.Owned f
  notKern : f ∉ kern
  notTable : ¬IsTable m roots f

structure PtInv (m : Mem) (pmm : Pmm) (roots kern : Finset Nat) : Prop where
  ok : pmm.Ok
  own : ∀ t, IsTable m roots t → pmm.Owned t ∧ t ∉ kern
  inj : ∀ r ∈ roots, ∀ r' ∈ roots, ∀ ℓ q ℓ' q' t, Place ℓ q → Place ℓ' q' → tab m r ℓ q = some t →
    tab m r' ℓ' q' = some t → r = r' ∧ ℓ = ℓ' ∧ q = q'
  dir : ∀ r ∈ roots, ∀ ℓ q t i, Place ℓ q → ℓ < 3 → tab m r ℓ q = some t → i < 512 → (ℓ ≠ 0 ∨ i < 256) →
    ent m t i = 0 ∨ ∃ s, ent m t i = dirEnt s ∧ Page s ∧ s < 2 ^ 35
  leaf : ∀ r ∈ roots, ∀ q pt i, Place 3 q → tab m r 3 q = some pt → i < 512 →
    ent m pt i = 0 ∨ ∃ l, ent m pt i = encode l ∧ Data m pmm roots kern l.frame
  high : ∀ r ∈ roots, ∀ i, 256 < i → i < 511 → ent m r i = 0
  boot : ∀ i, 256 < i → i < 511 → ent m pml4Phys i = 0
  kern : ∀ f ∈ kern, pmm.Owned f

section
variable {m m' : Mem} {pmm pmm' : Pmm} {roots kern : Finset Nat} {r ℓ q t n : Nat}

theorem isTable_of (hr : r ∈ roots) (hp : Place ℓ q) (h : tab m r ℓ q = some t) : IsTable m roots t :=
  ⟨r, hr, ℓ, q, hp, h⟩

theorem isTable_root (hr : r ∈ roots) : IsTable m roots r := isTable_of hr (place_root.2 rfl) rfl

theorem PtInv.root_owned (h : PtInv m pmm roots kern) (hr : r ∈ roots) : pmm.Owned r :=
  (h.own r (isTable_root hr)).1

theorem Place.index {ℓ q : Nat} (h : Place (ℓ + 1) q) : ℓ ≠ 0 ∨ q % 512 < 256 := by
  by_cases h0 : ℓ = 0
  · subst h0
    have h2 := h.2
    simp only [userPages, Nat.reduceAdd, Nat.reduceSub, Nat.reducePow] at h2
    right
    omega
  · exact Or.inl h0

/-- The trees only depend on the entries of their directories. -/
theorem tab_congr (hd : ∀ ℓ q t, Place ℓ q → ℓ < 3 → tab m r ℓ q = some t → ∀ i, i < 512 → (ℓ ≠ 0 ∨ i < 256) →
    next tableEnt m' t i = next tableEnt m t i) : ∀ ℓ q, Place ℓ q → tab m' r ℓ q = tab m r ℓ q := by
  intro ℓ
  induction ℓ with
  | zero => intro q _; rfl
  | succ ℓ ih =>
    intro q hp
    have h3 := hp.1
    rw [tab_succ, tab_succ, ih _ hp.parent]
    cases ht : tab m r ℓ (q / 512) with
    | none => rw [Option.bind_none, Option.bind_none]
    | some t =>
      rw [Option.bind_some, Option.bind_some]
      exact hd ℓ _ t hp.parent (by omega) ht _ (Nat.mod_lt _ (by decide)) hp.index

/-- One directory entry changes, with an empty table below it before and after: the trees change
at that one place. -/
theorem tab_set {r₀ ℓ₀ q₀ t₀ i₀ : Nat} {o o' : Option Nat} (ht₀ : tab m r₀ ℓ₀ q₀ = some t₀)
    (hi₀ : i₀ < 512)
    (hd : ∀ r ∈ roots, ∀ ℓ q t, Place ℓ q → ℓ < 3 → tab m r ℓ q = some t → ∀ i, i < 512 → (ℓ ≠ 0 ∨ i < 256) →
      ¬(r = r₀ ∧ ℓ = ℓ₀ ∧ q = q₀ ∧ i = i₀) → next tableEnt m' t i = next tableEnt m t i)
    (ho : next tableEnt m t₀ i₀ = o) (ho' : next tableEnt m' t₀ i₀ = o')
    (hb : ∀ s, o = some s → ∀ j, j < 512 → next tableEnt m s j = none)
    (hb' : ∀ s, o' = some s → ∀ j, j < 512 → next tableEnt m' s j = none) :
    ∀ r ∈ roots, ∀ ℓ q, Place ℓ q →
      tab m' r ℓ q = if r = r₀ ∧ ℓ = ℓ₀ + 1 ∧ q = 512 * q₀ + i₀ then o' else tab m r ℓ q := by
  intro r hr ℓ
  induction ℓ with
  | zero => intro q _; rw [if_neg (by omega), tab_zero, tab_zero]
  | succ ℓ ih =>
    intro q hp
    have h3 := hp.1
    have hmod : q % 512 < 512 := Nat.mod_lt _ (by decide)
    rw [tab_succ, tab_succ, ih _ hp.parent]
    by_cases hc : r = r₀ ∧ ℓ = ℓ₀ + 1 ∧ q / 512 = 512 * q₀ + i₀
    · -- below the changed place: nothing, before and after
      obtain ⟨rfl, rfl, hq⟩ := hc
      have hdiv : (512 * q₀ + i₀) / 512 = q₀ := by omega
      have hmod₀ : (512 * q₀ + i₀) % 512 = i₀ := by omega
      rw [if_pos ⟨rfl, rfl, hq⟩, if_neg (by omega), hq, tab_succ, hdiv, hmod₀, ht₀, Option.bind_some, ho]
      have e1 : (o'.bind fun t => next tableEnt m' t (q % 512)) = none := by
        cases h : o' with
        | none => rw [Option.bind_none]
        | some s => rw [Option.bind_some]; exact hb' s h _ hmod
      have e2 : (o.bind fun t => next tableEnt m t (q % 512)) = none := by
        cases h : o with
        | none => rw [Option.bind_none]
        | some s => rw [Option.bind_some]; exact hb s h _ hmod
      rw [e1, e2]
    · rw [if_neg hc]
      cases ht : tab m r ℓ (q / 512) with
      | none =>
        rw [if_neg, Option.bind_none, Option.bind_none]
        · rintro ⟨rfl, hℓ, rfl⟩
          obtain rfl : ℓ = ℓ₀ := by omega
          rw [show (512 * q₀ + i₀) / 512 = q₀ by omega, ht₀] at ht
          cases ht
      | some t =>
        by_cases hx : r = r₀ ∧ ℓ = ℓ₀ ∧ q / 512 = q₀ ∧ q % 512 = i₀
        · obtain ⟨rfl, rfl, hq, hm⟩ := hx
          rw [hq, ht₀] at ht
          cases ht
          rw [if_pos ⟨rfl, rfl, by omega⟩, hm, Option.bind_some]
          exact ho'
        · rw [if_neg, Option.bind_some, Option.bind_some]
          · exact hd r hr ℓ _ t hp.parent (by omega) ht _ hmod hp.index hx
          · rintro ⟨h1, h2, rfl⟩
            exact hx ⟨h1, by omega, by omega, by omega⟩

theorem isTable_congr (h : ∀ r ∈ roots, ∀ ℓ q, Place ℓ q → tab m' r ℓ q = tab m r ℓ q) (t : Nat) :
    IsTable m' roots t ↔ IsTable m roots t := by
  unfold IsTable
  constructor
  · rintro ⟨r, hr, ℓ, q, hp, ht⟩; exact ⟨r, hr, ℓ, q, hp, h r hr ℓ q hp ▸ ht⟩
  · rintro ⟨r, hr, ℓ, q, hp, ht⟩; exact ⟨r, hr, ℓ, q, hp, (h r hr ℓ q hp).trans ht⟩

end

end VampireOS
