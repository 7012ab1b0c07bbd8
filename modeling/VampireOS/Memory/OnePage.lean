import VampireOS.Memory.Walk

/-!
# A fork of one page (vmm.c:235-259, 445-514, 667-735)

Where every page in use has the index `k` in all four tables, no table has an entry besides its
entry `k` (`Lone`). Mapping and cloning keep that, and the four loops of `vmm_copy_user`, 512
entries each, come to one leaf (`Lone.fork`).
-/

namespace VampireOS

open Lib

/-- No table has an entry besides its entry `k`. -/
structure Lone (k : Nat) (vm : Vm) : Prop where
  ok : vm.pmm.Ok
  blank : ∀ t i, Page t → i < 512 → i ≠ k → ent vm.mem t i = 0

/-- All indices of the page are `k`. -/
def Straight (k virt : Nat) : Prop :=
  pml4I virt = k ∧ pdptI virt = k ∧ pdI virt = k ∧ ptI virt = k

namespace Lone

variable {vm vm' : Vm} {k p r t v virt flags phys : Nat} {res : Vm × Bool}

theorem set (h : Lone k vm) (hk : k < 512) (ht : Page t) :
    Lone k { vm with mem := setEnt vm.mem t k v } := by
  refine ⟨h.ok, fun x i hx hi hne => Eq.trans ?_ (h.blank x i hx hi hne)⟩
  by_cases hxt : x = t
  · rw [hxt]
    exact ent_setEnt_ne _ _ _ hne
  · exact (sameOff_setEnt vm.mem t k v hk).ent ht hx hxt hi

theorem zero (h : Lone k vm) {pmm : Pmm} (hok : pmm.Ok) (hp : Page p) :
    Lone k { vm with pmm := pmm, mem := zeroPage vm.mem p } := by
  refine ⟨hok, fun x i hx hi hne => ?_⟩
  by_cases hxp : x = p
  · rw [hxp]
    exact ent_zeroPage _ _ hi
  · exact ((sameOff_zeroPage vm.mem p).ent hp hx hxp hi).trans (h.blank x i hx hi hne)

/-! ## Mapping -/

theorem ensure {o : Option Nat} (h : Lone k vm) (hk : k < 512) (ht : Page t)
    (he : vmmEnsureTable vm t k flags = (vm', o)) : Lone k vm' ∧ ∀ s, o = some s → Page s := by
  unfold vmmEnsureTable at he
  simp only at he
  split at he
  · split at he
    · cases he
      exact ⟨h, fun s hs => by cases hs⟩
    · rename_i hne heq
      rcases pmmAlloc_spec vm.pmm h.ok with hal | ⟨-, hal⟩
      · rw [heq] at hal
        exact absurd (congrArg Prod.fst hal) hne
      · rw [heq] at hal
        cases he
        refine ⟨(h.zero (hal.ok h.ok) hal.page).set hk ht, fun s hs => ?_⟩
        cases hs
        exact hal.page
  · split at he
    · cases he
      exact ⟨h, fun s hs => by cases hs⟩
    · split at he
      · cases he
        refine ⟨h.set hk ht, fun s hs => ?_⟩
        cases hs
        exact page_and_addr _
      · cases he
        refine ⟨h, fun s hs => ?_⟩
        cases hs
        exact page_and_addr _

theorem orFail {rest : Vm → Nat → Vm × Bool} (h : Lone k vm) (hk : k < 512) (ht : Page t)
    (he : orFail (vmmEnsureTable vm t k flags) rest = res)
    (hr : ∀ vm s, Lone k vm → Page s → rest vm s = res → Lone k res.1) : Lone k res.1 := by
  rcases hens : vmmEnsureTable vm t k flags with ⟨vm', _ | s⟩
  · rw [hens] at he
    rw [← he]
    exact (h.ensure hk ht hens).1
  · obtain ⟨h', hs⟩ := h.ensure hk ht hens
    rw [hens] at he
    exact hr vm' s h' (hs s rfl) he

theorem map (h : Lone k vm) (hk : k < 512) (hr : Page (cr3OrBoot r)) (hv : Straight k virt)
    (he : vmmMapUserFlags vm r virt phys flags = res) : Lone k res.1 := by
  unfold vmmMapUserFlags at he
  rw [hv.1, hv.2.1, hv.2.2.1, hv.2.2.2] at he
  split at he
  · exact he ▸ h
  split at he
  · exact he ▸ h
  split at he
  · exact he ▸ h
  refine h.orFail hk hr he fun vm pdpt h hp he => ?_
  refine h.orFail hk hp he fun vm pd h hp he => ?_
  refine h.orFail hk hp he fun vm pt h hp he => ?_
  rw [← he]
  exact h.set hk hp

theorem clone (h : Lone k vm) (he : vmmClonePml4 vm = (p, vm')) : Lone k vm' := by
  unfold vmmClonePml4 at he
  split at he
  · cases he
    exact h
  split at he
  · cases he
    exact h
  · rename_i hne heq
    rcases pmmAlloc_spec vm.pmm h.ok with hal | ⟨-, hal⟩
    · rw [heq] at hal
      exact absurd (congrArg Prod.fst hal) hne
    · rw [heq] at hal
      cases he
      refine ⟨hal.ok h.ok, fun x i hx hi hik => ?_⟩
      by_cases hxp : x = p
      · subst hxp
        by_cases hi' : i < 256
        · refine rd64_zero fun j hj => ?_
          dsimp only
          rw [if_pos (by simp only [pageSize]; omega), if_pos (by simp only [hhdmPml4Index]; omega)]
        · refine (rd64_eq fun j hj => ?_).trans (h.blank pml4Phys i (by decide) hi hik)
          dsimp only
          rw [if_pos (by simp only [pageSize]; omega), if_neg (by simp only [hhdmPml4Index]; omega)]
          congr 1
          omega
      · have hs : SameOff p vm.mem fun y => if p ≤ y ∧ y < p + pageSize then
            if y - p < 8 * hhdmPml4Index then 0 else vm.mem (pml4Phys + (y - p)) else vm.mem y :=
          fun o ho => if_neg ho
        exact (hs.ent hal.page hx hxp hi).trans (h.blank x i hx hi hik)

/-! ## The copy -/

theorem leaf (h : Lone k vm) (hk : k < 512) (hr : Page (cr3OrBoot r)) (ht : Page t)
    (hv : Straight k (v ||| k <<< 12)) (he : copyLeaf r v t k vm = res) : Lone k res.1 := by
  unfold copyLeaf at he
  simp only at he
  split at he
  · exact he ▸ h
  split at he
  · exact he ▸ h
  · rename_i tab heq
    have hc : Lone k { vm with cowTab := tab } := ⟨h.ok, h.blank⟩
    split at he
    · rename_i vm' hm
      have h' := hc.map hk hr hv hm
      exact he ▸ ⟨h'.ok, h'.blank⟩
    · rename_i vm' hm
      exact he ▸ (hc.map hk hr hv hm).set hk ht

/-- The loop over a table goes down at entry `k` only. -/
theorem down {down : Nat → Nat → Vm → Vm × Bool} {shift n sub : Nat} (h : Lone k vm) (ht : Page t)
    (hk : k < n) (hn : n ≤ 512) (e : next userTableEnt vm.mem t k = some sub)
    (hd : Lone k (down (v ||| k <<< shift) sub vm).1) :
    loopTo (copyAt down shift v t) n vm = down (v ||| k <<< shift) sub vm := by
  have ha : copyAt down shift v t k vm = down (v ||| k <<< shift) sub vm := by
    unfold copyAt
    rw [e]
    rfl
  rw [← ha] at hd ⊢
  refine loopTo_only (Lone k) h hk hd fun vm h i hi hne => ?_
  unfold copyAt next
  rw [h.blank t i ht (by omega) hne]
  rfl

/-- The copy of a fork comes to one leaf. -/
theorem fork {dst src pdpt pd pt : Nat} (h : Lone k vm) (hk : k < 256) (hdst : Page (cr3OrBoot dst))
    (hs : Page src) (e1 : next userTableEnt vm.mem src k = some pdpt)
    (e2 : next userTableEnt vm.mem pdpt k = some pd) (e3 : next userTableEnt vm.mem pd k = some pt)
    (hv : Straight k (0 ||| k <<< 39 ||| k <<< 30 ||| k <<< 21 ||| k <<< 12)) :
    loopTo (copyAt (copyPdpt dst) 39 0 src) hhdmPml4Index vm =
      copyLeaf dst (0 ||| k <<< 39 ||| k <<< 30 ||| k <<< 21) pt k vm := by
  have hk' : k < 512 := by omega
  have hl := h.leaf hk' hdst (next_page e3) hv rfl
  have hpt : copyPt dst (0 ||| k <<< 39 ||| k <<< 30 ||| k <<< 21) pt vm = copyLeaf dst _ pt k vm :=
    loopTo_only (Lone k) h hk' hl fun vm h i hi hne => by
      unfold copyLeaf
      simp only [h.blank pt i (next_page e3) hi hne]
      rfl
  rw [← hpt] at hl
  have hpd : copyPd dst (0 ||| k <<< 39 ||| k <<< 30) pd vm = copyPt dst _ pt vm :=
    h.down (next_page e2) hk' (Nat.le_refl 512) e3 hl
  rw [← hpd] at hl
  have hpdpt : copyPdpt dst (0 ||| k <<< 39) pdpt vm = copyPd dst _ pd vm :=
    h.down (next_page e1) hk' (Nat.le_refl 512) e2 hl
  rw [← hpdpt] at hl
  exact (h.down hs hk (by decide) e1 hl).trans (hpdpt.trans (hpd.trans hpt))

end Lone

end VampireOS
