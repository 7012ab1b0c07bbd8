import VampireOS.Memory.Fork

/-!
# Teardown

`vmm_teardown_user` drops every leaf of a task and takes out each table once it is empty. As for the
fork, each loop clears an interval of pages (`Torn`); on the way it writes to no table nearer to
the root than its own, so the pointers the outer loops hold stay good.
-/

namespace VampireOS

open Lib

/-- The pages `lo ≤ n < hi` of task `r` are gone and nothing else changed; the tables above level
`ℓ` are as they were. -/
structure Torn (roots kern : Finset Nat) (r ℓ lo hi : Nat) (m m' : Mem) : Prop where
  low : ∀ ℓ' q t, Place ℓ' q → ℓ' < ℓ → tab m r ℓ' q = some t →
    tab m' r ℓ' q = some t ∧ ∀ j, j < 512 → ent m' t j = ent m t j
  mem : ∀ r' ∈ roots, ∀ n, n < userPages →
    absMem m' r' n = if r' = r ∧ lo ≤ n ∧ n < hi then none else absMem m r' n
  kern : ∀ f ∈ kern, frameBytes m' f = frameBytes m f

section
variable {m m' m'' : Mem} {roots kern : Finset Nat} {vm : Vm} {r ℓ lo mid hi : Nat}

theorem Torn.refl : Torn roots kern r ℓ lo lo m m :=
  ⟨fun _ _ _ _ _ h => ⟨h, fun _ _ => rfl⟩, fun r _ n _ => by rw [if_neg (by omega)], fun _ _ => rfl⟩

theorem Torn.trans (h1 : lo ≤ mid) (h2 : mid ≤ hi) (h : Torn roots kern r ℓ lo mid m m')
    (h' : Torn roots kern r ℓ mid hi m' m'') : Torn roots kern r ℓ lo hi m m'' := by
  refine ⟨fun ℓ' q t hp hℓ ht => ?_, fun r' hr n hn => ?_, fun f hf => (h'.kern f hf).trans (h.kern f hf)⟩
  · obtain ⟨a1, a2⟩ := h.low ℓ' q t hp hℓ ht
    obtain ⟨b1, b2⟩ := h'.low ℓ' q t hp hℓ a1
    exact ⟨b1, fun j hj => (b2 j hj).trans (a2 j hj)⟩
  · rw [h'.mem r' hr n hn, h.mem r' hr n hn]
    by_cases hr : r' = r
    · by_cases hm : mid ≤ n
      · by_cases hh : n < hi
        · rw [if_pos ⟨hr, hm, hh⟩, if_pos ⟨hr, by omega, hh⟩]
        · rw [if_neg (by omega), if_neg (by omega), if_neg (by omega)]
      · rw [if_neg (by omega)]
        by_cases hl : lo ≤ n
        · rw [if_pos ⟨hr, hl, by omega⟩, if_pos ⟨hr, hl, by omega⟩]
        · rw [if_neg (by omega), if_neg (by omega)]
    · rw [if_neg (by tauto), if_neg (by tauto), if_neg (by tauto)]

/-- Nothing mapped there. -/
theorem Torn.skip (h : ∀ n, lo ≤ n → n < hi → n < userPages → absMem m r n = none) :
    Torn roots kern r ℓ lo hi m m := by
  refine ⟨fun _ _ _ _ _ h => ⟨h, fun _ _ => rfl⟩, fun r' _ n hn => ?_, fun _ _ => rfl⟩
  split
  · rename_i hx
    obtain ⟨rfl, h1, h2⟩ := hx
    exact h n h1 h2 hn
  · rfl

/-- Innermost step: one leaf. -/
theorem teardownLeaf_spec (h : VmInv vm roots kern) (hr : r ∈ roots) {q pt i : Nat} (hp : Place 3 q)
    (ht : tab vm.mem r 3 q = some pt) (hi : i < 512) :
    VmInv (teardownLeaf pt i vm) roots kern ∧ tab (teardownLeaf pt i vm).mem r 3 q = some pt ∧
      ent (teardownLeaf pt i vm).mem pt i = 0 ∧
      (∀ j, j < 512 → j ≠ i → ent (teardownLeaf pt i vm).mem pt j = ent vm.mem pt j) ∧
      Torn roots kern r 3 (512 * q + i) (512 * q + (i + 1)) vm.mem (teardownLeaf pt i vm).mem := by
  have hn := page_lt hp hi
  have hq : (512 * q + i) / 512 = q := by omega
  have hm : (512 * q + i) % 512 = i := by omega
  have ht' : tab vm.mem r 3 ((512 * q + i) / 512) = some pt := by rw [hq]; exact ht
  unfold teardownLeaf
  simp only
  rcases h.pt.view_cases hr hn ht' with ⟨h0, hnone⟩ | ⟨l, hl, hv, hd⟩
  · rw [hm] at h0
    rw [h0, if_neg (by decide)]
    refine ⟨h, ht, h0, fun _ _ _ => rfl, Torn.skip fun n h1 h2 _ => ?_⟩
    obtain rfl : n = 512 * q + i := by omega
    exact absMem_none.2 hnone
  · rw [hm] at hl
    rw [hl, if_pos (userLeaf_encode hd.owned.page), encode_addr hd.owned h.pt.ok]
    obtain ⟨a1, a2, a3⟩ := h.dropLeaf hr hn ht' hv
    rw [hm] at a1 a2 a3
    rw [(cowFreeLeaf_mem _ _).1]
    refine ⟨a1, (a2 r hr 3 q hp).trans ht, ent_setEnt _ _ _ _ (by decide),
      fun j _ hj => ent_setEnt_ne _ _ _ hj, fun ℓ' q' t hp' hℓ h' => ⟨(a2 r hr ℓ' q' hp').trans h',
      fun j hj => ?_⟩, fun r' hr' n hn => ?_, a3.kern⟩
    · have hne : t ≠ pt := by
        rintro rfl
        have := (h.pt.inj r hr r hr ℓ' q' 3 q t hp' hp h' ht).2.1
        omega
      exact (sameOff_setEnt _ pt i 0 hi).ent (h.pt.own pt (isTable_of hr hp ht)).1.page
        (h.pt.own t (isTable_of hr hp' h')).1.page hne hj
    · rw [a3.mem r' hr' n hn]
      by_cases hx : r' = r ∧ n = 512 * q + i
      · rw [if_pos hx, if_pos ⟨hx.1, by omega, by omega⟩]
      · rw [if_neg hx, if_neg (by omega)]

/-- `f` empties the table `(ℓ, q)` of task `r`, which covers the pages `w q ≤ n < w (q + 1)`. -/
def TearOk (roots kern : Finset Nat) (r ℓ q w : Nat) (f : Nat → Vm → Vm) : Prop :=
  ∀ vm t, VmInv vm roots kern → tab vm.mem r ℓ q = some t →
    VmInv (f t vm) roots kern ∧ tab (f t vm).mem r ℓ q = some t ∧ (∀ j, j < 512 → ent (f t vm).mem t j = 0) ∧
      Torn roots kern r ℓ (w * q) (w * (q + 1)) vm.mem (f t vm).mem

theorem teardownPt_ok (hr : r ∈ roots) {q : Nat} (hp : Place 3 q) :
    TearOk roots kern r 3 q (512 * 512 ^ 0) teardownPt := by
  intro vm pt h ht
  have e : 512 * 512 ^ 0 = 512 := rfl
  rw [e, Nat.mul_succ 512 q, teardownPt]
  refine forTo_inv (fun i s => VmInv s roots kern ∧ tab s.mem r 3 q = some pt ∧
    (∀ j, j < i → ent s.mem pt j = 0) ∧
      Torn roots kern r 3 (512 * q) (512 * q + i) vm.mem s.mem) ⟨h, ht, fun j hj => by omega, Torn.refl⟩ ?_
  rintro i s hi ⟨hI, ht, hz, hT⟩
  obtain ⟨a1, a2, a3, a4, a5⟩ := teardownLeaf_spec hI hr hp ht hi
  refine ⟨a1, a2, fun j hj => ?_, hT.trans (by omega) (by omega) a5⟩
  by_cases hji : j = i
  · rw [hji]; exact a3
  · rw [a4 j (by omega) hji]; exact hz j (by omega)

theorem vmmTableClear_iff (m : Mem) (t n : Nat) :
    vmmTableClear m t n = true ↔ ∀ i, i < n → ent m t i = 0 := by
  simp [vmmTableClear]

/-- Taking out an empty table shows to nobody. -/
theorem VmInv.freeTable (h : VmInv vm roots kern) (hr : r ∈ roots) {q t i s : Nat} (hp : Place ℓ q)
    (hℓ : ℓ < 3) (ht : tab vm.mem r ℓ q = some t) (hi : i < 512) (h0 : ℓ ≠ 0 ∨ i < 256)
    (hs : tab vm.mem r (ℓ + 1) (512 * q + i) = some s) (hz : ∀ j, j < 512 → ent vm.mem s j = 0) :
    VmInv { vm with mem := setEnt vm.mem t i 0, pmm := pmmFree vm.pmm s } roots kern ∧
      (∀ ℓ' q', Place ℓ' q' → ℓ' ≤ ℓ → tab (setEnt vm.mem t i 0) r ℓ' q' = tab vm.mem r ℓ' q') ∧
      Same roots kern vm.mem (setEnt vm.mem t i 0) := by
  obtain ⟨a1, a2, a3⟩ := h.pt.dropTable hr hp hℓ ht hi h0 hs hz
  have hit := isTable_of hr hp ht
  have hso := sameOff_setEnt vm.mem t i 0 hi
  have hpg := (h.pt.own t hit).1.page
  refine ⟨⟨a1, h.ready, h.unique, h.cow.congr fun x hx => a3 x.1 (mem_sites.1 hx).1 x.2 (mem_sites.1 hx).2⟩,
    fun ℓ' q' hp' hle => ?_, fun r' hr' n hn => ?_, fun f hf => ?_⟩
  · rw [a2 r hr ℓ' q' hp', if_neg (by omega)]
  · rw [absMem_eq, absMem_eq, a3 r' hr' n hn]
    cases hv : view vm.mem r' n with
    | none => rfl
    | some l =>
      obtain ⟨-, -, -, hd⟩ := h.pt.of_view hr' hn hv
      rw [Option.map_some, Option.map_some, pageOf, pageOf, hso.frameBytes hpg hd.owned.page]
      rintro rfl
      exact hd.notTable hit
  · refine hso.frameBytes hpg (h.pt.kern f hf).page ?_
    rintro rfl
    exact (h.pt.own f hit).2 hf

/-- One outer step, given the loop below it. -/
theorem teardownAt_spec (hr : r ∈ roots) {q k i t : Nat} {d : Nat → Vm → Vm} (hk : ℓ + 1 + k = 3)
    (hp : Place ℓ q) (hi : i < 512) (h0 : ℓ ≠ 0 ∨ i < 256)
    (hd : TearOk roots kern r (ℓ + 1) (512 * q + i) (512 * 512 ^ k) d) (h : VmInv vm roots kern)
    (ht : tab vm.mem r ℓ q = some t) :
    VmInv (teardownAt d t i vm) roots kern ∧ tab (teardownAt d t i vm).mem r ℓ q = some t ∧
      ent (teardownAt d t i vm).mem t i = 0 ∧
      (∀ j, j < 512 → j ≠ i → ent (teardownAt d t i vm).mem t j = ent vm.mem t j) ∧
      Torn roots kern r ℓ (512 * 512 ^ k * (512 * q + i)) (512 * 512 ^ k * (512 * q + (i + 1))) vm.mem
        (teardownAt d t i vm).mem := by
  generalize hw : 512 * 512 ^ k = w at *
  have hchild : tab vm.mem r (ℓ + 1) (512 * q + i) = next tableEnt vm.mem t i := by
    rw [tab_succ, show (512 * q + i) / 512 = q by omega, show (512 * q + i) % 512 = i by omega, ht,
      Option.bind_some]
  unfold teardownAt
  cases hnx : next tableEnt vm.mem t i with
  | none =>
    rw [Option.elim_none]
    have hent : ent vm.mem t i = 0 := by
      rcases h.pt.dir r hr ℓ q t i hp (by omega) ht hi h0 with h1 | ⟨s, h1, h2, h3⟩
      · exact h1
      · rw [next_dirEnt h1 h2 (by omega)] at hnx; cases hnx
    refine ⟨h, ht, hent, fun _ _ _ => rfl, Torn.skip fun n h1 h2 hn => ?_⟩
    have hdiv : n / w = 512 * q + i := by
      refine Nat.div_eq_of_lt_le ?_ ?_
      · rw [Nat.mul_comm]; exact h1
      · rw [Nat.mul_comm]; exact h2
    have hnone := tab_none_below (hchild.trans hnx) k (n / 512)
      (by rw [Nat.div_div_eq_div_mul, hw]; exact hdiv)
    rw [hk] at hnone
    rw [absMem_none, view, hnone, Option.bind_none]
  | some sub =>
    rw [Option.elim_some]
    obtain ⟨a1, a2, a3, a4⟩ := hd vm sub h (hchild.trans hnx)
    rw [if_pos ((vmmTableClear_iff _ _ _).2 a3)]
    obtain ⟨b1, b2⟩ := a4.low ℓ q t hp (by omega) ht
    obtain ⟨c1, c2, c3⟩ := a1.freeTable hr hp (by omega) b1 hi h0 a2 a3
    refine ⟨c1, (c2 ℓ q hp (le_refl ℓ)).trans b1, ent_setEnt _ _ _ _ (by decide), fun j hj hji => ?_,
      fun ℓ' q' t' hp' hℓ' h' => ?_, fun r' hr' n hn => (c3.mem r' hr' n hn).trans (a4.mem r' hr' n hn),
      fun f hf => (c3.kern f hf).trans (a4.kern f hf)⟩
    · exact (ent_setEnt_ne _ _ _ hji).trans (b2 j hj)
    · obtain ⟨d1, d2⟩ := a4.low ℓ' q' t' hp' (by omega) h'
      refine ⟨(c2 ℓ' q' hp' (by omega)).trans d1, fun j hj => ?_⟩
      have hne : t' ≠ t := by
        rintro rfl
        have := (a1.pt.inj r hr r hr ℓ' q' ℓ q t' hp' hp d1 b1).2.1
        omega
      refine Eq.trans ?_ (d2 j hj)
      exact (sameOff_setEnt _ t i 0 hi).ent (a1.pt.own t (isTable_of hr hp b1)).1.page
        (a1.pt.own t' (isTable_of hr hp' d1)).1.page hne hj

/-- One outer loop, given the loop below it. -/
theorem teardownLoop_ok (hr : r ∈ roots) {q k N t : Nat} {d : Nat → Vm → Vm} (hk : ℓ + 1 + k = 3)
    (hp : Place ℓ q) (hN : N ≤ 512) (hN0 : ℓ ≠ 0 ∨ N ≤ 256)
    (hd : ∀ i, i < N → TearOk roots kern r (ℓ + 1) (512 * q + i) (512 * 512 ^ k) d)
    (h : VmInv vm roots kern) (ht : tab vm.mem r ℓ q = some t) :
    VmInv (forTo (teardownAt d t) N vm) roots kern ∧ tab (forTo (teardownAt d t) N vm).mem r ℓ q = some t ∧
      (∀ j, j < N → ent (forTo (teardownAt d t) N vm).mem t j = 0) ∧
      Torn roots kern r ℓ (512 * 512 ^ k * (512 * q)) (512 * 512 ^ k * (512 * q + N)) vm.mem
        (forTo (teardownAt d t) N vm).mem := by
  refine forTo_inv (fun i s => VmInv s roots kern ∧ tab s.mem r ℓ q = some t ∧
    (∀ j, j < i → ent s.mem t j = 0) ∧
      Torn roots kern r ℓ (512 * 512 ^ k * (512 * q)) (512 * 512 ^ k * (512 * q + i)) vm.mem s.mem)
    ⟨h, ht, fun j hj => by omega, Torn.refl⟩ ?_
  rintro i s hi ⟨hI, ht, hz, hT⟩
  obtain ⟨a1, a2, a3, a4, a5⟩ := teardownAt_spec hr hk hp (by omega) (by omega) (hd i hi) hI ht
  refine ⟨a1, a2, fun j hj => ?_, hT.trans (Nat.mul_le_mul_left _ (by omega))
    (Nat.mul_le_mul_left _ (by omega)) a5⟩
  by_cases hji : j = i
  · rw [hji]; exact a3
  · rw [a4 j (by omega) hji]; exact hz j (by omega)

theorem teardownPd_ok (hr : r ∈ roots) {q : Nat} (hp : Place 2 q) :
    TearOk roots kern r 2 q (512 * 512 ^ 1) teardownPd := by
  intro vm t h ht
  rw [← width_step, ← width_step_succ, teardownPd]
  exact teardownLoop_ok (ℓ := 2) (k := 0) (N := 512) hr rfl hp (by omega) (by omega)
    (fun i hi => teardownPt_ok hr (hp.child (by omega) hi (by omega))) h ht

theorem teardownPdpt_ok (hr : r ∈ roots) {q : Nat} (hp : Place 1 q) :
    TearOk roots kern r 1 q (512 * 512 ^ 2) teardownPdpt := by
  intro vm t h ht
  rw [← width_step, ← width_step_succ, teardownPdpt]
  exact teardownLoop_ok (ℓ := 1) (k := 1) (N := 512) hr rfl hp (by omega) (by omega)
    (fun i hi => teardownPd_ok hr (hp.child (by omega) hi (by omega))) h ht

/-- **`vmm_teardown_user`** empties one task's memory and shows to no other. -/
theorem VmInv.vmmTeardownUser_spec (h : VmInv vm roots kern) (hr : r ∈ roots) :
    VmInv (vmmTeardownUser vm r) roots kern ∧
      (∀ r' ∈ roots, ∀ n, n < userPages →
        absMem (vmmTeardownUser vm r).mem r' n = if r' = r then none else absMem vm.mem r' n) ∧
      ∀ f ∈ kern, frameBytes (vmmTeardownUser vm r).mem f = frameBytes vm.mem f := by
  have hown := h.pt.root_owned hr
  unfold vmmTeardownUser
  rw [if_neg]
  · obtain ⟨a1, -, -, a4⟩ := teardownLoop_ok (ℓ := 0) (q := 0) (k := 2) (N := hhdmPml4Index)
      (d := teardownPdpt) hr rfl (place_root.2 rfl) (by decide) (by decide)
      (fun i hi => teardownPdpt_ok hr
        ((place_root.2 rfl).child (by omega) (Nat.lt_trans hi (by decide)) (Or.inr hi)))
      h (tab_zero ..)
    refine ⟨a1, fun r' hr' n hn => ?_, a4.kern⟩
    rw [a4.mem r' hr' n hn]
    by_cases hrr : r' = r
    · rw [if_pos hrr, if_pos ⟨hrr, Nat.zero_le n, hn⟩]
    · rw [if_neg hrr, if_neg (fun hx => hrr hx.1)]
  · rintro (h1 | h1 | h1)
    · exact hown.ne_zero h.pt.ok h1
    · exact hown.ne_boot h.pt.ok h1
    · rw [h.ready] at h1; cases h1

/-- `pmm_free(cr3)` after a teardown. -/
theorem VmInv.freeRoot (h : VmInv vm roots kern) (hr : r ∈ roots)
    (hn : ∀ n, n < userPages → absMem vm.mem r n = none) :
    VmInv { vm with pmm := pmmFree vm.pmm r } (roots.erase r) kern := by
  refine ⟨h.pt.dropRoot hr, h.ready, h.unique, CowOk.shrink (T := sites {r}) ?_ ?_⟩
  · rw [← sites_insert, Finset.insert_erase hr]
    exact h.cow
  · rintro ⟨a, b⟩ hx
    obtain ⟨ha, hb⟩ := mem_sites.1 hx
    obtain rfl := Finset.mem_singleton.1 ha
    exact absMem_none.1 (hn b hb)

end

end VampireOS
