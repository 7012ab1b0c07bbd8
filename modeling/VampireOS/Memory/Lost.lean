import VampireOS.Memory.Teardown

/-!
# Frames that nobody can reach

A frame that the allocator has handed out is the kernel's, a table of a task or mapped by a task, or
else it is lost until the next boot. `Tidy` is work on the tables of one task that neither loses a
frame nor touches the tables of another.
-/

namespace VampireOS

open Lib

section
variable {p p' : Pmm} {a b : Nat}

theorem Pmm.Took.owned_iff (h : p.Took a p') (hp : p.Ok) : p'.Owned b ↔ p.Owned b ∨ b = a := by
  constructor
  · intro hb
    by_cases hba : b = a
    · exact .inr hba
    · refine .inl ⟨hb.page, h.reserved ▸ hb.above, h.frames ▸ hb.below, ?_⟩
      have ht := hb.taken
      rwa [h.used, if_neg (Pmm.div_ne h.page hb.page hba)] at ht
  · rintro (hb | rfl)
    · exact h.mono hb
    · exact h.owned hp

theorem Pmm.Gave.owned_iff (h : p.Gave a p') (ha : p.Owned a) : p'.Owned b ↔ p.Owned b ∧ b ≠ a := by
  constructor
  · intro hb
    have hba : b ≠ a := by
      rintro rfl
      have ht := hb.taken
      rw [h.used, if_pos rfl] at ht
      cases ht
    refine ⟨⟨hb.page, h.reserved ▸ hb.above, h.frames ▸ hb.below, ?_⟩, hba⟩
    have ht := hb.taken
    rwa [h.used, if_neg (Pmm.div_ne ha.page hb.page hba)] at ht
  · rintro ⟨hb, hba⟩
    exact h.keep ha hb hba

end

/-- Some task maps `f`. -/
def Maps (m : Mem) (roots : Finset Nat) (f : Nat) : Prop :=
  ∃ r ∈ roots, ∃ n, n < userPages ∧ ∃ l, view m r n = some l ∧ l.frame = f

/-- The kernel holds `f`, or it is a table, or mapped. -/
def InUse (m : Mem) (roots kern : Finset Nat) (f : Nat) : Prop :=
  f ∈ kern ∨ IsTable m roots f ∨ Maps m roots f

/-- Handed out, and nobody can give it back. -/
def Lost (vm : Vm) (roots kern : Finset Nat) (f : Nat) : Prop := vm.pmm.Owned f ∧ ¬InUse vm.mem roots kern f

/-- Work on the tables of `r`: the other tasks keep their tables and frames. -/
structure Apart (roots : Finset Nat) (r : Nat) (vm vm' : Vm) : Prop where
  frames : vm'.pmm.frameCount = vm.pmm.frameCount
  reserved : vm'.pmm.reservedEnd = vm.pmm.reservedEnd
  tables : ∀ r' ∈ roots, r' ≠ r → ∀ ℓ q, Place ℓ q → tab vm'.mem r' ℓ q = tab vm.mem r' ℓ q
  pages : ∀ r' ∈ roots, r' ≠ r → ∀ n, n < userPages →
    (view vm'.mem r' n).map Leaf.frame = (view vm.mem r' n).map Leaf.frame

/-- The same, and no frame is lost or found. -/
structure Tidy (roots kern : Finset Nat) (r : Nat) (vm vm' : Vm) : Prop extends Apart roots r vm vm' where
  lost : ∀ f, Lost vm' roots kern f ↔ Lost vm roots kern f

section
variable {m m' : Mem} {roots kern : Finset Nat} {vm vm' vm'' : Vm} {r ℓ q t i n f p : Nat} {pmm' : Pmm}

theorem Apart.refl : Apart roots r vm vm := ⟨rfl, rfl, fun _ _ _ _ _ _ => rfl, fun _ _ _ _ _ => rfl⟩

theorem Apart.trans (h : Apart roots r vm vm') (h' : Apart roots r vm' vm'') : Apart roots r vm vm'' :=
  ⟨h'.frames.trans h.frames, h'.reserved.trans h.reserved,
    fun r' hr hne ℓ q hp => (h'.tables r' hr hne ℓ q hp).trans (h.tables r' hr hne ℓ q hp),
    fun r' hr hne n hn => (h'.pages r' hr hne n hn).trans (h.pages r' hr hne n hn)⟩

theorem Tidy.refl : Tidy roots kern r vm vm := ⟨.refl, fun _ => Iff.rfl⟩

theorem Tidy.trans (h : Tidy roots kern r vm vm') (h' : Tidy roots kern r vm' vm'') :
    Tidy roots kern r vm vm'' :=
  ⟨h.toApart.trans h'.toApart, fun f => (h'.lost f).trans (h.lost f)⟩

/-- The reference table has no say in it. -/
theorem Tidy.of_mem (hm : vm'.mem = vm.mem) (hp : vm'.pmm = vm.pmm) : Tidy roots kern r vm vm' := by
  refine ⟨⟨by rw [hp], by rw [hp], fun _ _ _ _ _ _ => by rw [hm], fun _ _ _ _ _ => by rw [hm]⟩, fun f => ?_⟩
  rw [Lost, Lost, hm, hp]

theorem maps_iff :
    Maps m roots f ↔ ∃ r ∈ roots, ∃ n, n < userPages ∧ (view m r n).map Leaf.frame = some f := by
  simp only [Maps, Option.map_eq_some_iff]

/-- The frames are mapped at the same places. -/
theorem maps_congr
    (h : ∀ r ∈ roots, ∀ n, n < userPages → (view m' r n).map Leaf.frame = (view m r n).map
      Leaf.frame) :
    Maps m' roots f ↔ Maps m roots f := by
  rw [maps_iff, maps_iff]
  constructor
  · rintro ⟨r, hr, n, hn, hf⟩
    exact ⟨r, hr, n, hn, h r hr n hn ▸ hf⟩
  · rintro ⟨r, hr, n, hn, hf⟩
    exact ⟨r, hr, n, hn, (h r hr n hn).trans hf⟩

theorem inUse_congr (ht : ∀ r ∈ roots, ∀ ℓ q, Place ℓ q → tab m' r ℓ q = tab m r ℓ q)
    (hv : ∀ r ∈ roots, ∀ n, n < userPages → (view m' r n).map Leaf.frame = (view m r n).map Leaf.frame) :
    InUse m' roots kern f ↔ InUse m roots kern f := by
  rw [InUse, InUse, isTable_congr ht, maps_congr hv]

theorem not_maps_iff : ¬Maps m roots f ↔ mappings (sites roots) (see m) f = 0 := by
  rw [not_mapped]
  constructor
  · intro h r hr n hn l hl hf
    exact h ⟨r, hr, n, hn, l, hl, hf⟩
  · rintro h ⟨r, hr, n, hn, l, hl, hf⟩
    exact h r hr n hn l hl hf

/-- A frame of a task is in use. -/
theorem inUse_of_view (hr : r ∈ roots) (hn : n < userPages) {l : Leaf Nat} (hl : view m r n = some l) :
    InUse m roots kern l.frame := .inr (.inr ⟨r, hr, n, hn, l, hl, rfl⟩)

/-- Only the protection of pages changed. -/
theorem Tidy.recolor (hpmm : vm'.pmm = vm.pmm)
    (ht : ∀ r ∈ roots, ∀ ℓ q, Place ℓ q → tab vm'.mem r ℓ q = tab vm.mem r ℓ q)
    (hv : ∀ r ∈ roots, ∀ n, n < userPages → (view vm'.mem r n).map Leaf.frame =
      (view vm.mem r n).map Leaf.frame) :
    Tidy roots kern r vm vm' := by
  refine ⟨⟨by rw [hpmm], by rw [hpmm], fun r' hr _ => ht r' hr, fun r' hr _ => hv r' hr⟩, fun f => ?_⟩
  rw [Lost, Lost, hpmm, inUse_congr ht hv]

/-! ## Tables -/

/-- A new table. -/
theorem Tidy.addTable (h : PtInv vm.mem vm.pmm roots kern) (hr : r ∈ roots) (hp : Place ℓ q)
    (hℓ : ℓ < 3) (ht : tab vm.mem r ℓ q = some t) (hi : i < 512) (h0 : ℓ ≠ 0 ∨ i < 256)
    (he : ent vm.mem t i = 0) (hal : vm.pmm.Took p pmm')
    (hm : vm'.mem = setEnt (zeroPage vm.mem p) t i (dirEnt p)) (hpmm : vm'.pmm = pmm') :
    Tidy roots kern r vm vm' := by
  obtain ⟨a1, a2, a3⟩ := h.addTable hr hp hℓ ht hi h0 he hal
  rw [← hm] at a2 a3
  have hnew : tab vm.mem r (ℓ + 1) (512 * q + i) = none := by
    rw [tab_succ, show (512 * q + i) / 512 = q by omega, show (512 * q + i) % 512 = i by omega, ht,
      Option.bind_some, next_zero he]
  have htab : ∀ g, IsTable vm'.mem roots g ↔ IsTable vm.mem roots g ∨ g = p := by
    intro g
    constructor
    · rintro ⟨r', hr', ℓ', q', hp', h'⟩
      rw [a2 r' hr' ℓ' q' hp'] at h'
      split at h'
      · exact .inr (Option.some.inj h').symm
      · exact .inl (isTable_of hr' hp' h')
    · rintro (⟨r', hr', ℓ', q', hp', h'⟩ | rfl)
      · refine isTable_of hr' hp' ?_
        rw [a2 r' hr' ℓ' q' hp', if_neg]
        · exact h'
        · rintro ⟨rfl, rfl, rfl⟩
          rw [hnew] at h'
          cases h'
      · refine isTable_of hr (hp.child hℓ hi h0) ?_
        rw [a2 r hr _ _ (hp.child hℓ hi h0), if_pos ⟨rfl, rfl, rfl⟩]
  have hview : ∀ r ∈ roots, ∀ n, n < userPages → (view vm'.mem r n).map Leaf.frame =
      (view vm.mem r n).map Leaf.frame :=
    fun r' hr' n hn => by rw [a3 r' hr' n hn]
  refine ⟨⟨hpmm ▸ hal.frames, hpmm ▸ hal.reserved, fun r' hr' hne ℓ' q' hp' => ?_,
    fun r' hr' _ => hview r' hr'⟩, fun f => ?_⟩
  · rw [a2 r' hr' ℓ' q' hp', if_neg fun hx => hne hx.1]
  · rw [Lost, Lost, hpmm, hal.owned_iff h.ok, InUse, InUse, htab, maps_congr hview]
    have hfresh : vm.pmm.Owned f → f ≠ p := hal.fresh
    tauto

/-- A table goes back. -/
theorem Tidy.dropTable (h : PtInv vm.mem vm.pmm roots kern) (hr : r ∈ roots) (hp : Place ℓ q) (hℓ : ℓ < 3)
    (ht : tab vm.mem r ℓ q = some t) (hi : i < 512) (h0 : ℓ ≠ 0 ∨ i < 256) {s : Nat}
    (hs : tab vm.mem r (ℓ + 1) (512 * q + i) = some s) (hz : ∀ j, j < 512 → ent vm.mem s j = 0) :
    Tidy roots kern r vm { vm with mem := setEnt vm.mem t i 0, pmm := pmmFree vm.pmm s } := by
  obtain ⟨a1, a2, a3⟩ := h.dropTable hr hp hℓ ht hi h0 hs hz
  have hps := hp.child hℓ hi h0
  have hits := isTable_of hr hps hs
  have hown := (h.own s hits).1
  have hg := pmmFree_gave h.ok hown
  have htab : ∀ g, IsTable (setEnt vm.mem t i 0) roots g ↔ IsTable vm.mem roots g ∧ g ≠ s := by
    intro g
    constructor
    · rintro ⟨r', hr', ℓ', q', hp', h'⟩
      rw [a2 r' hr' ℓ' q' hp'] at h'
      split at h'
      · cases h'
      · next hne =>
        refine ⟨isTable_of hr' hp' h', ?_⟩
        rintro rfl
        exact hne (h.inj r' hr' r hr ℓ' q' _ _ g hp' hps h' hs)
    · rintro ⟨⟨r', hr', ℓ', q', hp', h'⟩, hne⟩
      refine isTable_of hr' hp' ?_
      rw [a2 r' hr' ℓ' q' hp', if_neg]
      · exact h'
      · rintro ⟨rfl, rfl, rfl⟩
        rw [hs] at h'
        exact hne (Option.some.inj h').symm
  have hview : ∀ r ∈ roots, ∀ n, n < userPages →
      (view (setEnt vm.mem t i 0) r n).map Leaf.frame = (view vm.mem r n).map Leaf.frame :=
    fun r' hr' n hn => by rw [a3 r' hr' n hn]
  refine ⟨⟨hg.frames, hg.reserved, fun r' hr' hne ℓ' q' hp' => ?_, fun r' hr' _ => hview r' hr'⟩, fun f => ?_⟩
  · exact (a2 r' hr' ℓ' q' hp').trans (if_neg fun hx => hne hx.1)
  · rw [Lost, Lost, hg.owned_iff hown, InUse, InUse, htab, maps_congr hview]
    by_cases hfs : f = s
    · subst hfs
      simp [hits]
    · simp [hfs]

/-- **`vmm_ensure_table`** loses nothing. -/
theorem vmmEnsureTable_tidy (h : PtInv vm.mem vm.pmm roots kern) (hr : r ∈ roots) (hp : Place ℓ q)
    (hℓ : ℓ < 3) (ht : tab vm.mem r ℓ q = some t) (hi : i < 512) (h0 : ℓ ≠ 0 ∨ i < 256)
    {o : Option Nat} (he : vmmEnsureTable vm t i pteUserFlags = (vm', o)) :
    Tidy roots kern r vm vm' := by
  unfold vmmEnsureTable at he
  simp only at he
  rcases h.dir r hr ℓ q t i hp hℓ ht hi h0 with hz | ⟨s, hs, hsp, hlt⟩
  · rw [hz, if_pos (by decide)] at he
    split at he
    · cases he
      exact .refl
    · rename_i phys pmm' hne heq
      rcases pmmAlloc_spec vm.pmm h.ok with hal | ⟨-, hal⟩
      · rw [heq] at hal
        exact absurd (congrArg Prod.fst hal) hne
      · rw [heq] at hal
        cases he
        exact .addTable h hr hp hℓ ht hi h0 hz hal rfl rfl
  · have hand : ∀ k, k < pageSize → dirEnt s &&& k = pteUserFlags &&& k := fun k hk => or_flags_and hsp hk
    rw [hs, hand _ (by decide), hand _ (by decide), hand _ (by decide), if_neg (by decide),
      if_neg (by decide), if_neg (by decide)] at he
    cases he
    exact .refl

/-- **`vmm_map_user_flags`** adds tables, then writes one entry. -/
theorem vmmMapUserFlags_walk (h : PtInv vm.mem vm.pmm roots kern) (hready : vm.hhdmReady = true)
    (hr : r ∈ roots) {virt : Nat} (hv : vpn virt < userPages) {phys flags : Nat} {b : Bool}
    (he : vmmMapUserFlags vm r virt phys flags = (vm', b)) :
    (b = false ∧ Tidy roots kern r vm vm') ∨
    (b = true ∧ ∃ vm3 pt, Tidy roots kern r vm vm3 ∧ PtInv vm3.mem vm3.pmm roots kern ∧
      Grew roots vm.mem vm.pmm vm3.mem vm3.pmm ∧ tab vm3.mem r 3 (vpn virt / 512) = some pt ∧
      vm' = { vm3 with mem := setEnt vm3.mem pt (vpn virt % 512) (phys ||| flags) }) := by
  have hr0 : cr3OrBoot r = r := by
    unfold cr3OrBoot
    rw [if_neg ((h.root_owned hr).ne_zero h.ok)]
  have hp3 := place_pt hv
  have hp2 := hp3.parent
  have hp1 := hp2.parent
  have hi1 : pml4I virt < 256 := (user_half_iff virt).2 hv
  have hi2 : pdptI virt < 512 := by rw [pdptI_eq]; exact Nat.mod_lt _ (by decide)
  have hi3 : pdI virt < 512 := by rw [pdI_eq]; exact Nat.mod_lt _ (by decide)
  have e1 : 512 * (vpn virt / 512 / 512 / 512 / 512) + pml4I virt = vpn virt / 512 / 512 / 512 := by
    have := pml4I_eq virt; omega
  have e2 : 512 * (vpn virt / 512 / 512 / 512) + pdptI virt = vpn virt / 512 / 512 := by
    have := pdptI_eq virt; omega
  have e3 : 512 * (vpn virt / 512 / 512) + pdI virt = vpn virt / 512 := by
    have := pdI_eq virt; omega
  unfold vmmMapUserFlags at he
  split at he
  · cases he
    exact .inl ⟨rfl, .refl⟩
  rw [hr0, user_half_not_kernel hv, hready, if_neg (by decide), if_neg (by decide)] at he
  rcases hens1 : vmmEnsureTable vm r (pml4I virt) pteUserFlags with ⟨vm1, o1⟩
  obtain ⟨a1, a2, -, -, a5⟩ := vmmEnsureTable_spec h hr hp1.parent (by omega) (tab_zero ..)
    (by omega) (Or.inr hi1) hens1 (show 1 = 0 + 1 from rfl) e1.symm
  have t1 := vmmEnsureTable_tidy h hr hp1.parent (by omega) (tab_zero ..) (by omega) (Or.inr hi1) hens1
  rw [hens1] at he
  cases o1 with
  | none =>
    rw [orFail_none] at he
    cases he
    exact .inl ⟨rfl, t1⟩
  | some pdpt =>
  rcases hens2 : vmmEnsureTable vm1 pdpt (pdptI virt) pteUserFlags with ⟨vm2, o2⟩
  obtain ⟨b1, b2, -, -, b5⟩ := vmmEnsureTable_spec a1 hr hp1 (by omega) (a5 pdpt rfl) hi2
    (Or.inl (by decide)) hens2 (show 2 = 1 + 1 from rfl) e2.symm
  have t2 := t1.trans (vmmEnsureTable_tidy a1 hr hp1 (by omega) (a5 pdpt rfl) hi2 (Or.inl (by decide)) hens2)
  rw [orFail_some, hens2] at he
  cases o2 with
  | none =>
    rw [orFail_none] at he
    cases he
    exact .inl ⟨rfl, t2⟩
  | some pd =>
  rcases hens3 : vmmEnsureTable vm2 pd (pdI virt) pteUserFlags with ⟨vm3, o3⟩
  obtain ⟨c1, c2, -, -, c5⟩ := vmmEnsureTable_spec b1 hr hp2 (by omega) (b5 pd rfl) hi3
    (Or.inl (by decide)) hens3 (show 3 = 2 + 1 from rfl) e3.symm
  have t3 := t2.trans (vmmEnsureTable_tidy b1 hr hp2 (by omega) (b5 pd rfl) hi3 (Or.inl (by decide)) hens3)
  rw [orFail_some, hens3] at he
  cases o3 with
  | none =>
    rw [orFail_none] at he
    cases he
    exact .inl ⟨rfl, t3⟩
  | some pt =>
    rw [orFail_some] at he
    cases he
    exact .inr ⟨rfl, vm3, pt, t3, c1, (a2.trans b2).trans c2, c5 pt rfl, by rw [ptI_eq]⟩

/-! ## Pages -/

/-- One page of one task changed: frames that are neither its old nor its new one are mapped as before. -/
theorem maps_update {v : Option (Leaf Nat)}
    (hview : ∀ r' ∈ roots, ∀ n', n' < userPages → view m' r' n' = if r' = r ∧ n' = n then v
      else view m r' n')
    (ho : ∀ l, view m r n = some l → l.frame ≠ f) (hv : ∀ l, v = some l → l.frame ≠ f) :
    Maps m' roots f ↔ Maps m roots f := by
  constructor
  · rintro ⟨r', hr', n', hn', l, hl, hf⟩
    rw [hview r' hr' n' hn'] at hl
    split at hl
    · exact absurd hf (hv l hl)
    · exact ⟨r', hr', n', hn', l, hl, hf⟩
  · rintro ⟨r', hr', n', hn', l, hl, hf⟩
    refine ⟨r', hr', n', hn', l, ?_, hf⟩
    rw [hview r' hr' n' hn', if_neg]
    · exact hl
    · rintro ⟨rfl, rfl⟩
      exact ho l hl hf

/-- A page of `r` changes, and the allocator keeps its bounds. -/
theorem Apart.leaf {v : Option (Leaf Nat)}
    (ht : ∀ r ∈ roots, ∀ ℓ q, Place ℓ q → tab vm'.mem r ℓ q = tab vm.mem r ℓ q)
    (hview : ∀ r' ∈ roots, ∀ n', n' < userPages → view vm'.mem r' n' = if r' = r ∧ n' = n then v
      else view vm.mem r' n')
    (hf : vm'.pmm.frameCount = vm.pmm.frameCount)
      (hres : vm'.pmm.reservedEnd = vm.pmm.reservedEnd) :
    Apart roots r vm vm' :=
  ⟨hf, hres, fun r' hr' _ => ht r' hr', fun r' hr' hne n' hn' => by
    rw [hview r' hr' n' hn', if_neg fun hx => hne hx.1]⟩

/-- **`vmm_map_user_flags`** on a page that is not mapped: the frame is in use afterwards. -/
theorem vmmMapUserFlags_lost (h : PtInv vm.mem vm.pmm roots kern) (hready : vm.hhdmReady = true)
    (hr : r ∈ roots) {virt : Nat} (hv : vpn virt < userPages) {phys : Nat}
    (hd : Data vm.mem vm.pmm roots kern phys) {want hw : Bool}
    (hnone : view vm.mem r (vpn virt) = none) {b : Bool}
    (he : vmmMapUserFlags vm r virt phys (leafFlags want hw) = (vm', b)) :
    (b = false → Tidy roots kern r vm vm') ∧
    (b = true → Apart roots r vm vm' ∧ ∀ f, Lost vm' roots kern f ↔ Lost vm roots kern f ∧
    f ≠ phys) := by
  rcases vmmMapUserFlags_walk h hready hr hv he with ⟨rfl, ht⟩ | ⟨rfl, vm3, pt, ht, hp3, hgrew, htab, rfl⟩
  · exact ⟨fun _ => ht, nofun⟩
  · refine ⟨nofun, fun _ => ?_⟩
    have hd3 := hgrew.data hd
    obtain ⟨-, p2, p3, -⟩ := hp3.setPage hr hv htab (Or.inr (hd3.encode_ok want hw))
    rw [hd3.decode hp3.ok] at p3
    have hmap : Maps (setEnt vm3.mem pt (vpn virt % 512) (encode ⟨phys, want, hw⟩)) roots phys :=
      ⟨r, hr, vpn virt, hv, ⟨phys, want, hw⟩, (p3 r hr _ hv).trans (if_pos ⟨rfl, rfl⟩), rfl⟩
    refine ⟨ht.toApart.trans (.leaf (n := vpn virt) p2 p3 rfl rfl), fun f => ?_⟩
    rw [← ht.lost f]
    by_cases hf : f = phys
    · subst hf
      exact ⟨fun hl => absurd (.inr (.inr hmap)) hl.2, fun hl => absurd rfl hl.2⟩
    · have hm := maps_update (f := f) p3
        (fun l hl => by rw [hgrew.view r hr _ hv, hnone] at hl; cases hl)
          (fun l hl => by cases hl; exact Ne.symm hf)
      have huse : InUse (setEnt vm3.mem pt (vpn virt % 512) (encode ⟨phys, want, hw⟩)) roots kern
          f ↔ InUse vm3.mem roots kern f := by
        rw [InUse, InUse, isTable_congr p2, hm]
      exact ⟨fun hl => ⟨⟨hl.1, fun hu => hl.2 (huse.2 hu)⟩, hf⟩,
        fun hl => ⟨hl.1.1, fun hu => hl.1.2 (huse.1 hu)⟩⟩

/-- Clearing a leaf and dropping its reference: the frame goes back with the last one. -/
theorem VmInv.dropLeaf_tidy (h : VmInv vm roots kern) (hr : r ∈ roots) (hn : n < userPages) {pt : Nat}
    (ht : tab vm.mem r 3 (n / 512) = some pt) {l : Leaf Nat} (hl : view vm.mem r n = some l) :
    Tidy roots kern r vm (cowFreeLeaf { vm with mem := setEnt vm.mem pt (n % 512) 0 } l.frame) := by
  obtain ⟨-, h2, h3, -⟩ := h.pt.setPage hr hn ht (Or.inl rfl)
  obtain ⟨-, -, -, hd⟩ := h.pt.of_view hr hn hl
  rw [decode_zero] at h3
  obtain ⟨s1, s2⟩ := see_update h3
  have hx : (r, n) ∈ sites roots := mem_sites.2 ⟨hr, hn⟩
  obtain ⟨-, c2⟩ := h.cow.drop hx hl (s2 hx) s1
  obtain ⟨-, -, p3⟩ := cowPut_spec h.unique l.frame
  have hother : ∀ f, f ≠ l.frame → (Maps (setEnt vm.mem pt (n % 512) 0) roots f ↔
      Maps vm.mem roots f) := fun f hf =>
    maps_update h3 (fun l' hl' => by rw [hl] at hl'; cases hl'; exact Ne.symm hf) nofun
  have huse : InUse vm.mem roots kern l.frame := inUse_of_view hr hn hl
  unfold cowFreeLeaf
  simp only
  rcases hput : cowPut vm.cowTab l.frame with ⟨t, _ | _⟩ <;> rw [hput] at p3
  · -- somebody else maps the frame
    have hm : Maps (setEnt vm.mem pt (n % 512) 0) roots l.frame := by
      by_contra hc
      exact Bool.false_ne_true (p3.2 (c2.1 (not_maps_iff.1 hc)))
    refine ⟨.leaf (n := n) h2 h3 rfl rfl, fun f => ?_⟩
    by_cases hf : f = l.frame
    · subst hf
      exact ⟨fun hlost => absurd (.inr (.inr hm)) hlost.2, fun hlost => absurd huse hlost.2⟩
    · unfold Lost InUse
      rw [isTable_congr h2, hother f hf]
  · have hd' := hd.congr h2
    have hg := pmmFree_gave h.pt.ok hd.owned
    refine ⟨.leaf (n := n) h2 h3 hg.frames hg.reserved, fun f => ?_⟩
    unfold Lost
    rw [hg.owned_iff hd.owned]
    by_cases hf : f = l.frame
    · subst hf
      exact ⟨fun hlost => absurd rfl hlost.1.2, fun hlost => absurd huse hlost.2⟩
    · unfold InUse
      rw [isTable_congr h2, hother f hf]
      simp [hf]

/-! ## Unmapping, protecting, breaking up sharing -/

theorem VmInv.vmmUnmapUser_tidy (h : VmInv vm roots kern) (hr : r ∈ roots) (virt : Nat) :
    Tidy roots kern r vm (vmmUnmapUser vm r virt).1 := by
  unfold vmmUnmapUser
  rw [h.cr3 hr, if_neg (c := vm.hhdmReady = false) (by rw [h.ready]; decide), walkPt_tab, and_fff]
  by_cases ha : virt % pageSize = 0
  · rw [if_neg (fun h' => h' ha)]
    by_cases hv : vpn virt < userPages
    · rw [user_half_not_kernel hv, if_neg (by decide)]
      cases ht : tab vm.mem r 3 (vpn virt / 512) with
      | none => exact .refl
      | some pt =>
        rw [ptI_eq]
        simp only
        rcases h.pt.view_cases hr hv ht with ⟨h0, -⟩ | ⟨l, he, hl, hd⟩
        · rw [h0, if_pos (by decide)]
          exact .refl
        · have hpres : encode l &&& pdePresent ≠ 0 := by
            rw [encode_and hd.owned.page (by decide)]
            cases l.want <;> cases l.hw <;> decide
          rw [he, if_neg hpres, encode_addr hd.owned h.pt.ok]
          exact h.dropLeaf_tidy hr hv ht hl
    · cases hk : kernelIndex virt with
      | true => exact .refl
      | false =>
        rw [← walkPt_tab, h.pt.walkPt_high hr hk hv _ (by decide)]
        exact .refl
  · rw [if_pos ha]
    exact .refl

/-- A leaf is rewritten with the frame it has. -/
theorem VmInv.recolor_tidy (h : VmInv vm roots kern) (hr : r ∈ roots) (hn : n < userPages) {pt : Nat}
    (ht : tab vm.mem r 3 (n / 512) = some pt) {l : Leaf Nat} (hl : view vm.mem r n = some l) (want hw : Bool)
    (hpmm : vm'.pmm = vm.pmm) (hm : vm'.mem = setEnt vm.mem pt (n % 512) (encode ⟨l.frame, want, hw⟩)) :
    Tidy roots kern r vm vm' := by
  obtain ⟨-, -, -, hd⟩ := h.pt.of_view hr hn hl
  obtain ⟨-, p2, p3, -⟩ := h.pt.setPage hr hn ht (Or.inr (hd.encode_ok want hw))
  rw [hd.decode h.pt.ok, ← hm] at p3
  rw [← hm] at p2
  refine .recolor hpmm p2 fun r' hr' n' hn' => ?_
  rw [p3 r' hr' n' hn']
  split
  · next hx =>
    rw [hx.1, hx.2, hl]
    rfl
  · rfl

theorem VmInv.privateCopy_tidy (h : VmInv vm roots kern) (hr : r ∈ roots) (hn : n < userPages) {pt : Nat}
    (ht : tab vm.mem r 3 (n / 512) = some pt) {l : Leaf Nat} (hl : view vm.mem r n = some l)
    (hc : ¬count (refs? vm.cowTab) l.frame ≤ 1) {neu : Nat} (hal : vm.pmm.Took neu pmm') {vm' : Vm}
    (e : vm' = { vm with
      pmm := pmm', mem := setEnt (copyPage vm.mem neu l.frame) pt (n % 512) (neu ||| pteUserFlags)
      cowTab := (cowPut vm.cowTab l.frame).1 }) : Tidy roots kern r vm vm' := by
  rw [encode_user] at e
  subst e
  have hx : (r, n) ∈ sites roots := mem_sites.2 ⟨hr, hn⟩
  obtain ⟨q1, q2, q3, -, q5, -⟩ := h.pt.scribble hal (sameOff_copyPage vm.mem neu l.frame)
  obtain ⟨-, p2, p3, -⟩ := q1.setPage hr hn ((q2 r hr 3 _ (place_pt hn)).trans ht)
    (Or.inr (q5.encode_ok true true))
  rw [q5.decode q1.ok] at p3
  set m3 := setEnt (copyPage vm.mem neu l.frame) pt (n % 512) (encode ⟨neu, true, true⟩)
  have htab : ∀ r ∈ roots, ∀ ℓ q, Place ℓ q → tab m3 r ℓ q = tab vm.mem r ℓ q :=
    fun r' hr' ℓ q hp => (p2 r' hr' ℓ q hp).trans (q2 r' hr' ℓ q hp)
  have hview : ∀ r' ∈ roots, ∀ n', n' < userPages →
      view m3 r' n' = if r' = r ∧ n' = n then some ⟨neu, true, true⟩ else view vm.mem r' n' := by
    intro r' hr' n' hn'
    rw [p3 r' hr' n' hn', q3 r' hr' n' hn']
  obtain ⟨s1, s2⟩ := see_update hview
  have hfresh : ∀ f, vm.pmm.Owned f → f ≠ neu := fun f hf => hal.fresh hf
  obtain ⟨-, -, -, hd⟩ := h.pt.of_view hr hn hl
  -- the old frame had another mapping
  have hold : Maps m3 roots l.frame := by
    by_contra hno
    have h0 := not_maps_iff.1 hno
    have hu := mappings_update hx s1 l.frame
    have hcount := h.cow.count_eq hx hl
    have hne : frameOf (see m3) (r, n) ≠ some l.frame := by
      rw [frameOf, s2 hx]
      exact fun he => hfresh _ hd.owned (Option.some.inj he).symm
    rw [h0, if_neg hne] at hu
    split at hu <;> omega
  have hnew : Maps m3 roots neu := ⟨r, hr, n, hn, _, (hview r hr n hn).trans (if_pos ⟨rfl, rfl⟩), rfl⟩
  refine ⟨.leaf (n := n) htab hview hal.frames hal.reserved, fun f => ?_⟩
  unfold Lost
  rw [hal.owned_iff h.pt.ok]
  by_cases hfl : f = l.frame
  · subst hfl
    exact ⟨fun hlost => absurd (.inr (.inr hold)) hlost.2,
      fun hlost => absurd (inUse_of_view hr hn hl) hlost.2⟩
  · by_cases hfn : f = neu
    · subst hfn
      exact ⟨fun hlost => absurd (.inr (.inr hnew)) hlost.2, fun hlost => absurd rfl (hfresh _ hlost.1)⟩
    · have hm := maps_update (f := f) hview (fun l' hl' => by rw [hl] at hl'; cases hl'; exact Ne.symm hfl)
        (fun l' hl' => by cases hl'; exact Ne.symm hfn)
      have huse : InUse m3 roots kern f ↔ InUse vm.mem roots kern f := by
        rw [InUse, InUse, isTable_congr htab, hm]
      exact ⟨fun hlost => ⟨hlost.1.resolve_right hfn, fun hu => hlost.2 (huse.2 hu)⟩,
        fun hlost => ⟨.inl hlost.1, fun hu => hlost.2 (huse.1 hu)⟩⟩

theorem VmInv.vmmCowBreak_tidy (h : VmInv vm roots kern) (hr : r ∈ roots) (virt : Nat) :
    Tidy roots kern r vm (vmmCowBreak vm r virt).1 := by
  unfold vmmCowBreak
  have hspec := h.vmmLeafPte_spec hr (virt &&& addrMask)
  rw [vpn_addr] at hspec
  rcases hspec with ⟨h1, -⟩ | ⟨pt, l, h1, hv, ht, hl, he, hd⟩
  · rw [h1]
    exact .refl
  · rw [h1]
    simp only
    rw [he]
    split
    · exact .refl
    · rw [encode_addr hd.owned h.pt.ok, cowRefs_eq]
      split
      · exact h.recolor_tidy hr hv ht hl true true rfl (by rw [encode_user])
      · rename_i hc
        have hal := pmmAllocFrom_spec vm.pmm h.pt.ok page2M
        split
        · exact .refl
        · rename_i neu pmm' hne heq
          rw [heq] at hal
          rcases hal with hal | ⟨-, hal⟩
          · exact absurd (congrArg Prod.fst hal) hne
          · exact h.privateCopy_tidy hr hv ht hl hc hal rfl

end

end VampireOS
