import VampireOS.Memory.Pages

/-!
# Growing the tables

`vmm_ensure_table` adds empty tables and nothing else (`Grew`); `vmm_map_user_flags` then writes one
leaf. Both are used while a fork has counted a mapping that is not there yet, so their
specifications only need `PtInv`.
-/

namespace VampireOS

open Lib

/-- `m'` is `m` with more (empty) tables: whatever was handed out and is no table keeps its bytes. -/
structure Grew (roots : Finset Nat) (m : Mem) (pmm : Pmm) (m' : Mem) (pmm' : Pmm) : Prop where
  owned : ∀ f, pmm.Owned f → pmm'.Owned f
  notTable : ∀ f, pmm.Owned f → ¬IsTable m roots f → ¬IsTable m' roots f
  bytes : ∀ f, pmm.Owned f → ¬IsTable m roots f → frameBytes m' f = frameBytes m f
  tab : ∀ r ∈ roots, ∀ ℓ q t, Place ℓ q → tab m r ℓ q = some t → tab m' r ℓ q = some t
  view : ∀ r ∈ roots, ∀ n, n < userPages → view m' r n = view m r n

section
variable {m m' m'' : Mem} {pmm pmm' pmm'' : Pmm} {roots kern : Finset Nat} {r ℓ q t i : Nat} {vm : Vm}

theorem Grew.refl : Grew roots m pmm m pmm :=
  ⟨fun _ h => h, fun _ _ h => h, fun _ _ _ => rfl, fun _ _ _ _ _ _ h => h, fun _ _ _ _ => rfl⟩

theorem Grew.trans (h : Grew roots m pmm m' pmm') (h' : Grew roots m' pmm' m'' pmm'') :
    Grew roots m pmm m'' pmm'' where
  owned f hf := h'.owned f (h.owned f hf)
  notTable f hf hn := h'.notTable f (h.owned f hf) (h.notTable f hf hn)
  bytes f hf hn := (h'.bytes f (h.owned f hf) (h.notTable f hf hn)).trans (h.bytes f hf hn)
  tab r hr ℓ q t hp ht := h'.tab r hr ℓ q t hp (h.tab r hr ℓ q t hp ht)
  view r hr n hn := (h'.view r hr n hn).trans (h.view r hr n hn)

theorem Grew.data (h : Grew roots m pmm m' pmm') {f : Nat} (hd : Data m pmm roots kern f) :
    Data m' pmm' roots kern f := ⟨h.owned f hd.owned, hd.notKern, h.notTable f hd.owned hd.notTable⟩

/-- New tables show to nobody. -/
theorem Grew.same (h : Grew roots m pmm m' pmm') (hi : PtInv m pmm roots kern) : Same roots kern m m' := by
  refine ⟨fun r hr n hn => ?_, fun f hf => h.bytes f (hi.kern f hf) fun ht => (hi.own f ht).2 hf⟩
  rw [absMem_eq, absMem_eq, h.view r hr n hn]
  cases hv : VampireOS.view m r n with
  | none => rfl
  | some l =>
    obtain ⟨-, -, -, hd⟩ := hi.of_view hr hn hv
    rw [Option.map_some, Option.map_some, pageOf, pageOf, h.bytes _ hd.owned hd.notTable]

/-- **`vmm_ensure_table`** answers the table below entry `i`, adding an empty one if need be. -/
theorem vmmEnsureTable_spec (h : PtInv vm.mem vm.pmm roots kern) (hr : r ∈ roots) (hp : Place ℓ q)
    (hℓ : ℓ < 3) (ht : tab vm.mem r ℓ q = some t) (hi : i < 512) (h0 : ℓ ≠ 0 ∨ i < 256) {vm' : Vm}
    {o : Option Nat} (he : vmmEnsureTable vm t i pteUserFlags = (vm', o)) {ℓ' q' : Nat}
    (hℓ' : ℓ' = ℓ + 1) (hq' : q' = 512 * q + i) :
    PtInv vm'.mem vm'.pmm roots kern ∧ Grew roots vm.mem vm.pmm vm'.mem vm'.pmm ∧ vm'.cowTab = vm.cowTab ∧
      vm'.hhdmReady = vm.hhdmReady ∧ ∀ s, o = some s → tab vm'.mem r ℓ' q' = some s := by
  subst hℓ' hq'
  unfold vmmEnsureTable at he
  simp only at he
  rcases h.dir r hr ℓ q t i hp hℓ ht hi h0 with hz | ⟨s, hs, hsp, hlt⟩
  · rw [hz, if_pos (by decide)] at he
    split at he
    · cases he
      exact ⟨h, Grew.refl, rfl, rfl, fun s hs => by cases hs⟩
    · rename_i phys pmm' hne heq
      rcases pmmAlloc_spec vm.pmm h.ok with hal | ⟨-, hal⟩
      · rw [heq] at hal
        exact absurd (congrArg Prod.fst hal) hne
      · rw [heq] at hal
        cases he
        obtain ⟨a1, a2, a3⟩ := h.addTable hr hp hℓ ht hi h0 hz hal
        have hpt := isTable_of hr hp ht
        refine ⟨a1, ⟨fun f hf => hal.mono hf, fun f hf hn => ?_, fun f hf hn => ?_,
          fun r' hr' ℓ' q' t' hp' h' => ?_, a3⟩, rfl, rfl, fun s hs => ?_⟩
        · rintro ⟨r', hr', ℓ', q', hp', h'⟩
          rw [show dirEnt phys = phys ||| pteUserFlags from rfl] at a2
          rw [a2 r' hr' ℓ' q' hp'] at h'
          split at h'
          · cases h'
            exact hal.fresh hf rfl
          · exact hn (isTable_of hr' hp' h')
        · have hne : f ≠ t := by rintro rfl; exact hn hpt
          exact ((sameOff_setEnt _ t i _ hi).frameBytes (h.own t hpt).1.page hf.page hne).trans
            ((sameOff_zeroPage vm.mem phys).frameBytes hal.page hf.page (hal.fresh hf))
        · rw [show dirEnt phys = phys ||| pteUserFlags from rfl] at a2
          rw [a2 r' hr' ℓ' q' hp', if_neg]
          · exact h'
          · rintro ⟨rfl, rfl, rfl⟩
            rw [tab_succ, show (512 * q + i) / 512 = q by omega, show (512 * q + i) % 512 = i by omega, ht,
              Option.bind_some, next_zero hz] at h'
            cases h'
        · cases hs
          rw [show dirEnt phys = phys ||| pteUserFlags from rfl] at a2
          rw [a2 r hr _ _ (hp.child hℓ hi h0), if_pos ⟨rfl, rfl, rfl⟩]
  · have hand : ∀ k, k < pageSize → dirEnt s &&& k = pteUserFlags &&& k := fun k hk => or_flags_and hsp hk
    rw [hs, hand _ (by decide), hand _ (by decide), hand _ (by decide), if_neg (by decide),
      if_neg (by decide), if_neg (by decide)] at he
    cases he
    refine ⟨h, Grew.refl, rfl, rfl, fun s' hs' => ?_⟩
    cases hs'
    have h64 : s < 2 ^ 64 := by omega
    rw [tab_succ, show (512 * q + i) / 512 = q by omega, show (512 * q + i) % 512 = i by omega, ht,
      Option.bind_some, next_dirEnt hs hsp h64]
    exact congrArg some (or_flags_addr hsp h64 userFlags_lt).symm

theorem orFail_none (vm : Vm) (rest : Vm → Nat → Vm × Bool) : orFail (vm, none) rest = (vm, false) := rfl

theorem orFail_some (vm : Vm) (next : Nat) (rest : Vm → Nat → Vm × Bool) :
    orFail (vm, some next) rest = rest vm next := rfl

/-- What a successful `vmm_map_user_flags` leaves: the tables there were, and one page more. -/
structure Mapped (roots kern : Finset Nat) (vm vm' : Vm) (r n : Nat) (l : Leaf Nat) : Prop where
  tab : ∀ r ∈ roots, ∀ ℓ q t, Place ℓ q → tab vm.mem r ℓ q = some t → tab vm'.mem r ℓ q = some t
  view : ∀ r' ∈ roots, ∀ n', n' < userPages →
    view vm'.mem r' n' = if r' = r ∧ n' = n then some l else view vm.mem r' n'
  step : Step roots kern vm.mem vm'.mem r n (some (pageOf vm.mem l))
  data : ∀ f, Data vm.mem vm.pmm roots kern f →
    Data vm'.mem vm'.pmm roots kern f ∧ frameBytes vm'.mem f = frameBytes vm.mem f

theorem vmmMapUserFlags_spec (h : PtInv vm.mem vm.pmm roots kern) (hready : vm.hhdmReady = true)
    (hr : r ∈ roots) {virt : Nat} (hv : vpn virt < userPages) (ha : virt % pageSize = 0)
    {phys : Nat} (hd : Data vm.mem vm.pmm roots kern phys) {want hw : Bool} {vm' : Vm} {b : Bool}
    (he : vmmMapUserFlags vm r virt phys (leafFlags want hw) = (vm', b)) :
    PtInv vm'.mem vm'.pmm roots kern ∧ vm'.cowTab = vm.cowTab ∧ vm'.hhdmReady = true ∧
      (b = false → Grew roots vm.mem vm.pmm vm'.mem vm'.pmm) ∧
      (b = true → Mapped roots kern vm vm' r (vpn virt) ⟨phys, want, hw⟩) := by
  have hr0 : cr3OrBoot r = r := by
    unfold cr3OrBoot
    rw [if_neg ((h.root_owned hr).ne_zero h.ok)]
  have hp3 := place_pt hv
  have hp2 := hp3.parent
  have hp1 := hp2.parent
  have hp0 := hp1.parent
  have hi1 : pml4I virt < 256 := (user_half_iff virt).2 hv
  have hi2 : pdptI virt < 512 := by rw [pdptI_eq]; exact Nat.mod_lt _ (by decide)
  have hi3 : pdI virt < 512 := by rw [pdI_eq]; exact Nat.mod_lt _ (by decide)
  have e1 : 512 * (vpn virt / 512 / 512 / 512 / 512) + pml4I virt = vpn virt / 512 / 512 / 512 := by
    have := pml4I_eq virt; omega
  have e2 : 512 * (vpn virt / 512 / 512 / 512) + pdptI virt = vpn virt / 512 / 512 := by
    have := pdptI_eq virt; omega
  have e3 : 512 * (vpn virt / 512 / 512) + pdI virt = vpn virt / 512 := by
    have := pdI_eq virt; omega
  unfold vmmMapUserFlags at he
  rw [hr0, and_fff, and_fff, user_half_not_kernel hv, hready] at he
  rw [if_neg (by rintro (h' | h') <;> [exact h' ha; exact h' hd.owned.page]), if_neg (by decide),
    if_neg (by decide)] at he
  rcases hens1 : vmmEnsureTable vm r (pml4I virt) pteUserFlags with ⟨vm1, o1⟩
  obtain ⟨a1, a2, a3, a4, a5⟩ := vmmEnsureTable_spec h hr hp0 (by omega) (tab_zero ..) (by omega)
    (Or.inr hi1) hens1 (show 1 = 0 + 1 from rfl) e1.symm
  rw [hens1] at he
  cases o1 with
  | none =>
    rw [orFail_none] at he
    cases he
    exact ⟨a1, a3, a4.trans hready, fun _ => a2, nofun⟩
  | some pdpt =>
  rcases hens2 : vmmEnsureTable vm1 pdpt (pdptI virt) pteUserFlags with ⟨vm2, o2⟩
  obtain ⟨b1, b2, b3, b4, b5⟩ := vmmEnsureTable_spec a1 hr hp1 (by omega) (a5 pdpt rfl) hi2
    (Or.inl (by decide)) hens2 (show 2 = 1 + 1 from rfl) e2.symm
  rw [orFail_some, hens2] at he
  cases o2 with
  | none =>
    rw [orFail_none] at he
    cases he
    exact ⟨b1, b3.trans a3, (b4.trans a4).trans hready, fun _ => a2.trans b2, nofun⟩
  | some pd =>
  rcases hens3 : vmmEnsureTable vm2 pd (pdI virt) pteUserFlags with ⟨vm3, o3⟩
  obtain ⟨c1, c2, c3, c4, c5⟩ := vmmEnsureTable_spec b1 hr hp2 (by omega) (b5 pd rfl) hi3
    (Or.inl (by decide)) hens3 (show 3 = 2 + 1 from rfl) e3.symm
  rw [orFail_some, hens3] at he
  cases o3 with
  | none =>
    rw [orFail_none] at he
    cases he
    exact ⟨c1, (c3.trans b3).trans a3, ((c4.trans b4).trans a4).trans hready,
      fun _ => (a2.trans b2).trans c2, nofun⟩
  | some pt =>
  have ht3 := c5 pt rfl
  have hgrew := (a2.trans b2).trans c2
  have hd3 := hgrew.data hd
  rw [orFail_some] at he
  cases he
  rw [ptI_eq]
  obtain ⟨p1, p2, p3, p4⟩ := c1.setPage hr hv ht3 (Or.inr (hd3.encode_ok want hw))
  rw [hd3.decode c1.ok] at p3 p4
  have hsame := hgrew.same h
  refine ⟨p1, (c3.trans b3).trans a3, ((c4.trans b4).trans a4).trans hready, nofun, fun _ => ?_⟩
  refine ⟨fun r' hr' ℓ' q' t' hp' ht' => (p2 r' hr' ℓ' q' hp').trans (hgrew.tab r' hr' ℓ' q' t' hp' ht'),
    fun r' hr' n' hn' => ?_, ⟨fun r' hr' n' hn' => ?_, fun f hf => (p4.kern f hf).trans (hsame.kern f hf)⟩,
    fun f hf => ⟨(hgrew.data hf).congr p2, ?_⟩⟩
  · rw [← hgrew.view r' hr' n' hn']
    exact p3 r' hr' n' hn'
  · rw [← hsame.mem r' hr' n' hn', show pageOf vm.mem ⟨phys, want, hw⟩ = pageOf vm3.mem ⟨phys, want, hw⟩ by
      rw [pageOf, pageOf, hgrew.bytes phys hd.owned hd.notTable]]
    exact p4.mem r' hr' n' hn'
  · have hit := isTable_of hr hp3 ht3
    have hne : f ≠ pt := by
      rintro rfl
      exact (hgrew.data hf).notTable hit
    exact ((sameOff_setEnt _ _ _ _ (Nat.mod_lt _ (by decide))).frameBytes (c1.own pt hit).1.page
      hf.owned.page hne).trans (hgrew.bytes f hf.owned hf.notTable)

theorem VmInv.grew {vm' : Vm} (h : VmInv vm roots kern) (hp : PtInv vm'.mem vm'.pmm roots kern)
    (hg : Grew roots vm.mem vm.pmm vm'.mem vm'.pmm) (hc : vm'.cowTab = vm.cowTab)
    (hready : vm'.hhdmReady = true) :
    VmInv vm' roots kern := by
  refine ⟨hp, hready, hc ▸ h.unique, ?_⟩
  rw [hc]
  exact h.cow.congr fun x hx => hg.view x.1 (mem_sites.1 hx).1 x.2 (mem_sites.1 hx).2

/-- **`vmm_map_user`** of a frame nobody maps, at a page that is not mapped. -/
theorem VmInv.vmmMapUser_spec (h : VmInv vm roots kern) (hr : r ∈ roots) {virt phys : Nat}
    (hv : vpn virt < userPages) (ha : virt % pageSize = 0) (hd : Data vm.mem vm.pmm roots kern phys)
    (hf : mappings (sites roots) (see vm.mem) phys = 0) (hn : view vm.mem r (vpn virt) = none)
    {vm' : Vm} {b : Bool} (he : vmmMapUser vm r virt phys = (vm', b)) :
    VmInv vm' roots kern ∧
      (b = false → Same roots kern vm.mem vm'.mem ∧ Data vm'.mem vm'.pmm roots kern phys ∧
        mappings (sites roots) (see vm'.mem) phys = 0) ∧
      (b = true → Step roots kern vm.mem vm'.mem r (vpn virt)
        (some ⟨frameBytes vm.mem phys, true⟩)) := by
  unfold vmmMapUser at he
  rw [userFlags_eq] at he
  obtain ⟨a1, a2, a3, a4, a5⟩ := vmmMapUserFlags_spec h.pt h.ready hr hv ha hd he
  cases b with
  | false =>
    have hg := a4 rfl
    refine ⟨h.grew a1 hg a2 a3, fun _ => ⟨hg.same h.pt, hg.data hd, ?_⟩, nofun⟩
    exact (mappings_congr (fun x hx => hg.view x.1 (mem_sites.1 hx).1 x.2 (mem_sites.1 hx).2) phys).trans hf
  | true =>
    have hm := a5 rfl
    obtain ⟨s1, s2⟩ := see_update hm.view
    have hx : (r, vpn virt) ∈ sites roots := mem_sites.2 ⟨hr, hv⟩
    refine ⟨⟨a1, a3, a2 ▸ h.unique, ?_⟩, nofun, fun _ => hm.step⟩
    rw [a2]
    exact h.cow.map hx hn hf (s2 hx) s1

end

end VampireOS
