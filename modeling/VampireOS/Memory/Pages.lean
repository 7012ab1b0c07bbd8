import VampireOS.Memory.Sharing

/-!
# Operations on one page

The specifications of `vmm_map_user`, `vmm_unmap_user`, `vmm_cow_break`, `vmm_protect_user` and of
a user store: each keeps `VmInv` and changes at most one page of the acting task.
-/

namespace VampireOS

open Lib

section
variable {m : Mem} {pmm pmm' : Pmm} {roots kern : Finset Nat} {r n pt : Nat} {vm : Vm}

/-! ## The leaf of a page -/

/-- What a leaf shows. -/
def pageOf (m : Mem) (l : Leaf Nat) : UserPage := ⟨frameBytes m l.frame, l.want⟩

theorem absMem_eq (m : Mem) (r n : Nat) : absMem m r n = (view m r n).map (pageOf m) := rfl

/-- `pt[pt_i] = v` for page `n` of task `r`. -/
theorem PtInv.setPage (h : PtInv m pmm roots kern) (hr : r ∈ roots) (hn : n < userPages)
    (ht : tab m r 3 (n / 512) = some pt) {v : Nat}
    (hv : v = 0 ∨ ∃ l, v = encode l ∧ Data m pmm roots kern l.frame) :
    PtInv (setEnt m pt (n % 512) v) pmm roots kern ∧
      (∀ r ∈ roots, ∀ ℓ q, Place ℓ q → tab (setEnt m pt (n % 512) v) r ℓ q = tab m r ℓ q) ∧
      (∀ r' ∈ roots, ∀ n', n' < userPages →
        view (setEnt m pt (n % 512) v) r' n' = if r' = r ∧ n' = n then decode v else view m r' n') ∧
      Step roots kern m (setEnt m pt (n % 512) v) r n ((decode v).map (pageOf m)) := by
  have hi : n % 512 < 512 := Nat.mod_lt _ (by decide)
  have hn' : 512 * (n / 512) + n % 512 = n := by omega
  obtain ⟨h1, h2, h3⟩ := h.setLeaf hr (place_pt hn) ht hi hv
  rw [hn'] at h3
  have hit := isTable_of hr (place_pt hn) ht
  have hs := sameOff_setEnt m pt (n % 512) v hi
  have hpg := (h.own pt hit).1.page
  have hdata : ∀ f, Data m pmm roots kern f → frameBytes (setEnt m pt (n % 512) v) f = frameBytes m f := by
    intro f hd
    refine hs.frameBytes hpg hd.owned.page ?_
    rintro rfl
    exact hd.notTable hit
  refine ⟨h1, h2, h3, fun r' hr' n' hn' => ?_, fun f hf => ?_⟩
  · rw [absMem_eq, h3 r' hr' n' hn']
    split
    · rcases hv with rfl | ⟨l, rfl, hd⟩
      · rw [decode_zero]; rfl
      · rw [decode_encode hd.owned.page (hd.owned.lt64 h.ok).1, Option.map_some, Option.map_some,
          pageOf, hdata _ hd, pageOf]
    · cases hv' : view m r' n' with
      | none => rw [absMem_eq, hv']; rfl
      | some l =>
        obtain ⟨-, -, -, hd⟩ := h.of_view hr' hn' hv'
        rw [absMem_eq, hv', Option.map_some, Option.map_some, pageOf, hdata _ hd, pageOf]
  · refine hs.frameBytes hpg (h.kern f hf).page ?_
    rintro rfl
    exact (h.own f hit).2 hf

theorem Data.encode_ok {f : Nat} (h : Data m pmm roots kern f) (want hw : Bool) :
    ∃ l, encode ⟨f, want, hw⟩ = encode l ∧ Data m pmm roots kern l.frame := ⟨⟨f, want, hw⟩, rfl, h⟩

theorem Data.decode {f : Nat} (h : Data m pmm roots kern f) (hok : pmm.Ok) (want hw : Bool) :
    decode (encode ⟨f, want, hw⟩) = some ⟨f, want, hw⟩ := decode_encode h.owned.page (h.owned.lt64 hok).1

theorem encode_user (f : Nat) : f ||| pteUserFlags = encode ⟨f, true, true⟩ := by rw [userFlags_eq]; rfl

theorem see_update {m m' : Mem} {r₀ n₀ : Nat} {v : Option (Leaf Nat)}
    (h : ∀ r ∈ roots, ∀ n, n < userPages → view m' r n = if r = r₀ ∧ n = n₀ then v
      else view m r n) :
    (∀ x ∈ sites roots, x ≠ (r₀, n₀) → see m' x = see m x) ∧
    ((r₀, n₀) ∈ sites roots → see m' (r₀, n₀) = v) := by
  constructor
  · rintro ⟨a, b⟩ hx hne
    obtain ⟨ha, hb⟩ := mem_sites.1 hx
    show view m' a b = view m a b
    rw [h a ha b hb, if_neg]
    rintro ⟨rfl, rfl⟩
    exact hne rfl
  · intro hx
    obtain ⟨ha, hb⟩ := mem_sites.1 hx
    show view m' r₀ n₀ = v
    rw [h r₀ ha n₀ hb, if_pos ⟨rfl, rfl⟩]

/-- No task maps `f`. -/
theorem not_mapped {f : Nat} :
    mappings (sites roots) (see m) f = 0 ↔ ∀ r ∈ roots, ∀ n, n < userPages →
    ∀ l, view m r n = some l → l.frame ≠ f := by
  rw [mappings_eq_zero]
  constructor
  · intro h r hr n hn l hl
    exact h (r, n) (mem_sites.2 ⟨hr, hn⟩) l hl
  · rintro h ⟨r, n⟩ hx l hl
    obtain ⟨hr, hn⟩ := mem_sites.1 hx
    exact h r hr n hn l hl

theorem cowFreeLeaf_mem (vm : Vm) (f : Nat) : (cowFreeLeaf vm f).mem = vm.mem ∧
    (cowFreeLeaf vm f).hhdmReady = vm.hhdmReady := by
  unfold cowFreeLeaf
  rcases cowPut vm.cowTab f with ⟨t, _ | _⟩ <;> exact ⟨rfl, rfl⟩

/-- Clear a leaf and drop its reference: `vmm_unmap_user` and the innermost loop of teardown. -/
theorem VmInv.dropLeaf (h : VmInv vm roots kern) (hr : r ∈ roots) (hn : n < userPages)
    (ht : tab vm.mem r 3 (n / 512) = some pt) {l : Leaf Nat} (hl : view vm.mem r n = some l) :
    VmInv (cowFreeLeaf { vm with mem := setEnt vm.mem pt (n % 512) 0 } l.frame) roots kern ∧
      (∀ r ∈ roots, ∀ ℓ q, Place ℓ q → tab (setEnt vm.mem pt (n % 512) 0) r ℓ q = tab vm.mem r ℓ q) ∧
      Step roots kern vm.mem (setEnt vm.mem pt (n % 512) 0) r n none := by
  obtain ⟨h1, h2, h3, h4⟩ := h.pt.setPage hr hn ht (Or.inl rfl)
  obtain ⟨-, -, -, hd⟩ := h.pt.of_view hr hn hl
  rw [decode_zero] at h3 h4
  obtain ⟨s1, s2⟩ := see_update h3
  have hx : (r, n) ∈ sites roots := mem_sites.2 ⟨hr, hn⟩
  obtain ⟨c1, c2⟩ := h.cow.drop hx hl (s2 hx) s1
  obtain ⟨p1, p2, p3⟩ := cowPut_spec h.unique l.frame
  refine ⟨?_, h2, h4⟩
  unfold cowFreeLeaf
  simp only
  rcases hput : cowPut vm.cowTab l.frame with ⟨t, b⟩
  rw [hput] at p1 p2 p3
  have hd' := hd.congr h2
  cases b with
  | false => exact ⟨h1, h.ready, p1, by rw [p2]; exact c1⟩
  | true =>
    -- the last reference: no task maps the frame any more, so it may be freed
    have h0 := not_mapped.1 (c2.2 (p3.1 rfl))
    exact ⟨h1.gave hd'.owned (pmmFree_gave h1.ok hd'.owned) hd'.notTable hd'.notKern h0, h.ready, p1,
      by rw [p2]; exact c1⟩

/-! ## Walks from a task's PML4 -/

theorem VmInv.cr3 (h : VmInv vm roots kern) (hr : r ∈ roots) : cr3OrBoot r = r := by
  unfold cr3OrBoot
  rw [if_neg ((h.pt.root_owned hr).ne_zero h.pt.ok)]

/-- Between the user half and the kernel's two entries there is nothing. -/
theorem PtInv.walkPt_high (h : PtInv m pmm roots kern) (hr : r ∈ roots) {virt : Nat}
    (hk : kernelIndex virt = false) (hv : ¬vpn virt < userPages) (ok : Nat → Bool)
    (h0 : ok 0 = false) : walkPt ok m r virt = none := by
  have hk' : ¬(pml4I virt = 256 ∨ pml4I virt = 511) := by
    rw [← kernelIndex_iff, hk]; decide
  have hu : ¬pml4I virt < 256 := fun hlt => hv ((user_half_iff virt).1 hlt)
  have hlt : pml4I virt < 512 := by rw [← pml4I_mod]; exact Nat.mod_lt _ (by decide)
  have he := h.high r hr (pml4I virt) (by omega) (by omega)
  have hn : next ok m r (pml4I virt) = none := by
    unfold next
    rw [he, h0]
    rfl
  unfold walkPt
  rw [hn]
  rfl

theorem user_half_not_kernel {virt : Nat} (hv : vpn virt < userPages) : kernelIndex virt = false := by
  have h1 := (user_half_iff virt).2 hv
  have h2 := kernelIndex_iff virt
  cases hk : kernelIndex virt with
  | false => rfl
  | true => have := h2.1 hk; omega

theorem encode_and {l : Leaf Nat} (hp : Page l.frame) {k : Nat} (hk : k < pageSize) :
    encode l &&& k = leafFlags l.want l.hw &&& k := or_flags_and hp hk

theorem userLeaf_encode {l : Leaf Nat} (hp : Page l.frame) : userLeaf (encode l) = true := by
  unfold userLeaf
  rw [encode_and hp (by decide), encode_and hp (by decide)]
  cases l.want <;> cases l.hw <;> decide

theorem encode_addr {l : Leaf Nat} (h : pmm.Owned l.frame) (hok : pmm.Ok) : encode l &&& addrMask = l.frame :=
  or_flags_addr h.page (h.lt64 hok).1 (leafFlags_lt _ _)

theorem want_encode {l : Leaf Nat} (hp : Page l.frame) : encode l &&& pteWantWrite = 0 ↔ l.want = false := by
  rw [encode_and hp (by decide)]
  cases l.want <;> cases l.hw <;> decide

/-- **`vmm_leaf_pte`** finds exactly the mapped pages of the user half. -/
theorem VmInv.vmmLeafPte_spec (h : VmInv vm roots kern) (hr : r ∈ roots) (virt : Nat) :
    (vmmLeafPte vm r virt = none ∧ (vpn virt < userPages → view vm.mem r (vpn virt) = none)) ∨
      ∃ pt l, vmmLeafPte vm r virt = some (pt, vpn virt % 512) ∧ vpn virt < userPages ∧
        tab vm.mem r 3 (vpn virt / 512) = some pt ∧ view vm.mem r (vpn virt) = some l ∧
        ent vm.mem pt (vpn virt % 512) = encode l ∧ Data vm.mem vm.pmm roots kern l.frame := by
  unfold vmmLeafPte
  rw [h.cr3 hr, if_neg (c := vm.hhdmReady = false) (by rw [h.ready]; decide)]
  by_cases hv : vpn virt < userPages
  · rw [user_half_not_kernel hv, if_neg (by decide), h.pt.walkPt_user hr hv]
    cases ht : tab vm.mem r 3 (vpn virt / 512) with
    | none => exact Or.inl ⟨rfl, fun _ => by rw [view, ht, Option.bind_none]⟩
    | some pt =>
      rw [ptI_eq]
      rcases h.pt.view_cases hr hv ht with ⟨h0, hn⟩ | ⟨l, he, hl, hd⟩
      · refine Or.inl ⟨?_, fun _ => hn⟩
        simp only [h0]
        rfl
      · refine Or.inr ⟨pt, l, ?_, hv, rfl, hl, he, hd⟩
        simp only [he, userLeaf_encode hd.owned.page, if_true]
  · refine Or.inl ⟨?_, fun h' => absurd h' hv⟩
    cases hk : kernelIndex virt with
    | true => rfl
    | false => rw [h.pt.walkPt_high hr hk hv _ (by decide)]; rfl

theorem VmInv.vmmTranslateUser_none (h : VmInv vm roots kern) (hr : r ∈ roots) {virt : Nat}
    (hv : vpn virt < userPages) :
    vmmTranslateUser vm r virt = none ↔ view vm.mem r (vpn virt) = none := by
  unfold vmmTranslateUser
  rcases h.vmmLeafPte_spec hr virt with ⟨h1, h2⟩ | ⟨pt, l, h1, -, -, h2, -⟩
  · rw [h1, h2 hv]; simp
  · rw [h1, h2]; simp

/-- `vmm_translate_user` answers the byte of the frame that the page shows. -/
theorem VmInv.vmmTranslateUser_some (h : VmInv vm roots kern) (hr : r ∈ roots) {virt phys : Nat}
    (ht : vmmTranslateUser vm r virt = some phys) :
    vpn virt < userPages ∧ ∃ l, view vm.mem r (vpn virt) = some l ∧ phys = l.frame + virt % pageSize := by
  unfold vmmTranslateUser at ht
  rcases h.vmmLeafPte_spec hr virt with ⟨h1, -⟩ | ⟨pt, l, h1, hv, -, h2, he, hd⟩
  · rw [h1] at ht; cases ht
  · rw [h1, Option.map_some, he, encode_addr hd.owned h.pt.ok] at ht
    cases ht
    refine ⟨hv, l, h2, ?_⟩
    rw [show (0xFFF : Nat) = 2 ^ 12 - 1 from rfl, Nat.and_two_pow_sub_one_eq_mod]
    exact or_flags_eq_add hd.owned.page (Nat.mod_lt _ (by decide))

/-! ## `vmm_unmap_user` -/

theorem and_fff (v : Nat) : v &&& 0xFFF = v % pageSize := by
  rw [show (0xFFF : Nat) = 2 ^ 12 - 1 from rfl, Nat.and_two_pow_sub_one_eq_mod]

theorem VmInv.vmmUnmapUser_spec (h : VmInv vm roots kern) (hr : r ∈ roots) (virt : Nat) :
    (vmmUnmapUser vm r virt = (vm, false) ∧
      (virt % pageSize ≠ 0 ∨ (vpn virt < userPages → view vm.mem r (vpn virt) = none))) ∨
      ∃ vm', vmmUnmapUser vm r virt = (vm', true) ∧ virt % pageSize = 0 ∧ vpn virt < userPages ∧
      VmInv vm' roots kern ∧
        view vm.mem r (vpn virt) ≠ none ∧ Step roots kern vm.mem vm'.mem r (vpn virt) none := by
  unfold vmmUnmapUser
  rw [h.cr3 hr, if_neg (c := vm.hhdmReady = false) (by rw [h.ready]; decide), walkPt_tab, and_fff]
  by_cases ha : virt % pageSize = 0
  · rw [if_neg (fun h' => h' ha)]
    by_cases hv : vpn virt < userPages
    · rw [user_half_not_kernel hv, if_neg (by decide)]
      cases ht : tab vm.mem r 3 (vpn virt / 512) with
      | none => exact Or.inl ⟨rfl, Or.inr fun _ => by rw [view, ht, Option.bind_none]⟩
      | some pt =>
        rw [ptI_eq]
        simp only
        rcases h.pt.view_cases hr hv ht with ⟨h0, hn⟩ | ⟨l, he, hl, hd⟩
        · rw [h0, if_pos (by decide)]
          exact Or.inl ⟨rfl, Or.inr fun _ => hn⟩
        · have hpres : encode l &&& pdePresent ≠ 0 := by
            rw [encode_and hd.owned.page (by decide)]
            cases l.want <;> cases l.hw <;> decide
          rw [he, if_neg hpres, encode_addr hd.owned h.pt.ok]
          obtain ⟨h1, -, h3⟩ := h.dropLeaf hr hv ht hl
          refine Or.inr ⟨_, rfl, ha, hv, h1, by rw [hl]; simp, ?_⟩
          rw [(cowFreeLeaf_mem _ _).1]
          exact h3
    · cases hk : kernelIndex virt with
      | true => exact Or.inl ⟨rfl, Or.inr fun h' => absurd h' hv⟩
      | false =>
        rw [← walkPt_tab, h.pt.walkPt_high hr hk hv _ (by decide)]
        exact Or.inl ⟨rfl, Or.inr fun h' => absurd h' hv⟩
  · rw [if_pos ha]
    exact Or.inl ⟨rfl, Or.inl ha⟩

/-! ## `vmm_cow_break` and `vmm_protect_user` -/

theorem vpn_addr (virt : Nat) : vpn (virt &&& addrMask) = vpn virt := by
  have h : (virt &&& addrMask) / 0x1000 = virt / 0x1000 % 2 ^ 52 := by
    rw [show (0x1000 : Nat) = 2 ^ 12 from rfl, ← Nat.shiftRight_eq_div_pow, ← Nat.shiftRight_eq_div_pow,
      Nat.shiftRight_and_distrib, show addrMask >>> 12 = 2 ^ 52 - 1 from rfl, Nat.and_two_pow_sub_one_eq_mod]
  unfold vpn
  rw [h]
  omega

/-- Writing to a frame the allocator has just handed out shows to nobody. -/
theorem PtInv.scribble {m' : Mem} (h : PtInv m pmm roots kern) {p : Nat} (hp : pmm.Took p pmm')
    (hs : SameOff p m m') :
    PtInv m' pmm' roots kern ∧ (∀ r ∈ roots, ∀ ℓ q, Place ℓ q → tab m' r ℓ q = tab m r ℓ q) ∧
      (∀ r ∈ roots, ∀ n, n < userPages → view m' r n = view m r n) ∧ Same roots kern m m' ∧
      Data m' pmm' roots kern p ∧ mappings (sites roots) (see m') p = 0 := by
  have hown := hp.owned h.ok
  have hnt : ¬IsTable m roots p := fun ht => hp.fresh (h.own p ht).1 rfl
  obtain ⟨h1, h2, h3⟩ := (h.took hp).frame_page hs hown.page hnt (hown.ne_boot (hp.ok h.ok))
  refine ⟨h1, h2, h3, ⟨fun r hr n hn => ?_, fun f hf => ?_⟩,
    ⟨hown, fun hk => hp.fresh (h.kern p hk) rfl, ?_⟩, ?_⟩
  · rw [absMem_eq, absMem_eq, h3 r hr n hn]
    cases hv : view m r n with
    | none => rfl
    | some l =>
      obtain ⟨-, -, -, hd⟩ := h.of_view hr hn hv
      rw [Option.map_some, Option.map_some, pageOf, pageOf,
        hs.frameBytes hown.page hd.owned.page (hp.fresh hd.owned)]
  · exact hs.frameBytes hown.page (h.kern f hf).page (hp.fresh (h.kern f hf))
  · exact fun ht => hnt ((isTable_congr h2 p).1 ht)
  · rw [not_mapped]
    intro r hr n hn l hl
    rw [h3 r hr n hn] at hl
    obtain ⟨-, -, -, hd⟩ := h.of_view hr hn hl
    exact hp.fresh hd.owned

/-- A step that rewrites a page to what it held is no change. -/
theorem Step.same {m' : Mem} {v : Option UserPage} (h : Step roots kern m m' r n v) (hv : v = absMem m r n) :
    Same roots kern m m' := by
  refine ⟨fun r' hr' n' hn' => ?_, h.kern⟩
  rw [h.mem r' hr' n' hn']
  split
  · rename_i hx; obtain ⟨rfl, rfl⟩ := hx; exact hv
  · rfl

/-- The only mapping of its frame: let writes through. -/
theorem VmInv.letThrough (h : VmInv vm roots kern) (hr : r ∈ roots) (hn : n < userPages)
    (ht : tab vm.mem r 3 (n / 512) = some pt) {l : Leaf Nat} (hl : view vm.mem r n = some l)
    (hwant : l.want = true)
    (hc : count (refs? vm.cowTab) l.frame ≤ 1) {vm' : Vm}
    (e : vm' = { vm with
      mem := setEnt vm.mem pt (n % 512) (l.frame ||| pteUserFlags), cowTab := cowClear vm.cowTab l.frame }) :
    VmInv vm' roots kern ∧ Same roots kern vm.mem vm'.mem ∧
      view vm'.mem r n = some ⟨l.frame, true, true⟩ := by
  rw [encode_user] at e
  subst e
  have hx : (r, n) ∈ sites roots := mem_sites.2 ⟨hr, hn⟩
  obtain ⟨-, -, -, hd⟩ := h.pt.of_view hr hn hl
  obtain ⟨p1, -, p3, p4⟩ := h.pt.setPage hr hn ht (Or.inr (hd.encode_ok true true))
  rw [hd.decode h.pt.ok] at p3 p4
  obtain ⟨s1, s2⟩ := see_update p3
  obtain ⟨u1, u2⟩ := cowClear_spec h.unique l.frame
  have hcow := h.cow.recolor hx hl (s2 hx) s1 (fun _ => ⟨rfl, hc⟩)
  refine ⟨⟨p1, h.ready, u1, ?_⟩, p4.same ?_, s2 hx⟩
  · have hm := hcow.count_eq hx (s2 hx)
    refine hcow.forget (f := l.frame) (hm ▸ hc) ?_ fun b hb => ?_
    · exact (congrFun u2 l.frame).trans (Function.update_self ..)
    · exact (congrFun u2 b).trans (Function.update_of_ne hb ..)
  · rw [absMem_eq, hl, Option.map_some, Option.map_some, pageOf, pageOf, hwant]

/-- A shared frame: move the page to a private copy. -/
theorem VmInv.privateCopy (h : VmInv vm roots kern) (hr : r ∈ roots) (hn : n < userPages)
    (ht : tab vm.mem r 3 (n / 512) = some pt) {l : Leaf Nat} (hl : view vm.mem r n = some l)
    (hwant : l.want = true)
    {neu : Nat} (hal : vm.pmm.Took neu pmm') {vm' : Vm}
    (e : vm' = { vm with
      pmm := pmm', mem := setEnt (copyPage vm.mem neu l.frame) pt (n % 512) (neu ||| pteUserFlags)
      cowTab := (cowPut vm.cowTab l.frame).1 }) :
    VmInv vm' roots kern ∧ Same roots kern vm.mem vm'.mem ∧ view vm'.mem r n = some ⟨neu, true, true⟩ := by
  rw [encode_user] at e
  subst e
  have hx : (r, n) ∈ sites roots := mem_sites.2 ⟨hr, hn⟩
  obtain ⟨q1, q2, q3, q4, q5, q6⟩ := h.pt.scribble hal (sameOff_copyPage vm.mem neu l.frame)
  obtain ⟨p1, -, p3, p4⟩ := q1.setPage hr hn ((q2 r hr 3 _ (place_pt hn)).trans ht)
    (Or.inr (q5.encode_ok true true))
  rw [q5.decode q1.ok] at p3 p4
  obtain ⟨s1, s2⟩ := see_update p3
  obtain ⟨u1, u2, -⟩ := cowPut_spec h.unique l.frame
  have hcow : CowOk (sites roots) (see (copyPage vm.mem neu l.frame)) (refs? vm.cowTab) := h.cow.congr
    fun x hx => q3 x.1 (mem_sites.1 hx).1 x.2 (mem_sites.1 hx).2
  have hmove := hcow.move hx ((q3 r hr n hn).trans hl) q6 (s2 hx) s1
  have hbytes : frameBytes (copyPage vm.mem neu l.frame) neu = frameBytes vm.mem l.frame :=
    funext fun o => copyPage_at vm.mem neu l.frame o.isLt
  refine ⟨⟨p1, h.ready, u1, by rw [u2]; exact hmove⟩, q4.trans (p4.same ?_), s2 hx⟩
  rw [q4.mem r hr n hn, absMem_eq, hl, Option.map_some, Option.map_some, pageOf, hbytes, pageOf, hwant]

/-- **`vmm_cow_break`** shows to nobody: it gives the page a writable frame of its own with the
same contents. It refuses only a page that is not mapped, a read-only one, or for want of a frame. -/
theorem VmInv.vmmCowBreak_spec (h : VmInv vm roots kern) (hr : r ∈ roots) (virt : Nat) :
    (vmmCowBreak vm r virt = (vm, false) ∧ (vpn virt < userPages → ∀ l, view vm.mem r (vpn virt) = some l →
      l.want = false ∨ ∀ f, f < vm.pmm.frameCount → vm.pmm.used f = true)) ∨
      ∃ vm', vmmCowBreak vm r virt = (vm', true) ∧ vpn virt < userPages ∧ VmInv vm' roots kern ∧
        Same roots kern vm.mem vm'.mem ∧ (∃ l, view vm.mem r (vpn virt) = some l ∧ l.want = true) ∧
        ∃ f, view vm'.mem r (vpn virt) = some ⟨f, true, true⟩ := by
  unfold vmmCowBreak
  have hspec := h.vmmLeafPte_spec hr (virt &&& addrMask)
  rw [vpn_addr] at hspec
  rcases hspec with ⟨h1, h2⟩ | ⟨pt, l, h1, hv, ht, hl, he, hd⟩
  · rw [h1]
    exact Or.inl ⟨rfl, fun hv l hl => by rw [h2 hv] at hl; cases hl⟩
  · rw [h1]
    simp only
    rw [he]
    by_cases hw : encode l &&& pteWantWrite = 0
    · rw [if_pos hw]
      refine Or.inl ⟨rfl, fun _ l' hl' => ?_⟩
      rw [hl] at hl'
      cases hl'
      exact Or.inl ((want_encode hd.owned.page).1 hw)
    · have hwant : l.want = true := by
        cases hlw : l.want with
        | true => rfl
        | false => exact absurd ((want_encode hd.owned.page).2 hlw) hw
      rw [if_neg hw, encode_addr hd.owned h.pt.ok, cowRefs_eq]
      split
      · rename_i hc
        obtain ⟨a1, a2, a3⟩ := h.letThrough hr hv ht hl hwant hc rfl
        exact Or.inr ⟨_, rfl, hv, a1, a2, ⟨l, hl, hwant⟩, _, a3⟩
      · have hal := pmmAllocFrom_spec vm.pmm h.pt.ok page2M
        split
        · rename_i heq
          exact Or.inl ⟨rfl, fun _ _ _ => Or.inr (pmmAllocFrom_none h.pt.ok (m := page2M) (by rw [heq]))⟩
        · rename_i neu pmm' hne heq
          rw [heq] at hal
          rcases hal with hal | ⟨-, hal⟩
          · exact absurd (congrArg Prod.fst hal) hne
          · obtain ⟨a1, a2, a3⟩ := h.privateCopy hr hv ht hl hwant hal rfl
            exact Or.inr ⟨_, rfl, hv, a1, a2, ⟨l, hl, hwant⟩, _, a3⟩

theorem VmInv.vmmProtectUser_spec (h : VmInv vm roots kern) (hr : r ∈ roots) (virt : Nat) (wr : Bool) :
    (vmmProtectUser vm r virt wr = (vm, false) ∧ (vpn virt < userPages → view vm.mem r (vpn virt) = none)) ∨
      ∃ vm', vmmProtectUser vm r virt wr = (vm', true) ∧ vpn virt < userPages ∧ VmInv vm' roots kern ∧
        ∃ l, view vm.mem r (vpn virt) = some l ∧
          Step roots kern vm.mem vm'.mem r (vpn virt) (some ⟨frameBytes vm.mem l.frame, wr⟩) := by
  unfold vmmProtectUser
  have hspec := h.vmmLeafPte_spec hr (virt &&& addrMask)
  rw [vpn_addr] at hspec
  rcases hspec with ⟨h1, h2⟩ | ⟨pt, l, h1, hv, ht, hl, he, hd⟩
  · rw [h1]
    exact Or.inl ⟨rfl, h2⟩
  · rw [h1]
    simp only
    rw [he, encode_addr hd.owned h.pt.ok, cowRefs_eq]
    have hx : (r, vpn virt) ∈ sites roots := mem_sites.2 ⟨hr, hv⟩
    -- the three flag words are one: write wanted, and let through when the page is not shared
    have hfl : (if wr = true then
        if count (refs? vm.cowTab) l.frame ≤ 1 then pteUserRo ||| pteWantWrite ||| pdeWrite
        else pteUserRo ||| pteWantWrite
      else pteUserRo) = leafFlags wr (wr && decide (count (refs? vm.cowTab) l.frame ≤ 1)) := by
      cases wr with
      | false => simp only [Bool.false_and, Bool.false_eq_true, if_false]; rfl
      | true =>
        by_cases hc : count (refs? vm.cowTab) l.frame ≤ 1
        · simp only [hc, if_true, decide_true]; rfl
        · simp only [hc, if_true, if_false, decide_false]; rfl
    rw [hfl]
    obtain ⟨p1, -, p3, p4⟩ := h.pt.setPage hr hv ht
      (Or.inr (hd.encode_ok wr (wr && decide (count (refs? vm.cowTab) l.frame ≤ 1))))
    rw [hd.decode h.pt.ok] at p3 p4
    obtain ⟨s1, s2⟩ := see_update p3
    refine Or.inr ⟨_, rfl, hv, ⟨p1, h.ready, h.unique, h.cow.recolor hx hl (s2 hx) s1 fun hw => ?_⟩,
      l, hl, p4⟩
    simpa using hw

end

end VampireOS
