import VampireOS.Memory.Lost
import VampireOS.Memory.Runs

/-!
# No operation loses a frame

Teardown, fork and every other operation of `Space` leave the lost frames as they were: each loop is
`Tidy` because its body is.
-/

namespace VampireOS

open Lib

section
variable {m m' : Mem} {roots kern : Finset Nat} {vm vm' vm'' : Vm} {r ℓ q t i n f p : Nat} {pmm' : Pmm}

/-! ## Teardown -/

theorem teardownLeaf_tidy (h : VmInv vm roots kern) (hr : r ∈ roots) {pt : Nat} (hp : Place 3 q)
    (ht : tab vm.mem r 3 q = some pt) (hi : i < 512) : Tidy roots kern r vm (teardownLeaf pt i vm) := by
  have hn := page_lt hp hi
  have hm : (512 * q + i) % 512 = i := by omega
  have ht' : tab vm.mem r 3 ((512 * q + i) / 512) = some pt := by
    rw [show (512 * q + i) / 512 = q by omega]; exact ht
  unfold teardownLeaf
  simp only
  rcases h.pt.view_cases hr hn ht' with ⟨h0, -⟩ | ⟨l, hl, hv, hd⟩
  · rw [hm] at h0
    rw [h0, if_neg (by decide)]
    exact .refl
  · rw [hm] at hl
    rw [hl, if_pos (userLeaf_encode hd.owned.page), encode_addr hd.owned h.pt.ok]
    have hdrop := h.dropLeaf_tidy hr hn ht' hv
    rwa [hm] at hdrop

/-- Emptying the table `(ℓ, q)` of task `r` with `f` loses nothing. -/
def TearTidy (roots kern : Finset Nat) (r ℓ q : Nat) (f : Nat → Vm → Vm) : Prop :=
  ∀ vm t, VmInv vm roots kern → tab vm.mem r ℓ q = some t → Tidy roots kern r vm (f t vm)

theorem teardownPt_tidy (hr : r ∈ roots) (hp : Place 3 q) : TearTidy roots kern r 3 q teardownPt := by
  intro vm pt h ht
  have hloop := forTo_inv (f := teardownLeaf pt)
    (fun _ s => VmInv s roots kern ∧ tab s.mem r 3 q = some pt ∧ Tidy roots kern r vm s) (n := 512)
      ⟨h, ht, .refl⟩
    (fun i s hi ⟨hI, hs, hT⟩ => by
      obtain ⟨a1, a2, -⟩ := teardownLeaf_spec hI hr hp hs hi
      exact ⟨a1, a2, hT.trans (teardownLeaf_tidy hI hr hp hs hi)⟩)
  exact hloop.2.2

/-- One outer step, given the loop below it. -/
theorem teardownAt_tidy (hr : r ∈ roots) {k : Nat} {d : Nat → Vm → Vm} (hk : ℓ + 1 + k = 3)
    (hp : Place ℓ q) (hi : i < 512) (h0 : ℓ ≠ 0 ∨ i < 256)
    (hd : TearOk roots kern r (ℓ + 1) (512 * q + i) (512 * 512 ^ k) d)
    (hdt : TearTidy roots kern r (ℓ + 1) (512 * q + i) d) (h : VmInv vm roots kern)
    (ht : tab vm.mem r ℓ q = some t) :
    Tidy roots kern r vm (teardownAt d t i vm) := by
  unfold teardownAt
  cases hnx : next tableEnt vm.mem t i with
  | none => exact .refl
  | some sub =>
    have hchild : tab vm.mem r (ℓ + 1) (512 * q + i) = some sub := by
      rw [tab_succ, show (512 * q + i) / 512 = q by omega, show (512 * q + i) % 512 = i by omega,
        ht, Option.bind_some, hnx]
    obtain ⟨a1, a2, a3, a4⟩ := hd vm sub h hchild
    rw [Option.elim_some, if_pos ((vmmTableClear_iff _ _ _).2 a3)]
    exact (hdt vm sub h hchild).trans
      (.dropTable a1.pt hr hp (by omega) (a4.low ℓ q t hp (by omega) ht).1 hi h0 a2 a3)

/-- One outer loop, given the loop below it. -/
theorem teardownLoop_tidy (hr : r ∈ roots) {k N : Nat} {d : Nat → Vm → Vm} (hk : ℓ + 1 + k = 3)
    (hp : Place ℓ q) (hN : N ≤ 512) (hN0 : ℓ ≠ 0 ∨ N ≤ 256)
    (hd : ∀ i, i < N → TearOk roots kern r (ℓ + 1) (512 * q + i) (512 * 512 ^ k) d)
    (hdt : ∀ i, i < N → TearTidy roots kern r (ℓ + 1) (512 * q + i) d) (h : VmInv vm roots kern)
    (ht : tab vm.mem r ℓ q = some t) : Tidy roots kern r vm (forTo (teardownAt d t) N vm) := by
  have hloop := forTo_inv (f := teardownAt d t)
    (fun _ s => VmInv s roots kern ∧ tab s.mem r ℓ q = some t ∧ Tidy roots kern r vm s) (n := N)
      ⟨h, ht, .refl⟩
    (fun i s hi ⟨hI, hs, hT⟩ => by
      obtain ⟨a1, a2, -⟩ := teardownAt_spec hr hk hp (by omega) (by omega) (hd i hi) hI hs
      exact ⟨a1, a2, hT.trans (teardownAt_tidy hr hk hp (by omega) (by omega) (hd i hi) (hdt i hi) hI hs)⟩)
  exact hloop.2.2

theorem teardownPd_tidy (hr : r ∈ roots) (hp : Place 2 q) : TearTidy roots kern r 2 q teardownPd :=
  fun _ _ h ht =>
  teardownLoop_tidy (k := 0) hr rfl hp le_rfl (.inl (by decide))
    (fun _ hi => teardownPt_ok hr (hp.child (by omega) hi (by omega)))
    (fun _ hi => teardownPt_tidy hr (hp.child (by omega) hi (by omega))) h ht

theorem teardownPdpt_tidy (hr : r ∈ roots) (hp : Place 1 q) :
    TearTidy roots kern r 1 q teardownPdpt := fun _ _ h ht =>
  teardownLoop_tidy (k := 1) hr rfl hp le_rfl (.inl (by decide))
    (fun _ hi => teardownPd_ok hr (hp.child (by omega) hi (by omega)))
    (fun _ hi => teardownPd_tidy hr (hp.child (by omega) hi (by omega))) h ht

/-- **`vmm_teardown_user`** loses nothing, and leaves the task without a table below its PML4. -/
theorem VmInv.vmmTeardownUser_tidy (h : VmInv vm roots kern) (hr : r ∈ roots) :
    Tidy roots kern r vm (vmmTeardownUser vm r) ∧ ∀ j, j < 256 → ent (vmmTeardownUser vm r).mem r j = 0 := by
  have hown := h.pt.root_owned hr
  have hplace : ∀ i, i < hhdmPml4Index → Place 1 (512 * 0 + i) := fun i hi =>
    (place_root.2 rfl).child (by omega) (Nat.lt_trans hi (by decide)) (Or.inr hi)
  unfold vmmTeardownUser
  rw [if_neg]
  · refine ⟨?_, ?_⟩
    · exact teardownLoop_tidy (ℓ := 0) (q := 0) (k := 2) (N := hhdmPml4Index) hr
        rfl (place_root.2 rfl) (by decide) (by decide)
          (fun i hi => teardownPdpt_ok hr (hplace i hi))
          (fun i hi => teardownPdpt_tidy hr (hplace i hi)) h (tab_zero ..)
    · exact (teardownLoop_ok (ℓ := 0) (q := 0) (k := 2) (N := hhdmPml4Index) (d := teardownPdpt) hr rfl
        (place_root.2 rfl) (by decide) (by decide) (fun i hi => teardownPdpt_ok hr (hplace i hi)) h
          (tab_zero ..)).2.2.1
  · rintro (h1 | h1 | h1)
    · exact hown.ne_zero h.pt.ok h1
    · exact hown.ne_boot h.pt.ok h1
    · rw [h.ready] at h1; cases h1

/-- An empty PML4 has no tables below it, and maps nothing. -/
theorem tab_empty (hz : ∀ j, j < 256 → ent m r j = 0) : ∀ ℓ q, Place ℓ q → ℓ ≠ 0 → tab m r ℓ q = none := by
  intro ℓ
  induction ℓ with
  | zero => exact fun _ _ h => absurd rfl h
  | succ ℓ ih =>
    intro q hp _
    rw [tab_succ]
    by_cases hℓ : ℓ = 0
    · subst hℓ
      have hq : q / 512 = 0 := place_root.1 hp.parent
      have hidx : q % 512 < 256 := hp.index.resolve_left (by decide)
      rw [tab_zero, Option.bind_some, next_zero (hz _ hidx)]
    · rw [ih _ hp.parent hℓ]
      rfl

/-- `pmm_free(cr3)` of an empty PML4. -/
theorem Lost.freeRoot (h : VmInv vm roots kern) (hr : r ∈ roots)
    (hz : ∀ j, j < 256 → ent vm.mem r j = 0) (f : Nat) :
    Lost { vm with pmm := pmmFree vm.pmm r } (roots.erase r) kern f ↔ Lost vm roots kern f := by
  have hown := h.pt.root_owned hr
  have hg := pmmFree_gave h.pt.ok hown
  have hempty := tab_empty hz
  have htab : IsTable vm.mem (roots.erase r) f ↔ IsTable vm.mem roots f ∧ f ≠ r := by
    constructor
    · rintro ⟨r', hr', ℓ, q, hp, h1⟩
      refine ⟨isTable_of (Finset.mem_of_mem_erase hr') hp h1, ?_⟩
      rintro rfl
      exact Finset.ne_of_mem_erase hr'
        (h.pt.inj r' (Finset.mem_of_mem_erase hr') f hr ℓ q 0 0 f hp (place_root.2 rfl) h1 (tab_zero ..)).1
    · rintro ⟨⟨r', hr', ℓ, q, hp, h1⟩, hne⟩
      refine ⟨r', Finset.mem_erase.2 ⟨?_, hr'⟩, ℓ, q, hp, h1⟩
      rintro rfl
      by_cases hℓ : ℓ = 0
      · subst hℓ
        rw [place_root.1 hp, tab_zero] at h1
        exact hne (Option.some.inj h1).symm
      · rw [hempty ℓ q hp hℓ] at h1
        cases h1
  have hmap : Maps vm.mem (roots.erase r) f ↔ Maps vm.mem roots f := by
    constructor
    · rintro ⟨r', hr', hx⟩
      exact ⟨r', Finset.mem_of_mem_erase hr', hx⟩
    · rintro ⟨r', hr', n, hn, l, hl, hf⟩
      refine ⟨r', Finset.mem_erase.2 ⟨?_, hr'⟩, n, hn, l, hl, hf⟩
      rintro rfl
      rw [view, hempty 3 _ (place_pt hn) (by decide)] at hl
      cases hl
  unfold Lost InUse
  rw [hg.owned_iff hown, htab, hmap]
  by_cases hf : f = r
  · subst hf
    have hroot := isTable_root (m := vm.mem) hr
    tauto
  · tauto

/-! ## Fork -/

/-- Sharing one leaf loses nothing, whether it succeeds or not. -/
theorem copyLeaf_tidy {dst src : Nat} (h : VmInv vm roots kern) (hs : src ∈ roots)
    (hd : dst ∈ roots) {pt : Nat} (hp : Place 3 q) (ht : tab vm.mem src 3 q = some pt)
    (hi : i < 512) (hempty : ∀ n, 512 * q + i ≤ n → n < userPages → absMem vm.mem dst n = none) :
    Tidy roots kern dst vm (copyLeaf dst (2 ^ 21 * q) pt i vm).1 := by
  have hn := page_lt hp hi
  have hm : (512 * q + i) % 512 = i := by omega
  have ht' : tab vm.mem src 3 ((512 * q + i) / 512) = some pt := by
    rw [show (512 * q + i) / 512 = q by omega]; exact ht
  have hva : 2 ^ 21 * q ||| i <<< 12 = 2 ^ 12 * (512 * q + i) := va_or q i 12 hi
  generalize 512 * q + i = n at *
  unfold copyLeaf
  simp only [hva]
  rcases h.pt.view_cases hs hn ht' with ⟨h0, -⟩ | ⟨l, hl, hv, hdat⟩
  · rw [hm] at h0
    rw [h0, if_pos (by decide)]
    exact .refl
  · have hx : (src, n) ∈ sites roots := mem_sites.2 ⟨hs, hn⟩
    rw [hm] at hl
    rw [hl, userLeaf_encode hdat.owned.page, if_neg (by decide), encode_addr hdat.owned h.pt.ok,
      sharedFlags_encode hdat.owned.page fun hw => (h.cow.writable _ hx l hv hw).1]
    have hvd : view vm.mem dst n = none := absMem_none.1 (hempty n (le_refl n) hn)
    split
    · exact .refl
    · rename_i tab' hshare
      rcases hmap : vmmMapUserFlags { vm with cowTab := tab' } dst (2 ^ 12 * n) l.frame
        (leafFlags l.want false) with
        ⟨vm2, b2⟩
      obtain ⟨e1, e2⟩ := vpn_page hn
      have hpt : PtInv (Vm.mk vm.mem vm.pmm tab' vm.hhdmReady).mem
          (Vm.mk vm.mem vm.pmm tab' vm.hhdmReady).pmm roots kern :=
        h.pt
      obtain ⟨c1, c2⟩ := vmmMapUserFlags_lost hpt h.ready hd (by rw [e1]; exact hn) hdat
        (by rw [e1]; exact hvd) hmap
      have hcount : Tidy roots kern dst vm { vm with cowTab := tab' } := .of_mem rfl rfl
      cases b2 with
      | false => exact (hcount.trans (c1 rfl)).trans (.of_mem rfl rfl)
      | true =>
        obtain ⟨hapart, hlost⟩ := c2 rfl
        have huse : InUse vm.mem roots kern l.frame := inUse_of_view hs hn hv
        have hstep : Tidy roots kern dst { vm with cowTab := tab' } vm2 := ⟨hapart, fun f => (hlost f).trans
          ⟨fun hx => hx.1, fun hx => ⟨hx, fun hf => absurd (hf ▸ huse) hx.2⟩⟩⟩
        obtain ⟨a1, -, -, -, a5⟩ := vmmMapUserFlags_spec hpt h.ready hd (by rw [e1]; exact hn) e2 hdat hmap
        rw [e1] at a5
        have hM := a5 rfl
        obtain ⟨d1, -⟩ := hM.data l.frame hdat
        have ht2 := hM.tab src hs 3 _ pt (place_pt hn) ht'
        obtain ⟨-, p2, p3, -⟩ := a1.setPage hs hn ht2 (Or.inr (d1.encode_ok l.want false))
        rw [d1.decode a1.ok] at p3
        rw [hm] at p2 p3
        refine (hcount.trans hstep).trans (.recolor rfl p2 fun r hr n' hn' => ?_)
        have hview := p3 r hr n' hn'
        rw [hM.view r hr n' hn'] at hview
        refine (congrArg (Option.map Leaf.frame) hview).trans ?_
        rw [hM.view r hr n' hn']
        split
        · next hxx =>
          rw [hxx.1, hxx.2, hv]
          split <;> rfl
        · rfl

/-- Sharing what is below the table `(ℓ, q)` of the source loses nothing. -/
def CopyTidy (roots kern : Finset Nat) (dst src ℓ q w : Nat) (f : Nat → Vm → Vm × Bool) : Prop :=
  ∀ vm t, VmInv vm roots kern → tab vm.mem src ℓ q = some t →
    (∀ n, w * q ≤ n → n < userPages → absMem vm.mem dst n = none) → Tidy roots kern dst vm (f t vm).1

theorem copyPt_tidy {dst src : Nat} (hs : src ∈ roots) (hd : dst ∈ roots) (hne : src ≠ dst) (hp : Place 3 q) :
    CopyTidy roots kern dst src 3 q (512 * 512 ^ 0) (copyPt dst (2 ^ 21 * q)) := by
  intro vm pt h ht hempty
  have e : 512 * 512 ^ 0 = 512 := rfl
  rw [e] at hempty
  have hloop := loopTo_inv (f := copyLeaf dst (2 ^ 21 * q) pt) (n := 512)
    (fun i s => (VmInv s roots kern ∧ Copied roots kern dst src (512 * q) (512 * q + i) vm.mem
      s.mem) ∧ Tidy roots kern dst vm s)
    (fun s => Tidy roots kern dst vm s) ⟨⟨h, .refl⟩, .refl⟩ (fun i s hi ⟨⟨hI, hC⟩, hT⟩ => by
      have hE := hC.empty hd hempty (by omega)
      have htab := hC.tab src hs 3 q pt hp ht
      obtain ⟨a1, a2, -⟩ := copyLeaf_spec hI hs hd hne hp htab hi hE
        (Prod.mk.eta (p := copyLeaf dst (2 ^ 21 * q) pt i s)).symm
      have hstep := hT.trans (copyLeaf_tidy hI hs hd hp htab hi hE)
      rw [Nat.add_assoc (512 * q)] at a2
      exact ⟨fun hb => ⟨⟨a1, hC.trans hne hs (by omega) (by omega) (a2 hb)⟩, hstep⟩, fun _ => hstep⟩)
  cases hb : (copyPt dst (2 ^ 21 * q) pt vm).2 with
  | true => exact (hloop.1 hb).2
  | false => exact hloop.2 hb

/-- One outer loop, given the loop below it. -/
theorem copyLoop_tidy {dst src : Nat} (hs : src ∈ roots) (hd : dst ∈ roots) (hne : src ≠ dst)
    {k N s : Nat} {d : Nat → Nat → Vm → Vm × Bool} (hk : ℓ + 1 + k = 3) (hp : Place ℓ q) {v : Nat}
    (hva : v = 2 ^ (s + 9) * q) (hN : N ≤ 512) (hN0 : ℓ ≠ 0 ∨ N ≤ 256)
    (hdown : ∀ i, i < N → CopyOk roots kern dst src (ℓ + 1) (512 * q + i) (512 * 512 ^ k)
      (d (2 ^ s * (512 * q + i))))
    (htidy : ∀ i, i < N → CopyTidy roots kern dst src (ℓ + 1) (512 * q + i) (512 * 512 ^ k)
      (d (2 ^ s * (512 * q + i))))
    (h : VmInv vm roots kern) (ht : tab vm.mem src ℓ q = some t)
    (hempty : ∀ n, 512 * 512 ^ k * (512 * q) ≤ n → n < userPages → absMem vm.mem dst n = none) :
    Tidy roots kern dst vm (loopTo (copyAt d s v t) N vm).1 := by
  have hloop := loopTo_inv (f := copyAt d s v t) (n := N)
    (fun i z => (VmInv z roots kern ∧
      Copied roots kern dst src (512 * 512 ^ k * (512 * q)) (512 * 512 ^ k * (512 * q + i)) vm.mem z.mem) ∧
      Tidy roots kern dst vm z)
    (fun z => Tidy roots kern dst vm z) ⟨⟨h, .refl⟩, .refl⟩ (fun i z hi ⟨⟨hI, hC⟩, hT⟩ => by
      have hle1 : 512 * 512 ^ k * (512 * q) ≤ 512 * 512 ^ k * (512 * q + i) :=
        Nat.mul_le_mul_left _ (by omega)
      have hle2 : 512 * 512 ^ k * (512 * q + i) ≤ 512 * 512 ^ k * (512 * q + (i + 1)) :=
        Nat.mul_le_mul_left _ (by omega)
      have hE := hC.empty hd hempty hle1
      have hts := hC.tab src hs ℓ q t hp ht
      have h0 : ℓ ≠ 0 ∨ i < 256 := by omega
      obtain ⟨d1, -⟩ := copyAt_spec hs hk hp hva (by omega) h0 (hdown i hi) hI hts hE
      have hstep : Tidy roots kern dst vm (copyAt d s v t i z).1 := by
        refine hT.trans ?_
        unfold copyAt
        rw [hI.pt.next_user hs hp (by omega) hts (by omega) h0]
        cases hnx : next tableEnt z.mem t i with
        | none => exact .refl
        | some sub =>
          have hchild : tab z.mem src (ℓ + 1) (512 * q + i) = some sub := by
            rw [tab_succ, show (512 * q + i) / 512 = q by omega, show (512 * q + i) % 512 =
              i by omega, hts, Option.bind_some, hnx]
          rw [Option.elim_some, hva, va_or q i s (by omega)]
          exact htidy i hi z sub hI hchild hE
      refine ⟨fun hb => ?_, fun _ => hstep⟩
      obtain ⟨a1, a2⟩ := d1 hb
      exact ⟨⟨a1, hC.trans hne hs hle1 hle2 a2⟩, hstep⟩)
  cases hb : (loopTo (copyAt d s v t) N vm).2 with
  | true => exact (hloop.1 hb).2
  | false => exact hloop.2 hb

theorem copyPd_tidy {dst src : Nat} (hs : src ∈ roots) (hd : dst ∈ roots) (hne : src ≠ dst) (hp : Place 2 q) :
    CopyTidy roots kern dst src 2 q (512 * 512 ^ 1) (copyPd dst (2 ^ 30 * q)) := by
  intro vm t h ht hempty
  rw [← width_step] at hempty
  exact copyLoop_tidy (ℓ := 2) (k := 0) (N := 512) (s := 21) (d := copyPt dst) hs hd hne rfl hp
    (v := 2 ^ 30 * q) rfl (by omega) (by omega)
    (fun i hi => copyPt_ok hs hd hne (hp.child (by omega) hi (by omega)))
    (fun i hi => copyPt_tidy hs hd hne (hp.child (by omega) hi (by omega))) h ht hempty

theorem copyPdpt_tidy {dst src : Nat} (hs : src ∈ roots) (hd : dst ∈ roots) (hne : src ≠ dst)
    (hp : Place 1 q) :
    CopyTidy roots kern dst src 1 q (512 * 512 ^ 2) (copyPdpt dst (2 ^ 39 * q)) := by
  intro vm t h ht hempty
  rw [← width_step] at hempty
  exact copyLoop_tidy (ℓ := 1) (k := 1) (N := 512) (s := 30) (d := copyPd dst) hs hd hne rfl hp
    (v := 2 ^ 39 * q) rfl (by omega) (by omega)
    (fun i hi => copyPd_ok hs hd hne (hp.child (by omega) hi (by omega)))
    (fun i hi => copyPd_tidy hs hd hne (hp.child (by omega) hi (by omega))) h ht hempty

/-- **`vmm_copy_user`** loses nothing, whether it succeeds or gives up. -/
theorem VmInv.vmmCopyUser_tidy {dst src : Nat} (h : VmInv vm roots kern) (hs : src ∈ roots)
    (hd : dst ∈ roots) (hne : src ≠ dst) (hempty : ∀ n, n < userPages → absMem vm.mem dst n =
      none) : Tidy roots kern dst vm (vmmCopyUser vm dst src).1 := by
  have hplace : ∀ i, i < hhdmPml4Index → Place 1 (512 * 0 + i) := fun i hi =>
    (place_root.2 rfl).child (by omega) (Nat.lt_trans hi (by decide)) (Or.inr hi)
  unfold vmmCopyUser
  split
  · exact .refl
  · exact copyLoop_tidy hs hd hne (ℓ := 0) (q := 0) (k := 2) (N := hhdmPml4Index) (s := 39)
      (d := copyPdpt dst) rfl (place_root.2 rfl) (v := 0) rfl (by decide) (by decide)
      (fun i hi => copyPdpt_ok hs hd hne (hplace i hi)) (fun i hi => copyPdpt_tidy hs hd hne (hplace i hi))
      h (tab_zero ..) (fun n _ hn => hempty n hn)

end

section
variable {m m' : Mem} {roots kern : Finset Nat} {vm vm' vm'' : Vm} {r n f p : Nat} {pmm' : Pmm}

/-! ## Stores and page loops -/

/-- A write into a page that is no table. -/
theorem VmInv.write_tidy (h : VmInv vm roots kern) (hd : Data vm.mem vm.pmm roots kern p)
    (hs : SameOff p vm.mem m') :
    Tidy roots kern r vm { vm with mem := m' } := by
  obtain ⟨-, a2, a3⟩ := h.pt.frame_page hs hd.owned.page hd.notTable (hd.owned.ne_boot h.pt.ok)
  exact .recolor rfl a2 fun r hr n hn => by rw [a3 r hr n hn]

theorem VmInv.hwStore_tidy (h : VmInv vm roots kern) (hr : r ∈ roots) (virt : Nat) (b : UInt8) :
    Tidy roots kern r vm (hwStore vm r virt b).1 := by
  unfold hwStore
  split
  · cases ht : vmmTranslateUser vm r virt with
    | none => exact .refl
    | some phys =>
      obtain ⟨hv, l, hl, rfl⟩ := h.vmmTranslateUser_some hr ht
      obtain ⟨-, -, -, hd⟩ := h.pt.of_view hr hv hl
      exact h.write_tidy hd (sameOff_setByte vm.mem l.frame (virt % pageSize) b (Nat.mod_lt _ (by decide)))
  · exact .refl

/-- The page-fault handler. -/
theorem VmInv.fault_tidy (h : VmInv vm roots kern) (hr : r ∈ roots) (error virt : Nat) :
    VmInv (vmmHandlePageFault vm r error virt).1 roots kern ∧
    Tidy roots kern r vm (vmmHandlePageFault vm r error virt).1 := by
  unfold vmmHandlePageFault
  split
  · exact ⟨h, .refl⟩
  · refine ⟨?_, h.vmmCowBreak_tidy hr virt⟩
    rcases h.vmmCowBreak_spec hr virt with ⟨a1, -⟩ | ⟨vm1, a1, -, a3, -⟩
    · rw [a1]
      exact h
    · rw [a1]
      exact a3

theorem VmInv.cpuStore_tidy (h : VmInv vm roots kern) (hr : r ∈ roots) (virt : Nat) (b : UInt8) :
    Tidy roots kern r vm (cpuStore vm r virt b).1 := by
  unfold cpuStore
  split
  · exact h.hwStore_tidy hr virt b
  · simp only
    generalize (if (vmmTranslateUser vm r virt).isSome then 7 else 6) = error
    obtain ⟨hI, hT⟩ := h.fault_tidy hr error virt
    rcases hf : vmmHandlePageFault vm r error virt with ⟨vm1, _ | _⟩ <;> rw [hf] at hI hT
    · exact hT
    · exact hT.trans (hI.hwStore_tidy hr virt b)

theorem VmInv.copyToUserFrom_tidy (hr : r ∈ roots) : ∀ (bs : List UInt8) (va pageBase page : Nat) (vm : Vm),
    VmInv vm roots kern → (pageBase ≠ 2 ^ 64 - 1 → Cached vm r pageBase page) →
    Tidy roots kern r vm (copyToUserFrom r bs va pageBase page vm).1
  | [], _, _, _, _, _, _ => .refl
  | b :: bs, va, pageBase, page, vm, h, hc => by
    -- one byte through the page at hand, then the rest
    have rest : ∀ (vm₁ : Vm) (page : Nat), VmInv vm₁ roots kern → Cached vm₁ r (va &&& addrMask) page →
        Tidy roots kern r vm₁ (copyToUserFrom r bs ((va + 1) % 2 ^ 64) (va &&& addrMask) page
          { vm₁ with mem := setByte vm₁.mem (page + (va &&& 0xFFF)) b }).1 := by
      intro vm₁ page h₁ hc₁
      obtain ⟨a1, a2, -⟩ := h₁.copyByte hr hc₁ b rfl
      obtain ⟨hv, l, hl, -, rfl⟩ := hc₁
      obtain ⟨-, -, -, hd⟩ := h₁.pt.of_view hr hv hl
      refine (h₁.write_tidy hd ?_).trans (VmInv.copyToUserFrom_tidy hr bs _ _ _ _ a1 fun _ => a2)
      rw [and_fff]
      exact sameOff_setByte vm₁.mem l.frame (va % pageSize) b (Nat.mod_lt _ (by decide))
    unfold copyToUserFrom
    simp only
    by_cases hb : va &&& addrMask ≠ pageBase
    · rw [if_pos hb]
      have htidy := h.vmmCowBreak_tidy hr va
      rcases h.vmmCowBreak_spec hr va with ⟨a1, -⟩ | ⟨vm₁, a1, hv, a3, -, -, f, a6⟩
      · rw [a1]
        exact .refl
      · rw [a1] at htidy ⊢
        simp only
        cases ht : vmmTranslateUser vm₁ r va with
        | none => exact htidy
        | some phys =>
          simp only
          obtain ⟨-, l, hl, rfl⟩ := a3.vmmTranslateUser_some hr ht
          obtain ⟨-, -, -, hd⟩ := a3.pt.of_view hr hv hl
          have hlt : va % pageSize < pageSize := Nat.mod_lt _ (by decide)
          rw [← or_flags_eq_add hd.owned.page hlt, or_flags_addr hd.owned.page (hd.owned.lt64 a3.pt.ok).1 hlt]
          rw [hl] at a6
          cases a6
          exact htidy.trans
            (rest vm₁ f a3 ⟨by rw [vpn_addr]; exact hv, _, by rw [vpn_addr]; exact hl, rfl, rfl⟩)
    · rw [if_neg hb]
      have hb : va &&& addrMask = pageBase := by simpa using hb
      rw [← hb]
      exact rest vm page h (hb ▸ hc (hb ▸ addr_ne_ones va))

theorem VmInv.copyToUserPml4_tidy (h : VmInv vm roots kern) (hr : r ∈ roots) (dst : Nat) (src : List UInt8) :
    Tidy roots kern r vm (copyToUserPml4 vm r dst src).1 := by
  unfold copyToUserPml4
  split
  · exact .refl
  · rw [if_neg ((h.pt.root_owned hr).ne_zero h.pt.ok)]
    exact VmInv.copyToUserFrom_tidy hr src dst (2 ^ 64 - 1) 0 vm h fun hne => absurd rfl hne

/-- The three flag words of `vmm_protect_user` are one. -/
theorem protectFlags_eq (wr : Bool) (k : Nat) : (if wr = true then
      if k ≤ 1 then pteUserRo ||| pteWantWrite ||| pdeWrite else pteUserRo ||| pteWantWrite
    else pteUserRo) = leafFlags wr (wr && decide (k ≤ 1)) := by
  cases wr with
  | false => simp only [Bool.false_and, Bool.false_eq_true, if_false]; rfl
  | true => by_cases hk : k ≤ 1 <;> simp only [hk, if_true, if_false, decide_true, decide_false] <;> rfl

theorem VmInv.vmmProtectUser_tidy (h : VmInv vm roots kern) (hr : r ∈ roots) (virt : Nat) (wr : Bool) :
    Tidy roots kern r vm (vmmProtectUser vm r virt wr).1 := by
  unfold vmmProtectUser
  have hspec := h.vmmLeafPte_spec hr (virt &&& addrMask)
  rw [vpn_addr] at hspec
  rcases hspec with ⟨h1, -⟩ | ⟨pt, l, h1, hv, ht, hl, he, hd⟩
  · rw [h1]
    exact .refl
  · rw [h1]
    simp only
    rw [he, encode_addr hd.owned h.pt.ok, protectFlags_eq]
    exact h.recolor_tidy hr hv ht hl wr (wr && decide (cowRefs vm.cowTab l.frame ≤ 1)) rfl rfl

theorem pageLoop_tidy {f : Vm → Nat → Vm × Bool} {g : UserPage → Option UserPage}
    (hf : PageOk roots kern r f g)
    (ht : ∀ vm virt, VmInv vm roots kern → Tidy roots kern r vm (f vm virt).1)
    (h : VmInv vm roots kern) (va k : Nat) :
    Tidy roots kern r vm (loopTo (fun i vm => f vm (va + i * pageSize)) k vm).1 := by
  have hloop := loopTo_inv (f := fun i vm => f vm (va + i * pageSize)) (n := k) (s := vm)
    (fun _ s => VmInv s roots kern ∧ Tidy roots kern r vm s) (fun s => Tidy roots kern r vm s) ⟨h, .refl⟩
    (fun i s _ ⟨hI, hT⟩ => by
      have hstep := hT.trans (ht s (va + i * pageSize) hI)
      refine ⟨fun hb => ⟨?_, hstep⟩, fun _ => hstep⟩
      rcases hf s (va + i * pageSize) hI with e | ⟨s', pg, e, -, b2, -⟩
      · rw [e]
        exact hI
      · rw [e]
        exact b2)
  cases hb : (loopTo (fun i vm => f vm (va + i * pageSize)) k vm).2 with
  | true => exact (hloop.1 hb).2
  | false => exact hloop.2 hb

theorem VmInv.userMprotect_tidy (h : VmInv vm roots kern) (hr : r ∈ roots) (va len prot : Nat) :
    Tidy roots kern r vm (userMprotect vm r va len prot).1 := by
  unfold userMprotect
  split
  · exact .refl
  · split
    · next k wr hk hwr =>
      split
      · exact pageLoop_tidy (VmInv.protect_pageOk hr wr) (fun _ virt hI => hI.vmmProtectUser_tidy hr
          virt wr) h va k
      · exact .refl
    · exact .refl

theorem VmInv.userMunmap_tidy (h : VmInv vm roots kern) (hr : r ∈ roots) (base va len : Nat) :
    Tidy roots kern r vm (userMunmap vm r base va len).1 := by
  unfold userMunmap
  split
  · exact .refl
  · split
    · exact .refl
    · next k hk =>
      split
      · exact pageLoop_tidy (VmInv.unmap_pageOk hr) (fun _ virt hI => hI.vmmUnmapUser_tidy hr virt) h va k
      · exact .refl

/-! ## PML4s and the kernel's own frames -/

/-- A new PML4. -/
theorem Lost.addRoot (h : VmInv vm roots kern) (hal : vm.pmm.Took p pmm') (hs : SameOff p vm.mem m')
    (hz : ∀ i, i < 256 → ent m' p i = 0) (hh : ∀ i, 256 < i → i < 511 → ent m' p i = 0) (f : Nat) :
    Lost { vm with pmm := pmm', mem := m' } (insert p roots) kern f ↔ Lost vm roots kern f := by
  obtain ⟨-, -, htab, hview, hnone⟩ := h.pt.addRoot hal hs hz hh
  have hempty := tab_empty hz
  have hit : IsTable m' (insert p roots) f ↔ IsTable vm.mem roots f ∨ f = p := by
    constructor
    · rintro ⟨r, hr, ℓ, q, hp, h1⟩
      rcases Finset.mem_insert.1 hr with rfl | hr
      · by_cases hℓ : ℓ = 0
        · subst hℓ
          rw [place_root.1 hp, tab_zero] at h1
          exact .inr (Option.some.inj h1).symm
        · rw [hempty ℓ q hp hℓ] at h1
          cases h1
      · exact .inl (isTable_of hr hp (htab r hr ℓ q hp ▸ h1))
    · rintro (⟨r, hr, ℓ, q, hp, h1⟩ | rfl)
      · exact isTable_of (Finset.mem_insert_of_mem hr) hp ((htab r hr ℓ q hp).trans h1)
      · exact isTable_root (Finset.mem_insert_self ..)
  have hmap : Maps m' (insert p roots) f ↔ Maps vm.mem roots f := by
    constructor
    · rintro ⟨r, hr, n, hn, l, hl, hf⟩
      rcases Finset.mem_insert.1 hr with rfl | hr
      · rw [hnone n hn] at hl
        cases hl
      · exact ⟨r, hr, n, hn, l, hview r hr n hn ▸ hl, hf⟩
    · rintro ⟨r, hr, n, hn, l, hl, hf⟩
      exact ⟨r, Finset.mem_insert_of_mem hr, n, hn, l, (hview r hr n hn).trans hl, hf⟩
  have hfresh : vm.pmm.Owned f → f ≠ p := hal.fresh
  unfold Lost InUse
  rw [hal.owned_iff h.pt.ok, hit, hmap]
  tauto

end

namespace Space

variable {s : Space} {r : Nat}

/-- Handed out, and nobody can give it back. -/
def Lost (s : Space) (f : Nat) : Prop := VampireOS.Lost s.vm s.roots s.kern f

theorem clonePml4_lost (h : s.Inv) (f : Nat) : s.clonePml4.1.Lost f ↔ s.Lost f := by
  unfold clonePml4
  rcases h.vmmClonePml4_shape with e | ⟨p, pmm', m', e, hne, hal, hs, hz, hh⟩
  · rw [e]
    exact Iff.rfl
  · rw [e]
    simp only
    rw [if_neg hne]
    exact Lost.addRoot h hal hs hz hh f

theorem releasePml4_lost (h : s.Inv) (hr : r ∈ s.roots) (f : Nat) : (s.releasePml4 r).Lost f ↔ s.Lost f := by
  obtain ⟨h1, -, -⟩ := VmInv.vmmTeardownUser_spec h hr
  obtain ⟨h2, h3⟩ := VmInv.vmmTeardownUser_tidy h hr
  exact (Lost.freeRoot h1 hr h3 f).trans (h2.lost f)

theorem kernAlloc_lost (h : s.Inv) (minPhys f : Nat) : (s.kernAlloc minPhys).1.Lost f ↔ s.Lost f := by
  unfold kernAlloc
  rcases pmmAllocFrom_spec s.vm.pmm h.pt.ok minPhys with e | ⟨hne, hal⟩
  · rw [e]
    exact Iff.rfl
  · simp only [if_neg hne]
    have hfresh : s.vm.pmm.Owned f → f ≠ _ := hal.fresh
    unfold Lost VampireOS.Lost InUse
    rw [hal.owned_iff h.pt.ok, Finset.mem_insert]
    tauto

theorem kernFree_lost (h : s.Inv) (g f : Nat) : (s.kernFree g).1.Lost f ↔ s.Lost f := by
  unfold kernFree
  split
  · next hg =>
    have hown := h.pt.kern g hg
    unfold Lost VampireOS.Lost InUse
    rw [(pmmFree_gave h.pt.ok hown).owned_iff hown, Finset.mem_erase]
    by_cases hf : f = g
    · subst hf
      tauto
    · tauto
  · exact Iff.rfl

theorem mapFresh_lost (h : s.Inv) (hr : r ∈ s.roots) (virt minPhys f : Nat) :
    (s.mapFresh r virt minPhys).1.Lost f ↔ s.Lost f := by
  unfold mapFresh
  split
  · next hc =>
    have hv := (user_half_iff virt).1 hc.1
    have hnone := (VmInv.vmmTranslateUser_none h hr hv).1 hc.2
    simp only
    rcases pmmAllocFrom_spec s.vm.pmm h.pt.ok minPhys with e | ⟨hne, hal⟩
    · rw [e]
      exact Iff.rfl
    · rw [if_neg hne]
      generalize (pmmAllocFrom s.vm.pmm minPhys).1 = p at hne hal ⊢
      generalize (pmmAllocFrom s.vm.pmm minPhys).2 = pmm' at hal ⊢
      obtain ⟨q1, q2, q3, -, q5, q6⟩ := h.pt.scribble hal (sameOff_zeroPage s.vm.mem p)
      set vm1 : Vm := { s.vm with pmm := pmm', mem := zeroPage s.vm.mem p }
      -- for a moment the new page is in nobody's hands
      have hfresh : VampireOS.Lost vm1 s.roots s.kern f ↔ s.Lost f ∨ f = p := by
        have huse : InUse vm1.mem s.roots s.kern f ↔ InUse s.vm.mem s.roots s.kern f :=
          inUse_congr q2 fun r hr n hn => by rw [q3 r hr n hn]
        unfold Lost VampireOS.Lost
        rw [hal.owned_iff h.pt.ok, huse]
        have hp : ¬InUse s.vm.mem s.roots s.kern p := by
          rintro (hk | ht | ⟨r', hr', n, hn, l, hl, rfl⟩)
          · exact hal.fresh (h.pt.kern p hk) rfl
          · exact hal.fresh (h.pt.own p ht).1 rfl
          · obtain ⟨-, -, -, hd⟩ := h.pt.of_view hr' hn hl
            exact hal.fresh hd.owned rfl
        by_cases hf : f = p
        · subst hf
          tauto
        · tauto
      have hnew : s.Lost f → f ≠ p := fun hl => hal.fresh hl.1
      rcases hres : vmmMapUser vm1 r virt p with ⟨vm', b⟩
      have hmap : vmmMapUserFlags vm1 r virt p (leafFlags true true) = (vm', b) := by
        rw [← userFlags_eq]; exact hres
      have hpt : PtInv vm1.mem vm1.pmm s.roots s.kern := q1
      have hready : vm1.hhdmReady = true := h.ready
      obtain ⟨c1, c2⟩ := vmmMapUserFlags_lost hpt hready hr hv q5 ((q3 r hr _ hv).trans hnone) hmap
      cases b with
      | true =>
        refine ((c2 rfl).2 f).trans ?_
        rw [hfresh]
        tauto
      | false =>
        have hown : vm'.pmm.Owned p := by
          by_contra hno
          have hl := ((c1 rfl).lost p).2
          have hlost : VampireOS.Lost vm1 s.roots s.kern p := ⟨q5.owned, by
            rintro (hk | ht | hm)
            · exact q5.notKern hk
            · exact q5.notTable ht
            · exact not_maps_iff.2 q6 hm⟩
          exact hno (hl hlost).1
        have hok : vm'.pmm.Ok := by
          by_cases ha : virt % pageSize = 0
          · exact (vmmMapUserFlags_spec hpt hready hr hv ha q5 hmap).1.ok
          · rw [vmmMapUser_unaligned ha] at hres
            cases hres
            exact q1.ok
        have hg := pmmFree_gave hok hown
        have hback : VampireOS.Lost { vm' with pmm := pmmFree vm'.pmm p } s.roots s.kern f ↔
            VampireOS.Lost vm' s.roots s.kern f ∧ f ≠ p := by
          unfold VampireOS.Lost
          rw [hg.owned_iff hown]
          tauto
        refine hback.trans ?_
        rw [(c1 rfl).lost f, hfresh]
        tauto
  · exact Iff.rfl

theorem forkPml4_lost (h : s.Inv) (hr : r ∈ s.roots) (f : Nat) : (s.forkPml4 r).1.Lost f ↔ s.Lost f := by
  have hclone := clonePml4_lost h f
  unfold forkPml4
  rcases clonePml4_spec h with e | ⟨p, vm', e, a1, a2, -, a4⟩
  · rw [e]
  · rw [e] at hclone ⊢
    simp only
    have hpr : r ≠ p := ne_of_mem_of_not_mem hr a1
    obtain ⟨b1, -, -⟩ := a2.vmmCopyUser_spec (Finset.mem_insert_of_mem hr) (Finset.mem_insert_self p _) hpr a4
    have ht := (a2.vmmCopyUser_tidy (Finset.mem_insert_of_mem hr) (Finset.mem_insert_self p _) hpr a4).lost f
    split
    · exact ht.trans hclone
    · exact (releasePml4_lost (s := ⟨(vmmCopyUser vm' p r).1, insert p s.roots, s.kern⟩) b1
        (Finset.mem_insert_self p _) f).trans (ht.trans hclone)

theorem onTask_lost {act : Space → Space × Option Nat} {f : Nat}
    (ha : r ∈ s.roots → ((act s).1.Lost f ↔ s.Lost f)) :
    (s.onTask r act).1.Lost f ↔ s.Lost f := by
  unfold onTask
  split
  · exact ha (by assumption)
  · exact Iff.rfl

theorem answer_lost {res : Vm × Bool} (h : Tidy s.roots s.kern r s.vm res.1) (f : Nat) :
    (s.answer res).1.Lost f ↔ s.Lost f := h.lost f

/-- **No operation loses a frame**, whether it succeeds or not. -/
theorem step_lost (h : s.Inv) (op : SpaceOp) (f : Nat) : (s.step op).1.Lost f ↔ s.Lost f := by
  cases op with
  | clone => exact clonePml4_lost h f
  | map r virt minPhys =>
    rw [step]
    exact onTask_lost fun hr => mapFresh_lost h hr virt minPhys f
  | unmap r virt =>
    rw [step]
    exact onTask_lost fun hr => answer_lost (VmInv.vmmUnmapUser_tidy h hr virt) f
  | protect r virt wr =>
    rw [step]
    exact onTask_lost fun hr => answer_lost (VmInv.vmmProtectUser_tidy h hr virt wr) f
  | cowBreak r virt =>
    rw [step]
    exact onTask_lost fun hr => answer_lost (VmInv.vmmCowBreak_tidy h hr virt) f
  | fork r =>
    rw [step]
    exact onTask_lost fun hr => forkPml4_lost h hr f
  | teardown r =>
    rw [step]
    exact onTask_lost fun hr => (VmInv.vmmTeardownUser_tidy h hr).1.lost f
  | release r =>
    rw [step]
    exact onTask_lost fun hr => releasePml4_lost h hr f
  | store r virt b =>
    rw [step]
    exact onTask_lost fun hr => answer_lost (VmInv.cpuStore_tidy h hr virt b) f
  | copyTo r dst bytes =>
    rw [step]
    exact onTask_lost fun hr => answer_lost (VmInv.copyToUserPml4_tidy h hr dst bytes) f
  | mprotect r va len prot =>
    rw [step]
    exact onTask_lost fun hr => answer_lost (VmInv.userMprotect_tidy h hr va len prot) f
  | munmap r base va len =>
    rw [step]
    exact onTask_lost fun hr => answer_lost (VmInv.userMunmap_tidy h hr base va len) f
  | kalloc minPhys => exact kernAlloc_lost h minPhys f
  | kfree g => exact kernFree_lost h g f

/-- Nor does a run. -/
theorem run_lost {s : Space} (h : s.Boot) (ops : List SpaceOp) (f : Nat) : (s.run ops).Lost f ↔ s.Lost f :=
  (foldl_inv (fun s' : Space => s'.Inv ∧ (s'.Lost f ↔ s.Lost f))
    (fun _ op ⟨hi, hl⟩ => ⟨(step_ok hi op).inv, (step_lost hi op f).trans hl⟩) ops s ⟨boot_inv h, Iff.rfl⟩).2

end Space

end VampireOS
