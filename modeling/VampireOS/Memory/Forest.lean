import VampireOS.Memory.Tables

/-!
# Edits of the page-table forest

What each single write of vmm.c does to `PtInv`, to the trees (`tab`) and to what the tasks see
(`view`): a write outside the tables, a leaf, a new empty table, an empty table taken out.
-/

namespace VampireOS

open Lib

section
variable {m m' : Mem} {pmm pmm' : Pmm} {roots kern : Finset Nat} {r ℓ q t n : Nat}

/-! ## Reading -/

theorem Pmm.Owned.lt64 (h : pmm.Owned t) (hok : pmm.Ok) : t < 2 ^ 64 ∧ t + pageSize ≤ 2 ^ 64 := by
  have := h.lt hok
  simp only [pageSize] at *
  omega

theorem PtInv.view_cases (h : PtInv m pmm roots kern) (hr : r ∈ roots) (hn : n < userPages) {pt : Nat}
    (ht : tab m r 3 (n / 512) = some pt) :
    (ent m pt (n % 512) = 0 ∧ view m r n = none) ∨
      ∃ l, ent m pt (n % 512) = encode l ∧ view m r n = some l ∧ Data m pmm roots kern l.frame := by
  have hv : view m r n = decode (ent m pt (n % 512)) := by rw [view, ht, Option.bind_some]
  rcases h.leaf r hr _ pt (n % 512) (place_pt hn) ht (Nat.mod_lt _ (by decide)) with h0 | ⟨l, hl, hd⟩
  · exact Or.inl ⟨h0, by rw [hv, h0, decode_zero]⟩
  · exact Or.inr ⟨l, hl, by rw [hv, hl, decode_encode hd.owned.page (hd.owned.lt64 h.ok).1], hd⟩

theorem PtInv.of_view (h : PtInv m pmm roots kern) (hr : r ∈ roots) (hn : n < userPages) {l : Leaf Nat}
    (hv : view m r n = some l) :
    ∃ pt, tab m r 3 (n / 512) = some pt ∧ ent m pt (n % 512) = encode l ∧ Data m pmm roots kern l.frame := by
  cases ht : tab m r 3 (n / 512) with
  | none => rw [view, ht, Option.bind_none] at hv; cases hv
  | some pt =>
    rcases h.view_cases hr hn ht with ⟨-, h0⟩ | ⟨l', he, hv', hd⟩
    · rw [h0] at hv; cases hv
    · rw [hv'] at hv; cases hv; exact ⟨pt, rfl, he, hd⟩

/-- Under `PtInv` the user bit never decides a walk. -/
theorem PtInv.next_user (h : PtInv m pmm roots kern) (hr : r ∈ roots) (hp : Place ℓ q) (hℓ : ℓ < 3)
    (ht : tab m r ℓ q = some t) {i : Nat} (hi : i < 512) (h0 : ℓ ≠ 0 ∨ i < 256) :
    next userTableEnt m t i = next tableEnt m t i := by
  rcases h.dir r hr ℓ q t i hp hℓ ht hi h0 with he | ⟨s, he, hs, hlt⟩
  · rw [next_zero he, next_user_zero he]
  · have h64 : s < 2 ^ 64 := by omega
    rw [next_dirEnt he hs h64, next_user_dirEnt he hs h64]

/-- The same for a whole walk in the user half. -/
theorem PtInv.walkPt_user (h : PtInv m pmm roots kern) (hr : r ∈ roots) {virt : Nat}
    (hv : vpn virt < userPages) :
    walkPt userTableEnt m r virt = tab m r 3 (vpn virt / 512) := by
  have hidx : pml4I virt < 256 := (user_half_iff virt).2 hv
  have hp3 := place_pt hv
  have hp2 := hp3.parent
  have hp1 := hp2.parent
  have hmod := pml4I_mod virt
  have e1 : next userTableEnt m r (pml4I virt) = next tableEnt m r (pml4I virt) :=
    h.next_user hr hp1.parent (by omega) rfl (by omega) (Or.inr hidx)
  have t1 : tab m r 1 (vpn virt / 512 / 512 / 512) = next tableEnt m r (pml4I virt) := by
    rw [tab_succ, tab_zero, Option.bind_some, ← pml4I_eq, hmod]
  rw [← walkPt_tab]
  unfold walkPt
  simp only [Option.bind_eq_bind]
  rw [e1]
  cases h1 : next tableEnt m r (pml4I virt) with
  | none => rw [Option.bind_none, Option.bind_none]
  | some pdpt =>
    rw [Option.bind_some, Option.bind_some]
    have ht1 := t1.trans h1
    have hi2 : pdptI virt < 512 := by rw [pdptI_eq]; exact Nat.mod_lt _ (by decide)
    have hi3 : pdI virt < 512 := by rw [pdI_eq]; exact Nat.mod_lt _ (by decide)
    rw [h.next_user hr hp1 (by omega) ht1 hi2 (Or.inl (by decide))]
    cases h2 : next tableEnt m pdpt (pdptI virt) with
    | none => rw [Option.bind_none, Option.bind_none]
    | some pd =>
      rw [Option.bind_some, Option.bind_some]
      have ht2 : tab m r 2 (vpn virt / 512 / 512) = some pd := by
        rw [tab_succ, ht1, Option.bind_some, ← pdptI_eq, h2]
      exact h.next_user hr hp2 (by omega) ht2 hi3 (Or.inl (by decide))

/-! ## Writes outside the tables -/

theorem view_congr (ht : ∀ r ∈ roots, ∀ ℓ q, Place ℓ q → tab m' r ℓ q = tab m r ℓ q)
    (he : ∀ t, IsTable m roots t → ∀ i, i < 512 → ent m' t i = ent m t i) (hr : r ∈ roots)
    (hn : n < userPages) :
    view m' r n = view m r n := by
  unfold view
  rw [ht r hr 3 _ (place_pt hn)]
  cases h : tab m r 3 (n / 512) with
  | none => rw [Option.bind_none, Option.bind_none]
  | some pt =>
    rw [Option.bind_some, Option.bind_some,
      he pt (isTable_of hr (place_pt hn) h) _ (Nat.mod_lt _ (by decide))]

theorem Data.congr (ht : ∀ r ∈ roots, ∀ ℓ q, Place ℓ q → tab m' r ℓ q = tab m r ℓ q) {f : Nat}
    (h : Data m pmm roots kern f) : Data m' pmm roots kern f :=
  ⟨h.owned, h.notKern, fun hf => h.notTable ((isTable_congr ht f).1 hf)⟩

/-- A write that leaves every table and the boot PML4 alone. -/
theorem PtInv.frame (h : PtInv m pmm roots kern)
    (he : ∀ t, IsTable m roots t → ∀ i, i < 512 → ent m' t i = ent m t i)
    (hb : ∀ i, i < 512 → ent m' pml4Phys i = ent m pml4Phys i) :
    PtInv m' pmm roots kern ∧ (∀ r ∈ roots, ∀ ℓ q, Place ℓ q → tab m' r ℓ q = tab m r ℓ q) ∧
      ∀ r ∈ roots, ∀ n, n < userPages → view m' r n = view m r n := by
  have ht : ∀ r ∈ roots, ∀ ℓ q, Place ℓ q → tab m' r ℓ q = tab m r ℓ q := by
    intro r hr
    refine tab_congr fun ℓ q t hp _ ht i hi _ => ?_
    unfold next
    rw [he t (isTable_of hr hp ht) i hi]
  have hit := isTable_congr ht
  refine ⟨⟨h.ok, fun t h' => h.own t ((hit t).1 h'), fun r hr r' hr' ℓ q ℓ' q' t hp hp' h1 h2 => ?_,
    fun r hr ℓ q t i hp hℓ h1 hi h0 => ?_, fun r hr q pt i hp h1 hi => ?_, fun r hr i h1 h2 => ?_,
    fun i h1 h2 => ?_, h.kern⟩, ht, fun r hr n hn => view_congr ht he hr hn⟩
  · exact h.inj r hr r' hr' ℓ q ℓ' q' t hp hp' (ht r hr ℓ q hp ▸ h1) (ht r' hr' ℓ' q' hp' ▸ h2)
  · rw [ht r hr ℓ q hp] at h1
    rw [he t (isTable_of hr hp h1) i hi]
    exact h.dir r hr ℓ q t i hp hℓ h1 hi h0
  · rw [ht r hr 3 q hp] at h1
    rw [he pt (isTable_of hr hp h1) i hi]
    rcases h.leaf r hr q pt i hp h1 hi with h0 | ⟨l, hl, hd⟩
    · exact Or.inl h0
    · exact Or.inr ⟨l, hl, hd.congr ht⟩
  · rw [he r (isTable_root hr) i (by omega)]
    exact h.high r hr i h1 h2
  · rw [hb i (by omega)]
    exact h.boot i h1 h2

theorem page_boot : Page pml4Phys := by decide

/-- A write into one page that is no table. -/
theorem PtInv.frame_page (h : PtInv m pmm roots kern) {p : Nat} (hs : SameOff p m m') (hp : Page p)
    (hnt : ¬IsTable m roots p) (hb : p ≠ pml4Phys) :
    PtInv m' pmm roots kern ∧ (∀ r ∈ roots, ∀ ℓ q, Place ℓ q → tab m' r ℓ q = tab m r ℓ q) ∧
      ∀ r ∈ roots, ∀ n, n < userPages → view m' r n = view m r n := by
  refine h.frame (fun t ht i hi => hs.ent hp (h.own t ht).1.page ?_ hi) fun i hi => hs.ent hp
    page_boot hb.symm hi
  rintro rfl
  exact hnt ht

/-- The allocator may change as long as the frames in use stay handed out. -/
theorem PtInv.repmm (h : PtInv m pmm roots kern) (hok : pmm'.Ok)
    (hk : ∀ f, pmm.Owned f → IsTable m roots f ∨ f ∈ kern ∨ (∃ r ∈ roots, ∃ n, n < userPages ∧ ∃ l,
      view m r n = some l ∧ l.frame = f) → pmm'.Owned f) : PtInv m pmm' roots kern := by
  refine ⟨hok, fun t ht => ⟨hk t (h.own t ht).1 (Or.inl ht), (h.own t ht).2⟩, h.inj, h.dir,
    fun r hr q pt i hp h1 hi => ?_, h.high, h.boot, fun f hf => hk f (h.kern f hf) (Or.inr (Or.inl hf))⟩
  have hn := page_lt hp hi
  have hq : (512 * q + i) / 512 = q := by omega
  have hi' : (512 * q + i) % 512 = i := by omega
  have h1' : tab m r 3 ((512 * q + i) / 512) = some pt := by rw [hq]; exact h1
  rcases h.view_cases hr hn h1' with ⟨h0, -⟩ | ⟨l, he, hv, hd⟩
  · rw [hi'] at h0; exact Or.inl h0
  · rw [hi'] at he
    exact Or.inr ⟨l, he, hk _ hd.owned (Or.inr (Or.inr ⟨r, hr, _, hn, l, hv, rfl⟩)), hd.notKern, hd.notTable⟩

theorem PtInv.took (h : PtInv m pmm roots kern) {p : Nat} (hp : pmm.Took p pmm') : PtInv m pmm' roots kern :=
  h.repmm (hp.ok h.ok) fun _ hf _ => hp.mono hf

/-- Giving back a frame that nothing uses. -/
theorem PtInv.gave (h : PtInv m pmm roots kern) {p : Nat} (hp : pmm.Owned p) (hg : pmm.Gave p pmm')
    (hnt : ¬IsTable m roots p) (hnk : p ∉ kern)
    (hnm : ∀ r ∈ roots, ∀ n, n < userPages → ∀ l, view m r n = some l → l.frame ≠ p) :
    PtInv m pmm' roots kern := by
  refine h.repmm (hg.ok hp h.ok) fun f hf hu => hg.keep hp hf ?_
  rintro rfl
  rcases hu with hu | hu | ⟨r, hr, n, hn, l, hv, hl⟩
  · exact hnt hu
  · exact hnk hu
  · exact hnm r hr n hn l hv hl

/-! ## One entry of one table -/

section Entry
variable {r₀ ℓ₀ q₀ t₀ i₀ : Nat}

/-- `m'` is `m` with another entry `i₀` in the table `t₀`, as far as the trees are concerned. -/
structure EntSet (m m' : Mem) (roots : Finset Nat) (t₀ i₀ v : Nat) : Prop where
  at_ : ent m' t₀ i₀ = v
  off : ∀ t, IsTable m roots t → ∀ i, i < 512 → ¬(t = t₀ ∧ i = i₀) → ent m' t i = ent m t i
  boot : ∀ i, i < 512 → ent m' pml4Phys i = ent m pml4Phys i

theorem PtInv.entSet (h : PtInv m pmm roots kern) (ht₀ : IsTable m roots t₀) (hi₀ : i₀ < 512) {v : Nat}
    (hv : v < 2 ^ 64) : EntSet m (setEnt m t₀ i₀ v) roots t₀ i₀ v := by
  have ho := (h.own t₀ ht₀).1
  refine ⟨ent_setEnt m t₀ i₀ v hv, fun t ht i hi hne => ?_, fun i hi => ?_⟩
  · by_cases htt : t = t₀
    · subst htt
      exact ent_setEnt_ne m t v fun e => hne ⟨rfl, e⟩
    · exact (sameOff_setEnt m t₀ i₀ v hi₀).ent ho.page (h.own t ht).1.page htt hi
  · exact (sameOff_setEnt m t₀ i₀ v hi₀).ent ho.page page_boot (ho.ne_boot h.ok).symm hi

/-- A table at another place is another table, so only the entry at that place changes. -/
theorem EntSet.off_place {v : Nat} (hE : EntSet m m' roots t₀ i₀ v) (h : PtInv m pmm roots kern)
    (hr₀ : r₀ ∈ roots) (hp₀ : Place ℓ₀ q₀) (ht₀ : tab m r₀ ℓ₀ q₀ = some t₀) :
    ∀ r ∈ roots, ∀ ℓ q t i, Place ℓ q → tab m r ℓ q = some t → i < 512 →
      ¬(r = r₀ ∧ ℓ = ℓ₀ ∧ q = q₀ ∧ i = i₀) → ent m' t i = ent m t i := by
  intro r hr ℓ q t i hp h1 hi hne
  refine hE.off t (isTable_of hr hp h1) i hi ?_
  rintro ⟨rfl, rfl⟩
  obtain ⟨e1, e2, e3⟩ := h.inj r hr r₀ hr₀ ℓ q ℓ₀ q₀ t hp hp₀ h1 ht₀
  exact hne ⟨e1, e2, e3, rfl⟩

theorem EntSet.next_same {v : Nat} (hE : EntSet m m' roots t₀ i₀ v) (h : PtInv m pmm roots kern)
    (hr₀ : r₀ ∈ roots) (hp₀ : Place ℓ₀ q₀) (ht₀ : tab m r₀ ℓ₀ q₀ = some t₀) :
    ∀ r ∈ roots, ∀ ℓ q t, Place ℓ q → ℓ < 3 → tab m r ℓ q = some t → ∀ i, i < 512 → (ℓ ≠ 0 ∨ i < 256) →
      ¬(r = r₀ ∧ ℓ = ℓ₀ ∧ q = q₀ ∧ i = i₀) → next tableEnt m' t i = next tableEnt m t i := by
  intro r hr ℓ q t hp _ ht i hi _ hne
  unfold next
  rw [hE.off_place h hr₀ hp₀ ht₀ r hr ℓ q t i hp ht hi hne]

/-- Writing a leaf entry: the trees stay, one page of one task changes. -/
theorem PtInv.setLeaf (h : PtInv m pmm roots kern) (hr₀ : r₀ ∈ roots) (hp₀ : Place 3 q₀)
    (ht₀ : tab m r₀ 3 q₀ = some t₀) (hi₀ : i₀ < 512) {v : Nat}
    (hv : v = 0 ∨ ∃ l, v = encode l ∧ Data m pmm roots kern l.frame) :
    PtInv (setEnt m t₀ i₀ v) pmm roots kern ∧
      (∀ r ∈ roots, ∀ ℓ q, Place ℓ q → tab (setEnt m t₀ i₀ v) r ℓ q = tab m r ℓ q) ∧
      ∀ r ∈ roots, ∀ n, n < userPages →
        view (setEnt m t₀ i₀ v) r n = if r = r₀ ∧ n = 512 * q₀ + i₀ then decode v else view m r n := by
  have hv64 : v < 2 ^ 64 := by
    rcases hv with rfl | ⟨l, rfl, hd⟩
    · decide
    · exact or_flags_lt hd.owned.page (hd.owned.lt64 h.ok).2 (leafFlags_lt _ _)
  have hE := h.entSet (isTable_of hr₀ hp₀ ht₀) hi₀ hv64
  generalize setEnt m t₀ i₀ v = m' at hE
  have hns := hE.next_same h hr₀ hp₀ ht₀
  have ht : ∀ r ∈ roots, ∀ ℓ q, Place ℓ q → tab m' r ℓ q = tab m r ℓ q := fun r hr =>
    tab_congr fun ℓ q t hp hℓ ht i hi h0 => hns r hr ℓ q t hp hℓ ht i hi h0 (by omega)
  have hit := isTable_congr ht
  have hoff := hE.off_place h hr₀ hp₀ ht₀
  refine ⟨⟨h.ok, fun t h' => h.own t ((hit t).1 h'), fun r hr r' hr' ℓ q ℓ' q' t hp hp' h1 h2 => ?_,
    fun r hr ℓ q t i hp hℓ h1 hi h0 => ?_, fun r hr q pt i hp h1 hi => ?_, fun r hr i h1 h2 => ?_,
    fun i h1 h2 => ?_, h.kern⟩, ht, fun r hr n hn => ?_⟩
  · exact h.inj r hr r' hr' ℓ q ℓ' q' t hp hp' (ht r hr ℓ q hp ▸ h1) (ht r' hr' ℓ' q' hp' ▸ h2)
  · rw [ht r hr ℓ q hp] at h1
    rw [hoff r hr ℓ q t i hp h1 hi (by omega)]
    exact h.dir r hr ℓ q t i hp hℓ h1 hi h0
  · rw [ht r hr 3 q hp] at h1
    by_cases hx : r = r₀ ∧ q = q₀ ∧ i = i₀
    · obtain ⟨rfl, rfl, rfl⟩ := hx
      rw [ht₀] at h1
      cases h1
      rw [hE.at_]
      rcases hv with hv | ⟨l, hl, hd⟩
      · exact Or.inl hv
      · exact Or.inr ⟨l, hl, hd.congr ht⟩
    · rw [hoff r hr 3 q pt i hp h1 hi (by tauto)]
      rcases h.leaf r hr q pt i hp h1 hi with h0 | ⟨l, hl, hd⟩
      · exact Or.inl h0
      · exact Or.inr ⟨l, hl, hd.congr ht⟩
  · rw [hoff r hr 0 0 r i (place_root.2 rfl) rfl (by omega) (by omega)]
    exact h.high r hr i h1 h2
  · rw [hE.boot i (by omega)]
    exact h.boot i h1 h2
  · unfold view
    rw [ht r hr 3 _ (place_pt hn)]
    cases h1 : tab m r 3 (n / 512) with
    | none =>
      rw [Option.bind_none, Option.bind_none, if_neg]
      rintro ⟨rfl, rfl⟩
      rw [show (512 * q₀ + i₀) / 512 = q₀ by omega, ht₀] at h1
      cases h1
    | some pt =>
      rw [Option.bind_some, Option.bind_some]
      by_cases hx : r = r₀ ∧ n = 512 * q₀ + i₀
      · obtain ⟨rfl, rfl⟩ := hx
        rw [show (512 * q₀ + i₀) / 512 = q₀ by omega, ht₀] at h1
        cases h1
        rw [if_pos ⟨rfl, rfl⟩, show (512 * q₀ + i₀) % 512 = i₀ by omega, hE.at_]
      · rw [if_neg hx, hoff r hr 3 _ pt _ (place_pt hn) h1 (Nat.mod_lt _ (by decide))]
        rintro ⟨e1, -, e2, e3⟩
        exact hx ⟨e1, by omega⟩

/-- A fresh cleared table is hung below entry `i₀`. -/
theorem PtInv.addTable (h : PtInv m pmm roots kern) (hr₀ : r₀ ∈ roots) (hp₀ : Place ℓ₀ q₀) (hℓ₀ : ℓ₀ < 3)
    (ht₀ : tab m r₀ ℓ₀ q₀ = some t₀) (hi₀ : i₀ < 512) (h0₀ : ℓ₀ ≠ 0 ∨ i₀ < 256) (he₀ : ent m t₀ i₀ = 0)
    {p : Nat} (hp : pmm.Took p pmm') :
    PtInv (setEnt (zeroPage m p) t₀ i₀ (dirEnt p)) pmm' roots kern ∧
      (∀ r ∈ roots, ∀ ℓ q, Place ℓ q → tab (setEnt (zeroPage m p) t₀ i₀ (dirEnt p)) r ℓ q =
        if r = r₀ ∧ ℓ = ℓ₀ + 1 ∧ q = 512 * q₀ + i₀ then some p else tab m r ℓ q) ∧
      ∀ r ∈ roots, ∀ n, n < userPages → view (setEnt (zeroPage m p) t₀ i₀ (dirEnt p)) r n = view m r n := by
  have htab₀ := isTable_of hr₀ hp₀ ht₀
  have hown := hp.owned h.ok
  have ho₀ := (h.own t₀ htab₀).1
  have hfresh : ∀ t, pmm.Owned t → t ≠ p := fun t ht => hp.fresh ht
  have hlt : p < 2 ^ 35 := by
    have := hown.lt (hp.ok h.ok)
    simp only [pageSize] at this
    omega
  have hv64 : dirEnt p < 2 ^ 64 := or_flags_lt hown.page (by simp only [pageSize]; omega) userFlags_lt
  have hs1 := sameOff_zeroPage m p
  have hs2 := sameOff_setEnt (zeroPage m p) t₀ i₀ (dirEnt p) hi₀
  have hE : EntSet m (setEnt (zeroPage m p) t₀ i₀ (dirEnt p)) roots t₀ i₀ (dirEnt p) := by
    refine ⟨ent_setEnt _ _ _ _ hv64, fun t ht i hi hne => ?_, fun i hi => ?_⟩
    · have hot := (h.own t ht).1
      rw [← hs1.ent hown.page hot.page (hfresh t hot) hi]
      by_cases htt : t = t₀
      · subst htt
        exact ent_setEnt_ne _ t _ fun e => hne ⟨rfl, e⟩
      · exact hs2.ent ho₀.page hot.page htt hi
    · rw [hs2.ent ho₀.page page_boot (ho₀.ne_boot h.ok).symm hi,
        hs1.ent hown.page page_boot (hown.ne_boot (hp.ok h.ok)).symm hi]
  have hz : ∀ j, j < 512 → ent (setEnt (zeroPage m p) t₀ i₀ (dirEnt p)) p j = 0 := by
    intro j hj
    rw [hs2.ent ho₀.page hown.page (hfresh t₀ ho₀).symm hj, ent_zeroPage m p hj]
  generalize setEnt (zeroPage m p) t₀ i₀ (dirEnt p) = m' at hE hz
  clear hs1 hs2
  have ht : ∀ r ∈ roots, ∀ ℓ q, Place ℓ q →
      tab m' r ℓ q = if r = r₀ ∧ ℓ = ℓ₀ + 1 ∧ q = 512 * q₀ + i₀ then some p else tab m r ℓ q := by
    refine tab_set (o := none) ht₀ hi₀ (hE.next_same h hr₀ hp₀ ht₀) (next_zero he₀)
      (next_dirEnt hE.at_ hown.page (by omega)) (fun s hs => by cases hs) fun s hs j hj => ?_
    cases hs
    exact next_zero (hz j hj)
  have hold : tab m r₀ (ℓ₀ + 1) (512 * q₀ + i₀) = none := by
    rw [tab_succ, show (512 * q₀ + i₀) / 512 = q₀ by omega, show (512 * q₀ + i₀) % 512 = i₀ by omega, ht₀,
      Option.bind_some, next_zero he₀]
  have hcase : ∀ r ∈ roots, ∀ ℓ q t, Place ℓ q → tab m' r ℓ q = some t →
      (t = p ∧ r = r₀ ∧ ℓ = ℓ₀ + 1 ∧ q = 512 * q₀ + i₀) ∨ tab m r ℓ q = some t := by
    intro r hr ℓ q t hp' h1
    rw [ht r hr ℓ q hp'] at h1
    split at h1
    · cases h1; exact Or.inl ⟨rfl, by assumption⟩
    · exact Or.inr h1
  have hit : ∀ t, IsTable m' roots t → t = p ∨ IsTable m roots t := by
    rintro t ⟨r, hr, ℓ, q, hp', h1⟩
    rcases hcase r hr ℓ q t hp' h1 with ⟨h2, -⟩ | h2
    · exact Or.inl h2
    · exact Or.inr (isTable_of hr hp' h2)
  have hdata : ∀ f, Data m pmm roots kern f → Data m' pmm' roots kern f := fun f hd =>
    ⟨hp.mono hd.owned, hd.notKern, fun hf => (hit f hf).elim (hfresh f hd.owned) hd.notTable⟩
  have hoff := hE.off_place h hr₀ hp₀ ht₀
  have hnew : ∀ r ∈ roots, ∀ ℓ q, Place ℓ q → tab m r ℓ q ≠ some p := fun r hr ℓ q hp' h1 =>
    hfresh p (h.own p (isTable_of hr hp' h1)).1 rfl
  refine ⟨⟨hp.ok h.ok, fun t h' => ?_, fun r hr r' hr' ℓ q ℓ' q' t hp1 hp2 h1 h2 => ?_,
    fun r hr ℓ q t i hp' hℓ h1 hi h0 => ?_, fun r hr q pt i hp' h1 hi => ?_, fun r hr i h1 h2 => ?_,
    fun i h1 h2 => ?_, fun f hf => hp.mono (h.kern f hf)⟩, ht, fun r hr n hn => ?_⟩
  · rcases hit t h' with rfl | h'
    · exact ⟨hown, fun hk => hfresh t (h.kern t hk) rfl⟩
    · exact ⟨hp.mono (h.own t h').1, (h.own t h').2⟩
  · rcases hcase r hr ℓ q t hp1 h1 with ⟨rfl, e1, e2, e3⟩ | h1
    · rcases hcase r' hr' ℓ' q' t hp2 h2 with ⟨-, e1', e2', e3'⟩ | h2
      · exact ⟨e1.trans e1'.symm, e2.trans e2'.symm, e3.trans e3'.symm⟩
      · exact absurd h2 (hnew r' hr' ℓ' q' hp2)
    · rcases hcase r' hr' ℓ' q' t hp2 h2 with ⟨rfl, -⟩ | h2
      · exact absurd h1 (hnew r hr ℓ q hp1)
      · exact h.inj r hr r' hr' ℓ q ℓ' q' t hp1 hp2 h1 h2
  · rcases hcase r hr ℓ q t hp' h1 with ⟨rfl, -⟩ | h1
    · exact Or.inl (hz i hi)
    · by_cases hx : r = r₀ ∧ ℓ = ℓ₀ ∧ q = q₀ ∧ i = i₀
      · obtain ⟨rfl, rfl, rfl, rfl⟩ := hx
        rw [ht₀] at h1
        cases h1
        exact Or.inr ⟨p, hE.at_, hown.page, hlt⟩
      · rw [hoff r hr ℓ q t i hp' h1 hi hx]
        exact h.dir r hr ℓ q t i hp' hℓ h1 hi h0
  · rcases hcase r hr 3 q pt hp' h1 with ⟨rfl, -⟩ | h1
    · exact Or.inl (hz i hi)
    · rw [hoff r hr 3 q pt i hp' h1 hi (by omega)]
      rcases h.leaf r hr q pt i hp' h1 hi with h0 | ⟨l, hl, hd⟩
      · exact Or.inl h0
      · exact Or.inr ⟨l, hl, hdata _ hd⟩
  · rw [hoff r hr 0 0 r i (place_root.2 rfl) rfl (by omega) (by omega)]
    exact h.high r hr i h1 h2
  · rw [hE.boot i (by omega)]
    exact h.boot i h1 h2
  · unfold view
    rw [ht r hr 3 _ (place_pt hn)]
    split
    · rename_i hx
      obtain ⟨rfl, e1, e2⟩ := hx
      rw [Option.bind_some, hz _ (Nat.mod_lt _ (by decide)), decode_zero, e1, e2, hold, Option.bind_none]
    · cases h1 : tab m r 3 (n / 512) with
      | none => rw [Option.bind_none, Option.bind_none]
      | some pt =>
        rw [Option.bind_some, Option.bind_some,
          hoff r hr 3 _ pt _ (place_pt hn) h1 (Nat.mod_lt _ (by decide)) (by omega)]

/-- An empty table is taken out of entry `i₀` and its frame given back. -/
theorem PtInv.dropTable (h : PtInv m pmm roots kern) (hr₀ : r₀ ∈ roots) (hp₀ : Place ℓ₀ q₀) (hℓ₀ : ℓ₀ < 3)
    (ht₀ : tab m r₀ ℓ₀ q₀ = some t₀) (hi₀ : i₀ < 512) (h0₀ : ℓ₀ ≠ 0 ∨ i₀ < 256) {s : Nat}
    (hs : tab m r₀ (ℓ₀ + 1) (512 * q₀ + i₀) = some s) (hz : ∀ j, j < 512 → ent m s j = 0) :
    PtInv (setEnt m t₀ i₀ 0) (pmmFree pmm s) roots kern ∧
      (∀ r ∈ roots, ∀ ℓ q, Place ℓ q → tab (setEnt m t₀ i₀ 0) r ℓ q =
        if r = r₀ ∧ ℓ = ℓ₀ + 1 ∧ q = 512 * q₀ + i₀ then none else tab m r ℓ q) ∧
      ∀ r ∈ roots, ∀ n, n < userPages → view (setEnt m t₀ i₀ 0) r n = view m r n := by
  have hps := hp₀.child hℓ₀ hi₀ h0₀
  have hits := isTable_of hr₀ hps hs
  have hos := (h.own s hits).1
  have hg := pmmFree_gave h.ok hos
  have hE := h.entSet (isTable_of hr₀ hp₀ ht₀) hi₀ (v := 0) (by decide)
  generalize setEnt m t₀ i₀ 0 = m' at hE
  have hnext : next tableEnt m t₀ i₀ = some s := by
    rw [tab_succ, show (512 * q₀ + i₀) / 512 = q₀ by omega, show (512 * q₀ + i₀) % 512 = i₀ by omega, ht₀,
      Option.bind_some] at hs
    exact hs
  have ht : ∀ r ∈ roots, ∀ ℓ q, Place ℓ q →
      tab m' r ℓ q = if r = r₀ ∧ ℓ = ℓ₀ + 1 ∧ q = 512 * q₀ + i₀ then none else tab m r ℓ q := by
    refine tab_set ht₀ hi₀ (hE.next_same h hr₀ hp₀ ht₀) hnext (next_zero hE.at_) (fun s' hs' j hj => ?_)
      fun s' hs' => by cases hs'
    cases hs'
    exact next_zero (hz j hj)
  have hcase : ∀ r ∈ roots, ∀ ℓ q t, Place ℓ q → tab m' r ℓ q = some t → tab m r ℓ q = some t ∧ t ≠ s := by
    intro r hr ℓ q t hp' h1
    rw [ht r hr ℓ q hp'] at h1
    split at h1
    · cases h1
    · rename_i hx
      refine ⟨h1, ?_⟩
      rintro rfl
      exact hx (h.inj r hr r₀ hr₀ ℓ q _ _ t hp' hps h1 hs)
  have hit : ∀ t, IsTable m' roots t → IsTable m roots t ∧ t ≠ s := by
    rintro t ⟨r, hr, ℓ, q, hp', h1⟩
    obtain ⟨h2, h3⟩ := hcase r hr ℓ q t hp' h1
    exact ⟨isTable_of hr hp' h2, h3⟩
  have hkeep : ∀ f, pmm.Owned f → f ≠ s → (pmmFree pmm s).Owned f := fun f hf hne => hg.keep hos hf hne
  have hdata : ∀ f, Data m pmm roots kern f → Data m' (pmmFree pmm s) roots kern f := by
    intro f hd
    refine ⟨hkeep f hd.owned ?_, hd.notKern, fun hf => hd.notTable (hit f hf).1⟩
    rintro rfl
    exact hd.notTable hits
  have hoff := hE.off_place h hr₀ hp₀ ht₀
  refine ⟨⟨hg.ok hos h.ok, fun t h' => ?_, fun r hr r' hr' ℓ q ℓ' q' t hp1 hp2 h1 h2 => ?_,
    fun r hr ℓ q t i hp' hℓ h1 hi h0 => ?_, fun r hr q pt i hp' h1 hi => ?_, fun r hr i h1 h2 => ?_,
    fun i h1 h2 => ?_, fun f hf => ?_⟩, ht, fun r hr n hn => ?_⟩
  · obtain ⟨h1, h2⟩ := hit t h'
    exact ⟨hkeep t (h.own t h1).1 h2, (h.own t h1).2⟩
  · exact h.inj r hr r' hr' ℓ q ℓ' q' t hp1 hp2 (hcase r hr ℓ q t hp1 h1).1 (hcase r' hr' ℓ' q' t hp2 h2).1
  · have h1 := (hcase r hr ℓ q t hp' h1).1
    by_cases hx : r = r₀ ∧ ℓ = ℓ₀ ∧ q = q₀ ∧ i = i₀
    · obtain ⟨rfl, rfl, rfl, rfl⟩ := hx
      rw [ht₀] at h1
      cases h1
      exact Or.inl hE.at_
    · rw [hoff r hr ℓ q t i hp' h1 hi hx]
      exact h.dir r hr ℓ q t i hp' hℓ h1 hi h0
  · have h1 := (hcase r hr 3 q pt hp' h1).1
    rw [hoff r hr 3 q pt i hp' h1 hi (by omega)]
    rcases h.leaf r hr q pt i hp' h1 hi with h0 | ⟨l, hl, hd⟩
    · exact Or.inl h0
    · exact Or.inr ⟨l, hl, hdata _ hd⟩
  · rw [hoff r hr 0 0 r i (place_root.2 rfl) rfl (by omega) (by omega)]
    exact h.high r hr i h1 h2
  · rw [hE.boot i (by omega)]
    exact h.boot i h1 h2
  · refine hkeep f (h.kern f hf) ?_
    rintro rfl
    exact (h.own f hits).2 hf
  · unfold view
    rw [ht r hr 3 _ (place_pt hn)]
    split
    · rename_i hx
      obtain ⟨rfl, e1, e2⟩ := hx
      rw [Option.bind_none, e1, e2, hs, Option.bind_some, hz _ (Nat.mod_lt _ (by decide)), decode_zero]
    · cases h1 : tab m r 3 (n / 512) with
      | none => rw [Option.bind_none, Option.bind_none]
      | some pt =>
        rw [Option.bind_some, Option.bind_some,
          hoff r hr 3 _ pt _ (place_pt hn) h1 (Nat.mod_lt _ (by decide)) (by omega)]

end Entry

/-! ## Roots and kernel frames -/

/-- A new PML4 whose user half is empty. -/
theorem PtInv.addRoot (h : PtInv m pmm roots kern) {p : Nat} (hp : pmm.Took p pmm') (hs : SameOff p m m')
    (hz : ∀ i, i < 256 → ent m' p i = 0) (hh : ∀ i, 256 < i → i < 511 → ent m' p i = 0) :
    PtInv m' pmm' (insert p roots) kern ∧ p ∉ roots ∧
      (∀ r ∈ roots, ∀ ℓ q, Place ℓ q → tab m' r ℓ q = tab m r ℓ q) ∧
      (∀ r ∈ roots, ∀ n, n < userPages → view m' r n = view m r n) ∧
      ∀ n, n < userPages → view m' p n = none := by
  have hown := hp.owned h.ok
  have hok := hp.ok h.ok
  have hnt : ¬IsTable m roots p := fun ht => hp.fresh (h.own p ht).1 rfl
  obtain ⟨hF, hFt, hFv⟩ := (h.took hp).frame_page hs hown.page hnt (hown.ne_boot hok)
  have hempty : ∀ ℓ q, Place (ℓ + 1) q → tab m' p (ℓ + 1) q = none := by
    intro ℓ
    induction ℓ with
    | zero =>
      intro q hp'
      rw [tab_succ, tab_zero, Option.bind_some, next_zero (hz _ (hp'.index.resolve_left (by decide)))]
    | succ ℓ ih => intro q hp'; rw [tab_succ, ih _ hp'.parent, Option.bind_none]
  have hcase : ∀ r ∈ insert p roots, ∀ ℓ q t, Place ℓ q → tab m' r ℓ q = some t →
      (r = p ∧ ℓ = 0 ∧ q = 0 ∧ t = p) ∨ (r ∈ roots ∧ IsTable m' roots t ∧ t ≠ p) := by
    intro r hr ℓ q t hp' h1
    rcases Finset.mem_insert.1 hr with rfl | hr
    · cases ℓ with
      | zero => cases h1; exact Or.inl ⟨rfl, rfl, place_root.1 hp', rfl⟩
      | succ ℓ => rw [hempty ℓ q hp'] at h1; cases h1
    · have h2 := isTable_of hr hp' h1
      refine Or.inr ⟨hr, h2, ?_⟩
      rintro rfl
      exact hnt ((isTable_congr hFt t).1 h2)
  have hit : ∀ t, IsTable m' (insert p roots) t → t = p ∨ IsTable m' roots t := by
    rintro t ⟨r, hr, ℓ, q, hp', h1⟩
    rcases hcase r hr ℓ q t hp' h1 with ⟨-, -, -, e⟩ | ⟨-, h2, -⟩
    · exact Or.inl e
    · exact Or.inr h2
  have hdata : ∀ f, Data m' pmm' roots kern f → f ≠ p → Data m' pmm' (insert p roots) kern f :=
    fun f hd hne =>
    ⟨hd.owned, hd.notKern, fun hf => (hit f hf).elim hne hd.notTable⟩
  refine ⟨⟨hok, fun t h' => ?_, fun r hr r' hr' ℓ q ℓ' q' t hp1 hp2 h1 h2 => ?_,
    fun r hr ℓ q t i hp' hℓ h1 hi h0 => ?_, fun r hr q pt i hp' h1 hi => ?_, fun r hr i h1 h2 => ?_,
    hF.boot, hF.kern⟩, fun hr => hnt (isTable_root hr), hFt, hFv, fun n hn => ?_⟩
  · rcases hit t h' with rfl | h'
    · exact ⟨hown, fun hk => hp.fresh (h.kern t hk) rfl⟩
    · exact hF.own t h'
  · rcases hcase r hr ℓ q t hp1 h1 with ⟨e1, e2, e3, e4⟩ | ⟨hr, -, hne⟩
    · rcases hcase r' hr' ℓ' q' t hp2 h2 with ⟨e1', e2', e3', -⟩ | ⟨-, -, hne⟩
      · exact ⟨e1.trans e1'.symm, e2.trans e2'.symm, e3.trans e3'.symm⟩
      · exact absurd e4 hne
    · rcases hcase r' hr' ℓ' q' t hp2 h2 with ⟨-, -, -, e4⟩ | ⟨hr', -, -⟩
      · exact absurd e4 hne
      · exact hF.inj r hr r' hr' ℓ q ℓ' q' t hp1 hp2 h1 h2
  · rcases hcase r hr ℓ q t hp' h1 with ⟨rfl, rfl, rfl, rfl⟩ | ⟨hr, -, -⟩
    · exact Or.inl (hz i (h0.resolve_left (by decide)))
    · exact hF.dir r hr ℓ q t i hp' hℓ h1 hi h0
  · rcases hcase r hr 3 q pt hp' h1 with ⟨-, e, -⟩ | ⟨hr, -, -⟩
    · cases e
    · rcases hF.leaf r hr q pt i hp' h1 hi with h0 | ⟨l, hl, hd⟩
      · exact Or.inl h0
      · refine Or.inr ⟨l, hl, hdata _ hd ?_⟩
        -- the frame was handed out before `p` was
        have hn := page_lt hp' hi
        have hv : view m' r (512 * q + i) = some l := by
          rw [view, show (512 * q + i) / 512 = q by omega, h1, Option.bind_some,
            show (512 * q + i) % 512 = i by omega, hl, decode_encode hd.owned.page (hd.owned.lt64 hok).1]
        rw [hFv r hr _ hn] at hv
        obtain ⟨-, -, -, hd'⟩ := h.of_view hr hn hv
        exact hp.fresh hd'.owned
  · rcases Finset.mem_insert.1 hr with rfl | hr
    · exact hh i h1 h2
    · exact hF.high r hr i h1 h2
  · rw [view, hempty 2 _ (place_pt hn), Option.bind_none]

/-- A PML4 goes. -/
theorem PtInv.dropRoot (h : PtInv m pmm roots kern) (hr₀ : r ∈ roots) :
    PtInv m (pmmFree pmm r) (roots.erase r) kern := by
  have hor := h.root_owned hr₀
  have hg := pmmFree_gave h.ok hor
  have hit : ∀ t, IsTable m (roots.erase r) t → IsTable m roots t ∧ t ≠ r := by
    rintro t ⟨r', hr', ℓ, q, hp, h1⟩
    refine ⟨isTable_of (Finset.mem_of_mem_erase hr') hp h1, ?_⟩
    rintro rfl
    exact Finset.ne_of_mem_erase hr'
      (h.inj r' (Finset.mem_of_mem_erase hr') t hr₀ ℓ q 0 0 t hp (place_root.2 rfl) h1 rfl).1
  have hdata : ∀ f, Data m pmm roots kern f → Data m (pmmFree pmm r) (roots.erase r) kern f := by
    intro f hd
    refine ⟨hg.keep hor hd.owned ?_, hd.notKern, fun hf => hd.notTable (hit f hf).1⟩
    rintro rfl
    exact hd.notTable (isTable_root hr₀)
  refine ⟨hg.ok hor h.ok, fun t h' => ?_, fun r hr r' hr' => ?_, fun r hr => ?_,
    fun r hr q pt i hp' h1 hi => ?_, fun r hr => ?_, h.boot, fun f hf => ?_⟩
  · obtain ⟨h1, h2⟩ := hit t h'
    exact ⟨hg.keep hor (h.own t h1).1 h2, (h.own t h1).2⟩
  · exact h.inj r (Finset.mem_of_mem_erase hr) r' (Finset.mem_of_mem_erase hr')
  · exact h.dir r (Finset.mem_of_mem_erase hr)
  · rcases h.leaf r (Finset.mem_of_mem_erase hr) q pt i hp' h1 hi with h0 | ⟨l, hl, hd⟩
    · exact Or.inl h0
    · exact Or.inr ⟨l, hl, hdata _ hd⟩
  · exact h.high r (Finset.mem_of_mem_erase hr)
  · refine hg.keep hor (h.kern f hf) ?_
    rintro rfl
    exact (h.own f (isTable_root hr₀)).2 hf

/-- The kernel takes a frame for itself. -/
theorem PtInv.addKern (h : PtInv m pmm roots kern) {p : Nat} (hp : pmm.Took p pmm') :
    PtInv m pmm' roots (insert p kern) := by
  have h' := h.took hp
  refine ⟨h'.ok, fun t ht => ⟨(h'.own t ht).1, fun hk => ?_⟩, h.inj, h.dir, fun r hr q pt i hp' h1
    hi => ?_, h.high, h.boot, fun f hf => ?_⟩
  · rcases Finset.mem_insert.1 hk with rfl | hk
    · exact hp.fresh (h.own t ht).1 rfl
    · exact (h'.own t ht).2 hk
  · rcases h.leaf r hr q pt i hp' h1 hi with h0 | ⟨l, hl, hd⟩
    · exact Or.inl h0
    · refine Or.inr ⟨l, hl, hp.mono hd.owned, fun hk => ?_, hd.notTable⟩
      rcases Finset.mem_insert.1 hk with e | hk
      · exact hp.fresh hd.owned e
      · exact hd.notKern hk
  · rcases Finset.mem_insert.1 hf with rfl | hf
    · exact hp.owned h.ok
    · exact h'.kern f hf

/-- The kernel gives one of its frames back. -/
theorem PtInv.dropKern (h : PtInv m pmm roots kern) {p : Nat} (hp : p ∈ kern) :
    PtInv m (pmmFree pmm p) roots (kern.erase p) := by
  have hop := h.kern p hp
  have hg := pmmFree_gave h.ok hop
  refine ⟨hg.ok hop h.ok, fun t ht => ⟨hg.keep hop (h.own t ht).1 ?_, fun hk => ?_⟩, h.inj, h.dir,
    fun r hr q pt i hp' h1 hi => ?_, h.high, h.boot, fun f hf => ?_⟩
  · rintro rfl; exact (h.own t ht).2 hp
  · exact (h.own t ht).2 (Finset.mem_of_mem_erase hk)
  · rcases h.leaf r hr q pt i hp' h1 hi with h0 | ⟨l, hl, hd⟩
    · exact Or.inl h0
    · refine Or.inr ⟨l, hl, hg.keep hop hd.owned ?_,
        fun hk => hd.notKern (Finset.mem_of_mem_erase hk), hd.notTable⟩
      rintro rfl
      exact hd.notKern hp
  · exact hg.keep hop (h.kern f (Finset.mem_of_mem_erase hf)) (Finset.ne_of_mem_erase hf)

end

end VampireOS
