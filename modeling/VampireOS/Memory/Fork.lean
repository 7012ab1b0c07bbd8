import VampireOS.Memory.Mapping

/-!
# Fork

`vmm_clone_pml4` adds a task with an empty user half; `vmm_copy_user` then shares every page of the
source with it. The four nested loops go through the pages in order, so the invariant of each is
`Copied`: the destination holds what the source held on an interval of pages, and nobody else
has seen a change.
-/

namespace VampireOS

open Lib

section
variable {m m' m'' : Mem} {roots kern : Finset Nat} {vm vm' : Vm} {src dst : Nat}

/-! ## `vmm_clone_pml4` -/

theorem sites_insert (p : Nat) (roots : Finset Nat) : sites (insert p roots) = sites roots ∪ sites {p} := by
  ext x
  simp only [mem_sites, Finset.mem_union, Finset.mem_insert, Finset.mem_singleton]
  tauto

/-- What `vmm_clone_pml4` writes: an empty user half, and nothing between it and the kernel's entries. -/
theorem VmInv.vmmClonePml4_shape (h : VmInv vm roots kern) :
    vmmClonePml4 vm = (0, vm) ∨
      ∃ p pmm' m', vmmClonePml4 vm = (p, { vm with pmm := pmm', mem := m' }) ∧ p ≠ 0 ∧ vm.pmm.Took p pmm' ∧
        SameOff p vm.mem m' ∧ (∀ i, i < 256 → ent m' p i = 0) ∧ ∀ i, 256 < i → i < 511 → ent m' p i = 0 := by
  unfold vmmClonePml4
  rw [if_neg (by rw [h.ready]; decide)]
  split
  · exact Or.inl rfl
  · rename_i p pmm' hne heq
    rcases pmmAlloc_spec vm.pmm h.pt.ok with hal | ⟨-, hal⟩
    · rw [heq] at hal
      exact absurd (congrArg Prod.fst hal) hne
    · rw [heq] at hal
      generalize hmem : (fun x => if p ≤ x ∧ x < p + pageSize then
          if x - p < 8 * hhdmPml4Index then 0 else vm.mem (pml4Phys + (x - p))
        else vm.mem x) = m'
      have hat : ∀ o, o < pageSize → m' (p + o) = if o < 8 * hhdmPml4Index then 0
          else vm.mem (pml4Phys + o) := by
        intro o ho
        rw [← hmem]
        simp only [Nat.add_sub_cancel_left]
        rw [if_pos ⟨by omega, by omega⟩]
      refine Or.inr ⟨p, pmm', m', rfl, hne, hal, fun a ha => ?_, fun i hi => ?_, fun i h1 h2 => ?_⟩
      · rw [← hmem]
        simp only [if_neg ha]
      · refine rd64_zero fun k hk => ?_
        rw [Nat.add_assoc, hat _ (by simp only [pageSize]; omega),
          if_pos (by simp only [hhdmPml4Index]; omega)]
      · rw [← h.pt.boot i h1 h2]
        refine rd64_eq fun k hk => ?_
        rw [Nat.add_assoc, hat _ (by simp only [pageSize]; omega),
          if_neg (by simp only [hhdmPml4Index]; omega), Nat.add_assoc]

theorem VmInv.vmmClonePml4_spec (h : VmInv vm roots kern) :
    vmmClonePml4 vm = (0, vm) ∨
      ∃ p vm', vmmClonePml4 vm = (p, vm') ∧ p ≠ 0 ∧ p ∉ roots ∧ p ∉ kern ∧ VmInv vm' (insert p roots) kern ∧
        Same roots kern vm.mem vm'.mem ∧ ∀ n, n < userPages → absMem vm'.mem p n = none := by
  rcases h.vmmClonePml4_shape with e | ⟨p, pmm', m', e, hne, hal, hs, hz, hh⟩
  · exact Or.inl e
  · obtain ⟨-, -, -, hsame, -⟩ := h.pt.scribble hal hs
    obtain ⟨a1, a2, -, a4, a5⟩ := h.pt.addRoot hal hs hz hh
    refine Or.inr ⟨p, _, e, hne, a2, fun hk => hal.fresh (h.pt.kern p hk) rfl,
      ⟨a1, h.ready, h.unique, ?_⟩, hsame, fun n hn => absMem_none.2 (a5 n hn)⟩
    rw [sites_insert]
    refine (h.cow.congr fun x hx => a4 x.1 (mem_sites.1 hx).1 x.2 (mem_sites.1 hx).2).extend ?_
    rintro ⟨a, b⟩ hx
    obtain ⟨ha, hb⟩ := mem_sites.1 hx
    obtain rfl := Finset.mem_singleton.1 ha
    exact a5 b hb

/-! ## Sharing one leaf -/

/-- The destination holds the source's pages `lo ≤ n < hi`; nothing else changed. -/
structure Copied (roots kern : Finset Nat) (dst src lo hi : Nat) (m m' : Mem) : Prop where
  tab : ∀ r ∈ roots, ∀ ℓ q t, Place ℓ q → tab m r ℓ q = some t → tab m' r ℓ q = some t
  mem : ∀ r ∈ roots, ∀ n, n < userPages →
    absMem m' r n = if r = dst ∧ lo ≤ n ∧ n < hi then absMem m src n else absMem m r n
  kern : ∀ f ∈ kern, frameBytes m' f = frameBytes m f

theorem Copied.refl {lo : Nat} : Copied roots kern dst src lo lo m m :=
  ⟨fun _ _ _ _ _ _ h => h, fun r _ n _ => by rw [if_neg (by omega)], fun _ _ => rfl⟩

theorem Copied.trans {lo mid hi : Nat} (hne : src ≠ dst) (hs : src ∈ roots) (h1 : lo ≤ mid) (h2 : mid ≤ hi)
    (h : Copied roots kern dst src lo mid m m') (h' : Copied roots kern dst src mid hi m' m'') :
    Copied roots kern dst src lo hi m m'' := by
  refine ⟨fun r hr ℓ q t hp ht => h'.tab r hr ℓ q t hp (h.tab r hr ℓ q t hp ht), fun r hr n hn => ?_,
    fun f hf => (h'.kern f hf).trans (h.kern f hf)⟩
  rw [h'.mem r hr n hn, h.mem r hr n hn, h.mem src hs n hn, if_neg (c := src = dst ∧ _) (fun h => hne h.1)]
  by_cases hr : r = dst
  · by_cases hm : mid ≤ n
    · by_cases hh : n < hi
      · rw [if_pos ⟨hr, hm, hh⟩, if_pos ⟨hr, by omega, hh⟩]
      · rw [if_neg (by omega), if_neg (by omega), if_neg (by omega)]
    · rw [if_neg (by omega)]
      by_cases hl : lo ≤ n
      · rw [if_pos ⟨hr, hl, by omega⟩, if_pos ⟨hr, hl, by omega⟩]
      · rw [if_neg (by omega), if_neg (by omega)]
  · rw [if_neg (by tauto), if_neg (by tauto), if_neg (by tauto)]

/-- Nothing to copy: both sides are empty there. -/
theorem Copied.skip {lo hi : Nat} (hd : ∀ n, lo ≤ n → n < userPages → absMem m dst n = none)
    (hs : ∀ n, lo ≤ n → n < hi → n < userPages → absMem m src n = none) :
    Copied roots kern dst src lo hi m m := by
  refine ⟨fun _ _ _ _ _ _ h => h, fun r _ n hn => ?_, fun _ _ => rfl⟩
  split
  · rename_i hx
    obtain ⟨rfl, h1, h2⟩ := hx
    rw [hd n h1 hn, hs n h1 h2 hn]
  · rfl

/-- A fork that gave up has changed nothing but the destination. -/
structure GaveUp (roots kern : Finset Nat) (dst : Nat) (m m' : Mem) : Prop where
  mem : ∀ r ∈ roots, r ≠ dst → ∀ n, n < userPages → absMem m' r n = absMem m r n
  kern : ∀ f ∈ kern, frameBytes m' f = frameBytes m f

theorem Copied.gaveUp {lo hi : Nat} (h : Copied roots kern dst src lo hi m m')
    (h' : GaveUp roots kern dst m' m'') :
    GaveUp roots kern dst m m'' := by
  refine ⟨fun r hr hne n hn => ?_, fun f hf => (h'.kern f hf).trans (h.kern f hf)⟩
  rw [h'.mem r hr hne n hn, h.mem r hr n hn, if_neg (fun hx => hne hx.1)]

theorem va_or (q i s : Nat) (hi : i < 512) : 2 ^ (s + 9) * q ||| i <<< s = 2 ^ s * (512 * q + i) := by
  have h1 : 2 ^ (s + 9) * q = (2 ^ 9 * q) <<< s := by
    rw [Nat.shiftLeft_eq, Nat.pow_add, Nat.mul_assoc, Nat.mul_comm]
  rw [h1, ← Nat.shiftLeft_or_distrib, ← Nat.two_pow_add_eq_or_of_lt (show i < 2 ^ 9 from hi),
    Nat.shiftLeft_eq, Nat.mul_comm]

theorem vpn_page {n : Nat} (hn : n < userPages) : vpn (2 ^ 12 * n) = n ∧ 2 ^ 12 * n % pageSize = 0 := by
  unfold userPages at hn
  simp only [vpn, pageSize, Nat.reducePow]
  omega

theorem sharedFlags_encode {l : Leaf Nat} (hp : Page l.frame) (hw : l.hw = true → l.want = true) :
    sharedFlags (encode l) = leafFlags l.want false := by
  unfold sharedFlags
  rw [encode_and hp (by decide)]
  cases hlw : l.want <;> cases hlh : l.hw <;> simp only [hlw, hlh, reduceCtorEq, forall_const]
    at hw ⊢ <;> decide

/-- `cow_share_frame` undone by `cow_unshare`: an entry that said one may be gone. -/
theorem CowOk.unshared {S : Finset (Nat × Nat)} {g : Nat × Nat → Option (Leaf Nat)}
    {refs refs' : Nat → Option Nat} {x : Nat × Nat} {l : Leaf Nat} (h : CowOk S g refs) (hx : x ∈ S)
    (hg : g x = some l)
    (hr : refs' = Function.update (shareRefs refs l.frame) l.frame
      ((shareRefs refs l.frame l.frame).bind fun n => if n ≤ 2 then none else some (n - 1))) :
    CowOk S g refs' := by
  have hc := h.count_eq hx hg
  have hat : refs' l.frame = if count refs l.frame ≤ 1 then none else some (count refs l.frame) := by
    rw [hr, Function.update_self, shareRefs, Function.update_self, Option.bind_some, Nat.add_sub_cancel]
    by_cases h1 : count refs l.frame ≤ 1
    · rw [if_pos h1, if_pos (by omega)]
    · rw [if_neg h1, if_neg (by omega)]
  have hoff : ∀ b, b ≠ l.frame → refs' b = refs b := by
    intro b hb
    rw [hr, Function.update_of_ne hb, shareRefs, Function.update_of_ne hb]
  by_cases h1 : count refs l.frame ≤ 1
  · rw [if_pos h1] at hat
    exact h.forget (by omega) hat hoff
  · rw [if_neg h1] at hat
    have : refs' = refs := by
      funext b
      by_cases hb : b = l.frame
      · subst hb
        rw [hat]
        unfold count at h1 ⊢
        cases hr : refs l.frame with
        | none => rw [hr] at h1; simp at h1
        | some n => rfl
      · exact hoff b hb
    rw [this]
    exact h

/-- One leaf of the source. -/
theorem copyLeaf_spec (h : VmInv vm roots kern) (hs : src ∈ roots) (hd : dst ∈ roots)
    (hne : src ≠ dst) {q i pt : Nat} (hp : Place 3 q) (ht : tab vm.mem src 3 q = some pt)
    (hi : i < 512) (hempty : ∀ n, 512 * q + i ≤ n → n < userPages → absMem vm.mem dst n = none)
    {b : Bool} (he : copyLeaf dst (2 ^ 21 * q) pt i vm = (vm', b)) :
    VmInv vm' roots kern ∧
      (b = true → Copied roots kern dst src (512 * q + i) (512 * q + i + 1) vm.mem vm'.mem) ∧
      (b = false → GaveUp roots kern dst vm.mem vm'.mem) := by
  have hn := page_lt hp hi
  have hq : (512 * q + i) / 512 = q := by omega
  have hm : (512 * q + i) % 512 = i := by omega
  have ht' : tab vm.mem src 3 ((512 * q + i) / 512) = some pt := by rw [hq]; exact ht
  have hva : 2 ^ 21 * q ||| i <<< 12 = 2 ^ 12 * (512 * q + i) := va_or q i 12 hi
  generalize 512 * q + i = n at *
  unfold copyLeaf at he
  simp only [hva] at he
  rcases h.pt.view_cases hs hn ht' with ⟨h0, hnone⟩ | ⟨l, hl, hv, hdat⟩
  · rw [hm] at h0
    rw [h0, if_pos (by decide)] at he
    cases he
    refine ⟨h, fun _ => Copied.skip hempty fun n' h1 h2 _ => ?_, nofun⟩
    obtain rfl : n' = n := by omega
    exact absMem_none.2 hnone
  · have hx : (src, n) ∈ sites roots := mem_sites.2 ⟨hs, hn⟩
    have hy : (dst, n) ∈ sites roots := mem_sites.2 ⟨hd, hn⟩
    rw [hm] at hl
    rw [hl, userLeaf_encode hdat.owned.page, if_neg (by decide), encode_addr hdat.owned h.pt.ok,
      sharedFlags_encode hdat.owned.page fun hw => (h.cow.writable _ hx l hv hw).1] at he
    have hvd : view vm.mem dst n = none := absMem_none.1 (hempty n (le_refl n) hn)
    split at he
    · cases he
      exact ⟨h, nofun, fun _ => ⟨fun _ _ _ _ _ => rfl, fun _ _ => rfl⟩⟩
    · rename_i tab' hshare
      obtain ⟨u1, u2⟩ := cowShareFrame_spec h.unique hshare
      rcases hmap : vmmMapUserFlags { vm with cowTab := tab' } dst (2 ^ 12 * n) l.frame
        (leafFlags l.want false) with
        ⟨vm2, b2⟩
      obtain ⟨e1, e2⟩ := vpn_page hn
      have hpt : PtInv (Vm.mk vm.mem vm.pmm tab' vm.hhdmReady).mem
          (Vm.mk vm.mem vm.pmm tab' vm.hhdmReady).pmm roots kern :=
        h.pt
      obtain ⟨a1, a2, a3, a4, a5⟩ := vmmMapUserFlags_spec hpt h.ready hd (by rw [e1]; exact hn) e2 hdat hmap
      rw [e1] at a5
      rw [hmap] at he
      simp only at a2
      cases b2 with
      | false =>
        -- out of frames: take the count back
        cases he
        have hg := a4 rfl
        obtain ⟨w1, w2⟩ := cowUnshare_spec (a2 ▸ u1 : Unique vm2.cowTab) l.frame
        rw [a2, u2] at w2
        rw [a2] at w1
        have hcow := (CowOk.unshared h.cow hx hv w2).congr
          fun x hx => hg.view x.1 (mem_sites.1 hx).1 x.2 (mem_sites.1 hx).2
        have hsame := hg.same h.pt
        refine ⟨⟨a1, a3, by rw [a2]; exact w1, by rw [a2]; exact hcow⟩, nofun, fun _ => ?_⟩
        exact ⟨fun r hr _ n' hn' => hsame.mem r hr n' hn', hsame.kern⟩
      | true =>
        cases he
        have hM := a5 rfl
        obtain ⟨d1, d2⟩ := hM.data l.frame hdat
        have ht2 := hM.tab src hs 3 _ pt (place_pt hn) ht'
        obtain ⟨p1, p2, p3, p4⟩ := a1.setPage hs hn ht2 (Or.inr (d1.encode_ok l.want false))
        rw [d1.decode a1.ok] at p3 p4
        rw [hm] at p1 p2 p3 p4
        have hsee : ∀ r ∈ roots, ∀ n', n' < userPages →
            view (setEnt vm2.mem pt i (encode ⟨l.frame, l.want, false⟩)) r n' =
              if (r = src ∧ n' = n) ∨ (r = dst ∧ n' = n) then some { l with hw := false }
                else view vm.mem r n' := by
          intro r hr n' hn'
          rw [p3 r hr n' hn']
          by_cases h1 : r = src ∧ n' = n
          · rw [if_pos h1, if_pos (Or.inl h1)]
          · rw [if_neg h1, hM.view r hr n' hn']
            by_cases h2 : r = dst ∧ n' = n
            · rw [if_pos h2, if_pos (Or.inr h2)]
            · rw [if_neg h2, if_neg (by tauto)]
        have hcow : CowOk (sites roots) (see (setEnt vm2.mem pt i (encode ⟨l.frame, l.want, false⟩)))
            (shareRefs (refs? vm.cowTab) l.frame) :=
              h.cow.share hx hy (fun e => hne (congrArg Prod.fst e)) hv hvd
          ((hsee src hs n hn).trans (if_pos (Or.inl ⟨rfl, rfl⟩)))
            ((hsee dst hd n hn).trans (if_pos (Or.inr ⟨rfl, rfl⟩)))
          fun z hz hzx hzy => (hsee z.1 (mem_sites.1 hz).1 z.2 (mem_sites.1 hz).2).trans (if_neg fun hor => by
            rcases hor with ⟨e1, e2⟩ | ⟨e1, e2⟩
            · exact hzx (Prod.ext e1 e2)
            · exact hzy (Prod.ext e1 e2))
        have habs : absMem vm.mem src n = some (pageOf vm.mem ⟨l.frame, l.want, false⟩) := by
          rw [absMem_eq, hv]; rfl
        have hpg : pageOf vm2.mem ⟨l.frame, l.want, false⟩ = pageOf vm.mem ⟨l.frame, l.want, false⟩ := by
          rw [pageOf, pageOf]
          exact congrArg (UserPage.mk · l.want) d2
        refine ⟨⟨p1, a3, by rw [a2]; exact u1, by rw [a2, u2]; exact hcow⟩, fun _ => ?_, nofun⟩
        refine ⟨fun r hr ℓ q' t hp' ht' => (p2 r hr ℓ q' hp').trans (hM.tab r hr ℓ q' t hp' ht'),
          fun r hr n' hn' => ?_, fun f hf => (p4.kern f hf).trans (hM.step.kern f hf)⟩
        refine (p4.mem r hr n' hn').trans ?_
        rw [hM.step.mem r hr n' hn', Option.map_some, hpg]
        by_cases h1 : r = src ∧ n' = n
        · obtain ⟨rfl, rfl⟩ := h1
          rw [if_pos ⟨rfl, rfl⟩, if_neg (fun hx => hne hx.1), habs]
        · rw [if_neg h1]
          by_cases h2 : r = dst ∧ n' = n
          · obtain ⟨rfl, rfl⟩ := h2
            rw [if_pos ⟨rfl, rfl⟩, if_pos ⟨rfl, le_refl _, by omega⟩, habs]
          · rw [if_neg h2, if_neg (by omega)]

/-! ## The loops -/

/-- `f` shares the pages `w q ≤ n < w (q + 1)` below the table `(ℓ, q)` of the source. -/
def CopyOk (roots kern : Finset Nat) (dst src ℓ q w : Nat) (f : Nat → Vm → Vm × Bool) : Prop :=
  ∀ vm t, VmInv vm roots kern → tab vm.mem src ℓ q = some t →
    (∀ n, w * q ≤ n → n < userPages → absMem vm.mem dst n = none) →
    ((f t vm).2 = true → VmInv (f t vm).1 roots kern ∧
      Copied roots kern dst src (w * q) (w * (q + 1)) vm.mem (f t vm).1.mem) ∧
    ((f t vm).2 = false → VmInv (f t vm).1 roots kern ∧ GaveUp roots kern dst vm.mem (f t vm).1.mem)

/-- After a part is copied the destination is still empty behind it. -/
theorem Copied.empty {lo hi : Nat} (h : Copied roots kern dst src lo hi m m') (hd : dst ∈ roots)
    (he : ∀ n, lo ≤ n → n < userPages → absMem m dst n = none) (hle : lo ≤ hi) :
    ∀ n, hi ≤ n → n < userPages → absMem m' dst n = none := by
  intro n h1 hn
  rw [h.mem dst hd n hn, if_neg (by omega)]
  exact he n (by omega) hn

theorem copyPt_ok (hs : src ∈ roots) (hd : dst ∈ roots) (hne : src ≠ dst) {q : Nat} (hp : Place 3 q) :
    CopyOk roots kern dst src 3 q (512 * 512 ^ 0) (copyPt dst (2 ^ 21 * q)) := by
  intro vm pt h ht hempty
  have e : 512 * 512 ^ 0 = 512 := rfl
  rw [e] at hempty ⊢
  rw [Nat.mul_succ 512 q, copyPt]
  refine loopTo_inv (fun i s => VmInv s roots kern ∧ Copied roots kern dst src (512 * q)
    (512 * q + i) vm.mem s.mem) (fun s => VmInv s roots kern ∧ GaveUp roots kern dst vm.mem s.mem)
    ⟨h, Copied.refl⟩ ?_
  rintro i s hi ⟨hI, hC⟩
  obtain ⟨a1, a2, a3⟩ := copyLeaf_spec hI hs hd hne hp (hC.tab src hs 3 q pt hp ht) hi
    (hC.empty hd hempty (by omega)) (Prod.mk.eta (p := copyLeaf dst (2 ^ 21 * q) pt i s)).symm
  rw [Nat.add_assoc (512 * q)] at a2
  exact ⟨fun hb => ⟨a1, hC.trans hne hs (by omega) (by omega) (a2 hb)⟩, fun hb => ⟨a1, hC.gaveUp (a3 hb)⟩⟩

/-- No table, no tables below it. -/
theorem tab_none_below {m : Mem} {r ℓ q : Nat} (h : tab m r ℓ q = none) :
    ∀ k q', q' / 512 ^ k = q → tab m r (ℓ + k) q' = none
  | 0, q', hq => by rw [Nat.pow_zero, Nat.div_one] at hq; rw [hq]; exact h
  | k + 1, q', hq => by
    have : q' / 512 / 512 ^ k = q := by rw [Nat.div_div_eq_div_mul, Nat.mul_comm, ← Nat.pow_succ]; exact hq
    rw [← Nat.add_assoc, tab_succ, tab_none_below h k _ this, Option.bind_none]

/-- One outer step, given the loop below it. -/
theorem copyAt_spec (hs : src ∈ roots) {ℓ q k i s : Nat} {d : Nat → Nat → Vm → Vm × Bool}
    (hk : ℓ + 1 + k = 3) (hp : Place ℓ q) {v : Nat} (hva : v = 2 ^ (s + 9) * q) (hi : i < 512)
    (h0 : ℓ ≠ 0 ∨ i < 256)
    (hdown : CopyOk roots kern dst src (ℓ + 1) (512 * q + i) (512 * 512 ^ k)
      (d (2 ^ s * (512 * q + i))))
    {z : Vm} {t : Nat} (h : VmInv z roots kern) (ht : tab z.mem src ℓ q = some t)
    (hempty : ∀ n, 512 * 512 ^ k * (512 * q + i) ≤ n → n < userPages → absMem z.mem dst n = none) :
    ((copyAt d s v t i z).2 = true → VmInv (copyAt d s v t i z).1 roots kern ∧
      Copied roots kern dst src (512 * 512 ^ k * (512 * q + i)) (512 * 512 ^ k * (512 * q + (i + 1))) z.mem
        (copyAt d s v t i z).1.mem) ∧
    ((copyAt d s v t i z).2 = false → VmInv (copyAt d s v t i z).1 roots kern ∧
      GaveUp roots kern dst z.mem (copyAt d s v t i z).1.mem) := by
  generalize hw : 512 * 512 ^ k = w at *
  have hchild : tab z.mem src (ℓ + 1) (512 * q + i) = next tableEnt z.mem t i := by
    rw [tab_succ, show (512 * q + i) / 512 = q by omega, show (512 * q + i) % 512 = i by omega, ht,
      Option.bind_some]
  unfold copyAt
  rw [h.pt.next_user hs hp (by omega) ht hi h0]
  cases hnx : next tableEnt z.mem t i with
  | none =>
    rw [Option.elim_none]
    refine ⟨fun _ => ⟨h, Copied.skip hempty fun n h1 h2 hn => ?_⟩, nofun⟩
    have hdiv : n / w = 512 * q + i := by
      refine Nat.div_eq_of_lt_le ?_ ?_
      · rw [Nat.mul_comm]; exact h1
      · rw [Nat.mul_comm]; exact h2
    have hnone := tab_none_below (hchild.trans hnx) k (n / 512)
      (by rw [Nat.div_div_eq_div_mul, hw]; exact hdiv)
    rw [hk] at hnone
    rw [absMem_none, view, hnone, Option.bind_none]
  | some sub =>
    rw [Option.elim_some, hva, va_or q i s hi]
    exact hdown z sub h (hchild.trans hnx) hempty

/-- One outer loop, given the loop below it. -/
theorem copyLoop_ok (hs : src ∈ roots) (hd : dst ∈ roots) (hne : src ≠ dst) {ℓ q k N s : Nat}
    {d : Nat → Nat → Vm → Vm × Bool} (hk : ℓ + 1 + k = 3) (hp : Place ℓ q) {v : Nat}
    (hva : v = 2 ^ (s + 9) * q) (hN : N ≤ 512) (hN0 : ℓ ≠ 0 ∨ N ≤ 256)
    (hdown : ∀ i, i < N → CopyOk roots kern dst src (ℓ + 1) (512 * q + i) (512 * 512 ^ k)
      (d (2 ^ s * (512 * q + i))))
    {vm : Vm} {t : Nat} (h : VmInv vm roots kern) (ht : tab vm.mem src ℓ q = some t)
    (hempty : ∀ n, 512 * 512 ^ k * (512 * q) ≤ n → n < userPages → absMem vm.mem dst n = none) :
    ((loopTo (copyAt d s v t) N vm).2 = true → VmInv (loopTo (copyAt d s v t) N vm).1 roots kern ∧
      Copied roots kern dst src (512 * 512 ^ k * (512 * q)) (512 * 512 ^ k * (512 * q + N)) vm.mem
        (loopTo (copyAt d s v t) N vm).1.mem) ∧
    ((loopTo (copyAt d s v t) N vm).2 = false → VmInv (loopTo (copyAt d s v t) N vm).1 roots kern ∧
      GaveUp roots kern dst vm.mem (loopTo (copyAt d s v t) N vm).1.mem) := by
  refine loopTo_inv (fun i z => VmInv z roots kern ∧
      Copied roots kern dst src (512 * 512 ^ k * (512 * q)) (512 * 512 ^ k * (512 * q + i)) vm.mem z.mem)
    (fun z => VmInv z roots kern ∧ GaveUp roots kern dst vm.mem z.mem) ⟨h, Copied.refl⟩ ?_
  rintro i z hi ⟨hI, hC⟩
  have hle1 : 512 * 512 ^ k * (512 * q) ≤ 512 * 512 ^ k * (512 * q + i) := Nat.mul_le_mul_left _ (by omega)
  have hle2 : 512 * 512 ^ k * (512 * q + i) ≤ 512 * 512 ^ k * (512 * q + (i + 1)) :=
    Nat.mul_le_mul_left _ (by omega)
  obtain ⟨d1, d2⟩ := copyAt_spec hs hk hp hva (by omega) (by omega) (hdown i hi) hI
    (hC.tab src hs ℓ q t hp ht) (hC.empty hd hempty hle1)
  refine ⟨fun hb => ?_, fun hb => ?_⟩
  · obtain ⟨a1, a2⟩ := d1 hb
    exact ⟨a1, hC.trans hne hs hle1 hle2 a2⟩
  · obtain ⟨a1, a2⟩ := d2 hb
    exact ⟨a1, hC.gaveUp a2⟩

theorem width_step (k q : Nat) : 512 * 512 ^ k * (512 * q) = 512 * 512 ^ (k + 1) * q := by
  rw [Nat.pow_succ, Nat.mul_assoc 512, Nat.mul_assoc 512, Nat.mul_assoc (512 ^ k)]

theorem width_step_succ (k q : Nat) : 512 * 512 ^ k * (512 * q + 512) = 512 * 512 ^ (k + 1) * (q + 1) :=
  width_step k (q + 1)

theorem copyPd_ok (hs : src ∈ roots) (hd : dst ∈ roots) (hne : src ≠ dst) {q : Nat} (hp : Place 2 q) :
    CopyOk roots kern dst src 2 q (512 * 512 ^ 1) (copyPd dst (2 ^ 30 * q)) := by
  intro vm t h ht hempty
  rw [← width_step] at hempty ⊢
  rw [← width_step_succ, copyPd]
  exact copyLoop_ok (ℓ := 2) (k := 0) (N := 512) (s := 21) (d := copyPt dst) hs hd hne rfl hp
    (v := 2 ^ 30 * q) rfl (by omega) (by omega)
    (fun i hi => copyPt_ok hs hd hne (hp.child (by omega) hi (by omega))) h ht hempty

theorem copyPdpt_ok (hs : src ∈ roots) (hd : dst ∈ roots) (hne : src ≠ dst) {q : Nat} (hp : Place 1 q) :
    CopyOk roots kern dst src 1 q (512 * 512 ^ 2) (copyPdpt dst (2 ^ 39 * q)) := by
  intro vm t h ht hempty
  rw [← width_step] at hempty ⊢
  rw [← width_step_succ, copyPdpt]
  exact copyLoop_ok (ℓ := 1) (k := 1) (N := 512) (s := 30) (d := copyPd dst) hs hd hne rfl hp
    (v := 2 ^ 39 * q) rfl (by omega) (by omega)
    (fun i hi => copyPd_ok hs hd hne (hp.child (by omega) hi (by omega))) h ht hempty

/-- **`vmm_copy_user`** into a task without pages: afterwards it sees what the source sees and nobody
else sees a change; when it gives up, only the destination has changed. -/
theorem VmInv.vmmCopyUser_spec (h : VmInv vm roots kern) (hs : src ∈ roots) (hd : dst ∈ roots)
    (hne : src ≠ dst) (hempty : ∀ n, n < userPages → absMem vm.mem dst n = none) :
    VmInv (vmmCopyUser vm dst src).1 roots kern ∧
      ((vmmCopyUser vm dst src).2 = true → ∀ r ∈ roots, ∀ n, n < userPages →
        absMem (vmmCopyUser vm dst src).1.mem r n =
          if r = dst then absMem vm.mem src n else absMem vm.mem r n) ∧
      GaveUp roots kern dst vm.mem (vmmCopyUser vm dst src).1.mem := by
  have hs0 := h.pt.root_owned hs
  have hd0 := h.pt.root_owned hd
  unfold vmmCopyUser
  rw [if_neg]
  · have hloop := copyLoop_ok hs hd hne (ℓ := 0) (q := 0) (k := 2) (N := hhdmPml4Index) (s := 39)
      (d := copyPdpt dst) rfl (place_root.2 rfl) (v := 0) rfl (by decide) (by decide)
      (fun i hi => copyPdpt_ok hs hd hne
        ((place_root.2 rfl).child (by omega) (Nat.lt_trans hi (by decide)) (Or.inr hi)))
      h (tab_zero ..) (fun n _ hn => hempty n hn)
    obtain ⟨h1, h2⟩ := hloop
    rcases hb : (loopTo (copyAt (copyPdpt dst) 39 0 src) hhdmPml4Index vm).2 with _ | _
    · obtain ⟨a1, a2⟩ := h2 hb
      exact ⟨a1, nofun, a2⟩
    · obtain ⟨a1, a2⟩ := h1 hb
      refine ⟨a1, fun _ r hr n hn => ?_, fun r hr hne n hn => ?_, a2.kern⟩
      · rw [a2.mem r hr n hn]
        by_cases hrd : r = dst
        · rw [if_pos hrd, if_pos ⟨hrd, Nat.zero_le n, hn⟩]
        · rw [if_neg hrd, if_neg (fun hx => hrd hx.1)]
      · rw [a2.mem r hr n hn, if_neg (fun hx => hne hx.1)]
  · rintro (h1 | h1 | h1 | h1 | h1 | h1)
    · exact hd0.ne_zero h.pt.ok h1
    · exact hs0.ne_zero h.pt.ok h1
    · exact hne h1.symm
    · exact hd0.ne_boot h.pt.ok h1
    · exact hs0.ne_boot h.pt.ok h1
    · rw [h.ready] at h1; cases h1

end

end VampireOS
