import VampireOS.Memory.Walk
import VampireOS.Memory.Store

/-!
# mmap is all-or-nothing (user.c:923-1132)

| here | there |
| --- | --- |
| `allocPage` | `alloc_page` (user.c:123) |
| `mmapPage` | the body of the loop of `user_mmap` that allocates, fills and maps one page |
| `mmapPagesOf`, `mmapLoop` | `user_mmap` (user.c:923) before and after the file is looked up |

The hint may lie anywhere but in the two kernel entries, so the pages are looked at through
`vmm_translate_user`: `seen vm cr3 a` is the physical address and the byte there.
-/

namespace VampireOS

open Lib

/-- A zeroed frame, or 0. -/
def allocPage (vm : Vm) : Nat × Vm :=
  let a := pmmAllocFrom vm.pmm page2M
  if a.1 = 0 then (0, vm) else (a.1, { vm with pmm := a.2, mem := zeroPage vm.mem a.1 })

/-- `for (i = 0; i < n; i++) dst[i] = data[off + i];` -/
def fillPage (m : Mem) (phys : Nat) (data : Nat → UInt8) (n : Nat) : Mem :=
  forTo (fun i m => setByte m (phys + i) (data i)) n m

/-- Page number `mapped` of the mapping; `false` leaves the loop. -/
def mmapPage (cr3 hint : Nat) (file : Option ((Nat → UInt8) × Nat)) (mapped : Nat) (vm : Vm) : Vm × Bool :=
  let a := allocPage vm
  if a.1 = 0 then (vm, false)
  else
    let off := mapped * pageSize
    let mem := file.elim a.2.mem fun f => fillPage a.2.mem a.1 (fun i => f.1 (off + i))
      (min (f.2 - off) pageSize)
    let res := vmmMapUser { a.2 with mem := mem } cr3 (hint + mapped * pageSize) a.1
    if res.2 then res else ({ res.1 with pmm := pmmFree res.1.pmm a.1 }, false)

/-- The checks of `user_mmap`: how many pages to map. -/
def mmapPagesOf (vm : Vm) (cr3 base hint len : Nat) : Option Nat :=
  if cr3 = 0 ∨ cr3 = pml4Phys ∨ base = 0 then none
  else
    (userPagesOf hint len).bind fun npages =>
      let heap := base + 2 * pageSize
      if (List.range npages).any fun i =>
          (heap ≤ hint + i * pageSize && hint + i * pageSize < heap + userHeapPages * pageSize) ||
            (vmmTranslateUser vm cr3 (hint + i * pageSize)).isSome then none
      else some npages

/-- Its loop; pages mapped before a failure are unmapped again, last first. -/
def mmapLoop (cr3 hint : Nat) (file : Option ((Nat → UInt8) × Nat)) : Nat → Vm → Vm × Bool :=
  loopTo fun mapped vm =>
    match mmapPage cr3 hint file mapped vm with
    | (vm, true) => (vm, true)
    | (vm, false) =>
      (forTo (fun j vm => (vmmUnmapUser vm cr3 (hint + (mapped - 1 - j) * pageSize)).1) mapped vm, false)

/-- What the task sees at `a`. -/
def seen (vm : Vm) (cr3 a : Nat) : Option (Nat × UInt8) :=
  (vmmTranslateUser vm cr3 a).map fun p => (p, vm.mem p)

/-- The tables of a task: a tree of user entries. -/
structure UserTree (vm : Vm) (r : Nat) : Prop extends WalkTree vm.mem vm.pmm r where
  user : UserOn vm.mem r walkPaths
  ready : vm.hhdmReady = true

/-- And what it maps is in use. -/
structure UserMap (vm : Vm) (r : Nat) : Prop extends UserTree vm r where
  live : ∀ f, MappedBy vm.mem r f → ¬ vm.pmm.Clear f

section
variable {vm vm' : Vm} {r cr3 phys i n hint : Nat} {pmm' : Pmm} {m' : Mem}

/-! ## Seeing -/

theorem slot_mapped {p : List Nat} (hp : p ∈ walkPaths) (hl : p.length = 3) (hi : i < 512) {f : Nat}
    (hs : slot vm.mem r p i = some f) : MappedBy vm.mem r f := by
  obtain ⟨pt, hpt, hleaf⟩ := Option.bind_eq_some_iff.1 hs
  unfold leafAddr at hleaf
  split at hleaf
  · rename_i hu
    refine ⟨p, hp, hl, pt, descend_user hpt, i, hi, ?_, Option.some.inj hleaf⟩
    simp only [userLeaf, Bool.and_eq_true, bne_iff_ne, ne_eq] at hu
    exact hu.1
  · cases hleaf

theorem mappedBy_page {f : Nat} (h : MappedBy vm.mem r f) : Page f := by
  obtain ⟨p, -, -, pt, -, i, -, -, rfl⟩ := h
  exact page_and_addr _

/-- An address is translated to a byte of a mapped frame. -/
theorem translate_mapped {a p : Nat} (ht : vmmTranslateUser vm cr3 a = some p) :
    ∃ f, MappedBy vm.mem (cr3OrBoot cr3) f ∧ p = f + a % pageSize := by
  rw [vmmTranslateUser_slot] at ht
  split at ht
  · cases ht
  · rename_i hc
    obtain ⟨f, hf, rfl⟩ := Option.map_eq_some_iff.1 ht
    have hk : kernelIndex a = false := Bool.eq_false_iff.2 fun hk => hc (.inl hk)
    have hm := slot_mapped (ptPath_mem hk) rfl (ptI_lt a) hf
    refine ⟨f, hm, ?_⟩
    rw [and_fff]
    exact or_flags_eq_add (mappedBy_page hm) (Nat.mod_lt _ (by decide))

theorem seen_congr {a : Nat} (ht : vmmTranslateUser vm' cr3 a = vmmTranslateUser vm cr3 a)
    (hb : ∀ f, MappedBy vm.mem (cr3OrBoot cr3) f → ∀ o, o < pageSize → vm'.mem (f + o) = vm.mem (f + o)) :
    seen vm' cr3 a = seen vm cr3 a := by
  unfold seen
  rw [ht]
  cases hp : vmmTranslateUser vm cr3 a with
  | none => rfl
  | some p =>
    obtain ⟨f, hf, rfl⟩ := translate_mapped hp
    rw [Option.map_some, Option.map_some, hb f hf _ (Nat.mod_lt _ (by decide))]

/-! ## Changes that leave the tables alone -/

/-- Memory that differs on no table. -/
theorem sameTables (hm : ∀ t, TableOf vm.mem r t → ∀ j, j < 512 → ent m' t j = ent vm.mem t j) :
    (∀ p ∈ walkPaths, descend (next tableEnt m') r p = descend (next tableEnt vm.mem) r p) ∧
      (∀ p ∈ walkPaths, ∀ i, i < 512 → slot m' r p i = slot vm.mem r p i) ∧
      (∀ f, MappedBy m' r f ↔ MappedBy vm.mem r f) ∧
      ∀ D ⊆ walkPaths, UserOn vm.mem r D → UserOn m' r D := by
  have hall : ∀ ok, (∀ x j s, next ok vm.mem x j = some s → next tableEnt vm.mem x j = some s) →
    ∀ p ∈ walkPaths,
      descend (next ok m') r p = descend (next ok vm.mem) r p := by
    intro ok hmono
    refine descend_congr walkPaths_closed fun j p t hp hd => ?_
    unfold next
    rw [hm t ⟨p, walkPaths_closed j p hp, descend_mono hmono hd⟩ j (walkPaths_index hp)]
  have htab := hall tableEnt fun _ _ _ h => h
  have huser := hall userTableEnt fun _ _ _ => next_user_next
  refine ⟨htab, fun p hp i hi => ?_, fun f => ?_, fun D hD hu j p t hjp hd hpres => ?_⟩
  · unfold slot leafAddr
    rw [huser p hp]
    cases hx : descend (next userTableEnt vm.mem) r p with
    | none => rw [Option.bind_none, Option.bind_none]
    | some x => rw [Option.bind_some, Option.bind_some, hm x ⟨p, hp, descend_user hx⟩ i hi]
  · refine exists_congr fun p => and_congr_right fun hp => and_congr_right fun _ => ?_
    rw [htab p hp]
    refine exists_congr fun pt => and_congr_right fun hpt => exists_congr fun i => and_congr_right
      fun hi => ?_
    rw [hm pt ⟨p, hp, hpt⟩ i hi]
  · have hp := walkPaths_closed j p (hD hjp)
    rw [htab p hp] at hd
    rw [hm t ⟨p, hp, hd⟩ j (walkPaths_index (hD hjp))] at hpres ⊢
    exact hu j p t hjp hd hpres

theorem clear_took {f : Nat} (h : vm.pmm.Took phys pmm') (hf : pmm'.Clear f) :
    vm.pmm.Clear f ∧ f / pageSize ≠ phys / pageSize := by
  obtain ⟨h1, h2⟩ := Pmm.mem_clear.1 hf
  rw [h.used] at h2
  split at h2
  · cases h2
  · rename_i hne
    exact ⟨Pmm.mem_clear.2 ⟨h.frames ▸ h1, h2⟩, hne⟩

/-- A fresh frame is taken and written. -/
theorem UserMap.scribble (h : UserMap vm r) (hal : vm.pmm.Took phys pmm') (hm : SameOff phys vm.mem m') :
    UserMap { vm with pmm := pmm', mem := m' } r ∧
      (∀ p ∈ walkPaths, ∀ i, i < 512 → slot m' r p i = slot vm.mem r p i) ∧
      ¬ TableOf m' r phys ∧ ¬ MappedBy m' r phys ∧ ¬ pmm'.Clear phys ∧
      ∀ f, MappedBy vm.mem r f → ∀ o, o < pageSize → m' (f + o) = vm.mem (f + o) := by
  have hclear : vm.pmm.Clear phys := Pmm.mem_clear.2 ⟨hal.below, hal.clear⟩
  have hnt : ¬ TableOf vm.mem r phys := fun ht => h.held phys ht hclear
  have hnm : ¬ MappedBy vm.mem r phys := fun hmp => h.live phys hmp hclear
  have hkeep : ∀ t, TableOf vm.mem r t → ∀ j, j < 512 → ent m' t j = ent vm.mem t j := by
    rintro t ⟨p, hp, hd⟩ j hj
    refine hm.ent hal.page (descend_page h.root hd) ?_ hj
    rintro rfl
    exact hnt ⟨p, hp, hd⟩
  obtain ⟨h1, h2, h3, h4⟩ := sameTables hkeep
  have htab := reached_congr h1
  refine ⟨⟨⟨⟨⟨hal.ok h.ok, h.root, h.once.congr h1, fun t ht hc => h.held t ((htab t).1 ht)
    (clear_took hal hc).1⟩, fun t ht hmp => h.apart t ((htab t).1 ht) ((h3 t).1 hmp)⟩,
    h4 _ (fun _ hp => hp) h.user, h.ready⟩, fun f hf hc => h.live f ((h3 f).1 hf)
    (clear_took hal hc).1⟩, h2, fun ht => hnt ((htab phys).1 ht),
    fun hmp => hnm ((h3 phys).1 hmp), fun hc => (clear_took hal hc).2 rfl, fun f hf o ho => ?_⟩
  refine hm.byte hal.page (mappedBy_page hf) ?_ ho
  rintro rfl
  exact hnm hf

theorem clear_free {f : Nat} (hok : vm.pmm.Ok) (hf : Page f) (hc : (pmmFree vm.pmm phys).Clear f) :
    vm.pmm.Clear f ∨ f = phys := by
  obtain ⟨h1, h2⟩ := Pmm.mem_clear.1 hc
  rw [Pmm.pmmFree_used hok] at h2
  rw [(Pmm.pmmFree_keeps _ _).frames] at h1
  split at h2
  · rename_i hfree
    right
    have := hfree.1
    simp only [Page, pageSize] at *
    omega
  · exact .inl (Pmm.mem_clear.2 ⟨h1, h2⟩)

theorem pmmFree_ok {p : Pmm} (hok : p.Ok) (phys : Nat) : (pmmFree p phys).Ok := by
  refine hok.of_keeps (Pmm.pmmFree_keeps _ _) fun g hg hr => ?_
  rw [Pmm.pmmFree_used hok, if_neg fun hc => ?_]
  · exact hok.reserved g hg hr
  · omega

/-- A frame that is neither a table nor mapped is freed. -/
theorem UserMap.free (h : UserMap vm r) (ht : ¬ TableOf vm.mem r phys) (hm : ¬ MappedBy vm.mem r phys) :
    UserMap { vm with pmm := pmmFree vm.pmm phys } r := by
  refine ⟨⟨⟨⟨pmmFree_ok h.ok phys, h.root, h.once, fun t htab hc => ?_⟩, h.apart⟩, h.user, h.ready⟩,
    fun f hf hc => ?_⟩
  · obtain ⟨p, hp, hd⟩ := htab
    rcases clear_free h.ok (descend_page h.root hd) hc with hc | rfl
    · exact h.held t ⟨p, hp, hd⟩ hc
    · exact ht ⟨p, hp, hd⟩
  · rcases clear_free h.ok (mappedBy_page hf) hc with hc | rfl
    · exact h.live f hf hc
    · exact hm hf

/-! ## Mapping and unmapping a page -/

variable {virt : Nat}

theorem userPath_of (h : UserTree vm r) (hk : kernelIndex virt = false) : UserPath vm.mem r virt :=
  fun j p t hs => h.user j p t (walkPaths_suffix (ptPath_mem hk) hs)

/-- A frame that is in use, no table and not mapped yet. -/
structure Loose (vm : Vm) (r f : Nat) : Prop where
  held : ¬ vm.pmm.Clear f
  table : ¬ TableOf vm.mem r f
  mapped : ¬ MappedBy vm.mem r f

/-- **`vmm_map_user`** of a loose frame: other pages look as before, in failure all of them. -/
theorem UserMap.map (h : UserMap vm (cr3OrBoot cr3)) (h64 : phys < 2 ^ 64)
    (hl : Loose vm (cr3OrBoot cr3) phys) {b : Bool} (he : vmmMapUser vm cr3 virt phys = (vm', b)) :
    UserMap vm' (cr3OrBoot cr3) ∧
      (∀ a, b = false ∨ vpn a ≠ vpn virt → seen vm' cr3 a = seen vm cr3 a) ∧
      (b = true → ∀ k, k < pageSize → seen vm' cr3 (virt + k) = some (phys + k, vm.mem (phys + k))) ∧
      (b = false → Loose vm' (cr3OrBoot cr3) phys) := by
  have hb : b = (vmmMapUser vm cr3 virt phys).2 := by rw [he]
  have hvm : vm' = (vmmMapUser vm cr3 virt phys).1 := by rw [he]
  have htree : WalkTree vm'.mem vm'.pmm (cr3OrBoot cr3) := by
    rw [hvm]
    exact vmmMapUser_tree h.toWalkTree h64 hl.table hl.held h.live
  -- a frame that was mapped, or is now
  have hbytes : ∀ {vm3 : Vm}, GrownTo vm vm3 (cr3OrBoot cr3) virt →
    ∀ f, MappedBy vm.mem (cr3OrBoot cr3) f ∨ f = phys →
      Page f → ∀ o, o < pageSize → vm3.mem (f + o) = vm.mem (f + o) := by
    intro vm3 hg f hf hp o ho
    rcases hf with hf | rfl
    · exact hg.bytes f hp (fun ht => h.apart f ht hf) (h.live f hf) o ho
    · exact hg.bytes f hp hl.table hl.held o ho
  rcases vmmMapUserFlags_grown h.toTableTree he with ⟨rfl, hg⟩ | ⟨rfl, hv, hp, hk, hr, vm3, pt, hg, ht, -, e⟩
  · have hnoc : ∀ f, vm'.pmm.Clear f → vm.pmm.Clear f := hg.clear
    refine ⟨⟨⟨htree, hg.user _ (fun _ hp => hp) h.user, hg.ready.trans h.ready⟩,
      fun f hf hc => h.live f (hg.mapped f hf) (hnoc f hc)⟩, fun a _ => ?_, nofun,
        fun _ => ⟨fun hc => hl.held (hnoc _ hc),
      fun ht => (hg.tables _ ht).elim hl.table hl.held, fun hm => hl.mapped (hg.mapped _ hm)⟩⟩
    by_cases hk : kernelIndex virt = true
    · have hnot : vmmMapUser vm cr3 virt phys = (vm, false) := by
        unfold vmmMapUser vmmMapUserFlags
        rw [if_pos hk, ite_self]
      rw [hvm, hnot]
    · refine seen_congr (translate_congr hg.ready fun hka => ?_) fun f hf => hbytes hg f (.inl hf)
        (mappedBy_page hf)
      exact hg.slots (userPath_of h.toUserTree (Bool.eq_false_iff.2 hk)) _ (ptPath_mem hka) rfl _ (ptI_lt a)
  · have hlt : phys ||| pteUserFlags < 2 ^ 64 := Nat.or_lt_two_pow h64 (by decide)
    obtain ⟨-, -, h3, -⟩ := set_leaf hg.tree (ptPath_mem hk) rfl ht (ptI_lt virt) hlt
    obtain ⟨t1, t2⟩ := vmmMapUser_map h.toTableTree h64 hb.symm
    rw [← hvm] at t1 t2
    have hm3 : ∀ f, MappedBy vm'.mem (cr3OrBoot cr3) f → MappedBy vm.mem (cr3OrBoot cr3) f ∨ f = phys := by
      intro f hf
      rw [e] at hf
      rcases h3 f hf with hf | ⟨-, hf⟩
      · exact .inl (hg.mapped f hf)
      · rw [or_flags_addr hp h64 userFlags_lt] at hf
        exact .inr hf
    have hpt : TableOf vm3.mem (cr3OrBoot cr3) pt := ⟨_, ptPath_mem hk, ht⟩
    have hkeep : ∀ f, MappedBy vm.mem (cr3OrBoot cr3) f ∨ f = phys → Page f → ∀ o, o < pageSize →
        vm'.mem (f + o) = vm.mem (f + o) := by
      intro f hf hpf o ho
      rw [e]
      refine ((sameOff_setEnt _ _ _ _ (ptI_lt virt)).byte (descend_page hg.tree.root ht) hpf ?_ ho).trans
        (hbytes hg f hf hpf o ho)
      rintro rfl
      rcases hg.tables f hpt with hpt | hpt <;> rcases hf with hf | rfl
      · exact h.apart f hpt hf
      · exact hl.table hpt
      · exact h.live f hf hpt
      · exact hl.held hpt
    refine ⟨⟨⟨htree, ?_, ?_⟩, fun f hf hc => ?_⟩, fun a ha => ?_, fun _ k hk' => ?_, nofun⟩
    · rw [e]
      intro j p t hjp hd hpres
      have hu3 := hg.user _ (fun _ hp => hp) h.user
      have hsub :=
        (set_leaf_tables hg.tree (ptPath_mem hk) rfl ht (ptI_lt virt)
          (e := phys ||| pteUserFlags)).1 p (walkPaths_closed j p hjp)
      rw [hsub] at hd
      rw [set_leaf_above _ hg.tree (ptPath_mem hk) rfl ht (ptI_lt virt) hjp hd] at hpres ⊢
      exact hu3 j p t hjp hd hpres
    · rw [e]
      exact hg.ready.trans h.ready
    · have hc' : vm.pmm.Clear f := by
        rw [e] at hc
        exact hg.clear f hc
      rcases hm3 f hf with hf | rfl
      · exact h.live f hf hc'
      · exact hl.held hc'
    · rcases ha with ha | ha
      · cases ha
      · exact seen_congr (t2 (userPath_of h.toUserTree hk) a ha) fun f hf => hkeep f (.inl hf)
          (mappedBy_page hf)
    · unfold seen
      rw [t1 k hk', Option.map_some, hkeep phys (.inr rfl) hp k hk']

/-- A page that translates can be unmapped. -/
theorem vmmUnmapUser_isSome (ha : virt % pageSize = 0) (hs : (vmmTranslateUser vm cr3 virt).isSome = true) :
    (vmmUnmapUser vm cr3 virt).2 = true := by
  rw [vmmTranslateUser_slot] at hs
  split at hs
  · cases hs
  · rename_i hc
    obtain ⟨hk, hr⟩ := not_or.1 hc
    rw [Option.isSome_map] at hs
    obtain ⟨f, hf⟩ := Option.isSome_iff_exists.1 hs
    obtain ⟨pt, hpt, hleaf⟩ := Option.bind_eq_some_iff.1 hf
    have hpres : ent vm.mem pt (ptI virt) &&& pdePresent ≠ 0 := by
      unfold leafAddr at hleaf
      split at hleaf
      · rename_i hu
        simp only [userLeaf, Bool.and_eq_true, bne_iff_ne, ne_eq] at hu
        exact hu.1
      · cases hleaf
    unfold vmmUnmapUser
    rw [and_fff, if_neg (not_not.2 ha), if_neg hk, if_neg hr, walkPt_descend, descend_user hpt]
    dsimp only
    rw [if_neg hpres]

/-- **`vmm_unmap_user`** of a page that translates: other pages look as before. -/
theorem UserTree.unmap (h : UserTree vm (cr3OrBoot cr3)) (ha : virt % pageSize = 0)
    (hs : (vmmTranslateUser vm cr3 virt).isSome = true) :
    (vmmUnmapUser vm cr3 virt).2 = true ∧ UserTree (vmmUnmapUser vm cr3 virt).1 (cr3OrBoot cr3) ∧
      (∀ a, vpn a ≠ vpn virt → seen (vmmUnmapUser vm cr3 virt).1 cr3 a = seen vm cr3 a) ∧
      ∀ k, k < pageSize → seen (vmmUnmapUser vm cr3 virt).1 cr3 (virt + k) = none := by
  have hok := vmmUnmapUser_isSome ha hs
  have htree : WalkTree (vmmUnmapUser vm cr3 virt).1.mem (vmmUnmapUser vm cr3 virt).1.pmm (cr3OrBoot cr3) :=
    vmmUnmapUser_tree h.toWalkTree
  obtain ⟨t1, t2⟩ := vmmUnmapUser_map h.toTableTree hok
  rcases vmmUnmapUser_leaf vm cr3 virt with e | ⟨pt, -, hk, ht, -, e⟩
  · rw [e] at hok
    cases hok
  · obtain ⟨hmem, hready⟩ := cowFreeLeaf_mem { vm with mem := setEnt vm.mem pt (ptI virt) 0 }
      (ent vm.mem pt (ptI virt) &&& addrMask)
    rw [e] at htree t1 t2 ⊢
    generalize cowFreeLeaf { vm with mem := setEnt vm.mem pt (ptI virt) 0 }
      (ent vm.mem pt (ptI virt) &&& addrMask) = vm' at hmem hready htree t1 t2
    refine ⟨rfl, ⟨htree, ?_, hready.trans h.ready⟩, fun a hav => seen_congr (t2 a hav) fun f hf o
      ho => ?_, fun k hk' => ?_⟩
    · intro j p t hjp hd hpres
      change descend (next tableEnt vm'.mem) _ p = some t at hd
      change ent vm'.mem t j &&& pdePresent ≠ 0 at hpres
      change ent vm'.mem t j &&& pteUser ≠ 0
      rw [hmem] at hd hpres ⊢
      simp only at hd hpres ⊢
      rw [(set_leaf_tables h.toTableTree (ptPath_mem hk) rfl ht (ptI_lt virt)).1 p
        (walkPaths_closed j p hjp)] at hd
      rw [set_leaf_above _ h.toTableTree (ptPath_mem hk) rfl ht (ptI_lt virt) hjp hd] at hpres ⊢
      exact h.user j p t hjp hd hpres
    · change vm'.mem (f + o) = _
      rw [hmem]
      refine (sameOff_setEnt _ _ _ _ (ptI_lt virt)).byte (descend_page h.root ht) (mappedBy_page hf) ?_ ho
      rintro rfl
      exact h.apart _ ⟨_, ptPath_mem hk, ht⟩ hf
    · unfold seen
      rw [t1 k hk', Option.map_none]

/-! ## One page of a mapping -/

theorem fillPage_spec (m : Mem) (p : Nat) (data : Nat → UInt8) (n : Nat) (hn : n ≤ pageSize) :
    SameOff p m (fillPage m p data n) ∧
      ∀ o, fillPage m p data n (p + o) = if o < n then data o else m (p + o) := by
  induction n with
  | zero => exact ⟨SameOff.refl p m, fun o => by rw [if_neg (Nat.not_lt_zero o)]; rfl⟩
  | succ n ih =>
    obtain ⟨h1, h2⟩ := ih (by omega)
    have hstep : fillPage m p data (n + 1) = setByte (fillPage m p data n) (p + n) (data n) := rfl
    rw [hstep]
    refine ⟨h1.trans (sameOff_setByte _ p n _ (by omega)), fun o => ?_⟩
    unfold setByte
    by_cases ho : o = n
    · subst ho
      rw [if_pos rfl, if_pos (Nat.lt_succ_self o)]
    · rw [if_neg (by omega), h2]
      by_cases hlt : o < n
      · rw [if_pos hlt, if_pos (by omega)]
      · rw [if_neg hlt, if_neg (by omega)]

theorem allocPage_spec (hok : vm.pmm.Ok) : allocPage vm = (0, vm) ∨
    ∃ phys pmm', phys ≠ 0 ∧ vm.pmm.Took phys pmm' ∧
      allocPage vm = (phys, { vm with pmm := pmm', mem := zeroPage vm.mem phys }) := by
  unfold allocPage
  rcases pmmAllocFrom_spec vm.pmm hok page2M with e | ⟨hne, hal⟩
  · rw [e]
    exact .inl rfl
  · exact .inr ⟨_, _, hne, hal, if_neg hne⟩

/-- Byte `x` of a mapping: of the file, and zero past its end. -/
def fileByte (file : Option ((Nat → UInt8) × Nat)) (x : Nat) : UInt8 :=
  file.elim 0 fun f => if x < f.2 then f.1 x else 0

theorem seen_pmm (vm : Vm) (cr3 a : Nat) (p : Pmm) : seen { vm with pmm := p } cr3 a = seen vm cr3 a := by
  have h : vmmTranslateUser { vm with pmm := p } cr3 a = vmmTranslateUser vm cr3 a :=
    translate_congr rfl fun _ => rfl
  unfold seen
  rw [h]

/-- **One page** is allocated, filled and mapped, or nothing is seen of it. -/
theorem mmapPage_spec (h : UserMap vm (cr3OrBoot cr3)) {file : Option ((Nat → UInt8) × Nat)} {b : Bool}
    (he : mmapPage cr3 hint file i vm = (vm', b)) :
    UserMap vm' (cr3OrBoot cr3) ∧
      (∀ a, b = false ∨ vpn a ≠ vpn (hint + i * pageSize) → seen vm' cr3 a = seen vm cr3 a) ∧
      (b = true → ∀ k, k < pageSize →
        ∃ p, seen vm' cr3 (hint + i * pageSize + k) = some (p, fileByte file (i * pageSize + k))) := by
  unfold mmapPage at he
  rcases allocPage_spec h.ok with e | ⟨phys, pmm', hne, hal, e⟩
  · rw [e] at he
    cases he
    exact ⟨h, fun _ _ => rfl, nofun⟩
  · rw [e] at he
    simp only [if_neg hne] at he
    -- the fresh frame holds its part of the file
    obtain ⟨m1, hm1, hoff, hbytes⟩ : ∃ m1, (file.elim (zeroPage vm.mem phys) fun f =>
        fillPage (zeroPage vm.mem phys) phys (fun j => f.1 (i * pageSize + j))
          (min (f.2 - i * pageSize) pageSize)) = m1 ∧
        SameOff phys vm.mem m1 ∧ ∀ k, k < pageSize → m1 (phys + k) = fileByte file (i * pageSize + k) := by
      refine ⟨_, rfl, ?_⟩
      cases file with
      | none => exact ⟨sameOff_zeroPage _ _, fun k hk => zeroPage_at _ _ hk⟩
      | some f =>
        obtain ⟨h1, h2⟩ := fillPage_spec (zeroPage vm.mem phys) phys (fun j => f.1 (i * pageSize + j))
          (min (f.2 - i * pageSize) pageSize) (Nat.min_le_right _ _)
        refine ⟨(sameOff_zeroPage _ _).trans h1, fun k hk => (h2 k).trans ?_⟩
        rw [zeroPage_at _ _ hk]
        simp only [fileByte, Option.elim_some]
        congr 1
        exact propext (by omega)
    rw [hm1] at he
    obtain ⟨a1, a2, a3, a4, a5, a6⟩ := h.scribble hal hoff
    have h64 : phys < 2 ^ 64 := by
      have := (hal.owned h.ok).lt (hal.ok h.ok)
      omega
    rcases hmap : vmmMapUser { vm with pmm := pmm', mem := m1 } cr3 (hint + i * pageSize) phys with ⟨vm2, b2⟩
    obtain ⟨b1, b3, b4, b5⟩ := a1.map h64 ⟨a5, a3, a4⟩ hmap
    rw [hmap] at he
    have hseen : ∀ a, seen { vm with pmm := pmm', mem := m1 } cr3 a = seen vm cr3 a := fun a =>
      seen_congr (translate_congr rfl fun hka => a2 _ (ptPath_mem hka) _ (ptI_lt a)) a6
    cases b2 with
    | true =>
      cases he
      refine ⟨b1, fun a ha => (b3 a ha).trans (hseen a), fun _ k hk => ⟨phys + k, ?_⟩⟩
      rw [b4 rfl k hk]
      simp only
      rw [hbytes k hk]
    | false =>
      cases he
      obtain ⟨c1, c2, c3⟩ := b5 rfl
      refine ⟨b1.free c2 c3, fun a _ => ?_, nofun⟩
      rw [seen_pmm, b3 a (.inl rfl), hseen]

/-! ## The loop and its unwinding -/

theorem page_ne {j : Nat} (ha : hint % pageSize = 0) (hi : i < userMmapPages)
    (hj : j < userMmapPages) (hne : i ≠ j) :
    vpn (hint + i * pageSize) ≠ vpn (hint + j * pageSize) := by
  simp only [vpn, pageSize, userMmapPages] at *
  omega

theorem page_vpn {k : Nat} (ha : hint % pageSize = 0) (hk : k < pageSize) :
    vpn (hint + i * pageSize + k) = vpn (hint + i * pageSize) := by
  refine vpn_within ?_ hk
  rw [Nat.add_mul_mod_self_right]
  exact ha

/-- What is seen depends on the page and the offset. -/
theorem seen_vpn {a b : Nat} (hv : vpn a = vpn b) (ho : a % pageSize = b % pageSize) :
    seen vm cr3 a = seen vm cr3 b := by
  have h : vmmTranslateUser vm cr3 a = vmmTranslateUser vm cr3 b := by
    obtain ⟨e1, e2⟩ := path_eq_iff.2 hv
    rw [vmmTranslateUser_slot, vmmTranslateUser_slot, kernelIndex_congr hv, e1, e2, and_fff, and_fff, ho]
  unfold seen
  rw [h]

theorem seen_none {a b : Nat} (hv : vpn a = vpn b) (hn : vmmTranslateUser vm cr3 b = none) :
    seen vm cr3 a = none := by
  have h : vmmTranslateUser vm cr3 a = none := by
    obtain ⟨e1, e2⟩ := path_eq_iff.2 hv
    rw [vmmTranslateUser_slot] at hn ⊢
    rw [kernelIndex_congr hv, e1, e2]
    split
    · rfl
    · rename_i hc
      rw [if_neg hc, Option.map_eq_none_iff] at hn
      rw [hn, Option.map_none]
  unfold seen
  rw [h, Option.map_none]

theorem seen_isSome {a : Nat} : (seen vm cr3 a).isSome = (vmmTranslateUser vm cr3 a).isSome :=
  Option.isSome_map

/-- The first `i` pages are mapped, with what the file holds; other pages look as in `vm`. -/
structure Filled (vm : Vm) (cr3 hint : Nat) (file : Option ((Nat → UInt8) × Nat)) (i : Nat)
    (vm' : Vm) : Prop where
  ok : UserMap vm' (cr3OrBoot cr3)
  old : ∀ a, (∀ j, j < i → vpn a ≠ vpn (hint + j * pageSize)) → seen vm' cr3 a = seen vm cr3 a
  new : ∀ j, j < i → ∀ k, k < pageSize →
    ∃ p, seen vm' cr3 (hint + j * pageSize + k) = some (p, fileByte file (j * pageSize + k))

theorem Filled.next {vm1 vm2 : Vm} {file : Option ((Nat → UInt8) × Nat)} (ha : hint % pageSize = 0)
    (hi : i < userMmapPages) (h : Filled vm cr3 hint file i vm1)
    (he : mmapPage cr3 hint file i vm1 = (vm2, true)) :
    Filled vm cr3 hint file (i + 1) vm2 := by
  obtain ⟨a1, a2, a3⟩ := mmapPage_spec h.ok he
  refine ⟨a1, fun a hn => ?_, fun j hj k hk => ?_⟩
  · rw [a2 a (.inr (hn i (by omega)))]
    exact h.old a fun j hj => hn j (by omega)
  · by_cases hji : j = i
    · subst hji
      exact a3 rfl k hk
    · rw [a2 _ (.inr (by rw [page_vpn ha hk]; exact page_ne ha (by omega) hi hji))]
      exact h.new j (by omega) k hk

/-- **The unwinding** leaves nothing of the mapping. -/
theorem Filled.unwind {vm1 vm2 : Vm} {file : Option ((Nat → UInt8) × Nat)}
    (ha : hint % pageSize = 0) (hi : i < userMmapPages)
    (hfree : ∀ j, j < i → vmmTranslateUser vm cr3 (hint + j * pageSize) = none)
    (h : Filled vm cr3 hint file i vm1) (he : mmapPage cr3 hint file i vm1 = (vm2, false))
      (a : Nat) :
    seen (forTo (fun j vm => (vmmUnmapUser vm cr3 (hint + (i - 1 - j) * pageSize)).1) i vm2) cr3 a =
    seen vm cr3 a := by
  obtain ⟨a1, a2, -⟩ := mmapPage_spec h.ok he
  have hrun := forTo_inv (f := fun j vm => (vmmUnmapUser vm cr3 (hint + (i - 1 - j) * pageSize)).1)
    (n := i) (s := vm2) (fun d w => UserTree w (cr3OrBoot cr3) ∧
      (∀ a, (∀ j, j < i - d → vpn a ≠ vpn (hint + j * pageSize)) → seen w cr3 a = seen vm cr3 a) ∧
      ∀ j, j < i - d → (vmmTranslateUser w cr3 (hint + j * pageSize)).isSome = true)
    ⟨a1.toUserTree, fun a hn => (a2 a (.inl rfl)).trans (h.old a hn), fun j hj => by
      obtain ⟨p, hp⟩ := h.new j hj 0 (by decide)
      rw [← seen_isSome, a2 _ (.inl rfl)]
      rw [Nat.add_zero] at hp
      rw [hp]
      rfl⟩ ?_
  · exact hrun.2.1 a fun j hj => by omega
  · rintro d w hd ⟨b1, b2, b3⟩
    have hpage : (hint + (i - 1 - d) * pageSize) % pageSize = 0 := by
      rw [Nat.add_mul_mod_self_right]
      exact ha
    obtain ⟨-, c2, c3, c4⟩ := b1.unmap hpage (b3 (i - 1 - d) (by omega))
    refine ⟨c2, fun a hn => ?_, fun j hj => ?_⟩
    · by_cases hv : vpn a = vpn (hint + (i - 1 - d) * pageSize)
      · have hoff := page_vpn (i := i - 1 - d) ha (Nat.mod_lt a (show 0 < pageSize by decide))
        rw [seen_vpn (b := hint + (i - 1 - d) * pageSize + a % pageSize) (hv.trans hoff.symm)
          (by rw [Nat.add_mod, hpage, Nat.zero_add, Nat.mod_mod, Nat.mod_mod]),
            c4 _ (Nat.mod_lt _ (by decide)),
          seen_none hv (hfree _ (by omega))]
      · rw [c3 a hv]
        refine b2 a fun j hj => ?_
        by_cases hjd : j = i - 1 - d
        · rw [hjd]
          exact hv
        · exact hn j (by omega)
    · rw [← seen_isSome, c3 _ (page_ne ha (by omega) (by omega) (by omega)), seen_isSome]
      exact b3 j (by omega)

/-- **The loop** maps all pages or leaves no trace. -/
theorem mmapLoop_spec {file : Option ((Nat → UInt8) × Nat)} (h : UserMap vm (cr3OrBoot cr3))
    (ha : hint % pageSize = 0) (hn : n ≤ userMmapPages)
    (hfree : ∀ j, j < n → vmmTranslateUser vm cr3 (hint + j * pageSize) = none) :
    ((mmapLoop cr3 hint file n vm).2 = true → Filled vm cr3 hint file n (mmapLoop cr3 hint file n vm).1) ∧
      ((mmapLoop cr3 hint file n vm).2 = false → ∀ a, seen (mmapLoop cr3 hint file n vm).1 cr3 a =
      seen vm cr3 a) := by
  unfold mmapLoop
  refine loopTo_inv (fun i w => Filled vm cr3 hint file i w) (fun w => ∀ a, seen w cr3 a = seen vm cr3 a)
    ⟨h, fun _ _ => rfl, fun j hj => absurd hj (Nat.not_lt_zero j)⟩ fun i w hi hw => ?_
  rcases he : mmapPage cr3 hint file i w with ⟨w', _ | _⟩
  · exact ⟨nofun, fun _ a => hw.unwind ha (by omega) (fun j hj => hfree j (by omega)) he a⟩
  · exact ⟨fun _ => hw.next ha (by omega) he, nofun⟩

/-! ## Giving a page back, and protecting it -/

theorem leafPte_congr {a b : Nat} (hv : vpn a = vpn b) : vmmLeafPte vm cr3 a = vmmLeafPte vm cr3 b := by
  obtain ⟨e1, e2⟩ := path_eq_iff.2 hv
  unfold vmmLeafPte
  rw [kernelIndex_congr hv, walkPt_descend, walkPt_descend, e1, e2]

/-- A page that translates has a leaf. -/
theorem leaf_of_translate (hs : (vmmTranslateUser vm cr3 virt).isSome = true) : ∃ pt,
    vmmLeafPte vm cr3 virt = some (pt, ptI virt) ∧ kernelIndex virt = false ∧
      descend (next userTableEnt vm.mem) (cr3OrBoot cr3) (ptPath virt) = some pt ∧
      userLeaf (ent vm.mem pt (ptI virt)) = true := by
  unfold vmmTranslateUser at hs
  rw [Option.isSome_map] at hs
  unfold vmmLeafPte at hs ⊢
  split at hs
  · cases hs
  · rename_i hk
    split at hs
    · cases hs
    · rename_i hr
      rw [if_neg hk, if_neg hr]
      rw [walkPt_descend] at hs ⊢
      cases ht : descend (next userTableEnt vm.mem) (cr3OrBoot cr3) (ptPath virt) with
      | none =>
        rw [ht] at hs
        cases hs
      | some pt =>
        rw [ht] at hs
        simp only at hs ⊢
        split at hs
        · rename_i hl
          exact ⟨pt, if_pos hl, Bool.eq_false_iff.2 hk, rfl, hl⟩
        · cases hs

theorem protect_flags (wr : Bool) (k : Nat) : ∃ flags, (if wr = true then
      if k ≤ 1 then pteUserRo ||| pteWantWrite ||| pdeWrite else pteUserRo ||| pteWantWrite
    else pteUserRo) = flags ∧ flags < pageSize ∧ userLeaf flags = true := by
  refine ⟨_, rfl, ?_⟩
  split
  · split <;> exact ⟨by decide, by decide⟩
  · exact ⟨by decide, by decide⟩

theorem userLeaf_or (leaf : Nat) {flags : Nat} (h : userLeaf flags = true) :
    userLeaf (leaf ||| flags) = true := by
  simp only [userLeaf, Bool.and_eq_true, bne_iff_ne, ne_eq] at h ⊢
  rw [Nat.and_or_distrib_right, Nat.and_or_distrib_right, Nat.or_eq_zero_iff, Nat.or_eq_zero_iff]
  exact ⟨fun hc => h.1 hc.2, fun hc => h.2 hc.2⟩

/-- **`vmm_protect_user`** of a page that translates: the same addresses translate, to the same frames. -/
theorem UserTree.protect (h : UserTree vm (cr3OrBoot cr3))
    (hs : (vmmTranslateUser vm cr3 virt).isSome = true) (wr : Bool) :
    (vmmProtectUser vm cr3 virt wr).2 = true ∧ UserTree (vmmProtectUser vm cr3 virt wr).1 (cr3OrBoot cr3) ∧
      ∀ a, vmmTranslateUser (vmmProtectUser vm cr3 virt wr).1 cr3 a = vmmTranslateUser vm cr3 a := by
  obtain ⟨pt, hpt, hk, hu, hl⟩ := leaf_of_translate hs
  obtain ⟨flags, hf, hlt, hleaf⟩ :=
    protect_flags wr (cowRefs vm.cowTab (ent vm.mem pt (ptI virt) &&& addrMask))
  unfold vmmProtectUser
  rw [leafPte_congr (vpn_addr virt), hpt]
  simp only
  rw [hf]
  have hpage := page_and_addr (ent vm.mem pt (ptI virt))
  have h64 : ent vm.mem pt (ptI virt) &&& addrMask < 2 ^ 64 := lt_of_le_of_lt Nat.and_le_left (ent_lt _ _ _)
  have haddr : ((ent vm.mem pt (ptI virt) &&& addrMask) ||| flags) &&& addrMask = ent vm.mem pt
      (ptI virt) &&& addrMask :=
    or_flags_addr hpage h64 hlt
  have hle : (ent vm.mem pt (ptI virt) &&& addrMask) ||| flags < 2 ^ 64 :=
    Nat.or_lt_two_pow h64 (lt_trans hlt (by decide))
  have hul := userLeaf_or (ent vm.mem pt (ptI virt) &&& addrMask) hleaf
  have ht := descend_user hu
  have hpres : ent vm.mem pt (ptI virt) &&& pdePresent ≠ 0 := by
    simp only [userLeaf, Bool.and_eq_true, bne_iff_ne, ne_eq] at hl
    exact hl.1
  obtain ⟨h1, h2, h3, h4⟩ := set_leaf h.toTableTree (ptPath_mem hk) rfl ht (ptI_lt virt) hle
  refine ⟨trivial, ⟨⟨h1, fun t htab hm => ?_⟩, fun j p t hjp hd hp => ?_, h.ready⟩, fun a => ?_⟩
  · refine h.apart t ((h2 t).1 htab) ?_
    rcases h3 t hm with hm | ⟨-, e⟩
    · exact hm
    · rw [e, haddr]
      exact ⟨_, ptPath_mem hk, rfl, pt, ht, _, ptI_lt virt, hpres, rfl⟩
  · simp only at hd hp ⊢
    rw [(set_leaf_tables h.toTableTree (ptPath_mem hk) rfl ht (ptI_lt virt)).1 p
      (walkPaths_closed j p hjp)] at hd
    rw [set_leaf_above _ h.toTableTree (ptPath_mem hk) rfl ht (ptI_lt virt) hjp hd] at hp ⊢
    exact h.user j p t hjp hd hp
  · refine translate_congr rfl fun hka => ?_
    simp only
    rw [h4 _ (ptPath_mem hka) rfl _ (ptI_lt a), if_pos hul, haddr, hu, Option.bind_some]
    split
    · rename_i hpa
      unfold slot leafAddr
      rw [hpa.1, hpa.2, hu, Option.bind_some, if_pos hl]
    · rfl

/-! ## The calls -/

theorem and_addrMask_div (a : Nat) : (a &&& addrMask) / pageSize = a / pageSize % 2 ^ 52 := by
  rw [show pageSize = 2 ^ 12 from rfl, ← Nat.shiftRight_eq_div_pow, ← Nat.shiftRight_eq_div_pow,
    Nat.shiftRight_and_distrib, show addrMask >>> 12 = 2 ^ 52 - 1 from rfl,
    Nat.and_two_pow_sub_one_eq_mod]

theorem pageUp_small {len : Nat} (h : len ≤ userMmapPages * pageSize) :
    pageUp len / pageSize = (len + pageSize - 1) / pageSize := by
  unfold pageUp
  rw [and_addrMask_div]
  simp only [userMmapPages, pageSize] at *
  omega

/-- What the checks on `va` and `len` let through. -/
theorem userPagesOf_eq {va len : Nat} (h : userPagesOf va len = some n) :
    va % pageSize = 0 ∧ n = (len + pageSize - 1) / pageSize ∧ n ≤ userMmapPages := by
  have hn := userPagesOf_some h
  unfold userPagesOf at h
  split at h
  · cases h
  · rename_i hva
    split at h
    · cases h
    · rename_i hlen
      simp only at h
      split at h
      · cases h
      · split at h
        · cases h
        · refine ⟨?_, ?_, hn.2⟩
          · have := not_or.1 hva
            rw [and_fff] at this
            exact not_not.1 this.2
          · rw [← Option.some.inj h]
            exact pageUp_small (by omega)

theorem mmapPagesOf_eq {base len : Nat} (h : mmapPagesOf vm cr3 base hint len = some n) :
    hint % pageSize = 0 ∧ n = (len + pageSize - 1) / pageSize ∧ n ≤ userMmapPages ∧
      ∀ j, j < n → vmmTranslateUser vm cr3 (hint + j * pageSize) = none := by
  unfold mmapPagesOf at h
  split at h
  · cases h
  · obtain ⟨k, hk, h⟩ := Option.bind_eq_some_iff.1 h
    simp only at h
    split at h
    · cases h
    · rename_i hany
      cases h
      obtain ⟨h1, h2, h3⟩ := userPagesOf_eq hk
      refine ⟨h1, h2, h3, fun j hj => ?_⟩
      rw [List.any_eq_true] at hany
      by_contra hne
      exact hany ⟨j, List.mem_range.2 hj, by rw [Option.isSome_iff_ne_none.2 hne, Bool.or_true]⟩

/-- The pages were all found to translate: the loop of `user_munmap` takes them all away. -/
theorem unmapLoop_spec (h : UserTree vm (cr3OrBoot cr3)) (ha : hint % pageSize = 0)
    (hn : n ≤ userMmapPages)
    (hall : ∀ j, j < n → (vmmTranslateUser vm cr3 (hint + j * pageSize)).isSome = true) :
    (loopTo (fun i vm => vmmUnmapUser vm cr3 (hint + i * pageSize)) n vm).2 = true ∧
      (∀ j, j < n → seen (loopTo (fun i vm => vmmUnmapUser vm cr3 (hint + i * pageSize)) n vm).1 cr3
        (hint + j * pageSize) = none) ∧
      ∀ a, (∀ j, j < n → vpn a ≠ vpn (hint + j * pageSize)) →
        seen (loopTo (fun i vm => vmmUnmapUser vm cr3 (hint + i * pageSize)) n vm).1 cr3 a =
        seen vm cr3 a := by
  have hrun := loopTo_inv (f := fun i vm => vmmUnmapUser vm cr3 (hint + i * pageSize)) (n := n) (s := vm)
    (fun i w => UserTree w (cr3OrBoot cr3) ∧ (∀ j, j < i → seen w cr3 (hint + j * pageSize) = none) ∧
      ∀ a, (∀ j, j < i → vpn a ≠ vpn (hint + j * pageSize)) → seen w cr3 a = seen vm cr3 a) (fun _ => False)
    ⟨h, fun j hj => absurd hj (Nat.not_lt_zero j), fun _ _ => rfl⟩ fun i w hi hw => ?_
  · have hok := Bool.eq_true_of_not_eq_false hrun.2
    obtain ⟨-, h2, h3⟩ := hrun.1 hok
    exact ⟨hok, h2, h3⟩
  · obtain ⟨b1, b2, b3⟩ := hw
    -- page `i` is none of those already gone
    have hs : (vmmTranslateUser w cr3 (hint + i * pageSize)).isSome = true := by
      rw [← seen_isSome, b3 _ fun j hj => page_ne ha (by omega) (by omega) (by omega), seen_isSome]
      exact hall i hi
    obtain ⟨c1, c2, c3, c4⟩ := b1.unmap (by rw [Nat.add_mul_mod_self_right]; exact ha) hs
    refine ⟨fun _ => ⟨c2, fun j hj => ?_, fun a hn => ?_⟩, fun hf => ?_⟩
    · by_cases hji : j = i
      · have := c4 0 (by decide)
        rw [Nat.add_zero] at this
        rw [hji]
        exact this
      · rw [c3 _ (page_ne ha (by omega) (by omega) hji)]
        exact b2 j (by omega)
    · rw [c3 a (hn i (by omega))]
      exact b3 a fun j hj => hn j (by omega)
    · rw [c1] at hf
      cases hf

/-- Nor does that of `user_mprotect`. -/
theorem protectLoop_true (h : UserTree vm (cr3OrBoot cr3)) (wr : Bool)
    (hall : ∀ j, j < n → (vmmTranslateUser vm cr3 (hint + j * pageSize)).isSome = true) :
    (loopTo (fun i vm => vmmProtectUser vm cr3 (hint + i * pageSize) wr) n vm).2 = true := by
  have hrun := loopTo_inv (f := fun i vm => vmmProtectUser vm cr3 (hint + i * pageSize) wr) (n := n) (s := vm)
    (fun _ w => UserTree w (cr3OrBoot cr3) ∧ ∀ a, vmmTranslateUser w cr3 a = vmmTranslateUser vm cr3
      a) (fun _ => False)
    ⟨h, fun _ => rfl⟩ fun i w hi hw => ?_
  · exact Bool.eq_true_of_not_eq_false hrun.2
  · have hs : (vmmTranslateUser w cr3 (hint + i * pageSize)).isSome = true := by
      rw [hw.2]
      exact hall i hi
    obtain ⟨c1, c2, c3⟩ := hw.1.protect hs wr
    refine ⟨fun _ => ⟨c2, fun a => (c3 a).trans (hw.2 a)⟩, fun hf => ?_⟩
    rw [c1] at hf
    cases hf

/-- **`user_munmap`** fails before it changes anything. -/
theorem userMunmap_failed {base va len : Nat} (h : UserTree vm (cr3OrBoot cr3))
    (hf : (userMunmap vm cr3 base va len).2 = false) :
    userMunmap vm cr3 base va len = (vm, false) := by
  unfold userMunmap at hf ⊢
  split
  · rfl
  · rename_i hc
    rw [if_neg hc] at hf
    cases hu : userPagesOf va len with
    | none => rfl
    | some n =>
      rw [hu] at hf
      simp only at hf ⊢
      split
      · rename_i hall
        rw [if_pos hall] at hf
        obtain ⟨h1, -, h3⟩ := userPagesOf_eq hu
        have := unmapLoop_spec h h1 h3 fun j hj =>
          (Bool.and_eq_true_iff.1 (List.all_eq_true.1 hall j (List.mem_range.2 hj))).2
        rw [this.1] at hf
        cases hf
      · rfl

/-- So does **`user_mprotect`**. -/
theorem userMprotect_failed {va len prot : Nat} (h : UserTree vm (cr3OrBoot cr3))
    (hf : (userMprotect vm cr3 va len prot).2 = false) :
    userMprotect vm cr3 va len prot = (vm, false) := by
  unfold userMprotect at hf ⊢
  split
  · rfl
  · rename_i hc
    rw [if_neg hc] at hf
    cases hu : userPagesOf va len with
    | none => rfl
    | some n =>
      cases hp : protWr prot with
      | none => rfl
      | some wr =>
        rw [hu, hp] at hf
        simp only at hf ⊢
        split
        · rename_i hall
          rw [if_pos hall] at hf
          have := protectLoop_true h wr fun j hj => List.all_eq_true.1 hall j (List.mem_range.2 hj)
          rw [this] at hf
          cases hf
        · rfl

/-- **`user_munmap`** that succeeds: its pages are gone, other pages look as before. -/
theorem userMunmap_done {base va len : Nat} (h : UserTree vm (cr3OrBoot cr3))
    (hs : (userMunmap vm cr3 base va len).2 = true) :
    (∀ i, i < (len + pageSize - 1) / pageSize → (vmmTranslateUser vm cr3 (va + i * pageSize)).isSome = true ∧
        seen (userMunmap vm cr3 base va len).1 cr3 (va + i * pageSize) = none) ∧
      ∀ a, (∀ i, i < (len + pageSize - 1) / pageSize → vpn a ≠ vpn (va + i * pageSize)) →
        seen (userMunmap vm cr3 base va len).1 cr3 a = seen vm cr3 a := by
  unfold userMunmap at hs ⊢
  split
  · rename_i hc
    rw [if_pos hc] at hs
    cases hs
  · rename_i hc
    rw [if_neg hc] at hs
    cases hu : userPagesOf va len with
    | none =>
      rw [hu] at hs
      cases hs
    | some n =>
      obtain ⟨h1, h2, h3⟩ := userPagesOf_eq hu
      rw [← h2]
      rw [hu] at hs
      simp only at hs ⊢
      split
      · rename_i hall
        rw [if_pos hall] at hs
        have htr : ∀ i, i < n → (vmmTranslateUser vm cr3 (va + i * pageSize)).isSome = true := fun i hi =>
          (Bool.and_eq_true_iff.1 (List.all_eq_true.1 hall i (List.mem_range.2 hi))).2
        obtain ⟨-, a1, a2⟩ := unmapLoop_spec h h1 h3 htr
        exact ⟨fun i hi => ⟨htr i hi, a1 i hi⟩, a2⟩
      · rename_i hall
        rw [if_neg hall] at hs
        cases hs

end

/-! ## The tables of a task -/

section
variable {vm : Vm} {roots kern : Finset Nat} {r t f : Nat}

/-- The number of the place that a path leads to. -/
def pathNum : List Nat → Nat
  | [] => 0
  | i :: p => 512 * pathNum p + i

theorem pathNum_inj :
    ∀ {p q : List Nat}, p ∈ walkPaths → q ∈ walkPaths → p.length = q.length →
    pathNum p = pathNum q → p = q
  | [], [], _, _, _, _ => rfl
  | [], _ :: _, _, _, hl, _ => by simp at hl
  | _ :: _, [], _, _, hl, _ => by simp at hl
  | i :: p, j :: q, hp, hq, hl, hn => by
    have hi := walkPaths_index hp
    have hj := walkPaths_index hq
    simp only [pathNum] at hn
    have hij : i = j := by omega
    have hpq : p = q := pathNum_inj (walkPaths_closed i p hp) (walkPaths_closed j q hq)
      (by simpa using hl) (by omega)
    rw [hij, hpq]

/-- An entry between the user half and the kernel's two is empty. -/
theorem VmInv.index (h : VmInv vm roots kern) (hr : r ∈ roots) {i : Nat} {p : List Nat}
    (hp : i :: p ∈ walkPaths) (hd : descend (next tableEnt vm.mem) r p = some t)
    (hpres : ent vm.mem t i &&& pdePresent ≠ 0) : p.length ≠ 0 ∨ i < 256 := by
  by_contra hc
  obtain ⟨h0, hi⟩ := not_or.1 hc
  have hp0 : p = [] := List.length_eq_zero_iff.1 (not_not.1 h0)
  subst hp0
  have hlast := hp.2.2 i rfl
  cases hd
  have hlt := walkPaths_index hp
  rw [h.pt.high r hr i (by omega) (by omega)] at hpres
  exact hpres (Nat.zero_and _)

/-- A path leads where `tab` does. -/
theorem VmInv.descend_tab (h : VmInv vm roots kern) (hr : r ∈ roots) :
    ∀ {p : List Nat} {t : Nat}, p ∈ walkPaths →
    descend (next tableEnt vm.mem) r p = some t → Place p.length (pathNum p) ∧
    tab vm.mem r p.length (pathNum p) = some t
  | [], t, _, hd => ⟨place_root.2 rfl, hd⟩
  | i :: p, t, hp, hd => by
    obtain ⟨u, hu, hn⟩ := Option.bind_eq_some_iff.1 hd
    obtain ⟨h1, h2⟩ := h.descend_tab hr (walkPaths_closed i p hp) hu
    have hi := walkPaths_index hp
    have hlen : p.length < 3 := by
      have := hp.1
      rw [List.length_cons] at this
      omega
    have hpres : ent vm.mem u i &&& pdePresent ≠ 0 := by
      unfold next at hn
      split at hn
      · rename_i hok
        exact tableEnt_present hok
      · cases hn
    have hidx := h.index hr hp hu hpres
    have e1 : (512 * pathNum p + i) / 512 = pathNum p := by omega
    have e2 : (512 * pathNum p + i) % 512 = i := by omega
    refine ⟨h1.child hlen hi hidx, ?_⟩
    rw [List.length_cons, pathNum, tab_succ, e1, e2, h2, Option.bind_some]
    exact hn

theorem VmInv.mapped_data (h : VmInv vm roots kern) (hr : r ∈ roots) (hm : MappedBy vm.mem r f) :
    Data vm.mem vm.pmm roots kern f := by
  obtain ⟨p, hp, hl, pt, hd, i, hi, hpres, rfl⟩ := hm
  obtain ⟨h1, h2⟩ := h.descend_tab hr hp hd
  rw [hl] at h1 h2
  rcases h.pt.leaf r hr _ pt i h1 h2 hi with he | ⟨l, he, hdat⟩
  · rw [he] at hpres
    exact absurd (Nat.zero_and _) hpres
  · rw [he, encode_addr hdat.owned h.pt.ok]
    exact hdat

theorem VmInv.isTable (h : VmInv vm roots kern) (hr : r ∈ roots) (ht : TableOf vm.mem r t) :
    IsTable vm.mem roots t := by
  obtain ⟨p, hp, hd⟩ := ht
  obtain ⟨h1, h2⟩ := h.descend_tab hr hp hd
  exact isTable_of hr h1 h2

/-- **The tables of a task** are a tree, in every state that a run of the memory system reaches. -/
theorem VmInv.userMap (h : VmInv vm roots kern) (hr : r ∈ roots) : UserMap vm r := by
  have hheld : ∀ g, vm.pmm.Owned g → ¬ vm.pmm.Clear g := fun g hg hc => by
    have hu := (Pmm.mem_clear.1 hc).2
    rw [hg.taken] at hu
    cases hu
  refine ⟨⟨⟨⟨h.pt.ok, (h.pt.root_owned hr).page, fun p hp q hq t hdp hdq => ?_,
    fun t ht => hheld t (h.pt.own t (h.isTable hr ht)).1⟩,
    fun t ht hm => (h.mapped_data hr hm).notTable (h.isTable hr ht)⟩, fun i p t hp hd hpres => ?_,
    h.ready⟩, fun f hm => hheld f (h.mapped_data hr hm).owned⟩
  · obtain ⟨a1, a2⟩ := h.descend_tab hr hp hdp
    obtain ⟨b1, b2⟩ := h.descend_tab hr hq hdq
    obtain ⟨-, hl, hn⟩ := h.pt.inj r hr r hr _ _ _ _ t a1 b1 a2 b2
    exact pathNum_inj hp hq hl hn
  · obtain ⟨h1, h2⟩ := h.descend_tab hr (walkPaths_closed i p hp) hd
    have hlen : p.length < 3 := by
      have := hp.1
      rw [List.length_cons] at this
      omega
    rcases h.pt.dir r hr _ _ t i h1 hlen h2 (walkPaths_index hp) (h.index hr hp hd hpres)
      with he | ⟨s, he, hs, -⟩
    · rw [he] at hpres
      exact absurd (Nat.zero_and _) hpres
    · have hu := userTableEnt_dirEnt hs
      rw [← he] at hu
      simp only [userTableEnt, Bool.and_eq_true, bne_iff_ne, ne_eq] at hu
      exact hu.1.2

end

end VampireOS
