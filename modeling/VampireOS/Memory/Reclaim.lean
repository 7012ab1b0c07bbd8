import VampireOS.Memory.Mmap
import VampireOS.Memory.Undo

/-!
# What a dead task gives back (vmm.c:235-259, user.c:923-1026, sched.c:226-284)

`user_mmap` takes any hint outside the two kernel entries, `vmm_teardown_user` walks the entries
below 256. `TaskCall` are the calls of the memory system with `user_mmap` as the code has it: `map` and
`unmap` are the pages of `user_brk`, `teardown` and `map` those of an exec, `release` is the end of the
task and the reuse of its slot.
-/

namespace VampireOS

open Lib

section
variable {vm vm' : Vm} {roots kern : Finset Nat} {r f p : Nat} {pmm' : Pmm} {m1 : Mem}

/-- A fresh frame is filled: for a moment it is in nobody's hands. -/
theorem VmInv.filled (h : VmInv vm roots kern) (hal : vm.pmm.Took p pmm') (hs : SameOff p vm.mem m1) :
    VmInv { vm with pmm := pmm', mem := m1 } roots kern ∧
      (∀ f, Lost { vm with pmm := pmm', mem := m1 } roots kern f ↔ Lost vm roots kern f ∨ f = p) ∧
      Data m1 pmm' roots kern p ∧ mappings (sites roots) (see m1) p = 0 ∧ Same roots kern vm.mem m1 ∧
      ∀ r ∈ roots, ∀ n, n < userPages → view m1 r n = view vm.mem r n := by
  obtain ⟨q1, q2, q3, q4, q5, q6⟩ := h.pt.scribble hal hs
  refine ⟨⟨q1, h.ready, h.unique, h.cow.congr fun x hx => q3 x.1 (mem_sites.1 hx).1 x.2
    (mem_sites.1 hx).2⟩, fun f => ?_, q5, q6, q4, q3⟩
  have huse : InUse m1 roots kern f ↔ InUse vm.mem roots kern f :=
    inUse_congr q2 fun r hr n hn => by rw [q3 r hr n hn]
  unfold Lost
  simp only
  rw [hal.owned_iff h.pt.ok, huse]
  have hp : ¬InUse vm.mem roots kern p := by
    rintro (hk | ht | ⟨r', hr', n, hn, l, hl, rfl⟩)
    · exact hal.fresh (h.pt.kern p hk) rfl
    · exact hal.fresh (h.pt.own p ht).1 rfl
    · obtain ⟨-, -, -, hd⟩ := h.pt.of_view hr' hn hl
      exact hal.fresh hd.owned rfl
  by_cases hf : f = p
  · subst hf
    tauto
  · tauto

theorem Lost.freed (hown : vm.pmm.Owned p) (hok : vm.pmm.Ok) :
    Lost { vm with pmm := pmmFree vm.pmm p } roots kern f ↔ Lost vm roots kern f ∧ f ≠ p := by
  have hg := pmmFree_gave hok hown
  unfold Lost
  rw [hg.owned_iff hown]
  tauto

/-- It goes back unused. -/
theorem VmInv.filled_back (h : VmInv vm roots kern) (hal : vm.pmm.Took p pmm') (hs : SameOff p vm.mem m1) :
    VmInv { vm with pmm := pmmFree pmm' p, mem := m1 } roots kern ∧
      ∀ f, Lost { vm with pmm := pmmFree pmm' p, mem := m1 } roots kern f ↔ Lost vm roots kern f := by
  obtain ⟨a1, a2, a3, a4, -, -⟩ := h.filled hal hs
  refine ⟨Space.free_unused a1 a3 a4, fun f => ?_⟩
  have hfreed : Lost { vm with pmm := pmmFree pmm' p, mem := m1 } roots kern f ↔
      Lost { vm with pmm := pmm', mem := m1 } roots kern f ∧ f ≠ p :=
    Lost.freed a3.owned a1.pt.ok
  refine hfreed.trans ?_
  rw [a2]
  have : Lost vm roots kern f → f ≠ p := fun hl => hal.fresh hl.1
  tauto

/-- It is mapped, or goes back. No frame is lost. -/
theorem VmInv.mapFilled (h : VmInv vm roots kern) (hr : r ∈ roots) (hal : vm.pmm.Took p pmm')
    (hs : SameOff p vm.mem m1) {virt : Nat} (hv : vpn virt < userPages)
    (hnone : view vm.mem r (vpn virt) = none) {b : Bool}
    (hres : vmmMapUser { vm with pmm := pmm', mem := m1 } r virt p = (vm', b)) :
    VmInv (if b then vm' else { vm' with pmm := pmmFree vm'.pmm p }) roots kern ∧
      (∀ f, Lost (if b then vm' else { vm' with pmm := pmmFree vm'.pmm p }) roots kern f ↔
      Lost vm roots kern f) ∧
      ∀ n, n < userPages → n ≠ vpn virt → absMem vm'.mem r n = absMem vm.mem r n := by
  obtain ⟨q1, hfresh, q5, q6, q4, q3⟩ := h.filled hal hs
  have hnew : ∀ f, Lost vm roots kern f → f ≠ p := fun f hl => hal.fresh hl.1
  have hsame : ∀ n, n < userPages → absMem m1 r n = absMem vm.mem r n := fun n hn => q4.mem r hr n hn
  by_cases ha : virt % pageSize = 0
  · have hnone1 : view m1 r (vpn virt) = none := (q3 r hr _ hv).trans hnone
    have hmap : vmmMapUserFlags { vm with pmm := pmm', mem := m1 } r virt p (leafFlags true true) =
        (vm', b) := by
      rw [← userFlags_eq]
      exact hres
    obtain ⟨c1, c2⟩ := vmmMapUserFlags_lost q1.pt q1.ready hr hv q5 hnone1 hmap
    obtain ⟨a1, a2, a3⟩ := q1.vmmMapUser_spec hr hv ha q5 q6 hnone1 hres
    cases b with
    | true =>
      refine ⟨a1, fun f => ?_, fun n hn hne => ?_⟩
      · refine ((c2 rfl).2 f).trans ?_
        rw [hfresh]
        have := hnew f
        tauto
      · have := (a3 rfl).mem r hr n hn
        rw [if_neg fun hc => hne hc.2] at this
        exact this.trans (hsame n hn)
    | false =>
      obtain ⟨b1, b2, b3⟩ := a2 rfl
      refine ⟨Space.free_unused a1 b2 b3, fun f => ?_, fun n hn _ => (b1.mem r hr n hn).trans (hsame n hn)⟩
      refine (Lost.freed b2.owned a1.pt.ok).trans ?_
      rw [(c1 rfl).lost f, hfresh]
      have := hnew f
      tauto
  · rw [Space.vmmMapUser_unaligned ha] at hres
    cases hres
    obtain ⟨a1, a2⟩ := h.filled_back hal hs
    exact ⟨a1, a2, fun n hn _ => hsame n hn⟩

/-- An address that `user_mmap` can map and `vmm_teardown_user` does not reach. -/
def OutOfReach (va : Nat) : Prop := 256 ≤ pml4I va ∧ kernelIndex va = false

/-- What one page, or the whole loop, leaves behind. -/
structure Kept (roots kern : Finset Nat) (vm vm' : Vm) : Prop where
  inv : VmInv vm' roots kern
  lost : ∀ f, Lost vm' roots kern f ↔ Lost vm roots kern f

theorem Kept.trans {vm'' : Vm} (h : Kept roots kern vm vm') (h' : Kept roots kern vm' vm'') :
    Kept roots kern vm vm'' :=
  ⟨h'.inv, fun f => (h'.lost f).trans (h.lost f)⟩

theorem VmInv.unmap_kept (h : VmInv vm roots kern) (hr : r ∈ roots) (virt : Nat) :
    Kept roots kern vm (vmmUnmapUser vm r virt).1 := by
  refine ⟨?_, (h.vmmUnmapUser_tidy hr virt).lost⟩
  rcases h.vmmUnmapUser_spec hr virt with ⟨e, -⟩ | ⟨vm', e, -, -, a, -⟩ <;> rw [e]
  · exact h
  · exact a

theorem vmmMapUser_kernel {virt phys : Nat} (hk : kernelIndex virt = true) :
    vmmMapUser vm r virt phys = (vm, false) := by
  unfold vmmMapUser vmmMapUserFlags
  rw [if_pos hk, ite_self]

/-- **One page** of a mapping that teardown reaches. -/
theorem mmapPage_kept (h : VmInv vm roots kern) (hr : r ∈ roots) {hint i : Nat}
    {file : Option ((Nat → UInt8) × Nat)} {b : Bool} (hlow : ¬ OutOfReach (hint + i * pageSize))
    (hnone : vmmTranslateUser vm r (hint + i * pageSize) = none)
    (he : mmapPage r hint file i vm = (vm', b)) :
    Kept roots kern vm vm' ∧ ∀ n, n < userPages → n ≠ vpn (hint + i * pageSize) →
    absMem vm'.mem r n = absMem vm.mem r n := by
  unfold mmapPage at he
  rcases allocPage_spec h.pt.ok with e | ⟨phys, pmm', hne, hal, e⟩
  · rw [e] at he
    cases he
    exact ⟨⟨h, fun _ => Iff.rfl⟩, fun _ _ _ => rfl⟩
  · rw [e] at he
    simp only [if_neg hne] at he
    obtain ⟨m1, hm1, hoff⟩ : ∃ m1, (file.elim (zeroPage vm.mem phys) fun f =>
        fillPage (zeroPage vm.mem phys) phys (fun j => f.1 (i * pageSize + j))
          (min (f.2 - i * pageSize) pageSize)) = m1 ∧
        SameOff phys vm.mem m1 := by
      refine ⟨_, rfl, ?_⟩
      cases file with
      | none => exact sameOff_zeroPage _ _
      | some f => exact (sameOff_zeroPage _ _).trans (fillPage_spec _ _ _ _ (Nat.min_le_right _ _)).1
    rw [hm1] at he
    by_cases hk : kernelIndex (hint + i * pageSize) = true
    · rw [vmmMapUser_kernel hk] at he
      cases he
      obtain ⟨a1, a2⟩ := h.filled_back hal hoff
      obtain ⟨-, -, -, -, q4, -⟩ := h.filled hal hoff
      exact ⟨⟨a1, a2⟩, fun n hn _ => q4.mem r hr n hn⟩
    · have hv : vpn (hint + i * pageSize) < userPages := by
        refine (user_half_iff _).1 (Nat.lt_of_not_le fun hle => hlow ⟨hle, Bool.eq_false_iff.2 hk⟩)
      have hview := (h.vmmTranslateUser_none hr hv).1 hnone
      rcases hres : vmmMapUser { vm with pmm := pmm', mem := m1 } r (hint + i * pageSize) phys with ⟨vm2, b2⟩
      obtain ⟨a1, a2, a3⟩ := h.mapFilled hr hal hoff hv hview hres
      rw [hres] at he
      cases b2 with
      | true =>
        cases he
        exact ⟨⟨a1, a2⟩, a3⟩
      | false =>
        cases he
        exact ⟨⟨a1, a2⟩, a3⟩

/-- **The loop** of `user_mmap`, with its unwinding. -/
theorem mmapLoop_kept (h : VmInv vm roots kern) (hr : r ∈ roots) {hint n : Nat}
    {file : Option ((Nat → UInt8) × Nat)} (ha : hint % pageSize = 0) (hn : n ≤ userMmapPages)
    (hlow : ∀ i, i < n → ¬ OutOfReach (hint + i * pageSize))
    (hfree : ∀ i, i < n → vmmTranslateUser vm r (hint + i * pageSize) = none) :
    Kept roots kern vm (mmapLoop r hint file n vm).1 := by
  unfold mmapLoop
  refine loopTo_keeps (fun i w => Kept roots kern vm w ∧ ∀ j, i ≤ j → j < n →
    vmmTranslateUser w r (hint + j * pageSize) = none) (X := Kept roots kern vm)
    ⟨⟨h, fun _ => Iff.rfl⟩, fun j _ hj => hfree j hj⟩ (fun w hw => hw.1) fun i w hi hw => ?_
  rcases he : mmapPage r hint file i w with ⟨w', _ | _⟩
  · refine ⟨fun h => (by cases h), fun _ => ?_⟩
    obtain ⟨a1, -⟩ := mmapPage_kept hw.1.inv hr (hlow i hi) (hw.2 i le_rfl hi) he
    exact forTo_inv (fun _ w => Kept roots kern vm w) (hw.1.trans a1) fun _ w2 _ h2 => h2.trans
      (h2.inv.unmap_kept hr _)
  · refine ⟨fun _ => ?_, fun h => by cases h⟩
    obtain ⟨a1, a2⟩ := mmapPage_kept hw.1.inv hr (hlow i hi) (hw.2 i le_rfl hi) he
    refine ⟨hw.1.trans a1, fun j hij hj => ?_⟩
    have hne := page_ne ha (i := j) (j := i) (by omega) (by omega) (by omega)
    by_cases hv : vpn (hint + j * pageSize) < userPages
    · refine (a1.inv.vmmTranslateUser_none hr hv).2 (absMem_none.1 ?_)
      rw [a2 _ hv hne, absMem_none]
      exact (hw.1.inv.vmmTranslateUser_none hr hv).1 (hw.2 j (by omega) hj)
    · -- a page of a kernel entry never translates
      have hk : kernelIndex (hint + j * pageSize) = true := by
        by_contra hk
        exact hlow j hj ⟨Nat.le_of_not_lt fun hlt => hv ((user_half_iff _).1 hlt), Bool.eq_false_iff.2 hk⟩
      unfold vmmTranslateUser vmmLeafPte
      rw [if_pos hk, Option.map_none]

end

/-! ## Runs -/

/-- A call of the memory system; `user_mmap` as the code has it. -/
inductive TaskCall where
  | op (o : SpaceOp)
  | mmap (r base hint len : Nat) (file : Option ((Nat → UInt8) × Nat))

namespace TaskCall

def step (s : Space) : TaskCall → Space
  | op o => (s.step o).1
  | mmap r base hint len file =>
    if r ∈ s.roots then
      (mmapPagesOf s.vm r base hint len).elim s fun npages =>
        { s with vm := (mmapLoop r hint file npages s.vm).1 }
    else s

def run (s : Space) (calls : List TaskCall) : Space := calls.foldl step s

/-- No page of the range is one that `vmm_teardown_user` does not reach. -/
def Low : TaskCall → Prop
  | op _ => True
  | mmap _ _ hint len _ => ∀ n, userPagesOf hint len = some n → ∀ i, i < n →
      ¬ OutOfReach (hint + i * pageSize)

variable {s : Space} {r f : Nat}

theorem step_kept (h : s.Inv) (c : TaskCall) (hc : c.Low) :
    (step s c).Inv ∧ ∀ f, (step s c).Lost f ↔ s.Lost f := by
  cases c with
  | op o => exact ⟨(Space.step_ok h o).inv, Space.step_lost h o⟩
  | mmap r base hint len file =>
    rw [step]
    split
    · rename_i hr
      cases hn : mmapPagesOf s.vm r base hint len with
      | none => exact ⟨h, fun _ => Iff.rfl⟩
      | some n =>
        obtain ⟨h1, -, h3, h4⟩ := mmapPagesOf_eq hn
        have hu : userPagesOf hint len = some n := by
          unfold mmapPagesOf at hn
          split at hn
          · cases hn
          · obtain ⟨m, hm, hn⟩ := Option.bind_eq_some_iff.1 hn
            simp only at hn
            split at hn
            · cases hn
            · cases hn
              exact hm
        have hk : Kept s.roots s.kern s.vm (mmapLoop r hint file n s.vm).1 :=
          mmapLoop_kept h hr h1 h3 (hc n hu) h4
        exact ⟨hk.inv, hk.lost⟩
    · exact ⟨h, fun _ => Iff.rfl⟩

theorem run_kept (h : s.Boot) (calls : List TaskCall) (hc : ∀ c ∈ calls, c.Low) :
    (run s calls).Inv ∧ ∀ f, (run s calls).Lost f ↔ s.Lost f := by
  induction calls using List.reverseRecOn with
  | nil => exact ⟨Space.boot_inv h, fun _ => Iff.rfl⟩
  | append_singleton cs c ih =>
    obtain ⟨a1, a2⟩ := ih fun c' hc' => hc c' (List.mem_append_left _ hc')
    obtain ⟨b1, b2⟩ := step_kept a1 c (hc c (List.mem_append_right _ (List.mem_singleton_self c)))
    unfold run at *
    rw [List.foldl_append]
    exact ⟨b1, fun f => (b2 f).trans (a2 f)⟩

/-- `f` is a table of `r`, its PML4 included, or mapped by `r` and by no other task. -/
def OnlyUsedBy (s : Space) (r f : Nat) : Prop :=
  TableOf s.vm.mem r f ∨ MappedBy s.vm.mem r f ∧ ∀ r' ∈ s.roots, r' ≠ r → ¬ MappedBy s.vm.mem r' f

/-- A page that a task sees is mapped by it. -/
theorem mappedBy_of_view {m : Mem} {n : Nat} {l : Leaf Nat} (hn : n < userPages)
    (hv : view m r n = some l) : MappedBy m r l.frame := by
  obtain ⟨pt, ht, hd⟩ := Option.bind_eq_some_iff.1 hv
  have e : vpn (n * pageSize) = n := by
    unfold vpn pageSize userPages at *
    omega
  have hk : kernelIndex (n * pageSize) = false := by
    have hlow : pml4I (n * pageSize) < 256 := (user_half_iff _).2 (by rw [e]; exact hn)
    rw [Bool.eq_false_iff, ne_eq, kernelIndex_iff]
    omega
  have hdes : descend (next tableEnt m) r (ptPath (n * pageSize)) = some pt := by
    rw [← walkPt_descend, walkPt_tab, e]
    exact ht
  unfold decode at hd
  split at hd
  · rename_i hl
    cases hd
    simp only [userLeaf, Bool.and_eq_true, bne_iff_ne, ne_eq] at hl
    exact ⟨_, ptPath_mem hk, rfl, pt, hdes, n % 512, Nat.mod_lt _ (by decide), hl.1, rfl⟩
  · cases hd

/-- What a task maps it is seen to map. -/
theorem maps_of_mappedBy (h : s.Inv) (hr : r ∈ s.roots) (hm : MappedBy s.vm.mem r f) :
    Maps s.vm.mem s.roots f := by
  obtain ⟨p, hp, hl, pt, hd, i, hi, hpres, rfl⟩ := hm
  obtain ⟨h1, h2⟩ := h.descend_tab hr hp hd
  rw [hl] at h1 h2
  rcases h.pt.leaf r hr _ pt i h1 h2 hi with he | ⟨l, he, hdat⟩
  · rw [he] at hpres
    exact absurd (Nat.zero_and _) hpres
  · refine ⟨r, hr, 512 * pathNum p + i, page_lt h1 hi, l, ?_, ?_⟩
    · unfold view
      rw [show (512 * pathNum p + i) / 512 = pathNum p by omega, show (512 * pathNum p + i) % 512 =
        i by omega, h2, Option.bind_some, he]
      exact hdat.decode h.pt.ok l.want l.hw
    · rw [he, encode_addr hdat.owned h.pt.ok]

/-- The end of a task frees what only it used. -/
theorem release_frees (h : s.Inv) (hr : r ∈ s.roots) (hf : OnlyUsedBy s r f) :
    (s.releasePml4 r).vm.pmm.used (f / pageSize) = false := by
  obtain ⟨ht, -⟩ := VmInv.vmmTeardownUser_tidy h hr
  have hi2 := (Space.release_spec h hr).1
  have hlost := Space.releasePml4_lost h hr f
  have hmem : (s.releasePml4 r).vm.mem = (vmmTeardownUser s.vm r).mem := rfl
  have huse : InUse s.vm.mem s.roots s.kern f := by
    rcases hf with hf | ⟨hf, -⟩
    · exact .inr (.inl (h.isTable hr hf))
    · exact .inr (.inr (maps_of_mappedBy h hr hf))
  have hown : s.vm.pmm.Owned f := (Space.owned_iff h f).2 (.inl huse)
  have hnot : ¬ (s.releasePml4 r).vm.pmm.Owned f := by
    rw [Space.owned_iff hi2, hlost]
    rintro ((hk | ⟨r', hr', ℓ, q, hp, hq⟩ | ⟨r', hr', n, hn, l, hl, rfl⟩) | hl)
    · have hk : f ∈ s.kern := hk
      rcases hf with hf | ⟨hf, -⟩
      · exact (h.pt.own f (h.isTable hr hf)).2 hk
      · exact (h.mapped_data hr hf).notKern hk
    · have hr1 := Finset.mem_erase.1 hr'
      rw [hmem, ht.tables r' hr1.2 hr1.1 ℓ q hp] at hq
      rcases hf with ⟨p, hp', hd⟩ | ⟨hf, -⟩
      · obtain ⟨b1, b2⟩ := h.descend_tab hr hp' hd
        exact hr1.1 (h.pt.inj r' hr1.2 r hr _ _ _ _ f hp b1 hq b2).1
      · exact (h.mapped_data hr hf).notTable (isTable_of hr1.2 hp hq)
    · have hr1 := Finset.mem_erase.1 hr'
      have hsame := ht.pages r' hr1.2 hr1.1 n hn
      rw [← hmem, hl, Option.map_some] at hsame
      obtain ⟨l', hl', e⟩ := Option.map_eq_some_iff.1 hsame.symm
      have hmap := mappedBy_of_view hn hl'
      rw [e] at hmap
      rcases hf with hf | ⟨-, hf⟩
      · exact (h.mapped_data hr1.2 hmap).notTable (h.isTable hr hf)
      · exact hf r' hr1.2 hr1.1 hmap
    · exact hl.2 huse
  have hframes : (s.releasePml4 r).vm.pmm.frameCount = s.vm.pmm.frameCount := by
    change (pmmFree _ r).frameCount = _
    rw [(Pmm.pmmFree_keeps _ _).frames]
    exact ht.frames
  have hres : (s.releasePml4 r).vm.pmm.reservedEnd = s.vm.pmm.reservedEnd := by
    change (pmmFree _ r).reservedEnd = _
    rw [(Pmm.pmmFree_keeps _ _).reserved]
    exact ht.reserved
  rw [Bool.eq_false_iff]
  exact fun hu => hnot ⟨hown.page, by rw [hres]; exact hown.above, by rw [hframes]; exact hown.below, hu⟩

/-- The PML4 itself. -/
theorem OnlyUsedBy.self (s : Space) (r : Nat) : OnlyUsedBy s r r := by
  have hp : [] ∈ walkPaths := ⟨Nat.zero_le 3, nofun, nofun⟩
  exact .inl ⟨[], hp, rfl⟩

theorem OnlyUsedBy.alone {pt i : Nat} {p : List Nat} (hroots : s.roots = {r}) (hp : p ∈ walkPaths)
    (hl : p.length = 3) (hpt : descend (next tableEnt s.vm.mem) r p = some pt) (hi : i < 512)
    (he : ent s.vm.mem pt i &&& pdePresent ≠ 0 ∧ ent s.vm.mem pt i &&& addrMask = f) :
    OnlyUsedBy s r f := by
  refine .inr ⟨⟨p, hp, hl, pt, hpt, i, hi, he⟩, fun r' hr' hne => ?_⟩
  rw [hroots, Finset.mem_singleton] at hr'
  exact absurd hr' hne

/-- 32 frames from 2 MiB on. -/
def tinySpace : Space := Space.bootSpace (pmmInit ⟨24, [⟨0x200000, 0x20000, 1⟩]⟩)

/-- A task with a page in PML4 entry 257. -/
def highMapping : Space := run tinySpace [.op .clone, .mmap 0x200000 0x400000 0xFFFF808000000000 4096 none]

theorem highMapping_state : highMapping.roots = {0x200000} ∧
    descend (next tableEnt highMapping.vm.mem) 0x200000 [0, 0, 257] = some 0x204000 ∧
    ent highMapping.vm.mem 0x204000 0 &&& pdePresent ≠ 0 ∧
    ent highMapping.vm.mem 0x204000 0 &&& addrMask = 0x201000 := by decide +kernel

theorem high_path : [0, 0, 257] ∈ walkPaths := ⟨by decide, by decide, by decide⟩

theorem low_op (o : SpaceOp) : Low (op o) := trivial

/-- A page at 1 GiB. -/
theorem low_page : Low (mmap 0x200000 0x400000 0x40000000 4096 none) := by
  intro n hn i hi hout
  have h1 : userPagesOf 0x40000000 4096 = some 1 := by decide +kernel
  obtain rfl : 1 = n := Option.some.inj (h1.symm.trans hn)
  obtain rfl : i = 0 := by omega
  exact absurd hout.1 (by decide)

def lowCalls : List TaskCall := [.op .clone, .mmap 0x200000 0x400000 0x40000000 4096 none]

theorem lowCalls_state : (run tinySpace lowCalls).roots = {0x200000} ∧
    (run tinySpace lowCalls).vm.pmm.used (0x201000 / pageSize) = true ∧
    descend (next tableEnt (run tinySpace lowCalls).vm.mem) 0x200000 [0, 1, 0] = some 0x204000 ∧
    ent (run tinySpace lowCalls).vm.mem 0x204000 0 &&& pdePresent ≠ 0 ∧
    ent (run tinySpace lowCalls).vm.mem 0x204000 0 &&& addrMask = 0x201000 := by decide +kernel

theorem lowCalls_low : ∀ c ∈ lowCalls, c.Low := by
  intro c hc
  rcases List.mem_cons.1 hc with hc | hc
  · rw [hc]
    exact low_op _
  · rw [List.mem_singleton.1 hc]
    exact low_page

theorem mem_of_roots (h : s.roots = {r}) : r ∈ s.roots := by
  rw [h]
  exact Finset.mem_singleton_self r

theorem tinySpace_boot : tinySpace.Boot := Space.bootSpace_boot (pmmInit_ok _)

theorem low_path : [0, 1, 0] ∈ walkPaths := ⟨by decide, by decide, by decide⟩

end TaskCall

end VampireOS
