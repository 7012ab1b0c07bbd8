import VampireOS.Sched.Reach
import VampireOS.Memory.Mmap

/-!
# The calls that map and unmap (user.c:923-1132)

| here | there |
| --- | --- |
| `userMmap` | `user_mmap` (user.c:923), for every hint the code takes |
| `Seen` | what the running task sees of its memory |

`Kernel.userMmap` is the same call over any memory system; over `Space`, whose `mapFresh` refuses a
page above the user half, it is this call for every hint in the user half (`userMmap_low`). The
range tests compare whole addresses, the walk takes bits 12 to 47 of them.
-/

namespace VampireOS

open Lib Kernel

namespace Mmap

/-- The loop of the call over the kernel's memory. -/
def mapAll (k : Kernel Space) (hint npages : Nat) (file : Option ((Nat → UInt8) × Nat)) :
    Kernel Space × Option Nat :=
  let res := mmapLoop k.currentCr3 hint file npages k.mem.vm
  ({ k with mem := { k.mem with vm := res.1 } }, if res.2 then some hint else none)

def userMmap (k : Kernel Space) (hint len : Nat) (fd : Int) : Kernel Space × Option Nat :=
  match mmapPagesOf k.mem.vm k.currentCr3 (k.tasks k.current).userBase hint len with
  | none => (k, none)
  | some npages =>
    match k.schedFdPath fd with
    | none => mapAll k hint npages none
    | some path =>
      let m := k.inCwd (Fs.fsLookup path)
      match k.fsAsk m with
      | none => (k.fsDo m, none)
      | some file => mapAll (k.fsDo m) hint npages (some file)

/-- What descriptor `fd` puts into a mapping: nothing, or the file it is open on. -/
def mappingOf (k : Kernel Space) (fd : Int) : Option (Option ((Nat → UInt8) × Nat)) :=
  match k.schedFdPath fd with
  | none => some none
  | some path => (k.fsAsk (k.inCwd (Fs.fsLookup path))).map some

/-- What task `cr3` sees at `a` when the kernel is in state `k`. -/
def Seen (k : Kernel Space) (cr3 a : Nat) : Option (Nat × UInt8) := seen k.mem.vm cr3 a

/-- The pages from `hint` are mapped in `k'`, were not in `k`, and hold what `file` does; no other
address looks different. -/
structure Maps (k k' : Kernel Space) (hint npages : Nat) (file : Option ((Nat → UInt8) × Nat)) : Prop where
  fresh : ∀ i, i < npages → ∀ j, j < pageSize → Seen k k.currentCr3 (hint + i * pageSize + j) = none
  bytes : ∀ i, i < npages → ∀ j, j < pageSize →
    ∃ p, Seen k' k.currentCr3 (hint + i * pageSize + j) = some (p, fileByte file (i * pageSize + j))
  rest : ∀ a, (∀ i, i < npages → vpn a ≠ vpn (hint + i * pageSize)) → Seen k' k.currentCr3 a =
    Seen k k.currentCr3 a

section
variable {k : Kernel Space} {hint len npages : Nat} {f : Option ((Nat → UInt8) × Nat)}

theorem mapAll_spec (h : UserMap k.mem.vm (cr3OrBoot k.currentCr3)) {base : Nat}
    (hn : mmapPagesOf k.mem.vm k.currentCr3 base hint len = some npages) :
    (∀ va, (mapAll k hint npages f).2 = some va → va = hint ∧
      Maps k (mapAll k hint npages f).1 hint npages f) ∧
      ((mapAll k hint npages f).2 = none →
        ∀ a, Seen (mapAll k hint npages f).1 k.currentCr3 a = Seen k k.currentCr3 a) := by
  obtain ⟨ha, -, hmax, hfree⟩ := mmapPagesOf_eq hn
  obtain ⟨h1, h2⟩ := mmapLoop_spec h ha hmax hfree
  have hans : (mapAll k hint npages f).2 = if (mmapLoop k.currentCr3 hint f npages k.mem.vm).2
      then some hint else none := rfl
  rw [hans]
  cases hb : (mmapLoop k.currentCr3 hint f npages k.mem.vm).2 with
  | true =>
    refine ⟨fun va hva => ?_, fun hva => by cases hva⟩
    cases hva
    have hfill := h1 hb
    exact ⟨rfl, fun i hi j hj => seen_none (page_vpn ha hj) (hfree i hi), hfill.new, hfill.old⟩
  | false => exact ⟨fun va hva => by (cases hva), fun _ => h2 hb⟩

/-- **All or nothing.** -/
theorem userMmap_all_or_nothing (h : UserMap k.mem.vm (cr3OrBoot k.currentCr3)) (fd : Int) :
    (∀ va, (userMmap k hint len fd).2 = some va → va = hint ∧ ∃ file, mappingOf k fd = some file ∧
        Maps k (userMmap k hint len fd).1 hint ((len + pageSize - 1) / pageSize) file) ∧
      ((userMmap k hint len fd).2 = none →
        ∀ a, Seen (userMmap k hint len fd).1 k.currentCr3 a = Seen k k.currentCr3 a) := by
  unfold userMmap mappingOf
  cases hn : mmapPagesOf k.mem.vm k.currentCr3 (k.tasks k.current).userBase hint len with
  | none => exact ⟨nofun, fun _ _ => rfl⟩
  | some npages =>
    obtain ⟨-, rfl, -, -⟩ := mmapPagesOf_eq hn
    cases hp : k.schedFdPath fd with
    | none =>
      obtain ⟨h1, h2⟩ := mapAll_spec (f := none) h hn
      exact ⟨fun va hva => ⟨(h1 va hva).1, none, rfl, (h1 va hva).2⟩, h2⟩
    | some path =>
      simp only
      cases hf : k.fsAsk (k.inCwd (Fs.fsLookup path)) with
      | none => exact ⟨nofun, fun _ _ => rfl⟩
      | some file =>
        obtain ⟨h1, h2⟩ := mapAll_spec (k := k.fsDo (k.inCwd (Fs.fsLookup path))) (f := some file) h hn
        refine ⟨fun va hva => ?_, h2⟩
        obtain ⟨e, hmaps⟩ := h1 va hva
        exact ⟨e, some file, rfl, hmaps.fresh, hmaps.bytes, hmaps.rest⟩

/-- **`mmap` and its inverses** change all pages of the range or none. -/
theorem mmap_all_or_nothing (k : Kernel Space) (h : UserMap k.mem.vm (cr3OrBoot k.currentCr3))
    (hint len : Nat) (fd : Int) :
    (∀ va, (userMmap k hint len fd).2 = some va → va = hint ∧ ∃ file, mappingOf k fd = some file ∧
        Maps k (userMmap k hint len fd).1 hint ((len + pageSize - 1) / pageSize) file) ∧
      ((userMmap k hint len fd).2 = none →
        ∀ a, Seen (userMmap k hint len fd).1 k.currentCr3 a = Seen k k.currentCr3 a) ∧
      (∀ base, (userMunmap k.mem.vm k.currentCr3 base hint len).2 = false →
        (userMunmap k.mem.vm k.currentCr3 base hint len).1 = k.mem.vm) ∧
      ∀ prot, (userMprotect k.mem.vm k.currentCr3 hint len prot).2 = false →
        (userMprotect k.mem.vm k.currentCr3 hint len prot).1 = k.mem.vm := by
  obtain ⟨h1, h2⟩ := userMmap_all_or_nothing h fd
  refine ⟨h1, h2, fun base hf => ?_, fun prot hf => ?_⟩
  · rw [userMunmap_failed h.toUserTree hf]
  · rw [userMprotect_failed h.toUserTree hf]

/-- The kernel with this memory. -/
def onVm (k : Kernel Space) (vm : Vm) : Kernel Space := { k with mem := { k.mem with vm := vm } }

/-- One page of `Kernel.userMmap` in the user half. -/
theorem memDo_map {cr3 va : Nat} (hr : cr3 ∈ k.mem.roots) (hlow : pml4I va < 256) (vm : Vm)
    (hfree : vmmTranslateUser vm cr3 va = none) {page : Nat} (hva : va = hint + page * pageSize) :
    (onVm k vm).memDo (.map cr3 va page2M) = onVm k (mmapPage cr3 hint none page vm).1 ∧
      ((onVm k vm).memAsk (.map cr3 va page2M)).isSome = (mmapPage cr3 hint none page vm).2 := by
  subst hva
  have hstep : (onVm k vm).mem.step (.map cr3 (hint + page * pageSize) page2M) =
      (onVm k vm).mem.mapFresh cr3 (hint + page * pageSize) page2M := if_pos hr
  unfold Kernel.memDo Kernel.memAsk
  change ({ onVm k vm with mem := ((onVm k vm).mem.step _).1 } : Kernel Space) = _ ∧
    ((onVm k vm).mem.step _).2.isSome = _
  rw [hstep]
  unfold Space.mapFresh mmapPage allocPage
  rw [if_pos ⟨hlow, hfree⟩]
  by_cases h0 : (pmmAllocFrom vm.pmm page2M).1 = 0
  · simp [onVm, h0]
  · cases hb : (vmmMapUser { vm with
        pmm := (pmmAllocFrom vm.pmm page2M).2
        mem := zeroPage vm.mem (pmmAllocFrom vm.pmm page2M).1 } cr3
      (hint + page * pageSize) (pmmAllocFrom vm.pmm page2M).1).2 <;> simp [onVm, h0, hb]

/-- The loop of `Kernel.userMmap` in the user half. -/
theorem mapPages_low (h : UserMap k.mem.vm (cr3OrBoot k.currentCr3))
    (hr : k.currentCr3 ∈ k.mem.roots) (ha : hint % pageSize = 0) (hmax : npages ≤ userMmapPages)
    (hlow : ∀ i, i < npages → pml4I (hint + i * pageSize) < 256)
    (hfree : ∀ i, i < npages → vmmTranslateUser k.mem.vm k.currentCr3 (hint + i * pageSize) =
      none) :
    Kernel.mapPages k.currentCr3 hint npages k = (onVm k (mmapLoop k.currentCr3 hint none npages k.mem.vm).1,
      (mmapLoop k.currentCr3 hint none npages k.mem.vm).2) := by
  unfold Kernel.mapPages mmapLoop
  refine loopTo_map (onVm k) (s := k.mem.vm) fun i hi vm hvm => ?_
  -- the pages before did not take this one
  have hstill : vmmTranslateUser vm k.currentCr3 (hint + i * pageSize) = none := by
    have hfilled : (mmapLoop k.currentCr3 hint none i k.mem.vm).2 = true →
      Filled k.mem.vm k.currentCr3 hint none i
        (mmapLoop k.currentCr3 hint none i k.mem.vm).1 :=
          (mmapLoop_spec h ha (by omega) fun j hj => hfree j (by omega)).1
    unfold mmapLoop at hfilled
    rw [hvm] at hfilled
    have hsame := (hfilled rfl).old (hint + i * pageSize) fun j hj => page_ne ha (by omega)
      (by omega) (by omega)
    have hnone := hfree i hi
    unfold seen at hsame
    rw [hnone] at hsame
    exact Option.map_eq_none_iff.1 hsame
  obtain ⟨hdo, hask⟩ := memDo_map hr (hlow i hi) vm hstill rfl
  dsimp only
  rw [hdo, hask]
  rcases mmapPage k.currentCr3 hint none i vm with ⟨vm', _ | _⟩
  · simp only [Bool.false_eq_true, if_false]
    rw [forTo_map (onVm k)
      (f := fun j vm => (vmmUnmapUser vm k.currentCr3 (hint + (i - 1 - j) * pageSize)).1) fun j _
      vm => ?_]
    change ({ onVm k vm with mem := ((onVm k vm).mem.step _).1 } : Kernel Space) = _
    rw [show (onVm k vm).mem.step (.unmap k.currentCr3 (hint + (i - 1 - j) * pageSize)) = _ from if_pos hr]
    rfl
  · rfl

/-- **The two models of `user_mmap` agree** on every anonymous mapping whose pages lie in the user
half, also where it fails. -/
theorem userMmap_low (hi : k.mem.Inv) (hr : k.currentCr3 ∈ k.mem.roots) {fd : Int}
    (hfd : k.schedFdPath fd = none)
    (hlow : ∀ npages, userPagesOf hint len = some npages → ∀ i, i < npages →
      pml4I (hint + i * pageSize) < 256) :
    k.userMmap hint len fd = userMmap k hint len fd := by
  have hne : k.currentCr3 ≠ 0 := (hi.pt.root_owned hr).ne_zero hi.pt.ok
  have h : UserMap k.mem.vm (cr3OrBoot k.currentCr3) := by
    rw [show cr3OrBoot k.currentCr3 = k.currentCr3 from if_neg hne]
    exact hi.userMap hr
  unfold Kernel.userMmap userMmap mmapPagesOf
  dsimp only
  simp only [hne, false_or]
  by_cases hc : k.currentCr3 = pml4Phys ∨ (k.tasks k.current).userBase = 0
  · rw [if_pos hc, if_pos hc]
  · rw [if_neg hc, if_neg hc]
    cases hn : userPagesOf hint len with
    | none => rfl
    | some npages =>
      dsimp only [Option.bind_some]
      have hpeek : ∀ va, (MemSys.peek k.mem k.currentCr3 va).isSome =
          (vmmTranslateUser k.mem.vm k.currentCr3 va).isSome :=
        fun va => Option.isSome_map
      simp only [hpeek]
      split
      · rfl
      · rename_i hany
        have hpages : mmapPagesOf k.mem.vm k.currentCr3 (k.tasks k.current).userBase hint len =
            some npages := by
          unfold mmapPagesOf
          simp only [hne, false_or, if_neg hc, hn, Option.bind_some, if_neg hany]
        obtain ⟨ha, -, hmax, hfree⟩ := mmapPagesOf_eq hpages
        rw [hfd]
        dsimp only
        rw [mapPages_low h hr ha hmax (hlow npages hn) hfree]
        rfl

/-- Every task of a reachable state has such tables. -/
theorem userMap_reachable {m : Space} (hb : m.Boot) (h : Kernel.Reachable m k)
    (hr : k.currentCr3 ∈ k.mem.roots) :
    UserMap k.mem.vm (cr3OrBoot k.currentCr3) := by
  obtain ⟨ops, hops⟩ := h.mem
  have hi : k.mem.Inv := by
    rw [hops]
    exact Space.run_inv hb ops
  have hr0 : cr3OrBoot k.currentCr3 = k.currentCr3 := if_neg fun h0 => (hi.pt.root_owned hr).ne_zero
    hi.pt.ok h0
  rw [hr0]
  exact hi.userMap hr

/-- The first of two tasks maps a page above its heap. -/
theorem mmap_all_or_nothing_small :
    (∀ va, (userMmap (twoTasks smallSpace) 0x40000000 4096 (-1)).2 = some va → va = 0x40000000 ∧ ∃ file,
        mappingOf (twoTasks smallSpace) (-1) = some file ∧
        Maps (twoTasks smallSpace) (userMmap (twoTasks smallSpace) 0x40000000 4096 (-1)).1 0x40000000
          ((4096 + pageSize - 1) / pageSize) file) ∧
      ((userMmap (twoTasks smallSpace) 0x40000000 4096 (-1)).2 = none →
        ∀ a, Seen (userMmap (twoTasks smallSpace) 0x40000000 4096 (-1)).1 (twoTasks smallSpace).currentCr3 a =
          Seen (twoTasks smallSpace) (twoTasks smallSpace).currentCr3 a) ∧
      (∀ base, (userMunmap (twoTasks smallSpace).mem.vm (twoTasks smallSpace).currentCr3 base
        0x40000000 4096).2 = false →
        (userMunmap (twoTasks smallSpace).mem.vm (twoTasks smallSpace).currentCr3 base 0x40000000 4096).1 =
          (twoTasks smallSpace).mem.vm) ∧
      ∀ prot, (userMprotect (twoTasks smallSpace).mem.vm (twoTasks smallSpace).currentCr3 0x40000000
        4096 prot).2 = false →
        (userMprotect (twoTasks smallSpace).mem.vm (twoTasks smallSpace).currentCr3 0x40000000 4096 prot).1 =
          (twoTasks smallSpace).mem.vm :=
  mmap_all_or_nothing _ (userMap_reachable smallSpace_boot (twoTasks_reachable _) (by decide +kernel)) _ _ _

/-! ## The regions of the program -/

/-- The heap window of a program loaded at `base`. -/
def HeapWindow (base a : Nat) : Prop :=
  base + 2 * pageSize ≤ a ∧ a < base + 2 * pageSize + userHeapPages * pageSize

/-- With its code and stack pages. -/
def Kept (base a : Nat) : Prop := base ≤ a ∧ a < base + 2 * pageSize + userHeapPages * pageSize

/-- The walk takes no page of the range for a page of `W`. -/
def NoAlias (W : Nat → Prop) (va npages : Nat) : Prop :=
  ∀ i, i < npages → ∀ a, W a → vpn a ≠ vpn (va + i * pageSize)

theorem translate_of_seen {vm vm' : Vm} {cr3 a : Nat} (h : seen vm' cr3 a = seen vm cr3 a) :
    vmmTranslateUser vm' cr3 a = vmmTranslateUser vm cr3 a := by
  have e : ∀ v : Vm, vmmTranslateUser v cr3 a = (seen v cr3 a).map Prod.fst := by
    intro v
    unfold seen
    rw [Option.map_map]
    exact Option.map_id'.symm
  rw [e, e, h]

/-- Addresses with one page number translate together. -/
theorem unseen_vpn {vm : Vm} {cr3 a va : Nat} (hv : vpn a = vpn va)
    (h : vmmTranslateUser vm cr3 a = none) : vmmTranslateUser vm cr3 va = none := by
  have := seen_none hv.symm h
  unfold seen at this
  exact Option.map_eq_none_iff.1 this

/-- **Where mmap and munmap reach.** -/
theorem regions_kept_iff (k : Kernel Space) (h : UserMap k.mem.vm (cr3OrBoot k.currentCr3))
    (hint len : Nat) (fd : Int) (base : Nat) :
    (∀ va, (userMmap k hint len fd).2 = some va →
      ((∀ a, HeapWindow base a ∨ (vmmTranslateUser k.mem.vm k.currentCr3 a).isSome = true →
          vmmTranslateUser (userMmap k hint len fd).1.mem.vm k.currentCr3 a =
            vmmTranslateUser k.mem.vm k.currentCr3 a) ↔
        NoAlias (HeapWindow base) hint ((len + pageSize - 1) / pageSize))) ∧
      ((userMunmap k.mem.vm k.currentCr3 base hint len).2 = true →
        ((∀ a, Kept base a →
          vmmTranslateUser (userMunmap k.mem.vm k.currentCr3 base hint len).1 k.currentCr3 a =
            vmmTranslateUser k.mem.vm k.currentCr3 a) ↔
          NoAlias (Kept base) hint ((len + pageSize - 1) / pageSize))) := by
  constructor
  · intro va hva
    obtain ⟨-, file, -, hmaps⟩ := (userMmap_all_or_nothing h fd).1 va hva
    constructor
    · intro hkeep i hi a ha hv
      obtain ⟨p, hp⟩ := hmaps.bytes i hi 0 (by decide)
      have hfresh := hmaps.fresh i hi 0 (by decide)
      rw [Nat.add_zero] at hp hfresh
      have hnone : vmmTranslateUser k.mem.vm k.currentCr3 a = none :=
        unseen_vpn hv.symm (Option.map_eq_none_iff.1 hfresh)
      have hgone := unseen_vpn hv ((hkeep a (.inl ha)).trans hnone)
      unfold Seen seen at hp
      rw [hgone] at hp
      cases hp
    · intro hno a ha
      refine translate_of_seen (hmaps.rest a fun i hi hv => ?_)
      rcases ha with ha | ha
      · exact hno i hi a ha hv
      · have hfresh := hmaps.fresh i hi 0 (by decide)
        rw [Nat.add_zero] at hfresh
        rw [unseen_vpn hv.symm (Option.map_eq_none_iff.1 hfresh)] at ha
        cases ha
  · intro hs
    obtain ⟨h1, h2⟩ := userMunmap_done h.toUserTree hs
    constructor
    · intro hkeep i hi a ha hv
      obtain ⟨hsome, hnone⟩ := h1 i hi
      have hgone := unseen_vpn hv.symm (Option.map_eq_none_iff.1 hnone)
      rw [hkeep a ha] at hgone
      rw [unseen_vpn hv hgone] at hsome
      cases hsome
    · intro hno a ha
      exact translate_of_seen (h2 a fun i hi hv => hno i hi a ha hv)

/-- A hint 2^48 above the heap window maps its first page; a range 2^48 above the program unmaps the
code page. -/
theorem aliases_reach_region :
    ((twoTasks smallSpace).tasks (twoTasks smallSpace).current).userBase = 0x400000 ∧
    (userMmap (twoTasks smallSpace) (2 ^ 48 + 0x402000) 4096 (-1)).2 = some (2 ^ 48 + 0x402000) ∧
    (vmmTranslateUser (twoTasks smallSpace).mem.vm (twoTasks smallSpace).currentCr3 0x402000).isSome = false ∧
    (vmmTranslateUser (userMmap (twoTasks smallSpace) (2 ^ 48 + 0x402000) 4096 (-1)).1.mem.vm
      (twoTasks smallSpace).currentCr3 0x402000).isSome = true ∧
    (vmmTranslateUser (twoTasks smallSpace).mem.vm (twoTasks smallSpace).currentCr3 0x400000).isSome = true ∧
    (userMunmap (twoTasks smallSpace).mem.vm (twoTasks smallSpace).currentCr3 0x400000
      (2 ^ 48 + 0x400000) 4096).2 = true ∧
    (vmmTranslateUser (userMunmap (twoTasks smallSpace).mem.vm (twoTasks smallSpace).currentCr3
      0x400000 (2 ^ 48 + 0x400000) 4096).1
      (twoTasks smallSpace).currentCr3 0x400000).isSome = false := by
  decide +kernel

/-- A range well above the program. -/
theorem regions_kept_high :
    (∀ va, (userMmap (twoTasks smallSpace) 0x40000000 4096 (-1)).2 = some va →
      ((∀ a, HeapWindow 0x400000 a ∨
            (vmmTranslateUser (twoTasks smallSpace).mem.vm (twoTasks smallSpace).currentCr3 a).isSome = true →
          vmmTranslateUser (userMmap (twoTasks smallSpace) 0x40000000 4096 (-1)).1.mem.vm
            (twoTasks smallSpace).currentCr3 a =
            vmmTranslateUser (twoTasks smallSpace).mem.vm (twoTasks smallSpace).currentCr3 a) ↔
        NoAlias (HeapWindow 0x400000) 0x40000000 ((4096 + pageSize - 1) / pageSize))) ∧
      ((userMunmap (twoTasks smallSpace).mem.vm (twoTasks smallSpace).currentCr3 0x400000 0x40000000
        4096).2 = true →
        ((∀ a, Kept 0x400000 a →
            vmmTranslateUser (userMunmap (twoTasks smallSpace).mem.vm
              (twoTasks smallSpace).currentCr3 0x400000 0x40000000 4096).1
              (twoTasks smallSpace).currentCr3 a =
            vmmTranslateUser (twoTasks smallSpace).mem.vm (twoTasks smallSpace).currentCr3 a) ↔
          NoAlias (Kept 0x400000) 0x40000000 ((4096 + pageSize - 1) / pageSize))) :=
  regions_kept_iff _ (userMap_reachable smallSpace_boot (twoTasks_reachable _) (by decide +kernel)) _ _ _ _

end

end Mmap

end VampireOS
