import VampireOS.Memory.Vmm
import Mathlib.Data.Finset.Card
import Mathlib.Data.Finset.Image

/-!
# The higher-half map at boot (kernel/vmm.c:60-218)

| here | there |
| --- | --- |
| `stage2` | the tables stage 2 leaves (stage2.asm:327-343) |
| `vmmMap4k`, `vmmMap2m`, `vmmMapTail4k` | vmm.c:60-176 |
| `vmmMapUsable`, `vmmHhdmInit` | vmm.c:178-218 |
| `boot` | the calls of `kmain` (kmain.c:97-100) |
| `storePhys` | the processor's walk for a supervisor store |

The page directory at `0x3000` is the only one: the higher-half map covers the first GiB.
`first_4k_mapped` is only read by `vmm_print` and is left out. Until `hhdm_ready` is set a
pointer is a physical address, which stage 2 maps below 2 MiB.

`tails` lists the addresses the 4 KiB loop asks for, in order; `reach` is the part of the list
before the first address `vmm_map_4k` refuses whatever memory there is.
-/

namespace VampireOS

open Lib Pmm

def pdPhys : Nat := 0x3000
def pteFlags : Nat := pdePresent ||| pdeWrite
def pdeHuge : Nat := pdePresent ||| pdeWrite ||| pdeLarge

def stage2 (m : Mem) : Mem :=
  let m := zeroPage (zeroPage (zeroPage m 0x1000) 0x2000) 0x3000
  let m := setEnt (setEnt (setEnt m pml4Phys 0 (0x2000 ||| 3)) 0x2000 0 (pdPhys ||| 3)) pdPhys 0 0x83
  let m := zeroPage (zeroPage m 0x5000) 0x6000
  setEnt (setEnt (setEnt m pml4Phys 511 (0x5000 ||| 3)) 0x5000 510 (0x6000 ||| 3)) 0x6000 0 0x83

def vmmMap4k (vm : Vm) (phys : Nat) : Vm × Bool :=
  let pdIdx := phys >>> 21
  let ptIdx := (phys >>> 12) &&& 511
  if phys &&& 0xFFF ≠ 0 ∨ pdIdx ≥ 512 then (vm, false)
  else
    let pde := ent vm.mem pdPhys pdIdx
    if pde &&& pdeLarge ≠ 0 then (vm, false)
    else if pde &&& pdePresent = 0 then
      let (ptPhys, pmm) := pmmAlloc vm.pmm
      if ptPhys = 0 ∨ ptPhys ≥ page2M then
        ({ vm with pmm := if ptPhys ≠ 0 then pmmFree pmm ptPhys else pmm }, false)
      else
        let pde := ptPhys ||| pteFlags
        let mem := setEnt (zeroPage vm.mem ptPhys) pdPhys pdIdx pde
        ({ vm with mem := setEnt mem (pde &&& addrMask) ptIdx (phys ||| pteFlags), pmm := pmm }, true)
    else ({ vm with mem := setEnt vm.mem (pde &&& addrMask) ptIdx (phys ||| pteFlags) }, true)

def E820Entry.top (e : E820Entry) : Nat := (e.base + e.length) % 2 ^ 64

/-- The entries both loops look at. -/
def E820Entry.usable (e : E820Entry) : Bool := e.type == 1 && e.length != 0 && e.base ≤ e.top

/-- One page of 2 MiB; the loop over an entry ends at the end of the page directory. -/
def map2mPage (start k : Nat) (m : Mem) : Mem × Bool :=
  let idx := (start + k * page2M) >>> 21
  if idx ≥ 512 then (m, false)
  else (if idx ≠ 0 then setEnt m pdPhys idx ((start + k * page2M) ||| pdeHuge) else m, true)

def map2mEntry (start stop : Nat) (m : Mem) : Mem :=
  (loopTo (map2mPage start) ((stop - start) / page2M) m).1

def vmmMap2m (m : Mem) : List E820Entry → Mem
  | [] => m
  | e :: es =>
    if e.usable = false then vmmMap2m m es
    else vmmMap2m (map2mEntry (alignUp e.base page2M) (alignDown e.top page2M) m) es

/-- The inner loop's two `continue`s: below 2 MiB, or inside a 2 MiB page of the same entry. -/
def E820Entry.skip (e : E820Entry) (addr : Nat) : Bool :=
  addr < page2M ||
    (alignUp e.base page2M < alignDown e.top page2M && alignUp e.base page2M ≤ addr && addr <
      alignDown e.top page2M)

def vmmMapTail4k (vm : Vm) : List E820Entry → Vm
  | [] => vm
  | e :: es =>
    if e.usable = false then vmmMapTail4k vm es
    else
      let start := alignUp e.base pageSize
      let stop := alignDown e.top pageSize
      match loopTo (fun k vm =>
        let addr := start + k * pageSize
        if e.skip addr then (vm, true) else vmmMap4k vm addr) ((stop - start) / pageSize) vm with
      | (vm, true) => vmmMapTail4k vm es
      | (vm, false) => vm

def vmmMapUsable (vm : Vm) (map : E820Map) : Vm :=
  vmmMapTail4k { vm with mem := vmmMap2m vm.mem map.seen } map.seen

def vmmHhdmInit (vm : Vm) : Vm :=
  let vm := { vm with hhdmReady := false }
  let (pdpt, pmm) := pmmAlloc vm.pmm
  if pdpt = 0 ∨ pdpt ≥ page2M then { vm with pmm := if pdpt ≠ 0 then pmmFree pmm pdpt else pmm }
  else
    let mem := setEnt (zeroPage vm.mem pdpt) pdpt 0 (pdPhys ||| pteFlags)
    { vm with mem := setEnt mem pml4Phys hhdmPml4Index (pdpt ||| pteFlags), pmm := pmm, hhdmReady := true }

def boot (map : E820Map) (m : Mem) : Vm :=
  vmmHhdmInit (vmmMapUsable ⟨stage2 m, pmmInit map, List.replicate cowMax ⟨0, 0⟩, false⟩ map)

/-! ## The processor's walk -/

/-- What a supervisor store needs of the entry of a table: present, writable, not a large page. -/
def writeTable (e : Nat) : Bool := e &&& pdePresent != 0 && e &&& pdeWrite != 0 && e &&& pdeLarge == 0

def writeLeaf (e : Nat) : Bool := e &&& pdePresent != 0 && e &&& pdeWrite != 0

/-- Where a supervisor store to `virt` goes; `none` is #PF. -/
def storePhys (m : Mem) (cr3 virt : Nat) : Option Nat := do
  let pdpt ← next writeTable m cr3 (pml4I virt)
  let pd ← next writeTable m pdpt (pdptI virt)
  let pde := ent m pd (pdI virt)
  if writeLeaf pde = false then none
  else if pde &&& pdeLarge ≠ 0 then some ((pde &&& addrMask) / page2M * page2M + virt % page2M)
  else (next writeLeaf m (pde &&& addrMask) (ptI virt)).map (· + virt % pageSize)

/-- The frame at `phys` is present and writable at `HHDM_BASE + phys`. -/
def InHhdm (vm : Vm) (phys : Nat) : Prop := storePhys vm.mem pml4Phys (hhdmBase + phys) = some phys

/-! ## The addresses the loops ask for -/

/-- Page `i` of 2 MiB lies inside the entry. -/
def E820Entry.large (e : E820Entry) (i : Nat) : Bool :=
  e.usable && alignUp e.base page2M ≤ i * page2M && i * page2M < alignDown e.top page2M

/-- Entry `i` of the page directory is written by `vmm_map_2m`. -/
def E820Map.huge (map : E820Map) (i : Nat) : Bool := i != 0 && i < 512 && map.seen.any (·.large i)

def E820Entry.tails (e : E820Entry) : List Nat :=
  if e.usable = false then []
  else
    ((List.range ((alignDown e.top pageSize - alignUp e.base pageSize) / pageSize)).map
      (alignUp e.base pageSize + · * pageSize)).filter fun a => e.skip a = false

def E820Map.tails (map : E820Map) : List Nat := map.seen.flatMap E820Entry.tails

/-- `vmm_map_4k` can take the address: it lies in the first GiB and in no 2 MiB page. -/
def E820Map.fits (map : E820Map) (a : Nat) : Bool := a / page2M < 512 && !map.huge (a / page2M)

def E820Map.reach (map : E820Map) : List Nat := map.tails.takeWhile map.fits

/-- The page directory entries that need a page table for the addresses `s`. -/
def dirs (s : Finset Nat) : Finset Nat := s.image (· / page2M)

/-- The free frames that stage 2 maps. -/
def lowFree (p : Pmm) : Finset Nat := (Finset.range 512).filter fun f => f < p.frameCount ∧ p.used f = false

/-- What the code has to do for `phys`: a page directory entry of its own, and a frame below 2 MiB
for every page table and one for the page-directory-pointer table. -/
def E820Map.covers (map : E820Map) (phys : Nat) : Prop :=
  (dirs map.reach.toFinset).card < (lowFree (pmmInit map)).card ∧
    (phys < page2M ∨ map.huge (phys / page2M) ∨ phys ∈ map.reach)

/-! ## The allocator hands out the lowest frame -/

theorem findFree_lowest {used : Nat → Bool} :
    ∀ {n frame f : Nat}, findFree used n frame = some f → ∀ g, frame ≤ g → g < f → used g = true
  | 0, _, _, h => by simp [findFree] at h
  | n + 1, frame, f, h => by
    unfold findFree at h
    split at h
    · cases h
      intro g h1 h2
      omega
    · rename_i hu
      intro g h1 h2
      rcases Nat.eq_or_lt_of_le h1 with rfl | h1
      · simpa using hu
      · exact findFree_lowest h g h1 h2

theorem mem_lowFree {p : Pmm} {f : Nat} : f ∈ lowFree p ↔ f < 512 ∧ f < p.frameCount ∧ p.used f = false := by
  simp [lowFree]

/-- With a free frame below 2 MiB, `pmm_alloc` takes one of them. -/
theorem pmmAlloc_low {p : Pmm} (hp : p.Ok) (h : (lowFree p).card ≠ 0) :
    (pmmAlloc p).1 ≠ 0 ∧ (pmmAlloc p).1 < page2M ∧ p.Took (pmmAlloc p).1 (pmmAlloc p).2 := by
  obtain ⟨g, hg⟩ := Finset.card_pos.1 (Nat.pos_of_ne_zero h)
  obtain ⟨h512, hlt, hfree⟩ := mem_lowFree.1 hg
  have hb := hp.bitmap (by omega)
  have hsome : (pmmAlloc p).1 < page2M ∧ pmmAlloc p ≠ (0, p) := by
    have hspec := pmmAlloc_spec p hp
    unfold pmmAlloc allocFrame at *
    rw [if_neg hb] at *
    cases hf : findFree p.used (p.frameCount - 0) 0 with
    | none => rw [findFree_none hf g (Nat.zero_le _) (by omega)] at hfree; cases hfree
    | some f =>
      have hle : f ≤ g := by
        by_contra hgt
        rw [findFree_lowest hf g (Nat.zero_le _) (by omega)] at hfree
        cases hfree
      rw [hf] at hspec
      refine ⟨by simp only [pageSize, page2M]; omega, fun h0 => ?_⟩
      have hf0 : f * pageSize = 0 := congrArg Prod.fst h0
      have h3 := findFree_some hf
      have hlow := hp.low (by omega)
      rw [hp.reserved f (by omega) (by simp only [kernelEnd] at hlow; omega)] at h3
      exact absurd h3.2.2 (by decide)
  rcases pmmAlloc_spec p hp with h1 | ⟨h1, h2⟩
  · exact absurd h1 hsome.2
  · exact ⟨h1, hsome.1, h2⟩

/-- With none, it fails or takes a frame stage 2 does not map. -/
theorem pmmAlloc_high {p : Pmm} (hp : p.Ok) (h : (lowFree p).card = 0) :
    (pmmAlloc p).1 = 0 ∨ (pmmAlloc p).1 ≠ 0 ∧ page2M ≤ (pmmAlloc p).1 ∧
    p.Took (pmmAlloc p).1 (pmmAlloc p).2 := by
  rcases pmmAlloc_spec p hp with h1 | ⟨h1, h2⟩
  · exact Or.inl (by rw [h1])
  · refine Or.inr ⟨h1, ?_, h2⟩
    by_contra hlt
    have hmem : (pmmAlloc p).1 / pageSize ∈ lowFree p :=
      mem_lowFree.2 ⟨by simp only [pageSize, page2M] at *; omega, h2.below, h2.clear⟩
    rw [Finset.card_eq_zero.1 h] at hmem
    cases hmem

theorem lowFree_took {p p' : Pmm} {a : Nat} (h : p.Took a p') (ha : a < page2M) :
    (lowFree p').card + 1 = (lowFree p).card := by
  have hmem : a / pageSize ∈ lowFree p :=
    mem_lowFree.2 ⟨by simp only [pageSize, page2M] at *; omega, h.below, h.clear⟩
  have he : lowFree p' = (lowFree p).erase (a / pageSize) := by
    ext f
    rw [mem_lowFree, Finset.mem_erase, mem_lowFree, h.used, h.frames]
    by_cases hf : f = a / pageSize <;> simp [hf]
  rw [he]
  exact Finset.card_erase_add_one hmem

/-- The frame above 2 MiB is put back. -/
theorem lowFree_back {p p' : Pmm} {a : Nat} (hp : p.Ok) (h : p.Took a p') :
    (pmmFree p' a).Ok ∧ lowFree (pmmFree p' a) = lowFree p := by
  have hg := pmmFree_gave (h.ok hp) (h.owned hp)
  refine ⟨hg.ok (h.owned hp) (h.ok hp), ?_⟩
  ext f
  rw [mem_lowFree, mem_lowFree, hg.used, hg.frames, h.used, h.frames]
  by_cases hf : f = a / pageSize
  · subst hf
    rw [if_pos rfl, h.clear]
  · rw [if_neg hf, if_neg hf]

/-! ## `vmm_map_2m` -/

theorem shift21 (a : Nat) : a >>> 21 = a / page2M := Nat.shiftRight_eq_div_pow a 21

theorem page_pd : Page pdPhys := rfl

theorem huge_lt {i : Nat} (hi : i < 512) : (i * page2M) ||| pdeHuge < 2 ^ 64 := by
  refine or_flags_lt ?_ ?_ (by decide) <;> simp only [Page, page2M, pageSize] <;> omega

/-- One entry: the page directory entries of the 2 MiB pages it covers, and nothing else. -/
theorem map2mEntry_spec (m : Mem) (lo hi : Nat) :
    SameOff pdPhys m (map2mEntry (lo * page2M) (hi * page2M) m) ∧
    ∀ i, i < 512 → ent (map2mEntry (lo * page2M) (hi * page2M) m) pdPhys i =
      if i ≠ 0 ∧ lo ≤ i ∧ i < hi then (i * page2M) ||| pdeHuge else ent m pdPhys i := by
  have hn : (hi * page2M - lo * page2M) / page2M = hi - lo := by
    rw [← Nat.sub_mul, Nat.mul_div_cancel _ (by decide)]
  have hidx : ∀ k, (lo * page2M + k * page2M) >>> 21 = lo + k := by
    intro k
    rw [shift21, ← Nat.add_mul, Nat.mul_div_cancel _ (by decide)]
  have h := loopTo_inv (f := map2mPage (lo * page2M)) (n := hi - lo) (s := m)
    (fun k t => SameOff pdPhys m t ∧ ∀ i, i < 512 → ent t pdPhys i =
      if i ≠ 0 ∧ lo ≤ i ∧ i < lo + k then (i * page2M) ||| pdeHuge else ent m pdPhys i)
    (fun t => SameOff pdPhys m t ∧ ∀ i, i < 512 → ent t pdPhys i =
      if i ≠ 0 ∧ lo ≤ i ∧ i < hi then (i * page2M) ||| pdeHuge else ent m pdPhys i)
    ⟨SameOff.refl _ _, fun i _ => by rw [if_neg (by omega)]⟩ ?_
  · rw [map2mEntry, hn]
    rcases hb : (loopTo (map2mPage (lo * page2M)) (hi - lo) m).2 with _ | _
    · exact h.2 hb
    · obtain ⟨h1, h2⟩ := h.1 hb
      refine ⟨h1, fun i hlt => ?_⟩
      rw [h2 i hlt]
      by_cases hc : i ≠ 0 ∧ lo ≤ i ∧ i < lo + (hi - lo)
      · rw [if_pos hc, if_pos (by omega)]
      · rw [if_neg hc, if_neg (by omega)]
  · rintro k t hk ⟨h1, h2⟩
    simp only [map2mPage, hidx]
    by_cases hge : lo + k ≥ 512
    · rw [if_pos hge]
      refine ⟨fun h => by simp at h, fun _ => ⟨h1, fun i hi => ?_⟩⟩
      rw [h2 i hi]
      -- the pages not looked at lie outside the directory
      by_cases hc : i ≠ 0 ∧ lo ≤ i ∧ i < lo + k
      · rw [if_pos hc, if_pos ⟨hc.1, hc.2.1, by omega⟩]
      · rw [if_neg hc, if_neg (by omega)]
    · rw [if_neg hge]
      refine ⟨fun _ => ?_, fun h => by simp at h⟩
      by_cases h0 : lo + k ≠ 0
      · simp only [if_pos h0]
        refine ⟨h1.trans (sameOff_setEnt _ _ _ _ (by omega)), fun i hi => ?_⟩
        by_cases hik : i = lo + k
        · subst hik
          rw [if_pos ⟨h0, by omega, by omega⟩, ← Nat.add_mul]
          exact ent_setEnt _ _ _ _ (huge_lt hi)
        · rw [ent_setEnt_ne _ _ _ hik, h2 i hi]
          by_cases hc : i ≠ 0 ∧ lo ≤ i ∧ i < lo + k
          · rw [if_pos hc, if_pos ⟨hc.1, hc.2.1, by omega⟩]
          · rw [if_neg hc, if_neg (by omega)]
      · simp only [if_neg h0]
        refine ⟨h1, fun i hi => ?_⟩
        rw [h2 i hi]
        by_cases hc : i ≠ 0 ∧ lo ≤ i ∧ i < lo + k
        · rw [if_pos hc, if_pos ⟨hc.1, hc.2.1, by omega⟩]
        · rw [if_neg hc, if_neg (by omega)]

theorem vmmMap2m_spec : ∀ (es : List E820Entry) (m : Mem), SameOff pdPhys m (vmmMap2m m es) ∧
    ∀ i, i < 512 → ent (vmmMap2m m es) pdPhys i =
      if i ≠ 0 ∧ es.any (fun e => e.large i) then (i * page2M) ||| pdeHuge else ent m pdPhys i
  | [], m => ⟨SameOff.refl _ _, fun i _ => by simp [vmmMap2m]⟩
  | e :: es, m => by
    unfold vmmMap2m
    by_cases hu : e.usable = false
    · rw [if_pos hu]
      obtain ⟨h1, h2⟩ := vmmMap2m_spec es m
      exact ⟨h1, fun i hi => by rw [h2 i hi]; simp [E820Entry.large, hu]⟩
    · rw [if_neg hu]
      have hs : alignUp e.base page2M = alignUp e.base page2M / page2M * page2M := by
        simp only [alignUp, page2M]; omega
      have ht : alignDown e.top page2M = alignDown e.top page2M / page2M * page2M := by
        simp only [alignDown, page2M]; omega
      rw [hs, ht]
      obtain ⟨h1, h2⟩ := map2mEntry_spec m (alignUp e.base page2M / page2M) (alignDown e.top page2M / page2M)
      generalize map2mEntry _ _ m = m' at h1 h2
      obtain ⟨h3, h4⟩ := vmmMap2m_spec es m'
      refine ⟨h1.trans h3, fun i hi => ?_⟩
      rw [h4 i hi, h2 i hi, List.any_cons]
      have hlarge : e.large i = true ↔ alignUp e.base page2M / page2M ≤ i ∧
          i < alignDown e.top page2M / page2M := by
        rw [Bool.not_eq_false] at hu
        simp only [E820Entry.large, hu, Bool.true_and, Bool.and_eq_true, decide_eq_true_eq]
        simp only [page2M] at hs ht ⊢
        omega
      by_cases h0 : i = 0
      · simp [h0]
      · by_cases hes : es.any (fun e => e.large i) = true
        · simp [h0, hes]
        · by_cases he : e.large i = true
          · rw [if_neg (by simp [hes]), if_pos ⟨h0, hlarge.1 he⟩, if_pos ⟨h0, by simp [he]⟩]
          · have hout : ¬(i ≠ 0 ∧ alignUp e.base page2M / page2M ≤ i ∧ i < alignDown e.top page2M / page2M) :=
              fun h => he (hlarge.2 h.2)
            rw [if_neg (by simp [hes]), if_neg hout, if_neg (by simp [hes, he])]

/-! ## `vmm_map_tail_4k` -/

/-- `vmm_map_4k` on a list of addresses, up to the first that fails. -/
def mapAll (vm : Vm) : List Nat → Vm × Bool
  | [] => (vm, true)
  | a :: as =>
    match vmmMap4k vm a with
    | (vm, true) => mapAll vm as
    | (vm, false) => (vm, false)

theorem mapAll_append (vm : Vm) (l l' : List Nat) :
    mapAll vm (l ++ l') =
      match mapAll vm l with
      | (vm, true) => mapAll vm l'
      | (vm, false) => (vm, false) := by
  induction l generalizing vm with
  | nil => rfl
  | cons a l ih =>
    simp only [List.cons_append, mapAll]
    rcases vmmMap4k vm a with ⟨vm', _ | _⟩
    · rfl
    · exact ih vm'

theorem tailLoop_eq (e : E820Entry) (start n : Nat) (vm : Vm) :
    loopTo (fun k vm =>
      let addr := start + k * pageSize
      if e.skip addr then (vm, true) else vmmMap4k vm addr) n vm =
      mapAll vm (((List.range n).map (start + · * pageSize)).filter fun a => e.skip a = false) := by
  induction n with
  | zero => rfl
  | succ n ih =>
    rw [loopTo, ih, List.range_succ, List.map_append, List.filter_append, mapAll_append]
    rcases mapAll vm _ with ⟨vm', _ | _⟩
    · rfl
    · dsimp only
      cases hs : e.skip (start + n * pageSize) with
      | true => simp [hs, mapAll]
      | false =>
        simp only [List.map_cons, List.map_nil, hs, List.filter_cons, decide_true, if_true,
          List.filter_nil, mapAll]
        rcases vmmMap4k vm' (start + n * pageSize) with ⟨vm'', _ | _⟩ <;> rfl

theorem vmmMapTail4k_eq (es : List E820Entry) (vm : Vm) :
    vmmMapTail4k vm es = (mapAll vm (es.flatMap E820Entry.tails)).1 := by
  induction es generalizing vm with
  | nil => rfl
  | cons e es ih =>
    rw [List.flatMap_cons, mapAll_append]
    unfold vmmMapTail4k
    by_cases hu : e.usable = false
    · rw [if_pos hu, ih, show e.tails = [] from if_pos hu]
      simp [mapAll]
    · rw [if_neg hu, E820Entry.tails, if_neg hu]
      dsimp only
      rw [tailLoop_eq]
      rcases mapAll vm _ with ⟨vm', _ | _⟩
      · rfl
      · exact ih vm'

theorem mem_tails {map : E820Map} {a : Nat} (h : a ∈ map.tails) : Page a ∧ page2M ≤ a ∧ a < 2 ^ 64 := by
  obtain ⟨e, -, he⟩ := List.mem_flatMap.1 h
  unfold E820Entry.tails at he
  by_cases hu : e.usable = false
  · rw [if_pos hu] at he; cases he
  · rw [if_neg hu, List.mem_filter, List.mem_map] at he
    obtain ⟨⟨k, hk, rfl⟩, hs⟩ := he
    have h1 := List.mem_range.1 hk
    have htop : e.top < 2 ^ 64 := Nat.mod_lt _ (by decide)
    simp only [E820Entry.skip, decide_eq_true_eq, Bool.or_eq_false_iff, decide_eq_false_iff_not] at hs
    simp only [Page, alignUp, alignDown, pageSize] at *
    omega

/-! ## One call of `vmm_map_4k` -/

/-- The page directory with page tables `pt i` for the entries `tabs` and the pages `done` in them:
2 MiB pages elsewhere, or nothing. Each page table has cost one of the `room` frames below 2 MiB. -/
structure Built (map : E820Map) (room : Nat) (tabs done : Finset Nat) (pt : Nat → Nat) (vm : Vm) : Prop where
  ok : vm.pmm.Ok
  root : ent vm.mem pml4Phys hhdmPml4Index = 0
  dir : ∀ i, i < 512 → ent vm.mem pdPhys i =
    if i = 0 then pdeHuge else if map.huge i = true then (i * page2M) ||| pdeHuge
    else if i ∈ tabs then pt i ||| pteFlags else 0
  page : ∀ i ∈ tabs, ∀ j, j < 512 → ent vm.mem (pt i) j =
    if (i * 512 + j) * pageSize ∈ done then ((i * 512 + j) * pageSize) ||| pteFlags else 0
  owned : ∀ i ∈ tabs, vm.pmm.Owned (pt i) ∧ pt i < page2M
  inj : ∀ i ∈ tabs, ∀ j ∈ tabs, pt i = pt j → i = j
  within : ∀ a ∈ done, a / page2M ∈ tabs
  count : (lowFree vm.pmm).card + tabs.card = room

theorem dirs_insert (a : Nat) (s : Finset Nat) : dirs (insert a s) = insert (a / page2M) (dirs s) := by
  simp [dirs, Finset.image_insert]

theorem fits_iff {map : E820Map} {a : Nat} :
    map.fits a = true ↔ a / page2M < 512 ∧ map.huge (a / page2M) = false := by
  simp [E820Map.fits]

theorem Pmm.Owned.ne_pd {p : Pmm} (hp : p.Ok) {a : Nat} (h : p.Owned a) : a ≠ pdPhys := by
  have h1 := hp.low (Nat.lt_of_le_of_lt (Nat.zero_le _) h.below)
  have h2 := h.above
  simp only [kernelEnd, pdPhys] at *
  omega

section
variable {map : E820Map} {room : Nat} {tabs done : Finset Nat} {pt : Nat → Nat} {vm : Vm} {a : Nat}

/-- What `vmm_map_4k` finds in the page directory. -/
theorem Built.pde (h : Built map room tabs done pt vm) (h2 : page2M ≤ a) (hlt : a / page2M < 512) :
    ent vm.mem pdPhys (a / page2M) = if map.huge (a / page2M) = true then (a / page2M * page2M) ||| pdeHuge
      else if a / page2M ∈ tabs then pt (a / page2M) ||| pteFlags else 0 := by
  rw [h.dir _ hlt, if_neg]
  simp only [page2M] at *
  omega

theorem large_page (i : Nat) : Page (i * page2M) := by
  simp only [Page, page2M, pageSize]
  omega

/-- A page outside the first GiB or inside a 2 MiB page is refused. -/
theorem Built.refuse (h : Built map room tabs done pt vm) (h2 : page2M ≤ a) (hf : map.fits a = false) :
    vmmMap4k vm a = (vm, false) := by
  unfold vmmMap4k
  simp only [shift21]
  by_cases hlt : a / page2M < 512
  · have hh : map.huge (a / page2M) = true := by
      by_contra hn
      rw [fits_iff.2 ⟨hlt, by simpa using hn⟩] at hf
      cases hf
    rw [h.pde h2 hlt, if_pos hh, or_flags_and (large_page _) (by decide),
      if_pos (c := pdeHuge &&& pdeLarge ≠ 0) (by decide)]
    split <;> rfl
  · rw [if_pos (Or.inr (by omega))]

/-- No page table for it yet and no frame below 2 MiB to make one. -/
theorem Built.starve (h : Built map room tabs done pt vm) (hp : Page a) (h2 : page2M ≤ a)
    (hf : map.fits a = true) (hd : a / page2M ∉ tabs) (h0 : (lowFree vm.pmm).card = 0) :
    ∃ p, vmmMap4k vm a = ({ vm with pmm := p }, false) ∧ p.Ok ∧ (lowFree p).card = 0 := by
  obtain ⟨hlt, hh⟩ := fits_iff.1 hf
  have hpde := h.pde h2 hlt
  rw [if_neg (by simp [hh]), if_neg hd] at hpde
  unfold vmmMap4k
  simp only [shift21]
  have h00 : a &&& 0xFFF = 0 := by
    rw [show (0xFFF : Nat) = 2 ^ 12 - 1 from rfl, Nat.and_two_pow_sub_one_eq_mod]
    exact hp
  rw [if_neg (by rintro (h' | h') <;> omega), hpde, if_neg (by decide), if_pos (by decide)]
  rcases pmmAlloc_high h.ok h0 with h1 | ⟨h1, h3, h4⟩
  · rw [if_pos (Or.inl h1), if_neg (fun h' => h' h1)]
    rcases pmmAlloc_spec vm.pmm h.ok with h5 | ⟨h5, -⟩
    · rw [h5]
      exact ⟨_, rfl, h.ok, h0⟩
    · exact absurd h1 h5
  · rw [if_pos (Or.inr h3), if_pos h1]
    obtain ⟨h5, h6⟩ := lowFree_back h.ok h4
    exact ⟨_, rfl, h5, by rw [h6]; exact h0⟩

theorem pageI (a : Nat) : (a >>> 12) &&& 511 = a / pageSize % 512 := by
  rw [Nat.shiftRight_eq_div_pow, show (511 : Nat) = 2 ^ 9 - 1 from rfl, Nat.and_two_pow_sub_one_eq_mod]

/-- The page of `a` inside its page table. -/
theorem page_of (hp : Page a) : (a / page2M * 512 + a / pageSize % 512) * pageSize = a := by
  simp only [Page, page2M, pageSize] at *
  omega

/-- A new page table: an empty page behind an empty entry. -/
theorem Built.addTable (h : Built map room tabs done pt vm) {i q : Nat} {p : Pmm} (h0 : i ≠ 0) (hlt : i < 512)
    (hh : map.huge i = false) (hi : i ∉ tabs) (hq : q < page2M) (ht : vm.pmm.Took q p) :
    Built map room (insert i tabs) done (Function.update pt i q)
      { vm with mem := setEnt (zeroPage vm.mem q) pdPhys i (q ||| pteFlags), pmm := p } := by
  have hok := ht.ok h.ok
  have hown := ht.owned h.ok
  have hmem : ∀ t, Page t → t ≠ q → t ≠ pdPhys → ∀ j, j < 512 →
      ent (setEnt (zeroPage vm.mem q) pdPhys i (q ||| pteFlags)) t j = ent vm.mem t j := by
    intro t hpt htq htp j hj
    rw [(sameOff_setEnt _ _ _ _ hlt).ent page_pd hpt htp hj, (sameOff_zeroPage _ _).ent hown.page hpt htq hj]
  have hupd : ∀ k ∈ tabs, Function.update pt i q k = pt k := by
    intro k hk
    rw [Function.update_of_ne]
    rintro rfl
    exact hi hk
  refine ⟨hok, ?_, ?_, ?_, ?_, ?_, fun a ha => Finset.mem_insert_of_mem (h.within a ha), ?_⟩
  · exact (hmem pml4Phys rfl (hown.ne_boot hok).symm (by decide) _ (by decide)).trans h.root
  · intro k hk
    by_cases hki : k = i
    · subst hki
      rw [if_neg h0, if_neg (by simp [hh]), if_pos (Finset.mem_insert_self _ _), Function.update_self]
      exact ent_setEnt _ _ _ _ (or_flags_lt hown.page ((hown.lt hok).trans (by decide)) (by decide))
    · dsimp only
      rw [ent_setEnt_ne _ _ _ hki, (sameOff_zeroPage _ _).ent hown.page page_pd
        (hown.ne_pd hok).symm hk, h.dir k hk, Function.update_of_ne hki]
      simp only [Finset.mem_insert, hki, false_or]
  · intro k hk j hj
    rcases Finset.mem_insert.1 hk with rfl | hk
    · have hnone : (k * 512 + j) * pageSize ∉ done := by
        intro hd
        have hin := h.within _ hd
        rw [show (k * 512 + j) * pageSize / page2M = k by simp only [pageSize, page2M]; omega] at hin
        exact hi hin
      rw [Function.update_self, if_neg hnone]
      dsimp only
      rw [(sameOff_setEnt _ _ _ _ hlt).ent page_pd hown.page (hown.ne_pd hok) hj]
      exact ent_zeroPage _ _ hj
    · obtain ⟨hok', -⟩ := h.owned k hk
      rw [hupd k hk]
      dsimp only
      rw [hmem _ hok'.page (ht.fresh hok') (hok'.ne_pd h.ok) _ hj]
      exact h.page k hk j hj
  · intro k hk
    rcases Finset.mem_insert.1 hk with rfl | hk
    · rw [Function.update_self]
      exact ⟨hown, hq⟩
    · rw [hupd k hk]
      exact ⟨ht.mono (h.owned k hk).1, (h.owned k hk).2⟩
  · have hne : ∀ k ∈ tabs, pt k ≠ q := fun k hk => ht.fresh (h.owned k hk).1
    intro k hk l hl
    rcases Finset.mem_insert.1 hk with rfl | hk' <;> rcases Finset.mem_insert.1 hl with rfl | hl'
    · exact fun _ => rfl
    · rw [Function.update_self, hupd l hl']
      exact fun e => absurd e.symm (hne l hl')
    · rw [Function.update_self, hupd k hk']
      exact fun e => absurd e (hne k hk')
    · rw [hupd k hk', hupd l hl']
      exact h.inj k hk' l hl'
  · rw [Finset.card_insert_of_notMem hi, ← h.count, ← lowFree_took ht hq]
    dsimp only
    omega

/-- One page more in a page table that is there. -/
theorem Built.setPage (h : Built map room tabs done pt vm) (hp : Page a) (hlt : a < 2 ^ 30)
    (hi : a / page2M ∈ tabs) :
    Built map room tabs (insert a done) pt
      { vm with mem := setEnt vm.mem (pt (a / page2M)) (a / pageSize % 512) (a ||| pteFlags) } := by
  obtain ⟨hown, -⟩ := h.owned _ hi
  have hoff := sameOff_setEnt vm.mem (pt (a / page2M)) (a / pageSize % 512) (a ||| pteFlags)
    (Nat.mod_lt _ (by decide))
  refine ⟨h.ok, ?_, ?_, ?_, h.owned, h.inj, ?_, h.count⟩
  · exact (hoff.ent hown.page (show Page pml4Phys from rfl) (hown.ne_boot h.ok).symm (by decide)).trans h.root
  · intro k hk
    exact (hoff.ent hown.page page_pd (hown.ne_pd h.ok).symm hk).trans (h.dir k hk)
  · intro k hk j hj
    dsimp only
    by_cases hki : k = a / page2M
    · subst hki
      by_cases hja : j = a / pageSize % 512
      · subst hja
        rw [page_of hp, if_pos (Finset.mem_insert_self _ _)]
        exact ent_setEnt _ _ _ _ (or_flags_lt hp (by simp only [pageSize]; omega) (by decide))
      · have hne : (a / page2M * 512 + j) * pageSize ≠ a := by
          simp only [page2M, pageSize] at *
          omega
        rw [ent_setEnt_ne _ _ _ hja, h.page _ hk j hj]
        simp only [Finset.mem_insert, hne, false_or]
    · have hne : (k * 512 + j) * pageSize ≠ a := by
        simp only [page2M, pageSize] at *
        omega
      rw [hoff.ent hown.page (h.owned k hk).1.page (fun e => hki (h.inj k hk _ hi e)) hj, h.page k hk j hj]
      simp only [Finset.mem_insert, hne, false_or]
  · intro b hb
    rcases Finset.mem_insert.1 hb with rfl | hb
    · exact hi
    · exact h.within b hb

/-- Any other page is mapped. -/
theorem Built.map4k (h : Built map room tabs done pt vm) (hp : Page a) (h2 : page2M ≤ a)
    (hf : map.fits a = true) (hroom : a / page2M ∈ tabs ∨ (lowFree vm.pmm).card ≠ 0) :
    ∃ vm' pt', vmmMap4k vm a = (vm', true) ∧
      Built map room (insert (a / page2M) tabs) (insert a done) pt' vm' := by
  obtain ⟨hlt, hh⟩ := fits_iff.1 hf
  have hpde := h.pde h2 hlt
  have h30 : a < 2 ^ 30 := by simp only [page2M] at *; omega
  rw [if_neg (by simp [hh])] at hpde
  unfold vmmMap4k
  simp only [shift21, pageI]
  have h00 : a &&& 0xFFF = 0 := by
    rw [show (0xFFF : Nat) = 2 ^ 12 - 1 from rfl, Nat.and_two_pow_sub_one_eq_mod]
    exact hp
  rw [if_neg (by rintro (h' | h') <;> omega), hpde]
  by_cases hi : a / page2M ∈ tabs
  · obtain ⟨hown, -⟩ := h.owned _ hi
    rw [if_pos hi, or_flags_and hown.page (by decide), if_neg (by decide), or_flags_and hown.page (by decide),
      if_neg (by decide), or_flags_addr hown.page (by have := hown.lt h.ok; omega) (by decide),
        Finset.insert_eq_of_mem hi]
    exact ⟨_, _, rfl, h.setPage hp h30 hi⟩
  · obtain ⟨h1, h3, h4⟩ := pmmAlloc_low h.ok (hroom.resolve_left hi)
    have hown := h4.owned h.ok
    rw [if_neg hi, if_neg (by decide), if_pos (by decide), if_neg (by omega),
      or_flags_addr hown.page (by have := hown.lt (h4.ok h.ok); omega) (by decide)]
    have hadd := h.addTable (i := a / page2M) (by simp only [page2M] at *; omega) hlt hh hi h3 h4
    have hset := hadd.setPage hp h30 (Finset.mem_insert_self _ _)
    rw [Function.update_self] at hset
    exact ⟨_, _, rfl, hset⟩

end

/-! ## The whole loop -/

section
variable {map : E820Map} {room : Nat} {tabs done : Finset Nat} {pt : Nat → Nat} {vm : Vm}

/-- The loop maps `reach`, or has used up the frames below 2 MiB before the end of it. -/
theorem Built.run : ∀ {l : List Nat} {done : Finset Nat} {pt : Nat → Nat} {vm : Vm},
    (∀ a ∈ l, Page a ∧ page2M ≤ a) → Built map room (dirs done) done pt vm →
    ((dirs ((l.takeWhile map.fits).toFinset ∪ done)).card ≤ room →
      ∃ pt', Built map room (dirs ((l.takeWhile map.fits).toFinset ∪ done))
        ((l.takeWhile map.fits).toFinset ∪ done)
        pt' (mapAll vm l).1) ∧
    (room < (dirs ((l.takeWhile map.fits).toFinset ∪ done)).card →
      (mapAll vm l).1.pmm.Ok ∧ (lowFree (mapAll vm l).1.pmm).card = 0 ∧
        ent (mapAll vm l).1.mem pml4Phys hhdmPml4Index = 0)
  | [], done, pt, vm, _, h => by
    simp only [List.takeWhile_nil, List.toFinset_nil, Finset.empty_union, mapAll]
    exact ⟨fun _ => ⟨pt, h⟩, fun hlt => absurd h.count (by omega)⟩
  | a :: l, done, pt, vm, hl, h => by
    obtain ⟨hp, h2⟩ := hl a List.mem_cons_self
    by_cases hf : map.fits a = true
    · by_cases hroom : a / page2M ∈ dirs done ∨ (lowFree vm.pmm).card ≠ 0
      · obtain ⟨vm', pt', h3, h4⟩ := h.map4k hp h2 hf hroom
        rw [← dirs_insert] at h4
        have ih := Built.run (fun b hb => hl b (List.mem_cons_of_mem _ hb)) h4
        rw [List.takeWhile_cons, if_pos hf, List.toFinset_cons, Finset.insert_union, ← Finset.union_insert]
        simp only [mapAll, h3]
        exact ih
      · -- the first page of `reach` without a page table stays unmapped
        rw [not_or, not_not] at hroom
        obtain ⟨p, h3, h4, h5⟩ := h.starve hp h2 hf hroom.1 hroom.2
        simp only [mapAll, h3]
        refine ⟨fun hle => ?_, fun _ => ⟨h4, h5, h.root⟩⟩
        exfalso
        have hsub : insert (a / page2M) (dirs done) ⊆ dirs (((a :: l).takeWhile map.fits).toFinset ∪
            done) := by
          rw [← dirs_insert]
          apply Finset.image_subset_image
          rw [List.takeWhile_cons, if_pos hf, List.toFinset_cons]
          intro b hb
          rcases Finset.mem_insert.1 hb with rfl | hb
          · exact Finset.mem_union_left _ (Finset.mem_insert_self _ _)
          · exact Finset.mem_union_right _ hb
        have hcard := Finset.card_le_card hsub
        rw [Finset.card_insert_of_notMem hroom.1] at hcard
        have hcount := h.count
        omega
    · rw [List.takeWhile_cons, if_neg hf]
      simp only [List.toFinset_nil, Finset.empty_union, mapAll, h.refuse h2 (by simpa using hf)]
      exact ⟨fun _ => ⟨pt, h⟩, fun hlt => absurd h.count (by omega)⟩

end

/-! ## What stage 2 leaves -/

theorem stage2_root (m : Mem) : ent (stage2 m) pml4Phys hhdmPml4Index = 0 := by
  have hp : Page pml4Phys := rfl
  unfold stage2
  rw [(sameOff_setEnt _ _ _ _ (by decide)).ent (p := 0x6000) rfl hp (by decide) (by decide),
    (sameOff_setEnt _ _ _ _ (by decide)).ent (p := 0x5000) rfl hp (by decide) (by decide),
    ent_setEnt_ne _ _ _ (by decide), (sameOff_zeroPage _ _).ent (p := 0x6000) rfl hp (by decide) (by decide),
    (sameOff_zeroPage _ _).ent (p := 0x5000) rfl hp (by decide) (by decide),
    (sameOff_setEnt _ _ _ _ (by decide)).ent page_pd hp (by decide) (by decide),
    (sameOff_setEnt _ _ _ _ (by decide)).ent (p := 0x2000) rfl hp (by decide) (by decide),
    ent_setEnt_ne _ _ _ (by decide), (sameOff_zeroPage _ _).ent (p := 0x3000) rfl hp (by decide) (by decide),
    (sameOff_zeroPage _ _).ent (p := 0x2000) rfl hp (by decide) (by decide)]
  exact ent_zeroPage _ _ (by decide)

theorem stage2_dir (m : Mem) {i : Nat} (hi : i < 512) :
    ent (stage2 m) pdPhys i = if i = 0 then pdeHuge else 0 := by
  unfold stage2
  rw [(sameOff_setEnt _ _ _ _ (by decide)).ent (p := 0x6000) rfl page_pd (by decide) hi,
    (sameOff_setEnt _ _ _ _ (by decide)).ent (p := 0x5000) rfl page_pd (by decide) hi,
    (sameOff_setEnt _ _ _ _ (by decide)).ent (p := pml4Phys) rfl page_pd (by decide) hi,
    (sameOff_zeroPage _ _).ent (p := 0x6000) rfl page_pd (by decide) hi,
    (sameOff_zeroPage _ _).ent (p := 0x5000) rfl page_pd (by decide) hi]
  by_cases h0 : i = 0
  · subst h0
    exact ent_setEnt _ _ _ _ (by decide)
  · rw [if_neg h0, ent_setEnt_ne _ _ _ h0,
      (sameOff_setEnt _ _ _ _ (by decide)).ent (p := 0x2000) rfl page_pd (by decide) hi,
      (sameOff_setEnt _ _ _ _ (by decide)).ent (p := pml4Phys) rfl page_pd (by decide) hi]
    exact ent_zeroPage _ _ hi

theorem built_start (map : E820Map) (m : Mem) (tab : CowTab) (pt : Nat → Nat) :
    Built map (lowFree (pmmInit map)).card (dirs ∅) ∅ pt ⟨vmmMap2m (stage2 m) map.seen, pmmInit map,
    tab, false⟩ := by
  obtain ⟨h1, h2⟩ := vmmMap2m_spec map.seen (stage2 m)
  refine ⟨pmmInit_ok map, ?_, ?_, ?_, ?_, ?_, ?_, ?_⟩
  · exact (h1.ent page_pd (show Page pml4Phys from rfl) (by decide) (by decide)).trans (stage2_root m)
  · intro i hi
    rw [h2 i hi, stage2_dir m hi]
    by_cases h0 : i = 0
    · simp [h0]
    · simp [h0, E820Map.huge, hi, dirs]
  all_goals simp [dirs]

/-! ## `vmm_hhdm_init` and the walk -/

section
variable {map : E820Map} {room : Nat} {tabs done : Finset Nat} {pt : Nat → Nat} {vm : Vm} {a : Nat}

theorem hhdm_pml4I (ha : a < 2 ^ 39) : pml4I (hhdmBase + a) = hhdmPml4Index := by
  rw [pml4I, Nat.shiftRight_eq_div_pow, show (511 : Nat) = 2 ^ 9 - 1 from rfl, Nat.and_two_pow_sub_one_eq_mod]
  simp only [hhdmBase, hhdmPml4Index]
  omega

theorem hhdm_pdptI (ha : a < 2 ^ 39) : pdptI (hhdmBase + a) = a / 2 ^ 30 := by
  rw [pdptI, Nat.shiftRight_eq_div_pow, show (511 : Nat) = 2 ^ 9 - 1 from rfl, Nat.and_two_pow_sub_one_eq_mod]
  simp only [hhdmBase]
  omega

theorem hhdm_pdI (a : Nat) : pdI (hhdmBase + a) = a / page2M % 512 := by
  rw [pdI, Nat.shiftRight_eq_div_pow, show (511 : Nat) = 2 ^ 9 - 1 from rfl, Nat.and_two_pow_sub_one_eq_mod]
  simp only [hhdmBase, page2M]
  omega

theorem hhdm_ptI (a : Nat) : ptI (hhdmBase + a) = a / pageSize % 512 := by
  rw [ptI, Nat.shiftRight_eq_div_pow, show (511 : Nat) = 2 ^ 9 - 1 from rfl, Nat.and_two_pow_sub_one_eq_mod]
  simp only [hhdmBase, pageSize]
  omega

theorem hhdm_mod2M (a : Nat) : (hhdmBase + a) % page2M = a % page2M := by
  simp only [hhdmBase, page2M]
  omega

theorem hhdm_off (hp : Page a) : (hhdmBase + a) % pageSize = 0 := by
  simp only [Page, hhdmBase, pageSize] at *
  omega

/-- Without entry 256 of the PML4 nothing is mapped. -/
theorem hhdm_unmapped (h : ent vm.mem pml4Phys hhdmPml4Index = 0) (ha : a < 2 ^ 39) : ¬InHhdm vm a := by
  unfold InHhdm storePhys next
  rw [hhdm_pml4I ha, h, if_neg (by decide)]
  simp

/-- The tables `vmm_hhdm_init` leaves when it finds a frame: the PDPT `q` has the page directory as
its only entry. -/
theorem Built.init (h : Built map room tabs done pt vm) (hroom : (lowFree vm.pmm).card ≠ 0) :
    ∃ q, ent (vmmHhdmInit vm).mem pml4Phys hhdmPml4Index = q ||| pteFlags ∧ Page q ∧ q < page2M ∧
      (∀ i, i < 512 → ent (vmmHhdmInit vm).mem q i = if i = 0 then pdPhys ||| pteFlags else 0) ∧
      (∀ i, i < 512 → ent (vmmHhdmInit vm).mem pdPhys i = ent vm.mem pdPhys i) ∧
      ∀ i ∈ tabs, ∀ j, j < 512 → ent (vmmHhdmInit vm).mem (pt i) j = ent vm.mem (pt i) j := by
  obtain ⟨h1, h3, h4⟩ := pmmAlloc_low h.ok hroom
  have hown := h4.owned h.ok
  have hok := h4.ok h.ok
  have hboot : Page pml4Phys := rfl
  generalize hq : (pmmAlloc vm.pmm).1 = q at h1 h3 h4 hown hok
  have hinit : (vmmHhdmInit vm).mem =
      setEnt (setEnt (zeroPage vm.mem q) q 0 (pdPhys ||| pteFlags)) pml4Phys hhdmPml4Index
        (q ||| pteFlags) := by
    unfold vmmHhdmInit
    dsimp only
    rw [hq, if_neg (by omega)]
  have hold : ∀ t, Page t → t ≠ q → t ≠ pml4Phys → ∀ j, j < 512 → ent (vmmHhdmInit vm).mem t j =
      ent vm.mem t j := by
    intro t ht htq htb j hj
    rw [hinit, (sameOff_setEnt _ _ _ _ (by decide)).ent hboot ht htb hj,
      (sameOff_setEnt _ _ _ _ (by decide)).ent hown.page ht htq hj, (sameOff_zeroPage _ _).ent
        hown.page ht htq hj]
  refine ⟨q, ?_, hown.page, h3, fun i hi => ?_, fun i hi => ?_, fun i hi j hj => ?_⟩
  · rw [hinit]
    exact ent_setEnt _ _ _ _ (or_flags_lt hown.page ((hown.lt hok).trans (by decide)) (by decide))
  · rw [hinit, (sameOff_setEnt _ _ _ _ (by decide)).ent hboot hown.page (hown.ne_boot hok) hi]
    by_cases h0 : i = 0
    · subst h0
      exact ent_setEnt _ _ _ _ (by decide)
    · rw [if_neg h0, ent_setEnt_ne _ _ _ h0, ent_zeroPage _ _ hi]
  · exact hold _ page_pd (hown.ne_pd hok).symm (by decide) i hi
  · obtain ⟨ho, -⟩ := h.owned i hi
    exact hold _ ho.page (h4.fresh ho) (ho.ne_boot h.ok) j hj

/-- The walk through tables that `Built` describes. -/
theorem Built.walk (h : Built map room tabs done pt vm) {m : Mem} {q virt : Nat} (hq : Page q)
    (hq64 : q < 2 ^ 64) (h1 : ent m pml4Phys hhdmPml4Index = q ||| pteFlags)
    (h2 : ∀ i, i < 512 → ent m q i = if i = 0 then pdPhys ||| pteFlags else 0)
    (h3 : ∀ i, i < 512 → ent m pdPhys i = ent vm.mem pdPhys i)
    (h4 : ∀ i ∈ tabs, ∀ j, j < 512 → ent m (pt i) j = ent vm.mem (pt i) j)
    (hfit : ∀ b ∈ done, b < 2 ^ 30) (hp : Page a) (ha : a < 2 ^ 39)
    (i4 : pml4I virt = hhdmPml4Index) (i3 : pdptI virt = a / 2 ^ 30)
    (i2 : pdI virt = a / page2M % 512) (i1 : ptI virt = a / pageSize % 512)
    (hmod : virt % page2M = a % page2M) (hoff : virt % pageSize = 0) :
    storePhys m pml4Phys virt = some a ↔ a < page2M ∨ map.huge (a / page2M) = true ∨ a ∈ done := by
  unfold storePhys
  have hroot : next writeTable m pml4Phys (pml4I virt) = some q := by
    unfold next writeTable
    rw [i4, h1, or_flags_and hq (by decide), or_flags_and hq (by decide), or_flags_and hq (by decide),
      or_flags_addr hq hq64 (by decide)]
    rfl
  rw [hroot, Option.bind_eq_bind, Option.bind_some]
  by_cases h30 : a < 2 ^ 30
  · have hlt' : a / page2M < 512 := by simp only [page2M]; omega
    have hpdpt : next writeTable m q (pdptI virt) = some pdPhys := by
      unfold next
      rw [i3, h2 _ (by omega), if_pos (c := a / 2 ^ 30 = 0) (by omega)]
      rfl
    rw [hpdpt, Option.bind_some, i2, Nat.mod_eq_of_lt hlt', hmod]
    have hpde := h.dir _ hlt'
    rw [← h3 _ hlt'] at hpde
    dsimp only
    by_cases h0 : a / page2M = 0
    · rw [if_pos h0] at hpde
      have h0' : a < page2M := by simp only [page2M] at *; omega
      rw [hpde, if_neg (by decide), if_pos (by decide), Nat.mod_eq_of_lt h0',
        show (pdeHuge &&& addrMask) = 0 from rfl]
      simp [h0']
    · have h0' : ¬a < page2M := by simp only [page2M] at *; omega
      rw [if_neg h0] at hpde
      by_cases hh : map.huge (a / page2M) = true
      · have hpage := large_page (a / page2M)
        rw [if_pos hh] at hpde
        have hw : writeLeaf (a / page2M * page2M ||| pdeHuge) = true := by
          rw [writeLeaf, or_flags_and hpage (by decide), or_flags_and hpage (by decide)]
          rfl
        rw [hpde, if_neg (by simp [hw]), or_flags_and hpage (by decide), if_pos (by decide),
          or_flags_addr hpage (by simp only [page2M]; omega) (by decide), Nat.mul_div_cancel _ (by decide)]
        simp [hh, Nat.div_add_mod']
      · have hnd : a / page2M ∉ tabs → a ∉ done := fun hn hd => hn (h.within a hd)
        rw [if_neg hh] at hpde
        by_cases hi : a / page2M ∈ tabs
        · obtain ⟨ho, -⟩ := h.owned _ hi
          have hent := h.page _ hi (a / pageSize % 512) (Nat.mod_lt _ (by decide))
          rw [← h4 _ hi _ (Nat.mod_lt _ (by decide)), page_of hp] at hent
          rw [if_pos hi] at hpde
          have hw : writeLeaf (pt (a / page2M) ||| pteFlags) = true := by
            rw [writeLeaf, or_flags_and ho.page (by decide), or_flags_and ho.page (by decide)]
            rfl
          have ho64 := ho.lt h.ok
          rw [hpde, if_neg (by simp [hw]), or_flags_and ho.page (by decide), if_neg (by decide),
            or_flags_addr ho.page (by omega) (by decide), i1]
          unfold next
          rw [hent]
          by_cases hd : a ∈ done
          · have hwa : writeLeaf (a ||| pteFlags) = true := by
              rw [writeLeaf, or_flags_and hp (by decide), or_flags_and hp (by decide)]
              rfl
            rw [if_pos hd, if_pos hwa, or_flags_addr hp (by omega) (by decide)]
            simp [hoff, hd]
          · rw [if_neg hd, if_neg (by decide)]
            simp [h0', hh, hd]
        · rw [if_neg hi] at hpde
          rw [hpde, if_pos (by decide)]
          simp [h0', hh, hnd hi]
  · have h0' : ¬a < page2M := by simp only [page2M]; omega
    have hh : map.huge (a / page2M) = false := by
      have : ¬a / page2M < 512 := by simp only [page2M]; omega
      simp [E820Map.huge, this]
    have hd : a ∉ done := fun hd => h30 (hfit a hd)
    have hpdpt : next writeTable m q (pdptI virt) = none := by
      unfold next
      rw [i3, h2 _ (by omega), if_neg (c := a / 2 ^ 30 = 0) (by omega)]
      rfl
    rw [hpdpt]
    simp [h0', hh, hd]

/-- What the map shows then: the first 2 MiB, the 2 MiB pages, and the pages done one by one. -/
theorem Built.mapped (h : Built map room tabs done pt vm) (hroom : (lowFree vm.pmm).card ≠ 0)
    (hfit : ∀ b ∈ done, b < 2 ^ 30) (hp : Page a) (ha : a < 2 ^ 39) :
    InHhdm (vmmHhdmInit vm) a ↔ a < page2M ∨ map.huge (a / page2M) = true ∨ a ∈ done := by
  obtain ⟨q, h1, hq, hlt, h2, h3, h4⟩ := h.init hroom
  exact h.walk hq (hlt.trans (by decide)) h1 h2 h3 h4 hfit hp ha (hhdm_pml4I ha) (hhdm_pdptI ha) (hhdm_pdI a)
    (hhdm_ptI a) (hhdm_mod2M a) (hhdm_off hp)

end

/-! ## The frames `pmm_init` leaves free -/

/-- The frame lies inside the entry. -/
def E820Entry.holds (e : E820Entry) (f : Nat) : Prop :=
  e.usable = true ∧ alignUp e.base pageSize ≤ f * pageSize ∧ f * pageSize < alignDown e.top pageSize

theorem usable_iff {e : E820Entry} : e.usable = true ↔ e.type = 1 ∧ e.length ≠ 0 ∧ e.base ≤ e.top := by
  simp only [E820Entry.usable, Bool.and_eq_true, bne_iff_ne, ne_eq, decide_eq_true_eq, beq_iff_eq, and_assoc]

theorem markFree_used (p : Pmm) (hb : p.bitmapPhys ≠ 0) (g : Nat) {f : Nat} (hf : f < p.frameCount) :
    (p.markFree g).used f = false ↔ p.used f = false ∨ f = g := by
  unfold markFree
  by_cases hg : g ≥ p.frameCount ∨ p.bitmapPhys = 0
  · rw [if_pos hg]
    constructor
    · exact Or.inl
    · rintro (h | rfl)
      · exact h
      · rcases hg with hg | hg
        · omega
        · exact absurd hg hb
  · rw [if_neg hg]
    by_cases hu : p.used g = true
    · rw [if_pos hu]
      by_cases hfg : f = g
      · simp [hfg]
      · simp [hfg]
    · rw [if_neg hu]
      constructor
      · exact Or.inl
      · rintro (h | rfl)
        · exact h
        · simpa using hu

theorem markRegionFree_used (p : Pmm) (hb : p.bitmapPhys ≠ 0) (e : E820Entry) (ht : e.type = 1) {f : Nat}
    (hf : f < p.frameCount) :
    (pmmMarkRegionFree p e.base e.length).used f = false ↔ p.used f = false ∨ e.holds f := by
  unfold pmmMarkRegionFree E820Entry.holds
  rw [usable_iff, E820Entry.top]
  dsimp only
  generalize (e.base + e.length) % 2 ^ 64 = top
  have hs : alignUp e.base pageSize = alignUp e.base pageSize / pageSize * pageSize := by
    simp only [alignUp, pageSize]
    omega
  have ht' : alignDown top pageSize = alignDown top pageSize / pageSize * pageSize := by
    simp only [alignDown, pageSize]
    omega
  by_cases hc : e.length = 0 ∨ top < e.base
  · rw [if_pos hc]
    constructor
    · exact Or.inl
    · rintro (h | ⟨⟨-, h1, h2⟩, -⟩)
      · exact h
      · omega
  · rw [if_neg hc, hs, ht']
    generalize alignUp e.base pageSize / pageSize = lo
    generalize alignDown top pageSize / pageSize = hi
    have hn : (hi * pageSize - lo * pageSize) / pageSize = hi - lo := by
      rw [← Nat.sub_mul, Nat.mul_div_cancel _ (by decide)]
    have h := (forTo_inv (f := fun k q => q.markFree (lo + k)) (s := p) (n := hi - lo)
      (fun k q => (q.frameCount = p.frameCount ∧ q.bitmapPhys = p.bitmapPhys) ∧
        (q.used f = false ↔ p.used f = false ∨ lo ≤ f ∧ f < lo + k)) ⟨⟨rfl, rfl⟩, ?_⟩ ?_).2
    · rw [Nat.mul_div_cancel _ (by decide), hn, h]
      refine or_congr Iff.rfl ?_
      simp only [pageSize]
      omega
    · constructor
      · exact Or.inl
      · rintro (h | h)
        · exact h
        · omega
    · rintro k q - ⟨⟨h1, h2⟩, h3⟩
      refine ⟨⟨(markFree_frames q _).trans h1, (markFree_bitmap q _).trans h2⟩, ?_⟩
      rw [markFree_used q (h2 ▸ hb) _ (h1 ▸ hf), h3]
      by_cases hfk : f = lo + k
      · subst hfk
        simp
      · simp only [hfk, or_false]
        rw [show (f < lo + k ↔ f < lo + (k + 1)) by omega]

theorem markUsable_used :
    ∀ (es : List E820Entry) (p : Pmm), p.bitmapPhys ≠ 0 → ∀ {f : Nat}, f < p.frameCount →
    ((markUsable p es).used f = false ↔ p.used f = false ∨ ∃ e ∈ es, e.holds f)
  | [], p, _, f, _ => by simp [markUsable]
  | e :: es, p, hb, f, hf => by
    unfold markUsable
    by_cases ht : e.type = 1
    · rw [if_pos ht]
      obtain ⟨h1, h2⟩ := markUsable_keeps [e] p
      simp only [markUsable, if_pos ht] at h1 h2
      rw [markUsable_used es _ (h2 ▸ hb) (h1 ▸ hf), markRegionFree_used p hb e ht hf, or_assoc,
        List.exists_mem_cons_iff]
    · have hn : ¬e.holds f := by
        rintro ⟨h1, -⟩
        simp [E820Entry.usable, ht] at h1
      rw [if_neg ht, markUsable_used es p hb hf, List.exists_mem_cons_iff]
      simp [hn]

/-- The last loop sets bits below its bound only. -/
theorem reserve_used (q : Pmm) (n : Nat) {f : Nat} (hf : n ≤ f) :
    (forTo (fun f p => p.markUsed f) n q).used f = q.used f := by
  refine forTo_inv (fun _ (r : Pmm) => r.used f = q.used f) rfl ?_
  intro i r hi h
  unfold markUsed
  split
  · exact h
  · split
    · dsimp only
      rw [if_neg (by omega), h]
    · exact h

/-- A frame above the bitmap is free when an entry of the map holds it. -/
theorem pmmInit_free (map : E820Map) {f : Nat} (hf : f < (pmmInit map).frameCount)
    (h2 : page2M ≤ f * pageSize) (he : ∃ e ∈ map.seen, e.holds f) :
    (pmmInit map).used f = false := by
  have hbp : alignUp kernelEnd pageSize = 0x126000 := by decide
  revert hf
  unfold pmmInit
  simp only [hbp, identityEnd]
  rw [if_neg (by decide)]
  generalize maxPhys map.seen 0 / pageSize = frames
  generalize hfc : (if frames > (0x200000 - 0x126000) * 8 then (0x200000 - 0x126000) * 8 else frames) = fc
  split
  · intro hf
    simp [Pmm.empty] at hf
  · rename_i hne
    obtain ⟨r1, -⟩ := reserve_spec { markUsable ⟨fun _ => true, fc, 0, 0, 0x126000⟩ map.seen with
      reservedEnd := alignUp (0x126000 + (fc + 7) / 8) pageSize }
      (alignUp (0x126000 + (fc + 7) / 8) pageSize / pageSize)
    obtain ⟨k1, -⟩ := markUsable_keeps map.seen ⟨fun _ => true, fc, 0, 0, 0x126000⟩
    intro hf
    rw [r1, k1] at hf
    have hres : alignUp (0x126000 + (fc + 7) / 8) pageSize / pageSize ≤ f := by
      simp only [alignUp, pageSize, page2M, not_or, Nat.not_lt, gt_iff_lt] at *
      omega
    rw [reserve_used _ _ hres]
    exact (markUsable_used map.seen _ (by simp) hf).2 (Or.inr he)

/-! ## The map after boot -/

/-- Without a frame for it `vmm_hhdm_init` leaves the tables alone. -/
theorem vmmHhdmInit_starved {vm : Vm} (hok : vm.pmm.Ok) (h0 : (lowFree vm.pmm).card = 0) :
    (vmmHhdmInit vm).mem = vm.mem := by
  unfold vmmHhdmInit
  dsimp only
  rcases pmmAlloc_high hok h0 with h1 | ⟨-, h1, -⟩
  · rw [if_pos (Or.inl h1)]
  · rw [if_pos (Or.inr h1)]

theorem fits_reach {map : E820Map} {a : Nat} (h : a ∈ map.reach) : map.fits a = true := by
  have hall := List.all_takeWhile (p := map.fits) (l := map.tails)
  exact List.all_eq_true.1 hall a h

/-- What the higher-half map shows after boot, for every page of its 512 GiB. -/
theorem boot_mapped (map : E820Map) (m : Mem) {a : Nat} (hp : Page a) (ha : a < 2 ^ 39) :
    InHhdm (boot map m) a ↔ map.covers a := by
  have hstart := built_start map m (List.replicate cowMax ⟨0, 0⟩) id
  obtain ⟨h1, h2⟩ := hstart.run (l := map.tails) fun b hb => ⟨(mem_tails hb).1, (mem_tails hb).2.1⟩
  rw [Finset.union_empty] at h1 h2
  unfold boot vmmMapUsable
  rw [vmmMapTail4k_eq]
  rw [show map.seen.flatMap E820Entry.tails = map.tails from rfl]
  generalize hrun : (mapAll _ map.tails).1 = vm at h1 h2 ⊢
  have hfit : ∀ b ∈ map.reach.toFinset, b < 2 ^ 30 := by
    intro b hb
    obtain ⟨h3, -⟩ := fits_iff.1 (fits_reach (List.mem_toFinset.1 hb))
    simp only [page2M] at h3
    omega
  unfold E820Map.covers
  rw [← List.mem_toFinset (l := map.reach)]
  unfold E820Map.reach at *
  generalize (map.tails.takeWhile map.fits).toFinset = done at h1 h2 hfit ⊢
  rcases Nat.lt_or_ge (lowFree (pmmInit map)).card (dirs done).card with hlt | hle
  · obtain ⟨h3, h4, h5⟩ := h2 hlt
    have hnone : ¬InHhdm (vmmHhdmInit vm) a := hhdm_unmapped (by rw [vmmHhdmInit_starved h3 h4]; exact h5) ha
    constructor
    · exact fun h => absurd h hnone
    · rintro ⟨h, -⟩
      omega
  · obtain ⟨pt, hb⟩ := h1 hle
    have hcount := hb.count
    by_cases h0 : (lowFree vm.pmm).card = 0
    · have hnone : ¬InHhdm (vmmHhdmInit vm) a :=
        hhdm_unmapped (by rw [vmmHhdmInit_starved hb.ok h0]; exact hb.root) ha
      constructor
      · exact fun h => absurd h hnone
      · rintro ⟨h, -⟩
        omega
    · rw [hb.mapped h0 hfit hp ha]
      have hroom : (dirs done).card < (lowFree (pmmInit map)).card := by omega
      simp only [hroom, true_and]

/-- Every free frame is mapped exactly when each of them is covered. -/
theorem every_frame_mapped (map : E820Map) (m : Mem) :
    (∀ f, f < (pmmInit map).frameCount → (pmmInit map).used f = false → InHhdm (boot map m) (f * pageSize)) ↔
      ∀ f, f < (pmmInit map).frameCount → (pmmInit map).used f = false → map.covers (f * pageSize) := by
  have h : ∀ f, f < (pmmInit map).frameCount →
      (InHhdm (boot map m) (f * pageSize) ↔ map.covers (f * pageSize)) := by
    intro f hf
    have hroom := (pmmInit_ok map).room
    refine boot_mapped map m (Nat.mul_mod_left _ _) ?_
    simp only [pageSize]
    omega
  constructor
  · intro hall f hf hu
    exact (h f hf).1 (hall f hf hu)
  · intro hall f hf hu
    exact (h f hf).2 (hall f hf hu)

/-- Memory that fits the bitmap is managed whole. -/
theorem pmmInit_frames (map : E820Map) (h0 : maxPhys map.seen 0 / pageSize ≠ 0)
    (hle : maxPhys map.seen 0 / pageSize ≤ 0x6D0000) :
    (pmmInit map).frameCount = maxPhys map.seen 0 / pageSize := by
  have hbp : alignUp kernelEnd pageSize = 0x126000 := by decide
  unfold pmmInit
  simp only [hbp, identityEnd]
  rw [if_neg (by decide)]
  generalize maxPhys map.seen 0 / pageSize = frames at h0 hle ⊢
  rw [if_neg (c := frames > (0x200000 - 0x126000) * 8) (by omega), if_neg (by omega), (reserve_spec _ _).1]
  exact (markUsable_keeps _ _).1

/-- A machine with 2 GiB of memory. -/
def twoGiB : E820Map := ⟨24, [⟨0, 0x9FC00, 1⟩, ⟨0x100000, 0x7FF00000, 1⟩]⟩

/-- The frame at 1 GiB is free and not mapped. -/
theorem frame_not_mapped : ¬∀ f, f < (pmmInit twoGiB).frameCount → (pmmInit twoGiB).used f = false →
    InHhdm (boot twoGiB fun _ => 0) (f * pageSize) := by
  intro h
  have hcount := pmmInit_frames twoGiB (by decide) (by decide)
  rw [show maxPhys twoGiB.seen 0 / pageSize = 0x80000 by decide] at hcount
  have hfree : (pmmInit twoGiB).used 0x40000 = false := by
    refine pmmInit_free twoGiB (by rw [hcount]; decide) (by decide) ⟨⟨0x100000, 0x7FF00000, 1⟩, by decide, ?_⟩
    exact ⟨by decide, by decide, by decide⟩
  obtain ⟨-, hc⟩ := (boot_mapped twoGiB (fun _ => 0) (by decide) (by decide)).1
    (h 0x40000 (by rw [hcount]; decide) hfree)
  rcases hc with hc | hc | hc
  · exact absurd hc (by decide)
  · exact absurd hc (by decide)
  · exact absurd (fits_iff.1 (fits_reach hc)).1 (by decide)

end VampireOS
