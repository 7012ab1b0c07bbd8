import VampireOS.Lib.RefTable
import VampireOS.Memory.Pmm

/-!
# Page tables and copy-on-write (kernel/vmm.c)

| here | there |
| --- | --- |
| `Vm` | physical memory, the frame bitmap, `cow_tab` and `hhdm_ready` (vmm.c:38-44) |
| `cowRefs`, `cowClear`, `cowShareFrame`, `cowPut`, `cowFreeLeaf`, `cowUnshare` | vmm.c:271-360 |
| `vmmClonePml4` | `vmm_clone_pml4` (vmm.c:235) |
| `vmmEnsureTable`, `vmmMapUserFlags`, `vmmMapUser` | vmm.c:445-519 |
| `vmmUnmapUser`, `vmmTeardownUser` | vmm.c:521-652 |
| `vmmCopyUser` | vmm.c:667 |
| `vmmLeafPte`, `vmmCowBreak`, `vmmProtectUser`, `vmmHandlePageFault` | vmm.c:737-867 |
| `vmmTranslateUser` | vmm.c:869 |
| `cpuStore` | the processor's side of a user store: walk, write, or raise #PF and retry |

A function that returns 0 or -1 returns `true` or `false` here, next to the new state. The four
nested loops of teardown and fork are one step function per level. `vmm_flush_if_current` and
`invlpg` only affect the TLB, which is not modelled.
-/

namespace VampireOS

open Lib

/-! ## Constants (vmm.c:9-36) -/

def pml4Phys : Nat := 0x1000
def pdePresent : Nat := 1
def pdeWrite : Nat := 2
def pteUser : Nat := 4
def pdeLarge : Nat := 0x80
/-- Software bit 9: intended writable. Fork clears R/W but keeps it. -/
def pteWantWrite : Nat := 0x200
def pteUserFlags : Nat := pdePresent ||| pdeWrite ||| pteUser ||| pteWantWrite
def pteUserRo : Nat := pdePresent ||| pteUser
def hhdmPml4Index : Nat := 256
def kernelPml4Index : Nat := 511
def cowMax : Nat := 256
def page2M : Nat := 0x200000

/-- `HHDM_BASE` (vmm.h:7). -/
def hhdmBase : Nat := 0xFFFF800000000000

abbrev CowTab := List (RefSlot Nat)

structure Vm where
  mem : Mem
  pmm : Pmm
  cowTab : CowTab
  hhdmReady : Bool

/-! ## `cow_tab` -/

/-- `cow_refs`: a frame without an entry counts as mapped once. -/
def cowRefs (tab : CowTab) (phys : Nat) : Nat :=
  match tab.find? (hit phys) with
  | some e => e.refs
  | none => 1

def cowClear (tab : CowTab) (phys : Nat) : CowTab := modifyFirst (hit phys) (fun _ => ⟨0, 0⟩) tab

/-- One more mapping of `phys` (fork). Unique pages start at 2; `false` when the table is full. -/
def cowShareFrame (tab : CowTab) (phys : Nat) : CowTab × Bool :=
  if tab.any (hit phys) then (modifyFirst (hit phys) (fun e => { e with refs := e.refs + 1 }) tab, true)
  else if tab.any (fun e => e.refs == 0)
    then (modifyFirst (fun e => e.refs == 0) (fun _ => ⟨phys, 2⟩) tab, true)
  else (tab, false)

/-- Drop one mapping. `true` = last reference, the caller frees the frame. -/
def cowPut (tab : CowTab) (phys : Nat) : CowTab × Bool :=
  match tab.find? (hit phys) with
  | none => (tab, true)
  | some e =>
    if e.refs - 1 ≠ 0 then (modifyFirst (hit phys) (fun e => { e with refs := e.refs - 1 }) tab, false)
    else (modifyFirst (hit phys) (fun _ => ⟨0, 0⟩) tab, true)

def cowFreeLeaf (vm : Vm) (phys : Nat) : Vm :=
  match cowPut vm.cowTab phys with
  | (tab, true) => { vm with cowTab := tab, pmm := pmmFree vm.pmm phys }
  | (tab, false) => { vm with cowTab := tab }

/-- Undo `cow_share_frame` when the child map fails. -/
def cowUnshare (tab : CowTab) (phys : Nat) : CowTab :=
  modifyFirst (hit phys) (fun e => if e.refs ≤ 2 then ⟨0, 0⟩ else { e with refs := e.refs - 1 }) tab

/-! ## Walking the tables -/

def pml4I (virt : Nat) : Nat := (virt >>> 39) &&& 511
def pdptI (virt : Nat) : Nat := (virt >>> 30) &&& 511
def pdI (virt : Nat) : Nat := (virt >>> 21) &&& 511
def ptI (virt : Nat) : Nat := (virt >>> 12) &&& 511

/-- Present and not a large page: the check of `vmm_unmap_user` and `vmm_teardown_user`. -/
def tableEnt (e : Nat) : Bool := e &&& pdePresent != 0 && e &&& pdeLarge == 0

/-- The check of the user walks, which also want the user bit. -/
def userTableEnt (e : Nat) : Bool := e &&& pdePresent != 0 && e &&& pteUser != 0 && e &&& pdeLarge == 0

/-- Present user leaf. -/
def userLeaf (e : Nat) : Bool := e &&& pdePresent != 0 && e &&& pteUser != 0

/-- The table entry `i` of table `t` points to, if it passes the check `ok`. -/
def next (ok : Nat → Bool) (m : Mem) (t i : Nat) : Option Nat :=
  if ok (ent m t i) then some (ent m t i &&& addrMask) else none

/-- PML4, PDPT, PD: the page table that covers `virt`. -/
def walkPt (ok : Nat → Bool) (m : Mem) (cr3 virt : Nat) : Option Nat := do
  let pdpt ← next ok m cr3 (pml4I virt)
  let pd ← next ok m pdpt (pdptI virt)
  next ok m pd (pdI virt)

/-- `if (cr3 == 0) cr3 = PML4_PHYS`. -/
def cr3OrBoot (cr3 : Nat) : Nat := if cr3 = 0 then pml4Phys else cr3

/-- `pml4_i == HHDM_PML4_INDEX || pml4_i == KERNEL_PML4_INDEX`. -/
def kernelIndex (virt : Nat) : Bool := pml4I virt == hhdmPml4Index || pml4I virt == kernelPml4Index

/-! ## Mapping -/

/-- `vmm_clone_pml4`: a fresh PML4 with the upper half of the boot table; 0 is failure. -/
def vmmClonePml4 (vm : Vm) : Nat × Vm :=
  if vm.hhdmReady = false then (0, vm)
  else
    match pmmAlloc vm.pmm with
    | (0, _) => (0, vm)
    | (phys, pmm) =>
      (phys, { vm with
        pmm := pmm
        mem := fun x =>
          if phys ≤ x ∧ x < phys + pageSize then
            if x - phys < 8 * hhdmPml4Index then 0 else vm.mem (pml4Phys + (x - phys))
          else vm.mem x })

/-- `vmm_ensure_table`: the table below entry `idx`, allocated and cleared when absent. -/
def vmmEnsureTable (vm : Vm) (table idx flags : Nat) : Vm × Option Nat :=
  let e := ent vm.mem table idx
  if e &&& pdePresent = 0 then
    match pmmAlloc vm.pmm with
    | (0, _) => (vm, none)
    | (phys, pmm) =>
      ({ vm with pmm := pmm, mem := setEnt (zeroPage vm.mem phys) table idx (phys ||| flags) }, some phys)
  else if e &&& pdeLarge ≠ 0 then (vm, none)
  else if flags &&& pteUser ≠ 0 ∧ e &&& pteUser = 0 then
    ({ vm with mem := setEnt vm.mem table idx (e ||| pteUser) }, some (e &&& addrMask))
  else (vm, some (e &&& addrMask))

/-- `if (vmm_ensure_table(…, &next) != 0) return -1;`, then the rest with `next`. -/
def orFail : Vm × Option Nat → (Vm → Nat → Vm × Bool) → Vm × Bool
  | (vm, none), _ => (vm, false)
  | (vm, some next), rest => rest vm next

def vmmMapUserFlags (vm : Vm) (cr3 virt phys flags : Nat) : Vm × Bool :=
  if virt &&& 0xFFF ≠ 0 ∨ phys &&& 0xFFF ≠ 0 then (vm, false)
  else if kernelIndex virt then (vm, false)
  else if vm.hhdmReady = false then (vm, false)
  else
    orFail (vmmEnsureTable vm (cr3OrBoot cr3) (pml4I virt) pteUserFlags) fun vm pdpt =>
      orFail (vmmEnsureTable vm pdpt (pdptI virt) pteUserFlags) fun vm pd =>
        orFail (vmmEnsureTable vm pd (pdI virt) pteUserFlags) fun vm pt =>
          ({ vm with mem := setEnt vm.mem pt (ptI virt) (phys ||| flags) }, true)

def vmmMapUser (vm : Vm) (cr3 virt phys : Nat) : Vm × Bool := vmmMapUserFlags vm cr3 virt phys pteUserFlags

def vmmUnmapUser (vm : Vm) (cr3 virt : Nat) : Vm × Bool :=
  if virt &&& 0xFFF ≠ 0 then (vm, false)
  else if kernelIndex virt then (vm, false)
  else if vm.hhdmReady = false then (vm, false)
  else
    match walkPt tableEnt vm.mem (cr3OrBoot cr3) virt with
    | none => (vm, false)
    | some pt =>
      let e := ent vm.mem pt (ptI virt)
      if e &&& pdePresent = 0 then (vm, false)
      else (cowFreeLeaf { vm with mem := setEnt vm.mem pt (ptI virt) 0 } (e &&& addrMask), true)

/-! ## Teardown -/

/-- `vmm_table_clear`. -/
def vmmTableClear (m : Mem) (table n : Nat) : Bool := (List.range n).all fun i => ent m table i == 0

/-- Innermost body: drop one user leaf. -/
def teardownLeaf (pt : Nat) (i : Nat) (vm : Vm) : Vm :=
  let e := ent vm.mem pt i
  if userLeaf e then cowFreeLeaf { vm with mem := setEnt vm.mem pt i 0 } (e &&& addrMask) else vm

def teardownPt (pt : Nat) (vm : Vm) : Vm := forTo (teardownLeaf pt) 512 vm

/-- Body of an outer loop: tear down the table below entry `i`, and free it when it is clear. -/
def teardownAt (down : Nat → Vm → Vm) (table i : Nat) (vm : Vm) : Vm :=
  (next tableEnt vm.mem table i).elim vm fun sub =>
    let vm := down sub vm
    if vmmTableClear vm.mem sub 512 then
      { vm with mem := setEnt vm.mem table i 0, pmm := pmmFree vm.pmm sub }
    else vm

def teardownPd (pd : Nat) (vm : Vm) : Vm := forTo (teardownAt teardownPt pd) 512 vm

def teardownPdpt (pdpt : Nat) (vm : Vm) : Vm := forTo (teardownAt teardownPd pdpt) 512 vm

def vmmTeardownUser (vm : Vm) (cr3 : Nat) : Vm :=
  if cr3 = 0 ∨ cr3 = pml4Phys ∨ vm.hhdmReady = false then vm
  else forTo (teardownAt teardownPdpt cr3) hhdmPml4Index vm

/-! ## Fork -/

/-- Flags of a shared leaf: read-only, the intended-write bit kept. -/
def sharedFlags (e : Nat) : Nat :=
  if e &&& (pdeWrite ||| pteWantWrite) ≠ 0 then pteUserRo ||| pteWantWrite else pteUserRo

/-- Innermost body: share one leaf of the source with the destination. -/
def copyLeaf (dst va pt : Nat) (i : Nat) (vm : Vm) : Vm × Bool :=
  let e := ent vm.mem pt i
  if userLeaf e = false then (vm, true)
  else
    let leaf := e &&& addrMask
    match cowShareFrame vm.cowTab leaf with
    | (_, false) => (vm, false)
    | (tab, true) =>
      match vmmMapUserFlags { vm with cowTab := tab } dst (va ||| i <<< 12) leaf (sharedFlags e) with
      | (vm, false) => ({ vm with cowTab := cowUnshare vm.cowTab leaf }, false)
      | (vm, true) => ({ vm with mem := setEnt vm.mem pt i (leaf ||| sharedFlags e) }, true)

def copyPt (dst va pt : Nat) (vm : Vm) : Vm × Bool := loopTo (copyLeaf dst va pt) 512 vm

/-- Body of an outer loop: go down entry `i` when it is a present user table. -/
def copyAt (down : Nat → Nat → Vm → Vm × Bool) (shift va table i : Nat) (vm : Vm) : Vm × Bool :=
  (next userTableEnt vm.mem table i).elim (vm, true) fun sub => down (va ||| i <<< shift) sub vm

def copyPd (dst va pd : Nat) (vm : Vm) : Vm × Bool := loopTo (copyAt (copyPt dst) 21 va pd) 512 vm

def copyPdpt (dst va pdpt : Nat) (vm : Vm) : Vm × Bool := loopTo (copyAt (copyPd dst) 30 va pdpt) 512 vm

def vmmCopyUser (vm : Vm) (dst src : Nat) : Vm × Bool :=
  if dst = 0 ∨ src = 0 ∨ dst = src ∨ dst = pml4Phys ∨ src = pml4Phys ∨ vm.hhdmReady = false then (vm, false)
  else loopTo (copyAt (copyPdpt dst) 39 0 src) hhdmPml4Index vm

/-! ## Faults and protection -/

/-- `vmm_leaf_pte`: the table and index of the present user leaf that maps `virt`. -/
def vmmLeafPte (vm : Vm) (cr3 virt : Nat) : Option (Nat × Nat) :=
  if kernelIndex virt then none
  else if vm.hhdmReady = false then none
  else
    match walkPt userTableEnt vm.mem (cr3OrBoot cr3) virt with
    | none => none
    | some pt => if userLeaf (ent vm.mem pt (ptI virt)) then some (pt, ptI virt) else none

def vmmTranslateUser (vm : Vm) (cr3 virt : Nat) : Option Nat :=
  (vmmLeafPte vm cr3 virt).map fun p => (ent vm.mem p.1 p.2 &&& addrMask) ||| (virt &&& 0xFFF)

def vmmCowBreak (vm : Vm) (cr3 virt : Nat) : Vm × Bool :=
  match vmmLeafPte vm cr3 (virt &&& addrMask) with
  | none => (vm, false)
  | some (pt, i) =>
    let e := ent vm.mem pt i
    -- mprotect RO: the write is a real fault, not COW
    if e &&& pteWantWrite = 0 then (vm, false)
    else
      let leaf := e &&& addrMask
      if cowRefs vm.cowTab leaf ≤ 1 then
        ({ vm with mem := setEnt vm.mem pt i (leaf ||| pteUserFlags), cowTab := cowClear vm.cowTab leaf }, true)
      else
        match pmmAllocFrom vm.pmm page2M with
        | (0, _) => (vm, false)
        | (neu, pmm) =>
          ({ vm with
            pmm := pmm
            mem := setEnt (copyPage vm.mem neu leaf) pt i (neu ||| pteUserFlags)
            cowTab := (cowPut vm.cowTab leaf).1 }, true)

def vmmProtectUser (vm : Vm) (cr3 virt : Nat) (wr : Bool) : Vm × Bool :=
  match vmmLeafPte vm cr3 (virt &&& addrMask) with
  | none => (vm, false)
  | some (pt, i) =>
    let leaf := ent vm.mem pt i &&& addrMask
    let flags :=
      if wr then
        if cowRefs vm.cowTab leaf ≤ 1 then pteUserRo ||| pteWantWrite ||| pdeWrite
        else pteUserRo ||| pteWantWrite
      else pteUserRo
    ({ vm with mem := setEnt vm.mem pt i (leaf ||| flags) }, true)

/-- `vmm_handle_page_fault`; `cr3` is the loaded one. -/
def vmmHandlePageFault (vm : Vm) (cr3 error cr2 : Nat) : Vm × Bool :=
  if error &&& 7 ≠ 7 then (vm, false) else vmmCowBreak vm cr3 cr2

/-! ## A user store -/

/-- Every level of the walk allows user writes. -/
def hwWritable (m : Mem) (cr3 virt : Nat) : Bool :=
  let w e := e &&& pdeWrite != 0
  (next userTableEnt m cr3 (pml4I virt)).elim false fun pdpt =>
    (next userTableEnt m pdpt (pdptI virt)).elim false fun pd =>
      (next userTableEnt m pd (pdI virt)).elim false fun pt =>
        w (ent m cr3 (pml4I virt)) && w (ent m pdpt (pdptI virt)) && w (ent m pd (pdI virt)) &&
          (userLeaf (ent m pt (ptI virt)) && w (ent m pt (ptI virt)))

/-- The processor writes the byte when the walk allows it. -/
def hwStore (vm : Vm) (cr3 virt : Nat) (b : UInt8) : Vm × Bool :=
  if hwWritable vm.mem cr3 virt then
    match vmmTranslateUser vm cr3 virt with
    | none => (vm, false)
    | some phys => ({ vm with mem := setByte vm.mem phys b }, true)
  else (vm, false)

/-- A one-byte store in ring 3 by the task with page table `cr3`. When the walk refuses a present
page, #PF is raised with the present, write and user bits and the instruction is retried after the
handler; a store to an unmapped page faults without the present bit. `false`: the task is killed. -/
def cpuStore (vm : Vm) (cr3 virt : Nat) (b : UInt8) : Vm × Bool :=
  if hwWritable vm.mem cr3 virt then hwStore vm cr3 virt b
  else
    let error := if (vmmTranslateUser vm cr3 virt).isSome then 7 else 6
    match vmmHandlePageFault vm cr3 error virt with
    | (vm, false) => (vm, false)
    | (vm, true) => hwStore vm cr3 virt b

end VampireOS
