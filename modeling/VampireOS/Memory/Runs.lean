import VampireOS.Memory.OnePage
import VampireOS.Memory.Store

/-!
# Runs of the memory system

A `Space` is the virtual memory state with the PML4s of the tasks (`roots`) and the frames the
kernel holds for itself (`kern`). `step` is one call of the kernel's memory code, made as its
callers make it:

| here | there |
| --- | --- |
| `clone`, `map` | `vmm_clone_pml4`; `alloc_page` and `vmm_map_user`, `pmm_free` on failure (user.c:123) |
| `fork` | `user_fork` (user.c:1135): clone, `vmm_copy_user`, on failure teardown and `pmm_free(cr3)` |
| `release` | the end of a task: `vmm_teardown_user`, `pmm_free(cr3)` |
| `store`, `copyTo` | a user store (`cpuStore`); `copy_to_user_pml4` |
| `unmap`, `protect`, `cowBreak`, `teardown`, `mprotect`, `munmap` | the functions of these names |
| `kalloc`, `kfree` | kernel stacks, pipe and buffer pages |

The answer is `none` for failure, else `some k`; for `clone` and `fork`, `k` is the new PML4.
-/

namespace VampireOS

open Lib

structure Space where
  vm : Vm
  roots : Finset Nat
  kern : Finset Nat

inductive SpaceOp where
  | clone
  | map (r virt minPhys : Nat)
  | unmap (r virt : Nat)
  | protect (r virt : Nat) (wr : Bool)
  | cowBreak (r virt : Nat)
  | fork (r : Nat)
  | teardown (r : Nat)
  | release (r : Nat)
  | store (r virt : Nat) (b : UInt8)
  | copyTo (r dst : Nat) (bytes : List UInt8)
  | mprotect (r va len prot : Nat)
  | munmap (r base va len : Nat)
  | kalloc (minPhys : Nat)
  | kfree (f : Nat)

namespace Space

/-- The answer of a call that returned `vm'` and a success flag. -/
def answer (s : Space) (res : Vm × Bool) : Space × Option Nat :=
  ({ s with vm := res.1 }, if res.2 then some 0 else none)

/-- Map a fresh zeroed page at `virt`, which must be an unmapped page of the user half:
`vmm_map_user` takes pages of the PML4 entries 257 to 510 too, but only `user_mmap` asks for them,
and runs in which it does are not covered here. -/
def mapFresh (s : Space) (r virt minPhys : Nat) : Space × Option Nat :=
  if pml4I virt < 256 ∧ vmmTranslateUser s.vm r virt = none then
    let a := pmmAllocFrom s.vm.pmm minPhys
    if a.1 = 0 then (s, none)
    else
      let res := vmmMapUser { s.vm with pmm := a.2, mem := zeroPage s.vm.mem a.1 } r virt a.1
      if res.2 then ({ s with vm := res.1 }, some 0)
      else ({ s with vm := { res.1 with pmm := pmmFree res.1.pmm a.1 } }, none)
  else (s, none)

def clonePml4 (s : Space) : Space × Option Nat :=
  let c := vmmClonePml4 s.vm
  if c.1 = 0 then (s, none) else (⟨c.2, insert c.1 s.roots, s.kern⟩, some c.1)

/-- `vmm_teardown_user(cr3); pmm_free(cr3);` -/
def releasePml4 (s : Space) (r : Nat) : Space :=
  let vm := vmmTeardownUser s.vm r
  ⟨{ vm with pmm := pmmFree vm.pmm r }, s.roots.erase r, s.kern⟩

def forkPml4 (s : Space) (r : Nat) : Space × Option Nat :=
  let c := s.clonePml4
  match c.2 with
  | none => (s, none)
  | some p =>
    let res := vmmCopyUser c.1.vm p r
    if res.2 then ({ c.1 with vm := res.1 }, some p) else (releasePml4 { c.1 with vm := res.1 } p, none)

def kernAlloc (s : Space) (minPhys : Nat) : Space × Option Nat :=
  let a := pmmAllocFrom s.vm.pmm minPhys
  if a.1 = 0 then (s, none) else (⟨{ s.vm with pmm := a.2 }, s.roots, insert a.1 s.kern⟩, some a.1)

def kernFree (s : Space) (f : Nat) : Space × Option Nat :=
  if f ∈ s.kern then (⟨{ s.vm with pmm := pmmFree s.vm.pmm f }, s.roots, s.kern.erase f⟩, some f)
    else (s, none)

/-- `act` on a PML4 of one of the tasks. -/
def onTask (s : Space) (r : Nat) (act : Space → Space × Option Nat) : Space × Option Nat :=
  if r ∈ s.roots then act s else (s, none)

def step (s : Space) : SpaceOp → Space × Option Nat
  | .clone => s.clonePml4
  | .map r virt minPhys => s.onTask r fun s => s.mapFresh r virt minPhys
  | .unmap r virt => s.onTask r fun s => s.answer (vmmUnmapUser s.vm r virt)
  | .protect r virt wr => s.onTask r fun s => s.answer (vmmProtectUser s.vm r virt wr)
  | .cowBreak r virt => s.onTask r fun s => s.answer (vmmCowBreak s.vm r virt)
  | .fork r => s.onTask r fun s => s.forkPml4 r
  | .teardown r => s.onTask r fun s => ({ s with vm := vmmTeardownUser s.vm r }, some 0)
  | .release r => s.onTask r fun s => (s.releasePml4 r, some 0)
  | .store r virt b => s.onTask r fun s => s.answer (cpuStore s.vm r virt b)
  | .copyTo r dst bytes => s.onTask r fun s => s.answer (copyToUserPml4 s.vm r dst bytes)
  | .mprotect r va len prot => s.onTask r fun s => s.answer (userMprotect s.vm r va len prot)
  | .munmap r base va len => s.onTask r fun s => s.answer (userMunmap s.vm r base va len)
  | .kalloc minPhys => s.kernAlloc minPhys
  | .kfree f => s.kernFree f

def run (s : Space) (ops : List SpaceOp) : Space := ops.foldl (fun s op => (s.step op).1) s

/-- The kernel after `vmm_init`, before the first task: no sharing, and between the user half and the
kernel's two entries the boot PML4 is empty. -/
structure Boot (s : Space) : Prop where
  roots : s.roots = ∅
  pmm : s.vm.pmm.Ok
  kern : ∀ f ∈ s.kern, s.vm.pmm.Owned f
  ready : s.vm.hhdmReady = true
  cowTab : s.vm.cowTab = List.replicate cowMax ⟨0, 0⟩
  pml4 : ∀ i, 256 < i → i < 511 → ent s.vm.mem pml4Phys i = 0

/-! ## Eager copies -/

/-- What the operation would do if every task had its memory to itself; `k` is its answer. -/
def eager (k : Nat) (A : Nat → TaskMem) : SpaceOp → Option (Nat → TaskMem)
  | .clone => some (Function.update A k fun _ => none)
  | .map r virt _ => some (Function.update A r (Function.update (A r) (vpn virt) (some ⟨fun _ => 0, true⟩)))
  | .unmap r virt => some (Function.update A r (Function.update (A r) (vpn virt) none))
  | .protect r virt wr =>
    (A r (vpn virt)).map fun pg =>
      Function.update A r (Function.update (A r) (vpn virt) (some { pg with writable := wr }))
  | .cowBreak _ _ => some A
  | .fork r => some (Function.update A k (A r))
  | .teardown r => some (Function.update A r fun _ => none)
  | .release r => some (Function.update A r fun _ => none)
  | .store r virt b => (storeByte (A r) virt b).map (Function.update A r)
  | .copyTo r dst bytes => (storeBytes (A r) dst bytes).map (Function.update A r)
  | .mprotect r va len prot =>
    match userPagesOf va len, protWr prot with
    | some n, some wr =>
      some (Function.update A r (mapPages (A r) (vpn va) n fun pg => some { pg with writable := wr }))
    | _, _ => none
  | .munmap r _ va len =>
    (userPagesOf va len).map fun n => Function.update A r (mapPages (A r) (vpn va) n fun _ => none)
  | .kalloc _ => some A
  | .kfree _ => some A

/-- The task whose memory an operation may write. -/
def actor : SpaceOp → Option Nat
  | .clone => none
  | .map r _ _ => some r
  | .unmap r _ => some r
  | .protect r _ _ => some r
  | .cowBreak r _ => some r
  | .fork _ => none
  | .teardown r => some r
  | .release r => some r
  | .store r _ _ => some r
  | .copyTo r _ _ => some r
  | .mprotect r _ _ _ => some r
  | .munmap r _ _ _ => some r
  | .kalloc _ => none
  | .kfree _ => none

/-- The tasks' memories. -/
def mems (s : Space) : Nat → TaskMem := taskMem s.vm.mem

def Inv (s : Space) : Prop := VmInv s.vm s.roots s.kern

/-- What one step does: the invariant, the refinement of `eager` on success, and on failure no
change for anybody but the actor. -/
structure StepOk (s : Space) (op : SpaceOp) (res : Space × Option Nat) : Prop where
  inv : res.1.Inv
  success : ∀ k, res.2 = some k →
    ∃ A, eager k s.mems op = some A ∧ ∀ r ∈ res.1.roots, res.1.mems r = A r
  failure : res.2 = none → ∀ r ∈ res.1.roots, actor op ≠ some r → res.1.mems r = s.mems r

/-! ## One step -/

section
variable {s : Space} {r : Nat}

theorem stay (h : s.Inv) (op : SpaceOp) : StepOk s op (s, none) :=
  ⟨h, nofun, fun _ _ _ _ => rfl⟩

/-- An operation of task `r` on its own memory. -/
theorem acts_ok {op : SpaceOp} {res : Vm × Bool} (hop : actor op = some r)
    (hinv : VmInv res.1 s.roots s.kern)
    (hs : res.2 = true → ∃ A, eager 0 s.mems op = some (Function.update s.mems r A) ∧
      Acts s.roots s.kern r s.vm.mem res.1.mem A)
    (hf : res.2 = false → ∃ A, Acts s.roots s.kern r s.vm.mem res.1.mem A) : StepOk s op (s.answer res) := by
  refine ⟨hinv, fun k hk => ?_, fun hn r' hr' hne => ?_⟩
  · cases hb : res.2 with
    | false => simp [answer, hb] at hk
    | true =>
      obtain ⟨A, h1, h2⟩ := hs hb
      simp only [answer, hb, if_true, Option.some.injEq] at hk
      subst hk
      refine ⟨_, h1, fun r' hr' => ?_⟩
      by_cases hrr : r' = r
      · subst hrr
        rw [Function.update_self]
        exact h2.self
      · rw [Function.update_of_ne hrr]
        exact h2.other r' hr' hrr
  · cases hb : res.2 with
    | true => simp [answer, hb] at hn
    | false =>
      obtain ⟨A, h2⟩ := hf hb
      exact h2.other r' hr' fun e => hne (e ▸ hop)

theorem unmap_ok (h : s.Inv) (hr : r ∈ s.roots) (virt : Nat) :
    StepOk s (.unmap r virt) (s.answer (vmmUnmapUser s.vm r virt)) := by
  rcases VmInv.vmmUnmapUser_spec h hr virt with ⟨e, -⟩ | ⟨vm', e, -, hv, a1, -, a3⟩
  · rw [e]
    exact acts_ok rfl h nofun fun _ => ⟨_, Same.refl.acts hr⟩
  · rw [e]
    exact acts_ok rfl a1 (fun _ => ⟨_, rfl, a3.acts hr hv⟩) nofun

theorem protect_ok (h : s.Inv) (hr : r ∈ s.roots) (virt : Nat) (wr : Bool) :
    StepOk s (.protect r virt wr) (s.answer (vmmProtectUser s.vm r virt wr)) := by
  have hspec := VmInv.protect_pageOk hr wr s.vm virt h
  dsimp only at hspec
  rcases hspec with e | ⟨vm', pg, e, -, a1, a2, a3⟩
  · rw [e]
    exact acts_ok rfl h nofun fun _ => ⟨_, Same.refl.acts hr⟩
  · rw [e]
    refine acts_ok rfl a1 (fun _ => ⟨_, ?_, a3⟩) nofun
    rw [eager, show s.mems r (vpn virt) = some pg from a2]
    rfl

theorem cowBreak_ok (h : s.Inv) (hr : r ∈ s.roots) (virt : Nat) :
    StepOk s (.cowBreak r virt) (s.answer (vmmCowBreak s.vm r virt)) := by
  rcases VmInv.vmmCowBreak_spec h hr virt with ⟨e, -⟩ | ⟨vm', e, -, a1, a2, -⟩
  · rw [e]
    exact acts_ok rfl h nofun fun _ => ⟨_, Same.refl.acts hr⟩
  · rw [e]
    refine acts_ok rfl a1 (fun _ => ⟨s.mems r, ?_, a2.acts hr⟩) nofun
    rw [eager, Function.update_eq_self]

theorem store_ok (h : s.Inv) (hr : r ∈ s.roots) (virt : Nat) (b : UInt8) :
    StepOk s (.store r virt b) (s.answer (cpuStore s.vm r virt b)) := by
  rcases VmInv.cpuStore_spec h hr virt b with ⟨e, -⟩ | ⟨vm', A, e, a1, a2, a3⟩
  · rw [e]
    exact acts_ok rfl h nofun fun _ => ⟨_, Same.refl.acts hr⟩
  · rw [e]
    refine acts_ok rfl a1 (fun _ => ⟨A, ?_, a3⟩) nofun
    rw [eager, show storeByte (s.mems r) virt b = some A from a2]
    rfl

theorem copyTo_ok (h : s.Inv) (hr : r ∈ s.roots) (dst : Nat) (bytes : List UInt8) :
    StepOk s (.copyTo r dst bytes) (s.answer (copyToUserPml4 s.vm r dst bytes)) := by
  obtain ⟨a1, a2, a3⟩ := VmInv.copyToUserPml4_spec h hr dst bytes
  refine acts_ok rfl a1 (fun hb => ?_) fun hb => (a3 hb).2
  obtain ⟨A, b1, b2⟩ := a2 hb
  refine ⟨A, ?_, b2⟩
  rw [eager, show storeBytes (s.mems r) dst bytes = some A from b1]
  rfl

theorem mprotect_ok (h : s.Inv) (hr : r ∈ s.roots) (va len prot : Nat) :
    StepOk s (.mprotect r va len prot) (s.answer (userMprotect s.vm r va len prot)) := by
  obtain ⟨a1, a2, a3⟩ := VmInv.userMprotect_spec h hr va len prot
  refine acts_ok rfl a1 (fun hb => ?_) fun _ => a3
  obtain ⟨k, wr, b1, b2, b3⟩ := a2 hb
  refine ⟨_, ?_, b3⟩
  rw [eager, b1, b2]
  rfl

theorem munmap_ok (h : s.Inv) (hr : r ∈ s.roots) (base va len : Nat) :
    StepOk s (.munmap r base va len) (s.answer (userMunmap s.vm r base va len)) := by
  obtain ⟨a1, a2, a3⟩ := VmInv.userMunmap_spec h hr base va len
  refine acts_ok rfl a1 (fun hb => ?_) fun _ => a3
  obtain ⟨k, b1, b3⟩ := a2 hb
  refine ⟨_, ?_, b3⟩
  rw [eager, b1]
  rfl

theorem taskMem_empty {m : Mem} (h : ∀ n, n < userPages → absMem m r n = none) :
    taskMem m r = fun _ => none := by
  funext n
  unfold taskMem
  split
  · exact h n (by assumption)
  · rfl

/-- The memories after a teardown of `r`. -/
theorem teardown_mems (h : s.Inv) (hr : r ∈ s.roots) : ∀ r' ∈ s.roots,
    taskMem (vmmTeardownUser s.vm r).mem r' = Function.update s.mems r (fun _ => none) r' := by
  obtain ⟨-, a2, -⟩ := VmInv.vmmTeardownUser_spec h hr
  intro r' hr'
  by_cases hrr : r' = r
  · subst hrr
    rw [Function.update_self]
    exact taskMem_empty fun n hn => by rw [a2 r' hr' n hn, if_pos rfl]
  · rw [Function.update_of_ne hrr]
    funext n
    unfold mems taskMem
    split
    · rw [a2 r' hr' n (by assumption), if_neg hrr]
    · rfl

theorem teardown_ok (h : s.Inv) (hr : r ∈ s.roots) :
    StepOk s (.teardown r) ({ s with vm := vmmTeardownUser s.vm r }, some 0) := by
  have h1 := (VmInv.vmmTeardownUser_spec h hr).1
  have h2 := teardown_mems h hr
  generalize vmmTeardownUser s.vm r = vm' at h1 h2
  exact ⟨h1, fun _ _ => ⟨_, rfl, h2⟩, nofun⟩

theorem release_spec (h : s.Inv) (hr : r ∈ s.roots) :
    (s.releasePml4 r).Inv ∧ ∀ r' ∈ s.roots.erase r, (s.releasePml4 r).mems r' = s.mems r' := by
  obtain ⟨a1, a2, -⟩ := VmInv.vmmTeardownUser_spec h hr
  refine ⟨a1.freeRoot hr fun n hn => by rw [a2 r hr n hn, if_pos rfl], fun r' hr' => ?_⟩
  have := teardown_mems h hr r' (Finset.mem_of_mem_erase hr')
  rwa [Function.update_of_ne (Finset.ne_of_mem_erase hr')] at this

theorem release_ok (h : s.Inv) (hr : r ∈ s.roots) : StepOk s (.release r) (s.releasePml4 r, some 0) := by
  obtain ⟨a1, a2⟩ := release_spec h hr
  refine ⟨a1, fun _ _ => ⟨_, rfl, fun r' hr' => ?_⟩, nofun⟩
  rw [Function.update_of_ne (Finset.ne_of_mem_erase hr')]
  exact a2 r' hr'

/-- The new PML4 is not one of the tasks', and nobody's memory changes. -/
theorem clonePml4_spec (h : s.Inv) : s.clonePml4 = (s, none) ∨
    ∃ p vm', s.clonePml4 = (⟨vm', insert p s.roots, s.kern⟩, some p) ∧ p ∉ s.roots ∧
      VmInv vm' (insert p s.roots) s.kern ∧ Same s.roots s.kern s.vm.mem vm'.mem ∧
      ∀ n, n < userPages → absMem vm'.mem p n = none := by
  unfold clonePml4
  rcases VmInv.vmmClonePml4_spec h with e | ⟨p, vm', e, a1, a2, -, a4, a5, a6⟩
  · rw [e]
    exact Or.inl (if_pos rfl)
  · rw [e]
    exact Or.inr ⟨p, vm', if_neg a1, a2, a4, a5, a6⟩

theorem clone_ok (h : s.Inv) : StepOk s .clone s.clonePml4 := by
  rcases clonePml4_spec h with e | ⟨p, vm', e, a1, a2, a3, a4⟩
  · rw [e]
    exact stay h _
  · rw [e]
    refine ⟨a2, fun k hk => ⟨_, rfl, fun r hr => ?_⟩, nofun⟩
    cases hk
    rcases Finset.mem_insert.1 hr with rfl | hr
    · rw [Function.update_self]
      exact taskMem_empty a4
    · rw [Function.update_of_ne (ne_of_mem_of_not_mem hr a1)]
      exact a3.taskMem hr

theorem fork_ok (h : s.Inv) (hr : r ∈ s.roots) : StepOk s (.fork r) (s.forkPml4 r) := by
  unfold forkPml4
  rcases clonePml4_spec h with e | ⟨p, vm', e, a1, a2, a3, a4⟩
  · rw [e]
    exact stay h _
  · rw [e]
    simp only
    have hpr : r ≠ p := ne_of_mem_of_not_mem hr a1
    obtain ⟨b1, b2, b3⟩ := a2.vmmCopyUser_spec (Finset.mem_insert_of_mem hr)
      (Finset.mem_insert_self p _) hpr a4
    split
    · rename_i hb
      refine ⟨b1, fun k hk => ⟨_, rfl, fun r' hr' => ?_⟩, nofun⟩
      cases hk
      have hmem : ∀ n, n < userPages → absMem (vmmCopyUser vm' p r).1.mem r' n =
          if r' = p then absMem vm'.mem r n else absMem vm'.mem r' n := b2 hb r' hr'
      by_cases hrp : r' = p
      · subst hrp
        rw [Function.update_self]
        funext n
        unfold mems taskMem
        split
        · rename_i hn
          rw [hmem n hn, if_pos rfl]
          exact a3.mem r hr n hn
        · rfl
      · rw [Function.update_of_ne hrp]
        have hr'' := Finset.mem_of_mem_insert_of_ne hr' hrp
        funext n
        unfold mems taskMem
        split
        · rename_i hn
          rw [hmem n hn, if_neg hrp]
          exact a3.mem r' hr'' n hn
        · rfl
    · -- the child is torn down again: nobody has seen anything
      obtain ⟨c1, c2⟩ := release_spec (s := ⟨(vmmCopyUser vm' p r).1, insert p s.roots, s.kern⟩) b1
        (Finset.mem_insert_self p _)
      refine ⟨c1, nofun, fun _ r' hr' _ => ?_⟩
      have hne := Finset.ne_of_mem_erase hr'
      have hr'' := Finset.mem_of_mem_insert_of_ne (Finset.mem_of_mem_erase hr') hne
      refine (c2 r' hr').trans (funext fun n => ?_)
      unfold mems taskMem
      split
      · rename_i hn
        rw [b3.mem r' (Finset.mem_insert_of_mem hr'') hne n hn]
        exact a3.mem r' hr'' n hn
      · rfl

theorem vmmMapUser_unaligned {vm : Vm} {virt phys : Nat} (ha : virt % pageSize ≠ 0) :
    vmmMapUser vm r virt phys = (vm, false) := by
  unfold vmmMapUser vmmMapUserFlags
  rw [and_fff, if_pos (Or.inl ha)]

/-- Giving back a frame that was handed out and never used. -/
theorem free_unused {vm : Vm} {roots kern : Finset Nat} (h : VmInv vm roots kern) {p : Nat}
    (hd : Data vm.mem vm.pmm roots kern p) (hm : mappings (sites roots) (see vm.mem) p = 0) :
    VmInv { vm with pmm := pmmFree vm.pmm p } roots kern :=
  ⟨h.pt.gave hd.owned (pmmFree_gave h.pt.ok hd.owned) hd.notTable hd.notKern (not_mapped.1 hm),
    h.ready, h.unique, h.cow⟩

theorem map_ok (h : s.Inv) (hr : r ∈ s.roots) (virt minPhys : Nat) :
    StepOk s (.map r virt minPhys) (s.mapFresh r virt minPhys) := by
  unfold mapFresh
  split
  · rename_i hc
    have hv := (user_half_iff virt).1 hc.1
    have hnone := (VmInv.vmmTranslateUser_none h hr hv).1 hc.2
    simp only
    rcases pmmAllocFrom_spec s.vm.pmm h.pt.ok minPhys with e | ⟨hne, hal⟩
    · rw [e]
      exact stay h _
    · rw [if_neg hne]
      generalize (pmmAllocFrom s.vm.pmm minPhys).1 = p at hne hal ⊢
      generalize (pmmAllocFrom s.vm.pmm minPhys).2 = pmm' at hal ⊢
      obtain ⟨q1, -, q3, q4, q5, q6⟩ := h.pt.scribble hal (sameOff_zeroPage s.vm.mem p)
      have hvm : VmInv { s.vm with pmm := pmm', mem := zeroPage s.vm.mem p } s.roots s.kern :=
        ⟨q1, h.ready, h.unique, h.cow.congr fun x hx => q3 x.1 (mem_sites.1 hx).1 x.2 (mem_sites.1 hx).2⟩
      rcases hres : vmmMapUser { s.vm with pmm := pmm', mem := zeroPage s.vm.mem p } r virt p with ⟨vm', b⟩
      by_cases ha : virt % pageSize = 0
      · obtain ⟨a1, a2, a3⟩ := hvm.vmmMapUser_spec hr hv ha q5 q6 ((q3 r hr _ hv).trans hnone) hres
        cases b with
        | true =>
          have hz : frameBytes (zeroPage s.vm.mem p) p = fun _ => 0 :=
            funext fun o => zeroPage_at s.vm.mem p o.isLt
          have hacts := (q4.acts hr).trans ((a3 rfl).acts hr hv)
          rw [show taskMem (zeroPage s.vm.mem p) r = s.mems r from q4.taskMem hr, hz] at hacts
          have hok : StepOk s (.map r virt minPhys) (s.answer (vm', true)) :=
            acts_ok rfl a1 (fun _ => ⟨_, rfl, hacts⟩) nofun
          exact hok
        | false =>
          obtain ⟨b1, b2, b3⟩ := a2 rfl
          refine ⟨free_unused a1 b2 b3, nofun, fun _ r' hr' _ => ?_⟩
          exact (q4.trans b1).taskMem hr'
      · rw [vmmMapUser_unaligned ha] at hres
        cases hres
        exact ⟨free_unused hvm q5 q6, nofun, fun _ r' hr' _ => q4.taskMem hr'⟩
  · exact stay h _

theorem kalloc_ok (h : s.Inv) (minPhys : Nat) : StepOk s (.kalloc minPhys) (s.kernAlloc minPhys) := by
  unfold kernAlloc
  rcases pmmAllocFrom_spec s.vm.pmm h.pt.ok minPhys with e | ⟨hne, hal⟩
  · rw [e]
    exact stay h _
  · simp only [if_neg hne]
    exact ⟨⟨h.pt.addKern hal, h.ready, h.unique, h.cow⟩, fun _ _ => ⟨_, rfl, fun _ _ => rfl⟩, nofun⟩

theorem kfree_ok (h : s.Inv) (f : Nat) : StepOk s (.kfree f) (s.kernFree f) := by
  unfold kernFree
  split
  · rename_i hf
    exact ⟨⟨h.pt.dropKern hf, h.ready, h.unique, h.cow⟩, fun _ _ => ⟨_, rfl, fun _ _ => rfl⟩, nofun⟩
  · exact stay h _

theorem onTask_ok (h : s.Inv) {op : SpaceOp} {act : Space → Space × Option Nat}
    (ha : r ∈ s.roots → StepOk s op (act s)) : StepOk s op (s.onTask r act) := by
  unfold onTask
  split
  · exact ha (by assumption)
  · exact stay h op

/-- **Every step** keeps the invariant and refines `eager`. -/
theorem step_ok (h : s.Inv) (op : SpaceOp) : StepOk s op (s.step op) := by
  cases op with
  | clone => exact clone_ok h
  | map r virt minPhys =>
    rw [step]
    exact onTask_ok h fun hr => map_ok h hr virt minPhys
  | unmap r virt =>
    rw [step]
    exact onTask_ok h fun hr => unmap_ok h hr virt
  | protect r virt wr =>
    rw [step]
    exact onTask_ok h fun hr => protect_ok h hr virt wr
  | cowBreak r virt =>
    rw [step]
    exact onTask_ok h fun hr => cowBreak_ok h hr virt
  | fork r =>
    rw [step]
    exact onTask_ok h fun hr => fork_ok h hr
  | teardown r =>
    rw [step]
    exact onTask_ok h fun hr => teardown_ok h hr
  | release r =>
    rw [step]
    exact onTask_ok h fun hr => release_ok h hr
  | store r virt b =>
    rw [step]
    exact onTask_ok h fun hr => store_ok h hr virt b
  | copyTo r dst bytes =>
    rw [step]
    exact onTask_ok h fun hr => copyTo_ok h hr dst bytes
  | mprotect r va len prot =>
    rw [step]
    exact onTask_ok h fun hr => mprotect_ok h hr va len prot
  | munmap r base va len =>
    rw [step]
    exact onTask_ok h fun hr => munmap_ok h hr base va len
  | kalloc minPhys => exact kalloc_ok h minPhys
  | kfree f => exact kfree_ok h f

end

/-! ## Whole runs -/

theorem boot_inv {s : Space} (h : s.Boot) : s.Inv := by
  have hroots : ∀ r, r ∉ s.roots := fun r => by rw [h.roots]; exact Finset.notMem_empty r
  have htab : ∀ e ∈ s.vm.cowTab, e.refs = 0 := by
    intro e he
    rw [h.cowTab] at he
    rw [List.eq_of_mem_replicate he]
  refine ⟨⟨h.pmm, ?_, fun r hr => absurd hr (hroots r), fun r hr => absurd hr (hroots r),
    fun r hr => absurd hr (hroots r), fun r hr => absurd hr (hroots r), h.pml4, h.kern⟩, h.ready, ?_, ?_⟩
  · rintro t ⟨r, hr, -⟩
    exact absurd hr (hroots r)
  · refine List.Pairwise.imp_of_mem (R := fun _ _ => True) (fun ha _ _ ha0 => absurd (htab _ ha) ha0) ?_
    exact List.pairwise_of_forall fun _ _ => trivial
  · have hnone : ∀ f, refs? s.vm.cowTab f = none := fun f =>
      refs?_eq_none.2 fun e he he0 => absurd (htab e he) he0
    have hsites : ∀ x, x ∉ sites s.roots := fun x hx => hroots x.1 (mem_sites.1 hx).1
    refine ⟨fun f n hn => ?_, fun f _ => ?_, fun x hx => absurd hx (hsites x)⟩
    · rw [hnone f] at hn; cases hn
    · rw [mappings_eq_zero.2 fun x hx => absurd hx (hsites x)]
      exact Nat.zero_le 1

theorem run_inv {s : Space} (h : s.Boot) (ops : List SpaceOp) : (s.run ops).Inv :=
  foldl_inv Inv (fun _ op hi => (step_ok hi op).inv) ops s (boot_inv h)

/-- The number of present user leaf entries, in all tasks' tables, that map frame `f`. -/
def leafPtes (s : Space) (f : Nat) : Nat := mappings (sites s.roots) (see s.vm.mem) f

/-- A frame has fewer than `2 ^ 32` mappings, since there are not more page-table entries than that: the
`unsigned` counts of `cow_tab` do not wrap. -/
theorem leafPtes_lt {s : Space} (h : s.Inv) (f : Nat) : s.leafPtes f < 2 ^ 32 := by
  have hsite : ∀ x ∈ (sites s.roots).filter (fun x => frameOf (see s.vm.mem) x = some f),
      x.1 ∈ s.roots ∧ x.2 < userPages ∧ ∃ pt, tab s.vm.mem x.1 3 (x.2 / 512) = some pt ∧
        s.vm.pmm.Owned pt := by
    intro x hx
    obtain ⟨hx, hf⟩ := Finset.mem_filter.1 hx
    obtain ⟨hr, hn⟩ := mem_sites.1 hx
    obtain ⟨l, hl, -⟩ := Option.map_eq_some_iff.1 hf
    obtain ⟨pt, ht, -⟩ := h.pt.of_view hr hn hl
    exact ⟨hr, hn, pt, ht, (h.pt.own pt (isTable_of hr (place_pt hn) ht)).1⟩
  -- number the entries: frame of the page table, then index
  have hcard : s.leafPtes f ≤ (Finset.range (512 * 0x6D0000)).card := by
    refine Finset.card_le_card_of_injOn
      (fun x => 512 * ((tab s.vm.mem x.1 3 (x.2 / 512)).getD 0 / pageSize) + x.2 % 512) ?_ ?_
    · intro x hx
      obtain ⟨-, -, pt, ht, ho⟩ := hsite x hx
      have h1 := ho.below
      have h2 := h.pt.ok.room
      rw [Finset.coe_range, Set.mem_Iio]
      simp only [ht, Option.getD_some]
      omega
    · intro x hx y hy hxy
      obtain ⟨hrx, hnx, p, hpx, hox⟩ := hsite x hx
      obtain ⟨hry, hny, q, hqy, hoy⟩ := hsite y hy
      simp only [hpx, hqy, Option.getD_some] at hxy
      have hpq : p = q := by
        by_contra hne
        exact Pmm.div_ne hoy.page hox.page hne (by omega)
      subst hpq
      obtain ⟨h1, -, h3⟩ := h.pt.inj _ hrx _ hry 3 _ 3 _ p (place_pt hnx) (place_pt hny) hpx hqy
      exact Prod.ext h1 (by omega)
  rw [Finset.card_range] at hcard
  omega

/-- `cow_tab` counts the mappings: exactly for a mapped frame, with no entry for another, one entry a
frame, and a frame that some task may hardware-write is mapped once. -/
structure Accounting (s : Space) : Prop where
  exact : ∀ f, 0 < s.leafPtes f → cowRefs s.vm.cowTab f = s.leafPtes f
  mapped : ∀ e ∈ s.vm.cowTab, e.refs ≠ 0 → 0 < s.leafPtes e.key
  unique : s.vm.cowTab.Pairwise fun a b => a.refs ≠ 0 → b.refs ≠ 0 → a.key ≠ b.key
  writable : ∀ r ∈ s.roots, ∀ n, n < userPages → ∀ l, view s.vm.mem r n = some l → l.hw = true →
    cowRefs s.vm.cowTab l.frame = 1

theorem accounting_of_inv {s : Space} (h : s.Inv) : s.Accounting := by
  have hexact : ∀ f, 0 < s.leafPtes f → cowRefs s.vm.cowTab f = s.leafPtes f := by
    intro f hf
    obtain ⟨x, hx, hfx⟩ := fiber_pos.1 hf
    unfold frameOf at hfx
    obtain ⟨l, hl, rfl⟩ := Option.map_eq_some_iff.1 hfx
    rw [cowRefs_eq]
    exact h.cow.count_eq hx hl
  refine ⟨hexact, fun e he he0 => ?_, h.unique, fun r hr n hn l hl hw => ?_⟩
  · cases hr : refs? s.vm.cowTab e.key with
    | none => exact absurd rfl (refs?_eq_none.1 hr e he he0)
    | some k =>
      obtain ⟨h1, h2⟩ := h.cow.exact _ _ hr
      unfold leafPtes
      omega
  · have h1 := (h.cow.writable (r, n) (mem_sites.2 ⟨hr, hn⟩) l hl hw).2
    rw [hexact l.frame (by unfold leafPtes; omega)]
    exact h1

/-- **Copy-on-write accounting.** In every state a booted kernel reaches, over any number of tasks,
the reference table agrees with the page tables. -/
theorem cow_accounting (s₀ : Space) (h : s₀.Boot) (ops : List SpaceOp) : (s₀.run ops).Accounting :=
  accounting_of_inv (run_inv h ops)

/-- A machine with 12 frames behind the kernel. -/
def exampleMap : E820Map := ⟨24, [⟨0x127000, 0xC000, 1⟩]⟩

def bootSpace (pmm : Pmm) : Space := ⟨⟨fun _ => 0, pmm, List.replicate cowMax ⟨0, 0⟩, true⟩, ∅, ∅⟩

theorem bootSpace_boot {pmm : Pmm} (h : pmm.Ok) : (bootSpace pmm).Boot :=
  ⟨rfl, h, fun f hf => absurd hf (Finset.notMem_empty f), rfl, rfl, fun _ _ _ => rd64_zero fun _ _ => rfl⟩

theorem bootSpace_lone {pmm : Pmm} {k : Nat} (h : pmm.Ok) : Lone k (bootSpace pmm).vm :=
  ⟨h, fun _ _ _ _ _ => rd64_zero fun _ _ => rfl⟩

def exampleBoot : Space := bootSpace (pmmInit exampleMap)

theorem exampleBoot_boot : exampleBoot.Boot := bootSpace_boot (pmmInit_ok exampleMap)

section
variable {s c : Space} {k p r virt minPhys : Nat}

theorem clonePml4_lone (h : Lone k s.vm) : Lone k s.clonePml4.1.vm := by
  have hc := h.clone (p := (vmmClonePml4 s.vm).1) rfl
  unfold clonePml4
  dsimp only
  split
  · exact h
  · exact hc

theorem clonePml4_mem (h : s.clonePml4.2 = some p) : p ∈ s.clonePml4.1.roots := by
  unfold clonePml4 at h ⊢
  dsimp only at h ⊢
  split at h
  · cases h
  · rename_i h0
    rw [if_neg h0]
    cases h
    exact Finset.mem_insert_self _ _

theorem mapFresh_roots (s : Space) (r virt minPhys : Nat) :
    (s.mapFresh r virt minPhys).1.roots = s.roots := by
  unfold mapFresh
  dsimp only
  split_ifs <;> rfl

theorem mapFresh_lone (h : Lone k s.vm) (hk : k < 512) (hr : Page (cr3OrBoot r)) (hv : Straight k virt)
    (hok : (s.mapFresh r virt minPhys).2 = some 0) : Lone k (s.mapFresh r virt minPhys).1.vm := by
  unfold mapFresh at hok ⊢
  dsimp only at hok ⊢
  split at hok
  · rename_i hfree
    rw [if_pos hfree]
    split at hok
    · cases hok
    · rename_i hne
      rw [if_neg hne]
      split at hok
      · rename_i hm
        rw [if_pos hm]
        rcases pmmAllocFrom_spec s.vm.pmm h.ok minPhys with hal | ⟨-, hal⟩
        · exact absurd (congrArg Prod.fst hal) hne
        · exact (h.zero (hal.ok h.ok) hal.page).map hk hr hv rfl
      · cases hok
  · cases hok

/-- A task gets its only page and forks. -/
theorem run_fork {vm' : Vm} {pdpt pd pt va : Nat} (h0 : Lone k s.vm) (hk : k < 256) (hr : Page (cr3OrBoot r))
    (hp : Page (cr3OrBoot p)) (hrp : Page r ∧ r ≠ 0 ∧ p ≠ 0 ∧ p ≠ r ∧ p ≠ pml4Phys ∧ r ≠ pml4Phys)
    (hva : va = 0 ||| k <<< 39 ||| k <<< 30 ||| k <<< 21) (hvirt : virt = va ||| k <<< 12)
    (hv : Straight k virt) (hc : s.clonePml4.2 = some r)
    (hm : (s.clonePml4.1.mapFresh r virt minPhys).2 = some 0)
    (hf : (s.run [.clone, .map r virt minPhys]).clonePml4 = (c, some p)) (hready : c.vm.hhdmReady = true)
    (e1 : next userTableEnt c.vm.mem r k = some pdpt) (e2 : next userTableEnt c.vm.mem pdpt k = some pd)
    (e3 : next userTableEnt c.vm.mem pd k = some pt) (hcopy : copyLeaf p va pt k c.vm = (vm', true)) :
    s.run [.clone, .map r virt minPhys, .fork r] = { c with vm := vm' } := by
  have hmem := clonePml4_mem hc
  have hrun : s.run [.clone, .map r virt minPhys] = (s.clonePml4.1.mapFresh r virt minPhys).1 := by
    change (s.clonePml4.1.onTask r fun s => s.mapFresh r virt minPhys).1 = _
    unfold onTask
    rw [if_pos hmem]
  have hl := clonePml4_lone (mapFresh_lone (clonePml4_lone h0) (by omega) hr hv hm)
  change ((s.run [.clone, .map r virt minPhys]).onTask r fun s => s.forkPml4 r).1 = _
  rw [hrun] at hf ⊢
  rw [hf] at hl
  subst hvirt hva
  have hall : vmmCopyUser c.vm p r = (vm', true) := by
    unfold vmmCopyUser
    rw [if_neg (by simp [hrp, hready])]
    exact (hl.fork hk hp hrp.1 e1 e2 e3 hv).trans hcopy
  unfold onTask
  rw [mapFresh_roots, if_pos hmem]
  unfold forkPml4
  simp only [hf, hall, if_true]

end

/-- A task with one page, and its child. -/
def forkOps : List SpaceOp := [.clone, .map 0x127000 0x8040201000 0, .fork 0x127000]

/-- Before the tables are copied. -/
def forking : Space := (exampleBoot.run [.clone, .map 0x127000 0x8040201000 0]).clonePml4.1

/-- The shared page. -/
def shared : Vm × Bool := copyLeaf 0x12C000 0x8040200000 0x12B000 1 forking.vm

theorem forking_tables : exampleBoot.clonePml4.2 = some 0x127000 ∧
    (exampleBoot.clonePml4.1.mapFresh 0x127000 0x8040201000 0).2 = some 0 ∧
    (exampleBoot.run [.clone, .map 0x127000 0x8040201000 0]).clonePml4.2 = some 0x12C000 ∧
    forking.vm.hhdmReady = true ∧ next userTableEnt forking.vm.mem 0x127000 1 = some 0x129000 ∧
    next userTableEnt forking.vm.mem 0x129000 1 = some 0x12A000 ∧
    next userTableEnt forking.vm.mem 0x12A000 1 = some 0x12B000 := by decide +kernel

theorem shared_refs : shared.2 = true ∧
    cowRefs ({ forking with vm := shared.1 } : Space).vm.cowTab 0x128000 = 2 ∧
    (({ forking with vm := shared.1 } : Space).step (.store 0x127000 0x8040201000 7)).2 = some 0 := by
  decide +kernel

theorem forkOps_run : exampleBoot.run forkOps = { forking with vm := shared.1 } := by
  have hpair : ∀ {α β : Type} {x : α × β} {b : β}, x.2 = b → x = (x.1, b) := fun h => h ▸ rfl
  obtain ⟨h1, h2, h3, h4, h5, h6, h7⟩ := forking_tables
  have h0 : Lone 1 exampleBoot.vm := bootSpace_lone (pmmInit_ok exampleMap)
  have hf : (exampleBoot.run [.clone, .map 0x127000 0x8040201000 0]).clonePml4 =
      (forking, some 0x12C000) := hpair h3
  have hs : copyLeaf 0x12C000 0x8040200000 0x12B000 1 forking.vm = (shared.1, true) :=
    hpair shared_refs.1
  exact run_fork (s := exampleBoot) h0 (by decide) (by decide) (by decide) (by decide) (by decide)
    (by decide) ⟨by decide, by decide, by decide, by decide⟩ h1 h2 hf h4 h5 h6 h7 hs

/-- A count other than 1 is that of an entry. -/
theorem Accounting.counted {s : Space} (h : s.Accounting) {f : Nat}
    (hne : cowRefs s.vm.cowTab f ≠ 1) : s.leafPtes f = cowRefs s.vm.cowTab f := by
  refine (h.exact f ?_).symm
  cases hf : s.vm.cowTab.find? (hit f) with
  | none => exact absurd (by rw [cowRefs, hf]) hne
  | some e =>
    obtain ⟨he0, rfl⟩ := hit_iff.1 (List.find?_some hf)
    exact h.mapped e (List.mem_of_find?_eq_some hf) he0

theorem cow_accounting_boot : exampleBoot.Boot ∧ (exampleBoot.run forkOps).Accounting ∧
    (exampleBoot.run forkOps).leafPtes 0x128000 = 2 := by
  have h := cow_accounting exampleBoot exampleBoot_boot forkOps
  have h2 : cowRefs (exampleBoot.run forkOps).vm.cowTab 0x128000 = 2 := by
    rw [forkOps_run]
    exact shared_refs.2.1
  exact ⟨exampleBoot_boot, h, (h.counted (by omega)).trans h2⟩

/-- **Copy-on-write refines eager copies.** In every reachable state, a step that succeeds changes the
tasks' memories as on private copies: the acting task's as the operation says, the child's to the
parent's on a fork, no other's. A store to a mapped page is refused only when the page is
read-only or no frame is left. -/
theorem cow_refines_eager (s₀ : Space) (h : s₀.Boot) (ops : List SpaceOp) (op : SpaceOp) :
    (∀ k, ((s₀.run ops).step op).2 = some k →
      ∃ A, eager k (s₀.run ops).mems op = some A ∧
        ∀ r ∈ ((s₀.run ops).step op).1.roots, ((s₀.run ops).step op).1.mems r = A r) ∧
    (((s₀.run ops).step op).2 = none →
      ∀ r ∈ ((s₀.run ops).step op).1.roots, actor op ≠ some r →
        ((s₀.run ops).step op).1.mems r = (s₀.run ops).mems r) ∧
    (∀ r virt b pg, op = .store r virt b → r ∈ (s₀.run ops).roots → (s₀.run ops).mems r (vpn virt) = some pg →
      ((s₀.run ops).step op).2 = none → pg.writable = false ∨ NoFrame (s₀.run ops).vm) ∧
    (∀ r dst bytes, op = .copyTo r dst bytes → r ∈ (s₀.run ops).roots → ((s₀.run ops).step op).2 = none →
      storeBytes ((s₀.run ops).mems r) dst bytes = none ∨ NoFrame ((s₀.run ops).step op).1.vm) := by
  have hinv := run_inv h ops
  have hok := step_ok hinv op
  refine ⟨hok.success, hok.failure, ?_, ?_⟩
  · rintro r virt b pg rfl hr hpg hnone
    have hv : vpn virt < userPages := by
      by_contra hv
      rw [mems, taskMem, if_neg hv] at hpg
      cases hpg
    rw [step, onTask, if_pos hr] at hnone
    rcases VmInv.cpuStore_spec hinv hr virt b with ⟨-, href⟩ | ⟨vm', A, e, -⟩
    · rw [mems, taskMem_at _ _ hv] at hpg
      exact href hv pg hpg
    · rw [e] at hnone
      cases hnone
  · rintro r dst bytes rfl hr hnone
    rw [step, onTask, if_pos hr] at hnone ⊢
    obtain ⟨-, -, a3⟩ := VmInv.copyToUserPml4_spec hinv hr dst bytes
    refine (a3 ?_).1
    cases hb : (copyToUserPml4 (s₀.run ops).vm r dst bytes).2 with
    | false => rfl
    | true => rw [answer, hb] at hnone; cases hnone

theorem cow_refines_eager_boot :
    exampleBoot.Boot ∧ ((exampleBoot.run forkOps).step (.store 0x127000 0x8040201000 7)).2 = some 0 ∧
    ∃ A, eager 0 (exampleBoot.run forkOps).mems (.store 0x127000 0x8040201000 7) = some A ∧
      ∀ r ∈ ((exampleBoot.run forkOps).step (.store 0x127000 0x8040201000 7)).1.roots,
        ((exampleBoot.run forkOps).step (.store 0x127000 0x8040201000 7)).1.mems r = A r := by
  have hok : ((exampleBoot.run forkOps).step (.store 0x127000 0x8040201000 7)).2 = some 0 := by
    rw [forkOps_run]
    exact shared_refs.2.2
  exact ⟨exampleBoot_boot, hok, (cow_refines_eager exampleBoot exampleBoot_boot forkOps _).1 0 hok⟩

end Space

end VampireOS
