import VampireOS.Memory.Teardown

/-!
# Writes to user memory

A task writes through the processor (`cpuStore`), the kernel through `copy_to_user_pml4`. Against the
abstract memory both are `storeByte`: the page must be there and writable, and one byte changes.
`user_mprotect` and `user_munmap` (user.c:1030-1132) are loops over pages.
-/

namespace VampireOS

open Lib

/-! ## The abstract store -/

/-- A task's memory: pages of the user half. -/
abbrev TaskMem := Nat → Option UserPage

def UserPage.setByte (pg : UserPage) (o : Fin pageSize) (b : UInt8) : UserPage :=
  { pg with bytes := Function.update pg.bytes o b }

def offset (virt : Nat) : Fin pageSize := ⟨virt % pageSize, Nat.mod_lt _ (by decide)⟩

/-- One byte written on private memory; `none` when the page is missing or read-only. -/
def storeByte (A : TaskMem) (virt : Nat) (b : UInt8) : Option TaskMem :=
  match A (vpn virt) with
  | none => none
  | some pg =>
    if vpn virt < userPages ∧ pg.writable = true then
      some (Function.update A (vpn virt) (some (pg.setByte (offset virt) b)))
    else none

/-- `bytes` written from `va` on, addresses wrapping at `2 ^ 64`. -/
def storeBytes (A : TaskMem) : Nat → List UInt8 → Option TaskMem
  | _, [] => some A
  | va, b :: bs =>
    match storeByte A va b with
    | none => none
    | some A' => storeBytes A' ((va + 1) % 2 ^ 64) bs

/-- The abstract memory of task `r`. -/
def taskMem (m : Mem) (r : Nat) : TaskMem := fun n => if n < userPages then absMem m r n else none

/-! ## `copy_to_user_pml4` (user.c:648) -/

/-- The loop from byte `va` on; `pageBase` is the page whose frame `page` holds. -/
def copyToUserFrom (cr3 : Nat) : List UInt8 → Nat → Nat → Nat → Vm → Vm × Bool
  | [], _, _, _, vm => (vm, true)
  | b :: bs, va, pageBase, page, vm =>
    let base := va &&& addrMask
    let next := (va + 1) % 2 ^ 64
    if base ≠ pageBase then
      match vmmCowBreak vm cr3 va with
      | (vm, false) => (vm, false)
      | (vm, true) =>
        match vmmTranslateUser vm cr3 va with
        | none => (vm, false)
        | some phys =>
          let page := phys &&& addrMask
          copyToUserFrom cr3 bs next base page { vm with mem := setByte vm.mem (page + (va &&& 0xFFF)) b }
    else copyToUserFrom cr3 bs next pageBase page { vm with mem := setByte vm.mem (page + (va &&& 0xFFF)) b }

def copyToUserPml4 (vm : Vm) (cr3 dst : Nat) (src : List UInt8) : Vm × Bool :=
  if src = [] then (vm, true)
  else if cr3 = 0 then (vm, false)
  else copyToUserFrom cr3 src dst (2 ^ 64 - 1) 0 vm

/-! ## `user_mprotect` and `user_munmap` -/

def userMmapPages : Nat := 16
def userHeapPages : Nat := 16

/-- `page_up` (user.c:858). -/
def pageUp (a : Nat) : Nat := (a + pageSize - 1) % 2 ^ 64 &&& addrMask

/-- The checks on `va` and `len` that the two share; the number of pages. -/
def userPagesOf (va len : Nat) : Option Nat :=
  if va = 0 ∨ va &&& 0xFFF ≠ 0 then none
  else if len = 0 ∨ len > userMmapPages * pageSize then none
  else
    let npages := pageUp len / pageSize
    if npages = 0 ∨ npages > userMmapPages then none
    else if (va + npages * pageSize) % 2 ^ 64 < va then none
    else some npages

/-- `PROT_READ`, `PROT_WRITE` and both. -/
def protWr (prot : Nat) : Option Bool :=
  if prot = 1 then some false else if prot = 2 ∨ prot = 3 then some true else none

def userMprotect (vm : Vm) (cr3 va len prot : Nat) : Vm × Bool :=
  if cr3 = 0 ∨ cr3 = pml4Phys then (vm, false)
  else
    match userPagesOf va len, protWr prot with
    | some npages, some wr =>
      if (List.range npages).all fun i => (vmmTranslateUser vm cr3 (va + i * pageSize)).isSome then
        loopTo (fun i vm => vmmProtectUser vm cr3 (va + i * pageSize) wr) npages vm
      else (vm, false)
    | _, _ => (vm, false)

/-- Code, stack and heap pages of a program loaded at `base`: `user_munmap` leaves them. -/
def keptPage (base page : Nat) : Bool :=
  (base ≤ page && page < base + 2 * pageSize) ||
    (base + 2 * pageSize ≤ page && page < base + 2 * pageSize + userHeapPages * pageSize)

def userMunmap (vm : Vm) (cr3 base va len : Nat) : Vm × Bool :=
  if cr3 = 0 ∨ cr3 = pml4Phys ∨ base = 0 then (vm, false)
  else
    match userPagesOf va len with
    | none => (vm, false)
    | some npages =>
      if (List.range npages).all fun i =>
          !keptPage base (va + i * pageSize) && (vmmTranslateUser vm cr3 (va + i * pageSize)).isSome then
        loopTo (fun i vm => vmmUnmapUser vm cr3 (va + i * pageSize)) npages vm
      else (vm, false)

/-! ## The effect on one task -/

/-- Task `r` now holds `A`; no other task and no kernel frame changed. -/
structure Acts (roots kern : Finset Nat) (r : Nat) (m m' : Mem) (A : TaskMem) : Prop where
  self : taskMem m' r = A
  other : ∀ r' ∈ roots, r' ≠ r → taskMem m' r' = taskMem m r'
  kern : ∀ f ∈ kern, frameBytes m' f = frameBytes m f

section
variable {m m' m'' : Mem} {roots kern : Finset Nat} {vm : Vm} {r n : Nat} {A B : TaskMem}

theorem taskMem_at (m : Mem) (r : Nat) (hn : n < userPages) : taskMem m r n = absMem m r n := if_pos hn

theorem Same.taskMem (h : Same roots kern m m') (hr : r ∈ roots) : taskMem m' r = taskMem m r := by
  funext n
  unfold VampireOS.taskMem
  split
  · exact h.mem r hr n (by assumption)
  · rfl

theorem Same.acts (h : Same roots kern m m') (hr : r ∈ roots) :
    Acts roots kern r m m' (VampireOS.taskMem m r) :=
  ⟨h.taskMem hr, fun _ hr' _ => h.taskMem hr', h.kern⟩

theorem Step.acts {v : Option UserPage} (h : Step roots kern m m' r n v) (hr : r ∈ roots)
    (hn : n < userPages) :
    Acts roots kern r m m' (Function.update (taskMem m r) n v) := by
  refine ⟨funext fun n' => ?_, fun r' hr' hne => funext fun n' => ?_, h.kern⟩
  · unfold taskMem
    by_cases hnn : n' = n
    · subst hnn
      rw [if_pos hn, h.mem r hr n' hn, if_pos ⟨rfl, rfl⟩, Function.update_self]
    · rw [Function.update_of_ne hnn]
      split
      · rw [h.mem r hr n' (by assumption), if_neg (fun hx => hnn hx.2)]
      · rfl
  · unfold taskMem
    split
    · rw [h.mem r' hr' n' (by assumption), if_neg (fun hx => hne hx.1)]
    · rfl

theorem Acts.trans (h : Acts roots kern r m m' A) (h' : Acts roots kern r m' m'' B) :
    Acts roots kern r m m'' B :=
  ⟨h'.self, fun r' hr' hne => (h'.other r' hr' hne).trans (h.other r' hr' hne),
    fun f hf => (h'.kern f hf).trans (h.kern f hf)⟩

/-! ## Writing through a hardware-writable leaf -/

theorem frameBytes_setByte (m : Mem) (f : Nat) (o : Fin pageSize) (b : UInt8) :
    frameBytes (setByte m (f + o) b) f = Function.update (frameBytes m f) o b := by
  funext k
  unfold frameBytes setByte
  by_cases hk : k = o
  · subst hk; rw [if_pos rfl, Function.update_self]
  · rw [Function.update_of_ne hk, if_neg]
    intro e
    exact hk (Fin.ext (by omega))

/-- The frame of a hardware-writable page is nobody else's, so the write shows to its owner only. -/
theorem VmInv.writeByte (h : VmInv vm roots kern) (hr : r ∈ roots) (hn : n < userPages) {l : Leaf Nat}
    (hl : view vm.mem r n = some l) (hw : l.hw = true) (o : Fin pageSize) (b : UInt8) :
    VmInv { vm with mem := setByte vm.mem (l.frame + o) b } roots kern ∧
      (∀ r ∈ roots, ∀ n, n < userPages → view (setByte vm.mem (l.frame + o) b) r n = view vm.mem r n) ∧
      Step roots kern vm.mem (setByte vm.mem (l.frame + o) b) r n (some ((pageOf vm.mem l).setByte o b)) := by
  have hx : (r, n) ∈ sites roots := mem_sites.2 ⟨hr, hn⟩
  obtain ⟨-, -, -, hd⟩ := h.pt.of_view hr hn hl
  have hs := sameOff_setByte vm.mem l.frame o b o.isLt
  obtain ⟨a1, -, a3⟩ := h.pt.frame_page hs hd.owned.page hd.notTable (hd.owned.ne_boot h.pt.ok)
  have hone := (h.cow.writable _ hx l hl hw).2
  refine ⟨⟨a1, h.ready, h.unique, h.cow.congr fun x hx => a3 x.1 (mem_sites.1 hx).1 x.2
    (mem_sites.1 hx).2⟩, a3, fun r' hr' n' hn' => ?_, fun f hf => ?_⟩
  · rw [absMem_eq, a3 r' hr' n' hn']
    by_cases hxx : r' = r ∧ n' = n
    · obtain ⟨rfl, rfl⟩ := hxx
      rw [if_pos ⟨rfl, rfl⟩, hl, Option.map_some, pageOf, frameBytes_setByte]
      rfl
    · rw [if_neg hxx, absMem_eq]
      cases hv : view vm.mem r' n' with
      | none => rfl
      | some l' =>
        obtain ⟨-, -, -, hd'⟩ := h.pt.of_view hr' hn' hv
        rw [Option.map_some, Option.map_some, pageOf, pageOf, hs.frameBytes hd.owned.page hd'.owned.page]
        intro e
        have hsite := fiber_one (Nat.le_of_eq hone) (mem_sites.2 ⟨hr', hn'⟩ : (r', n') ∈ sites roots) hx
          (by simp [frameOf, see, hv, e]) (by simp [frameOf, see, hl])
        exact hxx ⟨congrArg Prod.fst hsite, congrArg Prod.snd hsite⟩
  · refine hs.frameBytes hd.owned.page (h.pt.kern f hf).page ?_
    rintro rfl
    exact hd.notKern hf

/-- The store on private memory when the page is there and writable. -/
theorem storeByte_of {A : TaskMem} {virt : Nat} {p : UserPage} (hv : vpn virt < userPages)
    (hp : A (vpn virt) = some p) (hw : p.writable = true) (b : UInt8) :
    storeByte A virt b = some (Function.update A (vpn virt) (some (p.setByte (offset virt) b))) := by
  unfold storeByte
  rw [hp]
  exact if_pos ⟨hv, hw⟩

/-- One byte through a hardware-writable leaf, against the abstract store. -/
theorem VmInv.writeByte_acts (h : VmInv vm roots kern) (hr : r ∈ roots) {virt : Nat}
    (hv : vpn virt < userPages) {l : Leaf Nat} (hl : view vm.mem r (vpn virt) = some l)
    (hw : l.hw = true) (b : UInt8) :
    ∃ A, storeByte (taskMem vm.mem r) virt b = some A ∧
      Acts roots kern r vm.mem (setByte vm.mem (l.frame + virt % pageSize) b) A := by
  obtain ⟨-, -, a3⟩ := h.writeByte hr hv hl hw (offset virt) b
  have hwant := (h.cow.writable (r, vpn virt) (mem_sites.2 ⟨hr, hv⟩) l hl hw).1
  refine ⟨_, storeByte_of (p := pageOf vm.mem l) hv ?_ hwant b, a3.acts hr hv⟩
  rw [taskMem_at _ _ hv, absMem_eq, hl, Option.map_some]

/-! ## The processor's store -/

theorem dirEnt_write {s : Nat} (hp : Page s) : (dirEnt s &&& pdeWrite != 0) = true := by
  rw [dirEnt, or_flags_and hp (by decide)]
  decide

theorem hw_encode {l : Leaf Nat} (hp : Page l.frame) : (encode l &&& pdeWrite != 0) = l.hw := by
  rw [encode_and hp (by decide)]
  cases l.want <;> cases l.hw <;> decide

/-- A directory entry that leads on is writable. -/
theorem PtInv.next_write {pmm : Pmm} (h : PtInv m pmm roots kern) (hr : r ∈ roots) {ℓ q t i s : Nat}
    (hp : Place ℓ q) (hℓ : ℓ < 3) (ht : tab m r ℓ q = some t) (hi : i < 512) (h0 : ℓ ≠ 0 ∨ i < 256)
    (hn : next tableEnt m t i = some s) :
    (ent m t i &&& pdeWrite != 0) = true := by
  rcases h.dir r hr ℓ q t i hp hℓ ht hi h0 with h1 | ⟨s', h1, h2, -⟩
  · rw [next_zero h1] at hn; cases hn
  · rw [h1]; exact dirEnt_write h2

/-- The walk lets a user write through exactly on a leaf with the hardware bit. -/
theorem VmInv.hwWritable_iff (h : VmInv vm roots kern) (hr : r ∈ roots) {virt : Nat}
    (hv : vpn virt < userPages) :
    hwWritable vm.mem r virt = true ↔ ∃ l, view vm.mem r (vpn virt) = some l ∧ l.hw = true := by
  have hp3 := place_pt hv
  have hp2 := hp3.parent
  have hp1 := hp2.parent
  have hp0 := hp1.parent
  have hi1 : pml4I virt < 256 := (user_half_iff virt).2 hv
  have hi2 : pdptI virt < 512 := by rw [pdptI_eq]; exact Nat.mod_lt _ (by decide)
  have hi3 : pdI virt < 512 := by rw [pdI_eq]; exact Nat.mod_lt _ (by decide)
  have hw := h.pt.walkPt_user hr hv
  unfold walkPt at hw
  simp only [Option.bind_eq_bind] at hw
  unfold hwWritable
  simp only
  have n1 : next userTableEnt vm.mem r (pml4I virt) = next tableEnt vm.mem r (pml4I virt) :=
    h.pt.next_user hr hp0 (by omega) (tab_zero ..) (by omega) (Or.inr hi1)
  rw [n1] at hw ⊢
  cases h1 : next tableEnt vm.mem r (pml4I virt) with
  | none =>
    rw [h1, Option.bind_none] at hw
    rw [Option.elim_none, view, ← hw, Option.bind_none]
    simp
  | some pdpt =>
    rw [h1, Option.bind_some] at hw
    rw [Option.elim_some]
    have ht1 : tab vm.mem r 1 (vpn virt / 512 / 512 / 512) = some pdpt := by
      rw [tab_succ, tab_zero, Option.bind_some, ← pml4I_eq, pml4I_mod, h1]
    rw [h.pt.next_user hr hp1 (by omega) ht1 hi2 (Or.inl (by decide))] at hw ⊢
    cases h2 : next tableEnt vm.mem pdpt (pdptI virt) with
    | none =>
      rw [h2, Option.bind_none] at hw
      rw [Option.elim_none, view, ← hw, Option.bind_none]
      simp
    | some pd =>
      rw [h2, Option.bind_some] at hw
      rw [Option.elim_some]
      have ht2 : tab vm.mem r 2 (vpn virt / 512 / 512) = some pd := by
        rw [tab_succ, ht1, Option.bind_some, ← pdptI_eq, h2]
      rw [h.pt.next_user hr hp2 (by omega) ht2 hi3 (Or.inl (by decide))] at hw ⊢
      cases h3 : next tableEnt vm.mem pd (pdI virt) with
      | none =>
        rw [h3] at hw
        rw [Option.elim_none, view, ← hw, Option.bind_none]
        simp
      | some pt =>
        rw [h3] at hw
        rw [Option.elim_some, h.pt.next_write hr hp0 (by omega) (tab_zero ..) (by omega) (Or.inr hi1) h1,
          h.pt.next_write hr hp1 (by omega) ht1 hi2 (Or.inl (by decide)) h2,
          h.pt.next_write hr hp2 (by omega) ht2 hi3 (Or.inl (by decide)) h3, ptI_eq]
        rcases h.pt.view_cases hr hv hw.symm with ⟨he, hn⟩ | ⟨l, he, hl, hd⟩
        · rw [he, hn]
          simp [userLeaf]
        · rw [he, hl, userLeaf_encode hd.owned.page, hw_encode hd.owned.page]
          simp

theorem VmInv.hwStore_spec (h : VmInv vm roots kern) (hr : r ∈ roots) {virt : Nat} (hv : vpn virt < userPages)
    {l : Leaf Nat} (hl : view vm.mem r (vpn virt) = some l) (hw : l.hw = true) (b : UInt8) :
    ∃ vm' A, hwStore vm r virt b = (vm', true) ∧ VmInv vm' roots kern ∧
      storeByte (taskMem vm.mem r) virt b = some A ∧ Acts roots kern r vm.mem vm'.mem A := by
  unfold hwStore
  rw [if_pos ((h.hwWritable_iff hr hv).2 ⟨l, hl, hw⟩)]
  cases ht : vmmTranslateUser vm r virt with
  | none =>
    rw [h.vmmTranslateUser_none hr hv, hl] at ht
    cases ht
  | some phys =>
    obtain ⟨-, l', hl', rfl⟩ := h.vmmTranslateUser_some hr ht
    rw [hl] at hl'
    cases hl'
    obtain ⟨A, a1, a2⟩ := h.writeByte_acts hr hv hl hw b
    exact ⟨_, A, rfl, (h.writeByte hr hv hl hw (offset virt) b).1, a1, a2⟩

/-- Out of frames. -/
def NoFrame (vm : Vm) : Prop := ∀ f, f < vm.pmm.frameCount → vm.pmm.used f = true

/-- **A user store** does on the task's memory what it does on private memory. It is refused only
off the mapped pages, on a read-only page, or when a copy is due and no frame is left. -/
theorem VmInv.cpuStore_spec (h : VmInv vm roots kern) (hr : r ∈ roots) (virt : Nat) (b : UInt8) :
    (cpuStore vm r virt b = (vm, false) ∧ (vpn virt < userPages → ∀ pg, absMem vm.mem r (vpn virt) = some pg →
      pg.writable = false ∨ NoFrame vm)) ∨
      ∃ vm' A, cpuStore vm r virt b = (vm', true) ∧ VmInv vm' roots kern ∧
        storeByte (taskMem vm.mem r) virt b = some A ∧ Acts roots kern r vm.mem vm'.mem A := by
  unfold cpuStore
  by_cases hv : vpn virt < userPages
  · by_cases hw : hwWritable vm.mem r virt = true
    · rw [if_pos hw]
      obtain ⟨l, hl, hlw⟩ := (h.hwWritable_iff hr hv).1 hw
      exact Or.inr (h.hwStore_spec hr hv hl hlw b)
    · rw [if_neg hw]
      cases hl : view vm.mem r (vpn virt) with
      | none =>
        rw [(h.vmmTranslateUser_none hr hv).2 hl]
        refine Or.inl ⟨?_, fun _ pg hpg => ?_⟩
        · simp [vmmHandlePageFault]
        · rw [absMem_none.2 hl] at hpg; cases hpg
      | some l =>
        have ht : (vmmTranslateUser vm r virt).isSome = true := by
          cases ht : vmmTranslateUser vm r virt with
          | none => rw [h.vmmTranslateUser_none hr hv, hl] at ht; cases ht
          | some _ => rfl
        simp only [ht, if_true, vmmHandlePageFault]
        rw [if_neg (by decide)]
        rcases h.vmmCowBreak_spec hr virt with ⟨a1, a2⟩ | ⟨vm', a1, -, a3, a4, -, f, a6⟩
        · rw [a1]
          refine Or.inl ⟨rfl, fun _ pg hpg => ?_⟩
          rw [absMem_eq, hl] at hpg
          cases hpg
          exact a2 hv l hl
        · rw [a1]
          obtain ⟨vm'', A, b1, b2, b3, b4⟩ := a3.hwStore_spec hr hv a6 rfl b
          rw [a4.taskMem hr] at b3
          exact Or.inr ⟨vm'', A, b1, b2, b3, (a4.acts hr).trans b4⟩
  · -- off the user half: the kernel's translation refuses, whatever the walk says
    have ht : vmmTranslateUser vm r virt = none := by
      cases ht : vmmTranslateUser vm r virt with
      | none => rfl
      | some phys => exact absurd (h.vmmTranslateUser_some hr ht).1 hv
    refine Or.inl ⟨?_, fun h' => absurd h' hv⟩
    unfold hwStore
    rw [ht]
    simp [vmmHandlePageFault]

/-! ## The kernel's copy -/

theorem addr_ne_ones (va : Nat) : va &&& addrMask ≠ 2 ^ 64 - 1 := by
  intro h
  have h1 : (va &&& addrMask).testBit 0 = true := by rw [h]; decide
  rw [Nat.testBit_and] at h1
  have h2 : addrMask.testBit 0 = false := by decide
  rw [h2, Bool.and_false] at h1
  cases h1

/-- `page` is the frame behind `pageBase`, already writable. -/
def Cached (vm : Vm) (r pageBase page : Nat) : Prop :=
  vpn pageBase < userPages ∧ ∃ l, view vm.mem r (vpn pageBase) = some l ∧ l.hw = true ∧ page = l.frame

/-- The bytes of one page written, the next page not begun. -/
theorem VmInv.copyByte (h : VmInv vm roots kern) (hr : r ∈ roots) {va page : Nat}
    (hc : Cached vm r (va &&& addrMask) page) (b : UInt8) {vm' : Vm}
    (e : vm' = { vm with mem := setByte vm.mem (page + (va &&& 0xFFF)) b }) :
    VmInv vm' roots kern ∧ Cached vm' r (va &&& addrMask) page ∧
      ∃ A, storeByte (taskMem vm.mem r) va b = some A ∧
      Acts roots kern r vm.mem vm'.mem A := by
  subst e
  obtain ⟨hv, l, hl, hw, rfl⟩ := hc
  have hv' := hv
  have hl' := hl
  rw [vpn_addr] at hv' hl'
  rw [and_fff]
  obtain ⟨a1, a2, -⟩ := h.writeByte hr hv' hl' hw (offset va) b
  obtain ⟨A, b1, b2⟩ := h.writeByte_acts hr hv' hl' hw b
  exact ⟨a1, ⟨hv, l, (a2 r hr _ hv).trans hl, hw, rfl⟩, A, b1, b2⟩

/-- No writable page, no store. -/
theorem storeByte_refused {virt : Nat} {b : UInt8}
    (hn : vpn virt < userPages → ∀ l, view vm.mem r (vpn virt) = some l → l.want = false) :
    storeByte (taskMem vm.mem r) virt b = none := by
  unfold storeByte taskMem
  by_cases hv : vpn virt < userPages
  · rw [if_pos hv, absMem_eq]
    cases hl : view vm.mem r (vpn virt) with
    | none => rfl
    | some l => simp [pageOf, hn hv l hl]
  · rw [if_neg hv]

theorem VmInv.copyToUserFrom_spec (hr : r ∈ roots) : ∀ (bs : List UInt8) (va pageBase page : Nat) (vm : Vm),
    VmInv vm roots kern → (pageBase ≠ 2 ^ 64 - 1 → Cached vm r pageBase page) →
    VmInv (copyToUserFrom r bs va pageBase page vm).1 roots kern ∧
      ((copyToUserFrom r bs va pageBase page vm).2 = true →
        ∃ A, storeBytes (taskMem vm.mem r) va bs = some A ∧
          Acts roots kern r vm.mem (copyToUserFrom r bs va pageBase page vm).1.mem A) ∧
      ((copyToUserFrom r bs va pageBase page vm).2 = false →
        (storeBytes (taskMem vm.mem r) va bs = none ∨ NoFrame (copyToUserFrom r bs va pageBase page vm).1) ∧
          ∃ A, Acts roots kern r vm.mem (copyToUserFrom r bs va pageBase page vm).1.mem A)
  | [], va, pageBase, page, vm, h, _ => by
    unfold copyToUserFrom
    exact ⟨h, fun _ => ⟨_, rfl, Same.refl.acts hr⟩, nofun⟩
  | b :: bs, va, pageBase, page, vm, h, hc => by
    -- what the rest of the loop gives, once the page of `va` is at hand in `vm₁`
    have rest : ∀ (vm₁ : Vm) (page : Nat), VmInv vm₁ roots kern → Same roots kern vm.mem vm₁.mem →
        Cached vm₁ r (va &&& addrMask) page → ∀ res : Vm × Bool,
        copyToUserFrom r bs ((va + 1) % 2 ^ 64) (va &&& addrMask) page
          { vm₁ with mem := setByte vm₁.mem (page + (va &&& 0xFFF)) b } = res →
        VmInv res.1 roots kern ∧ (res.2 = true → ∃ A, storeBytes (taskMem vm.mem r) va (b :: bs) = some A ∧
          Acts roots kern r vm.mem res.1.mem A) ∧ (res.2 = false →
          (storeBytes (taskMem vm.mem r) va (b :: bs) = none ∨ NoFrame res.1) ∧
            ∃ A, Acts roots kern r vm.mem res.1.mem A) := by
      rintro vm₁ page h₁ hsame hc₁ res rfl
      obtain ⟨a1, a2, A, a3, a4⟩ := h₁.copyByte hr hc₁ b rfl
      rw [hsame.taskMem hr] at a3
      obtain ⟨c1, c2, c3⟩ := VmInv.copyToUserFrom_spec hr bs ((va + 1) % 2 ^ 64) (va &&& addrMask)
        page _ a1 fun _ => a2
      have hacts := (hsame.acts hr).trans a4
      refine ⟨c1, fun hb => ?_, fun hb => ?_⟩
      · obtain ⟨B, d1, d2⟩ := c2 hb
        rw [a4.self] at d1
        refine ⟨B, ?_, hacts.trans d2⟩
        unfold storeBytes
        rw [a3]
        exact d1
      · obtain ⟨d1, B, d2⟩ := c3 hb
        rw [a4.self] at d1
        refine ⟨d1.imp_left fun d1 => ?_, B, hacts.trans d2⟩
        unfold storeBytes
        rw [a3]
        exact d1
    generalize hres : copyToUserFrom r (b :: bs) va pageBase page vm = res
    unfold copyToUserFrom at hres
    simp only at hres
    by_cases hb : va &&& addrMask ≠ pageBase
    · rw [if_pos hb] at hres
      rcases h.vmmCowBreak_spec hr va with ⟨a1, a2⟩ | ⟨vm₁, a1, hv, a3, a4, -, f, a6⟩
      · rw [a1] at hres
        subst hres
        refine ⟨h, nofun, fun _ => ⟨?_, _, Same.refl.acts hr⟩⟩
        by_cases hf : NoFrame vm
        · exact Or.inr hf
        · refine Or.inl ?_
          unfold storeBytes
          rw [storeByte_refused fun hv l hl => (a2 hv l hl).resolve_right hf]
      · rw [a1] at hres
        cases ht : vmmTranslateUser vm₁ r va with
        | none =>
          rw [a3.vmmTranslateUser_none hr hv, a6] at ht
          cases ht
        | some phys =>
          simp only [ht] at hres
          obtain ⟨-, l, hl, rfl⟩ := a3.vmmTranslateUser_some hr ht
          obtain ⟨-, -, -, hd⟩ := a3.pt.of_view hr hv hl
          have hlt : va % pageSize < pageSize := Nat.mod_lt _ (by decide)
          rw [← or_flags_eq_add hd.owned.page hlt, or_flags_addr hd.owned.page
            (hd.owned.lt64 a3.pt.ok).1 hlt] at hres
          rw [hl] at a6
          cases a6
          refine rest vm₁ f a3 a4 ⟨by rw [vpn_addr]; exact hv, _, by rw [vpn_addr]; exact hl, rfl,
            rfl⟩ res hres
    · rw [if_neg hb] at hres
      have hb : va &&& addrMask = pageBase := by simpa using hb
      rw [← hb] at hres
      exact rest vm page h Same.refl (hb ▸ hc (hb ▸ addr_ne_ones va)) res hres

/-- **`copy_to_user_pml4`** writes what private memory would hold. It stops half-way only where private
memory would refuse, or for want of a frame; no other task sees anything even then. -/
theorem VmInv.copyToUserPml4_spec (h : VmInv vm roots kern) (hr : r ∈ roots) (dst : Nat) (src : List UInt8) :
    VmInv (copyToUserPml4 vm r dst src).1 roots kern ∧
      ((copyToUserPml4 vm r dst src).2 = true → ∃ A, storeBytes (taskMem vm.mem r) dst src = some A ∧
        Acts roots kern r vm.mem (copyToUserPml4 vm r dst src).1.mem A) ∧
      ((copyToUserPml4 vm r dst src).2 = false →
        (storeBytes (taskMem vm.mem r) dst src = none ∨ NoFrame (copyToUserPml4 vm r dst src).1) ∧
          ∃ A, Acts roots kern r vm.mem (copyToUserPml4 vm r dst src).1.mem A) := by
  unfold copyToUserPml4
  by_cases hs : src = []
  · rw [if_pos hs]
    exact ⟨h, fun _ => ⟨_, by rw [hs]; rfl, Same.refl.acts hr⟩, nofun⟩
  · rw [if_neg hs, if_neg ((h.pt.root_owned hr).ne_zero h.pt.ok)]
    exact VmInv.copyToUserFrom_spec hr src dst (2 ^ 64 - 1) 0 vm h fun hne => absurd rfl hne

/-! ## Loops over pages -/

/-- `g` applied to `k` pages from `n₀` on. -/
def mapPages (A : TaskMem) (n₀ k : Nat) (g : UserPage → Option UserPage) : TaskMem :=
  fun n => if n₀ ≤ n ∧ n < n₀ + k then (A n).bind g else A n

theorem mapPages_succ (A : TaskMem) (n₀ k : Nat) (g : UserPage → Option UserPage) {pg : UserPage}
    (h : mapPages A n₀ k g (n₀ + k) = some pg) :
    Function.update (mapPages A n₀ k g) (n₀ + k) (g pg) = mapPages A n₀ (k + 1) g := by
  have hA : A (n₀ + k) = some pg := by
    rw [mapPages, if_neg (by omega)] at h
    exact h
  funext n
  by_cases hn : n = n₀ + k
  · subst hn
    rw [Function.update_self, mapPages, if_pos (by omega), hA, Option.bind_some]
  · rw [Function.update_of_ne hn, mapPages, mapPages]
    by_cases hx : n₀ ≤ n ∧ n < n₀ + k
    · rw [if_pos hx, if_pos (by omega)]
    · rw [if_neg hx, if_neg (by omega)]

/-- `f` applies `g` to one page of task `r`. -/
def PageOk (roots kern : Finset Nat) (r : Nat) (f : Vm → Nat → Vm × Bool)
    (g : UserPage → Option UserPage) : Prop :=
  ∀ vm virt, VmInv vm roots kern → f vm virt = (vm, false) ∨
    ∃ vm' pg, f vm virt = (vm', true) ∧ vpn virt < userPages ∧ VmInv vm' roots kern ∧
      taskMem vm.mem r (vpn virt) = some pg ∧
      Acts roots kern r vm.mem vm'.mem (Function.update (taskMem vm.mem r) (vpn virt) (g pg))

theorem vpn_add {va i : Nat} (hv : vpn va < userPages) (hi : i ≤ userMmapPages) :
    vpn (va + i * pageSize) = vpn va + i := by
  unfold userMmapPages at hi
  unfold vpn userPages at *
  simp only [pageSize]
  omega

theorem pageLoop_spec {f : Vm → Nat → Vm × Bool} {g : UserPage → Option UserPage}
    (hf : PageOk roots kern r f g) (h : VmInv vm roots kern) (hr : r ∈ roots) {va k : Nat}
    (hv : vpn va < userPages) (hk : k ≤ userMmapPages) :
    VmInv (loopTo (fun i vm => f vm (va + i * pageSize)) k vm).1 roots kern ∧
      ((loopTo (fun i vm => f vm (va + i * pageSize)) k vm).2 = true →
        Acts roots kern r vm.mem (loopTo (fun i vm => f vm (va + i * pageSize)) k vm).1.mem
          (mapPages (taskMem vm.mem r) (vpn va) k g)) ∧
      ∃ A, Acts roots kern r vm.mem (loopTo (fun i vm => f vm (va + i * pageSize)) k vm).1.mem A := by
  have hloop := loopTo_inv (f := fun i vm => f vm (va + i * pageSize)) (n := k) (s := vm)
    (fun i s => VmInv s roots kern ∧ Acts roots kern r vm.mem s.mem
      (mapPages (taskMem vm.mem r) (vpn va) i g))
    (fun s => VmInv s roots kern ∧ ∃ A, Acts roots kern r vm.mem s.mem A)
    ⟨h, by
      rw [show mapPages (taskMem vm.mem r) (vpn va) 0 g = taskMem vm.mem r from
        funext fun n => by rw [mapPages, if_neg (by omega)]]
      exact Same.refl.acts hr⟩ ?_
  · generalize loopTo (fun i vm => f vm (va + i * pageSize)) k vm = res at *
    obtain ⟨vm', b⟩ := res
    cases b with
    | true =>
      obtain ⟨a1, a2⟩ := hloop.1 rfl
      exact ⟨a1, fun _ => a2, _, a2⟩
    | false =>
      obtain ⟨a1, a2⟩ := hloop.2 rfl
      exact ⟨a1, nofun, a2⟩
  · rintro i s hi ⟨hI, hA⟩
    rcases hf s (va + i * pageSize) hI with e | ⟨s', pg, e, -, b2, b3, b4⟩
    · rw [e]
      exact ⟨nofun, fun _ => ⟨hI, _, hA⟩⟩
    · rw [e]
      refine ⟨fun _ => ⟨b2, ?_⟩, nofun⟩
      rw [vpn_add hv (by omega), hA.self] at b3 b4
      rw [← mapPages_succ _ _ _ _ b3]
      exact hA.trans b4

theorem VmInv.protect_pageOk (hr : r ∈ roots) (wr : Bool) :
    PageOk roots kern r (fun vm virt => vmmProtectUser vm r virt wr) fun pg =>
    some { pg with writable := wr } := by
  intro vm virt h
  rcases h.vmmProtectUser_spec hr virt wr with ⟨a1, -⟩ | ⟨vm', a1, hv, a3, l, a4, a5⟩
  · exact Or.inl a1
  · refine Or.inr ⟨vm', pageOf vm.mem l, a1, hv, a3, ?_, a5.acts hr hv⟩
    rw [taskMem_at _ _ hv, absMem_eq, a4, Option.map_some]

theorem VmInv.unmap_pageOk (hr : r ∈ roots) :
    PageOk roots kern r (fun vm virt => vmmUnmapUser vm r virt) fun _ => none := by
  intro vm virt h
  rcases h.vmmUnmapUser_spec hr virt with ⟨a1, -⟩ | ⟨vm', a1, -, hv, a3, a4, a5⟩
  · exact Or.inl a1
  · cases hl : view vm.mem r (vpn virt) with
    | none => exact absurd hl a4
    | some l =>
      refine Or.inr ⟨vm', pageOf vm.mem l, a1, hv, a3, ?_, a5.acts hr hv⟩
      rw [taskMem_at _ _ hv, absMem_eq, hl, Option.map_some]

theorem userPagesOf_some {va len k : Nat} (h : userPagesOf va len = some k) : 0 < k ∧ k ≤ userMmapPages := by
  unfold userPagesOf at h
  split at h
  · cases h
  · split at h
    · cases h
    · simp only at h
      split at h
      · cases h
      · rename_i hk
        split at h
        · cases h
        · cases h
          exact ⟨Nat.pos_of_ne_zero fun h0 => hk (Or.inl h0), Nat.not_lt.1 fun hlt => hk (Or.inr hlt)⟩

theorem all_translate {cr3 va k : Nat} {p : Nat → Bool} (h : VmInv vm roots kern) (hr : cr3 ∈ roots)
    (hk : 0 < k) (hall : (List.range k).all p = true)
    (hp : ∀ i, p i = true → (vmmTranslateUser vm cr3 (va + i * pageSize)).isSome) :
    vpn va < userPages := by
  have h0 := hp 0 (List.all_eq_true.1 hall 0 (List.mem_range.2 hk))
  rw [Nat.zero_mul, Nat.add_zero] at h0
  obtain ⟨phys, h1⟩ := Option.isSome_iff_exists.1 h0
  exact (h.vmmTranslateUser_some hr h1).1

/-- **`user_mprotect`** on private memory: the pages keep their bytes. -/
theorem VmInv.userMprotect_spec (h : VmInv vm roots kern) (hr : r ∈ roots) (va len prot : Nat) :
    VmInv (userMprotect vm r va len prot).1 roots kern ∧
      ((userMprotect vm r va len prot).2 = true → ∃ k wr, userPagesOf va len = some k ∧
      protWr prot = some wr ∧
        Acts roots kern r vm.mem (userMprotect vm r va len prot).1.mem
          (mapPages (taskMem vm.mem r) (vpn va) k fun pg => some { pg with writable := wr })) ∧
      ∃ A, Acts roots kern r vm.mem (userMprotect vm r va len prot).1.mem A := by
  have hnone : VmInv vm roots kern ∧ ∃ A, Acts roots kern r vm.mem vm.mem A := ⟨h, _, Same.refl.acts hr⟩
  unfold userMprotect
  split
  · exact ⟨hnone.1, nofun, hnone.2⟩
  · split
    · rename_i k wr hk hwr
      obtain ⟨k1, k2⟩ := userPagesOf_some hk
      split
      · rename_i hall
        have hv := all_translate h hr k1 hall fun i hi => hi
        obtain ⟨a1, a2, a3⟩ := pageLoop_spec (VmInv.protect_pageOk hr wr) h hr hv k2
        exact ⟨a1, fun hb => ⟨k, wr, hk, hwr, a2 hb⟩, a3⟩
      · exact ⟨hnone.1, nofun, hnone.2⟩
    · exact ⟨hnone.1, nofun, hnone.2⟩

/-- **`user_munmap`** on private memory: the pages are gone. -/
theorem VmInv.userMunmap_spec (h : VmInv vm roots kern) (hr : r ∈ roots) (base va len : Nat) :
    VmInv (userMunmap vm r base va len).1 roots kern ∧
      ((userMunmap vm r base va len).2 = true → ∃ k, userPagesOf va len = some k ∧
        Acts roots kern r vm.mem (userMunmap vm r base va len).1.mem
          (mapPages (taskMem vm.mem r) (vpn va) k fun _ => none)) ∧
      ∃ A, Acts roots kern r vm.mem (userMunmap vm r base va len).1.mem A := by
  have hnone : VmInv vm roots kern ∧ ∃ A, Acts roots kern r vm.mem vm.mem A := ⟨h, _, Same.refl.acts hr⟩
  unfold userMunmap
  split
  · exact ⟨hnone.1, nofun, hnone.2⟩
  · split
    · exact ⟨hnone.1, nofun, hnone.2⟩
    · rename_i k hk
      obtain ⟨k1, k2⟩ := userPagesOf_some hk
      split
      · rename_i hall
        have hv := all_translate h hr k1 hall fun i hi => (Bool.and_eq_true _ _ ▸ hi : _ ∧ _).2
        obtain ⟨a1, a2, a3⟩ := pageLoop_spec (VmInv.unmap_pageOk hr) h hr hv k2
        exact ⟨a1, fun hb => ⟨k, hk, a2 hb⟩, a3⟩
      · exact ⟨hnone.1, nofun, hnone.2⟩

end

end VampireOS
