import VampireOS.Sched.Exec

/-!
# Running a program, page by page (user.c:768-836)

| here | there |
| --- | --- |
| `findProgram` | the checks of `user_run_fds` on the file |
| `dropPml4` | `pmm_free(cr3)` alone |
| `schedSetName` | `sched_set_name` |
| `userRun` | `user_run`, that is `user_run_fds` without pipes |
| `Refused` | what `user_run` refuses before it takes a frame |
-/

namespace VampireOS

open Lib

/-- What `user_run_fds` finds under a name; `none` is -1. -/
def findProgram (r : Option (Bytes × Nat)) : Elf.Parse (List UInt8) :=
  match r with
  | none => .refused
  | some (data, len) =>
    let file := (List.range len).map data
    match Elf.elfImageBase file with
    | .fault => .fault
    | .refused => .refused
    | .ok base => if base ≠ userBase then .refused else .ok file

namespace Space

def dropPml4 (s : Space) (r : Nat) : Space :=
  ⟨{ s.vm with pmm := pmmFree s.vm.pmm r }, s.roots.erase r, s.kern⟩

end Space

namespace Desk

def schedSetName (s : Desk) (name : Name) : Desk :=
  match s.kernel.lastAdded with
  | none => s
  | some i => { s with names := Function.update s.names i (copyName name) }

/-- From the kernel stack on. The outcome is `none` for a fault. -/
def userStart (s : Desk) (file : List UInt8) (name arg : Name) : Desk × Option Bool :=
  match s.kernel.mem.allocPage with
  | (mem, none) => (s.withMem mem, some false)
  | (mem, some kstack) =>
    match mem.clonePml4 with
    | (mem, none) => (s.withMem mem, some false)
    | (mem, some cr3) =>
      match mem.mapLoadElf file userBase cr3 with
      | (mem, .fault) => (s.withMem mem, none)
      | (mem, .done entry top) =>
        match mem.userPushArgv cr3 top (some (cstr name) :: if arg = [] then [] else [some (cstr arg)]) with
        | (mem, none) => (s.withMem (mem.releasePml4 cr3), some false)
        | (mem, some sp) =>
          match (s.withMem mem).kernel.schedAddUser (UInt64.ofNat entry) (UInt64.ofNat sp)
            (Kernel.kstackTopOf kstack) userBase cr3 with
          | (k, false) => (withMem { s with kernel := k } (k.mem.releasePml4 cr3), some false)
          | (k, true) => (schedSetName { s with kernel := { k with fgSlot := k.lastAdded } } name, some true)
      | (mem, _) => (s.withMem (mem.dropPml4 cr3), some false)

def userRun (s : Desk) (ready : Bool) (name arg : Name) : Desk × Option Bool :=
  if ready = false ∨ name = [] then (s, some false)
  else
    let found := findProgram (s.kernel.fsAsk (Kernel.lookupRootElf name))
    let s : Desk := { s with kernel := s.kernel.fsDo (Kernel.lookupRootElf name) }
    match found with
    | .fault => (s, none)
    | .refused => (s, some false)
    | .ok file => s.userStart file name arg

/-- No frame is taken: the tables are not set up, there is no name, no program for `userBase` under
it, or no frame. -/
def Refused (s : Desk) (ready : Bool) (name : Name) : Prop :=
  ready = false ∨ name = [] ∨ findProgram (s.kernel.fsAsk (Kernel.lookupRootElf name)) = .refused ∨
    NoFrame s.kernel.mem.vm

/-- Nothing of the attempt is left: not in the task table, not in the frames. -/
structure Clean (s s' : Desk) : Prop where
  tasks : s'.kernel.tasks = s.kernel.tasks ∧ s'.kernel.taskCount = s.kernel.taskCount
  names : s'.names = s.names
  used : ∀ i, s'.kernel.mem.vm.pmm.used i = s.kernel.mem.vm.pmm.used i

end Desk

/-! ## The kernel stack -/

namespace Space

variable {s s' : Space} {f r : Nat}

theorem allocPage_none (h : s.Inv) : s.allocPage = (s, none) ↔ NoFrame s.vm := by
  rcases (Borrowed.refl h).allocPage with e | ⟨f, -, e, b⟩
  · refine ⟨fun _ => ?_, fun _ => e⟩
    have hnone : (pmmAllocFrom s.vm.pmm page2M).1 = 0 := by
      by_contra h0
      simp [allocPage, kernAlloc, h0] at e
    exact pmmAllocFrom_none h.pt.ok hnone
  · refine ⟨fun h0 => ?_, fun hno => ?_⟩
    · rw [h0] at e
      cases e
    · have hf : f ∈ insert f (∅ : Finset Nat) := Finset.mem_insert_self ..
      have hfresh := b.fresh f hf
      have hin : f ∈ s.allocPage.1.kern := by
        rw [b.kern]
        exact Finset.mem_union_right _ hf
      have hbelow := (b.inv.pt.kern f hin).below
      rw [b.frames] at hbelow
      rw [hno _ hbelow] at hfresh
      cases hfresh

/-- A frame of the kernel is used, also when the PML4 beside it is freed. -/
theorem dropPml4_used (h : s.Inv) (hr : r ∈ s.roots) (hf : f ∈ s.kern) :
    (s.dropPml4 r).vm.pmm.used (f / pageSize) = true := by
  have hown := h.pt.kern f hf
  have hroot := h.pt.root_owned hr
  have hne : f ≠ r := fun e => (h.pt.own r (isTable_root hr)).2 (e ▸ hf)
  have hgave := pmmFree_gave h.pt.ok hroot
  change (pmmFree s.vm.pmm r).used (f / pageSize) = true
  rw [hgave.used, if_neg (Pmm.div_ne hroot.page hown.page hne)]
  exact hown.taken

theorem releasePml4_used (h : s.Inv) (hr : r ∈ s.roots) (hf : f ∈ s.kern) :
    (s.releasePml4 r).vm.pmm.used (f / pageSize) = true :=
  ((release_spec h hr).1.pt.kern f hf).taken

end Space

namespace Desk

variable {s : Desk} {file : List UInt8} {name arg : Name}

theorem userStart_noFrame (h : s.kernel.mem.Inv) (hn : NoFrame s.kernel.mem.vm) :
    s.userStart file name arg = (s, some false) := by
  unfold userStart
  rw [(Space.allocPage_none h).2 hn]
  rfl

/-- The frame of the kernel stack stays taken at every exit with -1. -/
theorem userStart_leaks (h : s.kernel.mem.Inv) (hn : ¬NoFrame s.kernel.mem.vm)
    (hno : (s.userStart file name arg).2 = some false) :
    ∃ i, s.kernel.mem.vm.pmm.used i = false ∧
      (s.userStart file name arg).1.kernel.mem.vm.pmm.used i = true := by
  unfold userStart at hno ⊢
  rcases (Space.Borrowed.refl h).allocPage with e | ⟨f, -, e, b⟩
  · exact absurd ((Space.allocPage_none h).1 e) hn
  · have hf : f ∈ insert f (∅ : Finset Nat) := Finset.mem_insert_self ..
    have hfresh := b.fresh f hf
    refine ⟨f / pageSize, hfresh, ?_⟩
    have hk : f ∈ s.kernel.mem.allocPage.1.kern := by
      rw [b.kern]
      exact Finset.mem_union_right _ hf
    have hinv := b.inv
    generalize s.kernel.mem.allocPage = res at e hk hinv hno ⊢
    obtain ⟨m1, o⟩ := res
    simp only at e
    subst e
    simp only at hk hinv hno ⊢
    rcases Space.clonePml4_spec hinv with e | ⟨p, vm, e, -, hinv2, -, hempty⟩
    · rw [e]
      exact (hinv.pt.kern f hk).taken
    · rw [e] at hno ⊢
      simp only at hno ⊢
      have hp : p ∈ insert p m1.roots := Finset.mem_insert_self ..
      have hload := Space.mapLoadElf_sound (s := ⟨vm, insert p m1.roots, m1.kern⟩) hinv2
        Space.imageBase_userBase hp hempty file
      generalize Space.mapLoadElf _ file userBase p = res at hload hno ⊢
      obtain ⟨m3, out⟩ := res
      have hp3 : p ∈ m3.roots := by
        rw [hload.roots]
        exact hp
      have hk3 : f ∈ m3.kern := hload.kern hk
      cases out with
      | fault => cases hno
      | refused => exact Space.dropPml4_used hload.inv hp3 hk3
      | gone => exact Space.dropPml4_used hload.inv hp3 hk3
      | done entry top =>
        simp only at hno ⊢
        have hpush := Space.userPushArgv_sound hload.inv p top (some (cstr name) :: if arg = []
          then [] else [some (cstr arg)])
        generalize m3.userPushArgv p top _ = res at hpush hno ⊢
        obtain ⟨m4, _ | sp⟩ := res
        · exact Space.releasePml4_used hpush.inv (hpush.roots.symm ▸ hp3) (hpush.kern hk3)
        · have hp4 : p ∈ m4.roots := hpush.roots.symm ▸ hp3
          simp only at hno ⊢
          have hcases := Kernel.schedAddUser_cases (s.withMem m4).kernel (UInt64.ofNat entry)
            (UInt64.ofNat sp) (Kernel.kstackTopOf f) userBase p
          rcases hcases with e | ⟨i, -, -, e⟩
          · rw [e]
            exact Space.releasePml4_used hpush.inv hp4 (hpush.kern hk3)
          · rw [e] at hno
            cases hno

/-- **A failed run is clean exactly when it is refused before it takes a frame**: the kernel stack
is never given back. -/
theorem failed_run_clean_iff (h : s.kernel.mem.Inv) (ready : Bool) (name arg : Name)
    (hno : (s.userRun ready name arg).2 = some false) :
    Clean s (s.userRun ready name arg).1 ↔ Refused s ready name := by
  unfold Refused
  unfold userRun at hno ⊢
  by_cases hc : ready = false ∨ name = []
  · simp only [if_pos hc]
    exact ⟨fun _ => hc.imp_right .inl, fun _ => ⟨⟨rfl, rfl⟩, rfl, fun _ => rfl⟩⟩
  · simp only [if_neg hc] at hno ⊢
    obtain ⟨hready, hname⟩ := not_or.1 hc
    generalize findProgram (s.kernel.fsAsk (Kernel.lookupRootElf name)) = found at hno ⊢
    cases found with
    | fault => cases hno
    | refused => exact ⟨fun _ => .inr (.inr (.inl rfl)), fun _ => ⟨⟨rfl, rfl⟩, rfl, fun _ => rfl⟩⟩
    | ok file =>
      simp only at hno ⊢
      set s1 : Desk := { s with kernel := s.kernel.fsDo (Kernel.lookupRootElf name) } with hs1
      have h1 : s1.kernel.mem.Inv := h
      refine ⟨fun hclean => ?_, fun href => ?_⟩
      · by_contra hnot
        have hframe : ¬NoFrame s1.kernel.mem.vm := fun hn => hnot (.inr (.inr (.inr hn)))
        obtain ⟨i, h0, h2⟩ := userStart_leaks h1 hframe hno
        rw [hclean.used i] at h2
        have h0' : s.kernel.mem.vm.pmm.used i = false := h0
        rw [h0'] at h2
        cases h2
      · have hn : NoFrame s1.kernel.mem.vm := by
          rcases href with hr | hr | hr | hr
          · exact absurd hr hready
          · exact absurd hr hname
          · cases hr
          · exact hr
        rw [userStart_noFrame h1 hn]
        exact ⟨⟨rfl, rfl⟩, rfl, fun _ => rfl⟩

theorem haltDesk_run : ((haltDesk oneFrame).userRun true [65] []).2 = some false := by decide +kernel

/-- The kernel stack takes the last frame, and no PML4 can be made. -/
theorem failed_run_clean_iff_oneFrame :
    Clean (haltDesk oneFrame) ((haltDesk oneFrame).userRun true [65] []).1 ↔
    Refused (haltDesk oneFrame) true [65] :=
  failed_run_clean_iff haltDesk_inOrder.mem true [65] [] haltDesk_run

/-- Frame 526 was free, and is used behind the failed run. -/
theorem failed_run_leaks : ((haltDesk oneFrame).userRun true [65] []).2 = some false ∧
    ¬Clean (haltDesk oneFrame) ((haltDesk oneFrame).userRun true [65] []).1 := by
  refine ⟨by decide +kernel, fun h => ?_⟩
  have h526 := h.used 526
  have hfree : (haltDesk oneFrame).kernel.mem.vm.pmm.used 526 = false := by decide +kernel
  have htaken : ((haltDesk oneFrame).userRun true [65] []).1.kernel.mem.vm.pmm.used 526 = true := by
    decide +kernel
  rw [hfree, htaken] at h526
  cases h526

end Desk

end VampireOS
