import VampireOS.Memory.Image
import VampireOS.Sched.Argv

/-!
# exec, page by page (user.c:396-489, 1584-1610, sched.c:315-326, 1630-1636)

`Desk` is the kernel with the names of its tasks. Here the new image is built as `replace_load_elf`
builds it, in pages that the allocator gives before the old image is dropped.

| here | there |
| --- | --- |
| `copyName`, `schedRenameCurrent` | `copy_name`, `sched_rename_current` |
| `findImage` | `user_exec_current` up to `leave_task_cwd`: the file and its checks |
| `userExecCurrent`, `sysExec` | `user_exec_current`, `SYS_EXEC` in `user_on_syscall` |
-/

namespace VampireOS

open Lib

/-- `TASK_NAME_MAX`. -/
def taskNameMax : Nat := 8

def copyName (src : Name) : Name := src.take taskNameMax

structure Desk where
  kernel : Kernel Space
  names : Nat → Name

/-- What `user_exec_current` finds under a name; `none` is -1. -/
def findImage (r : Option (Bytes × Nat)) : Elf.Parse (List UInt8) :=
  match r with
  | none => .refused
  | some (data, len) =>
    let file := (List.range len).map data
    match Elf.elfImageBase file with
    | .fault => .fault
    | .refused => .refused
    | .ok base => if base ≠ userBase then .refused else if len = 0 ∨ len > fileMax then .refused else .ok file

namespace Desk

def schedRenameCurrent (s : Desk) (name : Name) : Desk :=
  if s.kernel.taskCount = 0 then s
  else { s with names := Function.update s.names s.kernel.current (copyName name) }

/-- The memory of `s` is `m`. -/
def withMem (s : Desk) (m : Space) : Desk := { s with kernel := { s.kernel with mem := m } }

/-- The outcome is `none` for a fault. -/
def userExecCurrent (s : Desk) (name : Name) : Desk × Option Kernel.ExecRes :=
  let cr3 := s.kernel.currentCr3
  if name = [] ∨ cr3 = 0 ∨ cr3 = pml4Phys then (s, some .kept)
  else
    let m := s.kernel.inCwd (Kernel.lookupRootElf name)
    let found := findImage (s.kernel.fsAsk m)
    let s : Desk := { s with kernel := s.kernel.fsDo m }
    match found with
    | .fault => (s, none)
    | .refused => (s, some .kept)
    | .ok file =>
      match s.kernel.mem.replaceLoadElf file userBase cr3 with
      | (mem, .fault) => (s.withMem mem, none)
      | (mem, .refused) => (s.withMem mem, some .kept)
      | (mem, .gone) => (s.withMem mem, some .gone)
      | (mem, .done entry top) =>
        match mem.userPushArgv cr3 top [some (cstr name)] with
        | (mem, none) => (s.withMem { mem with vm := vmmTeardownUser mem.vm cr3 }, some .gone)
        | (mem, some sp) =>
          let s := s.withMem mem
          let s : Desk := { s with
            kernel := s.kernel.schedResetCurrent (UInt64.ofNat entry) (UInt64.ofNat sp) userBase }
          (s.schedRenameCurrent name, some .done)

/-- A fault stops the machine. -/
def sysExec (s : Desk) : Desk :=
  match s.kernel.copyFromUser s.kernel.frame.rdi.toNat userStrMax with
  | none => { s with kernel := s.kernel.setRax Kernel.minusOne }
  | some name =>
    if name = [] ∨ name.length ≥ fdPathMax then { s with kernel := s.kernel.setRax Kernel.minusOne }
    else
      match userExecCurrent { s with kernel := s.kernel.setCr3 pml4Phys } name with
      | (s, none) => { s with kernel := { s.kernel with mode := .stop } }
      | (s, some .done) => s
      | (s, some .kept) => { s with kernel := (s.kernel.setRax Kernel.minusOne).restoreCr3 }
      | (s, some .gone) => { s with
          kernel := Kernel.schedExit { s.kernel with frame := { s.kernel.frame with rdi := 0 } } }

/-- The call with the registers `f`. -/
def execCall (s : Desk) (f : Frame) (io : Io) : Desk := sysExec { s with kernel := s.kernel.enterCall f io }

end Desk

/-! ## The memory stays in order -/

namespace Space

variable {s s' s'' : Space}

theorem Sound.refl (h : s.Inv) : Sound s s := ⟨h, rfl, Finset.Subset.refl _⟩

theorem Sound.trans (h : Sound s s') (h' : Sound s' s'') : Sound s s'' :=
  ⟨h'.inv, h'.roots.trans h.roots, h.kern.trans h'.kern⟩

theorem copyTo_sound (h : s.Inv) (r dst : Nat) (bytes : List UInt8) :
    Sound s (s.step (.copyTo r dst bytes)).1 := by
  refine ⟨(step_ok h _).inv, ?_, ?_⟩ <;> rw [step, onTask] <;> split
  · rfl
  · rfl
  · exact Finset.Subset.refl _
  · exact Finset.Subset.refl _

theorem pushStrings_sound (r stackPage : Nat) (argv : List (Option (Nat → UInt8))) :
    ∀ (sp : Nat) {s : Space}, s.Inv →
    Sound s (pushStrings r stackPage argv sp s).1 := by
  induction argv with
  | nil => exact fun _ _ h => .refl h
  | cons str rest ih =>
    intro sp s h
    cases str with
    | none => exact .refl h
    | some str =>
      unfold pushStrings
      dsimp only
      split
      · exact .refl h
      · split
        · exact .refl h
        · have hcopy := copyTo_sound h r (sp - (argLen str fdPathMax 0 + 1))
            ((List.range (argLen str fdPathMax 0 + 1)).map str)
          generalize s.step _ = res at hcopy
          obtain ⟨s1, _ | n⟩ := res
          · exact hcopy
          · have hrest := hcopy.trans (ih (sp - (argLen str fdPathMax 0 + 1)) hcopy.inv)
            simp only
            generalize pushStrings r stackPage rest _ s1 = res at hrest
            obtain ⟨s2, _ | ⟨low, va⟩⟩ := res <;> exact hrest

theorem copyWords_sound (r : Nat) (vs : List Nat) :
    ∀ (a : Nat) {s : Space}, s.Inv → Sound s (copyWords r vs a s).1 := by
  induction vs with
  | nil => exact fun _ _ h => .refl h
  | cons v vs ih =>
    intro a s h
    unfold copyWords
    have hcopy := copyTo_sound h r a (Kernel.bytes64 (UInt64.ofNat v))
    generalize s.step _ = res at hcopy
    obtain ⟨s1, _ | n⟩ := res
    · exact hcopy
    · exact hcopy.trans (ih (a + 8) hcopy.inv)

theorem userPushArgv_sound (h : s.Inv) (r top : Nat) (argv : List (Option (Nat → UInt8))) :
    Sound s (s.userPushArgv r top argv).1 := by
  unfold userPushArgv
  split
  · exact .refl h
  · split
    · exact .refl h
    · dsimp only
      have hpush := pushStrings_sound r ((top + 2 ^ 64 - pageSize) % 2 ^ 64) argv top h
      generalize pushStrings r _ argv top s = res at hpush
      obtain ⟨s1, _ | ⟨sp, va⟩⟩ := res
      · exact hpush
      · dsimp only
        split
        · exact hpush
        · have hwords :=
            hpush.trans (copyWords_sound r (argv.length :: va ++ [0])
              (sp / 8 * 8 - (argv.length + 2) * 8) hpush.inv)
          generalize copyWords r _ _ s1 = res at hwords
          obtain ⟨s2, _ | _⟩ := res <;> exact hwords

theorem imageBase_userBase : ImageBase userBase := ⟨by decide, by decide, by decide, by decide⟩

end Space

namespace Desk

/-- The caller of `k` is back in ring 3 with the answer `v`. -/
structure Answered (k k' : Kernel Space) (v : UInt64) : Prop where
  mode : k'.mode = .user
  current : k'.current = k.current
  rax : k'.frame.rax = v

instance (k k' : Kernel Space) (v : UInt64) : Decidable (Answered k k' v) :=
  decidable_of_iff (k'.mode = .user ∧ k'.current = k.current ∧ k'.frame.rax = v)
    ⟨fun h => ⟨h.1, h.2.1, h.2.2⟩, fun h => ⟨h.mode, h.current, h.rax⟩⟩

/-- The running task has tables of its own, or only the kernel's. -/
structure InOrder (k : Kernel Space) : Prop where
  mem : k.mem.Inv
  slot : k.current < k.taskCount
  own : k.currentCr3 ≠ pml4Phys → k.currentCr3 ∈ k.mem.roots

/-- The old program goes on in `s'` with -1: its registers, everything the task table says of it,
its name, its mappings and their bytes; and the allocator has all its frames back. -/
structure Kept (s s' : Desk) (f : Frame) : Prop where
  frame : s'.kernel.frame = { f with rax := Kernel.minusOne }
  tasks : s'.kernel.tasks = s.kernel.tasks ∧ s'.kernel.taskCount = s.kernel.taskCount ∧
    s'.kernel.current = s.kernel.current
  pipes : s'.kernel.pipes = s.kernel.pipes
  names : s'.names = s.names
  views : ∀ n, n < userPages →
    view s'.kernel.mem.vm.mem s.kernel.currentCr3 n = view s.kernel.mem.vm.mem s.kernel.currentCr3 n
  bytes : s'.kernel.mem.mems s.kernel.currentCr3 = s.kernel.mem.mems s.kernel.currentCr3
  used : ∀ i, s'.kernel.mem.vm.pmm.used i = s.kernel.mem.vm.pmm.used i

/-- `s` with another file system and memory. -/
def loaded (s : Desk) (fs : Fs) (mem : Space) : Desk :=
  { s with kernel := { s.kernel with fs := fs, mem := mem } }

variable {s : Desk} {name : Name}

theorem schedRenameCurrent_kernel (s : Desk) (name : Name) :
    (s.schedRenameCurrent name).kernel = s.kernel := by
  unfold schedRenameCurrent
  split <;> rfl

theorem schedResetCurrent_rax (k : Kernel Space) (rip rsp : UInt64) (base : Nat) :
    (k.schedResetCurrent rip rsp base).frame.rax ∈ [0, k.frame.rax] := by
  unfold Kernel.schedResetCurrent
  dsimp only
  split
  · exact List.mem_cons_of_mem _ List.mem_cons_self
  · simp [Kernel.modTask, Frame.start]

theorem schedResetCurrent_mem (k : Kernel Space) (rip rsp : UInt64) (base : Nat) :
    (k.schedResetCurrent rip rsp base).mem = k.mem := by
  unfold Kernel.schedResetCurrent
  dsimp only
  split <;> rfl

/-- However exec ends, the memory is in order for the next call. -/
theorem userExecCurrent_inv (hi : s.kernel.mem.Inv)
    (hown : s.kernel.currentCr3 ≠ pml4Phys → s.kernel.currentCr3 ∈ s.kernel.mem.roots)
      (name : Name) : (s.userExecCurrent name).1.kernel.mem.Inv := by
  unfold userExecCurrent
  by_cases hc : name = [] ∨ s.kernel.currentCr3 = 0 ∨ s.kernel.currentCr3 = pml4Phys
  · simp only [if_pos hc]
    exact hi
  · have hr := hown fun h => hc (.inr (.inr h))
    simp only [if_neg hc]
    cases findImage _ with
    | fault => exact hi
    | refused => exact hi
    | ok file =>
      have hload := (Space.replaceLoadElf_spec hi file userBase s.kernel.currentCr3).1
        Space.imageBase_userBase hr
      simp only
      generalize he : ({ s with kernel := s.kernel.fsDo _ } : Desk).kernel.mem.replaceLoadElf file
        userBase s.kernel.currentCr3 = res
      have he' : s.kernel.mem.replaceLoadElf file userBase s.kernel.currentCr3 = res := he
      rw [he'] at hload
      obtain ⟨mem, out⟩ := res
      cases out with
      | fault => exact hload.inv
      | refused => exact hload.inv
      | gone => exact hload.inv
      | done entry top =>
        have hpush := hload.trans (Space.userPushArgv_sound hload.inv s.kernel.currentCr3 top
          [some (cstr name)])
        simp only
        generalize mem.userPushArgv s.kernel.currentCr3 top [some (cstr name)] = res at hpush
        obtain ⟨mem', _ | sp⟩ := res
        · exact (Space.teardown_sound hpush.inv (by rw [hpush.roots]; exact hr)).1.inv
        · simp only [schedRenameCurrent_kernel, schedResetCurrent_mem]
          exact hpush.inv

/-- The task that ends is not the one that runs next. -/
theorem schedExit_away (k : Kernel Space) (hc : k.current < k.taskCount) :
    k.schedExit.mode ≠ .user ∨ k.schedExit.current ≠ k.current := by
  unfold Kernel.schedExit Kernel.runOrHalt
  have hcount : k.noteEnd.taskCount ≠ 0 := Nat.ne_of_gt (Nat.zero_lt_of_lt hc)
  simp only [if_pos hcount]
  set k1 := k.noteEnd.killTask k.noteEnd.current k.frame.rdi.toUInt8 with hk1
  have hdead : (k1.tasks k.current).state = .dead ∧ k1.current = k.current := by
    rw [hk1]
    unfold Kernel.killTask
    split
    · next h => exact ⟨h.resolve_left (Nat.not_le.2 hc), rfl⟩
    · have hrest := Kernel.clearFds_rest (k := k.noteEnd.freeTaskUser k.noteEnd.current) k.noteEnd.current
      refine ⟨?_, ?_⟩
      · rcases Kernel.finishTask_task ((k.noteEnd.freeTaskUser k.noteEnd.current).clearFds
          k.noteEnd.current) k.noteEnd.current k.frame.rdi.toUInt8 k.current
          with ⟨-, b, e⟩ | ⟨hn, -⟩ | ⟨hn, -⟩
        · rw [e]
          rfl
        · exact absurd rfl hn
        · exact absurd rfl hn
      · rw [Kernel.finishTask_current, hrest.2.1, (Kernel.freeTaskUser_rest k.noteEnd.current).2.2.1]
        rfl
  cases hp : Kernel.pickNext { k1 with mode := .idle } k1.current with
  | none => exact .inl (by simp [Kernel.setCr3])
  | some i =>
    refine .inr fun hi => ?_
    have hready := (Kernel.pickNext_some hp).2
    have hik : i = k.current := hi
    simp only [hik, hdead.1] at hready
    cases hready

/-- How `user_exec_current` ends. -/
theorem userExecCurrent_cases (hi : s.kernel.mem.Inv) :
    (∃ fs mem, s.userExecCurrent name = (s.loaded fs mem, some .kept) ∧
      (mem = s.kernel.mem ∨ s.kernel.currentCr3 ≠ pml4Phys ∧ Space.Borrowed s.kernel.mem mem ∅)) ∨
    (∃ fs mem, s.userExecCurrent name = (s.loaded fs mem, some .gone) ∨ s.userExecCurrent name =
    (s.loaded fs mem, none)) ∨
    ((s.userExecCurrent name).2 = some .done ∧ (s.userExecCurrent name).1.kernel.frame.rax ∈
    [0, s.kernel.frame.rax]) := by
  unfold userExecCurrent
  by_cases hc : name = [] ∨ s.kernel.currentCr3 = 0 ∨ s.kernel.currentCr3 = pml4Phys
  · simp only [if_pos hc]
    exact .inl ⟨s.kernel.fs, s.kernel.mem, rfl, .inl rfl⟩
  · have hboot : s.kernel.currentCr3 ≠ pml4Phys := fun h => hc (.inr (.inr h))
    simp only [if_neg hc]
    cases findImage _ with
    | fault => exact .inr (.inl ⟨_, s.kernel.mem, .inr rfl⟩)
    | refused => exact .inl ⟨_, s.kernel.mem, rfl, .inl rfl⟩
    | ok file =>
      have hspec := (Space.replaceLoadElf_spec hi file userBase s.kernel.currentCr3).2
      simp only
      generalize he : ({ s with kernel := s.kernel.fsDo _ } : Desk).kernel.mem.replaceLoadElf file
        userBase s.kernel.currentCr3 = res
      have he' : s.kernel.mem.replaceLoadElf file userBase s.kernel.currentCr3 = res := he
      rw [he'] at hspec
      obtain ⟨mem, out⟩ := res
      cases out with
      | fault => exact .inr (.inl ⟨_, mem, .inr rfl⟩)
      | refused => exact .inl ⟨_, mem, rfl, .inr ⟨hboot, hspec rfl⟩⟩
      | gone => exact .inr (.inl ⟨_, mem, .inl rfl⟩)
      | done entry top =>
        simp only
        rcases mem.userPushArgv s.kernel.currentCr3 top [some (cstr name)] with ⟨mem', _ | sp⟩
        · exact .inr (.inl ⟨_, _, .inl rfl⟩)
        · refine .inr (.inr ⟨rfl, ?_⟩)
          have hrax := fun k : Kernel Space => schedResetCurrent_rax k (UInt64.ofNat entry)
            (UInt64.ofNat sp) userBase
          simp only [schedRenameCurrent_kernel]
          exact hrax _

/-- A refusal before or after the load. -/
theorem Kept.of_mem (h : InOrder s.kernel) {s' : Desk} {f : Frame}
    (hf : s'.kernel.frame = { f with rax := Kernel.minusOne })
    (ht : s'.kernel.tasks = s.kernel.tasks ∧ s'.kernel.taskCount = s.kernel.taskCount ∧
      s'.kernel.current = s.kernel.current)
    (hp : s'.kernel.pipes = s.kernel.pipes) (hn : s'.names = s.names)
    (hm : s'.kernel.mem = s.kernel.mem ∨ s.kernel.currentCr3 ≠ pml4Phys ∧
      Space.Borrowed s.kernel.mem s'.kernel.mem ∅) :
    Kept s s' f := by
  rcases hm with e | ⟨hboot, b⟩
  · exact ⟨hf, ht, hp, hn, fun n _ => by rw [e], by rw [e], fun i => by rw [e]⟩
  · have hr := b.restored h.mem
    exact ⟨hf, ht, hp, hn, hr.views _ (h.own hboot), hr.mems _ (h.own hboot), hr.used⟩

/-- **A refused exec keeps the old program**, and takes no frame. -/
theorem refused_exec_keeps {s : Desk} (h : InOrder s.kernel) {f : Frame} (hf : f.rax = 10) (io : Io)
    (hno : Answered s.kernel (s.execCall f io).kernel Kernel.minusOne) : Kept s (s.execCall f io) f := by
  unfold execCall sysExec at hno ⊢
  set k := s.kernel.enterCall f io with hk
  have hframe : k.frame = f := rfl
  cases hc : k.copyFromUser k.frame.rdi.toNat userStrMax with
  | none => exact .of_mem h rfl ⟨rfl, rfl, rfl⟩ rfl rfl (.inl rfl)
  | some name =>
    simp only [hc] at hno ⊢
    by_cases hn : name = [] ∨ name.length ≥ fdPathMax
    · simp only [if_pos hn]
      exact .of_mem h rfl ⟨rfl, rfl, rfl⟩ rfl rfl (.inl rfl)
    · simp only [if_neg hn] at hno ⊢
      set s1 : Desk := { s with kernel := k.setCr3 pml4Phys } with hs1
      have hmem : s1.kernel.mem.Inv := h.mem
      rcases @userExecCurrent_cases s1 name hmem with ⟨fs, mem, e, hm⟩ | ⟨fs, mem, e | e⟩ | ⟨e, hrax⟩
      · simp only [e]
        exact .of_mem h rfl ⟨rfl, rfl, rfl⟩ rfl rfl hm
      · -- the program is gone, and another task runs
        simp only [e] at hno
        rcases schedExit_away { (s1.loaded fs mem).kernel
          with frame := { (s1.loaded fs mem).kernel.frame with rdi := 0 } } h.slot with
          hx | hx
        · exact absurd hno.mode hx
        · exact absurd hno.current hx
      · simp only [e] at hno
        cases hno.mode
      · -- the new program starts with 0 in RAX
        generalize s1.userExecCurrent name = res at e hrax hno
        obtain ⟨s2, o⟩ := res
        simp only at e
        subst e
        have hold : s1.kernel.frame.rax = 10 := hf
        have hans := hno.rax
        simp only [hold, List.mem_cons, List.not_mem_nil, or_false] at hrax
        rcases hrax with hr | hr <;> rw [hr] at hans <;> exact absurd hans (by decide)

/-- A volume with the program `A`. -/
def haltVolume : Fs :=
  { Kernel.smallVolume with
    disk := fun lba => if lba = 3 then
        ofList ([65] ++ List.replicate 10 0x20 ++ [0x20] ++ List.replicate 14 0 ++ [2, 0, 121, 0, 0, 0])
      else if lba = 4 then ofList Elf.haltImage else fun _ => 0
    files := [⟨[65], some (ofList Elf.haltImage), 121, 2, 0, false⟩] }

/-- Memory for two tasks and one frame more. -/
def oneFrame : Space := Space.bootSpace (pmmInit ⟨24, [⟨0x200000, 0xF000, 1⟩]⟩)

/-- Both tasks run `A`, whose name lies on their stacks. -/
def haltDesk (m : Space) : Desk := ⟨{ Kernel.twoTasks m with fs := haltVolume }, fun _ => [65]⟩

theorem InOrder.withFs {k : Kernel Space} (h : InOrder k) (fs : Fs) : InOrder { k with fs := fs } :=
  ⟨h.mem, h.slot, h.own⟩

theorem InOrder.of_reachable {m : Space} (hb : m.Boot) {k : Kernel Space} (h : Kernel.Reachable m k)
    (hc : k.current < k.taskCount) (ho : k.currentCr3 ∈ k.mem.roots) : InOrder k := by
  obtain ⟨ops, hops⟩ := h.mem
  refine ⟨?_, hc, fun _ => ho⟩
  rw [hops]
  exact Space.run_inv hb ops

theorem haltDesk_inOrder : InOrder (haltDesk oneFrame).kernel :=
  (InOrder.of_reachable (Space.bootSpace_boot (pmmInit_ok _)) (Kernel.twoTasks_reachable oneFrame)
    (by decide +kernel) (by decide +kernel)).withFs haltVolume

theorem haltDesk_answered : Answered (haltDesk oneFrame).kernel
    ((haltDesk oneFrame).execCall (Kernel.callFrame 10 0x401FFE 0) Kernel.smallIo).kernel
    Kernel.minusOne := by
  decide +kernel

/-- The stack page of the new image is one too many. -/
theorem refused_exec_keeps_oneFrame : Kept (haltDesk oneFrame)
    ((haltDesk oneFrame).execCall (Kernel.callFrame 10 0x401FFE 0) Kernel.smallIo)
    (Kernel.callFrame 10 0x401FFE 0) :=
  refused_exec_keeps haltDesk_inOrder rfl Kernel.smallIo haltDesk_answered

end Desk

end VampireOS
