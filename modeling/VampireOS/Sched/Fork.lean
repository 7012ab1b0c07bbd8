import VampireOS.Sched.Reach
import VampireOS.Memory.Undo

/-!
# The two sides of a fork (sched.c:638-703, user.c:1135-1174)

The parent of a fork is answered the child's slot, the child 0. The slot is the first reusable one, so
the answers differ unless that is slot 0. A fork that fails leaves no trace.
-/

namespace VampireOS

open Lib

namespace Kernel

variable {M : Type} [MemSys M] {k k' : Kernel M}

/-- Parent and child of a fork that started in `k` are told apart in `k'`: the parent goes on with
the child's slot, which is not 0, and the child is a new task that will go on with 0. -/
def ToldApart (k k' : Kernel M) : Prop :=
  ∃ i, i ≠ 0 ∧ k'.mode = .user ∧ k'.current = k.current ∧ k'.frame = { k.frame with rax := UInt64.ofNat i } ∧
    i < k'.taskCount ∧ (k'.tasks i).state = .ready ∧ (k'.tasks i).parent = some k.current ∧
    k'.hist.uid i = k.hist.born ∧ (k'.tasks i).regs = { k.frame with rax := 0 }

/-! ## Descriptors -/

/-- Only descriptors and pipes are different, and tasks that waited for a pipe may be awake. -/
structure FdWork (k k' : Kernel M) : Prop where
  count : k'.taskCount = k.taskCount
  current : k'.current = k.current
  mode : k'.mode = k.mode
  frame : k'.frame = k.frame
  hist : k'.hist = k.hist
  regs : ∀ n, (k'.tasks n).regs = (k.tasks n).regs
  parent : ∀ n, (k'.tasks n).parent = (k.tasks n).parent
  ready : ∀ n, (k.tasks n).state = .ready → (k'.tasks n).state = .ready

omit [MemSys M] in
theorem FdWork.refl : FdWork k k := ⟨rfl, rfl, rfl, rfl, rfl, fun _ => rfl, fun _ => rfl, fun _ h => h⟩

omit [MemSys M] in
theorem FdWork.trans {k'' : Kernel M} (h : FdWork k k') (h' : FdWork k' k'') : FdWork k k'' where
  count := h'.count.trans h.count
  current := h'.current.trans h.current
  mode := h'.mode.trans h.mode
  frame := h'.frame.trans h.frame
  hist := h'.hist.trans h.hist
  regs n := (h'.regs n).trans (h.regs n)
  parent n := (h'.parent n).trans (h.parent n)
  ready n hn := h'.ready n (h.ready n hn)

omit [MemSys M] in
theorem FdWork.forTo {f : Nat → Kernel M → Kernel M} (h : ∀ j k, FdWork k (f j k)) (n : Nat) (k : Kernel M) :
    FdWork k (forTo f n k) := by
  induction n with
  | zero => exact .refl
  | succ n ih => exact ih.trans (h n _)

omit [MemSys M] in
theorem FdWork.setFd (i j : Nat) (e : FdEntry) : FdWork k (k.setFd i j e) := by
  refine ⟨rfl, rfl, rfl, rfl, rfl, fun n => ?_, fun n => ?_, fun n hn => ?_⟩ <;> rw [setFd_tasks]
  · by_cases h : n = i <;> simp [h]
  · by_cases h : n = i <;> simp [h]
  · by_cases h : n = i
    · simpa [h] using h ▸ hn
    · simpa [h] using hn

theorem freePipe_frame (k : Kernel M) (p : Nat) : (k.freePipe p).frame = k.frame := by
  unfold freePipe
  split <;> rfl

theorem dropFd_frame (k : Kernel M) (i j : Nat) : (k.dropFd i j).frame = k.frame := by
  rcases dropFd_cases k i j with ⟨-, e⟩ | ⟨-, -, e⟩ | ⟨p, -, -, -, e⟩ <;> rw [e]
  · rfl
  · change ((k.dropEnd _ p).frame) = k.frame
    unfold dropEnd
    simp only
    split
    · rw [freePipe_frame]; rfl
    · rfl

theorem FdWork.dropFd (i j : Nat) : FdWork k (k.dropFd i j) := by
  have htask : ∀ n, ((k.dropFd i j).tasks n).regs = (k.tasks n).regs ∧
      ((k.dropFd i j).tasks n).parent = (k.tasks n).parent ∧
      ((k.tasks n).state = .ready → ((k.dropFd i j).tasks n).state = .ready) := by
    intro n
    obtain ⟨t, ht, e⟩ := dropFd_task k i j n
    have hready : (k.tasks n).state = .ready → t.state = .ready := fun hn => by
      rcases ht.state with h | h
      · exact h.trans hn
      · exact h.2
    rw [e]
    split <;> exact ⟨ht.sameRegs, ht.parent, hready⟩
  exact ⟨dropFd_taskCount k i j, dropFd_current k i j, dropFd_mode k i j, dropFd_frame k i j,
    dropFd_hist k i j, fun n => (htask n).1, fun n => (htask n).2.1, fun n => (htask n).2.2⟩

omit [MemSys M] in
theorem FdWork.linkFd (i j : Nat) (e : FdEntry) : FdWork k (k.linkFd i j e).1 := by
  unfold Kernel.linkFd
  split
  · exact .setFd i j e
  · cases k.pipeOf e with
    | none => exact .setFd i j _
    | some p => exact (FdWork.setFd i j e).trans ⟨rfl, rfl, rfl, rfl, rfl, fun _ => rfl,
        fun _ => rfl, fun _ h => h⟩

theorem FdWork.clearFds (i : Nat) : FdWork k (k.clearFds i) := .forTo (fun j _ => .dropFd i j) _ _

omit [MemSys M] in
theorem FdWork.inheritFds (dst src : Nat) : FdWork k (k.inheritFds dst src) :=
  .forTo (fun j _ => .linkFd dst j _) _ _

/-! ## The call -/

/-- What a successful `sched_fork` leaves. -/
structure Forked (k k' : Kernel M) (i : Nat) : Prop where
  mode : k'.mode = k.mode
  current : k'.current = k.current
  frame : k'.frame = k.frame
  slot : i < k'.taskCount
  state : (k'.tasks i).state = .ready
  parent : (k'.tasks i).parent = some k.current
  regs : (k'.tasks i).regs = { k.frame with rax := 0 }
  uid : k'.hist.uid i = k.hist.born

theorem schedFork_forked (hs : Shape k) (hm : k.mode = .user) {kstackTop cr3 i : Nat}
    (h : (k.schedFork kstackTop cr3).2 = some i) :
    k.freeSlot = some i ∧ Forked k (k.schedFork kstackTop cr3).1 i := by
  rcases schedFork_cases hs kstackTop cr3 with e | ⟨i', hi, -, e⟩ <;> rw [e] at h ⊢ <;> cases h
  have hk := takeSlot_taken hs hi
  have hcur : (k.takeSlot i).current = k.current := hk.current (by have := (hs.run hm).1; omega)
  have hw : FdWork ((k.takeSlot i).spawnTask i (some k.current) (k.childTask kstackTop cr3)) _ :=
    (FdWork.clearFds i).trans (.inheritFds i k.current)
  refine ⟨hi, hw.mode.trans hk.mode, hw.current.trans hcur, hw.frame.trans hk.frame, ?_,
    hw.ready i ?_, ?_, ?_, ?_⟩
  · rw [hw.count]
    exact hk.slot
  · simp [spawnTask]
  · rw [hw.parent]
    simp [spawnTask]
  · rw [hw.regs]
    simp [spawnTask, childTask]
  · rw [hw.hist]
    change Function.update (k.takeSlot i).hist.uid i (k.takeSlot i).hist.born i = _
    rw [Function.update_self, hk.hist]

theorem userFork_forked (hs : Shape k) (hm : k.mode = .user) {i : Nat} (h : k.userFork.2 = some i) :
    k.freeSlot = some i ∧ Forked k k.userFork.1 i := by
  unfold userFork at h ⊢
  split at h
  · cases h
  · rename_i hc
    rw [if_neg hc]
    cases hf : k.memAsk (.kalloc page2M) with
    | none => rw [hf] at h; cases h
    | some f =>
      rw [hf] at h
      simp only at h ⊢
      set k1 := k.memDo (.kalloc page2M)
      have hs1 : Shape (k1.memDo (.fork k1.currentCr3)) := hs.same rfl rfl rfl rfl rfl
      cases hcl : k1.memAsk (.fork k1.currentCr3) with
      | none => rw [hcl] at h; cases h
      | some cr3 =>
        rw [hcl] at h
        simp only at h ⊢
        have hfork := @schedFork_forked M _ (k1.memDo (.fork k1.currentCr3)) hs1 hm (kstackTopOf f) cr3
        rcases hx : (k1.memDo (.fork k1.currentCr3)).schedFork (kstackTopOf f) cr3 with ⟨k2, _ | j⟩
        · rw [hx] at h; cases h
        · rw [hx] at h hfork
          cases h
          obtain ⟨h1, h2⟩ := hfork rfl
          exact ⟨h1, h2.mode, h2.current, h2.frame, h2.slot, h2.state, h2.parent, h2.regs, h2.uid⟩

omit [MemSys M] in
/-- The first slot is taken when it is reusable. -/
theorem freeSlot_zero (hc : 0 < k.taskCount) (h : slotReusable (k.tasks 0) = true) : k.freeSlot = some 0 := by
  obtain ⟨n, hn⟩ : ∃ n, k.taskCount = n + 1 := ⟨k.taskCount - 1, by omega⟩
  unfold freeSlot
  rw [hn, List.range_succ_eq_map, List.find?_cons_of_pos (p := fun i => slotReusable (k.tasks i)) h]

theorem ofNat64_inj {i j : Nat} (hi : i < 2 ^ 64) (hj : j < 2 ^ 64)
    (h : UInt64.ofNat i = UInt64.ofNat j) : i = j := by
  have := congrArg UInt64.toNat h
  rwa [UInt64.toNat_ofNat', UInt64.toNat_ofNat', Nat.mod_eq_of_lt hi, Nat.mod_eq_of_lt hj] at this

/-- **Fork tells parent and child apart** unless slot 0 is free to be reused: then the parent is
answered 0, like the child. -/
theorem fork_told_apart {m : M} (h : Reachable m k) (hm : k.mode = .user) {f : Frame}
    (hf : f.rax = 13) (io : Io) (hok : ((k.lateCall f io).userFork).2.isSome = true) :
    ToldApart (k.enterCall f io) ((k.enterCall f io).userOnSyscall io) ↔ slotReusable (k.tasks 0) =
    false := by
  obtain ⟨i, hi⟩ := Option.isSome_iff_exists.1 hok
  set k1 := k.enterCall f io with hk1
  have hs : Shape (k1.setCr3 pml4Phys) := h.shape.same rfl rfl rfl rfl rfl
  obtain ⟨hfree, hfork⟩ := userFork_forked hs hm hi
  have hcount : 0 < k.taskCount := by
    have := (h.shape.run hm).1
    omega
  have hcall : k1.userOnSyscall io = (((k1.setCr3 pml4Phys).userFork).1.setAnswer (some i)).restoreCr3 := by
    have hrax : k1.frame.rax.toNat = 13 := by rw [hk1]; exact congrArg UInt64.toNat hf
    simp only [userOnSyscall, lateSyscall, setCr3, hrax]
    rw [← hi]
    rfl
  have hshape : Shape ((k1.setCr3 pml4Phys).userFork).1 :=
    (userFork_reaches (A := (· = .late)) (r := ⟨none, none, ∅⟩) (k := k1.setCr3 pml4Phys) hm).shape hs
  have hsmall : ∀ j, j < ((k1.setCr3 pml4Phys).userFork).1.taskCount → j < 2 ^ 64 := fun j hj =>
    (lt_of_lt_of_le hj hshape.count).trans_le (by decide)
  rw [hcall]
  constructor
  · rintro ⟨j, hj, -, -, hframe, hlt, -⟩
    by_contra hr
    have hzero : k.freeSlot = some 0 := freeSlot_zero hcount (by simpa using hr)
    obtain rfl : 0 = i := Option.some.inj (hzero.symm.trans hfree)
    have hrax : UInt64.ofNat 0 = UInt64.ofNat j := congrArg Frame.rax hframe
    exact hj (ofNat64_inj (hsmall j hlt) (by decide) hrax.symm)
  · intro hr
    refine ⟨i, ?_, hfork.mode.trans hm, hfork.current, ?_, hfork.slot, hfork.state, hfork.parent,
      hfork.uid, hfork.regs⟩
    · rintro rfl
      rcases freeSlot_some hfree with ⟨-, h0⟩ | ⟨h0, -⟩
      · rw [show slotReusable ((k1.setCr3 pml4Phys).tasks 0) = slotReusable (k.tasks 0) from rfl, hr] at h0
        cases h0
      · exact absurd h0 (ne_of_lt hcount)
    · change { ((k1.setCr3 pml4Phys).userFork).1.frame with rax := UInt64.ofNat i } = _
      rw [hfork.frame]
      rfl

/-- The first fork after boot. -/
theorem fork_told_apart_twoTasks :
    ToldApart ((twoTasks (M := Plenty) ⟨0⟩).enterCall (callFrame 13 0 0) smallIo)
      (((twoTasks (M := Plenty) ⟨0⟩).enterCall (callFrame 13 0 0) smallIo).userOnSyscall smallIo) ↔
    slotReusable ((twoTasks (M := Plenty) ⟨0⟩).tasks 0) = false :=
  fork_told_apart (twoTasks_reachable _) (by decide +kernel) rfl smallIo (by decide +kernel)

/-- The task after `init`, which has exited. -/
def orphanedByInit : Kernel Plenty := (twoTasks ⟨0⟩).run [callOf 2 0 0]

theorem orphanedByInit_reachable : Reachable ⟨0⟩ orphanedByInit := (twoTasks_reachable _).run _

/-- It forks: parent and child are both answered 0. -/
theorem fork_not_told_apart : Reachable ⟨0⟩ orphanedByInit ∧ orphanedByInit.mode = .user ∧
    ((orphanedByInit.lateCall (callFrame 13 0 0) smallIo).userFork).2.isSome = true ∧
    ¬ ToldApart (orphanedByInit.enterCall (callFrame 13 0 0) smallIo)
      ((orphanedByInit.enterCall (callFrame 13 0 0) smallIo).userOnSyscall smallIo) := by
  refine ⟨orphanedByInit_reachable, by decide +kernel, by decide +kernel, ?_⟩
  rintro ⟨i, hi, -, -, hframe, hlt, -⟩
  set k' := (orphanedByInit.enterCall (callFrame 13 0 0) smallIo).userOnSyscall smallIo with hk'
  have hcount : k'.taskCount = 2 := by decide +kernel
  have hzero : k'.frame.rax = 0 := by decide +kernel
  obtain rfl : i = 1 := by omega
  rw [hframe] at hzero
  exact absurd hzero (by decide)

/-! ## A fork that fails -/

section
variable {m : Space} {k k' : Kernel Space}

/-- From `k` to `k'` nothing has happened that a task could notice later. -/
structure NoTrace (k k' : Kernel Space) : Prop where
  tasks : k'.tasks = k.tasks ∧ k'.taskCount = k.taskCount ∧ k'.current = k.current
  pipes : k'.pipes = k.pipes
  /-- The bytes and the intended protection of every page. -/
  mems : ∀ r, r = (k.tasks k.current).cr3 ∨ r ∈ k.mem.roots → k'.mem.mems r = k.mem.mems r
  used : k'.mem.vm.pmm.frameCount = k.mem.vm.pmm.frameCount ∧
    ∀ f, f < k.mem.vm.pmm.frameCount → k'.mem.vm.pmm.used f = k.mem.vm.pmm.used f
  /-- What the task could have stored before, it can store now, unless the frames run out on the way. -/
  stores : ∀ r ws, Space.Stores r k.mem ws → Space.Stores r k'.mem ws ∨
    ∃ done, done <+: ws ∧ NoFrame (k'.mem.run (done.map fun w => .store r w.1 w.2)).vm

theorem NoTrace.refl : NoTrace k k :=
  ⟨⟨rfl, rfl, rfl⟩, rfl, fun _ _ => rfl, ⟨rfl, fun _ _ => rfl⟩, fun _ _ => .inl⟩

theorem NoTrace.of_undone (ht : k'.tasks = k.tasks ∧ k'.taskCount = k.taskCount ∧ k'.current = k.current)
    (hp : k'.pipes = k.pipes) (hi : k.mem.Inv) (hi' : k'.mem.Inv) (hu : Space.Undone k.mem k'.mem)
    (hoff : (k.tasks k.current).cr3 ∉ k.mem.roots → k'.mem.vm.mem = k.mem.vm.mem) : NoTrace k k' := by
  refine ⟨ht, hp, fun r hr => ?_, ⟨hu.frames, fun f hf => hu.used hi hi' hf⟩, fun r ws hs => ?_⟩
  · by_cases hroot : r ∈ k.mem.roots
    · exact hu.mems r hroot
    · obtain rfl := hr.resolve_right hroot
      unfold Space.mems
      rw [hoff hroot]
  · cases ws with
    | nil => exact .inl trivial
    | cons w ws =>
      -- a store on no task's PML4 is refused
      have hroot : r ∈ k.mem.roots := by
        by_contra hr
        have h1 := hs.1
        rw [Space.step, Space.onTask, if_neg hr] at h1
        cases h1
      exact Space.stores_again hi hi' hroot (by rw [hu.roots]; exact hroot) (hu.mems r hroot) hs

theorem memDo_space (k : Kernel Space) (op : SpaceOp) : (k.memDo op).mem = (k.mem.step op).1 := rfl

theorem schedFork_none {k : Kernel Space} {kstackTop cr3 : Nat} (h : (k.schedFork kstackTop cr3).2 = none) :
    (k.schedFork kstackTop cr3).1 = k := by
  unfold schedFork at h ⊢
  dsimp only at h ⊢
  split
  · rfl
  · rename_i hc
    rw [if_neg hc] at h
    cases hs : k.freeSlot with
    | none => rfl
    | some i =>
      rw [hs] at h
      cases h

/-- The exits of `user_fork` after the kernel stack is allocated. -/
theorem NoTrace.given_back {k1 k2 : Kernel Space} {f : Nat} (hi : k.mem.Inv)
    (hcr3 : k.currentCr3 = (k.tasks k.current).cr3) (hk1 : k1 = k.memDo (.kalloc page2M))
    (hf : k.memAsk (.kalloc page2M) = some f)
    (h2 : k2 = k1.memDo (.fork k.currentCr3) ∧ k1.memAsk (.fork k.currentCr3) = none ∨
      ∃ p, k1.memAsk (.fork k.currentCr3) = some p ∧
        k2 = (k1.memDo (.fork k.currentCr3)).memDo (.release p)) :
    NoTrace k (k2.memDo (.kfree f)) ∧ (k2.memDo (.kfree f)).frame = k.frame := by
  have hal : k.mem.kernAlloc page2M = (k1.mem, some f) := by
    rw [hk1]
    exact Prod.ext rfl hf
  have hk : k2.tasks = k.tasks ∧ k2.taskCount = k.taskCount ∧ k2.current = k.current ∧ k2.pipes = k.pipes ∧
      k2.frame = k.frame := by
    rw [hk1] at h2
    rcases h2 with ⟨rfl, -⟩ | ⟨p, -, rfl⟩ <;> exact ⟨rfl, rfl, rfl, rfl, rfl⟩
  have hmem : k2.mem = (k1.mem.step (.fork k.currentCr3)).1 ∧ (k1.mem.step (.fork k.currentCr3)).2 = none ∨
      ∃ p, (k1.mem.step (.fork k.currentCr3)).2 = some p ∧
        k2.mem = ((k1.mem.step (.fork k.currentCr3)).1.step (.release p)).1 := by
    rcases h2 with ⟨rfl, hn⟩ | ⟨p, hp, rfl⟩
    · exact .inl ⟨rfl, hn⟩
    · exact .inr ⟨p, hp, rfl⟩
  obtain ⟨a1, a2, a3⟩ := Space.fork_memory hi hal hmem
  obtain ⟨h1, h2, h3, h4, h5⟩ := hk
  refine ⟨.of_undone ⟨h1, h2, h3⟩ h4 hi ?_ ?_ ?_, h5⟩ <;> rw [memDo_space]
  · exact a2
  · exact a1
  · exact fun hx => a3 (by rw [hcr3]; exact hx)

theorem userFork_noTrace (hi : k.mem.Inv) (hno : k.userFork.2 = none) :
    NoTrace k k.userFork.1 ∧ k.userFork.1.frame = k.frame := by
  unfold userFork at hno ⊢
  split at hno
  · rename_i hc
    rw [if_pos hc]
    exact ⟨.refl, rfl⟩
  · rename_i hc
    rw [if_neg hc]
    have hcr3 : k.currentCr3 = (k.tasks k.current).cr3 := by
      unfold currentCr3 at hc ⊢
      split at hc
      · exact absurd rfl hc
      · rename_i h0
        exact if_neg h0
    cases hf : k.memAsk (.kalloc page2M) with
    | none =>
      have hstay : (k.memDo (.kalloc page2M)).mem = k.mem := Space.kernAlloc_none hf
      refine ⟨.of_undone ⟨rfl, rfl, rfl⟩ rfl hi ?_ ?_ fun _ => ?_, rfl⟩ <;> rw [hstay]
      · exact hi
      · exact .refl
    | some f =>
      simp only [hf] at hno ⊢
      obtain ⟨k1, hk1⟩ : ∃ k1, k1 = k.memDo (.kalloc page2M) := ⟨_, rfl⟩
      have hsame : k1.currentCr3 = k.currentCr3 := by rw [hk1]; rfl
      rw [← hk1, hsame] at hno ⊢
      cases hcl : k1.memAsk (.fork k.currentCr3) with
      | none => exact NoTrace.given_back hi hcr3 hk1 hf (.inl ⟨rfl, hcl⟩)
      | some cr3 =>
        simp only [hcl] at hno ⊢
        cases hx : (k1.memDo (.fork k.currentCr3)).schedFork (kstackTopOf f) cr3 with
        | mk k2 o =>
          cases o with
          | none =>
            -- no slot: the scheduler has touched nothing
            have hk2 := schedFork_none (congrArg Prod.snd hx)
            rw [hx] at hk2
            exact NoTrace.given_back hi hcr3 hk1 hf (.inr ⟨cr3, hcl, by rw [← hk2]⟩)
          | some j =>
            rw [hx] at hno
            cases hno

/-- **A failed fork leaves no trace**, wherever it fails: only the answer -1 in the frame. -/
theorem failed_fork_undone {m : Space} (hb : m.Boot) {k : Kernel Space} (h : Reachable m k)
    {f : Frame} (hf : f.rax = 13) (io : Io) (hno : (k.lateCall f io).userFork.2 = none) :
    NoTrace (k.enterCall f io) ((k.enterCall f io).userOnSyscall io) ∧
      ((k.enterCall f io).userOnSyscall io).frame = { f with rax := minusOne } := by
  obtain ⟨ops, hops⟩ := h.mem
  have hi : k.mem.Inv := by
    rw [hops]
    exact Space.run_inv hb ops
  obtain ⟨htrace, hframe⟩ := userFork_noTrace (k := k.lateCall f io) hi hno
  have hcall : (k.enterCall f io).userOnSyscall io =
      ((k.lateCall f io).userFork.1.setAnswer none).restoreCr3 := by
    have hrax : (k.enterCall f io).frame.rax.toNat = 13 := congrArg UInt64.toNat hf
    rw [← hno]
    simp only [userOnSyscall, lateSyscall, lateCall, setCr3, hrax]
  rw [hcall]
  refine ⟨⟨htrace.tasks, htrace.pipes, htrace.mems, htrace.used, htrace.stores⟩, ?_⟩
  change { (k.lateCall f io).userFork.1.frame with rax := minusOne } = _
  rw [hframe]
  rfl


/-- Memory for two tasks and all of a third but its last table. -/
def tightSpace : Space := Space.bootSpace (pmmInit ⟨24, [⟨0x200000, 0x12000, 1⟩]⟩)

/-- The copy stops half-way, with a page shared and the child's tables begun. -/
theorem failed_fork_undone_tight :
    NoTrace ((twoTasks tightSpace).enterCall (callFrame 13 0 0) smallIo)
      (((twoTasks tightSpace).enterCall (callFrame 13 0 0) smallIo).userOnSyscall smallIo) ∧
    (((twoTasks tightSpace).enterCall (callFrame 13 0 0) smallIo).userOnSyscall smallIo).frame =
      { callFrame 13 0 0 with rax := minusOne } :=
  failed_fork_undone (Space.bootSpace_boot (pmmInit_ok _)) (twoTasks_reachable _) rfl smallIo
    (by decide +kernel)

end

end Kernel

end VampireOS
