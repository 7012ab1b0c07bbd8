import VampireOS.Sched.Lives

/-!
# Whose working directory a call moves (user.c:291-366, fs.c:1999-2047)

There is one directory in the file system, the kernel shell's; the calls of a task switch to the
task's own and back.
-/

namespace VampireOS

open Lib

namespace Kernel

variable {M : Type} [MemSys M] {A : Label → Prop} {r : Ghost} {m : M} {k k' : Kernel M}

/-- Slot `i` holds the same live task in both states. -/
def SameTask (k k' : Kernel M) (i : Nat) : Prop :=
  (k.tasks i).state ≠ .dead ∧ (k'.tasks i).state ≠ .dead ∧ k'.hist.uid i = k.hist.uid i

/-- The directory of the kernel shell and those of the tasks are where they were. -/
structure CwdsStay (k k' : Kernel M) : Prop where
  kernel : k'.fs.cwd = k.fs.cwd ∧ k'.fs.path = k.fs.path
  task : ∀ i, SameTask k k' i → (k'.tasks i).cwd = (k.tasks i).cwd ∧ (k'.tasks i).cwdPath =
    (k.tasks i).cwdPath

omit [MemSys M] in
/-- One slot is another one, with the directory it had. -/
theorem CwdsStay.one {i : Nat} (hfs : k'.fs = k.fs)
    (hi : (k.tasks i).state ≠ .dead → (k'.tasks i).cwd = (k.tasks i).cwd ∧ (k'.tasks i).cwdPath =
      (k.tasks i).cwdPath)
    (ht : ∀ n, n ≠ i → k'.tasks n = k.tasks n) : CwdsStay k k' := by
  refine ⟨by rw [hfs]; exact ⟨rfl, rfl⟩, fun n hn => ?_⟩
  by_cases hni : n = i
  · exact hni ▸ hi (hni ▸ hn.1)
  · rw [ht n hni]
    exact ⟨rfl, rfl⟩

omit [MemSys M] in
theorem CwdsStay.same (hfs : k'.fs = k.fs) (ht : k'.tasks = k.tasks) : CwdsStay k k' :=
  .one (i := 0) hfs (fun _ => by rw [ht]; exact ⟨rfl, rfl⟩) fun n _ => by rw [ht]

omit [MemSys M] in
theorem CwdsStay.calm (hfs : k'.fs.cwd = k.fs.cwd ∧ k'.fs.path = k.fs.path)
    (ht : ∀ i, Calm (k.tasks i) (k'.tasks i)) :
    CwdsStay k k' := ⟨hfs, fun i hi => (ht i).cwd hi.1⟩

omit [MemSys M] in
theorem CwdsStay.blocked (hs : Shape k) (hm : k.mode = .user) (s : TaskState) {f : Task → Task}
    (hf : ∀ t : Task, t.state = .ready → Calm t (f t)) : CwdsStay k (k.blocked s f) := by
  have hr : (k.tasks k.current).state = .ready := (hs.run hm).2
  have hcalm := hf { k.tasks k.current with regs := k.frame } hr
  refine .one (i := k.current) rfl (fun hl => ?_) fun n hn => by simp [Kernel.blocked, saveTask, hn]
  simp only [Kernel.blocked, saveTask, modTask_tasks, modTask_current, if_true]
  exact hcalm.cwd hl

theorem Move.cwds {c c' : Ghost × Kernel M} (hs : Shape c.2) (hC : ¬ A .chdir) (hS : ¬ A .shell)
    (h : Move A c c') :
    CwdsStay c.2 c'.2 := by
  cases h with
  | quiet hq => exact .calm hq.cwd hq.task
  | chdir c pwd hA => exact absurd hA hC
  | shell s hA => exact absurd hA hS
  | @drop g k i j =>
    refine ⟨by rw [dropFd_fs]; exact ⟨rfl, rfl⟩, fun n hn => ?_⟩
    obtain ⟨t, ht, e⟩ := dropFd_task k i j n
    have hcwd := ht.toCalm.cwd hn.1
    rw [e]
    split <;> exact hcwd
  | @setFd g k i j e h0 he hl hj =>
    refine .one (i := i) rfl (fun _ => ?_) fun n hn => by rw [setFd_tasks]; simp only [hn, if_false]
    rw [setFd_tasks]
    simp
  | @addEnd g k i j p e h0 he hp hu hl hj =>
    refine .one (i := i) rfl (fun _ => ?_) fun n hn => ?_
    · change ((k.setFd i j e).tasks i).cwd = _ ∧ ((k.setFd i j e).tasks i).cwdPath = _
      rw [setFd_tasks]
      simp
    · change (k.setFd i j e).tasks n = _
      rw [setFd_tasks]
      simp only [hn, if_false]
  | @alloc g k p hr hp =>
    rcases allocPipe_cases k with e | ⟨p', phys, -, -, -, e⟩
    · rw [e] at hp; cases hp
    · simp only [e]
      exact .same rfl rfl
  | @discard g k p hr hp hu h0 => exact .same (freePipe_fs k p) (freePipe_tasks k p)
  | @read g k fd n =>
    rcases schedPipeRead_cases k fd n with e | ⟨p, u, -, e, -⟩ <;> simp only [e]
    · exact .same rfl rfl
    · exact .calm ⟨rfl, rfl⟩ fun i => (wakePipeWaiters_mild (k.modPipe p u) p i).toCalm
  | @write g k fd src =>
    rcases schedPipeWrite_cases k fd src with e | ⟨p, u, -, e, -⟩ <;> simp only [e]
    · exact .same rfl rfl
    · exact .calm ⟨rfl, rfl⟩ fun i => (wakePipeWaiters_mild (k.modPipe p u) p i).toCalm
  | pause s f hA hm hsl hf => exact .blocked hs hm s fun t ht => (hf t ht).1
  | blockPipe p hA hm hu hw => exact .blocked hs hm .pipe fun t ht => calm_pipeWait ht _
  | @swap g k i hA hm hn hi hr =>
    refine .one (i := k.current) rfl (fun _ => ?_) fun n hn => by
      simp only [switchTo, saveTask, modTask_tasks, if_neg hn]
    simp [switchTo, saveTask]
  | @spawn g k i f parent t hA hi hd hk hc ht hf hp =>
    refine .one (i := i) rfl (fun hl => absurd (slotReusable_dead hd) hl) fun n hn => spawnTask_other hn
  | @doom g k hInt hTerm f hA hm =>
    refine .one (i := k.current) rfl (fun _ => ?_) fun n hn => by rw [modTask_tasks, if_neg hn]
    rw [modTask_tasks, if_pos rfl]
    exact ⟨rfl, rfl⟩
  | @die g k code hA hm hf =>
    refine ⟨by simp [finishTask_fs], fun n _ => ?_⟩
    rcases finishTask_task k k.current code n with ⟨hn, b, e⟩ | ⟨-, e⟩ | ⟨-, -, e⟩
    · rw [hn] at e ⊢
      simp only [e]
      exact ⟨rfl, rfl⟩
    · simp [e]
    · simp [e, wokenTask]
  | @blockWait g k w hA hm hw =>
    have hs1 : Shape k.asks := hs.same rfl rfl rfl rfl rfl
    have h1 := CwdsStay.blocked hs1 hm .wait (f := fun t => { t with waitPid := w }) fun t ht =>
      calm_waitPid ht w
    exact ⟨h1.kernel, fun i hi => h1.task i hi⟩
  | @reap g k child hA hm hc hd =>
    refine .one (i := child) rfl (fun _ => ?_) fun n hn => by simp [reapChild, setRax, asks, hn]
    simp [reapChild, setRax, asks]
  | @freeKstack g k i hd =>
    refine .one (i := i) (freeTaskKstack_rest k i).2.2.2.2.2 (fun hl => absurd hd hl) fun n hn => ?_
    rcases freeTaskKstack_task k i n with e | ⟨rfl, -⟩
    · exact e
    · exact absurd rfl hn
  | _ => exact .same rfl rfl

/-! ## Along a call -/

theorem Moves.cwds {c c' : Ghost × Kernel M} (hs : Shape c.2) (hn : Numbered c.2) (hC : ¬ A .chdir)
    (hS : ¬ A .shell) (h : Moves A c c') : CwdsStay c.2 c'.2 := by
  suffices CwdsStay c.2 c'.2 ∧ c.2.hist.born ≤ c'.2.hist.born from this.1
  induction h with
  | refl => exact ⟨.same rfl rfl, le_rfl⟩
  | @tail c1 c2 hrun hstep ih =>
    obtain ⟨hstay, hborn⟩ := ih
    have hs1 := Moves.shape hrun hs
    have hlife := hstep.life hs1
    have hmove := hstep.cwds hs1 hC hS
    refine ⟨⟨?_, fun i hi => ?_⟩, hborn.trans hlife.born⟩
    · rw [hmove.kernel.1, hmove.kernel.2]
      exact hstay.kernel
    · -- a task with an old number was there before the move
      obtain ⟨hl, hl2, hu⟩ := hi
      obtain ⟨hl1, e⟩ : (c1.2.tasks i).state ≠ .dead ∧ c2.2.hist.uid i = c1.2.hist.uid i := by
        rcases hlife.whose hs1 hl2 with hold | ⟨e1, -⟩
        · exact hold
        · have := hn i hl
          omega
      obtain ⟨h1, h2⟩ := hmove.task i ⟨hl1, hl2, e⟩
      obtain ⟨h3, h4⟩ := hstay.task i ⟨hl, hl1, e.symm.trans hu⟩
      exact ⟨h1.trans h3, h2.trans h4⟩

theorem Reaches.cwds (h : Reaches A r k k') (hs : Shape k) (hn : Numbered k) (hC : ¬ A .chdir)
    (hS : ¬ A .shell) :
    CwdsStay k k' := by
  obtain ⟨r', -, -, hmoves⟩ := h
  exact (hmoves hs).cwds hs hn hC hS

/-- The task at `i` has been moved to cluster `cl`, known as `pwd`. -/
def MovedTo (k : Kernel M) (i cl : Nat) (pwd : Name) : Prop :=
  (k.tasks i).cwd = cl ∧ (k.tasks i).cwdPath = copyCwdPath pwd

omit [MemSys M] in
theorem chdirDone_tasks (k : Kernel M) (cl : Nat) (pwd : Name) (i : Nat) : (k.chdirDone cl pwd).tasks i =
    if i = k.current then { k.tasks k.current with cwd := cl, cwdPath := copyCwdPath pwd } else k.tasks i :=
  modTask_tasks k k.current i fun t => { t with cwd := cl, cwdPath := copyCwdPath pwd }

/-- What `SYS_CHDIR` does: nothing to any directory, or both fields of the caller on success. -/
theorem sysChdir_cwds (hs : Shape k) :
    k.sysChdir.fs.cwd = k.fs.cwd ∧ k.sysChdir.fs.path = k.fs.path ∧ k.sysChdir.hist = k.hist ∧
    (∀ i, (k.sysChdir.tasks i).state = (k.tasks i).state) ∧
    (∀ i, i ≠ k.current → k.sysChdir.tasks i = k.tasks i) ∧
    (k.sysChdir.tasks k.current = k.tasks k.current ∨
      ∃ path cl pwd, k.copyFromUser k.frame.rdi.toNat userStrMax = some path ∧
        k.fsAsk (userChdir (k.tasks k.current).cwd k.currentPwd path) = some (cl, pwd) ∧
        k.sysChdir.MovedTo k.current cl pwd) := by
  unfold sysChdir
  cases hpath : k.copyFromUser k.frame.rdi.toNat userStrMax with
  | none => exact ⟨rfl, rfl, rfl, fun _ => rfl, fun _ _ => rfl, .inl rfl⟩
  | some path =>
    have hback := userChdir_same (k.tasks k.current).cwd k.currentPwd path hs.path
    simp only
    unfold answering
    split
    · exact ⟨hback.cwd, hback.path, rfl, fun _ => rfl, fun _ _ => rfl, .inl rfl⟩
    · rename_i x hask
      obtain ⟨cl, pwd⟩ := x
      refine ⟨hback.cwd, hback.path, rfl, fun i => ?_, fun i hi => ?_, .inr ⟨path, cl, pwd, rfl, hask, ?_⟩⟩
      · rw [chdirDone_tasks]
        split
        · rename_i hi
          rw [hi]
          rfl
        · rfl
      · rw [chdirDone_tasks]
        exact if_neg hi
      · unfold MovedTo
        rw [chdirDone_tasks]
        exact ⟨congrArg Task.cwd (if_pos rfl), congrArg Task.cwdPath (if_pos rfl)⟩

/-- Delivering signals moves nobody. -/
theorem deliverPending_cwds (hs : Shape k) (hn : Numbered k) : CwdsStay k k.deliverPending :=
  (deliverPending_goes (A := fun l => l = .swap ∨ l = .halt) (r := ⟨none, none, ∅⟩) (.inl rfl)
    (.inr rfl) rfl).reaches.cwds hs hn (by simp) (by simp)

/-- What the system call `f` leaves where it was: the directory of the kernel shell and those of the
other tasks; the caller's own moves only when `SYS_CHDIR` finds a directory, and then cluster and
path move together. -/
structure CallKeepsCwds (k : Kernel M) (f : Frame) (io : Io) (k' : Kernel M) : Prop where
  kernel : k'.fs.cwd = k.fs.cwd ∧ k'.fs.path = k.fs.path
  others : ∀ i, i ≠ k.current → SameTask k k' i →
    (k'.tasks i).cwd = (k.tasks i).cwd ∧ (k'.tasks i).cwdPath = (k.tasks i).cwdPath
  own : SameTask k k' k.current →
    ((k'.tasks k.current).cwd = (k.tasks k.current).cwd ∧ (k'.tasks k.current).cwdPath =
      (k.tasks k.current).cwdPath) ∨
    f.rax = 20 ∧ ∃ path cl pwd, (k.enterCall f io).copyFromUser f.rdi.toNat userStrMax = some path ∧
      (k.enterCall f io).fsAsk (userChdir (k.tasks k.current).cwd k.currentPwd path) = some (cl, pwd) ∧
      k'.MovedTo k.current cl pwd

/-- **A system call moves nobody else's directory.** -/
theorem calls_keep_cwds (h : Reachable m k) (hm : k.mode = .user) (f : Frame) (io : Io) :
    CallKeepsCwds k f io (k.step (.syscall f io)) := by
  by_cases hf : f.rax = 20
  · set k1 := k.enterCall f io with hk1
    have hs1 : Shape k1 := h.shape.same rfl rfl rfl rfl rfl
    have hstep : k.step (.syscall f io) = k1.sysChdir.deliverPending := by
      have hcall : k1.userOnSyscall io = k1.sysChdir := by
        unfold userOnSyscall
        rw [show k1.frame.rax.toNat = 20 from congrArg UInt64.toNat hf]
        rfl
      simp only [step, if_pos hm]
      exact congrArg deliverPending hcall
    obtain ⟨hcwd, hpath, hhist, hstate, hother, hown⟩ := sysChdir_cwds hs1
    have hs2 : Shape k1.sysChdir :=
      (sysChdir_goes (A := fun _ => True) (r := ⟨none, none, ∅⟩) (k := k1) hm (trap_own (k := k) f)
        trivial).shape hs1
    have hn2 : Numbered k1.sysChdir := by
      intro i hl
      rw [hstate] at hl
      rw [hhist]
      exact h.numbered i hl
    have hdel := deliverPending_cwds hs2 hn2
    rw [hstep]
    have htask : ∀ {i}, SameTask k k1.sysChdir.deliverPending i →
        SameTask k1.sysChdir k1.sysChdir.deliverPending i := by
      rintro i ⟨h1, h2, h3⟩
      refine ⟨by rw [hstate]; exact h1, h2, ?_⟩
      rw [hhist]
      exact h3
    refine ⟨⟨hdel.kernel.1.trans hcwd, hdel.kernel.2.trans hpath⟩, fun i hi hsame => ?_, fun hsame => ?_⟩
    · have e := hdel.task i (htask hsame)
      rw [hother i hi] at e
      exact e
    · have e := hdel.task k.current (htask hsame)
      rcases hown with hown | ⟨path, cl, pwd, hp, ha, hmoved⟩
      · rw [show k1.sysChdir.tasks k.current = k.tasks k.current from hown] at e
        exact .inl e
      · exact .inr ⟨hf, path, cl, pwd, hp, ha, e.1.trans hmoved.1, e.2.trans hmoved.2⟩
  · have hstay := (step_reaches (r := ⟨none, none, ∅⟩) rfl rfl (.syscall f io)).cwds h.shape h.numbered
      (by simp [Event.labels, hf]) (by simp [Event.labels])
    exact ⟨hstay.kernel, fun i _ hi => hstay.task i hi, fun hi => .inl (hstay.task _ hi)⟩

theorem calls_keep_cwds_chdir : CallKeepsCwds (twoTasks (M := Plenty) ⟨0⟩) (callFrame 20 0x401000 0) smallIo
    ((twoTasks (M := Plenty) ⟨0⟩).step (.syscall (callFrame 20 0x401000 0) smallIo)) :=
  calls_keep_cwds (twoTasks_reachable _) twoTasks_plenty _ _

end Kernel

end VampireOS
