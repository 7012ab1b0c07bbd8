import VampireOS.Sched.Reach

/-!
# The map a task returns on (user.c:1176-1774, sched.c:129-152)

Most system calls work on the kernel's own map and load the caller's again on every path by hand.
`Kept` is the work in between that loads no map; `Right` is what has to hold when ring 3 goes on.
-/

namespace VampireOS

open Lib

namespace Kernel

variable {M : Type} [MemSys M] {m : M} {k k' k'' : Kernel M}

/-- The task that goes on lives, and its map is loaded. -/
def Right (k : Kernel M) : Prop :=
  k.mode = .user → (k.tasks k.current).state ≠ .dead ∧ k.cr3 = (k.tasks k.current).cr3

/-- The processor stays with its task, no map is loaded, and the live tasks keep theirs. -/
structure Kept (k k' : Kernel M) : Prop where
  mode : k'.mode = k.mode
  current : k.mode = .user → k'.current = k.current
  cr3 : k'.cr3 = k.cr3
  count : k.taskCount ≤ k'.taskCount
  live : ∀ i, (k.tasks i).state ≠ .dead → (k'.tasks i).state ≠ .dead ∧ (k'.tasks i).cr3 = (k.tasks i).cr3

omit [MemSys M] in
theorem Kept.refl : Kept k k := ⟨rfl, fun _ => rfl, rfl, le_rfl, fun _ h => ⟨h, rfl⟩⟩

omit [MemSys M] in
theorem Kept.trans (h : Kept k k') (h' : Kept k' k'') : Kept k k'' where
  mode := h'.mode.trans h.mode
  current hm := (h'.current (h.mode.trans hm)).trans (h.current hm)
  cr3 := h'.cr3.trans h.cr3
  count := h.count.trans h'.count
  live i hl := by
    obtain ⟨h1, h2⟩ := h.live i hl
    obtain ⟨h3, h4⟩ := h'.live i h1
    exact ⟨h3, h4.trans h2⟩

omit [MemSys M] in
theorem Kept.right (h : Kept k k') (hr : Right k) : Right k' := by
  intro hm
  have hm0 : k.mode = .user := h.mode.symm.trans hm
  obtain ⟨hl, e⟩ := hr hm0
  obtain ⟨hl', e'⟩ := h.live _ hl
  rw [h.current hm0, h.cr3]
  exact ⟨hl', e.trans e'.symm⟩

omit [MemSys M] in
/-- Only registers, pipes, memory, files and the history are others. -/
theorem Kept.same (ht : k'.tasks = k.tasks) (hm : k'.mode = k.mode) (hc : k'.current = k.current)
    (h3 : k'.cr3 = k.cr3) (hn : k'.taskCount = k.taskCount) : Kept k k' :=
  ⟨hm, fun _ => hc, h3, hn.ge, fun i hl => by rw [ht]; exact ⟨hl, rfl⟩⟩

omit [MemSys M] in
theorem Kept.calm (ht : ∀ i, Calm (k.tasks i) (k'.tasks i)) (hm : k'.mode = k.mode)
    (hc : k'.current = k.current) (h3 : k'.cr3 = k.cr3) (hn : k'.taskCount = k.taskCount) :
    Kept k k' :=
  ⟨hm, fun _ => hc, h3, hn.ge, fun i hl => ⟨fun hd => hl ((ht i).dead.1 hd), (ht i).cr3 hl⟩⟩

omit [MemSys M] in
theorem Kept.modTask (k : Kernel M) (i : Nat) {f : Task → Task}
    (hf : (k.tasks i).state ≠ .dead → (f (k.tasks i)).state ≠ .dead ∧ (f (k.tasks i)).cr3 = (k.tasks i).cr3) :
    Kept k (k.modTask i f) := by
  refine ⟨rfl, fun _ => rfl, rfl, le_rfl, fun n hl => ?_⟩
  rw [modTask_tasks]
  by_cases hn : n = i
  · subst hn
    rw [if_pos rfl]
    exact hf hl
  · rw [if_neg hn]
    exact ⟨hl, rfl⟩

omit [MemSys M] in
theorem Kept.setFd (k : Kernel M) (i j : Nat) (e : FdEntry) : Kept k (k.setFd i j e) :=
  .modTask k i fun hl => ⟨hl, rfl⟩

omit [MemSys M] in
theorem Kept.modPipe (k : Kernel M) (p : Nat) (u : Pipe → Pipe) : Kept k (k.modPipe p u) :=
  .same rfl rfl rfl rfl rfl

omit [MemSys M] in
theorem Kept.wake (k : Kernel M) (p : Nat) : Kept k (k.wakePipeWaiters p) :=
  .calm (fun i => (wakePipeWaiters_mild k p i).toCalm) rfl rfl rfl rfl

theorem Kept.freePipe (k : Kernel M) (p : Nat) : Kept k (k.freePipe p) := by
  refine .same (freePipe_tasks k p) (freePipe_mode k p) (freePipe_current k p) ?_ (freePipe_taskCount k p)
  unfold Kernel.freePipe
  split <;> rfl

theorem Kept.dropEnd (k : Kernel M) (c : FdKind) (p : Nat) : Kept k (k.dropEnd c p) := by
  have hwake : Kept k ((k.modPipe p (minusRef c)).wakePipeWaiters p) := (Kept.modPipe k p _).trans (.wake _ p)
  unfold Kernel.dropEnd
  simp only
  split
  · exact hwake.trans (.freePipe _ p)
  · exact hwake

theorem Kept.dropFd (k : Kernel M) (i j : Nat) : Kept k (k.dropFd i j) := by
  rcases dropFd_cases k i j with ⟨-, e⟩ | ⟨-, -, e⟩ | ⟨p, -, -, -, e⟩ <;> rw [e]
  · exact .refl
  · exact .setFd k i j _
  · exact (Kept.dropEnd k _ p).trans (.setFd _ i j _)

omit [MemSys M] in
theorem Kept.forTo {f : Nat → Kernel M → Kernel M} (hf : ∀ j k, Kept k (f j k)) (n : Nat) (k : Kernel M) :
    Kept k (forTo f n k) := forTo_inv (fun _ k' => Kept k k') .refl fun j k' _ h => h.trans (hf j k')

theorem Kept.clearFds (k : Kernel M) (i : Nat) : Kept k (k.clearFds i) :=
  .forTo (fun j k => .dropFd k i j) _ k

theorem Kept.schedFdClose (k : Kernel M) (fd : Int) : Kept k (k.schedFdClose fd).1 := by
  unfold Kernel.schedFdClose
  split
  · exact .dropFd k _ _
  · exact .refl

omit [MemSys M] in
theorem Kept.schedFdLseek (k : Kernel M) (fd : Int) (off : Nat) : Kept k (k.schedFdLseek fd off).1 := by
  unfold Kernel.schedFdLseek
  cases k.fdAt fd with
  | none => exact .refl
  | some e =>
    simp only [Option.elim]
    split
    · exact .setFd k _ _ _
    · exact .refl

theorem Kept.schedPipe (k : Kernel M) : Kept k k.schedPipe.1 := by
  unfold Kernel.schedPipe
  split
  · exact .refl
  · split
    · exact .refl
    · rcases allocPipe_cases k with e | ⟨p, phys, -, -, -, e⟩ <;> rw [e]
      · exact .refl
      · have hmem : Kept k ((k.memDo (.kalloc pipeMinPhys)).modPipe p fun _ =>
          { Pipe.unused with used := true, phys := phys }) := .same rfl rfl rfl rfl rfl
        exact hmem.trans (((Kept.modPipe _ p _).trans (.setFd _ _ _ _)).trans (.setFd _ _ _ _))

omit [MemSys M] in
theorem Kept.schedPipeRead (k : Kernel M) (fd : Int) (n : Nat) : Kept k (k.schedPipeRead fd n).1 := by
  rcases schedPipeRead_cases k fd n with e | ⟨p, u, -, e, -⟩ <;> rw [e]
  · exact .refl
  · exact (Kept.modPipe k p u).trans (.wake _ p)

omit [MemSys M] in
theorem Kept.schedPipeWrite (k : Kernel M) (fd : Int) (src : List UInt8) :
    Kept k (k.schedPipeWrite fd src).1 := by
  rcases schedPipeWrite_cases k fd src with e | ⟨p, u, -, e, -⟩ <;> rw [e]
  · exact .refl
  · exact (Kept.modPipe k p u).trans (.wake _ p)

theorem Kept.copyToUser (k : Kernel M) (dst : UInt64) (src : List UInt8) :
    Kept k (k.copyToUser dst src).1 := by
  unfold Kernel.copyToUser
  split
  · exact .refl
  · exact .same rfl rfl rfl rfl rfl

omit [MemSys M] in
theorem Kept.setRax (k : Kernel M) (v : UInt64) : Kept k (k.setRax v) := .same rfl rfl rfl rfl rfl

omit [MemSys M] in
theorem Kept.rewind (k : Kernel M) : Kept k k.rewind := .same rfl rfl rfl rfl rfl

omit [MemSys M] in
theorem Kept.setAnswer (k : Kernel M) (v : Option Nat) : Kept k (k.setAnswer v) := .setRax k _

omit [MemSys M] in
theorem Kept.fsDo {α : Type} (k : Kernel M) (m : FsM α) : Kept k (k.fsDo m) := .same rfl rfl rfl rfl rfl

theorem Kept.answerBytes (k : Kernel M) (dst : UInt64) (src : List UInt8) : Kept k (k.answerBytes dst src) :=
  (Kept.copyToUser k dst src).trans (.setAnswer _ _)

/-! ## Switching -/

omit [MemSys M] in
theorem Right.switchTo {i : Nat} (hr : (k.tasks i).state = .ready) : Right (k.switchTo i) := fun _ =>
  ⟨by rw [show ((k.switchTo i).tasks (k.switchTo i).current).state = .ready from hr]; nofun, rfl⟩

omit [MemSys M] in
/-- Whoever is picked gets the processor with its map; else nobody runs. -/
theorem Right.pick {d : Kernel M} (hd : Right d) (n : Nat) : Right ((k.pickNext n).elim d k.switchTo) := by
  cases hp : k.pickNext n with
  | none => exact hd
  | some i => exact .switchTo (pickNext_some hp).2

omit [MemSys M] in
theorem Right.block (s : TaskState) (f : Task → Task) : Right (k.block s f) := .pick (fun h => by cases h) _

omit [MemSys M] in
theorem Right.runOrHalt : Right k.runOrHalt := .pick (fun h => by cases h) _

theorem Right.schedExit : Right k.schedExit := .runOrHalt

theorem Right.exitBySignal : Right k.exitBySignal := (Kept.same rfl rfl rfl rfl rfl).right .schedExit

theorem Right.enterHandler (sig : Int) (handler : UInt64) (h : Right k) :
    Right (k.enterHandler sig handler) := by
  have hpush : Kept k (k.pushUserU64 (k.tasks k.current).cr3 (k.frame.rsp - 8) k.frame.rip).1 := by
    unfold pushUserU64
    split
    · exact .refl
    · exact .same rfl rfl rfl rfl rfl
  unfold Kernel.enterHandler
  simp only
  split
  · exact .exitBySignal
  · split
    · exact (hpush.trans (.same rfl rfl rfl rfl rfl)).right h
    · exact .exitBySignal

theorem Right.deliverPending (h : Right k) : Right k.deliverPending := by
  unfold Kernel.deliverPending
  split
  · exact h
  · simp only
    split
    · exact h
    · have hclear : ∀ p : UInt8,
          Kept k (k.modTask k.current fun t => { t with pending := t.pending &&& p }) :=
        fun p => .modTask k _ fun hl => ⟨hl, rfl⟩
      split
      · exact .exitBySignal
      · refine .enterHandler _ _ (((hclear _).trans (.modTask _ _ fun hl => ?_)).right h)
        unfold setSigHandler
        split
        · exact ⟨hl, rfl⟩
        · split <;> exact ⟨hl, rfl⟩

theorem Right.schedBlockPipe (h : Right k) (p : Option Nat) : Right (k.schedBlockPipe p) := by
  unfold Kernel.schedBlockPipe
  split
  · exact h.deliverPending
  · exact .block _ _

theorem Right.schedBlockKbd (h : Right k) : Right k.schedBlockKbd := by
  unfold Kernel.schedBlockKbd
  split
  · exact h.deliverPending
  · split
    · exact h
    · exact .block _ _

/-- The running task lives and has a map. -/
def Able (k : Kernel M) : Prop :=
  k.mode = .user → k.taskCount ≠ 0 ∧ (k.tasks k.current).state ≠ .dead ∧ (k.tasks k.current).cr3 ≠ 0

omit [MemSys M] in
theorem Shape.able (hs : Shape k) : Able k := fun hm => by
  have hl := hs.current_live hm
  exact ⟨by have := (hs.run hm).1; omega, hl, (hs.live _ hl).1⟩

omit [MemSys M] in
theorem Right.restoreCr3 (h : Able k) : Right k.restoreCr3 := fun hm => by
  obtain ⟨h1, h2, h3⟩ := h hm
  exact ⟨h2, if_neg (not_or.2 ⟨h1, h3⟩)⟩

omit [MemSys M] in
theorem Kept.able (h : Kept k k') (ha : Able k) : Able k' := fun hm => by
  have hm0 : k.mode = .user := h.mode.symm.trans hm
  obtain ⟨h1, h2, h3⟩ := ha hm0
  obtain ⟨hl, e⟩ := h.live _ h2
  rw [h.current hm0, e]
  exact ⟨by have := h.count; omega, hl, h3⟩

omit [MemSys M] in
/-- The kernel's own map in between does not matter. -/
theorem Able.setCr3 (h : Able k) (c : Nat) : Able (k.setCr3 c) := h

/-! ## The calls that look at user memory first -/

omit [MemSys M] in
theorem Right.answering {α : Type} {x : FsM α} {f : Kernel M → α → Kernel M} (ha : Able k)
    (hf : ∀ a, Right (f (k.fsDo x) a)) : Right (k.answering x f) := by
  unfold Kernel.answering
  split
  · exact .restoreCr3 (((Kept.fsDo k x).trans (.setRax _ _)).able ha)
  · exact hf _

theorem Right.writePipe (h : Right k) (fd : Int) (want : Nat) : Right (k.writePipe fd want) := by
  unfold Kernel.writePipe
  split
  · exact (Kept.setRax k _).right h
  · split
    · exact (Kept.setRax k _).right h
    · rename_i src _
      have hkept := Kept.schedPipeWrite k fd src
      rcases hx : k.schedPipeWrite fd src with ⟨k1, n | _ | _⟩ <;> rw [hx] at hkept
      · exact (hkept.trans (.setAnswer k1 _)).right h
      · exact (hkept.trans (.setRax k1 _)).right h
      · exact .schedBlockPipe ((hkept.trans (.rewind k1)).right h) _

theorem Right.writeFile (ha : Able k) (h : Right k) (fd : Int) (path : Name) (want : Nat) :
    Right (k.writeFile fd path want) := by
  unfold Kernel.writeFile
  split
  · exact (Kept.setRax k _).right h
  · split
    · exact (Kept.setRax k _).right h
    · rename_i src _
      have ha1 : Able (k.setCr3 pml4Phys) := ha
      simp only
      generalize k.setCr3 pml4Phys = k1 at ha1
      generalize k1.inCwd (writeAt path (k1.schedFdOffset fd) src) = x
      have hfs := Kept.fsDo k1 x
      split
      · exact .restoreCr3 (((hfs.trans (.schedFdLseek _ fd _)).trans (.setAnswer _ _)).able ha1)
      · exact .restoreCr3 ((hfs.trans (.setRax _ _)).able ha1)

theorem Right.writeConsole (ha : Able k) (h : Right k) (want : Nat) : Right (k.writeConsole want) := by
  unfold Kernel.writeConsole
  split
  · exact (Kept.setRax k _).right h
  · exact .restoreCr3 ((Kept.setAnswer _ _).able (ha.setCr3 pml4Phys))

theorem Right.sysWrite (ha : Able k) (h : Right k) : Right k.sysWrite := by
  have hfail : Right (k.setRax minusOne) := (Kept.setRax k _).right h
  unfold Kernel.sysWrite
  split
  · simp only
    split
    · exact h.writePipe _ _
    · exact hfail
    · cases k.schedFdPath (toInt k.frame.rdi) with
      | none => exact hfail
      | some path => exact h.writeFile ha _ _ _
    · exact h.writeConsole ha _
    · exact hfail
    · split
      · exact h.writeConsole ha _
      · exact hfail
  · split
    · exact h
    · exact .restoreCr3 (ha.setCr3 pml4Phys)

theorem Right.readPipe (h : Right k) (fd : Int) (want : Nat) : Right (k.readPipe fd want) := by
  unfold Kernel.readPipe
  split
  · exact (Kept.setRax k _).right h
  · have hkept := Kept.schedPipeRead k fd want
    rcases hx : k.schedPipeRead fd want with ⟨k1, out | _ | _⟩ <;> rw [hx] at hkept
    · exact (hkept.trans (.answerBytes k1 _ _)).right h
    · exact (hkept.trans (.setRax k1 _)).right h
    · exact .schedBlockPipe ((hkept.trans (.rewind k1)).right h) _

theorem Right.readConsole (h : Right k) (want : Nat) : Right (k.readConsole want) := by
  unfold Kernel.readConsole
  split
  · exact (Kept.setRax k _).right h
  · split
    · exact .schedBlockKbd ((Kept.rewind k).right h)
    · rename_i line _
      have htake : Kept k { k with stdin := none } := .same rfl rfl rfl rfl rfl
      exact (htake.trans (.answerBytes _ _ _)).right h

theorem Kept.readDone (k : Kernel M) (fd : Int) (data : Bytes) (off got : Nat) :
    Kept k (k.readDone fd data off got) := by
  have hcopy := Kept.copyToUser k k.frame.rsi ((List.range got).map fun i => data (off + i))
  unfold Kernel.readDone
  simp only
  split
  · refine .trans ?_ (.setAnswer _ _)
    split
    · exact hcopy.trans (.schedFdLseek _ _ _)
    · exact hcopy
  · exact hcopy.trans (.setRax _ _)

theorem Right.readFile (ha : Able k) (fd : Int) (path : Name) (want : Nat) :
    Right (k.readFile fd path want) := by
  have ha1 : Able (k.setCr3 pml4Phys) := ha
  unfold Kernel.readFile
  simp only
  generalize k.setCr3 pml4Phys = k1 at ha1
  exact .answering ha1 fun a => (Kept.readDone _ fd _ _ _).right (.restoreCr3 ((Kept.fsDo k1 _).able ha1))

theorem Right.sysRead (ha : Able k) (h : Right k) : Right k.sysRead := by
  have hfail : Right (k.setRax minusOne) := (Kept.setRax k _).right h
  unfold Kernel.sysRead
  simp only
  split
  · exact h.readPipe _ _
  · exact hfail
  · exact h.readConsole _
  · cases k.schedFdPath (toInt k.frame.rdi) with
    | none => exact hfail
    | some path => exact .readFile ha _ _ _
  · exact hfail
  · split
    · exact h.readConsole _
    · exact hfail

theorem Right.sysReaddir (ha : Able k) : Right k.sysReaddir := by
  have ha1 : Able (k.setCr3 pml4Phys) := ha
  unfold Kernel.sysReaddir
  simp only
  generalize k.setCr3 pml4Phys = k1 at ha1
  exact .answering ha1 fun a => (Kept.answerBytes _ _ _).right (.restoreCr3 ((Kept.fsDo k1 _).able ha1))

omit [MemSys M] in
theorem Kept.openDone (k : Kernel M) (path : Name) (len : Nat) : Kept k (k.openDone path len) := by
  have hopen : Kept k (k.schedFdOpen path).1 := by
    unfold schedFdOpen
    split
    · exact .refl
    · cases freeFd (k.tasks k.current) 0 with
      | none => exact .refl
      | some j => exact .setFd k _ j _
  unfold Kernel.openDone
  simp only
  refine .trans ?_ (.setAnswer _ _)
  cases (k.schedFdOpen path).2 with
  | none => exact hopen
  | some fd =>
    simp only [Option.elim]
    split
    · exact hopen.trans (.schedFdLseek _ _ _)
    · exact hopen

theorem Right.sysOpen (ha : Able k) (h : Right k) : Right k.sysOpen := by
  unfold Kernel.sysOpen
  split
  · exact (Kept.setRax k _).right h
  · have ha1 : Able (k.setCr3 pml4Phys) := ha
    simp only
    generalize k.setCr3 pml4Phys = k1 at ha1
    exact .answering ha1 fun a => .restoreCr3 (((Kept.fsDo k1 _).trans (.openDone _ _ _)).able ha1)

theorem Kept.statDone (k : Kernel M) (st : Nat × Nat × Bool) : Kept k (k.statDone st) :=
  (Kept.copyToUser k _ _).trans (.setRax _ _)

theorem Right.sysStat (ha : Able k) (h : Right k) : Right k.sysStat := by
  unfold Kernel.sysStat
  split
  · exact (Kept.setRax k _).right h
  · have ha1 : Able (k.setCr3 pml4Phys) := ha
    simp only
    generalize k.setCr3 pml4Phys = k1 at ha1
    exact .answering ha1 fun a => (Kept.statDone _ _).right (.restoreCr3 ((Kept.fsDo k1 _).able ha1))

theorem Right.sysGetcwd (ha : Able k) (h : Right k) : Right k.sysGetcwd := by
  unfold Kernel.sysGetcwd
  simp only
  split
  · exact (Kept.setRax k _).right h
  · split
    · exact (Kept.answerBytes _ _ _).right (.restoreCr3 (ha.setCr3 _))
    · exact .restoreCr3 ((Kept.setRax _ _).able (ha.setCr3 pml4Phys))

omit [MemSys M] in
theorem Right.chdirDone (ha : Able k) (cl : Nat) (pwd : Name) : Right (k.chdirDone cl pwd) := by
  have hmod : Kept k (k.modTask k.current fun t => { t with cwd := cl, cwdPath := copyCwdPath pwd }) :=
    .modTask k _ fun hl => ⟨hl, rfl⟩
  exact .restoreCr3 ((hmod.trans (.setRax _ 0)).able ha)

theorem Right.sysChdir (ha : Able k) (h : Right k) : Right k.sysChdir := by
  unfold Kernel.sysChdir
  split
  · exact (Kept.setRax k _).right h
  · have ha1 : Able (k.setCr3 pml4Phys) := ha
    simp only
    generalize k.setCr3 pml4Phys = k1 at ha1
    exact .answering ha1 fun a => .chdirDone ((Kept.fsDo k1 _).able ha1) _ _

theorem Right.sysPipe (h : Right k) : Right k.sysPipe := by
  have hpipe := Kept.schedPipe k
  unfold Kernel.sysPipe
  rcases hx : k.schedPipe with ⟨k1, _ | ⟨r, w⟩⟩ <;> rw [hx] at hpipe
  · exact (hpipe.trans (.setRax k1 _)).right h
  · simp only
    have hcopy := hpipe.trans (.copyToUser k1 k1.frame.rdi
      ((bytes64 (UInt64.ofNat r)).take 4 ++ (bytes64 (UInt64.ofNat w)).take 4))
    split
    · exact (hcopy.trans (.setRax _ _)).right h
    · exact (((hcopy.trans (.schedFdClose _ _)).trans (.schedFdClose _ _)).trans (.setRax _ _)).right h

/-! ## Exec -/

omit [MemSys M] in
/-- A new image is armed with its task's map. -/
theorem Right.schedResetCurrent (ha : Able k) (hk : k.mode = .user → (k.tasks k.current).kstackTop ≠ 0)
    {rip rsp : UInt64} (hrip : rip ≠ 0) (hrsp : rsp ≠ 0) {base : Nat} (hb : base ≠ 0) :
    Right (k.schedResetCurrent rip rsp base) := by
  intro hm
  have hm0 : k.mode = .user := by
    revert hm
    unfold Kernel.schedResetCurrent
    simp only
    split <;> exact id
  obtain ⟨h1, h2, h3⟩ := ha hm0
  unfold Kernel.schedResetCurrent
  rw [if_neg (by simp [h1, h2, h3, hrip, hrsp, hb, hk hm0])]
  refine ⟨?_, rfl⟩
  simp only [modTask_tasks, modTask_current, if_true]
  nofun

/-- The stack pointer that `load_image` answers: above the argument vector of one short name. -/
theorem loadImage_sp (cr3 : Nat) (img : Image) {name : Name} (hn : name.length < fdPathMax) (sp : Nat)
    (h : (k.loadImage cr3 img [name]).2 = some sp) : UInt64.ofNat sp ≠ 0 := by
  have hsp : (argvBlock [name] (userBase + 2 * pageSize)).1 = sp := by
    unfold loadImage at h
    simp only at h
    split at h
    · cases h
    · split at h
      · cases h
      · split at h
        · cases h
        · obtain ⟨-, -, e⟩ := Option.map_eq_some_iff.1 h
          exact e
  have hval : sp = (userBase + 2 * pageSize - (name.length + 1)) / 8 * 8 - 24 := by
    rw [← hsp]
    simp [argvBlock]
  have hlow : 1 ≤ sp ∧ sp < 2 ^ 64 := by
    rw [hval]
    simp only [userBase, pageSize, fdPathMax] at hn ⊢
    omega
  intro h0
  have h1 : (UInt64.ofNat sp).toNat = sp := UInt64.toNat_ofNat_of_lt' hlow.2
  rw [h0] at h1
  change 0 = sp at h1
  omega

/-- Every live task has a kernel stack. -/
def Stacked (k : Kernel M) : Prop := ∀ i, (k.tasks i).state ≠ .dead → (k.tasks i).kstackTop ≠ 0

theorem userExecCurrent_done (ha : Able k) (hst : Stacked k) {name : Name} (hn : name.length < fdPathMax)
    {img : Option Image} (h : k.userExecCurrent name img = (k', .done)) : Right k' := by
  unfold userExecCurrent at h
  split at h
  · cases h
  · cases img with
    | none => cases h
    | some img =>
      have hdown : OnlyMem k (k.memDo (.teardown k.currentCr3)) := .memDo (.teardown _) rfl
      have hload := hdown.trans (loadImage_mem k.currentCr3 img [name])
      have hsp := fun sp => loadImage_sp (k := k.memDo (.teardown k.currentCr3)) k.currentCr3 img hn sp
      simp only at h
      rcases hx : (k.memDo (.teardown k.currentCr3)).loadImage k.currentCr3 img [name] with ⟨k1, _ | sp⟩ <;>
        rw [hx] at h hload hsp <;> cases h
      have hload : OnlyMem k k1 := hload
      have ha1 : Able k1 := by rw [hload.eq]; exact ha
      have hst1 : Stacked k1 := by rw [hload.eq]; exact hst
      have hentry : img.entry ≠ 0 := by
        intro h0
        have hin := img.inside
        rw [h0] at hin
        exact absurd hin (by decide)
      exact .schedResetCurrent ha1 (fun hm => hst1 _ (ha1 hm).2.1) hentry (hsp sp rfl) (by decide)

theorem userExecCurrent_kept {name : Name} {img : Option Image}
    (h : k.userExecCurrent name img = (k', .kept)) :
    k' = k := by
  unfold userExecCurrent at h
  split at h
  · cases h
    rfl
  · cases img with
    | none => cases h; rfl
    | some img =>
      simp only at h
      rcases hx : (k.memDo (.teardown k.currentCr3)).loadImage k.currentCr3 img [name] with ⟨k1, _ | sp⟩ <;>
        rw [hx] at h <;> cases h

theorem Right.sysExec (ha : Able k) (hst : Stacked k) (h : Right k) (io : Io) : Right (k.sysExec io) := by
  unfold Kernel.sysExec
  split
  · exact (Kept.setRax k _).right h
  · rename_i name _
    split
    · exact (Kept.setRax k _).right h
    · rename_i hname
      have hlen : name.length < fdPathMax := by
        by_contra hn
        exact hname (.inr (Nat.not_lt.1 hn))
      have ha1 : Able ((k.setCr3 pml4Phys).fsDo ((k.setCr3 pml4Phys).inCwd (lookupRootElf name))) := ha
      have hst1 : Stacked ((k.setCr3 pml4Phys).fsDo ((k.setCr3 pml4Phys).inCwd (lookupRootElf name))) := hst
      simp only
      split
      · exact userExecCurrent_done ha1 hst1 hlen ‹_›
      · rename_i hx
        rw [userExecCurrent_kept hx]
        exact .restoreCr3 ((Kept.setRax _ _).able ha1)
      · exact .schedExit

/-! ## Every call -/

/-- `SYS_DATE` with a bad argument, or with a buffer that cannot be written. -/
def DateFails (k : Kernel M) (io : Io) : Prop :=
  k.frame.rax.toNat = 29 ∧ (k.frame.rdi = 0 ∨ toUnsigned k.frame.rsi < 19 ∨
    (k.copyToUser k.frame.rdi io.date).2 = false)

theorem Right.sysDate (ha : Able k) {io : Io} (hd : ¬ (k.frame.rdi = 0 ∨ toUnsigned k.frame.rsi < 19 ∨
    (k.copyToUser k.frame.rdi io.date).2 = false)) : Right (k.sysDate io) := by
  simp only [not_or] at hd
  unfold Kernel.sysDate
  rw [if_neg (not_or.2 ⟨hd.1, hd.2.1⟩)]
  simp only
  rw [if_pos (by simpa using hd.2.2)]
  exact .restoreCr3 (((Kept.copyToUser _ _ _).trans (.setAnswer _ _)).able ha)

omit [MemSys M] in
/-- The map is loaded again last, whatever the call did. -/
theorem Right.last (hs : Shape k.restoreCr3) : Right k.restoreCr3 := .restoreCr3 hs.able

theorem Right.lateSyscall (ha : Able k) {io : Io} (hs : Shape (k.lateSyscall io)) (hd : ¬ k.DateFails io) :
    Right (k.lateSyscall io) := by
  revert hs
  unfold Kernel.lateSyscall
  split <;> intro hs
  case h_9 =>
    revert hs
    split <;> exact .last
  case h_15 =>
    revert hs
    unfold sysFbinfo
    split <;> exact .last
  case h_20 hrax => exact .sysDate ha fun h => hd ⟨hrax, h⟩
  case h_1 => exact .schedExit
  all_goals exact .last hs

/-- Whether a copy succeeds does not depend on the map that is loaded. -/
theorem copyToUser_setCr3 (k : Kernel M) (c : Nat) (dst : UInt64) (src : List UInt8) :
    ((k.setCr3 c).copyToUser dst src).2 = (k.copyToUser dst src).2 := by
  unfold copyToUser
  split <;> rfl

theorem Right.userOnSyscall (ha : Able k) (hst : Stacked k) (h : Right k) {io : Io}
    (hs : Shape (k.userOnSyscall io)) (hd : ¬ k.DateFails io) : Right (k.userOnSyscall io) := by
  revert hs
  unfold Kernel.userOnSyscall
  split <;> intro hs
  · exact .sysWrite ha h
  · exact .sysOpen ha h
  · exact .sysRead ha h
  · exact .sysReaddir ha
  · exact .sysExec ha hst h io
  · exact .sysPipe h
  · exact .sysStat ha h
  · exact .sysChdir ha h
  · exact .sysGetcwd ha h
  · refine .lateSyscall (k := k.setCr3 pml4Phys) ha hs fun hdate => hd ?_
    unfold DateFails at hdate ⊢
    rw [copyToUser_setCr3] at hdate
    exact hdate

/-! ## Interrupts -/

omit [MemSys M] in
theorem Right.switchToNext (h : Right k) : Right k.switchToNext := by
  unfold Kernel.switchToNext
  cases hp : k.pickNext k.current with
  | none => exact h
  | some i =>
    simp only [Option.elim]
    split
    · exact h
    · rename_i hne
      refine .switchTo ?_
      rw [saveTask, modTask_tasks, if_neg hne]
      exact (pickNext_some hp).2

omit [MemSys M] in
theorem Kept.wakeSleepers (k : Kernel M) : Kept k k.wakeSleepers := by
  refine ⟨rfl, fun _ => rfl, rfl, le_rfl, fun i hl => ?_⟩
  change (if i < k.taskCount then wakeSleeper k.ticks (k.tasks i) else k.tasks i).state ≠ .dead ∧
    (if i < k.taskCount then wakeSleeper k.ticks (k.tasks i) else k.tasks i).cr3 = _
  split
  · unfold wakeSleeper
    split
    · exact ⟨nofun, rfl⟩
    · exact ⟨hl, rfl⟩
  · exact ⟨hl, rfl⟩

omit [MemSys M] in
theorem Right.schedOnTick (h : Right k) : Right k.schedOnTick := by
  unfold Kernel.schedOnTick
  have hcharge : Kept k (if k.taskCount ≠ 0 ∧ (k.tasks k.current).state ≠ .dead then
      k.modTask k.current fun t => { t with cpuTicks := t.cpuTicks + 1 } else k) := by
    split
    · exact .modTask k _ fun hl => ⟨hl, rfl⟩
    · exact .refl
  simp only
  generalize (if k.taskCount ≠ 0 ∧ (k.tasks k.current).state ≠ .dead then
      k.modTask k.current fun t => { t with cpuTicks := t.cpuTicks + 1 } else k) = k1 at hcharge
  have hwake := (hcharge.trans (.wakeSleepers k1)).right h
  split
  · exact hwake.switchToNext
  · exact hwake

omit [MemSys M] in
theorem Kept.schedWakeKbd (k : Kernel M) : Kept k k.schedWakeKbd := by
  refine ⟨rfl, fun _ => rfl, rfl, le_rfl, fun i hl => ?_⟩
  unfold Kernel.schedWakeKbd
  simp only
  split
  · exact ⟨nofun, rfl⟩
  · exact ⟨hl, rfl⟩

/-- A posted signal runs its target next, or leaves the processor alone. -/
theorem Right.signalAt (hs : Shape k) (h : Right k) (pid signo : Int) (code : UInt8) :
    Right (k.signalAt pid signo code).1 := by
  unfold Kernel.signalAt
  split
  · exact h
  · simp only
    split
    · exact h
    · rename_i hl
      split
      · rename_i h0
        exact absurd h0 (hs.live _ hl).1
      · have hwake : ∀ t : Task, (wakeBlocked t).cr3 = t.cr3 ∧
            (t.state ≠ .dead → (wakeBlocked t).state ≠ .dead) := by
          intro t
          unfold wakeBlocked
          split
          · exact ⟨rfl, fun _ => nofun⟩
          · exact ⟨rfl, id⟩
        have hpost : Kept k (k.modTask pid.toNat fun t =>
            wakeBlocked { t with pending := t.pending ||| sigBit signo, exitCode := code }) :=
          .modTask k _ fun hl => ⟨(hwake _).2 hl, (hwake _).1⟩
        split
        · rename_i hgo
          refine .switchTo ?_
          rw [saveTask, modTask_tasks, if_neg hgo.1]
          exact hgo.2.2
        · exact hpost.right h

/-! ## New tasks -/

theorem freeTaskUser_cr3 (k : Kernel M) (i : Nat) : (k.freeTaskUser i).cr3 = k.cr3 := by
  unfold freeTaskUser
  split <;> rfl

theorem freeTaskKstack_cr3 (k : Kernel M) (i : Nat) : (k.freeTaskKstack i).cr3 = k.cr3 := by
  unfold freeTaskKstack
  split
  · rfl
  · simp only
    split <;> rfl

theorem freeTaskPml4_cr3 (k : Kernel M) (i : Nat) : (k.freeTaskPml4 i).cr3 = k.cr3 := by
  unfold freeTaskPml4
  split
  · rfl
  · simp only
    split <;> rfl

theorem takeSlot_cr3 (k : Kernel M) (i : Nat) : (k.takeSlot i).cr3 = k.cr3 := by
  unfold takeSlot
  split
  · rw [freeTaskPml4_cr3, freeTaskKstack_cr3, freeTaskUser_cr3]
  · rfl

theorem takeSlot_count (k : Kernel M) (i : Nat) : k.taskCount ≤ (k.takeSlot i).taskCount := by
  unfold takeSlot
  split
  · rw [((freeTaskUser_vacates i).trans ((freeTaskKstack_vacates i).1.trans (freeTaskPml4_vacates i))).count]
  · exact Nat.le_succ _

theorem Kept.newTask (hs : Shape k) {i : Nat} (hi : k.freeSlot = some i) (parent : Option Nat) (t : Task) :
    Kept k ((k.takeSlot i).spawnTask i parent t) := by
  have hk := takeSlot_taken hs hi
  have hdead : (k.tasks i).state = .dead := by
    rcases freeSlot_some hi with ⟨-, hr⟩ | ⟨rfl, -⟩
    · exact slotReusable_dead hr
    · exact (hs.fresh _ le_rfl).1
  refine ⟨hk.mode, fun hm => hk.current ?_, takeSlot_cr3 k i, takeSlot_count k i, fun n hl => ?_⟩
  · have := (hs.run hm).1
    omega
  · have hn : n ≠ i := by
      rintro rfl
      exact hl hdead
    have e : ((k.takeSlot i).spawnTask i parent t).tasks n = k.tasks n :=
      (Function.update_of_ne hn _ _).trans (hk.other n hn)
    rw [e]
    exact ⟨hl, rfl⟩

theorem Kept.schedAddUser (hs : Shape k) (rip rsp : UInt64) (kstackTop base cr3 : Nat) :
    Kept k (k.schedAddUser rip rsp kstackTop base cr3).1 := by
  rcases schedAddUser_cases k rip rsp kstackTop base cr3 with e | ⟨i, hi, -, e⟩ <;> rw [e]
  · exact .refl
  · exact ((Kept.newTask hs hi _ _).trans (.clearFds _ i)).trans (.forTo (fun j k => .setFd k i j _) _ _)

theorem OnlyMem.kept (h : OnlyMem k k') : Kept k k' := by
  rw [h.eq]
  exact .same rfl rfl rfl rfl rfl

theorem Kept.memDo (k : Kernel M) (op : SpaceOp) : Kept k (k.memDo op) := .same rfl rfl rfl rfl rfl

theorem Kept.userSpawn (hs : Shape k) (name arg : Name) (img : Option Image) :
    Kept k (k.userSpawn name arg img).1 := by
  unfold Kernel.userSpawn
  cases img with
  | none => exact .refl
  | some img =>
    simp only
    split
    · exact .memDo k _
    · rename_i kstack _
      have h1 : Kept k (k.memDo (.kalloc page2M)) := .memDo k _
      have hs1 : Shape (k.memDo (.kalloc page2M)) := hs.same rfl rfl rfl rfl rfl
      generalize k.memDo (.kalloc page2M) = k1 at h1 hs1
      split
      · exact h1.trans (.memDo k1 _)
      · rename_i cr3 _
        have h2 := h1.trans (.memDo k1 .clone)
        have hs2 : Shape (k1.memDo .clone) := hs1.same rfl rfl rfl rfl rfl
        generalize k1.memDo .clone = k2 at h2 hs2
        have hload := loadImage_mem (k := k2) cr3 img (name :: if arg = [] then [] else [arg])
        rcases hx : k2.loadImage cr3 img (name :: if arg = [] then [] else [arg]) with ⟨k3, _ | sp⟩ <;>
          rw [hx] at hload <;> simp only
        · exact (h2.trans hload.kept).trans (.memDo k3 _)
        · have hload : OnlyMem k2 k3 := hload
          have hs3 : Shape k3 := by
            rw [hload.eq]
            exact hs2.same rfl rfl rfl rfl rfl
          have h3 := (h2.trans hload.kept).trans
            (.schedAddUser hs3 img.entry (UInt64.ofNat sp) (kstackTopOf kstack) userBase cr3)
          rcases hy : k3.schedAddUser img.entry (UInt64.ofNat sp) (kstackTopOf kstack) userBase cr3
            with ⟨k4, _ | _⟩ <;> rw [hy] at h3
          · exact h3.trans (.memDo k4 _)
          · exact h3

theorem Kept.bind (k : Kernel M) (i j : Nat) (e : FdEntry) : Kept k ((k.dropFd i j).setFd i j e) :=
  (Kept.dropFd k i j).trans (.setFd _ i j e)

theorem Kept.bindPipeIf (k : Kernel M) (j : Nat) (kind : FdKind) (q : Option Nat) :
    Kept k (k.bindPipeIf j kind q).1 := by
  cases q with
  | none => exact .refl
  | some p =>
    change Kept k (k.schedFdBindPipe j kind p).1
    unfold schedFdBindPipe
    cases k.lastLive with
    | none => exact .refl
    | some i =>
      simp only [Option.elim]
      split
      · exact (Kept.bind k i j _).trans (.modPipe _ _ _)
      · exact .refl

theorem Kept.schedFdBindFile (k : Kernel M) (j : Nat) (path : Name) (off : Nat) :
    Kept k (k.schedFdBindFile j path off).1 := by
  unfold Kernel.schedFdBindFile
  cases k.lastLive with
  | none => exact .refl
  | some i =>
    simp only [Option.elim]
    split
    · exact .bind k i j _
    · exact .refl

theorem Kept.userRunFds (hs : Shape k) (p : Prog) (inPipe outPipe : Option Nat) :
    Kept k (k.userRunFds p inPipe outPipe).1 := by
  have hfs : Kept k (k.fsDo (lookupRootElf p.name)) := .fsDo k _
  have hs1 : Shape (k.fsDo (lookupRootElf p.name)) :=
    (progImage_goes (A := fun _ => True) (r := ⟨none, none, ∅⟩) p.name).shape hs
  have hspawn := hfs.trans (.userSpawn hs1 p.name p.arg (if p.name = [] then none else k.progImage p))
  unfold Kernel.userRunFds
  simp only
  rcases hx : (k.fsDo (lookupRootElf p.name)).userSpawn p.name p.arg (if p.name = [] then none
    else k.progImage p) with
    ⟨k1, _ | _⟩ <;> rw [hx] at hspawn <;> simp only
  · exact hspawn
  · have hfg : Kept k { k1 with fgSlot := k1.lastAdded } := hspawn.trans (.same rfl rfl rfl rfl rfl)
    have hin := hfg.trans (.bindPipeIf _ 0 .pipeR inPipe)
    rcases hy : Kernel.bindPipeIf { k1 with fgSlot := k1.lastAdded } 0 .pipeR inPipe
      with ⟨k2, _ | _⟩ <;> rw [hy] at hin <;> simp only
    · exact hin
    · exact hin.trans (.bindPipeIf k2 1 .pipeW outPipe)

theorem Kept.schedPipeUnused (k : Kernel M) (p : Nat) : Kept k (k.schedPipeUnused p) := by
  unfold Kernel.schedPipeUnused
  split
  · exact .freePipe k p
  · exact .refl

theorem userRunFds_shape (hs : Shape k) (p : Prog) (inPipe outPipe : Option Nat) :
    Shape (k.userRunFds p inPipe outPipe).1 :=
  (userRunFds_reaches (A := fun _ => True) (r := ⟨none, none, ∅⟩) p inPipe outPipe fun _ => trivial).shape hs

theorem Kept.userRunPipeline (hs : Shape k) (left right : Prog) :
    Kept k (k.userRunPipeline left right).1 := by
  unfold Kernel.userRunPipeline
  rcases allocPipe_cases k with e | ⟨p, phys, -, -, -, e⟩ <;> rw [e] <;> simp only
  · exact .refl
  · set k1 := (k.memDo (.kalloc pipeMinPhys)).modPipe p fun _ => { Pipe.unused with used := true, phys := phys }
    have h1 : Kept k k1 := .same rfl rfl rfl rfl rfl
    have hs1 : Shape k1 := hs.same rfl rfl rfl rfl rfl
    have hleft := h1.trans (.userRunFds hs1 left none (some p))
    have hs2 := userRunFds_shape hs1 left none (some p)
    rcases hx : k1.userRunFds left none (some p) with ⟨k2, _ | _⟩ <;> rw [hx] at hleft hs2 <;> simp only
    · exact hleft.trans (.schedPipeUnused k2 p)
    · have hright := hleft.trans (.userRunFds hs2 right (some p) none)
      rcases hy : k2.userRunFds right (some p) none with ⟨k3, _ | _⟩ <;> rw [hy] at hright <;> simp only
      · exact hright.trans (.schedPipeUnused k3 p)
      · exact hright

theorem Right.act (hs : Shape k) (h : Right k) (a : Act) : Right (k.act a) := by
  cases a with
  | tick =>
    have htick : Kept k { k with ticks := k.ticks + 1 } := .same rfl rfl rfl rfl rfl
    exact (htick.right h).schedOnTick
  | line l =>
    simp only [Kernel.act]
    split
    · have hin : Kept k { k with stdin := some l } := .same rfl rfl rfl rfl rfl
      exact (hin.trans (.schedWakeKbd _)).right h
    · exact h
  | ctrlC =>
    simp only [Kernel.act, schedSignalFg]
    cases k.fgSlot with
    | none => exact h
    | some i => exact h.signalAt hs _ _ _
  | kill pid => exact h.signalAt hs _ _ _
  | run p => exact (Kept.userRunFds hs p none none).right h
  | runFile p fd path off =>
    have hrun := Kept.userRunFds hs p none none
    simp only [Kernel.act]
    rcases hx : k.userRunFds p none none with ⟨k1, _ | _⟩ <;> rw [hx] at hrun <;> simp only
    · exact hrun.right h
    · exact (hrun.trans (.schedFdBindFile k1 fd path off)).right h
  | pipeline left right => exact (Kept.userRunPipeline hs left right).right h
  | shell c => exact (Kept.fsDo k _).right h
  | bootTask p =>
    have hs1 : Shape (k.fsDo (lookupRootElf p.name)) :=
      (progImage_goes (A := fun _ => True) (r := ⟨none, none, ∅⟩) p.name).shape hs
    exact ((Kept.fsDo k _).trans (.userSpawn hs1 p.name p.arg (k.progImage p))).right h
  | clearFg =>
    have hfg : Kept k { k with fgSlot := none } := .same rfl rfl rfl rfl rfl
    exact hfg.right h

theorem Right.acts (hs : Shape k) (h : Right k) (acts : List Act) : Right (acts.foldl Kernel.act k) := by
  induction acts generalizing k with
  | nil => exact h
  | cons a acts ih =>
    exact ih ((act_reaches (A := fun _ => True) (r := ⟨none, none, ∅⟩) trivial trivial
      (fun _ => trivial) rfl a).shape hs) (h.act hs a)

/-! ## Runs -/

omit [MemSys M] in
theorem Kept.enterCall (k : Kernel M) (f : Frame) (io : Io) : Kept k (k.enterCall f io) :=
  .same rfl rfl rfl rfl rfl

/-- A system call that is a `SYS_DATE` and fails. -/
def Event.DateFails (k : Kernel M) : Event → Prop
  | .syscall f io => k.mode = .user ∧ (k.enterCall f io).DateFails io
  | _ => False

theorem Right.step (hs : Shape k) (h : Right k) (e : Event) (hd : ¬ e.DateFails k) : Right (k.step e) := by
  cases e with
  | syscall f io =>
    simp only [Kernel.step]
    split
    · rename_i hm
      have hin : Kept k (k.enterCall f io) := .enterCall k f io
      have hs1 : Shape (k.enterCall f io) := hs.same rfl rfl rfl rfl rfl
      have hcall : Shape ((k.enterCall f io).userOnSyscall io) :=
        (userOnSyscall_reaches (A := fun _ => True) (r := ⟨none, none, ∅⟩) (k := k.enterCall f io) hm
          (trap_own (k := k) f) trivial trivial rfl rfl (fun _ => trivial) io).shape hs1
      exact .deliverPending (.userOnSyscall hs1.able hs1.stack (hin.right h) hcall fun hdate => hd
        ⟨hm, hdate⟩)
    · exact h
  | exception f vector error cr2 =>
    simp only [Kernel.step]
    split
    · have htrap : Kept k (k.trap f) := .same rfl rfl rfl rfl rfl
      unfold exceptionHandler
      split
      · simp only
        split
        · exact .deliverPending ((htrap.trans (.memDo _ _)).right h)
        · exact (Kept.same rfl rfl rfl rfl rfl).right .schedExit
      · exact fun hm => by cases hm
    · exact h
  | irq f pages errs acts =>
    simp only [Kernel.step]
    split
    · exact h
    · have htrap : Kept k (if k.mode = .user then k.trap f else k) := by
        split
        · exact .same rfl rfl rfl rfl rfl
        · exact .refl
      have hstrap : Shape (if k.mode = .user then k.trap f else k) := by
        split
        · exact hs.same rfl rfl rfl rfl rfl
        · exact hs
      generalize (if k.mode = .user then k.trap f else k) = k1 at htrap hstrap
      have hin : Kept k (k1.supply pages errs) := htrap.trans (.same rfl rfl rfl rfl rfl)
      have hs1 : Shape (k1.supply pages errs) := hstrap.same rfl rfl rfl rfl rfl
      exact .deliverPending ((hin.right h).acts hs1 acts)
  | store virt b =>
    simp only [Kernel.step]
    split
    · exact (Kept.memDo k _).right h
    · exact h
  | idle =>
    simp only [Kernel.step]
    split
    · rename_i hm
      exact .deliverPending
        (.pick (fun hu => by rw [show k.wakeSleepers.mode = k.mode from rfl, hm] at hu; cases hu) _)
    · exact h
  | enter =>
    simp only [Kernel.step]
    split
    · rename_i hgo
      exact .switchTo hgo.2.2
    · exact h

omit [MemSys M] in
theorem schedInit_right (m : M) (fs : Fs) : Right (schedInit m fs) := fun hm => by cases hm

/-- **Ring 3 goes on with the map of the task that goes on**, in runs in which no `SYS_DATE` fails. -/
theorem returns_right (h : ReachableBy (fun k e => ¬ e.DateFails k) m k) (hm : k.mode = .user) :
    k.cr3 = (k.tasks k.current).cr3 := by
  have hright : Right k := by
    clear hm
    induction h with
    | boot fs hc hp => exact schedInit_right m fs
    | step hk e he ih => exact ih.step hk.reachable.shape e he
  exact (hright hm).2

/-- A task that has forked. -/
def forker : Kernel Plenty := (twoTasks ⟨0⟩).step (callOf 13 0 0)

theorem forker_reachable : ReachableBy (fun k e => ¬ e.DateFails k) ⟨0⟩ forker := by
  have hboot : ReachableBy (fun k e => ¬ e.DateFails k) ⟨0⟩ (twoTasks (M := Plenty) ⟨0⟩) :=
    (ReachableBy.boot smallVolume rfl rfl).run (by simp [Event.DateFails])
  exact hboot.step _ fun hd => absurd hd.2.1 (by decide)

theorem returns_right_forker : forker.cr3 = (forker.tasks forker.current).cr3 :=
  returns_right forker_reachable (by decide +kernel)

/-- A task that has asked for the date without a buffer: it is answered -1 on the kernel's map. -/
def dateAsker : Kernel Plenty := (twoTasks ⟨0⟩).step (callOf 29 0 0)

theorem date_returns_wrong : Reachable ⟨0⟩ dateAsker ∧ dateAsker.mode = .user ∧
    dateAsker.cr3 ≠ (dateAsker.tasks dateAsker.current).cr3 :=
  ⟨(twoTasks_reachable _).step _, by decide +kernel⟩

end Kernel

end VampireOS
