import VampireOS.Sched.Brk
import VampireOS.Sched.Return

/-!
# Work on one task's memory (user.c:573-1590, sched.c)

`WorksOn d k k'`: from `k` to `k'` no task's memory is written but that on the tables `d`, nobody
gets other tables, nobody comes to life, and the processor stays where it is. Until it gives the
processor away, a system call is such work on the caller's own tables, whatever fails on the way.
-/

namespace VampireOS

open Lib

namespace Space

variable {s : Space} {r r' n : Nat} {op : SpaceOp}

theorem eager_other {A B : Nat → TaskMem} (hop : actor op = some r) (h : eager n A op = some B)
    (hne : r' ≠ r) :
    B r' = A r' := by
  have hupd : ∀ x : TaskMem, Function.update A r x r' = A r' := fun x => Function.update_of_ne hne x A
  cases op with
  | clone => cases hop
  | fork => cases hop
  | kalloc => cases hop
  | kfree => cases hop
  | cowBreak =>
    cases h
    rfl
  | map | unmap | teardown | release =>
    cases hop
    cases h
    apply hupd
  | protect | store | copyTo | munmap =>
    cases hop
    obtain ⟨x, -, rfl⟩ := Option.map_eq_some_iff.1 h
    apply hupd
  | mprotect va len prot =>
    cases hop
    simp only [eager] at h
    split at h
    · cases h
      apply hupd
    · cases h

/-- An operation on one task's tables leaves the set of tables alone, unless it gives them back. -/
theorem step_roots (hop : actor op = some r) :
    (s.step op).1.roots = s.roots ∨ (s.step op).1.roots = s.roots.erase r ∧ op = .release r := by
  cases op with
  | clone => cases hop
  | fork => cases hop
  | kalloc => cases hop
  | kfree => cases hop
  | release =>
    cases hop
    rw [step, onTask]
    split
    · exact .inr ⟨rfl, rfl⟩
    · exact .inl rfl
  | map r virt minPhys =>
    left
    rw [step, onTask]
    split
    · exact mapFresh_roots s r virt minPhys
    · rfl
  | teardown =>
    left
    rw [step, onTask]
    split <;> rfl
  | unmap | protect | cowBreak | store | copyTo | mprotect | munmap =>
    left
    rw [step, onTask]
    split
    · exact answer_roots _
    · rfl

/-- **An operation spares everybody but its actor.** -/
theorem Spares.act (hop : actor op = some r) : Spares r s (s.step op).1 := by
  have hroots := step_roots (s := s) hop
  refine ⟨fun hi => (step_ok hi op).inv, ?_, fun hi r' hr' hne => ?_⟩
  · rcases hroots with e | ⟨e, -⟩ <;> rw [e]
    exact Finset.erase_subset _ _
  · have hmem : r' ∈ (s.step op).1.roots := by
      rcases hroots with e | ⟨e, -⟩ <;> rw [e]
      · exact hr'
      · exact Finset.mem_erase.2 ⟨hne, hr'⟩
    refine ⟨hmem, ?_⟩
    have hok := step_ok hi op
    cases ha : (s.step op).2 with
    | none =>
      apply hok.failure ha r' hmem
      rw [hop]
      intro he
      exact hne (Option.some.inj he).symm
    | some n =>
      obtain ⟨A, hA, hmems⟩ := hok.success n ha
      rw [hmems r' hmem]
      exact eager_other hop hA hne

theorem Spares.kalloc {d : Nat} (minPhys : Nat) : Spares d s (s.step (.kalloc minPhys)).1 := by
  have hroots : (s.step (.kalloc minPhys)).1.roots = s.roots := by
    rw [step, kernAlloc]
    simp only
    split <;> rfl
  refine ⟨fun hi => (kalloc_ok hi minPhys).inv, hroots.subset, fun _ r hr _ => ⟨hroots ▸ hr, ?_⟩⟩
  rw [step]
  unfold mems
  rw [kernAlloc_vm]

end Space

namespace Kernel

variable {k k' k'' : Kernel Space} {d : Nat}

/-- Only the memory on the tables `d` is written. -/
structure WorksOn (d : Nat) (k k' : Kernel Space) : Prop where
  mem : Space.Spares d k.mem k'.mem
  roots : k.mem.roots ⊆ k'.mem.roots
  task : ∀ i, (k'.tasks i).cr3 = (k.tasks i).cr3 ∧ ((k.tasks i).state = .dead → (k'.tasks i).state = .dead)
  hist : k'.hist.uid = k.hist.uid ∧ k'.hist.born = k.hist.born
  count : k'.taskCount = k.taskCount
  current : k'.current = k.current
  mode : k'.mode = k.mode
  cr3 : k'.cr3 = k.cr3 ∨ k'.cr3 = pml4Phys ∨ k'.cr3 = k.currentCr3

theorem WorksOn.currentCr3 (h : WorksOn d k k') : k'.currentCr3 = k.currentCr3 := by
  unfold Kernel.currentCr3
  rw [h.count, h.current, (h.task k.current).1]

/-- Neither memory nor the task table has changed. -/
theorem WorksOn.same (hm : k'.mem = k.mem) (ht : k'.tasks = k.tasks)
    (hh : k'.hist.uid = k.hist.uid ∧ k'.hist.born = k.hist.born) (hn : k'.taskCount = k.taskCount)
    (hc : k'.current = k.current) (hmo : k'.mode = k.mode) (h3 : k'.cr3 = k.cr3) :
    WorksOn d k k' where
  mem := by
    rw [hm]
    exact .refl
  roots := by rw [hm]
  task i := by
    rw [ht]
    exact ⟨rfl, id⟩
  hist := hh
  count := hn
  current := hc
  mode := hmo
  cr3 := .inl h3

theorem WorksOn.refl : WorksOn d k k := .same rfl rfl ⟨rfl, rfl⟩ rfl rfl rfl rfl

theorem WorksOn.trans (h : WorksOn d k k') (h' : WorksOn d k' k'') : WorksOn d k k'' where
  mem := h.mem.trans h'.mem
  roots := h.roots.trans h'.roots
  task i := ⟨(h'.task i).1.trans (h.task i).1, fun hd => (h'.task i).2 ((h.task i).2 hd)⟩
  hist := ⟨h'.hist.1.trans h.hist.1, h'.hist.2.trans h.hist.2⟩
  count := h'.count.trans h.count
  current := h'.current.trans h.current
  mode := h'.mode.trans h.mode
  cr3 := by
    rcases h'.cr3 with e | e | e
    · rw [e]
      exact h.cr3
    · exact .inr (.inl e)
    · exact .inr (.inr (e.trans h.currentCr3))

theorem WorksOn.forTo {f : Nat → Kernel Space → Kernel Space} (hf : ∀ j k, WorksOn d k (f j k))
    (n : Nat) (k : Kernel Space) :
    WorksOn d k (forTo f n k) :=
  forTo_inv (fun _ k' => WorksOn d k k') .refl fun j k' _ h => h.trans (hf j k')

/-- Tasks keep their tables, and the dead stay dead. -/
theorem WorksOn.tasks {f : Nat → Task}
    (hf : ∀ i, (f i).cr3 = (k.tasks i).cr3 ∧ ((k.tasks i).state = .dead → (f i).state = .dead)) :
    WorksOn d k { k with tasks := f } :=
  ⟨.refl, subset_rfl, hf, ⟨rfl, rfl⟩, rfl, rfl, rfl, .inl rfl⟩

theorem WorksOn.modTask (i : Nat) {f : Task → Task}
    (hf : (f (k.tasks i)).cr3 = (k.tasks i).cr3 ∧
      ((k.tasks i).state = .dead → (f (k.tasks i)).state = .dead)) :
    WorksOn d k (k.modTask i f) := by
  apply WorksOn.tasks
  intro n
  by_cases hn : n = i
  · subst hn
    simpa using hf
  · simp [hn]

theorem WorksOn.memDo {op : SpaceOp} (hop : Space.actor op = some d) (hne : op ≠ .release d) :
    WorksOn d k (k.memDo op) := by
  refine ⟨.act hop, ?_, fun _ => ⟨rfl, id⟩, ⟨rfl, rfl⟩, rfl, rfl, rfl, .inl rfl⟩
  rcases Space.step_roots (s := k.mem) hop with e | ⟨-, e⟩
  · exact e.symm.subset
  · exact absurd e hne

theorem WorksOn.kalloc (minPhys : Nat) : WorksOn d k (k.memDo (.kalloc minPhys)) := by
  refine ⟨.kalloc minPhys, ?_, fun _ => ⟨rfl, id⟩, ⟨rfl, rfl⟩, rfl, rfl, rfl, .inl rfl⟩
  rw [memDo_space, Space.step, Space.kernAlloc]
  simp only
  split <;> exact subset_rfl

theorem WorksOn.kfree (f : Nat) : WorksOn d k (k.memDo (.kfree f)) := by
  refine ⟨.kfree f, ?_, fun _ => ⟨rfl, id⟩, ⟨rfl, rfl⟩, rfl, rfl, rfl, .inl rfl⟩
  rw [memDo_space, Space.step, Space.kernFree]
  split <;> exact subset_rfl

theorem WorksOn.setCr3 : WorksOn d k (k.setCr3 pml4Phys) :=
  ⟨.refl, subset_rfl, fun _ => ⟨rfl, id⟩, ⟨rfl, rfl⟩, rfl, rfl, rfl, .inr (.inl rfl)⟩

theorem WorksOn.restoreCr3 : WorksOn d k k.restoreCr3 :=
  ⟨.refl, subset_rfl, fun _ => ⟨rfl, id⟩, ⟨rfl, rfl⟩, rfl, rfl, rfl, .inr (.inr rfl)⟩

theorem WorksOn.setRax (v : UInt64) : WorksOn d k (k.setRax v) := .same rfl rfl ⟨rfl, rfl⟩ rfl rfl rfl rfl

theorem WorksOn.setAnswer (v : Option Nat) : WorksOn d k (k.setAnswer v) := .setRax _

theorem WorksOn.rewind : WorksOn d k k.rewind := .same rfl rfl ⟨rfl, rfl⟩ rfl rfl rfl rfl

theorem WorksOn.fsDo {α : Type} (m : FsM α) : WorksOn d k (k.fsDo m) :=
  .same rfl rfl ⟨rfl, rfl⟩ rfl rfl rfl rfl

/-! ## Descriptors and pipes -/

theorem WorksOn.setFd (i j : Nat) (e : FdEntry) : WorksOn d k (k.setFd i j e) := .modTask i ⟨rfl, id⟩

theorem WorksOn.modPipe (p : Nat) (u : Pipe → Pipe) : WorksOn d k (k.modPipe p u) :=
  .same rfl rfl ⟨rfl, rfl⟩ rfl rfl rfl rfl

theorem WorksOn.wake (p : Nat) : WorksOn d k (k.wakePipeWaiters p) := by
  apply WorksOn.tasks
  intro i
  have hmild := wakePipeWaiters_mild k p i
  refine ⟨?_, hmild.toCalm.dead.2⟩
  split
  · unfold wakeWaiter
    split <;> rfl
  · rfl

theorem WorksOn.freePipe (p : Nat) : WorksOn d k (k.freePipe p) := by
  unfold Kernel.freePipe
  simp only
  split
  · exact (WorksOn.kfree _).trans (.modPipe p _)
  · exact .modPipe p _

theorem WorksOn.dropEnd (c : FdKind) (p : Nat) : WorksOn d k (k.dropEnd c p) := by
  have hwake : WorksOn d k ((k.modPipe p (minusRef c)).wakePipeWaiters p) :=
    (WorksOn.modPipe p _).trans (.wake p)
  unfold Kernel.dropEnd
  simp only
  split
  · exact hwake.trans (.freePipe p)
  · exact hwake

theorem WorksOn.dropFd (i j : Nat) : WorksOn d k (k.dropFd i j) := by
  rcases dropFd_cases k i j with ⟨-, e⟩ | ⟨-, -, e⟩ | ⟨p, -, -, -, e⟩ <;> rw [e]
  · exact .refl
  · exact .setFd i j _
  · exact (WorksOn.dropEnd _ p).trans (.setFd i j _)

theorem WorksOn.clearFds (i : Nat) : WorksOn d k (k.clearFds i) := .forTo (fun j _ => .dropFd i j) _ k

theorem WorksOn.linkFd (i j : Nat) (e : FdEntry) : WorksOn d k (k.linkFd i j e).1 := by
  unfold Kernel.linkFd
  split
  · exact .setFd i j e
  · cases k.pipeOf e with
    | none => exact .setFd i j _
    | some p => exact (WorksOn.setFd i j e).trans (.modPipe p _)

theorem WorksOn.inheritFds (dst src : Nat) : WorksOn d k (k.inheritFds dst src) :=
  .forTo (fun j _ => .linkFd dst j _) _ k

theorem WorksOn.bindConsoleStd (i : Nat) : WorksOn d k (k.bindConsoleStd i) :=
  .forTo (fun j _ => .setFd i j _) _ k

theorem WorksOn.schedFdOpen (path : List UInt8) : WorksOn d k (k.schedFdOpen path).1 := by
  unfold Kernel.schedFdOpen
  split
  · exact .refl
  · cases freeFd (k.tasks k.current) 0 with
    | none => exact .refl
    | some j => exact .setFd _ j _

theorem WorksOn.schedFdClose (fd : Int) : WorksOn d k (k.schedFdClose fd).1 := by
  unfold Kernel.schedFdClose
  split
  · exact .dropFd _ _
  · exact .refl

theorem WorksOn.schedFdDup2 (oldfd newfd : Int) : WorksOn d k (k.schedFdDup2 oldfd newfd).1 := by
  unfold Kernel.schedFdDup2
  split
  · split
    · exact .refl
    · exact (WorksOn.dropFd _ _).trans (.linkFd _ _ _)
  · exact .refl

theorem WorksOn.schedFdLseek (fd : Int) (off : Nat) : WorksOn d k (k.schedFdLseek fd off).1 := by
  unfold Kernel.schedFdLseek
  cases k.fdAt fd with
  | none => exact .refl
  | some e =>
    simp only [Option.elim]
    split
    · exact .setFd _ _ _
    · exact .refl

theorem WorksOn.allocPipe : WorksOn d k k.allocPipe.1 := by
  rcases allocPipe_cases k with e | ⟨p, phys, -, -, -, e⟩ <;> rw [e]
  · exact .refl
  · have hpage : WorksOn d k (k.memDo (.kalloc pipeMinPhys)) := .kalloc pipeMinPhys
    simp only
    exact hpage.trans (.modPipe p _)

theorem WorksOn.schedPipe : WorksOn d k k.schedPipe.1 := by
  have halloc := WorksOn.allocPipe (d := d) (k := k)
  unfold Kernel.schedPipe
  split
  · exact .refl
  · split
    · exact .refl
    · rcases hx : k.allocPipe with ⟨k1, _ | p⟩ <;> rw [hx] at halloc
      · exact halloc
      · exact ((halloc.trans (.modPipe p _)).trans (.setFd _ _ _)).trans (.setFd _ _ _)

theorem WorksOn.schedPipeUnused (p : Nat) : WorksOn d k (k.schedPipeUnused p) := by
  unfold Kernel.schedPipeUnused
  split
  · exact .freePipe p
  · exact .refl

theorem WorksOn.addRef (c : FdKind) (p : Nat) : WorksOn d k (k.addRef c p) := .modPipe p _

theorem WorksOn.bindPipeIf (j : Nat) (c : FdKind) (q : Option Nat) : WorksOn d k (k.bindPipeIf j c q).1 := by
  cases q with
  | none => exact .refl
  | some p =>
    change WorksOn d k (k.schedFdBindPipe j c p).1
    unfold schedFdBindPipe
    cases k.lastLive with
    | none => exact .refl
    | some i =>
      simp only [Option.elim]
      split
      · exact ((WorksOn.dropFd i j).trans (.setFd i j _)).trans (.addRef c p)
      · exact .refl

theorem WorksOn.schedFdBindFile (j : Nat) (path : Name) (off : Nat) :
    WorksOn d k (k.schedFdBindFile j path off).1 := by
  unfold Kernel.schedFdBindFile
  cases k.lastLive with
  | none => exact .refl
  | some i =>
    simp only [Option.elim]
    split
    · exact (WorksOn.dropFd i j).trans (.setFd i j _)
    · exact .refl

theorem WorksOn.schedPipeRead (fd : Int) (n : Nat) : WorksOn d k (k.schedPipeRead fd n).1 := by
  rcases schedPipeRead_cases k fd n with e | ⟨p, u, -, e, -⟩ <;> rw [e]
  · exact .refl
  · exact (WorksOn.modPipe p u).trans (.wake p)

theorem WorksOn.schedPipeWrite (fd : Int) (src : List UInt8) : WorksOn d k (k.schedPipeWrite fd src).1 := by
  rcases schedPipeWrite_cases k fd src with e | ⟨p, u, -, e, -⟩ <;> rw [e]
  · exact .refl
  · exact (WorksOn.modPipe p u).trans (.wake p)

/-! ## Copies to the caller -/

theorem WorksOn.copyToUser (hd : k.currentCr3 = d) (dst : UInt64) (src : List UInt8) :
    WorksOn d k (k.copyToUser dst src).1 := by
  unfold Kernel.copyToUser
  split
  · exact .refl
  · rw [hd]
    exact .memDo rfl (fun e => by cases e)

theorem WorksOn.pushUserU64 (va v : UInt64) : WorksOn d k (k.pushUserU64 d va v).1 := by
  unfold Kernel.pushUserU64
  split
  · exact .refl
  · exact .memDo rfl (fun e => by cases e)

theorem WorksOn.answerBytes (hd : k.currentCr3 = d) (dst : UInt64) (src : List UInt8) :
    WorksOn d k (k.answerBytes dst src) :=
  (WorksOn.copyToUser hd dst src).trans (.setAnswer _)

theorem WorksOn.readDone (hd : k.currentCr3 = d) (fd : Int) (data : Bytes) (off got : Nat) :
    WorksOn d k (k.readDone fd data off got) := by
  have hcopy := WorksOn.copyToUser hd k.frame.rsi ((List.range got).map fun i => data (off + i))
  unfold Kernel.readDone
  simp only
  split
  · refine .trans ?_ (.setAnswer _)
    split
    · exact hcopy.trans (.schedFdLseek _ _)
    · exact hcopy
  · exact hcopy.trans (.setRax _)

theorem WorksOn.statDone (hd : k.currentCr3 = d) (st : Nat × Nat × Bool) : WorksOn d k (k.statDone st) :=
  (WorksOn.copyToUser hd _ _).trans (.setRax _)

theorem WorksOn.openDone (path : Name) (len : Nat) : WorksOn d k (k.openDone path len) := by
  have hopen := WorksOn.schedFdOpen (d := d) (k := k) path
  unfold Kernel.openDone
  simp only
  refine .trans ?_ (.setAnswer _)
  cases (k.schedFdOpen path).2 with
  | none => exact hopen
  | some fd =>
    simp only [Option.elim]
    split
    · exact hopen.trans (.schedFdLseek _ _)
    · exact hopen

theorem WorksOn.chdirDone (cl : Nat) (pwd : Name) : WorksOn d k (k.chdirDone cl pwd) := by
  have hmod : WorksOn d k
      (k.modTask k.current fun t => { t with cwd := cl, cwdPath := copyCwdPath pwd }) :=
      .modTask _ ⟨rfl, id⟩
  exact (hmod.trans (.setRax 0)).trans .restoreCr3

/-! ## Loading and mapping -/

theorem WorksOn.loadImage (img : Image) (args : List Name) : WorksOn d k (k.loadImage d img args).1 := by
  have hmap : ∀ (k : Kernel Space) va, WorksOn d k (k.memDo (.map d va page2M)) :=
    fun _ _ => .memDo rfl (fun e => by cases e)
  have hcopy : ∀ (k : Kernel Space) va b, WorksOn d k (k.memDo (.copyTo d va b)) :=
    fun _ _ _ => .memDo rfl (fun e => by cases e)
  unfold Kernel.loadImage
  simp only
  split
  · apply hmap
  · split
    · exact (hmap _ _).trans (hmap _ _)
    · split
      · exact (((hmap _ _).trans (hmap _ _)).trans (hcopy _ _ _)).trans (hcopy _ _ _)
      · exact (((hmap _ _).trans (hmap _ _)).trans (hcopy _ _ _)).trans (hcopy _ _ _)

theorem WorksOn.schedResetCurrent (rip rsp : UInt64) (base : Nat) :
    WorksOn d k (k.schedResetCurrent rip rsp base) := by
  unfold Kernel.schedResetCurrent
  simp only
  split
  · exact .refl
  · rename_i hgo
    simp only [not_or] at hgo
    obtain ⟨hcount, -, -, -, hlive, hcr3, -⟩ := hgo
    set f : Task → Task := fun t =>
      { t with
        regs := .start rip rsp, userBase := base, brk := base + 2 * pageSize, state := .ready, wakeTick := 0
        pipeWait := none, pending := 0, handlerInt := 0, handlerTerm := 0 } with hf
    have hmod : WorksOn d k (k.modTask k.current f) := .modTask _ ⟨rfl, fun h => absurd h hlive⟩
    refine { hmod with cr3 := .inr (.inr ?_) }
    unfold Kernel.currentCr3
    rw [if_neg (not_or.2 ⟨hcount, hcr3⟩), modTask_current, modTask_tasks, if_pos rfl]

theorem WorksOn.userExecCurrent (hd : k.currentCr3 = d) (name : Name) (img : Option Image) :
    WorksOn d k (k.userExecCurrent name img).1 := by
  have hdown : ∀ k : Kernel Space, WorksOn d k (k.memDo (.teardown d)) :=
    fun _ => .memDo rfl (fun e => by cases e)
  unfold Kernel.userExecCurrent
  split
  · exact .refl
  · cases img with
    | none => exact .refl
    | some img =>
      simp only [hd]
      have hload := (hdown k).trans (.loadImage img [name])
      rcases hx : (k.memDo (.teardown d)).loadImage d img [name] with ⟨k1, _ | sp⟩ <;> rw [hx] at hload
      · exact hload.trans (hdown k1)
      · exact hload.trans (.schedResetCurrent _ _ _)

theorem WorksOn.mapPages (va n : Nat) : WorksOn d k (mapPages d va n k).1 := by
  refine loopTo_keeps (fun _ k' => WorksOn d k k') (X := fun k' => WorksOn d k k') .refl
    (fun _ h => h) fun i k' _ h => ?_
  have hmap : WorksOn d k (k'.memDo (.map d (va + i * pageSize) page2M)) :=
    h.trans (.memDo rfl (fun e => by cases e))
  have hundo : ∀ (k : Kernel Space) va, WorksOn d k (k.memDo (.unmap d va)) :=
    fun _ _ => .memDo rfl (fun e => by cases e)
  simp only
  split
  · exact ⟨fun _ => hmap, nofun⟩
  · exact ⟨nofun, fun _ => hmap.trans (.forTo (fun j k => hundo k _) i _)⟩

theorem WorksOn.unmapPages (va n : Nat) : WorksOn d k (unmapPages d va n k).1 := by
  refine loopTo_keeps (fun _ k' => WorksOn d k k') (X := fun k' => WorksOn d k k') .refl
    (fun _ h => h) fun i k' _ h => ?_
  have hunmap : WorksOn d k (k'.memDo (.unmap d (va + i * pageSize))) :=
    h.trans (.memDo rfl (fun e => by cases e))
  exact ⟨fun _ => hunmap, fun _ => hunmap⟩

theorem WorksOn.userBrk (hd : k.currentCr3 = d) (want : Nat) : WorksOn d k (k.userBrk want).1 := by
  have hpages : ∀ old, WorksOn d k (if pageUp want > pageUp old then Kernel.mapPages d (pageUp old)
    ((pageUp want - pageUp old) / pageSize) k
      else Kernel.unmapPages d (pageUp want) ((pageUp old - pageUp want) / pageSize) k).1 := by
    intro old
    split
    · exact .mapPages _ _
    · exact .unmapPages _ _
  have hset : ∀ res : Kernel Space × Bool, WorksOn d k res.1 →
      WorksOn d k (if res.2 then (res.1.modTask res.1.current fun t => { t with brk := want },
        some want) else (res.1, none)).1 := by
    intro res h
    split
    · simp only
      exact h.trans (.modTask _ ⟨rfl, id⟩)
    · exact h
  unfold Kernel.userBrk
  simp only [hd]
  split
  · exact .refl
  · split
    · exact .refl
    · split
      · exact .refl
      · exact hset _ (hpages _)

theorem WorksOn.userMmap (hd : k.currentCr3 = d) (hint len : Nat) (fd : Int) :
    WorksOn d k (k.userMmap hint len fd).1 := by
  unfold Kernel.userMmap
  simp only [hd]
  split
  · exact .refl
  · split
    · exact .refl
    · split
      · exact .refl
      · split
        · exact .mapPages _ _
        · rename_i path _
          have hpages : ∀ n, WorksOn d k (Kernel.mapPages d hint n (k.fsDo (k.inCwd (Fs.fsLookup path)))).1 :=
            fun n => (WorksOn.fsDo _).trans (.mapPages hint n)
          split
          · exact .fsDo _
          · split
            · exact (hpages _).trans (.memDo rfl (fun e => by cases e))
            · exact hpages _

/-! ## The calls that keep the processor -/

theorem WorksOn.answering {α : Type} {m : FsM α} {f : Kernel Space → α → Kernel Space}
    (hf : ∀ a, WorksOn d (k.fsDo m) (f (k.fsDo m) a)) : WorksOn d k (k.answering m f) := by
  unfold Kernel.answering
  split
  · exact ((WorksOn.fsDo m).trans (.setRax _)).trans .restoreCr3
  · exact (WorksOn.fsDo m).trans (hf _)

theorem WorksOn.writeFile (fd : Int) (path : Name) (want : Nat) : WorksOn d k (k.writeFile fd path want) := by
  unfold Kernel.writeFile
  split
  · exact .setRax _
  · split
    · exact .setRax _
    · simp only
      have hfs : ∀ {α : Type} (m : FsM α), WorksOn d k ((k.setCr3 pml4Phys).fsDo m) :=
        fun m => WorksOn.setCr3.trans (.fsDo m)
      split
      · exact (((hfs _).trans (.schedFdLseek fd _)).trans (.setAnswer _)).trans .restoreCr3
      · exact ((hfs _).trans (.setRax _)).trans .restoreCr3

theorem WorksOn.writeConsole (want : Nat) : WorksOn d k (k.writeConsole want) := by
  unfold Kernel.writeConsole
  split
  · exact .setRax _
  · exact (WorksOn.setCr3.trans (.setAnswer _)).trans .restoreCr3

theorem WorksOn.readFile (hd : k.currentCr3 = d) (fd : Int) (path : Name) (want : Nat) :
    WorksOn d k (k.readFile fd path want) := by
  unfold Kernel.readFile
  simp only
  refine WorksOn.setCr3.trans (.answering fun a => ?_)
  refine WorksOn.restoreCr3.trans (.readDone ?_ fd _ _ _)
  exact hd

theorem WorksOn.sysReaddir (hd : k.currentCr3 = d) : WorksOn d k k.sysReaddir := by
  unfold Kernel.sysReaddir
  simp only
  refine WorksOn.setCr3.trans (.answering fun a => ?_)
  refine WorksOn.restoreCr3.trans (.answerBytes ?_ _ _)
  exact hd

theorem WorksOn.sysOpen : WorksOn d k k.sysOpen := by
  unfold Kernel.sysOpen
  split
  · exact .setRax _
  · simp only
    refine WorksOn.setCr3.trans (.answering fun a => ?_)
    exact (WorksOn.openDone _ _).trans .restoreCr3

theorem WorksOn.sysStat (hd : k.currentCr3 = d) : WorksOn d k k.sysStat := by
  unfold Kernel.sysStat
  split
  · exact .setRax _
  · simp only
    refine WorksOn.setCr3.trans (.answering fun a => ?_)
    refine WorksOn.restoreCr3.trans (.statDone ?_ _)
    exact hd

theorem WorksOn.sysGetcwd (hd : k.currentCr3 = d) : WorksOn d k k.sysGetcwd := by
  unfold Kernel.sysGetcwd
  simp only
  split
  · exact .setRax _
  · split
    · refine (WorksOn.setCr3.trans .restoreCr3).trans (.answerBytes ?_ _ _)
      exact hd
    · exact (WorksOn.setCr3.trans (.setRax _)).trans .restoreCr3

theorem WorksOn.sysChdir : WorksOn d k k.sysChdir := by
  unfold Kernel.sysChdir
  split
  · exact .setRax _
  · simp only
    exact WorksOn.setCr3.trans (.answering fun a => .chdirDone _ _)

theorem WorksOn.sysPipe (hd : k.currentCr3 = d) : WorksOn d k k.sysPipe := by
  have hpipe := WorksOn.schedPipe (d := d) (k := k)
  unfold Kernel.sysPipe
  rcases hx : k.schedPipe with ⟨k1, _ | ⟨r, w⟩⟩ <;> rw [hx] at hpipe
  · exact hpipe.trans (.setRax _)
  · simp only
    have hcopy := hpipe.trans (.copyToUser (hpipe.currentCr3.trans hd) k1.frame.rdi
      ((bytes64 (UInt64.ofNat r)).take 4 ++ (bytes64 (UInt64.ofNat w)).take 4))
    split
    · exact hcopy.trans (.setRax _)
    · exact ((hcopy.trans (.schedFdClose _)).trans (.schedFdClose _)).trans (.setRax _)

theorem WorksOn.sysDate (hd : k.currentCr3 = d) (io : Io) : WorksOn d k (k.sysDate io) := by
  unfold Kernel.sysDate
  split
  · exact .setRax _
  · simp only
    have hcopy := WorksOn.copyToUser hd k.frame.rdi io.date
    split
    · exact (hcopy.trans (.setAnswer _)).trans .restoreCr3
    · exact hcopy.trans (.setRax _)

theorem WorksOn.sysFbinfo (hd : k.currentCr3 = d) (io : Io) : WorksOn d k (k.sysFbinfo io) := by
  unfold Kernel.sysFbinfo
  split
  · exact (WorksOn.setRax _).trans .restoreCr3
  · simp only
    exact ((WorksOn.copyToUser hd _ _).trans (.setRax _)).trans .restoreCr3

theorem WorksOn.schedSigaction : WorksOn d k k.schedSigaction := by
  unfold Kernel.schedSigaction
  simp only
  split
  · exact .setRax _
  · split
    · exact .setRax _
    · refine .trans (.modTask _ ?_) (.setRax _)
      rw [setSigHandler_eq]
      exact ⟨rfl, id⟩

end Kernel

end VampireOS
