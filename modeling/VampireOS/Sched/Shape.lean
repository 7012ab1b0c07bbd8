import VampireOS.Sched.Moves

/-!
# The shape of the tables

`Shape` is what every move keeps and every other invariant leans on: the slots beyond `task_count` are as
`sched_init` left them, a dead slot has no descriptors, a live task has a page table and is not reaped,
in ring 3 the current task is READY, and the kernel's path fits its buffer.
-/

namespace VampireOS

open Lib

theorem FdEntry.Like.endOf {e e' : FdEntry} (h : FdEntry.Like e e') : e'.endOf = e.endOf := by
  unfold FdEntry.endOf
  rw [h.1, h.2.1, h.2.2]

@[simp] theorem FdEntry.endOf_empty : FdEntry.empty.endOf = none := rfl

theorem FdEntry.endOf_some {e : FdEntry} {c : FdKind} {p : Nat} :
    e.endOf = some (c, p) ↔ e.used = true ∧ e.kind = c ∧ c.isPipe = true ∧ e.pipe = some p := by
  unfold FdEntry.endOf
  constructor
  · intro h
    split at h
    · rename_i hu
      rw [Bool.and_eq_true] at hu
      obtain ⟨q, hq, he⟩ := Option.map_eq_some_iff.1 h
      cases he
      exact ⟨hu.1, rfl, hu.2, hq⟩
    · cases h
  · rintro ⟨h1, rfl, h2, h3⟩
    simp [h1, h2, h3]

namespace Kernel

variable {M : Type}

/-! ## Waking -/

@[simp] theorem wakePipeWaiters_tasks (k : Kernel M) (p i : Nat) : (k.wakePipeWaiters p).tasks i =
    if i < k.taskCount then wakeWaiter p (k.tasks i) else k.tasks i := rfl
@[simp] theorem wakePipeWaiters_pipes (k : Kernel M) (p : Nat) : (k.wakePipeWaiters p).pipes = k.pipes := rfl
@[simp] theorem wakePipeWaiters_taskCount (k : Kernel M) (p : Nat) :
    (k.wakePipeWaiters p).taskCount = k.taskCount := rfl
@[simp] theorem wakePipeWaiters_current (k : Kernel M) (p : Nat) :
    (k.wakePipeWaiters p).current = k.current := rfl
@[simp] theorem wakePipeWaiters_mode (k : Kernel M) (p : Nat) : (k.wakePipeWaiters p).mode = k.mode := rfl
@[simp] theorem wakePipeWaiters_hist (k : Kernel M) (p : Nat) : (k.wakePipeWaiters p).hist = k.hist := rfl
@[simp] theorem wakePipeWaiters_fs (k : Kernel M) (p : Nat) : (k.wakePipeWaiters p).fs = k.fs := rfl
@[simp] theorem wakePipeWaiters_mem (k : Kernel M) (p : Nat) : (k.wakePipeWaiters p).mem = k.mem := rfl

theorem wakeWaiter_mild (p : Nat) (t : Task) : Mild t (wakeWaiter p t) := by
  unfold wakeWaiter
  split
  · rename_i h
    exact {
      toCalm := { Calm.refl t with
        state := .inr ⟨by rw [h.1]; rfl, rfl⟩, waitPid := nofun, pipeWait := nofun }
      sameRegs := rfl
      samePending := rfl
      stays := fun hw => by rw [h.1] at hw; cases hw }
  · exact Mild.refl t

theorem wakePipeWaiters_mild (k : Kernel M) (p i : Nat) :
    Mild (k.tasks i) ((k.wakePipeWaiters p).tasks i) := by
  rw [wakePipeWaiters_tasks]
  split
  · exact wakeWaiter_mild p _
  · exact Mild.refl _

theorem Calm.ready {t t' : Task} (h : Calm t t') (hr : t.state = .ready) : t'.state = .ready := by
  rcases h.state with hs | ⟨-, hs⟩
  · rw [hs, hr]
  · exact hs

theorem Calm.dead {t t' : Task} (h : Calm t t') : t'.state = .dead ↔ t.state = .dead := by
  rcases h.state with hs | ⟨hb, hs⟩
  · rw [hs]
  · rw [hs]
    constructor
    · nofun
    · intro hd
      rw [hd] at hb
      cases hb

/-- A task that does not run after the move was in the same state before. -/
theorem Calm.back {t t' : Task} (h : Calm t t') (hr : t'.state ≠ .ready) : t.state = t'.state := by
  rcases h.state with hs | ⟨-, hs⟩
  · exact hs.symm
  · exact absurd hs hr

/-- What a running task notes before it blocks. -/
theorem calm_pipeWait {t : Task} (hr : t.state = .ready) (p : Option Nat) : Calm t { t with pipeWait := p } :=
  { Calm.refl t with pipeWait := fun hs => by rw [hr] at hs; cases hs }

theorem calm_waitPid {t : Task} (hr : t.state = .ready) (w : Nat) : Calm t { t with waitPid := w } :=
  { Calm.refl t with waitPid := fun hs => by rw [hr] at hs; cases hs }

/-! ## Dropping a descriptor -/

theorem pipeOf_some {k : Kernel M} {e : FdEntry} {p : Nat} (h : k.pipeOf e = some p) :
    e.kind.isPipe = true ∧ e.pipe = some p ∧ p < pipeMax ∧ (k.pipes p).used = true := by
  unfold pipeOf at h
  split at h
  · rename_i hk
    obtain ⟨h1, h2⟩ := Option.filter_eq_some_iff.1 h
    rw [Bool.and_eq_true, decide_eq_true_eq] at h2
    exact ⟨hk, h1, h2.1, h2.2⟩
  · cases h

section
variable [MemSys M]

theorem freePipe_tasks (k : Kernel M) (p : Nat) : (k.freePipe p).tasks = k.tasks := by
  unfold freePipe; split <;> rfl

theorem freePipe_pipes (k : Kernel M) (p q : Nat) :
    (k.freePipe p).pipes q = if q = p then .unused else k.pipes q := by
  unfold freePipe; split <;> simp [memDo]

theorem freePipe_taskCount (k : Kernel M) (p : Nat) : (k.freePipe p).taskCount = k.taskCount := by
  unfold freePipe; split <;> rfl
theorem freePipe_current (k : Kernel M) (p : Nat) : (k.freePipe p).current = k.current := by
  unfold freePipe; split <;> rfl
theorem freePipe_mode (k : Kernel M) (p : Nat) : (k.freePipe p).mode = k.mode := by
  unfold freePipe; split <;> rfl
theorem freePipe_hist (k : Kernel M) (p : Nat) : (k.freePipe p).hist = k.hist := by
  unfold freePipe; split <;> rfl
theorem freePipe_fs (k : Kernel M) (p : Nat) : (k.freePipe p).fs = k.fs := by
  unfold freePipe; split <;> rfl

/-- The pipe after one end of kind `c` is gone. -/
def oneLess (c : FdKind) (q : Pipe) : Pipe :=
  if (minusRef c q).rrefs = 0 ∧ (minusRef c q).wrefs = 0 then .unused else minusRef c q

theorem dropEnd_tasks (k : Kernel M) (c : FdKind) (p i : Nat) :
    (k.dropEnd c p).tasks i = (k.wakePipeWaiters p).tasks i := by
  unfold dropEnd
  simp only
  split
  · rw [freePipe_tasks]; rfl
  · rfl

theorem dropEnd_pipes (k : Kernel M) (c : FdKind) (p q : Nat) :
    (k.dropEnd c p).pipes q = if q = p then oneLess c (k.pipes p) else k.pipes q := by
  unfold dropEnd oneLess
  simp only
  split
  · rename_i h
    rw [freePipe_pipes]
    simp only [wakePipeWaiters_pipes, modPipe_pipes, if_true] at h
    by_cases hq : q = p
    · simp [hq, h]
    · simp [hq]
  · rename_i h
    simp only [wakePipeWaiters_pipes, modPipe_pipes, if_true] at h
    by_cases hq : q = p
    · simp [hq, h]
    · simp [hq]

theorem dropEnd_taskCount (k : Kernel M) (c : FdKind) (p : Nat) :
    (k.dropEnd c p).taskCount = k.taskCount := by
  unfold dropEnd; simp only; split <;> simp [freePipe_taskCount]
theorem dropEnd_current (k : Kernel M) (c : FdKind) (p : Nat) : (k.dropEnd c p).current = k.current := by
  unfold dropEnd; simp only; split <;> simp [freePipe_current]
theorem dropEnd_mode (k : Kernel M) (c : FdKind) (p : Nat) : (k.dropEnd c p).mode = k.mode := by
  unfold dropEnd; simp only; split <;> simp [freePipe_mode]
theorem dropEnd_hist (k : Kernel M) (c : FdKind) (p : Nat) : (k.dropEnd c p).hist = k.hist := by
  unfold dropEnd; simp only; split <;> simp [freePipe_hist]
theorem dropEnd_fs (k : Kernel M) (c : FdKind) (p : Nat) : (k.dropEnd c p).fs = k.fs := by
  unfold dropEnd; simp only; split <;> simp [freePipe_fs]

/-- What `drop_fd` does: nothing on a free entry; an entry that is no pipe end in use is cleared;
else the end is given back too. -/
theorem dropFd_cases (k : Kernel M) (i j : Nat) :
    (((k.tasks i).fds j).used = false ∧ k.dropFd i j = k) ∨
    (((k.tasks i).fds j).used = true ∧ k.pipeOf ((k.tasks i).fds j) = none ∧
    k.dropFd i j = k.setFd i j .empty) ∨
    ∃ p, ((k.tasks i).fds j).endOf = some (((k.tasks i).fds j).kind, p) ∧ p < pipeMax ∧
    (k.pipes p).used = true ∧
      k.dropFd i j = (k.dropEnd ((k.tasks i).fds j).kind p).setFd i j .empty := by
  unfold dropFd
  simp only
  by_cases hu : ((k.tasks i).fds j).used = false
  · exact .inl ⟨hu, if_pos hu⟩
  · rw [if_neg hu]
    rw [Bool.not_eq_false] at hu
    cases hp : k.pipeOf ((k.tasks i).fds j) with
    | none => exact .inr (.inl ⟨hu, rfl, rfl⟩)
    | some p =>
      obtain ⟨h1, h2, h3, h4⟩ := pipeOf_some hp
      exact .inr (.inr ⟨p, FdEntry.endOf_some.2 ⟨hu, rfl, h1, h2⟩, h3, h4, rfl⟩)

/-- Tasks after `drop_fd`: the entry is empty, and some sleepers on the pipe may be awake. -/
theorem dropFd_task (k : Kernel M) (i j n : Nat) : ∃ t, Mild (k.tasks n) t ∧
    (k.dropFd i j).tasks n =
      if n = i ∧ ((k.tasks i).fds j).used = true
      then { t with fds := Function.update t.fds j .empty } else t := by
  rcases dropFd_cases k i j with ⟨hu, e⟩ | ⟨hu, -, e⟩ | ⟨p, he, -, -, e⟩
  · refine ⟨k.tasks n, Mild.refl _, ?_⟩
    rw [e, hu]
    simp
  · refine ⟨k.tasks n, Mild.refl _, ?_⟩
    rw [e, hu, setFd_tasks]
    by_cases hn : n = i
    · subst hn; simp
    · simp [hn]
  · refine ⟨(k.wakePipeWaiters p).tasks n, wakePipeWaiters_mild k p n, ?_⟩
    rw [e, (FdEntry.endOf_some.1 he).1, setFd_tasks]
    by_cases hn : n = i
    · subst hn
      simp only [if_true, dropEnd_tasks, and_self]
    · simp only [hn, if_false, dropEnd_tasks, false_and]

theorem dropFd_taskCount (k : Kernel M) (i j : Nat) : (k.dropFd i j).taskCount = k.taskCount := by
  rcases dropFd_cases k i j with ⟨-, e⟩ | ⟨-, -, e⟩ | ⟨p, -, -, -, e⟩ <;> rw [e]
  · rfl
  · rw [setFd_taskCount, dropEnd_taskCount]

theorem dropFd_current (k : Kernel M) (i j : Nat) : (k.dropFd i j).current = k.current := by
  rcases dropFd_cases k i j with ⟨-, e⟩ | ⟨-, -, e⟩ | ⟨p, -, -, -, e⟩ <;> rw [e]
  · rfl
  · rw [setFd_current, dropEnd_current]

theorem dropFd_mode (k : Kernel M) (i j : Nat) : (k.dropFd i j).mode = k.mode := by
  rcases dropFd_cases k i j with ⟨-, e⟩ | ⟨-, -, e⟩ | ⟨p, -, -, -, e⟩ <;> rw [e]
  · rfl
  · rw [setFd_mode, dropEnd_mode]

theorem dropFd_hist (k : Kernel M) (i j : Nat) : (k.dropFd i j).hist = k.hist := by
  rcases dropFd_cases k i j with ⟨-, e⟩ | ⟨-, -, e⟩ | ⟨p, -, -, -, e⟩ <;> rw [e]
  · rfl
  · rw [setFd_hist, dropEnd_hist]

theorem dropFd_fs (k : Kernel M) (i j : Nat) : (k.dropFd i j).fs = k.fs := by
  rcases dropFd_cases k i j with ⟨-, e⟩ | ⟨-, -, e⟩ | ⟨p, -, -, -, e⟩ <;> rw [e]
  · rfl
  · rw [setFd_fs, dropEnd_fs]

/-- What `alloc_pipe` answers: no change, or the first unused pipe with a page. -/
theorem allocPipe_cases (k : Kernel M) : (k.allocPipe = (k, none)) ∨
    ∃ p phys, p < pipeMax ∧ (k.pipes p).used = false ∧ k.memAsk (.kalloc pipeMinPhys) = some phys ∧
      k.allocPipe = ((k.memDo (.kalloc pipeMinPhys)).modPipe p fun _ =>
      { Pipe.unused with used := true, phys := phys },
        some p) := by
  unfold allocPipe
  split
  · exact .inl rfl
  · rename_i p hp
    have hmem := List.mem_of_find?_eq_some hp
    have hfree := List.find?_some hp
    split
    · exact .inl rfl
    · rename_i phys hphys
      exact .inr ⟨p, phys, List.mem_range.1 hmem, by simpa using hfree, hphys, rfl⟩

end

/-- A transfer leaves the tasks as a wake-up on the pipe does, or unchanged. -/
theorem schedPipeRead_cases (k : Kernel M) (fd : Int) (n : Nat) : ((k.schedPipeRead fd n).1 = k) ∨
    ∃ p u, k.pipeEnd fd .pipeR = some p ∧ (k.schedPipeRead fd n).1 = (k.modPipe p u).wakePipeWaiters p ∧
      (u = fun q => { q with
        head := (q.head + min n (k.pipes p).len) &&& pipeMask, len := q.len - min n (k.pipes p).len
        returned := q.returned ++ (List.range (min n (k.pipes p).len)).map fun i =>
          (k.pipes p).data (((k.pipes p).head + i) &&& pipeMask) }) ∧ (k.pipes p).len ≠ 0 ∧ n ≠ 0 := by
  unfold schedPipeRead
  split
  · exact .inl rfl
  · rename_i hn
    cases hp : k.pipeEnd fd .pipeR with
    | none => exact .inl rfl
    | some p =>
      simp only [Option.elim]
      split
      · exact .inl rfl
      · rename_i hl
        exact .inr ⟨p, _, rfl, rfl, rfl, hl, hn⟩

theorem schedPipeWrite_cases (k : Kernel M) (fd : Int)
    (src : List UInt8) : ((k.schedPipeWrite fd src).1 = k) ∨
    ∃ p u, k.pipeEnd fd .pipeW = some p ∧ (k.schedPipeWrite fd src).1 = (k.modPipe p u).wakePipeWaiters p ∧
      (u = fun q => { q with
        data := ringStore q.data (((k.pipes p).head + (k.pipes p).len) &&& pipeMask)
          (src.take (min src.length (pipeCap - (k.pipes p).len)))
        len := q.len + min src.length (pipeCap - (k.pipes p).len)
        accepted := q.accepted ++ src.take (min src.length (pipeCap - (k.pipes p).len)) }) ∧
      (k.pipes p).len < pipeCap ∧ src ≠ [] := by
  unfold schedPipeWrite
  split
  · exact .inl rfl
  · rename_i hn
    cases hp : k.pipeEnd fd .pipeW with
    | none => exact .inl rfl
    | some p =>
      simp only [Option.elim]
      split
      · exact .inl rfl
      · split
        · exact .inl rfl
        · rename_i hl
          exact .inr ⟨p, _, rfl, rfl, rfl, by omega, hn⟩

/-! ## The end of a task -/

/-- The slot of a task that has just died. -/
def deadTask (code : UInt8) (t : Task) : Task :=
  { t with exitCode := code, reaped := false, pending := 0, handlerInt := 0, handlerTerm := 0, state := .dead,
           pipeWait := none }

/-- A waiter that gets `code`. -/
def wokenTask (code : UInt8) (t : Task) : Task :=
  { t with state := .ready, waitPid := 0, regs := { t.regs with rax := code.toUInt64 } }

/-- Does slot `p` wait for slot `i`? -/
def WaitsFor (k : Kernel M) (i p : Nat) : Prop :=
  (k.tasks i).parent = some p ∧ p < k.taskCount ∧ p ≠ i ∧ (k.tasks p).state = .wait ∧
    wanted (k.tasks p).waitPid i = true

/-- The end of a task: its parent is told when it waits for it. -/
theorem finishTask_cases (k : Kernel M) (i : Nat) (code : UInt8) :
    ((∀ p, ¬ k.WaitsFor i p) ∧ (k.finishTask i code).tasks = (k.modTask i (deadTask code)).tasks ∧
      (k.finishTask i code).hist.reports = k.hist.reports) ∨
    ∃ p, k.WaitsFor i p ∧
      (k.finishTask i code).tasks =
        ((k.modTask i fun t => { deadTask code t with reaped := true }).modTask p (wokenTask code)).tasks ∧
      (k.finishTask i code).hist.reports =
        k.hist.reports ++ [⟨k.hist.uid p, i, k.hist.forkedBy i, k.hist.died, code⟩] := by
  cases hpar : (k.tasks i).parent with
  | none =>
    refine .inl ⟨fun p hw => ?_, ?_, ?_⟩
    · rw [hw.1] at hpar; cases hpar
    · unfold finishTask wakeParentWaiter
      simp only [modTask_tasks, if_true, hpar]
      rfl
    · unfold finishTask wakeParentWaiter
      simp only [modTask_tasks, if_true, hpar]
  | some p =>
    by_cases hw : k.WaitsFor i p
    · refine .inr ⟨p, hw, ?_, ?_⟩
      · obtain ⟨-, h2, h3, h4, h5⟩ := hw
        unfold finishTask wakeParentWaiter
        simp only [modTask_tasks, if_true, hpar, modTask_taskCount, if_neg h3, h2, h4, h5, and_self,
          reapChild]
        funext n
        by_cases hn : n = p
        · subst hn
          simp [wokenTask, h3]
        · by_cases hni : n = i
          · subst hni
            simp [deadTask, hn]
          · simp [hn, hni]
      · obtain ⟨-, h2, h3, h4, h5⟩ := hw
        unfold finishTask wakeParentWaiter
        simp only [modTask_tasks, if_true, hpar, modTask_taskCount, if_neg h3, h2, h4, h5, and_self,
          reapChild]
        simp
    · have hcond : ¬ (p < k.taskCount ∧ ((k.modTask i (deadTask code)).tasks p).state = .wait ∧
          wanted ((k.modTask i (deadTask code)).tasks p).waitPid i = true) := by
        rintro ⟨h1, h2, h3⟩
        rw [modTask_tasks] at h2 h3
        by_cases hp : p = i
        · rw [if_pos hp] at h2; cases h2
        · rw [if_neg hp] at h2 h3
          exact hw ⟨hpar, h1, hp, h2, h3⟩
      refine .inl ⟨fun q hq => ?_, ?_, ?_⟩
      · have : q = p := Option.some.inj (hq.1.symm.trans hpar)
        exact hw (this ▸ hq)
      · unfold finishTask wakeParentWaiter
        simp only [modTask_tasks, if_true, hpar]
        rw [if_neg]
        · rfl
        · simpa [deadTask, hpar] using hcond
      · unfold finishTask wakeParentWaiter
        simp only [modTask_tasks, if_true, hpar]
        rw [if_neg]
        simpa [deadTask, hpar] using hcond

/-! ## The invariant -/

structure Shape (k : Kernel M) : Prop where
  count : k.taskCount ≤ taskMax
  fresh : ∀ i, k.taskCount ≤ i → (k.tasks i).state = .dead ∧ (k.tasks i).parent = none ∧
    (k.tasks i).kstackTop = 0
  dead : ∀ i, (k.tasks i).state = .dead → ∀ j, ((k.tasks i).fds j).used = false
  high : ∀ i j, fdMax ≤ j → ((k.tasks i).fds j).used = false
  live : ∀ i, (k.tasks i).state ≠ .dead → (k.tasks i).cr3 ≠ 0 ∧ (k.tasks i).reaped = false
  stack : ∀ i, (k.tasks i).state ≠ .dead → (k.tasks i).kstackTop ≠ 0
  run : k.mode = .user → k.current < k.taskCount ∧ (k.tasks k.current).state = .ready
  path : Fs.PathOk k.fs.path

theorem Shape.slot {k : Kernel M} (h : Shape k) {i : Nat} (hl : (k.tasks i).state ≠ .dead) :
    i < k.taskCount := by
  by_contra hi
  exact hl (h.fresh i (by omega)).1

/-- The running task is alive. -/
theorem Shape.current_live {k : Kernel M} (hs : Shape k) (hm : k.mode = .user) :
    (k.tasks k.current).state ≠ .dead := by
  rw [(hs.run hm).2]
  nofun

/-- The changes of a slot that `Shape` does not notice. -/
structure Tame (t t' : Task) : Prop where
  dead : t'.state = .dead ↔ t.state = .dead
  ready : t.state = .ready → t'.state = .ready
  parent : t'.parent = t.parent
  kstack : t'.kstackTop = t.kstackTop
  live : t.state ≠ .dead → t'.cr3 = t.cr3 ∧ t'.reaped = t.reaped
  fds : ∀ j, (t'.fds j).used = true → (t.fds j).used = true ∨ (t.state ≠ .dead ∧ j < fdMax)

theorem Calm.tame {t t' : Task} (h : Calm t t') : Tame t t' :=
  ⟨h.dead, h.ready, h.parent, h.kstack, fun hl => ⟨h.cr3 hl, h.reaped⟩, fun j hj => .inl ((h.fds j).1 ▸ hj)⟩

theorem Tame.trans {t t' t'' : Task} (h : Tame t t') (h' : Tame t' t'') : Tame t t'' := by
  refine ⟨h'.dead.trans h.dead, fun hr => h'.ready (h.ready hr), h'.parent.trans h.parent,
    h'.kstack.trans h.kstack, fun hl => ?_, fun j hj => ?_⟩
  · have hl' : t'.state ≠ .dead := fun hd => hl (h.dead.1 hd)
    exact ⟨(h'.live hl').1.trans (h.live hl).1, (h'.live hl').2.trans (h.live hl).2⟩
  · rcases h'.fds j hj with hu | ⟨hl, hj⟩
    · exact h.fds j hu
    · exact .inr ⟨fun hd => hl (h.dead.2 hd), hj⟩

theorem Shape.tame {k k' : Kernel M} (h : Shape k) (ht : ∀ i, Tame (k.tasks i) (k'.tasks i))
    (hc : k'.taskCount = k.taskCount)
    (hr : k'.mode = .user → k'.current < k'.taskCount ∧ (k'.tasks k'.current).state = .ready)
    (hp : Fs.PathOk k'.fs.path) : Shape k' := by
  refine ⟨hc ▸ h.count, fun i hi => ?_, fun i hd j => ?_, fun i j hj => ?_, fun i hl => ?_,
    fun i hl => ?_, hr, hp⟩
  · obtain ⟨h1, h2, h3⟩ := h.fresh i (hc ▸ hi)
    exact ⟨(ht i).dead.2 h1, (ht i).parent.trans h2, (ht i).kstack.trans h3⟩
  · have hd' := (ht i).dead.1 hd
    by_contra hu
    rcases (ht i).fds j (by simpa using hu) with hu' | ⟨hl, -⟩
    · rw [h.dead i hd' j] at hu'; cases hu'
    · exact hl hd'
  · by_contra hu
    rcases (ht i).fds j (by simpa using hu) with hu' | ⟨-, hlt⟩
    · rw [h.high i j hj] at hu'; cases hu'
    · omega
  · have hl' : (k.tasks i).state ≠ .dead := fun hd => hl ((ht i).dead.2 hd)
    obtain ⟨h1, h2⟩ := (ht i).live hl'
    rw [h1, h2]
    exact h.live i hl'
  · rw [(ht i).kstack]
    exact h.stack i fun hd => hl ((ht i).dead.2 hd)

/-- The same, when the processor stays where it is. -/
theorem Shape.tame' {k k' : Kernel M} (h : Shape k) (ht : ∀ i, Tame (k.tasks i) (k'.tasks i))
    (hc : k'.taskCount = k.taskCount) (hcur : k'.current = k.current) (hm : k'.mode = k.mode)
    (hp : k'.fs.path = k.fs.path) : Shape k' := by
  refine h.tame ht hc (fun hu => ?_) (hp ▸ h.path)
  obtain ⟨h1, h2⟩ := h.run (hm ▸ hu)
  rw [hc, hcur]
  exact ⟨h1, (ht _).ready h2⟩

theorem Tame.refl (t : Task) : Tame t t := (Calm.refl t).tame

/-- Writing an entry that is not in use, or of a live task. -/
theorem tame_setFd (k : Kernel M) (i j n : Nat) (e : FdEntry)
    (h : e.used = true → (k.tasks i).state ≠ .dead ∧ j < fdMax) :
    Tame (k.tasks n) ((k.setFd i j e).tasks n) := by
  rw [setFd_tasks]
  by_cases hn : n = i
  · subst hn
    simp only [if_true]
    refine ⟨Iff.rfl, id, rfl, rfl, fun _ => ⟨rfl, rfl⟩, fun j' hj' => ?_⟩
    by_cases hj : j' = j
    · subst hj
      simp only [Function.update_self] at hj'
      exact .inr (h hj')
    · simp only [Function.update_of_ne hj] at hj'
      exact .inl hj'
  · simp only [hn, if_false]
    exact Tame.refl _

theorem tame_modTask (k : Kernel M) (i n : Nat) {f : Task → Task} (h : Tame (k.tasks i) (f (k.tasks i))) :
    Tame (k.tasks n) ((k.modTask i f).tasks n) := by
  rw [modTask_tasks]
  split
  · rename_i hn
    rw [hn]
    exact h
  · exact Tame.refl _

section
variable [MemSys M]

theorem tame_dropFd (k : Kernel M) (i j n : Nat) : Tame (k.tasks n) ((k.dropFd i j).tasks n) := by
  obtain ⟨t, hc, e⟩ := dropFd_task k i j n
  rw [e]
  refine hc.tame.trans ?_
  split
  · refine ⟨Iff.rfl, id, rfl, rfl, fun _ => ⟨rfl, rfl⟩, fun j' hj' => ?_⟩
    by_cases hj : j' = j
    · subst hj
      simp only [Function.update_self] at hj'
      cases hj'
    · simp only [Function.update_of_ne hj] at hj'
      exact .inl hj'
  · exact Tame.refl _

end

theorem finishTask_taskCount (k : Kernel M) (i : Nat) (code : UInt8) :
    (k.finishTask i code).taskCount = k.taskCount := by
  unfold finishTask wakeParentWaiter; simp only; split <;> [rfl; (split <;> rfl)]
theorem finishTask_current (k : Kernel M) (i : Nat) (code : UInt8) :
    (k.finishTask i code).current = k.current := by
  unfold finishTask wakeParentWaiter; simp only; split <;> [rfl; (split <;> rfl)]
theorem finishTask_mode (k : Kernel M) (i : Nat) (code : UInt8) : (k.finishTask i code).mode = k.mode := by
  unfold finishTask wakeParentWaiter; simp only; split <;> [rfl; (split <;> rfl)]
theorem finishTask_pipes (k : Kernel M) (i : Nat) (code : UInt8) : (k.finishTask i code).pipes = k.pipes := by
  unfold finishTask wakeParentWaiter; simp only; split <;> [rfl; (split <;> rfl)]
theorem finishTask_fs (k : Kernel M) (i : Nat) (code : UInt8) : (k.finishTask i code).fs = k.fs := by
  unfold finishTask wakeParentWaiter; simp only; split <;> [rfl; (split <;> rfl)]
theorem finishTask_mem (k : Kernel M) (i : Nat) (code : UInt8) : (k.finishTask i code).mem = k.mem := by
  unfold finishTask wakeParentWaiter; simp only; split <;> [rfl; (split <;> rfl)]

theorem finishTask_deserted (k : Kernel M) (i : Nat) (code : UInt8) :
    (k.finishTask i code).hist.deserted = k.hist.deserted := by
  unfold finishTask wakeParentWaiter; simp only; split <;> [rfl; (split <;> rfl)]

/-- A slot after the death of slot `i`. -/
theorem finishTask_task (k : Kernel M) (i : Nat) (code : UInt8) (n : Nat) :
    (n = i ∧ ∃ b, (k.finishTask i code).tasks n = { deadTask code (k.tasks i) with reaped := b }) ∨
    (n ≠ i ∧ (k.finishTask i code).tasks n = k.tasks n) ∨
    (n ≠ i ∧ k.WaitsFor i n ∧ (k.finishTask i code).tasks n = wokenTask code (k.tasks n)) := by
  rcases finishTask_cases k i code with ⟨-, e, -⟩ | ⟨p, hw, e, -⟩
  · rw [e, modTask_tasks]
    by_cases hn : n = i
    · exact .inl ⟨hn, false, if_pos hn⟩
    · exact .inr (.inl ⟨hn, if_neg hn⟩)
  · rw [e, modTask_tasks, modTask_tasks, modTask_tasks]
    have hpi := hw.2.2.1
    by_cases hn : n = i
    · refine .inl ⟨hn, true, ?_⟩
      rw [if_neg fun h => hpi (h.symm.trans hn), if_pos hn]
    · by_cases hp : n = p
      · refine .inr (.inr ⟨hn, hp ▸ hw, ?_⟩)
        rw [if_pos hp, if_neg hpi, hp]
      · exact .inr (.inl ⟨hn, by rw [if_neg hp, if_neg hn]⟩)

theorem Shape.die {k : Kernel M} (h : Shape k) (code : UInt8) (hm : k.mode = .user)
    (hf : ∀ j, ((k.tasks k.current).fds j).used = false) :
    Shape { k.finishTask k.current code with mode := .idle } := by
  obtain ⟨hi, -⟩ := h.run hm
  refine ⟨by rw [finishTask_taskCount]; exact h.count, fun n hn => ?_, fun n hd j => ?_, fun n j hj => ?_,
    fun n hl => ?_, fun n hl => ?_, nofun, by rw [finishTask_fs]; exact h.path⟩
  · rw [finishTask_taskCount] at hn
    rcases finishTask_task k k.current code n with ⟨rfl, -⟩ | ⟨-, e⟩ | ⟨-, hw, -⟩
    · omega
    · simp only [e]; exact h.fresh n hn
    · have := hw.2.1; omega
  · rcases finishTask_task k k.current code n with ⟨rfl, b, e⟩ | ⟨-, e⟩ | ⟨-, -, e⟩
    · simp only [e]; exact hf j
    · simp only [e] at hd ⊢; exact h.dead n hd j
    · simp only [e] at hd; cases hd
  · rcases finishTask_task k k.current code n with ⟨rfl, b, e⟩ | ⟨-, e⟩ | ⟨-, -, e⟩
    · simp only [e]; exact hf j
    · simp only [e]; exact h.high n j hj
    · simp only [e]; exact h.high n j hj
  · rcases finishTask_task k k.current code n with ⟨rfl, b, e⟩ | ⟨-, e⟩ | ⟨-, hw, e⟩
    · simp only [e] at hl; exact absurd rfl hl
    · simp only [e] at hl ⊢; exact h.live n hl
    · simp only [e]
      exact h.live n (by rw [hw.2.2.2.1]; nofun)
  · rcases finishTask_task k k.current code n with ⟨rfl, b, e⟩ | ⟨hn, e⟩ | ⟨hn, hw, e⟩
    · simp only [e] at hl; exact absurd rfl hl
    · simp only [e] at hl ⊢; exact h.stack n hl
    · simp only [e]
      exact h.stack n (by rw [hw.2.2.2.1]; nofun)

theorem Shape.blocked {k : Kernel M} (h : Shape k) (s : TaskState) (f : Task → Task) (hs : s ≠ .dead)
    (hm : k.mode = .user) (hf : ∀ t : Task, t.state = .ready → Calm t (f t)) : Shape (k.blocked s f) := by
  obtain ⟨hc, hr⟩ := h.run hm
  have hcur : ∀ n, n ≠ k.current → (k.blocked s f).tasks n = k.tasks n := by
    intro n hn
    simp [Kernel.blocked, saveTask, hn]
  have hself : (k.blocked s f).tasks k.current =
      { f { k.tasks k.current with regs := k.frame } with state := s } := by
    simp [Kernel.blocked, saveTask]
  have hcalm := hf { k.tasks k.current with regs := k.frame } hr
  refine ⟨h.count, fun n hn => ?_, fun n hd j => ?_, fun n j hj => ?_, fun n hl => ?_,
    fun n hl => ?_, nofun, h.path⟩
  · have hn : k.taskCount ≤ n := hn
    rw [hcur n (by omega)]
    exact h.fresh n hn
  · by_cases hn : n = k.current
    · rw [hn, hself] at hd; exact absurd hd hs
    · rw [hcur n hn] at hd ⊢; exact h.dead n hd j
  · by_cases hn : n = k.current
    · rw [hn, hself]
      exact (hcalm.fds j).1.trans (h.high _ j hj)
    · rw [hcur n hn]; exact h.high n j hj
  · by_cases hn : n = k.current
    · rw [hn, hself]
      have hlive : (k.tasks k.current).state ≠ .dead := by rw [hr]; nofun
      obtain ⟨h1, h2⟩ := h.live k.current hlive
      exact ⟨fun h0 => h1 ((hcalm.cr3 hlive).symm.trans h0), hcalm.reaped.trans h2⟩
    · rw [hcur n hn] at hl ⊢; exact h.live n hl
  · by_cases hn : n = k.current
    · rw [hn, hself]
      exact fun h0 => h.stack k.current (by rw [hr]; nofun) (hcalm.kstack.symm.trans h0)
    · rw [hcur n hn] at hl ⊢; exact h.stack n hl

/-- Nothing that `Shape` looks at is different. -/
theorem Shape.same {k k' : Kernel M} (h : Shape k) (ht : k'.tasks = k.tasks) (hc : k'.taskCount = k.taskCount)
    (hcur : k'.current = k.current) (hm : k'.mode = k.mode) (hp : k'.fs.path = k.fs.path) : Shape k' :=
  h.tame' (fun i => by rw [ht]; exact Tame.refl _) hc hcur hm hp

theorem Shape.grow {k : Kernel M} (h : Shape k) (hc : k.taskCount < taskMax) :
    Shape { k with taskCount := k.taskCount + 1, current := if k.taskCount = 0 then 0 else k.current } := by
  refine ⟨hc, fun i hi => h.fresh i (Nat.le_of_succ_le hi), h.dead, h.high, h.live, h.stack,
    fun hu => ?_, h.path⟩
  obtain ⟨h1, h2⟩ := h.run hu
  have h0 : k.taskCount ≠ 0 := by omega
  simp only [if_neg h0]
  exact ⟨by omega, h2⟩

theorem Shape.spawn {k : Kernel M} (h : Shape k) {i : Nat} (parent : Option Nat) {t : Task}
    (hi : i < k.taskCount) (hc : t.cr3 ≠ 0) (hk : t.kstackTop ≠ 0) :
    Shape (k.spawnTask i parent t) := by
  have hother : ∀ n, n ≠ i → (k.spawnTask i parent t).tasks n = k.tasks n := by
    intro n hn
    simp [spawnTask, hn]
  have hself : ((k.spawnTask i parent t).tasks i).state = .ready ∧
    ((k.spawnTask i parent t).tasks i).fds = (k.tasks i).fds ∧
      ((k.spawnTask i parent t).tasks i).cr3 = t.cr3 ∧ ((k.spawnTask i parent t).tasks i).reaped = false ∧
      ((k.spawnTask i parent t).tasks i).kstackTop = t.kstackTop := by
    simp [spawnTask]
  obtain ⟨s1, s2, s3, s4, s5⟩ := hself
  refine ⟨h.count, fun n hn => ?_, fun n hd j => ?_, fun n j hj => ?_, fun n hl => ?_,
    fun n hl => ?_, fun hu => ?_, h.path⟩
  · have hn : k.taskCount ≤ n := hn
    rw [hother n (by omega)]
    exact h.fresh n hn
  · by_cases hn : n = i
    · rw [hn, s1] at hd; cases hd
    · rw [hother n hn] at hd ⊢; exact h.dead n hd j
  · by_cases hn : n = i
    · rw [hn, s2]; exact h.high i j hj
    · rw [hother n hn]; exact h.high n j hj
  · by_cases hn : n = i
    · rw [hn, s3]; exact ⟨hc, s4⟩
    · rw [hother n hn] at hl ⊢; exact h.live n hl
  · by_cases hn : n = i
    · rw [hn, s5]; exact hk
    · rw [hother n hn] at hl ⊢; exact h.stack n hl
  · obtain ⟨h1, h2⟩ := h.run hu
    refine ⟨h1, ?_⟩
    change ((k.spawnTask i parent t).tasks k.current).state = .ready
    by_cases hn : k.current = i
    · rw [hn]; exact s1
    · rw [hother _ hn]; exact h2

/-- The processor goes to the READY slot `i`. -/
theorem Shape.switchTo {k : Kernel M} (h : Shape k) {i : Nat} (hi : i < k.taskCount)
    (hr : (k.tasks i).state = .ready) : Shape (k.switchTo i) :=
  h.tame (fun _ => Tame.refl _) rfl (fun _ => ⟨hi, hr⟩) h.path

theorem tame_saveTask (k : Kernel M) (n : Nat) : Tame (k.tasks n) (k.saveTask.tasks n) :=
  tame_modTask k k.current n ⟨Iff.rfl, id, rfl, rfl, fun _ => ⟨rfl, rfl⟩, fun _ hj => .inl hj⟩

section
variable [MemSys M]

theorem freeTaskKstack_task (k : Kernel M) (i n : Nat) : (k.freeTaskKstack i).tasks n = k.tasks n ∨
    (n = i ∧ (k.freeTaskKstack i).tasks n = { k.tasks i with kstackTop := 0 }) := by
  unfold freeTaskKstack
  by_cases h0 : (k.tasks i).kstackTop = 0
  · exact .inl (by rw [if_pos h0])
  · rw [if_neg h0]
    by_cases hn : n = i
    · refine .inr ⟨hn, ?_⟩
      subst hn
      simp only
      split <;> simp [memDo]
    · refine .inl ?_
      simp only
      split <;> simp [memDo, hn]

theorem freeTaskKstack_rest (k : Kernel M) (i : Nat) : (k.freeTaskKstack i).pipes = k.pipes ∧
    (k.freeTaskKstack i).taskCount = k.taskCount ∧ (k.freeTaskKstack i).current = k.current ∧
    (k.freeTaskKstack i).mode = k.mode ∧ (k.freeTaskKstack i).hist = k.hist ∧
    (k.freeTaskKstack i).fs = k.fs := by
  unfold freeTaskKstack
  split
  · exact ⟨rfl, rfl, rfl, rfl, rfl, rfl⟩
  · simp only
    split <;> exact ⟨rfl, rfl, rfl, rfl, rfl, rfl⟩

theorem Shape.freeKstack {k : Kernel M} (h : Shape k) {i : Nat} (hdead : (k.tasks i).state = .dead) :
    Shape (k.freeTaskKstack i) := by
  obtain ⟨-, hc, hcur, hm, -, hfs⟩ := freeTaskKstack_rest k i
  refine ⟨hc ▸ h.count, fun n hn => ?_, fun n hd j => ?_, fun n j hj => ?_, fun n hl => ?_,
    fun n hl => ?_, fun hu => ?_, hfs ▸ h.path⟩
  · obtain ⟨h1, h2, h3⟩ := h.fresh n (hc ▸ hn)
    rcases freeTaskKstack_task k i n with e | ⟨rfl, e⟩ <;> rw [e]
    · exact ⟨h1, h2, h3⟩
    · exact ⟨h1, h2, rfl⟩
  · rcases freeTaskKstack_task k i n with e | ⟨rfl, e⟩ <;> rw [e] at hd ⊢ <;> exact h.dead n hd j
  · rcases freeTaskKstack_task k i n with e | ⟨rfl, e⟩ <;> rw [e] <;> exact h.high n j hj
  · rcases freeTaskKstack_task k i n with e | ⟨rfl, e⟩ <;> rw [e] at hl ⊢ <;> exact h.live n hl
  · rcases freeTaskKstack_task k i n with e | ⟨rfl, e⟩ <;> rw [e] at hl ⊢
    · exact h.stack n hl
    · exact absurd hdead hl
  · obtain ⟨h1, h2⟩ := h.run (hm ▸ hu)
    rw [hc, hcur]
    refine ⟨h1, ?_⟩
    rcases freeTaskKstack_task k i k.current with e | ⟨hi, e⟩ <;> rw [e]
    · exact h2
    · exact hi ▸ h2

/-- One move keeps the shape. -/
theorem Move.shape {A : Label → Prop} {c c' : Ghost × Kernel M} (hm : Move A c c') (h : Shape c.2) :
    Shape c'.2 := by
  cases hm with
  | quiet hq => exact h.tame' (fun i => (hq.task i).tame) hq.count hq.current hq.mode hq.cwd.2
  | trap f hm => exact h.same rfl rfl rfl rfl rfl
  | @chdir g k c pwd hA hm =>
    refine h.tame' (fun n => tame_modTask (f := fun t => { t with cwd := c, cwdPath := pwd }) k _ n
      ?_) rfl rfl rfl rfl
    exact ⟨Iff.rfl, id, rfl, rfl, fun _ => ⟨rfl, rfl⟩, fun _ hj => .inl hj⟩
  | shell s hA hp => exact h.tame (fun _ => Tame.refl _) rfl h.run hp
  | drop i j =>
    exact h.tame' (tame_dropFd _ i j) (dropFd_taskCount _ i j) (dropFd_current _ i j)
      (dropFd_mode _ i j) (by rw [dropFd_fs])
  | setFd i j e h0 he hl hj => exact h.tame' (fun n => tame_setFd _ i j n e fun _ => ⟨hl, hj⟩) rfl rfl rfl rfl
  | addEnd i j p e h0 he hp hu hl hj =>
    exact h.tame' (fun n => tame_setFd _ i j n e fun _ => ⟨hl, hj⟩) rfl rfl rfl rfl
  | @alloc g k p hr hp =>
    rcases allocPipe_cases k with e | ⟨q, phys, -, -, -, e⟩
    · rw [e] at hp; cases hp
    · simp only [e]; exact h.same rfl rfl rfl rfl rfl
  | settle => exact h
  | @discard g k p =>
    exact h.same (freePipe_tasks k p) (freePipe_taskCount k p) (freePipe_current k p) (freePipe_mode k p)
      (by rw [freePipe_fs])
  | @read g k fd n =>
    rcases schedPipeRead_cases k fd n with e | ⟨p, u, -, e, -⟩
    · simp only [e]; exact h
    · simp only [e]
      exact h.tame' (fun i => (wakePipeWaiters_mild (k.modPipe p u) p i).tame) rfl rfl rfl rfl
  | @write g k fd src =>
    rcases schedPipeWrite_cases k fd src with e | ⟨p, u, -, e, -⟩
    · simp only [e]; exact h
    · simp only [e]
      exact h.tame' (fun i => (wakePipeWaiters_mild (k.modPipe p u) p i).tame) rfl rfl rfl rfl
  | pause s f hA hm hs hf =>
    refine h.blocked s f ?_ hm fun t ht => (hf t ht).1
    rcases hs with rfl | rfl <;> nofun
  | blockPipe p hA hm hu hw => exact h.blocked .pipe _ nofun hm fun t hr => calm_pipeWait hr _
  | load i hA hm hi hr => exact h.switchTo hi hr
  | swap i hA hm hn hi hr =>
    have hs : Shape (saveTask _) := h.tame' (tame_saveTask _) rfl rfl rfl rfl
    exact hs.switchTo hi (by simpa [saveTask, hn] using hr)
  | halt hA hm hd => exact h.tame (fun _ => Tame.refl _) rfl nofun h.path
  | stop hA => exact h.tame (fun _ => Tame.refl _) rfl nofun h.path
  | grow hc => exact h.grow hc
  | spawn i f parent t hA hi hd hk hc ht hf hp =>
    exact h.spawn parent hi hc (by rw [ht]; simp [kstackTopOf, pageSize])
  | @doom g k hInt hTerm f hA hm =>
    refine h.tame' (fun n => tame_modTask
      (f := fun t => { t with pending := 0, handlerInt := hInt, handlerTerm := hTerm }) k _ n ?_)
        rfl rfl rfl rfl
    exact ⟨Iff.rfl, id, rfl, rfl, fun _ => ⟨rfl, rfl⟩, fun _ hj => .inl hj⟩
  | die code hA hm hf => exact h.die code hm hf
  | blockWait w hA hm hw =>
    have hs : Shape (asks _) := h.same rfl rfl rfl rfl rfl
    exact hs.blocked .wait _ nofun hm fun t hr => calm_waitPid hr _
  | @reap g k child hA hm hc hd =>
    refine h.tame' (fun n => tame_modTask (f := fun t => { t with reaped := true }) k child n ?_)
      rfl rfl rfl rfl
    exact ⟨Iff.rfl, id, rfl, rfl, fun hl => absurd hd hl, fun j hj => .inl hj⟩
  | refuse hA hm => exact h.same rfl rfl rfl rfl rfl
  | askPending hA hm hp => exact h.same rfl rfl rfl rfl rfl
  | take => exact h.same rfl rfl rfl rfl rfl
  | noFrame => exact h.same rfl rfl rfl rfl rfl
  | give => exact h.same rfl rfl rfl rfl rfl
  | freeKstack i hd => exact h.freeKstack hd

theorem Moves.shape {A : Label → Prop} {c c' : Ghost × Kernel M} (hm : Moves A c c')
      (h : Shape c.2) : Shape c'.2 := by
  induction hm with
  | refl => exact h
  | tail _ hstep ih => exact hstep.shape ih

end

end Kernel

end VampireOS
