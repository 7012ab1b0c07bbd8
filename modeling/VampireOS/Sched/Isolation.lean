import VampireOS.Sched.WorksOn
import VampireOS.Sched.Lives
import VampireOS.Sched.Refs

/-!
# Every task has its memory to itself

`Homed` is what holds of the tables of the tasks between any two events: every living task has
tables of its own, and ring 3 runs on those of the running task or on the kernel's. `Safe k0 P`
follows a run from `k0` on: a task of `P` that is still there has the tables and the memory that it
had. Everything the kernel does keeps it, as long as none of `P` runs: system calls are work on the
caller's tables (`WorksOn`), a new task gets new ones, and a slot that is used again had a dead
task.
-/

namespace VampireOS

open Lib

theorem Space.Inv.ne_boot {s : Space} {r : Nat} (h : s.Inv) (hr : r ∈ s.roots) : r ≠ 0 ∧ r ≠ pml4Phys :=
  ⟨(h.pt.root_owned hr).ne_zero h.pt.ok, (h.pt.root_owned hr).ne_boot h.pt.ok⟩

namespace Kernel

variable {k k0 k' : Kernel Space} {P Q : Set Nat} {d i : Nat}

structure Homed (k : Kernel Space) : Prop where
  inv : k.mem.Inv
  live : ∀ i, (k.tasks i).state ≠ .dead → (k.tasks i).cr3 ≠ 0
  root : ∀ i, (k.tasks i).cr3 ≠ 0 → (k.tasks i).cr3 ∈ k.mem.roots
  apart : ∀ i j, (k.tasks i).cr3 = (k.tasks j).cr3 → (k.tasks i).cr3 ≠ 0 → i = j
  high : ∀ i, k.taskCount ≤ i → (k.tasks i).state = .dead
  loaded : k.mode = .user → k.cr3 = pml4Phys ∨ k.cr3 = (k.tasks k.current).cr3

/-- The task in slot `i` is the one that was there in `k0`. -/
structure Remains (k0 k : Kernel Space) (i : Nat) : Prop where
  live : (k.tasks i).state ≠ .dead
  uid : k.hist.uid i = k0.hist.uid i
  old : k0.hist.uid i < k0.hist.born

/-- It has the tables and the memory that it had. -/
structure Same (k0 k : Kernel Space) (i : Nat) : Prop where
  live : (k0.tasks i).state ≠ .dead
  cr3 : (k.tasks i).cr3 = (k0.tasks i).cr3
  mem : k.mem.mems (k.tasks i).cr3 = k0.mem.mems (k0.tasks i).cr3

structure Safe (k0 : Kernel Space) (P : Set Nat) (k : Kernel Space) : Prop extends Homed k where
  born : k0.hist.born ≤ k.hist.born
  kept : ∀ i ∈ P, Remains k0 k i → Same k0 k i

theorem Homed.safe (h : Homed k) (P : Set Nat) : Safe k P k :=
  ⟨h, le_rfl, fun _ _ hs => ⟨hs.live, rfl, rfl⟩⟩

theorem Safe.mono (h : Safe k0 P k) (hQ : Q ⊆ P) : Safe k0 Q k :=
  ⟨h.toHomed, h.born, fun i hi => h.kept i (hQ hi)⟩

/-- Nothing is promised of the dead. -/
theorem Safe.buried (h : Safe k0 (P \ {i}) k) (hd : (k.tasks i).state = .dead) : Safe k0 P k := by
  refine ⟨h.toHomed, h.born, fun n hn hs => ?_⟩
  apply h.kept n _ hs
  refine ⟨hn, ?_⟩
  rintro rfl
  exact hs.live hd

/-! ## Work on tables that are nobody's in `P` -/

/-- No living task of `P` is on the tables `d`. -/
def Away (d : Nat) (P : Set Nat) (k : Kernel Space) : Prop :=
  ∀ i ∈ P, (k.tasks i).state ≠ .dead → (k.tasks i).cr3 ≠ d

theorem Homed.away_zero (h : Homed k) : Away 0 P k := fun i _ => h.live i

theorem Homed.away_boot (h : Homed k) : Away pml4Phys P k :=
  fun i _ hl => (h.inv.ne_boot (h.root i (h.live i hl))).2

/-- Nobody else is on the tables of slot `i`. -/
theorem Homed.away_own (h : Homed k) (hi : i ∉ P ∨ (k.tasks i).state = .dead) : Away (k.tasks i).cr3 P k := by
  intro n hn hl he
  obtain rfl := h.apart n i he (h.live n hl)
  rcases hi with hi | hd
  · exact hi hn
  · exact hl hd

theorem Homed.away_current (h : Homed k) (hP : k.current ∉ P) : Away k.currentCr3 P k := by
  unfold currentCr3
  split
  · exact h.away_boot
  · exact h.away_own (.inl hP)

theorem WorksOn.homed (h : WorksOn d k k') (hh : Homed k) : Homed k' := by
  have hcr3 : ∀ i, (k'.tasks i).cr3 = (k.tasks i).cr3 := fun i => (h.task i).1
  have hlive : ∀ i, (k'.tasks i).state ≠ .dead → (k.tasks i).state ≠ .dead :=
    fun i hl hd => hl ((h.task i).2 hd)
  refine ⟨h.mem.inv hh.inv, fun i hl => ?_, fun i h0 => ?_, fun i j he h0 => ?_, fun i hi => ?_, fun hm => ?_⟩
  · rw [hcr3]
    exact hh.live i (hlive i hl)
  · rw [hcr3] at h0 ⊢
    exact h.roots (hh.root i h0)
  · simp only [hcr3] at he h0
    exact hh.apart i j he h0
  · rw [h.count] at hi
    exact (h.task i).2 (hh.high i hi)
  · rw [h.current, hcr3]
    rcases h.cr3 with e | e | e
    · rw [e]
      exact hh.loaded (h.mode.symm.trans hm)
    · exact .inl e
    · rw [e]
      unfold Kernel.currentCr3
      split
      · exact .inl rfl
      · exact .inr rfl

theorem WorksOn.safe (h : WorksOn d k k') (hs : Safe k0 P k) (hd : Away d P k) : Safe k0 P k' := by
  refine ⟨h.homed hs.toHomed, h.hist.2.symm ▸ hs.born, fun i hi hst => ?_⟩
  have hl : (k.tasks i).state ≠ .dead := fun hd => hst.live ((h.task i).2 hd)
  have hold := hs.kept i hi ⟨hl, h.hist.1 ▸ hst.uid, hst.old⟩
  refine ⟨hold.live, (h.task i).1.trans hold.cr3, ?_⟩
  rw [(h.task i).1, (h.mem.keeps hs.inv _ (hs.root i (hs.live i hl)) (hd i hi hl)).2]
  exact hold.mem

/-- Nobody's memory is written. -/
theorem WorksOn.quiet (h : WorksOn 0 k k') (hs : Safe k0 P k) : Safe k0 P k' := h.safe hs hs.away_zero

/-- Registers, files, pipes and the rest of the history do not matter. -/
theorem Safe.alike (hs : Safe k0 P k) (hm : k'.mem = k.mem) (ht : k'.tasks = k.tasks)
    (hh : k'.hist.uid = k.hist.uid ∧ k'.hist.born = k.hist.born) (hn : k'.taskCount = k.taskCount)
    (hc : k'.current = k.current) (hmo : k'.mode = k.mode) (h3 : k'.cr3 = k.cr3) : Safe k0 P k' :=
  (WorksOn.same hm ht hh hn hc hmo h3).quiet hs

/-- Tables that are no task's may come and go. -/
theorem Safe.remap (hs : Safe k0 P k) {s : Space} (hi : s.Inv)
    (hr : ∀ i, (k.tasks i).cr3 ∈ k.mem.roots → (k.tasks i).cr3 ∈ s.roots ∧ s.mems (k.tasks i).cr3 =
      k.mem.mems (k.tasks i).cr3) :
    Safe k0 P { k with mem := s } := by
  refine ⟨⟨hi, hs.live, fun i h0 => (hr i (hs.root i h0)).1, hs.apart, hs.high, hs.loaded⟩, hs.born,
    fun i hi hst => ?_⟩
  have hold := hs.kept i hi ⟨hst.live, hst.uid, hst.old⟩
  exact ⟨hold.live, hold.cr3, (hr i (hs.root i (hs.live i hst.live))).2.trans hold.mem⟩

/-! ## Switching -/

/-- Only who runs, and on which map, is different. -/
theorem Safe.turn (hs : Safe k0 P k)
    (hl : k'.mode = .user → k'.cr3 = pml4Phys ∨ k'.cr3 = (k'.tasks k'.current).cr3)
    (hm : k'.mem = k.mem) (ht : k'.tasks = k.tasks) (hn : k'.taskCount = k.taskCount)
    (hh : k'.hist = k.hist) : Safe k0 P k' := by
  refine ⟨⟨?_, ?_, ?_, ?_, ?_, hl⟩, ?_, fun i hi hst => ?_⟩
  · rw [hm]
    exact hs.inv
  · rw [ht]
    exact hs.live
  · rw [ht, hm]
    exact hs.root
  · rw [ht]
    exact hs.apart
  · rw [ht, hn]
    exact hs.high
  · rw [hh]
    exact hs.born
  · have hold := hs.kept i hi ⟨ht ▸ hst.live, hh ▸ hst.uid, hst.old⟩
    refine ⟨hold.live, ?_, ?_⟩
    · rw [ht]
      exact hold.cr3
    · rw [hm, ht]
      exact hold.mem

theorem Safe.switchTo (hs : Safe k0 P k) (i : Nat) : Safe k0 P (k.switchTo i) :=
  hs.turn (fun _ => .inr rfl) rfl rfl rfl rfl

/-- The processor leaves ring 3. -/
theorem Safe.off (hs : Safe k0 P k) (mo : Mode) (hne : mo ≠ .user) (hmo : k'.mode = mo) (hm : k'.mem = k.mem)
    (ht : k'.tasks = k.tasks) (hn : k'.taskCount = k.taskCount) (hh : k'.hist = k.hist) : Safe k0 P k' :=
  hs.turn (fun h => absurd (hmo.symm.trans h) hne) hm ht hn hh

theorem WorksOn.saveTask : WorksOn d k k.saveTask := .modTask _ ⟨rfl, id⟩

theorem Safe.switchToNext (hs : Safe k0 P k) : Safe k0 P k.switchToNext := by
  unfold Kernel.switchToNext
  cases k.pickNext k.current with
  | none => exact hs
  | some i =>
    simp only [Option.elim]
    split
    · exact hs
    · exact (WorksOn.saveTask.quiet hs).switchTo i

theorem Safe.block (hs : Safe k0 P k) (hl : (k.tasks k.current).state ≠ .dead) (s : TaskState)
    {f : Task → Task} (hf : ∀ t, (f t).cr3 = t.cr3) : Safe k0 P (k.block s f) := by
  have hset : WorksOn 0 k (k.saveTask.modTask k.current fun t => { f t with state := s }) := by
    refine WorksOn.saveTask.trans (.modTask _ ⟨hf _, fun hd => absurd ?_ hl⟩)
    simpa [Kernel.saveTask] using hd
  unfold Kernel.block
  simp only
  set k1 : Kernel Space := { k.saveTask.modTask k.current fun t => { f t with state := s }
    with mode := .idle } with hk1
  have hidle : Safe k0 P k1 := (hset.quiet hs).off .idle (fun e => by cases e) rfl rfl rfl rfl rfl
  cases k1.pickNext k1.current with
  | none => exact hidle.off .idle (fun e => by cases e) rfl rfl rfl rfl rfl
  | some i => exact hidle.switchTo i

/-! ## The end of a task -/

theorem WorksOn.freeTaskUser (i : Nat) : WorksOn (k.tasks i).cr3 k (k.freeTaskUser i) := by
  unfold Kernel.freeTaskUser
  split
  · exact .refl
  · have hdown : WorksOn (k.tasks i).cr3 k (k.memDo (.teardown (k.tasks i).cr3)) :=
      .memDo rfl (fun e => by cases e)
    exact hdown.trans (.modTask i ⟨rfl, id⟩)

theorem WorksOn.finishTask (i : Nat) (code : UInt8) : WorksOn d k (k.finishTask i code) := by
  obtain ⟨huid, -, hborn, -⟩ := finishTask_hist k i code
  have hcr3 : (k.finishTask i code).cr3 = k.cr3 := by
    unfold Kernel.finishTask wakeParentWaiter
    simp only
    split
    · rfl
    · split <;> rfl
  refine ⟨by rw [finishTask_mem]; exact .refl, by rw [finishTask_mem], fun n => ?_, ⟨huid, hborn⟩,
    finishTask_taskCount k i code, finishTask_current k i code, finishTask_mode k i code, .inl hcr3⟩
  rcases finishTask_task k i code n with ⟨rfl, b, e⟩ | ⟨-, e⟩ | ⟨-, hw, e⟩ <;> rw [e]
  · exact ⟨rfl, fun _ => rfl⟩
  · exact ⟨rfl, id⟩
  · refine ⟨rfl, fun hd => ?_⟩
    rw [hw.2.2.2.1] at hd
    cases hd

/-- **A task that dies takes nothing of the others with it.** -/
theorem Safe.killTask (hs : Safe k0 (P \ {i}) k) (code : UInt8) : Safe k0 P (k.killTask i code) := by
  unfold Kernel.killTask
  split
  · rename_i hno
    refine hs.buried ?_
    rcases hno with hi | hd
    · exact hs.high i hi
    · exact hd
  · have hfree := (WorksOn.freeTaskUser i).safe hs (hs.away_own (.inl fun h => h.2 rfl))
    have hclear : WorksOn 0 (k.freeTaskUser i) ((k.freeTaskUser i).clearFds i) := .clearFds i
    refine ((hclear.trans (.finishTask i code)).quiet hfree).buried (i := i) ?_
    rcases finishTask_task ((k.freeTaskUser i).clearFds i) i code i with ⟨-, b, e⟩ | ⟨hn, -⟩ | ⟨hn, -⟩
    · rw [e]
      rfl
    · exact absurd rfl hn
    · exact absurd rfl hn

theorem Safe.runOrHalt (hs : Safe k0 P k) : Safe k0 P k.runOrHalt := by
  unfold Kernel.runOrHalt
  cases k.pickNext k.current with
  | none => exact hs.off .halt (fun e => by cases e) rfl rfl rfl rfl rfl
  | some i => exact hs.switchTo i

theorem Safe.schedExit (hs : Safe k0 (P \ {k.current}) k) : Safe k0 P k.schedExit := by
  have hnote : Safe k0 (P \ {k.current}) k.noteEnd := hs.alike rfl rfl ⟨rfl, rfl⟩ rfl rfl rfl rfl
  unfold Kernel.schedExit
  simp only
  apply Safe.runOrHalt
  split
  · exact (hnote.killTask (i := k.current) _).off .idle (fun e => by cases e) rfl rfl rfl rfl rfl
  · rename_i h0
    have hd : (k.noteEnd.tasks k.current).state = .dead := hnote.high _ (by omega)
    exact (hnote.buried hd).off .idle (fun e => by cases e) rfl rfl rfl rfl rfl

theorem Safe.exitBySignal (hs : Safe k0 (P \ {k.current}) k) : Safe k0 P k.exitBySignal := by
  have hclear : WorksOn 0 k (k.modTask k.current fun t => { t with pending := 0 }) := .modTask _ ⟨rfl, id⟩
  unfold Kernel.exitBySignal
  simp only
  set k1 : Kernel Space := { k.modTask k.current fun t => { t with pending := 0 } with
    frame := { k.frame with rdi := (k.tasks k.current).exitCode.toUInt64 }
    hist := { k.hist with waiting := Function.update k.hist.waiting k.current false } }
  have hk1 : Safe k0 (P \ {k1.current}) k1 := (hclear.quiet hs).alike rfl rfl ⟨rfl, rfl⟩ rfl rfl rfl rfl
  exact hk1.schedExit.alike rfl rfl ⟨rfl, rfl⟩ rfl rfl rfl rfl

/-! ## Signals -/

/-- Task `i` runs in ring 3. -/
def On (k : Kernel Space) (i : Nat) : Prop := k.mode = .user ∧ k.current = i

instance (k : Kernel Space) (i : Nat) : Decidable (k.On i) := inferInstanceAs (Decidable (_ ∧ _))

/-- `P`, but for `c` when it runs in `k`. -/
def besides (P : Set Nat) (c : Nat) (k : Kernel Space) : Set Nat := { i | i ∈ P ∧ (i = c → ¬ k.On i) }

theorem besides_subset (P : Set Nat) (c : Nat) (k : Kernel Space) : besides P c k ⊆ P := fun _ h => h.1

theorem Safe.enterHandler (hs : Safe k0 P k) (hm : k.mode = .user) (sig : Int) (handler : UInt64) :
    Safe k0 (besides P k.current (k.enterHandler sig handler)) (k.enterHandler sig handler) := by
  have hless : P \ {k.current} ⊆ P := Set.sdiff_subset
  have hpush : WorksOn (k.tasks k.current).cr3 k
      (k.pushUserU64 (k.tasks k.current).cr3 (k.frame.rsp - 8) k.frame.rip).1 := .pushUserU64 _ _
  have hpushed := hpush.safe (hs.mono hless) (hs.away_own (.inl fun h => h.2 rfl))
  unfold Kernel.enterHandler
  split
  · exact (hs.mono hless).exitBySignal.mono (besides_subset _ _ _)
  · simp only
    split
    · refine (hpushed.mono ?_).alike rfl rfl ⟨hpush.hist.1.symm, hpush.hist.2.symm⟩ rfl rfl rfl rfl
      rintro i ⟨hP, hoff⟩
      refine ⟨hP, fun hc => ?_⟩
      exact hoff hc ⟨hpush.mode.trans hm, hpush.current.trans hc.symm⟩
    · refine Safe.mono (Safe.exitBySignal ?_) (besides_subset _ _ _)
      rw [hpush.current]
      exact hpushed

/-- Only the running task's stack is written. -/
theorem Safe.deliverPending (hs : Safe k0 P k) :
    Safe k0 (besides P k.current k.deliverPending) k.deliverPending := by
  unfold Kernel.deliverPending
  split
  · exact hs.mono (besides_subset _ _ _)
  · rename_i hgo
    have hm : k.mode = .user := by
      by_contra hm
      exact hgo (.inr hm)
    simp only
    split
    · exact hs.mono (besides_subset _ _ _)
    · have hclear : ∀ p : UInt8,
          Safe k0 P (k.modTask k.current fun t => { t with pending := t.pending &&& p }) :=
        fun p => (WorksOn.modTask _ ⟨rfl, id⟩).quiet hs
      split
      · exact (Safe.exitBySignal ((hclear _).mono Set.sdiff_subset)).mono (besides_subset _ _ _)
      · refine Safe.enterHandler (WorksOn.quiet (.modTask _ ?_) (hclear _)) hm _ _
        rw [setSigHandler_eq]
        exact ⟨rfl, id⟩

theorem Safe.deliver (hs : Safe k0 P k) (hP : k.current ∉ P) : Safe k0 P k.deliverPending := by
  refine hs.deliverPending.mono fun i hi => ⟨hi, ?_⟩
  rintro rfl
  exact absurd hi hP

end Kernel

end VampireOS
