import Mathlib.Tactic.IntervalCases
import VampireOS.Sched.Fork
import VampireOS.Sched.Lives

/-!
# What wait returns (sched.c:1382-1450, 1538-1688)

A task leaves TASK_WAIT when a child dies, with the exit code in its saved `rax`, or when a signal
is posted; then the signal is dealt with before it runs again. `WaitOk` says of a task in a wait
that one of these holds.
-/

namespace VampireOS

open Lib

namespace Kernel

variable {M : Type} [MemSys M] {A : Label → Prop} {m : M} {k k' : Kernel M} {i u n : Nat}

/-! ## Signals are dealt with -/

/-- Only the two bits of SIGTERM and SIGINT are ever pending. -/
def Bits (k : Kernel M) : Prop := ∀ i, (k.tasks i).pending < 4

omit [MemSys M] in
theorem Bits.one (h : Bits k) (i : Nat) (hi : (k'.tasks i).pending < 4)
    (ho : ∀ n, n ≠ i → k'.tasks n = k.tasks n) :
    Bits k' := by
  intro n
  by_cases hn : n = i
  · exact hn ▸ hi
  · rw [ho n hn]
    exact h n

omit [MemSys M] in
theorem Bits.setFd (h : Bits k) (i j : Nat) (e : FdEntry) : Bits (k.setFd i j e) := by
  refine h.one i ?_ fun n hn => ?_ <;> rw [setFd_tasks]
  · simpa using h i
  · simp [hn]

theorem Bits.dropFd (h : Bits k) (i j : Nat) : Bits (k.dropFd i j) := by
  intro n
  obtain ⟨t, ht, e⟩ := dropFd_task k i j n
  have hp : t.pending < 4 := ht.bits (h n)
  rw [e]
  split
  · exact hp
  · exact hp

omit [MemSys M] in
theorem Bits.blocked (h : Bits k) (s : TaskState) {f : Task → Task}
    (hf : (f { k.tasks k.current with regs := k.frame }).pending = (k.tasks k.current).pending) :
    Bits (k.blocked s f) := by
  refine h.one k.current ?_ fun n hn => by simp [Kernel.blocked, saveTask, hn]
  simp only [Kernel.blocked, saveTask, modTask_tasks, modTask_current, if_true]
  exact hf.symm ▸ h k.current

omit [MemSys M] in
theorem Bits.finishTask (h : Bits k) (i : Nat) (code : UInt8) : Bits (k.finishTask i code) := by
  intro n
  rcases finishTask_task k i code n with ⟨-, b, e⟩ | ⟨-, e⟩ | ⟨-, -, e⟩ <;> rw [e]
  · exact (by decide : (0 : UInt8) < 4)
  · exact h n
  · exact h n

theorem Move.bits {c c' : Ghost × Kernel M} (h : Move A c c') (hs : Shape c.2) (hI : Bits c.2) :
    Bits c'.2 := by
  cases h with
  | quiet hq => exact fun i => (hq.task i).bits (hI i)
  | @chdir g k c pwd hA hm =>
    refine hI.one k.current ?_ fun n hn => by rw [modTask_tasks, if_neg hn]
    rw [modTask_tasks, if_pos rfl]
    exact hI k.current
  | drop i j => exact hI.dropFd i j
  | setFd i j e h0 he hl hj => exact hI.setFd i j e
  | addEnd i j p e h0 he hp hu hl hj => exact hI.setFd i j e
  | @alloc g k p hr hp =>
    rcases allocPipe_cases k with e | ⟨q, phys, -, -, -, e⟩
    · rw [e] at hp; cases hp
    · simp only [e]; exact hI
  | @discard g k p hr hp hu h0 =>
    intro i
    rw [freePipe_tasks]
    exact hI i
  | @read g k fd n =>
    rcases schedPipeRead_cases k fd n with e | ⟨p, u, -, e, -⟩ <;> simp only [e]
    · exact hI
    · exact fun i => (wakePipeWaiters_mild (k.modPipe p u) p i).bits (hI i)
  | @write g k fd src =>
    rcases schedPipeWrite_cases k fd src with e | ⟨p, u, -, e, -⟩ <;> simp only [e]
    · exact hI
    · exact fun i => (wakePipeWaiters_mild (k.modPipe p u) p i).bits (hI i)
  | @pause g k s f hA hm hsl hf => 
    exact hI.blocked s (hf { k.tasks k.current with regs := k.frame } (hs.run hm).2).2.2
  | blockPipe p hA hm hu hw => exact hI.blocked .pipe rfl
  | @swap g k i hA hm hn hi hr =>
    refine hI.one k.current ?_ fun n hn => by simp only [switchTo, saveTask, modTask_tasks, if_neg hn]
    simp only [switchTo, saveTask, modTask_tasks, if_true]
    exact hI k.current
  | @spawn g k i f parent t hA hi hd hk hc ht hf hp =>
    refine hI.one i ?_ fun n hn => spawnTask_other hn
    simp [spawnTask]
  | @doom g k hInt hTerm f hA hm =>
    refine hI.one k.current ?_ fun n hn => by rw [modTask_tasks, if_neg hn]
    rw [modTask_tasks, if_pos rfl]
    exact (by decide : (0 : UInt8) < 4)
  | die code hA hm hf => exact hI.finishTask _ code
  | @blockWait g k w hA hm hw => exact Bits.blocked (k := k.asks) hI .wait rfl
  | @reap g k child hA hm hc hd =>
    refine hI.one child ?_ fun n hn => by simp [reapChild, setRax, asks, hn]
    simpa [reapChild, setRax, asks] using hI child
  | @freeKstack g k i hd =>
    intro n
    rcases freeTaskKstack_task k i n with e | ⟨rfl, e⟩ <;> rw [e] <;> exact hI n
  | _ => exact hI

/-- The counts of what happens to waiting tasks only grow. -/
structure Tally (k k' : Kernel M) : Prop where
  caught : k.hist.caught ≤ k'.hist.caught
  skipped : k.hist.skipped ≤ k'.hist.skipped

omit [MemSys M] in
theorem Tally.of_hist (h : k'.hist.caught = k.hist.caught ∧ k'.hist.skipped = k.hist.skipped) : Tally k k' :=
  ⟨h.1.ge, h.2.ge⟩

omit [MemSys M] in
theorem finishTask_counts (k : Kernel M) (i : Nat) (code : UInt8) :
    (k.finishTask i code).hist.caught = k.hist.caught ∧ (k.finishTask i code).hist.skipped =
    k.hist.skipped := by
  unfold finishTask wakeParentWaiter
  simp only
  split <;> [exact ⟨rfl, rfl⟩; (split <;> exact ⟨rfl, rfl⟩)]

theorem Move.tally {c c' : Ghost × Kernel M} (h : Move A c c') : Tally c.2 c'.2 := by
  cases h with
  | quiet hq => exact ⟨hq.hist.caught, hq.hist.skipped⟩
  | drop i j => exact .of_hist (by rw [dropFd_hist]; exact ⟨rfl, rfl⟩)
  | @alloc g k p hr hp =>
    rcases allocPipe_cases k with e | ⟨q, phys, -, -, -, e⟩
    · rw [e] at hp; cases hp
    · simp only [e]; exact .of_hist ⟨rfl, rfl⟩
  | discard => exact .of_hist (by rw [freePipe_hist]; exact ⟨rfl, rfl⟩)
  | @read g k fd n =>
    rcases schedPipeRead_cases k fd n with e | ⟨p, u, -, e, -⟩ <;> simp only [e] <;> exact .of_hist ⟨rfl, rfl⟩
  | @write g k fd src =>
    rcases schedPipeWrite_cases k fd src with e | ⟨p, u, -, e, -⟩ <;> simp only [e] <;>
      exact .of_hist ⟨rfl, rfl⟩
  | die code hA hm hf => exact .of_hist (finishTask_counts _ _ code)
  | @freeKstack g k i hd =>
    obtain ⟨-, -, -, -, hh, -⟩ := freeTaskKstack_rest k i
    exact .of_hist (by rw [hh]; exact ⟨rfl, rfl⟩)
  | _ => exact .of_hist ⟨rfl, rfl⟩

theorem Moves.tally {c c' : Ghost × Kernel M} (h : Moves A c c') : Tally c.2 c'.2 := by
  induction h with
  | refl => exact ⟨le_rfl, le_rfl⟩
  | tail _ hstep ih =>
    have h := hstep.tally
    exact ⟨ih.caught.trans h.caught, ih.skipped.trans h.skipped⟩

theorem Reaches.tally {r : Ghost} (h : Reaches A r k k') (hs : Shape k) : Tally k k' := by
  obtain ⟨r', -, -, hmoves⟩ := h
  exact (hmoves hs).tally

theorem Reaches.bits {r : Ghost} (h : Reaches A r k k') (hs : Shape k) (hb : Bits k) : Bits k' := by
  obtain ⟨r', -, -, hmoves⟩ := h
  exact (hmoves hs).inv (I := fun c => Bits c.2) (fun _ _ hs hI hm => hm.bits hs hI) hs hb

theorem Reachable.bits (h : Reachable m k) : Bits k := by
  obtain ⟨L, hI⟩ := h.rests (I := fun c => Bits c.2) (fun _ _ _ _ => (by decide : (0 : UInt8) < 4))
    fun c c' hs hI hm => hm.bits hs hI
  exact hI

omit [MemSys M] in
theorem pendingSigno_zero {t : Task} (hb : t.pending < 4) (h : pendingSigno t = 0) : t.pending = 0 := by
  unfold pendingSigno at h
  split at h
  · cases h
  · split at h
    · cases h
    · rename_i h1 h2
      generalize t.pending = p at hb h1 h2
      have hlt : p.toNat < 4 := hb
      rw [← UInt8.ofNat_toNat (x := p)] at h1 h2 ⊢
      interval_cases p.toNat
      · rfl
      · exact absurd (by decide) h2
      · exact absurd (by decide) h1
      · exact absurd (by decide) h1

/-- Who goes on in ring 3 after a wait has no signal pending, unless a count went up since `k0`. -/
def Clear (k0 k : Kernel M) : Prop :=
  k.hist.caught = k0.hist.caught → k.hist.skipped = k0.hist.skipped → k.mode = .user →
    k.hist.waiting k.current = true → (k.tasks k.current).pending = 0

omit [MemSys M] in
theorem Clear.noteSkipped {k0 : Kernel M} (h : Tally k0 k) : Clear k0 k.noteSkipped := by
  intro _ hsk hm hw
  by_contra hp
  have hbad : k.mode = .user ∧ k.hist.waiting k.current = true ∧ (k.tasks k.current).pending ≠ 0 :=
    ⟨hm, hw, hp⟩
  unfold Kernel.noteSkipped at hsk
  simp only [if_pos hbad] at hsk
  have := h.skipped
  omega

theorem killTask_counts (k : Kernel M) (i : Nat) (code : UInt8) :
    (k.killTask i code).hist.caught = k.hist.caught ∧ (k.killTask i code).hist.skipped = k.hist.skipped := by
  unfold killTask
  split
  · exact ⟨rfl, rfl⟩
  · obtain ⟨-, -, -, hc⟩ := clearFds_rest (k := k.freeTaskUser i) i
    obtain ⟨-, -, -, -, hu⟩ := freeTaskUser_rest (k := k) i
    obtain ⟨h1, h2⟩ := finishTask_counts ((k.freeTaskUser i).clearFds i) i code
    rw [h1, h2, hc, hu]
    exact ⟨rfl, rfl⟩

theorem schedExit_counts (k : Kernel M) :
    k.schedExit.hist.caught = k.hist.caught ∧ k.schedExit.hist.skipped = k.hist.skipped := by
  have hpick : ∀ k1 : Kernel M, k1.runOrHalt.hist = k1.hist := by
    intro k1
    unfold runOrHalt
    cases k1.pickNext k1.current <;> rfl
  unfold schedExit
  simp only [hpick]
  split
  · exact killTask_counts k.noteEnd _ _
  · exact ⟨rfl, rfl⟩

theorem exit_clear {k0 : Kernel M} (h : Tally k0 k) : Clear k0 k.schedExit.noteSkipped := by
  obtain ⟨h1, h2⟩ := schedExit_counts k
  exact .noteSkipped ⟨h1 ▸ h.caught, h2 ▸ h.skipped⟩

theorem exitBySignal_clear {k0 : Kernel M} (h : Tally k0 k) : Clear k0 k.exitBySignal :=
  exit_clear ⟨h.caught, h.skipped⟩

theorem enterHandler_clear {k0 : Kernel M} (h : Tally k0 k) (sig : Int) (handler : UInt64) :
    Clear k0 (k.enterHandler sig handler) := by
  rcases enterHandler_cases k sig handler with e | ⟨cr3, va, b, e | e⟩ <;> rw [e]
  · exact exitBySignal_clear h
  · exact exitBySignal_clear (k := k.memDo _) ⟨h.caught, h.skipped⟩
  · intro hc _ _ hw
    have hw : k.hist.waiting k.current = true := hw
    simp only [if_pos hw] at hc
    have := h.caught
    omega

theorem deliverPending_clear {k0 : Kernel M} (h : Tally k0 k) (hs : Shape k) (hb : Bits k) :
    Clear k0 k.deliverPending := by
  unfold deliverPending
  by_cases h0 : k.taskCount = 0 ∨ k.mode ≠ .user
  · rw [if_pos h0]
    intro _ _ hm
    have := (hs.run hm).1
    rcases h0 with h0 | h0
    · omega
    · exact absurd hm h0
  · rw [if_neg h0]
    simp only
    split
    · rename_i hsig
      exact fun _ _ _ _ => pendingSigno_zero (hb _) hsig
    · split
      · exact exitBySignal_clear (k := k.modTask _ _) ⟨h.caught, h.skipped⟩
      · exact enterHandler_clear (k := (k.modTask _ _).modTask _ _) ⟨h.caught, h.skipped⟩ _ _

/-! ## Answers -/

/-- The registers of slot `i` hold the answer of a wait: -1, or the code of a child that task `u`
collected after the first `n` reports. -/
def Answered (i u n : Nat) (k : Kernel M) : Prop :=
  (k.regsOf i).rax = minusOne ∨
    ∃ r ∈ k.hist.reports.drop n, r.waiter = u ∧ (k.regsOf i).rax = r.code.toUInt64

/-- The task `u` in slot `i`, when it is in a wait, still waits, has its answer, or has a signal to
deal with. -/
structure WaitOk (i u n : Nat) (k : Kernel M) : Prop where
  reports : n ≤ k.hist.reports.length
  wait : k.hist.waiting i = true → k.hist.uid i = u → (k.tasks i).state ≠ .dead →
    (k.tasks i).state = .wait ∨ Answered i u n k ∨ (k.tasks i).pending ≠ 0

/-- Nothing a wait of slot `i` looks at changes, except that a signal may be posted. -/
structure Rest (i : Nat) (k k' : Kernel M) : Prop where
  waiting : k'.hist.waiting i = true → k.hist.waiting i = true
  uid : k'.hist.waiting i = true → k'.hist.uid i = k.hist.uid i
  reports : ∃ l, k'.hist.reports = k.hist.reports ++ l
  alive : (k'.tasks i).state ≠ .dead → (k.tasks i).state ≠ .dead
  held : k'.hist.waiting i = true → (k'.tasks i).state ≠ .dead → Held k k' i

omit [MemSys M] in
theorem Answered.grow (h : Answered i u n k) (hr : k'.regsOf i = k.regsOf i)
    (hl : ∃ l, k'.hist.reports = k.hist.reports ++ l) : Answered i u n k' := by
  obtain ⟨l, hl⟩ := hl
  rcases h with h | ⟨r, hr', h1, h2⟩
  · exact .inl (hr ▸ h)
  · refine .inr ⟨r, ?_, h1, hr ▸ h2⟩
    rw [hl, List.drop_append]
    exact List.mem_append_left _ hr'

omit [MemSys M] in
theorem WaitOk.rest (hI : WaitOk i u n k) (h : Rest i k k') : WaitOk i u n k' := by
  obtain ⟨l, hl⟩ := h.reports
  refine ⟨?_, fun hw hu hd => ?_⟩
  · rw [hl, List.length_append]
    exact hI.reports.trans (Nat.le_add_right _ _)
  · obtain ⟨hp, hheld⟩ := h.held hw hd
    rcases hheld with hpend | ⟨hregs, hstate⟩
    · exact .inr (.inr hpend)
    · rcases hI.wait (h.waiting hw) ((h.uid hw).symm.trans hu) (h.alive hd) with h1 | h1 | h1
      · exact .inl (hstate h1)
      · exact .inr (.inl (h1.grow hregs ⟨l, hl⟩))
      · exact .inr (.inr (hp h1))

omit [MemSys M] in
/-- The history and the slot are the same, and so are its registers. -/
theorem Rest.same (hh : k'.hist = k.hist) (ht : k'.tasks i = k.tasks i)
    (hr : k'.regsOf i = k.regsOf i) : Rest i k k' where
  waiting := by rw [hh]; exact id
  uid := by rw [hh]; exact fun _ => rfl
  reports := ⟨[], by rw [hh, List.append_nil]⟩
  alive := by rw [ht]; exact id
  held _ _ := .of_same ht hr

omit [MemSys M] in
theorem regsOf_eq (hm : k'.mode = k.mode) (hc : k'.current = k.current) (hf : k'.frame = k.frame)
    (hr : (k'.tasks i).regs = (k.tasks i).regs) : k'.regsOf i = k.regsOf i := by
  unfold regsOf
  rw [hm, hc, hf, hr]

omit [MemSys M] in
theorem regsOf_other (h : ¬ (k.mode = .user ∧ k.current = i)) : k.regsOf i = (k.tasks i).regs := if_neg h

omit [MemSys M] in
/-- Not on the processor before and after. -/
theorem regsOf_away (h' : ¬ (k'.mode = .user ∧ k'.current = i)) (h : ¬ (k.mode = .user ∧ k.current = i))
    (hr : (k'.tasks i).regs = (k.tasks i).regs) : k'.regsOf i = k.regsOf i := by
  rw [regsOf_other h', regsOf_other h, hr]

omit [MemSys M] in
/-- The history is the same and the slot differs in other fields. -/
theorem Rest.task (hh : k'.hist = k.hist) (hm : k'.mode = k.mode) (hc : k'.current = k.current)
    (hf : k'.frame = k.frame) (hr : (k'.tasks i).regs = (k.tasks i).regs)
    (hp : (k'.tasks i).pending = (k.tasks i).pending)
    (hw : (k.tasks i).state = .wait → (k'.tasks i).state = .wait)
    (hd : (k.tasks i).state = .dead → (k'.tasks i).state = .dead) : Rest i k k' where
  waiting := by rw [hh]; exact id
  uid := by rw [hh]; exact fun _ => rfl
  reports := ⟨[], by rw [hh, List.append_nil]⟩
  alive hl h := hl (hd h)
  held _ _ := ⟨fun h => hp.symm ▸ h, .inr ⟨regsOf_eq hm hc hf hr, hw⟩⟩

omit [MemSys M] in
theorem Rest.mild (hh : k'.hist = k.hist) (ht : Mild (k.tasks i) (k'.tasks i)) (hm : k'.mode = k.mode)
    (hc : k'.current = k.current) (hf : k'.frame = k.frame) : Rest i k k' :=
  .task hh hm hc hf ht.sameRegs ht.samePending ht.stays ht.toCalm.dead.2

theorem Rest.dropFd (j l : Nat) : Rest i k (k.dropFd j l) := by
  obtain ⟨t, ht, e⟩ := dropFd_task k j l i
  split at e
  · refine .task (dropFd_hist k j l) (dropFd_mode k j l) (dropFd_current k j l) (dropFd_frame k j l)
      ?_ ?_ ?_ ?_ <;> rw [e]
    · exact ht.sameRegs
    · exact ht.samePending
    · exact ht.stays
    · exact ht.toCalm.dead.2
  · exact .mild (dropFd_hist k j l) (e ▸ ht) (dropFd_mode k j l) (dropFd_current k j l) (dropFd_frame k j l)

omit [MemSys M] in
theorem Rest.setFd (j l : Nat) (e : FdEntry) : Rest i k (k.setFd j l e) := by
  refine .task rfl rfl rfl rfl ?_ ?_ ?_ ?_ <;> rw [setFd_tasks] <;> by_cases hi : i = j <;> simp [hi]

omit [MemSys M] in
/-- The running task leaves the processor, but not for a wait. -/
theorem Rest.blocked (hs : Shape k) (hm : k.mode = .user) {s : TaskState} {f : Task → Task}
    (hf : ∀ t : Task, t.state = .ready → (f t).regs = t.regs ∧ (f t).pending = t.pending) :
    Rest i k (k.blocked s f) := by
  obtain ⟨-, hr⟩ := hs.run hm
  by_cases hi : i = k.current
  · subst hi
    have hself : (k.blocked s f).tasks k.current = { f { k.tasks k.current with regs := k.frame }
        with state := s } := by
      simp [Kernel.blocked, saveTask]
    obtain ⟨h1, h2⟩ := hf { k.tasks k.current with regs := k.frame } hr
    refine ⟨id, fun _ => rfl, ⟨[], (List.append_nil _).symm⟩, fun _ => hs.current_live hm,
      fun _ _ => ⟨?_, .inr ⟨?_, ?_⟩⟩⟩
    · rw [hself]
      exact fun h => h2.symm ▸ h
    · rw [regsOf_other (fun h => by cases h.1), hself]
      exact h1.trans (if_pos ⟨hm, rfl⟩).symm
    · rw [hr]
      exact fun h => by cases h
  · have hother : (k.blocked s f).tasks i = k.tasks i := by simp [Kernel.blocked, saveTask, hi]
    exact .same rfl hother (regsOf_away (fun h => by cases h.1) (fun h => hi h.2.symm)
      (congrArg Task.regs hother))

omit [MemSys M] in
/-- The trap of the task itself ends its wait; the others keep theirs. -/
theorem WaitOk.trap (f : Frame) (hI : WaitOk i u n k) : WaitOk i u n (k.trap f) := by
  by_cases hi : i = k.current
  · subst hi
    exact ⟨hI.reports, fun hw => absurd hw (by simp [Kernel.trap])⟩
  · refine hI.rest ⟨?_, fun _ => rfl, ⟨[], (List.append_nil _).symm⟩, id, fun _ _ => .of_same rfl ?_⟩
    · simp [Kernel.trap, hi]
    · exact regsOf_away (fun h => hi h.2.symm) (fun h => hi h.2.symm) rfl

omit [MemSys M] in
theorem WaitOk.doom (hInt hTerm : UInt64) (f : Frame) (hI : WaitOk i u n k) : WaitOk i u n
    { k.modTask k.current fun t => { t with pending := 0, handlerInt := hInt, handlerTerm := hTerm } with
      frame := f, hist := { k.hist with waiting := Function.update k.hist.waiting k.current false } } := by
  by_cases hi : i = k.current
  · subst hi
    exact ⟨hI.reports, fun hw => absurd hw (by simp)⟩
  · refine hI.rest ⟨?_, fun _ => rfl, ⟨[], (List.append_nil _).symm⟩, ?_, fun _ _ => .of_same ?_ ?_⟩
    · simp [hi]
    · simp [hi]
    · simp [hi]
    · exact regsOf_away (fun h => hi h.2.symm) (fun h => hi h.2.symm) (by simp [hi])

omit [MemSys M] in
theorem WaitOk.spawn (j : Nat) (parent : Option Nat) (t : Task) (hI : WaitOk i u n k) :
    WaitOk i u n (k.spawnTask j parent t) := by
  by_cases hi : i = j
  · subst hi
    exact ⟨hI.reports, fun hw => absurd hw (by simp [spawnTask])⟩
  · have ht : (k.spawnTask j parent t).tasks i = k.tasks i := spawnTask_other hi
    refine hI.rest ⟨?_, fun _ => ?_, ⟨[], (List.append_nil _).symm⟩, by rw [ht]; exact id,
      fun _ _ => .of_same ht ?_⟩
    · simp [spawnTask, hi]
    · simp [spawnTask, hi]
    · exact regsOf_eq rfl rfl rfl (congrArg Task.regs ht)

omit [MemSys M] in
/-- The end of a task: who waits for it gets its code. -/
theorem WaitOk.die (code : UInt8) (hI : WaitOk i u n k) :
    WaitOk i u n { k.finishTask k.current code with mode := .idle } := by
  obtain ⟨huid, -⟩ := finishTask_hist k k.current code
  have hwaiting : (k.finishTask k.current code).hist.waiting = k.hist.waiting := by
    unfold finishTask wakeParentWaiter
    simp only
    split <;> [rfl; (split <;> rfl)]
  rcases finishTask_task k k.current code i with ⟨hi, b, e⟩ | ⟨hi, e⟩ | ⟨hi, hw, e⟩
  · refine ⟨?_, fun _ _ hd => absurd ?_ hd⟩
    · rcases finishTask_reports k k.current code with e | ⟨p, -, e⟩ <;> simp only [e]
      · exact hI.reports
      · exact hI.reports.trans (by simp)
    · simp only [e]
      rfl
  · have hgrow : ∃ l, (k.finishTask k.current code).hist.reports = k.hist.reports ++ l := by
      rcases finishTask_reports k k.current code with e | ⟨p, -, e⟩
      · exact ⟨[], by rw [e, List.append_nil]⟩
      · exact ⟨_, e⟩
    refine hI.rest ⟨?_, fun _ => ?_, hgrow, ?_, fun _ _ => .of_same e ?_⟩
    · simp only [hwaiting]; exact id
    · simp only [huid]
    · simp only [e]; exact id
    · exact regsOf_away (fun h => by cases h.1) (fun h => hi h.2.symm) (congrArg Task.regs e)
  · rcases finishTask_cases k k.current code with ⟨hno, -⟩ | ⟨p, hp, -, hrep⟩
    · exact absurd hw (hno i)
    · have hpi : p = i := Option.some.inj (hp.1.symm.trans hw.1)
      subst hpi
      refine ⟨?_,
        fun _ hu _ =>
        .inr (.inl (.inr ⟨⟨k.hist.uid p, k.current, k.hist.forkedBy k.current, k.hist.died,
        code⟩, ?_, ?_, ?_⟩))⟩
      · simp only [hrep]
        exact hI.reports.trans (by simp)
      · simp only [hrep]
        rw [List.drop_append_of_le_length hI.reports]
        exact List.mem_append_right _ List.mem_cons_self
      · simp only [huid] at hu
        exact hu
      · rw [regsOf_other fun h => by cases h.1]
        simp only [e]
        rfl

omit [MemSys M] in
theorem Rest.swap {j : Nat} (hm : k.mode = .user) (hn : j ≠ k.current) :
    Rest i k (k.saveTask.switchTo j) := by
  have ht : (k.saveTask.switchTo j).tasks i =
      if i = k.current then { k.tasks i with regs := k.frame } else k.tasks i := by
    by_cases hi : i = k.current
    · subst hi; simp [switchTo, saveTask]
    · simp [switchTo, saveTask, hi]
  refine ⟨id, fun _ => rfl, ⟨[], (List.append_nil _).symm⟩, ?_, fun _ _ => ⟨?_, .inr ⟨?_, ?_⟩⟩⟩
  · rw [ht]; split <;> exact id
  · rw [ht]; split <;> exact id
  · by_cases hi : i = k.current
    · subst hi
      refine (regsOf_other (i := k.current) fun h => hn h.2).trans ?_
      rw [ht, if_pos rfl]
      exact (if_pos ⟨hm, rfl⟩).symm
    · rw [regsOf_other (k := k) fun h => hi h.2.symm]
      by_cases hj : i = j
      · subst hj
        exact (if_pos ⟨rfl, rfl⟩).trans (by simp [switchTo, saveTask, hi])
      · refine (regsOf_other (i := i) fun h => hj h.2.symm).trans ?_
        rw [ht, if_neg hi]
  · rw [ht]; split <;> exact id

omit [MemSys M] in
/-- A wait of another task. -/
theorem Rest.asks (hi : i ≠ k.current) : Rest i k k.asks where
  waiting := by simp [Kernel.asks, hi]
  uid _ := rfl
  reports := ⟨[], (List.append_nil _).symm⟩
  alive := id
  held _ _ := .of_same rfl rfl

omit [MemSys M] in
/-- The wait of slot `i` has its answer. -/
theorem WaitOk.answered (hn : n ≤ k.hist.reports.length) (h : k.hist.uid i = u → Answered i u n k) :
    WaitOk i u n k :=
  ⟨hn, fun _ hu _ => .inr (.inl (h hu))⟩

omit [MemSys M] in
/-- A wait that finds a zombie has its answer at once. -/
theorem WaitOk.reap (hm : k.mode = .user) (child : Nat) (hI : WaitOk i u n k) :
    WaitOk i u n ((k.asks.reapChild k.current child).setRax (k.tasks child).exitCode.toUInt64) := by
  set r : Report :=
    ⟨k.hist.uid k.current, child, k.hist.forkedBy child, k.hist.death child, (k.tasks child).exitCode⟩ with hr
  set k' := (k.asks.reapChild k.current child).setRax (k.tasks child).exitCode.toUInt64 with hk'
  have hrep : k'.hist.reports = k.hist.reports ++ [r] := rfl
  by_cases hi : i = k.current
  · subst hi
    refine .answered ?_ fun hu => .inr ⟨r, ?_, hu, ?_⟩
    · rw [hrep]
      exact hI.reports.trans (by simp)
    · rw [hrep, List.drop_append_of_le_length hI.reports]
      exact List.mem_append_right _ List.mem_cons_self
    · exact congrArg Frame.rax (if_pos ⟨hm, rfl⟩)
  · have ht : k'.tasks i = if i = child then { k.tasks child with reaped := true } else k.tasks i :=
      modTask_tasks k.asks child i fun t => { t with reaped := true }
    refine (hI.rest (.asks hi)).rest ⟨id, fun _ => rfl, ⟨_, hrep⟩, ?_, fun _ _ => ⟨?_, .inr
      ⟨regsOf_away (fun h => hi h.2.symm) (fun h => hi h.2.symm) ?_, ?_⟩⟩⟩ <;> rw [ht] <;>
        by_cases hc : i = child <;>
      simp [hc, Kernel.asks]

/-- Every move keeps what is known of a wait, unless a handler is entered out of one. -/
theorem Move.waitOk {c c' : Ghost × Kernel M} (h : Move A c c') (hs : Shape c.2) (hst : ¬ A .stop)
    (hc : c'.2.hist.caught ≤ c.2.hist.caught) (hI : WaitOk i u n c.2) : WaitOk i u n c'.2 := by
  cases h with
  | @quiet g k k' hq =>
    have hh := hq.hist
    refine hI.rest ⟨fun h => hh.waiting ▸ h, fun _ => by rw [hh.uid],
      ⟨[], by rw [hh.reports, List.append_nil]⟩, fun hd h => hd ((hq.task i).dead.2 h),
      fun hw _ => ?_⟩
    exact (hq.waits i (hh.waiting ▸ hw)).resolve_left (Nat.not_lt.2 hc)
  | trap f hm => exact hI.trap f
  | @chdir g k c pwd hA hm =>
    refine hI.rest (.task rfl rfl rfl rfl ?_ ?_ ?_ ?_) <;> rw [modTask_tasks] <;> split <;> rename_i hi
    · rw [hi]
    · rfl
    · rw [hi]
    · rfl
    · exact hi ▸ id
    · exact id
    · exact hi ▸ id
    · exact id
  | shell s hA hp => exact hI.rest (.same rfl rfl rfl)
  | drop j l => exact hI.rest (.dropFd j l)
  | setFd j l e h0 he hl hj => exact hI.rest (.setFd j l e)
  | @addEnd g k j l p e h0 he hp hu hl hj =>
    exact (hI.rest (.setFd j l e)).rest (.same rfl rfl rfl)
  | @alloc g k p hr hp =>
    rcases allocPipe_cases k with e | ⟨q, phys, -, -, -, e⟩
    · rw [e] at hp; cases hp
    · simp only [e]; exact hI.rest (.same rfl rfl rfl)
  | settle => exact hI
  | @discard g k p hr hp hu h0 =>
    have ht := freePipe_tasks k p
    exact hI.rest
      (.same (freePipe_hist k p) (by rw [ht]) (regsOf_eq (freePipe_mode k p) (freePipe_current k p)
      (freePipe_frame k p) (by rw [ht])))
  | @read g k fd l =>
    rcases schedPipeRead_cases k fd l with e | ⟨p, v, -, e, -⟩ <;> simp only [e]
    · exact hI
    · exact hI.rest (.mild rfl (wakePipeWaiters_mild (k.modPipe p v) p i) rfl rfl rfl)
  | @write g k fd src =>
    rcases schedPipeWrite_cases k fd src with e | ⟨p, v, -, e, -⟩ <;> simp only [e]
    · exact hI
    · exact hI.rest (.mild rfl (wakePipeWaiters_mild (k.modPipe p v) p i) rfl rfl rfl)
  | pause s f hA hm hsl hf => exact hI.rest (.blocked hs hm fun t ht => (hf t ht).2)
  | blockPipe p hA hm hu hw => exact hI.rest (.blocked hs hm fun t ht => ⟨rfl, rfl⟩)
  | @freeKstack g k j hd =>
    obtain ⟨-, -, hcur, hmode, hh, -⟩ := freeTaskKstack_rest k j
    have hframe : (k.freeTaskKstack j).frame = k.frame := by
      unfold freeTaskKstack
      split <;> [rfl; (simp only; split <;> rfl)]
    refine hI.rest (.task hh hmode hcur hframe ?_ ?_ ?_ ?_) <;>
      rcases freeTaskKstack_task k j i with e | ⟨rfl, e⟩ <;> rw [e] <;> first | rfl | exact id
  | take h => exact hI.rest (.same rfl rfl rfl)
  | noFrame h => exact hI.rest (.same rfl rfl rfl)
  | give h => exact hI.rest (.same rfl rfl rfl)
  | stop hA hS => exact absurd hS hst
  | halt hA hm h =>
    exact hI.rest (.same rfl rfl (regsOf_away (fun h => by cases h.1) (fun h => by rw [hm] at h; cases h.1) rfl))
  | @spawn g k j f parent t hA hj hd hk hc ht hf hp => exact hI.spawn j parent t
  | doom hInt hTerm f hA hm => exact hI.doom hInt hTerm f
  | die code hA hm hf => exact hI.die code
  | @load g k j hA hm hj hr =>
    refine hI.rest (.same rfl rfl ?_)
    by_cases hi : i = j
    · subst hi
      exact (if_pos ⟨rfl, rfl⟩).trans (regsOf_other fun h => hm h.1).symm
    · exact regsOf_away (fun h => hi h.2.symm) (fun h => hm h.1) rfl
  | swap j hA hm hn hj hr => exact hI.rest (.swap hm hn)
  | @grow g k h =>
    have hno : k.mode = .user → k.taskCount ≠ 0 := fun hm => by
      have := (hs.run hm).1
      change k.current < k.taskCount at this
      omega
    refine hI.rest (.same rfl rfl ?_)
    by_cases hm : k.mode = .user
    · exact regsOf_eq rfl (if_neg (hno hm)) rfl rfl
    · exact regsOf_away (fun h => hm h.1) (fun h => hm h.1) rfl
  | @blockWait g k w hA hm hw =>
    have hs1 : Shape k.asks := hs.same rfl rfl rfl rfl rfl
    by_cases hi : i = k.current
    · exact ⟨hI.reports, fun _ _ _ => .inl (by simp [Kernel.blocked, asks, hi])⟩
    · exact (hI.rest (.asks hi)).rest (.blocked hs1 hm fun t ht => ⟨rfl, rfl⟩)
  | @reap g k child hA hm hc hd => exact hI.reap hm child
  | @refuse g k hA hm =>
    by_cases hi : i = k.current
    · subst hi
      exact .answered hI.reports fun _ => .inl (congrArg Frame.rax (if_pos ⟨hm, rfl⟩))
    · exact (hI.rest (.asks hi)).rest
        (.same rfl rfl (regsOf_away (fun h => hi h.2.symm) (fun h => hi h.2.symm) rfl))
  | @askPending g k hA hm hp =>
    by_cases hi : i = k.current
    · subst hi
      exact ⟨hI.reports, fun _ _ _ => .inr (.inr hp)⟩
    · exact hI.rest (.asks hi)

/-! ## Runs -/

/-- What is known after a wait of slot `i` began in `k0`, as long as no count has gone up. -/
structure Under (k0 : Kernel M) (i : Nat) (k : Kernel M) : Prop where
  tally : Tally k0 k
  mode : k.mode ≠ .boot
  wait : k.hist.caught ≤ k0.hist.caught → k.mode ≠ .stop → WaitOk i (k0.hist.uid i) k0.hist.reports.length k
  clear : Clear k0 k

theorem Move.booted {c c' : Ghost × Kernel M} (h : Move A c c') (hm : c.2.mode ≠ .boot) :
    c'.2.mode ≠ .boot := by
  cases h with
  | quiet hq => exact fun h => hm (hq.mode.symm.trans h)
  | @drop g k i j => exact fun h => hm ((dropFd_mode k i j).symm.trans h)
  | @alloc g k p hr hp =>
    rcases allocPipe_cases k with e | ⟨q, phys, -, -, -, e⟩
    · rw [e] at hp; cases hp
    · simp only [e]; exact hm
  | @discard g k p => exact fun h => hm ((freePipe_mode k p).symm.trans h)
  | @read g k fd n =>
    rcases schedPipeRead_cases k fd n with e | ⟨p, u, -, e, -⟩ <;> simp only [e] <;> exact hm
  | @write g k fd src =>
    rcases schedPipeWrite_cases k fd src with e | ⟨p, u, -, e, -⟩ <;> simp only [e] <;> exact hm
  | pause => nofun
  | blockPipe => nofun
  | load => nofun
  | swap => nofun
  | halt => nofun
  | stop => nofun
  | die => nofun
  | blockWait => nofun
  | @freeKstack g k i hd => exact fun h => hm ((freeTaskKstack_rest k i).2.2.2.1.symm.trans h)
  | _ => exact hm

theorem Moves.booted {c c' : Ghost × Kernel M} (h : Moves A c c') (hm : c.2.mode ≠ .boot) :
    c'.2.mode ≠ .boot := by
  induction h with
  | refl => exact hm
  | tail _ hstep ih => exact Move.booted hstep ih

theorem Moves.waitOk {c c' : Ghost × Kernel M} (h : Moves A c c') (hs : Shape c.2) (hst : ¬ A .stop)
    (hc : c'.2.hist.caught ≤ c.2.hist.caught) (hI : WaitOk i u n c.2) : WaitOk i u n c'.2 := by
  induction h with
  | refl => exact hI
  | @tail b c' hrun hstep ih =>
    have h1 : Tally c.2 b.2 := Moves.tally hrun
    have h2 : Tally b.2 c'.2 := hstep.tally
    exact hstep.waitOk (Moves.shape hrun hs) hst (hc.trans h1.caught) (ih (h2.caught.trans hc))

omit [MemSys M] in
theorem Tally.trans {k0 : Kernel M} (h : Tally k0 k) (h' : Tally k k') : Tally k0 k' :=
  ⟨h.caught.trans h'.caught, h.skipped.trans h'.skipped⟩

/-- An event ends with the delivery of signals, after moves that only count upwards. -/
theorem deliver_clear {k0 : Kernel M} {r : Ghost} (h : Reaches A r k k') (hs : Shape k)
    (hb : Bits k) (ht : Tally k0 k) :
    Clear k0 k'.deliverPending :=
  deliverPending_clear (ht.trans (h.tally hs)) (h.shape hs) (h.bits hs hb)

theorem exception_clear {k0 : Kernel M} (hs : Shape k) (hb : Bits k) (ht : Tally k0 k) (f : Frame)
    (vector error cr2 : Nat) : Clear k0 ((k.trap f).exceptionHandler vector error cr2) := by
  have hs1 : Shape (k.trap f) := hs.same rfl rfl rfl rfl rfl
  have ht1 : Tally k0 (k.trap f) := ⟨ht.caught, ht.skipped⟩
  unfold exceptionHandler
  split
  · simp only
    split
    · exact deliver_clear (A := fun _ => True) (r := ⟨none, none, ∅⟩)
        (memDo_goes (.cowBreak _ cr2) rfl).reaches hs1 hb ht1
    · split
      · exact exit_clear (k := { (k.trap f).memDo _ with frame := _ }) ⟨ht.caught, ht.skipped⟩
      · exact exit_clear (k := { k.trap f with frame := _ }) ⟨ht.caught, ht.skipped⟩
  · exact fun _ _ h => by cases h

theorem step_clear {k0 : Kernel M} (hs : Shape k) (hb : Bits k) (ht : Tally k0 k)
    (hm : k.mode ≠ .boot) (e : Event)
    (hI : (∃ f io, e = .syscall f io ∧ k.mode = .user) ∨ Clear k0 k) : Clear k0 (k.step e) := by
  set r : Ghost := ⟨none, none, ∅⟩
  have hold : (¬ ∃ f io, e = .syscall f io ∧ k.mode = .user) → Clear k0 k := fun h => hI.resolve_left h
  cases e with
  | syscall f io =>
    by_cases hu : k.mode = .user
    · simp only [step, if_pos hu]
      refine deliver_clear (A := fun _ => True) (r := r) (k := k.enterCall f io) ?_
        (hs.same rfl rfl rfl rfl rfl) hb ⟨ht.caught, ht.skipped⟩
      exact userOnSyscall_reaches (k := k.enterCall f io) hu (trap_own (k := k) f) trivial trivial rfl rfl
        (fun _ => trivial) io
    · simp only [step, if_neg hu]
      exact hold fun h => hu h.choose_spec.choose_spec.2
  | exception f vector error cr2 =>
    by_cases hu : k.mode = .user
    · simp only [step, if_pos hu]
      exact exception_clear hs hb ht f vector error cr2
    · simp only [step, if_neg hu]
      exact hold (by rintro ⟨_, _, h, _⟩; cases h)
  | irq f pages errs acts =>
    by_cases hu : k.mode = .stop
    · simp only [step, if_pos hu]
      exact hold (by rintro ⟨_, _, h, _⟩; cases h)
    · simp only [step, if_neg hu]
      set k1 := (if k.mode = .user then k.trap f else k).supply pages errs with hk1
      have hs1 : Shape k1 := by
        rw [hk1]
        split
        · exact hs.same rfl rfl rfl rfl rfl
        · exact hs.same rfl rfl rfl rfl rfl
      have hb1 : Bits k1 := by
        rw [hk1]
        split <;> exact hb
      have ht1 : Tally k0 k1 := by
        rw [hk1]
        split <;> exact ⟨ht.caught, ht.skipped⟩
      exact deliver_clear (A := fun _ => True) (r := r)
        (acts_reaches trivial trivial rfl acts fun _ => trivial) hs1 hb1 ht1
  | store virt b =>
    have h := hold (by rintro ⟨_, _, h, _⟩; cases h)
    simp only [step]
    split
    · exact h
    · exact h
  | idle =>
    by_cases hu : k.mode = .idle
    · simp only [step, if_pos hu]
      refine deliver_clear (A := fun _ => True) (r := r) (k := k) ?_ hs hb ht
      exact (idleTurn_goes trivial (by rw [hu]; exact fun h => by cases h)).reaches
    · simp only [step, if_neg hu]
      exact hold (by rintro ⟨_, _, h, _⟩; cases h)
  | enter =>
    simp only [step, if_neg fun h : k.mode = .boot ∧ k.taskCount ≠ 0 ∧ (k.tasks k.current).state =
      .ready => hm h.1]
    exact hold (by rintro ⟨_, _, h, _⟩; cases h)

/-- A system call of slot `i` begins in `k0`. -/
theorem Under.call {k0 : Kernel M} (hk : Reachable m k0) (hm : k0.mode = .user) (f : Frame) (io : Io) :
    Under k0 k0.current (k0.step (.syscall f io)) := by
  set r : Ghost := ⟨none, none, ∅⟩
  have hs := hk.shape
  have hs1 : Shape (k0.enterCall f io) := hs.same rfl rfl rfl rfl rfl
  obtain ⟨r1, -, e1, hcall⟩ : Reaches (· ≠ .stop) r (k0.enterCall f io)
      ((k0.enterCall f io).userOnSyscall io) :=
    userOnSyscall_reaches (k := k0.enterCall f io) hm (trap_own (k := k0) f) nofun nofun
      rfl rfl (fun _ => nofun) io
  have hall : Moves (· ≠ .stop) (r, k0.enterCall f io)
      (r1, ((k0.enterCall f io).userOnSyscall io).deliverPending) :=
    (hcall hs1).trans (deliverPending_goes nofun nofun e1 (hcall.shape hs1))
  have hstep : k0.step (.syscall f io) = ((k0.enterCall f io).userOnSyscall io).deliverPending := if_pos hm
  have htally : Tally k0 (k0.step (.syscall f io)) := by
    have h : Tally (k0.enterCall f io) ((k0.enterCall f io).userOnSyscall io).deliverPending := hall.tally
    exact hstep ▸ ⟨h.caught, h.skipped⟩
  have hstart : WaitOk k0.current (k0.hist.uid k0.current) k0.hist.reports.length (k0.enterCall f io) :=
    ⟨le_rfl, fun hw => absurd hw (by simp [enterCall, Kernel.trap, supply])⟩
  refine ⟨htally, ?_, fun hc _ => ?_, ?_⟩
  · rw [hstep]
    exact hall.booted (by rw [show (k0.enterCall f io).mode = k0.mode from rfl, hm]; nofun)
  · rw [hstep] at hc ⊢
    exact hall.waitOk hs1 (fun h => h rfl) hc hstart
  · exact step_clear hs hk.bits ⟨le_rfl, le_rfl⟩ (by rw [hm]; nofun) _ (.inl ⟨f, io, rfl, hm⟩)

/-- Only an exception other than a page fault stops the machine. -/
theorem step_stops {e : Event} (h : e.labels k .stop) : k.step e = k ∨ (k.step e).mode = .stop := by
  cases e with
  | exception f v error cr2 =>
    have hv : v ≠ 14 := by
      rcases h with h | h | h
      · cases h
      · cases h
      · exact h.2
    by_cases hm : k.mode = .user
    · refine .inr ?_
      simp only [Kernel.step, if_pos hm, exceptionHandler, if_neg hv]
    · exact .inl (if_neg hm)
  | syscall f io =>
    rcases h with h | h | h
    · cases h
    · cases h
    · cases h.1
  | irq f pages errs acts =>
    rcases h with h | h | h | h
    · cases h
    · cases h
    · cases h
    · cases h.1
  | store virt b => exact h.elim
  | idle =>
    rcases h with h | h
    · cases h
    · cases h
  | enter => cases h

theorem Under.step {k0 : Kernel M} (hk : Reachable m k) (h : Under k0 i k) (e : Event) :
    Under k0 i (k.step e) := by
  have hs := hk.shape
  obtain ⟨r, -, -, hmoves⟩ := step_reaches (r := ⟨none, none, ∅⟩) (k := k) rfl rfl e
  have htally : Tally k (k.step e) := (hmoves hs).tally
  refine ⟨h.tally.trans htally, (hmoves hs).booted h.mode, fun hc hstop => ?_,
    step_clear hs hk.bits h.tally h.mode e (.inr h.clear)⟩
  have hk' : k.mode ≠ .stop := fun hm => hstop (by
    cases e <;> simp [Kernel.step, hm])
  have hI := h.wait (htally.caught.trans hc) hk'
  by_cases hl : e.labels k .stop
  · rcases step_stops hl with e | e
    · exact e.symm ▸ hI
    · exact absurd e hstop
  · exact (hmoves hs).waitOk hs hl (hc.trans h.tally.caught) hI

theorem Under.run {k0 : Kernel M} (hk : Reachable m k) (h : Under k0 i k) (es : List Event) :
    Under k0 i (k.run es) := by
  induction es generalizing k with
  | nil => exact h
  | cons e es ih => exact ih (hk.step e) (h.step hk e)

/-- A task that made the call `f` in `k`, a wait, is back in ring 3 with -1, or with the code of a
child it has collected since. -/
def WaitReturns (k : Kernel M) (f : Frame) (k' : Kernel M) : Prop :=
  f.rax = 5 → k'.mode = .user → k'.current = k.current → k'.hist.uid k'.current = k.hist.uid k.current →
    k'.hist.waiting k'.current = true → k'.frame.rax = minusOne ∨
      ∃ r ∈ k'.hist.reports.drop k.hist.reports.length, r.waiter = k.hist.uid k.current ∧
        k'.frame.rax = r.code.toUInt64

/-- **A wait returns -1 or the code of a child it collected**, in every run in which no handler is
entered out of a wait and no waiting task with a signal pending gets the processor from a task ended
by a signal or a fault. -/
theorem wait_returns (h : Reachable m k) (hm : k.mode = .user) (f : Frame) (io : Io) (es : List Event)
    (hc : ((k.step (.syscall f io)).run es).hist.caught = k.hist.caught)
    (hsk : ((k.step (.syscall f io)).run es).hist.skipped = k.hist.skipped) :
    WaitReturns k f ((k.step (.syscall f io)).run es) := by
  intro _ hm' hcur huid hw
  have hu := (Under.call h hm f io).run (h.step _) es
  have hs := ((h.step (.syscall f io)).run es).shape
  set k' := (k.step (.syscall f io)).run es with hk'
  rw [hcur] at huid hw
  have hstop : k'.mode ≠ .stop := by rw [hm']; nofun
  have hready : (k'.tasks k.current).state = .ready := hcur ▸ (hs.run hm').2
  have hpend : (k'.tasks k.current).pending = 0 := hcur ▸ hu.clear hc hsk hm' (hcur.symm ▸ hw)
  have hregs : k'.regsOf k.current = k'.frame := if_pos ⟨hm', hcur⟩
  rcases (hu.wait hc.le hstop).wait hw huid (by rw [hready]; nofun) with h1 | h1 | h1
  · rw [hready] at h1; cases h1
  · unfold Answered at h1
    rw [hregs] at h1
    exact h1
  · exact absurd hpend h1

/-- The first task forks and installs a handler for SIGTERM. -/
def parentOfOne : Kernel Plenty := (twoTasks ⟨0⟩).run [callOf 13 0 0, callOf 27 15 0x400000]

theorem parentOfOne_reachable : Reachable ⟨0⟩ parentOfOne := (twoTasks_reachable _).run _

/-- It waits, and the child exits. -/
def waitAnswered : Kernel Plenty :=
  (parentOfOne.step (.syscall (callFrame 5 0 0) smallIo)).run [callOf 3 0 0, callOf 2 7 0]

theorem wait_returns_answered : WaitReturns parentOfOne (callFrame 5 0 0) waitAnswered :=
  wait_returns parentOfOne_reachable (by decide +kernel) (callFrame 5 0 0) smallIo
    [callOf 3 0 0, callOf 2 7 0] (by decide +kernel) (by decide +kernel)

/-- It waits, and is killed from the keyboard. -/
def waitCaught : Kernel Plenty :=
  (parentOfOne.step (.syscall (callFrame 5 0 0) smallIo)).run [.irq (.start 0 0) 100 [] [.kill 0]]

/-- In the handler `rax` is still the number of the call. -/
theorem caught_wait_keeps_number : Reachable ⟨0⟩ parentOfOne ∧ parentOfOne.mode = .user ∧
    ¬ WaitReturns parentOfOne (callFrame 5 0 0) waitCaught := by
  refine ⟨parentOfOne_reachable, by decide +kernel, fun h => ?_⟩
  have hstate : waitCaught.mode = .user ∧ waitCaught.current = parentOfOne.current ∧
      waitCaught.hist.uid waitCaught.current = parentOfOne.hist.uid parentOfOne.current ∧
      waitCaught.hist.waiting waitCaught.current = true ∧ waitCaught.frame.rax = 5 ∧
      waitCaught.hist.reports = [] := by decide +kernel
  obtain ⟨h1, h2, h3, h4, h5, h6⟩ := hstate
  rcases h rfl h1 h2 h3 h4 with h | ⟨r, hr, -⟩
  · rw [h5] at h
    exact absurd h (by decide)
  · rw [h6, List.drop_nil] at hr
    cases hr

end Kernel

end VampireOS
