import VampireOS.Sched.Functions

/-!
# The moves of every event

Births (`sched_add_user`, `sched_fork` and their callers in user.c), the system calls, the console
commands and the events of the machine, found as moves like the functions before.
-/

namespace VampireOS

open Lib

namespace Kernel

variable {M : Type} [MemSys M] {A : Label → Prop} {r r' r'' : Ghost} {k k' k'' : Kernel M}

/-! ## Memory calls -/

theorem MemRun.trans {m m' m'' : M} (h : MemRun m m') (h' : MemRun m' m'') : MemRun m m'' := by
  induction h' with
  | refl => exact h
  | tail _ op hop ih => exact ih.tail op hop

/-- Nothing but the memory is different. -/
structure OnlyMem (k k' : Kernel M) : Prop where
  eq : k' = { k with mem := k'.mem }
  run : MemRun k.mem k'.mem

theorem OnlyMem.refl : OnlyMem k k := ⟨rfl, .refl⟩

theorem OnlyMem.trans (h : OnlyMem k k') (h' : OnlyMem k' k'') : OnlyMem k k'' :=
  ⟨by rw [h'.eq, h.eq], h.run.trans h'.run⟩

theorem OnlyMem.memDo (op : SpaceOp) (hop : op.kernel = false) : OnlyMem k (k.memDo op) :=
  ⟨rfl, .tail .refl op hop⟩

theorem OnlyMem.quiet (h : OnlyMem k k') : Quiet k k' := by
  rw [h.eq]
  exact .same rfl rfl rfl rfl rfl rfl rfl h.run ⟨rfl, rfl⟩

theorem OnlyMem.goes (h : OnlyMem k k') : Goes A r k k' := .quiet h.quiet

theorem OnlyMem.own (h : OnlyMem k k') (ho : Own k) : Own k' := by
  rw [h.eq]
  exact ho

theorem OnlyMem.mode (h : OnlyMem k k') : k'.mode = k.mode := by rw [h.eq]

theorem OnlyMem.ite {β : Type} {c : Prop} [Decidable c] {x y : Kernel M × β} (hx : c → OnlyMem k x.1)
    (hy : ¬ c → OnlyMem k y.1) : OnlyMem k (if c then x else y).1 := by
  split
  · exact hx ‹_›
  · exact hy ‹_›

theorem copyToUser_mem (dst : UInt64) (src : List UInt8) : OnlyMem k (k.copyToUser dst src).1 := by
  unfold copyToUser
  split
  · exact .refl
  · exact .memDo (.copyTo _ _ _) rfl

theorem loadImage_mem (cr3 : Nat) (img : Image) (args : List Name) :
    OnlyMem k (k.loadImage cr3 img args).1 := by
  unfold loadImage
  simp only
  split
  · exact .memDo (.map _ _ _) rfl
  · split
    · exact (OnlyMem.memDo (.map _ _ _) rfl).trans (.memDo (.map _ _ _) rfl)
    · have hcode := ((OnlyMem.memDo (k := k) (.map cr3 userBase page2M) rfl).trans
        (.memDo (.map cr3 (userBase + pageSize) page2M) rfl)).trans
          (.memDo (.copyTo cr3 userBase img.code) rfl)
      split
      · exact hcode.trans (.memDo (.copyTo _ _ _) rfl)
      · exact hcode.trans (.memDo (.copyTo _ _ _) rfl)

theorem loopTo_mem {f : Nat → Kernel M → Kernel M × Bool} (hf : ∀ i k, OnlyMem k (f i k).1)
    (n : Nat) (k : Kernel M) :
    OnlyMem k (loopTo f n k).1 := by
  induction n with
  | zero => exact .refl
  | succ n ih =>
    simp only [loopTo]
    rcases hx : loopTo f n k with ⟨k', _ | _⟩
    · rw [hx] at ih
      exact ih
    · rw [hx] at ih
      exact ih.trans (hf n k')

theorem forTo_mem {f : Nat → Kernel M → Kernel M} (hf : ∀ i k, OnlyMem k (f i k)) (n : Nat) (k : Kernel M) :
    OnlyMem k (forTo f n k) := by
  induction n with
  | zero => exact .refl
  | succ n ih => exact ih.trans (hf n _)

theorem mapPages_mem (cr3 va n : Nat) : OnlyMem k (mapPages cr3 va n k).1 := by
  refine loopTo_mem (fun i k => ?_) n k
  simp only
  split
  · exact .memDo (.map _ _ _) rfl
  · exact (OnlyMem.memDo (.map _ _ _) rfl).trans (forTo_mem (fun j k => .memDo (.unmap _ _) rfl) _ _)

theorem unmapPages_mem (cr3 va n : Nat) : OnlyMem k (unmapPages cr3 va n k).1 :=
  loopTo_mem (fun _ _ => .memDo (.unmap _ _) rfl) n k

/-- What `user_brk` notes when the pages are there. -/
theorem brkDone_goes {res : Kernel M × Bool} (h : OnlyMem k res.1) (want : Nat) : Goes A r k
    (if res.2 then (res.1.modTask res.1.current fun t => { t with brk := want }, some want)
      else (res.1, none)).1 := by
  split
  · exact h.goes.trans (modTask_goes (f := fun t => { t with brk := want }) _ ⟨{ Calm.refl _ with },
      rfl, rfl, id⟩)
  · exact h.goes

theorem userBrk_goes (want : Nat) : Goes A r k (k.userBrk want).1 := by
  unfold userBrk
  simp only
  split
  · exact .refl
  · split
    · exact .refl
    · split
      · exact .refl
      · exact brkDone_goes (.ite (fun _ => mapPages_mem _ _ _) fun _ => unmapPages_mem _ _ _) want

/-! ## The volume -/

theorem copyCwdPath_ok {p : Name} (h : Fs.PathOk p) : copyCwdPath p = p := by
  unfold copyCwdPath
  rw [if_neg h.1, List.take_of_length_le]
  have := h.2
  unfold pathMax at this
  unfold cwdPathMax
  omega

/-- The way back cannot fail, and it gets there. -/
theorem leaveTaskCwd_eq {c : Nat} {p : Name} (hp : Fs.PathOk p) (t : Fs) :
    ∃ t', exec (leaveTaskCwd c p) t = (some (), t') ∧ Fs.At c p t' := by
  have hat := Fs.fsSetcwd_at c t
  refine ⟨{ (exec (Fs.fsSetcwd c) t).2 with path := p }, ?_, hat.1, rfl⟩
  simp [leaveTaskCwd, exec_bind, copyCwdPath_ok hp, Fs.fsSetpwd_at hp]

/-- The directory of a task is entered and left again. -/
theorem inTaskCwd_same {α : Type} {cl : Nat} {pwd : Name} {body : FsM α} (hb : Fs.ComesBack body) {s : Fs}
    (hp : Fs.PathOk s.path) : Fs.SameCwd s (exec (inTaskCwd cl pwd body) s).2 := by
  unfold inTaskCwd
  simp only [exec_bind, exec_gets, Option.elim_some, id, exec_ite]
  split
  · obtain ⟨h1, h2⟩ := hb.keeps s
    exact ⟨h1, h2⟩
  · simp only [exec_attempt, exec_result, Option.elim_some]
    split
    · obtain ⟨t, e, hat⟩ := leaveTaskCwd_eq (c := s.cwd) hp (exec (Fs.fsSetcwd cl) s).2
      simp only [e, Option.elim_some, exec_failed]
      exact ⟨hat.1, hat.2⟩
    · obtain ⟨t, e, hat⟩ := leaveTaskCwd_eq (c := s.cwd) hp
        (exec body (exec (Fs.fsSetpwd pwd) (exec (Fs.fsSetcwd cl) s).2).2).2
      simp only [e, Option.elim_some, exec_orFailWith]
      exact ⟨hat.1, hat.2⟩

theorem userChdir_same {s : Fs} (cl : Nat) (pwd path : Name) (hp : Fs.PathOk s.path) :
    Fs.SameCwd s (exec (userChdir cl pwd path) s).2 := by
  unfold userChdir
  by_cases h0 : path = []
  · simp only [exec_bind, exec_need, h0]
    exact ⟨rfl, rfl⟩
  · obtain ⟨t, e, hat⟩ := leaveTaskCwd_eq (c := s.cwd) hp (exec (chdirFrom cl pwd path) s).2
    simp only [exec_bind, exec_need, h0, exec_gets, exec_result, exec_orFailWith, Option.elim_some, id, ne_eq,
      not_false_iff, decide_true, if_true, e]
    exact ⟨hat.1, hat.2⟩

/-- A file call in the directory of the current task. -/
theorem inCwd_goes {α : Type} {body : FsM α} (hb : Fs.ComesBack body) : Goes A r k (k.fsDo (k.inCwd body)) :=
  .of_shape fun hs => fsDo_goes (inTaskCwd_same hb hs.path)

theorem lookupRootElf_back (name : Name) : Fs.ComesBack (lookupRootElf name) := by
  intro c p
  refine .bind (R := fun _ => Fs.At c p) (.result (Fs.fsLookup_back name c p)) fun res => ?_
  cases res with
  | some x => exact Triple.pure (Q := fun _ => Fs.At c p)
  | none => exact Fs.ComesBack.bind (Fs.comesBack_of_cached .need) (fun _ => Fs.fsLookup_back _) c p

theorem openFile_back (path : Name) (create : Bool) : Fs.ComesBack (openFile path create) := by
  intro c p
  refine .bind (R := fun _ => Fs.At c p) (.result (Fs.fsLookup_back path c p)) fun res => ?_
  cases res with
  | some x => exact Triple.pure (Q := fun _ => Fs.At c p)
  | none =>
    refine Fs.ComesBack.bind (Fs.comesBack_of_cached .need) (fun _ => ?_) c p
    exact (Fs.fsWrite_back _ _ _).bind fun _ => (Fs.fsLookup_back path).bind fun _ =>
      Fs.comesBack_of_cached .pure

theorem writeAt_back (path : Name) (off : Nat) (src : List UInt8) : Fs.ComesBack (writeAt path off src) := by
  unfold writeAt
  split
  · exact Fs.fsWrite_back _ _ _
  · exact (Fs.fsLookup_back path).bind fun _ => (Fs.comesBack_of_cached .need).bind fun _ =>
      Fs.fsWrite_back _ _ _

/-! ## Births -/

theorem freeTaskPml4_goes {i : Nat} (hd : (k.tasks i).state = .dead) : Goes A r k (k.freeTaskPml4 i) := by
  have hzero : ∀ k1 : Kernel M, k1.tasks i = k.tasks i →
      Goes A r k1 (k1.modTask i fun t => { t with cr3 := 0 }) := by
    intro k1 h1
    refine modTask_goes _ ⟨{ Calm.refl _ with cr3 := fun hl => ?_ }, rfl, rfl, id⟩
    rw [h1] at hl
    exact absurd hd hl
  unfold freeTaskPml4
  refine .ite (fun _ => .refl) fun _ => ?_
  simp only
  split
  · exact (memDo_goes (.release _) rfl).trans (hzero _ rfl)
  · exact hzero _ rfl

omit [MemSys M] in
/-- The slot for a new task: a reusable one, or the next. -/
theorem freeSlot_some {i : Nat} (h : k.freeSlot = some i) :
    (i < k.taskCount ∧ slotReusable (k.tasks i) = true) ∨ (i = k.taskCount ∧ k.taskCount < taskMax) := by
  unfold freeSlot at h
  split at h
  · rename_i j hj
    cases h
    exact .inl ⟨List.mem_range.1 (List.mem_of_find?_eq_some hj), by simpa using List.find?_some hj⟩
  · split at h
    · cases h
    · cases h
      exact .inr ⟨rfl, by omega⟩

omit [MemSys M] in
theorem slotReusable_dead {t : Task} (h : slotReusable t = true) : t.state = .dead := by
  unfold slotReusable at h
  rw [Bool.and_eq_true, decide_eq_true_eq] at h
  exact h.1

/-- Memory of slot `i` is given back; nobody else is touched. -/
structure Vacates (i : Nat) (k k' : Kernel M) : Prop where
  count : k'.taskCount = k.taskCount
  current : k'.current = k.current
  mode : k'.mode = k.mode
  hist : k'.hist = k.hist
  frame : k'.frame = k.frame
  fs : k'.fs = k.fs
  other : ∀ n, n ≠ i → k'.tasks n = k.tasks n
  self : (k'.tasks i).state = (k.tasks i).state ∧ (k'.tasks i).parent = (k.tasks i).parent ∧
    (k'.tasks i).reaped = (k.tasks i).reaped
  kstack : (k.tasks i).kstackTop = 0 → (k'.tasks i).kstackTop = 0

omit [MemSys M] in
theorem Vacates.refl (i : Nat) : Vacates i k k :=
  ⟨rfl, rfl, rfl, rfl, rfl, rfl, fun _ _ => rfl, ⟨rfl, rfl, rfl⟩, id⟩

omit [MemSys M] in
theorem Vacates.trans {i : Nat} (h : Vacates i k k') (h' : Vacates i k' k'') : Vacates i k k'' where
  count := h'.count.trans h.count
  current := h'.current.trans h.current
  mode := h'.mode.trans h.mode
  hist := h'.hist.trans h.hist
  frame := h'.frame.trans h.frame
  fs := h'.fs.trans h.fs
  other n hn := (h'.other n hn).trans (h.other n hn)
  self := ⟨h'.self.1.trans h.self.1, h'.self.2.1.trans h.self.2.1, h'.self.2.2.trans h.self.2.2⟩
  kstack h0 := h'.kstack (h.kstack h0)

theorem Vacates.memDo (i : Nat) (op : SpaceOp) : Vacates i k (k.memDo op) :=
  ⟨rfl, rfl, rfl, rfl, rfl, rfl, fun _ _ => rfl, ⟨rfl, rfl, rfl⟩, id⟩

omit [MemSys M] in
theorem Vacates.modTask (i : Nat) {f : Task → Task}
    (hs : ∀ t, (f t).state = t.state ∧ (f t).parent = t.parent ∧ (f t).reaped = t.reaped)
    (hk : ∀ t : Task, t.kstackTop = 0 → (f t).kstackTop = 0) : Vacates i k (k.modTask i f) := by
  refine ⟨rfl, rfl, rfl, rfl, rfl, rfl, fun n hn => ?_, ?_, fun h0 => ?_⟩
  · rw [modTask_tasks, if_neg hn]
  · rw [modTask_tasks, if_pos rfl]
    exact hs _
  · rw [modTask_tasks, if_pos rfl]
    exact hk _ h0

theorem freeTaskUser_vacates (i : Nat) : Vacates i k (k.freeTaskUser i) := by
  unfold freeTaskUser
  split
  · exact .refl i
  · exact (Vacates.memDo i _).trans (.modTask i (fun _ => ⟨rfl, rfl, rfl⟩) fun _ => id)

theorem freeTaskKstack_vacates (i : Nat) :
    Vacates i k (k.freeTaskKstack i) ∧ ((k.freeTaskKstack i).tasks i).kstackTop = 0 := by
  have hclear : ∀ k1 : Kernel M, Vacates i k k1 →
    Vacates i k (k1.modTask i fun t => { t with kstackTop := 0 }) ∧
      ((k1.modTask i fun t => { t with kstackTop := 0 }).tasks i).kstackTop = 0 := fun k1 h1 =>
    ⟨h1.trans (.modTask i (fun _ => ⟨rfl, rfl, rfl⟩) fun _ _ => rfl), by rw [modTask_tasks, if_pos rfl]⟩
  unfold freeTaskKstack
  split
  · rename_i h0
    exact ⟨.refl i, h0⟩
  · refine hclear _ ?_
    split
    · exact .memDo i _
    · exact .refl i

theorem freeTaskPml4_vacates (i : Nat) : Vacates i k (k.freeTaskPml4 i) := by
  unfold freeTaskPml4
  split
  · exact .refl i
  · refine Vacates.trans ?_ (.modTask i (fun _ => ⟨rfl, rfl, rfl⟩) fun _ => id)
    split
    · exact .memDo i _
    · exact .refl i

/-- The slot taken is counted, reusable and holds nothing, and nobody else is touched. -/
structure Taken (k k' : Kernel M) (i : Nat) : Prop where
  slot : i < k'.taskCount
  reusable : slotReusable (k'.tasks i) = true
  kstack : (k'.tasks i).kstackTop = 0
  mode : k'.mode = k.mode
  hist : k'.hist = k.hist
  frame : k'.frame = k.frame
  fs : k'.fs = k.fs
  current : k.taskCount ≠ 0 → k'.current = k.current
  other : ∀ n, n ≠ i → k'.tasks n = k.tasks n

theorem takeSlot_taken (hs : Shape k) {i : Nat} (h : k.freeSlot = some i) : Taken k (k.takeSlot i) i := by
  unfold takeSlot
  rcases freeSlot_some h with ⟨hi, hr⟩ | ⟨rfl, hlt⟩
  · rw [if_pos hi]
    obtain ⟨hk, hk0⟩ := freeTaskKstack_vacates (k := k.freeTaskUser i) i
    have hp := freeTaskPml4_vacates (k := (k.freeTaskUser i).freeTaskKstack i) i
    have hv := ((freeTaskUser_vacates (k := k) i).trans hk).trans hp
    refine ⟨hv.count ▸ hi, ?_, hp.kstack hk0, hv.mode, hv.hist, hv.frame, hv.fs,
      fun _ => hv.current, hv.other⟩
    unfold slotReusable at hr ⊢
    rw [hv.self.1, hv.self.2.1, hv.self.2.2]
    exact hr
  · obtain ⟨h1, h2, h3⟩ := hs.fresh k.taskCount le_rfl
    rw [if_neg (lt_irrefl _)]
    refine ⟨Nat.lt_succ_self _, ?_, h3, rfl, rfl, rfl, rfl, fun h0 => if_neg h0, fun _ _ => rfl⟩
    simp [slotReusable, h1, h2]

theorem takeSlot_goes {i : Nat} (h : k.freeSlot = some i) : Goes A r k (k.takeSlot i) := by
  unfold takeSlot
  rcases freeSlot_some h with ⟨hi, hr⟩ | ⟨rfl, hlt⟩
  · rw [if_pos hi]
    have hd := slotReusable_dead hr
    have hd1 : ((k.freeTaskUser i).tasks i).state = .dead := (freeTaskUser_vacates i).self.1.trans hd
    have hd2 : (((k.freeTaskUser i).freeTaskKstack i).tasks i).state = .dead :=
      (freeTaskKstack_vacates i).1.self.1.trans hd1
    exact ((freeTaskUser_goes i).trans (.one (.freeKstack i hd1))).trans (freeTaskPml4_goes hd2)
  · rw [if_neg (lt_irrefl _)]
    exact .one (.grow hlt)

/-- A new task in a taken slot, with the kernel stack `f`. -/
theorem spawn_leads {i f : Nat} {parent : Option Nat} {t : Task} (hs : Shape k) (h : k.freeSlot = some i)
    (hf : f ∈ r.loose) (hA : k.mode = .halt → A .late) (hc : t.cr3 ≠ 0) (ht : t.kstackTop = kstackTopOf f)
    (hp : ∀ q, parent = some q → q = k.current ∧ k.mode = .user) :
    Leads A r { r with loose := r.loose.erase f } k ((k.takeSlot i).spawnTask i parent t) := by
  have hk := takeSlot_taken hs h
  refine (takeSlot_goes h).trans
    (.one (.spawn i f parent t ?_ hk.slot hk.reusable hk.kstack hc ht hf fun q hq => ?_))
  · rw [hk.mode]
    exact hA
  · obtain ⟨rfl, hm⟩ := hp q hq
    have h0 : k.taskCount ≠ 0 := by
      have := (hs.run hm).1
      omega
    exact ⟨(hk.current h0).symm, hk.mode.trans hm⟩

/-- Moves that may take frames or use them up. -/
def Reaches (A : Label → Prop) (r : Ghost) (k k' : Kernel M) : Prop :=
  ∃ r', r'.raw = r.raw ∧ r'.doomed = r.doomed ∧ Leads A r r' k k'

theorem Leads.reaches (h : Goes A r k k') : Reaches A r k k' := ⟨r, rfl, rfl, h⟩

theorem Reaches.trans (h : Reaches A r k k')
    (h' : ∀ r' : Ghost, r'.raw = r.raw → r'.doomed = r.doomed → Reaches A r' k' k'') : Reaches A r k k'' := by
  obtain ⟨r1, e1, e2, m1⟩ := h
  obtain ⟨r2, e3, e4, m2⟩ := h' r1 e1 e2
  exact ⟨r2, e3.trans e1, e4.trans e2, m1.trans m2⟩

theorem Leads.thenReaches (h : Goes A r k k') (h' : Reaches A r k' k'') : Reaches A r k k'' := by
  obtain ⟨r', e1, e2, m⟩ := h'
  exact ⟨r', e1, e2, h.trans m⟩

theorem Reaches.thenGoes (h : Reaches A r k k') (h' : ∀ r, Goes A r k' k'') : Reaches A r k k'' := by
  obtain ⟨r', e1, e2, m⟩ := h
  exact ⟨r', e1, e2, m.trans (h' r')⟩

theorem Reaches.of_shape (h : Shape k → Reaches A r k k') : Reaches A r k k' := by
  by_cases hs : Shape k
  · exact h hs
  · exact ⟨r, rfl, rfl, fun hs' => absurd hs' hs⟩

theorem dropFd_lastAdded (i j : Nat) : (k.dropFd i j).lastAdded = k.lastAdded := by
  have hfree : ∀ (k : Kernel M) p, (k.freePipe p).lastAdded = k.lastAdded := by
    intro k p
    unfold freePipe
    split <;> rfl
  rcases dropFd_cases k i j with ⟨-, e⟩ | ⟨-, -, e⟩ | ⟨p, -, -, -, e⟩ <;> rw [e]
  · rfl
  · unfold dropEnd
    simp only
    split
    · exact hfree _ _
    · rfl

theorem clearFds_lastAdded (i : Nat) : (k.clearFds i).lastAdded = k.lastAdded := by
  refine forTo_inv (f := fun j k => k.dropFd i j) (s := k) (n := fdMax)
    (fun _ k' => k'.lastAdded = k.lastAdded) rfl fun j t _ h => ?_
  rw [dropFd_lastAdded]
  exact h

/-- The slot made last has no pipe ends yet. -/
def NewTask (k : Kernel M) (j : Nat) : Prop := ∀ i, k.lastLive = some i → ((k.tasks i).fds j).endOf = none

omit [MemSys M] in
theorem console_new {i : Nat} (h : Blank i 0 k) (hl : k.lastAdded = some i) (j : Nat) :
    NewTask (k.bindConsoleStd i) j := by
  have hloop := forTo_inv (n := 3) (s := k)
    (f := fun j k => k.setFd i j ⟨true, if j = 0 then .consoleR else .consoleW, none, 0, []⟩)
    (fun _ k' => k'.lastAdded = some i ∧ ∀ j, ((k'.tasks i).fds j).endOf = none)
    ⟨hl, fun j => FdEntry.endOf_unused (h.free j (Nat.zero_le j))⟩ fun n t _ ht => ⟨ht.1, fun j => ?_⟩
  · intro i' hi'
    have := (lastLive_some hi').1
    rw [show (k.bindConsoleStd i).lastAdded = some i from hloop.1] at this
    cases this
    exact hloop.2 j
  · rw [setFd_fds]
    split
    · by_cases h0 : n = 0 <;> simp [FdEntry.endOf, FdKind.isPipe, h0]
    · exact ht.2 j

omit [MemSys M] in
/-- A slot that has just got its task. -/
theorem spawn_blank {i : Nat} {parent : Option Nat} {t : Task} (hs : Shape k)
    (hd : (k.tasks i).state = .dead) :
    Blank i 0 (k.spawnTask i parent t) := by
  refine ⟨by simp [spawnTask], fun j _ => ?_⟩
  have : ((k.spawnTask i parent t).tasks i).fds = (k.tasks i).fds := by simp [spawnTask]
  rw [this]
  exact hs.dead i hd j

theorem clearFds_blank {i : Nat} (hs : Shape k) (h : Blank i 0 k) : Blank i 0 (k.clearFds i) :=
  ⟨fun hd => h.live ((clearFds_task i i).2.1.1 hd), fun j _ => clearFds_used hs i j⟩

/-- What `sched_add_user` fills in. -/
def userTask (k : Kernel M) (rip rsp : UInt64) (kstackTop base cr3 : Nat) : Task :=
  { Task.init with
    regs := .start rip rsp, kstackTop := kstackTop, userBase := base, brk := base + 2 * pageSize
    cr3 := cr3, cwd := k.fs.cwd, cwdPath := copyCwdPath k.fs.path }

/-- The two outcomes of `sched_add_user`. -/
theorem schedAddUser_cases (k : Kernel M) (rip rsp : UInt64) (kstackTop base cr3 : Nat) :
    k.schedAddUser rip rsp kstackTop base cr3 = (k, false) ∨
    ∃ i, k.freeSlot = some i ∧ (cr3 ≠ 0 ∧ kstackTop ≠ 0) ∧ k.schedAddUser rip rsp kstackTop base cr3 =
      ((((k.takeSlot i).spawnTask i none (k.userTask rip rsp kstackTop base cr3)).clearFds
        i).bindConsoleStd i, true) := by
  unfold schedAddUser
  split
  · exact .inl rfl
  · rename_i h0
    simp only [not_or] at h0
    cases hi : k.freeSlot with
    | none => exact .inl rfl
    | some i => exact .inr ⟨i, rfl, ⟨h0.2.2.1, h0.1⟩, rfl⟩

/-- The slot once its task is there and its entries are cleared. -/
theorem spawned_blank {i : Nat} {parent : Option Nat} {t : Task} (hs : Shape k)
    (hi : k.freeSlot = some i) (hc : t.cr3 ≠ 0) (hk0 : t.kstackTop ≠ 0) :
    Blank i 0 (((k.takeSlot i).spawnTask i parent t).clearFds i) := by
  have hs' : Shape (k.takeSlot i) := (takeSlot_goes (A := fun _ => True) (r := ⟨none, none, ∅⟩) hi).shape hs
  have hk := takeSlot_taken hs hi
  exact clearFds_blank (hs'.spawn parent hk.slot hc hk0) (spawn_blank hs' (slotReusable_dead hk.reusable))

theorem schedAddUser_reaches {f : Nat} (rip rsp : UInt64) {kstackTop : Nat} (base cr3 : Nat)
    (hf : f ∈ r.loose) (hk : kstackTop = kstackTopOf f) (hA : k.mode = .halt → A .late) :
    Reaches A r k (k.schedAddUser rip rsp kstackTop base cr3).1 := by
  rcases schedAddUser_cases k rip rsp kstackTop base cr3 with e | ⟨i, hi, hc, e⟩ <;> rw [e]
  · exact Leads.refl.reaches
  · refine ⟨{ r with loose := r.loose.erase f }, rfl, rfl, .of_shape fun hs => ?_⟩
    exact (spawn_leads hs hi hf hA hc.1 hk fun _ hq => by cases hq).trans
      ((clearFds_goes i).trans (bindConsoleStd_goes (spawned_blank hs hi hc.1 hc.2)))

theorem schedAddUser_new (hs : Shape k) (rip rsp : UInt64) (kstackTop base cr3 : Nat) (j : Nat)
    (h : (k.schedAddUser rip rsp kstackTop base cr3).2 = true) :
    NewTask (k.schedAddUser rip rsp kstackTop base cr3).1 j := by
  rcases schedAddUser_cases k rip rsp kstackTop base cr3 with e | ⟨i, hi, hc, e⟩ <;> rw [e] at h ⊢
  · cases h
  · refine console_new (spawned_blank hs hi hc.1 hc.2) ?_ j
    rw [clearFds_lastAdded]
    rfl

/-- What `sched_fork` fills in. -/
def childTask (k : Kernel M) (kstackTop cr3 : Nat) : Task :=
  { k.tasks k.current with
    regs := { k.frame with rax := 0 }, kstackTop := kstackTop, cr3 := cr3
    cwdPath := copyCwdPath (k.tasks k.current).cwdPath }

theorem schedFork_cases (hs : Shape k) (kstackTop cr3 : Nat) :
    k.schedFork kstackTop cr3 = (k, none) ∨
    ∃ i, k.freeSlot = some i ∧ (cr3 ≠ 0 ∧ kstackTop ≠ 0) ∧ k.schedFork kstackTop cr3 =
      ((((k.takeSlot i).spawnTask i (some k.current) (k.childTask kstackTop cr3)).clearFds
        i).inheritFds i k.current,
        some i) := by
  unfold schedFork
  simp only
  split
  · exact .inl rfl
  · rename_i h0
    simp only [not_or] at h0
    cases hi : k.freeSlot with
    | none => exact .inl rfl
    | some i =>
      have hk := takeSlot_taken hs hi
      have hcur := hk.current h0.1
      refine .inr ⟨i, rfl, ⟨h0.2.2.1, h0.2.1⟩, ?_⟩
      change ((((k.takeSlot i).spawnTask i (some k.current) (k.childTask kstackTop cr3)).clearFds
        i).inheritFds i (k.takeSlot i).current, some i) = _
      rw [hcur]

theorem schedFork_reaches {f : Nat} {kstackTop : Nat} (cr3 : Nat) (hm : k.mode = .user) (hf : f ∈ r.loose)
    (hk : kstackTop = kstackTopOf f) : Reaches A r k (k.schedFork kstackTop cr3).1 := by
  refine .of_shape fun hs => ?_
  rcases schedFork_cases hs kstackTop cr3 with e | ⟨i, hi, hc, e⟩ <;> rw [e]
  · exact Leads.refl.reaches
  · refine ⟨{ r with loose := r.loose.erase f }, rfl, rfl, ?_⟩
    have hno : k.mode = .halt → A .late := fun hh => by rw [hm] at hh; cases hh
    refine (spawn_leads hs hi hf hno hc.1 hk fun q hq => ?_).trans
      ((clearFds_goes i).trans (inheritFds_goes _ (spawned_blank hs hi hc.1 hc.2)))
    cases hq
    exact ⟨rfl, hm⟩

/-! ## Programs -/

theorem userSpawn_spec (name arg : Name) (img : Option Image) (hA : k.mode = .halt → A .late) :
    Reaches A r k (k.userSpawn name arg img).1 ∧
      (Shape k → (k.userSpawn name arg img).2 = true → ∀ j, NewTask (k.userSpawn name arg img).1 j) := by
  unfold userSpawn
  cases img with
  | none => exact ⟨Leads.refl.reaches, fun _ h => by cases h⟩
  | some img =>
    simp only
    cases hf : k.memAsk (.kalloc page2M) with
    | none => exact ⟨Leads.reaches (.one (.noFrame hf)), fun _ h => by cases h⟩
    | some f =>
      set r1 : Ghost := { r with loose := insert f r.loose }
      have htake : Leads A r r1 k (k.memDo (.kalloc page2M)) := .one (.take hf)
      have hloose : f ∈ r1.loose := Finset.mem_insert_self f _
      set k1 := k.memDo (.kalloc page2M)
      cases hcl : k1.memAsk .clone with
      | none => exact ⟨⟨r1, rfl, rfl, htake.trans (memDo_goes .clone rfl)⟩, fun _ h => by cases h⟩
      | some cr3 =>
        simp only
        have hload := loadImage_mem (k := k1.memDo .clone) cr3 img (name :: if arg = [] then [] else [arg])
        rcases hx : (k1.memDo .clone).loadImage cr3 img (name :: if arg = [] then [] else [arg])
          with ⟨k2, _ | sp⟩
        · rw [hx] at hload
          exact ⟨⟨r1, rfl, rfl,
            (htake.trans (memDo_goes .clone rfl)).trans (hload.goes.trans (memDo_goes (.release cr3) rfl))⟩,
            fun _ h => by cases h⟩
        · rw [hx] at hload
          have hk2 : Leads A r r1 k k2 := (htake.trans (memDo_goes .clone rfl)).trans hload.goes
          have hmode : k2.mode = .halt → A .late := by rw [hload.mode]; exact hA
          obtain ⟨r2, e1, e2, hadd⟩ := schedAddUser_reaches (A := A) (k := k2) img.entry
            (UInt64.ofNat sp) userBase cr3 hloose rfl hmode
          have hnew := fun hs j => schedAddUser_new (k := k2) hs img.entry (UInt64.ofNat sp)
            (kstackTopOf f) userBase cr3 j
          simp only
          rcases hy : k2.schedAddUser img.entry (UInt64.ofNat sp) (kstackTopOf f) userBase cr3
            with ⟨k3, _ | _⟩
          · rw [hy] at hadd
            exact ⟨⟨r2, e1, e2, hk2.trans (hadd.trans (memDo_goes (.release cr3) rfl))⟩,
              fun _ h => by cases h⟩
          · rw [hy] at hadd hnew
            exact ⟨⟨r2, e1, e2, hk2.trans hadd⟩, fun hs _ j => hnew (hk2.shape hs) j rfl⟩

/-- Binding one entry leaves the others of the new task. -/
theorem schedFdBindPipe_new {j j' : Nat} (kind : FdKind) (p : Nat) (hj : j' ≠ j) (h : NewTask k j') :
    NewTask (k.schedFdBindPipe j kind p).1 j' := by
  unfold schedFdBindPipe
  cases hi : k.lastLive with
  | none => exact h
  | some i =>
    simp only [Option.elim]
    split
    · intro i' hi'
      obtain ⟨hl, -, -⟩ := lastLive_some hi'
      have hl : (k.dropFd i j).lastAdded = some i' := hl
      rw [dropFd_lastAdded, (lastLive_some hi).1] at hl
      cases hl
      change ((((k.dropFd i j).setFd i j _).tasks i).fds j').endOf = none
      rw [setFd_fds, if_neg (by simp [hj])]
      obtain ⟨t, ht, e⟩ := dropFd_task k i j i
      rw [e]
      split
      · simp only [Function.update_of_ne hj]
        exact (ht.fds j').endOf.trans (h i hi)
      · exact (ht.fds j').endOf.trans (h i hi)
    · exact h

theorem progImage_goes (name : Name) : Goes A r k (k.fsDo (lookupRootElf name)) := by
  obtain ⟨h1, h2⟩ := (lookupRootElf_back name).keeps k.fs
  exact fsDo_goes ⟨h1, h2⟩

theorem bindPipeIf_goes {j : Nat} (kind : FdKind) (q : Option Nat) (h : NewTask k j) :
    Goes A r k (k.bindPipeIf j kind q).1 := by
  cases q with
  | none => exact .refl
  | some p => exact schedFdBindPipe_goes j kind p h

theorem bindPipeIf_new {j j' : Nat} (kind : FdKind) (q : Option Nat) (hj : j' ≠ j) (h : NewTask k j') :
    NewTask (k.bindPipeIf j kind q).1 j' := by
  cases q with
  | none => exact h
  | some p => exact schedFdBindPipe_new kind p hj h

theorem setFg_goes (fg : Option Nat) : Goes A r k { k with fgSlot := fg } :=
  .quiet (.same rfl rfl rfl rfl rfl rfl rfl .refl ⟨rfl, rfl⟩)

theorem userRunFds_reaches (p : Prog) (inPipe outPipe : Option Nat) (hA : k.mode = .halt → A .late) :
    Reaches A r k (k.userRunFds p inPipe outPipe).1 := by
  refine .of_shape fun hs => ?_
  unfold userRunFds
  simp only
  have hfs : Goes A r k (k.fsDo (lookupRootElf p.name)) := progImage_goes p.name
  obtain ⟨hspawn, hnew⟩ := userSpawn_spec (A := A) (r := r) (k := k.fsDo (lookupRootElf p.name)) p.name p.arg
    (if p.name = [] then none else k.progImage p) hA
  have hnew := hnew (hfs.shape hs)
  have hspawn := hfs.thenReaches hspawn
  rcases hx : (k.fsDo (lookupRootElf p.name)).userSpawn p.name p.arg (if p.name = [] then none
    else k.progImage p) with
    ⟨k1, _ | _⟩
  · rw [hx] at hspawn
    exact hspawn
  · rw [hx] at hspawn hnew
    have hnew : ∀ j, NewTask { k1 with fgSlot := k1.lastAdded } j := hnew rfl
    refine hspawn.thenGoes fun r => (setFg_goes k1.lastAdded).trans ?_
    have hbind := bindPipeIf_goes (A := A) (r := r) .pipeR inPipe (hnew 0)
    have hnew1 := bindPipeIf_new (j := 0) .pipeR inPipe one_ne_zero (hnew 1)
    simp only
    rcases hy : bindPipeIf { k1 with fgSlot := k1.lastAdded } 0 .pipeR inPipe with ⟨k2, _ | _⟩
    · rw [hy] at hbind
      exact hbind
    · rw [hy] at hbind hnew1
      exact hbind.trans (bindPipeIf_goes .pipeW outPipe hnew1)

/-- A pipe that the reader got has an end. -/
theorem userRunFds_bound {p : Prog} {q : Nat} (h : (k.userRunFds p (some q) none).2 = true) :
    0 < ((k.userRunFds p (some q) none).1.pipes q).rrefs := by
  unfold userRunFds at h ⊢
  simp only at h ⊢
  rcases hx : (k.fsDo (lookupRootElf p.name)).userSpawn p.name p.arg (if p.name = [] then none
    else k.progImage p) with
    ⟨k1, _ | _⟩
  · rw [hx] at h; cases h
  · rw [hx] at h
    simp only at h ⊢
    rcases hy : bindPipeIf { k1 with fgSlot := k1.lastAdded } 0 .pipeR (some q) with ⟨k2, _ | _⟩
    · rw [hy] at h; cases h
    · change 0 < (k2.pipes q).rrefs
      unfold bindPipeIf schedFdBindPipe at hy
      simp only [Option.elim_some] at hy
      cases hl : lastLive { k1 with fgSlot := k1.lastAdded } with
      | none => rw [hl] at hy; cases hy
      | some i =>
        rw [hl] at hy
        simp only [Option.elim] at hy
        split at hy
        · cases hy
          simp [addRef, plusRef]
        · cases hy

/-- Only the label of late births is used. -/
theorem Reaches.still (h : Reaches (· = .late) r k k') (hs : Shape k) : Still k k' := by
  obtain ⟨r', -, -, m⟩ := h
  exact (m hs).still hs nofun nofun

theorem userRunPipeline_reaches (hr : r.raw = none) (left right : Prog) (hA : k.mode = .halt → A .late) :
    Reaches A r k (k.userRunPipeline left right).1 := by
  refine .of_shape fun hs => ?_
  unfold userRunPipeline
  rcases allocPipe_cases k with e | ⟨p, phys, hp, -, -, e⟩
  · rw [e]
    exact Leads.refl.reaches
  · set k1 := (k.memDo (.kalloc pipeMinPhys)).modPipe p fun _ => { Pipe.unused with used := true, phys := phys }
    set r1 : Ghost := { r with raw := some p }
    have halloc : Leads A r r1 k k1 := by
      have := Move.alloc (A := A) (g := r) (k := k) (p := p) hr (by rw [e])
      rw [e] at this
      exact .one this
    have hs1 := halloc.shape hs
    rw [e]
    simp only
    -- the pipe is given up again, or somebody holds an end of it
    have hdrop : ∀ (k' : Kernel M) (r' : Ghost), r'.raw = some p → r'.doomed = r.doomed →
        ∃ r'', r''.raw = r.raw ∧ r''.doomed = r.doomed ∧ Leads A r' r'' k' (k'.schedPipeUnused p) := by
      intro k' r' h1 h2
      refine ⟨{ r' with raw := none }, hr.symm, h2, ?_⟩
      unfold schedPipeUnused
      refine .ite (fun hc => .one (.discard h1 hp hc.2.1 hc.2.2)) fun hc => .one (.settle h1 fun hu => ?_)
      by_contra h0
      exact hc ⟨hp, hu, by omega, by omega⟩
    obtain ⟨r2, e1, e2, hleft⟩ := userRunFds_reaches (A := A) (r := r1) (k := k1) left none (some p) hA
    have hstill := (userRunFds_reaches (A := (· = .late)) (r := r1) (k := k1) left none (some p)
      fun _ => rfl).still hs1
    rcases hx : k1.userRunFds left none (some p) with ⟨k2, _ | _⟩
    · rw [hx] at hleft
      obtain ⟨r3, f1, f2, hd⟩ := hdrop k2 r2 e1 e2
      exact ⟨r3, f1, f2, halloc.trans (hleft.trans hd)⟩
    · rw [hx] at hleft hstill
      have hA2 : k2.mode = .halt → A .late := by rw [hstill.mode]; exact hA
      obtain ⟨r3, g1, g2, hright⟩ := userRunFds_reaches (A := A) (r := r2) (k := k2) right (some p) none hA2
      have hbound := userRunFds_bound (k := k2) (p := right) (q := p)
      simp only
      rcases hy : k2.userRunFds right (some p) none with ⟨k3, _ | _⟩
      · rw [hy] at hright
        obtain ⟨r4, f1, f2, hd⟩ := hdrop k3 r3 (g1.trans e1) (g2.trans e2)
        exact ⟨r4, f1, f2, halloc.trans (hleft.trans (hright.trans hd))⟩
      · rw [hy] at hright hbound
        refine ⟨{ r3 with raw := none }, hr.symm, g2.trans e2, halloc.trans (hleft.trans (hright.trans ?_))⟩
        exact .one (.settle (g1.trans e1) fun _ => Nat.add_pos_left (hbound rfl) _)

theorem userFork_reaches (hm : k.mode = .user) : Reaches A r k k.userFork.1 := by
  unfold userFork
  split
  · exact Leads.refl.reaches
  · cases hf : k.memAsk (.kalloc page2M) with
    | none => exact Leads.reaches (.one (.noFrame hf))
    | some f =>
      set r1 : Ghost := { r with loose := insert f r.loose }
      have htake : Leads A r r1 k (k.memDo (.kalloc page2M)) := .one (.take hf)
      have hloose : f ∈ r1.loose := Finset.mem_insert_self f _
      set k1 := k.memDo (.kalloc page2M)
      simp only
      have hfork : Leads A r r1 k (k1.memDo (.fork k1.currentCr3)) := htake.trans (memDo_goes (.fork _) rfl)
      cases hcl : k1.memAsk (.fork k1.currentCr3) with
      | none => exact ⟨{ r1 with loose := r1.loose.erase f }, rfl, rfl, hfork.trans (.one (.give hloose))⟩
      | some cr3 =>
        simp only
        obtain ⟨r2, e1, e2, hchild⟩ :=
          schedFork_reaches (A := A) (r := r1) (k := k1.memDo (.fork k1.currentCr3)) cr3 hm
          hloose rfl
        have hcases := fun hs => schedFork_cases (k := k1.memDo (.fork k1.currentCr3)) hs (kstackTopOf f) cr3
        rcases hx : (k1.memDo (.fork k1.currentCr3)).schedFork (kstackTopOf f) cr3 with ⟨k2, _ | i⟩
        · rw [hx] at hcases
          refine ⟨{ r1 with loose := r1.loose.erase f }, rfl, rfl, hfork.step fun _ hs => ?_⟩
          rcases hcases hs with e | ⟨i, -, -, e⟩
          · cases e
            exact Leads.trans (memDo_goes (.release cr3) rfl) (.one (.give hloose))
          · cases e
        · rw [hx] at hchild
          exact ⟨r2, e1, e2, hfork.trans hchild⟩

/-! ## System calls -/

/-- A call that makes no labelled move. -/
def Plain (r : Ghost) (k k' : Kernel M) : Prop := ∀ A, Goes A r k k'

theorem Plain.own (h : Plain r k k') (hs : Shape k) (ho : Own k) : Own k' := ((h _).still hs).own ho

theorem Plain.trans (h : Plain r k k') (h' : Plain r k' k'') : Plain r k k'' := fun A => (h A).trans (h' A)

theorem Plain.of_shape (h : Shape k → Plain r k k') : Plain r k k' := fun A => .of_shape fun hs => h hs A

theorem Plain.ite {c : Prop} [Decidable c] {k1 k2 : Kernel M} (h1 : c → Plain r k k1)
    (h2 : ¬ c → Plain r k k2) :
    Plain r k (if c then k1 else k2) := fun A => .ite (fun h => h1 h A) fun h => h2 h A

/-- A call of the running task, answered in `rax`. -/
theorem Plain.answer (h : Plain r k k') (ho : Own k) (v : UInt64) : Plain r k (k'.setRax v) :=
  .of_shape fun hs => h.trans fun _ => setRax_goes v (h.own hs ho)

theorem OnlyMem.plain (h : OnlyMem k k') : Plain r k k' := fun _ => h.goes

theorem answerBytes_plain (ho : Own k) (dst : UInt64) (src : List UInt8) :
    Plain r k (k.answerBytes dst src) :=
  (copyToUser_mem dst src).plain.answer ho _

theorem answer_plain (ho : Own k) (v : UInt64) : Plain r k (k.setRax v) := fun _ => setRax_goes v ho

theorem setCr3_plain (cr3 : Nat) : Plain r k (k.setCr3 cr3) := fun _ => setCr3_goes cr3
theorem restoreCr3_plain : Plain r k k.restoreCr3 := fun _ => restoreCr3_goes

omit [MemSys M] in
theorem pipeEnd_some {fd : Int} {kind : FdKind} {p : Nat} (h : k.pipeEnd fd kind = some p) :
    ∃ j, fdIndex fd = some j ∧ ((k.tasks k.current).fds j).endOf = some (kind, p) ∧ p < pipeMax ∧
      (k.pipes p).used = true ∧ k.schedFdPipe fd = some p := by
  obtain ⟨e, he, hp⟩ := Option.bind_eq_some_iff.1 h
  obtain ⟨-, j, hj, hej, hu⟩ := fdAt_some he
  split at hp
  · rename_i hk
    obtain ⟨h1, h2, h3, h4⟩ := pipeOf_some hp
    refine ⟨j, hj, ?_, h3, h4, ?_⟩
    · rw [← hej]
      exact FdEntry.endOf_some.2 ⟨hu, hk, hk ▸ h1, h2⟩
    · unfold schedFdPipe
      rw [he]
      simp [h1, h2]
  · cases hp

omit [MemSys M] in
theorem schedPipeWrite_block (fd : Int) (src : List UInt8) (h : (k.schedPipeWrite fd src).2 = .block) :
    (k.schedPipeWrite fd src).1 = k ∧ ∃ p, k.pipeEnd fd .pipeW = some p ∧ pipeCap ≤ (k.pipes p).len ∧
      0 < (k.pipes p).rrefs := by
  unfold schedPipeWrite at h ⊢
  split
  · rename_i h0
    rw [if_pos h0] at h
    cases h
  · rename_i h0
    rw [if_neg h0] at h
    cases hp : k.pipeEnd fd .pipeW with
    | none => rw [hp] at h; cases h
    | some p =>
      rw [hp] at h
      simp only [Option.elim_some] at h ⊢
      split at h
      · cases h
      · rename_i hr
        split at h
        · rename_i hl
          rw [if_neg hr, if_pos hl]
          exact ⟨rfl, p, rfl, hl, Nat.pos_of_ne_zero hr⟩
        · cases h

omit [MemSys M] in
theorem schedPipeRead_block (fd : Int) (n : Nat) (h : (k.schedPipeRead fd n).2 = .block) :
    (k.schedPipeRead fd n).1 = k ∧ ∃ p, k.pipeEnd fd .pipeR = some p ∧ (k.pipes p).len = 0 ∧
    0 < (k.pipes p).wrefs := by
  unfold schedPipeRead at h ⊢
  split
  · rename_i h0
    rw [if_pos h0] at h
    cases h
  · rename_i h0
    rw [if_neg h0] at h
    cases hp : k.pipeEnd fd .pipeR with
    | none => rw [hp] at h; cases h
    | some p =>
      rw [hp] at h
      simp only [Option.elim_some] at h ⊢
      split at h
      · rename_i hl
        rw [if_pos hl]
        simp only at h
        split at h
        · cases h
        · rename_i hw
          exact ⟨rfl, p, rfl, hl, Nat.pos_of_ne_zero hw⟩
      · cases h

section
variable (hA : A .swap) (hH : A .halt) (hr : r.doomed = none) (hm : k.mode = .user) (ho : Own k)
include hA hH hr hm ho

theorem writePipe_goes (h1 : k.frame.rax = 1) (h2 : k.frame.rdi.toNat < fdMax) :
    Goes A r k (k.writePipe (toInt k.frame.rdi) (wantOf k.frame.rdx)) := by
  unfold writePipe
  refine .ite (fun _ => setRax_goes _ ho) fun hw => ?_
  cases k.copyFromUserN k.frame.rsi.toNat (wantOf k.frame.rdx) with
  | none => exact setRax_goes _ ho
  | some src =>
    simp only
    have hplain : Plain r k (k.schedPipeWrite (toInt k.frame.rdi) src).1 := fun _ => write_goes _ _
    rcases hx : k.schedPipeWrite (toInt k.frame.rdi) src with ⟨k1, x⟩
    rw [hx] at hplain
    cases x with
    | done n => exact hplain.answer ho _ A
    | fail => exact hplain.answer ho _ A
    | block =>
      obtain ⟨e, p, hp, hl, hrefs⟩ := schedPipeWrite_block (toInt k.frame.rdi) src (by rw [hx])
      rw [hx] at e
      have e : k = k1 := e.symm
      subst e
      obtain ⟨j, hj, hend, -, hu, hfd⟩ := pipeEnd_some hp
      exact (rewind_goes ho).trans (schedBlockPipe_goes (k := k.rewind) hA hH hr hm
        ⟨p, hfd, hu, hw, j, hj, .inr ⟨h1, h2, hend, hl, hrefs⟩⟩)

theorem readPipe_goes (h1 : k.frame.rax = 8) :
    Goes A r k (k.readPipe (toInt k.frame.rdi) (wantOf k.frame.rdx)) := by
  unfold readPipe
  refine .ite (fun _ => setRax_goes _ ho) fun hw => ?_
  have hplain : Plain r k (k.schedPipeRead (toInt k.frame.rdi) (wantOf k.frame.rdx)).1 :=
    fun _ => read_goes _ _
  rcases hx : k.schedPipeRead (toInt k.frame.rdi) (wantOf k.frame.rdx) with ⟨k1, x⟩
  rw [hx] at hplain
  cases x with
  | done out => exact .of_shape fun hs => (hplain A).trans (answerBytes_plain (hplain.own hs ho) _ _ A)
  | fail => exact hplain.answer ho _ A
  | block =>
    obtain ⟨e, p, hp, hl, hrefs⟩ := schedPipeRead_block (toInt k.frame.rdi) (wantOf k.frame.rdx) (by rw [hx])
    rw [hx] at e
    have e : k = k1 := e.symm
    subst e
    obtain ⟨j, hj, hend, -, hu, hfd⟩ := pipeEnd_some hp
    exact (rewind_goes ho).trans (schedBlockPipe_goes (k := k.rewind) hA hH hr hm
      ⟨p, hfd, hu, hw, j, hj, .inl ⟨h1, hend, hl, hrefs⟩⟩)

end

theorem inCwd_plain {α : Type} {body : FsM α} (hb : Fs.ComesBack body) : Plain r k (k.fsDo (k.inCwd body)) :=
  fun _ => inCwd_goes hb

theorem schedFdLseek_plain (hm : k.mode = .user) (fd : Int) (off : Nat) :
    Plain r k (k.schedFdLseek fd off).1 :=
  fun _ => schedFdLseek_goes hm fd off

section
variable (hm : k.mode = .user) (ho : Own k)
include hm ho

theorem writeFile_plain (fd : Int) (path : Name) (want : Nat) : Plain r k (k.writeFile fd path want) := by
  unfold writeFile
  refine .ite (fun _ => answer_plain ho _) fun _ => ?_
  cases k.copyFromUserN k.frame.rsi.toNat want with
  | none => exact answer_plain ho _
  | some src =>
    have hfs : Plain r k ((k.setCr3 pml4Phys).fsDo ((k.setCr3 pml4Phys).inCwd
        (writeAt path ((k.setCr3 pml4Phys).schedFdOffset fd) src))) :=
      (setCr3_plain pml4Phys).trans (inCwd_plain (writeAt_back _ _ _))
    refine .ite (fun _ => ?_) fun _ => (hfs.answer ho _).trans restoreCr3_plain
    exact ((hfs.trans (schedFdLseek_plain (k := (k.setCr3 pml4Phys).fsDo _) hm _ _)).answer ho
      _).trans restoreCr3_plain

theorem readDone_plain (fd : Int) (data : Bytes) (off got : Nat) :
    Plain r k (k.readDone fd data off got) := by
  have hmem := copyToUser_mem (k := k) k.frame.rsi ((List.range got).map fun i => data (off + i))
  unfold readDone
  refine .ite (fun _ => Plain.answer (.ite (fun _ => ?_) fun _ => hmem.plain) ho _) fun _ =>
    hmem.plain.answer ho _
  exact hmem.plain.trans (schedFdLseek_plain (hmem.mode.trans hm) _ _)

theorem openDone_plain (path : Name) (len : Nat) : Plain r k (k.openDone path len) := by
  have hopen : Plain r k (k.schedFdOpen path).1 := fun _ => schedFdOpen_goes hm path
  have hmode : (k.schedFdOpen path).1.mode = .user := by
    unfold schedFdOpen
    split
    · exact hm
    · cases freeFd (k.tasks k.current) 0 <;> exact hm
  unfold openDone
  refine Plain.answer ?_ ho _
  cases (k.schedFdOpen path).2 with
  | none => exact hopen
  | some fd => exact .ite (fun _ => hopen.trans (schedFdLseek_plain hmode _ _)) fun _ => hopen

omit hm

theorem writeConsole_plain (want : Nat) : Plain r k (k.writeConsole want) := by
  unfold writeConsole
  cases k.copyFromUserN k.frame.rsi.toNat want with
  | none => exact answer_plain ho _
  | some src => exact ((setCr3_plain pml4Phys).answer ho _).trans restoreCr3_plain

/-- A call that asks the volume in the task's directory: it fails, or `f` goes on with the answer. -/
theorem answering_plain {α : Type} {m : FsM α} (hb : Fs.ComesBack m) {f : Kernel M → α → Kernel M}
    (hf : ∀ (k' : Kernel M) x, k'.mode = k.mode → Own k' → Plain r k' (f k' x)) :
    Plain r k ((k.setCr3 pml4Phys).answering ((k.setCr3 pml4Phys).inCwd m) f) := by
  have hfs : Plain r k ((k.setCr3 pml4Phys).fsDo ((k.setCr3 pml4Phys).inCwd m)) :=
    (setCr3_plain pml4Phys).trans (inCwd_plain hb)
  unfold answering
  cases (k.setCr3 pml4Phys).fsAsk ((k.setCr3 pml4Phys).inCwd m) with
  | none => exact (hfs.answer ho _).trans restoreCr3_plain
  | some x => exact hfs.trans (hf (fsDo _ _) x rfl ho)

theorem sysReaddir_plain : Plain r k k.sysReaddir := by
  unfold sysReaddir
  exact answering_plain ho (Fs.comesBack_of_cached .gets) fun _ _ _ ho' =>
     restoreCr3_plain.trans (answerBytes_plain (k := restoreCr3 _) ho' _ _)

theorem sysStat_plain : Plain r k k.sysStat := by
  unfold sysStat
  cases k.copyFromUser k.frame.rdi.toNat userStrMax with
  | none => exact answer_plain ho _
  | some path =>
    exact answering_plain ho (Fs.fsStat_back path) fun _ _ _ ho' =>
      Plain.answer (restoreCr3_plain.trans (copyToUser_mem _ _).plain) ho' _

theorem sysGetcwd_plain : Plain r k k.sysGetcwd := by
  unfold sysGetcwd
  refine .ite (fun _ => answer_plain ho _) fun _ => .ite (fun _ => ?_) fun _ => ?_
  · exact ((setCr3_plain pml4Phys).trans restoreCr3_plain).trans
      (answerBytes_plain (k := restoreCr3 _) ho _ _)
  · exact ((setCr3_plain pml4Phys).answer ho _).trans restoreCr3_plain

include hm

theorem readFile_plain (fd : Int) (path : Name) (want : Nat) : Plain r k (k.readFile fd path want) := by
  unfold readFile
  exact answering_plain ho (Fs.fsLookup_back path) fun _ _ hm' ho' =>
     restoreCr3_plain.trans (readDone_plain (k := restoreCr3 _) (hm'.trans hm) ho' _ _ _ _)

theorem sysOpen_plain : Plain r k k.sysOpen := by
  unfold sysOpen
  cases k.copyFromUser k.frame.rdi.toNat userStrMax with
  | none => exact answer_plain ho _
  | some path =>
    exact answering_plain ho (openFile_back _ _) fun _ _ hm' ho' =>
       (openDone_plain (hm'.trans hm) ho' _ _).trans restoreCr3_plain

theorem chdirDone_goes (hC : A .chdir) (cl : Nat) (pwd : Name) : Goes A r k (k.chdirDone cl pwd) := by
  have hmove : Goes A r k (k.modTask k.current fun t => { t with cwd := cl, cwdPath := copyCwdPath pwd }) :=
    .one (.chdir cl (copyCwdPath pwd) hC hm)
  refine hmove.trans (.trans (setRax_goes 0 ?_) restoreCr3_goes)
  exact ho

theorem sysChdir_goes (hC : A .chdir) : Goes A r k k.sysChdir := by
  unfold sysChdir
  cases k.copyFromUser k.frame.rdi.toNat userStrMax with
  | none => exact setRax_goes _ ho
  | some path =>
    simp only
    set k1 := k.setCr3 pml4Phys
    set m := userChdir (k1.tasks k1.current).cwd k1.currentPwd path
    have hfs : Goes A r k (k1.fsDo m) :=
      (setCr3_goes pml4Phys).trans (.of_shape fun hs => fsDo_goes (userChdir_same _ _ _ hs.path))
    have ho1 : Own (k1.fsDo m) := ho
    unfold answering
    cases k1.fsAsk m with
    | none => exact hfs.trans ((setRax_goes _ ho1).trans restoreCr3_goes)
    | some x => exact hfs.trans (chdirDone_goes (k := k1.fsDo m) hm ho1 hC x.1 x.2)

theorem sysPipe_plain (hr : r.raw = none) : Plain r k k.sysPipe := by
  have hpipe : Plain r k k.schedPipe.1 := fun _ => schedPipe_goes hr hm
  unfold sysPipe
  rcases hx : k.schedPipe with ⟨k1, _ | ⟨a, b⟩⟩
  · rw [hx] at hpipe
    exact hpipe.answer ho _
  · rw [hx] at hpipe
    have hcopy : ∀ src, Plain r k (k1.copyToUser k1.frame.rdi src).1 := fun src =>
      hpipe.trans (copyToUser_mem _ src).plain
    have hclose : ∀ (k : Kernel M) fd, Plain r k (k.schedFdClose fd).1 := fun _ fd _ => schedFdClose_goes fd
    exact .ite (fun _ => (hcopy _).answer ho _) fun _ =>
      (((hcopy _).trans (hclose _ _)).trans (hclose _ _)).answer ho _

omit hm ho in
theorem userMmap_plain (hint len : Nat) (fd : Int) : Plain r k (k.userMmap hint len fd).1 := by
  unfold userMmap
  simp only
  split
  · exact fun _ => .refl
  · cases userPagesOf hint len with
    | none => exact fun _ => .refl
    | some n =>
      simp only
      split
      · exact fun _ => .refl
      · cases k.schedFdPath fd with
        | none => exact (mapPages_mem _ _ _).plain
        | some path =>
          simp only
          have hfs : Plain r k (k.fsDo (k.inCwd (Fs.fsLookup path))) := inCwd_plain (Fs.fsLookup_back path)
          cases k.fsAsk (k.inCwd (Fs.fsLookup path)) with
          | none => exact hfs
          | some x =>
            have hmap := hfs.trans (mapPages_mem k.currentCr3 hint n).plain
            simp only
            split
            · exact hmap.trans (OnlyMem.memDo (.copyTo _ _ _) rfl).plain
            · exact hmap

theorem userExecCurrent_plain (name : Name) (img : Option Image) :
    Plain r k (k.userExecCurrent name img).1 := by
  unfold userExecCurrent
  split
  · exact fun _ => .refl
  · cases img with
    | none => exact fun _ => .refl
    | some img =>
      have hdown : OnlyMem k (k.memDo (.teardown k.currentCr3)) := .memDo (.teardown _) rfl
      have hload := hdown.trans (loadImage_mem k.currentCr3 img [name])
      simp only
      rcases hx : (k.memDo (.teardown k.currentCr3)).loadImage k.currentCr3 img [name] with ⟨k1, _ | sp⟩
      · rw [hx] at hload
        exact (hload.trans (.memDo (.teardown _) rfl)).plain
      · rw [hx] at hload
        exact hload.plain.trans fun _ => schedResetCurrent_goes (hload.own ho) (hload.mode.trans hm) _ _ _

theorem readConsole_goes (hA : A .swap) (hH : A .halt) (hr : r.doomed = none) (want : Nat) :
    Goes A r k (k.readConsole want) := by
  unfold readConsole
  refine .ite (fun _ => setRax_goes _ ho) fun _ => ?_
  cases k.stdin with
  | none => exact (rewind_goes ho).trans (schedBlockKbd_goes (k := k.rewind) hA hH hr hm)
  | some line =>
    have htake : Plain r k { k with stdin := none } := fun _ =>
      .quiet (.same rfl rfl rfl rfl rfl rfl rfl .refl ⟨rfl, rfl⟩)
    exact htake.trans (answerBytes_plain (k := { k with stdin := none }) ho _ _) A

theorem sysWrite_goes (hA : A .swap) (hH : A .halt) (hr : r.doomed = none) (h1 : k.frame.rax = 1) :
    Goes A r k k.sysWrite := by
  unfold sysWrite
  refine .ite (fun hfd => ?_) fun _ => ?_
  · simp only
    cases k.schedFdKind (toInt k.frame.rdi) with
    | pipeW => exact writePipe_goes hA hH hr hm ho h1 hfd
    | file =>
      cases k.schedFdPath (toInt k.frame.rdi) with
      | none => exact setRax_goes _ ho
      | some path => exact writeFile_plain hm ho _ _ _ A
    | none => exact .ite (fun _ => writeConsole_plain ho _ A) fun _ => setRax_goes _ ho
    | consoleW => exact writeConsole_plain ho _ A
    | pipeR => exact setRax_goes _ ho
    | consoleR => exact setRax_goes _ ho
  · cases k.copyFromUser k.frame.rdi.toNat userStrMax with
    | none => exact .refl
    | some _ => exact (setCr3_goes _).trans restoreCr3_goes

theorem sysRead_goes (hA : A .swap) (hH : A .halt) (hr : r.doomed = none) (h1 : k.frame.rax = 8) :
    Goes A r k k.sysRead := by
  unfold sysRead
  simp only
  cases k.schedFdKind (toInt k.frame.rdi) with
  | pipeR => exact readPipe_goes hA hH hr hm ho h1
  | file =>
    cases k.schedFdPath (toInt k.frame.rdi) with
    | none => exact setRax_goes _ ho
    | some path => exact readFile_plain hm ho _ _ _ A
  | none => exact .ite (fun _ => readConsole_goes hm ho hA hH hr _) fun _ => setRax_goes _ ho
  | consoleR => exact readConsole_goes hm ho hA hH hr _
  | pipeW => exact setRax_goes _ ho
  | consoleW => exact setRax_goes _ ho

/-- Exit in the middle of a call, with code 0. -/
theorem exitZero_goes (hA : A .swap) (hH : A .halt) (hr : r.doomed = none) :
    Goes A r k (schedExit { k with frame := { k.frame with rdi := 0 } }) := by
  have hback : r = { r with doomed := none } := by rw [← hr]
  have hexit : Leads A r { r with doomed := none } { k with frame := { k.frame with rdi := 0 } } _ :=
    schedExit_leads hA hH hm
  rw [← hback] at hexit
  exact (frame_goes _ ho).trans hexit

theorem sysExec_goes (hA : A .swap) (hH : A .halt) (hr : r.doomed = none) (io : Io) :
    Goes A r k (k.sysExec io) := by
  refine .of_shape fun hs => ?_
  unfold sysExec
  cases k.copyFromUser k.frame.rdi.toNat userStrMax with
  | none => exact setRax_goes _ ho
  | some name =>
    refine .ite (fun _ => setRax_goes _ ho) fun _ => ?_
    simp only
    set k1 := k.setCr3 pml4Phys
    set m := k1.inCwd (lookupRootElf name)
    set img := (k1.fsAsk m).bind fun r => if r.2 = 0 ∨ r.2 > fileMax then none else io.elf r.1 r.2
    have hfs : Plain r k (k1.fsDo m) := (setCr3_plain pml4Phys).trans (inCwd_plain (lookupRootElf_back name))
    have hexec : Plain r k ((k1.fsDo m).userExecCurrent name img).1 :=
      hfs.trans (userExecCurrent_plain (k := k1.fsDo m) hm ho name img)
    have hstill := (hexec fun _ => False).still hs
    rcases hx : (k1.fsDo m).userExecCurrent name img with ⟨k2, _ | _ | _⟩ <;> rw [hx] at hexec hstill
    · exact hexec A
    · exact ((hexec.answer ho _).trans restoreCr3_plain) A
    · exact (hexec A).trans (exitZero_goes (hstill.mode.trans hm) (hstill.own ho) hA hH hr)

omit hm in
theorem sysDate_plain (io : Io) : Plain r k (k.sysDate io) := by
  have hcopy : Plain r k (k.copyToUser k.frame.rdi io.date).1 := (copyToUser_mem _ _).plain
  unfold sysDate
  exact .ite (fun _ => answer_plain ho _) fun _ =>
    .ite (fun _ => (hcopy.answer ho _).trans restoreCr3_plain) fun _ => hcopy.answer ho _

omit hm in
theorem sysFbinfo_plain (io : Io) : Plain r k (k.sysFbinfo io) := by
  unfold sysFbinfo
  cases io.fbInfo with
  | none => exact (answer_plain ho _).trans restoreCr3_plain
  | some b => exact (((copyToUser_mem _ b).plain).answer ho _).trans restoreCr3_plain

omit hm in
theorem memCall_plain (op : SpaceOp) (hop : op.kernel = false) (v : UInt64) :
    Plain r k ((k.memDo op).setRax v).restoreCr3 :=
  ((OnlyMem.memDo op hop).plain.answer ho v).trans restoreCr3_plain

theorem lateSyscall_reaches (hA : A .swap) (hH : A .halt) (hr : r.doomed = none) (io : Io) :
    Reaches A r k (k.lateSyscall io) := by
  have hback : r = { r with doomed := none } := by rw [← hr]
  have answered : ∀ {k' : Kernel M} (v : UInt64), Plain r k k' → Reaches A r k (k'.setRax v).restoreCr3 :=
    fun v h => Leads.reaches (((h.answer ho v).trans restoreCr3_plain) A)
  unfold lateSyscall
  split
  · exact ⟨{ r with doomed := none }, rfl, hr.symm, schedExit_leads hA hH hm⟩
  · exact Leads.reaches ((switchToNext_goes hA hm).trans restoreCr3_goes)
  · exact Leads.reaches ((schedSleep_goes hA hH hr hm _).trans restoreCr3_goes)
  · exact Leads.reaches ((schedWait_goes hA hH hr hm).trans restoreCr3_goes)
  · exact answered _ fun _ => schedFdClose_goes _
  · exact answered _ fun _ => userBrk_goes _
  · refine .of_shape fun hs => ?_
    have hstill := (userFork_reaches (A := (· = .late)) (r := r) hm).still hs
    exact (userFork_reaches hm).thenGoes fun r => (setAnswer_goes _ (hstill.own ho)).trans restoreCr3_goes
  · exact answered _ fun _ => schedFdDup2_goes hm _ _
  · split
    · exact answered _ fun _ => .refl
    · exact answered _ fun _ => schedFdLseek_goes hm _ _
  · exact Leads.reaches ((schedKill_goes hA ho).trans restoreCr3_goes)
  · exact answered _ (userMmap_plain _ _ _)
  · exact answered _ fun _ => .refl
  · obtain ⟨h1, h2⟩ := Fs.fsSync_back.keeps k.fs
    exact answered _ fun _ => fsDo_goes ⟨h1, h2⟩
  · exact (memCall_plain ho _ rfl _ A).reaches
  · exact (sysFbinfo_plain ho io A).reaches
  · exact answered _ fun _ => .refl
  · exact answered _ fun _ => .refl
  · exact Leads.reaches ((schedSigaction_goes ho).trans restoreCr3_goes)
  · exact (memCall_plain ho _ rfl _ A).reaches
  · exact (sysDate_plain ho io A).reaches
  · exact (restoreCr3_plain A).reaches

theorem userOnSyscall_reaches (hA : A .swap) (hH : A .halt) (hr : r.doomed = none) (hraw : r.raw = none)
    (hC : k.frame.rax.toNat = 20 → A .chdir) (io : Io) : Reaches A r k (k.userOnSyscall io) := by
  have rax : ∀ {n : UInt64}, k.frame.rax.toNat = n.toNat → k.frame.rax = n := fun h => UInt64.toNat.inj h
  unfold userOnSyscall
  split
  · rename_i h
    exact (sysWrite_goes hm ho hA hH hr (rax h)).reaches
  · exact (sysOpen_plain hm ho A).reaches
  · rename_i h
    exact (sysRead_goes hm ho hA hH hr (rax h)).reaches
  · exact (sysReaddir_plain ho A).reaches
  · exact (sysExec_goes hm ho hA hH hr io).reaches
  · exact (sysPipe_plain hm ho hraw A).reaches
  · exact (sysStat_plain ho A).reaches
  · rename_i h
    exact (sysChdir_goes hm ho (hC h)).reaches
  · exact (sysGetcwd_plain ho A).reaches
  · exact Leads.thenReaches (setCr3_goes _) (lateSyscall_reaches (k := k.setCr3 pml4Phys) hm ho hA hH hr io)

end

/-! ## Interrupts -/

theorem Move.halted {c c' : Ghost × Kernel M} (h : Move A c c') (hs : Shape c.2) (h2 : ¬ A .halt)
    (hm : c'.2.mode = .halt) : c.2.mode = .halt := by
  by_cases h1 : A .swap
  · cases h with
    | quiet hq => exact hq.mode.symm.trans hm
    | drop i j => exact (dropFd_mode _ _ _).symm.trans hm
    | @alloc g k p hr hp => exact ((Move.alloc (A := fun _ => False) hr hp).still hs id id).mode.symm.trans hm
    | discard => exact (freePipe_mode _ _).symm.trans hm
    | @read g k fd n => exact ((Move.read (A := fun _ => False) (g := g) fd n).still hs id
        id).mode.symm.trans hm
    | @write g k fd src => exact ((Move.write (A := fun _ => False) (g := g) fd src).still hs id
        id).mode.symm.trans hm
    | @freeKstack g k i hd => exact ((Move.freeKstack (A := fun _ => False) (g := g) i hd).still hs
        id id).mode.symm.trans hm
    | halt hA => exact absurd hA h2
    | stop hA hS => exact absurd hA h2
    | pause => cases hm
    | blockPipe => cases hm
    | load => cases hm
    | swap => cases hm
    | die => cases hm
    | blockWait => cases hm
    | _ => exact hm
  · exact (h.still hs h1 h2).mode.symm.trans hm

/-- Without the halting moves nobody stops the machine. -/
theorem Moves.halted {c c' : Ghost × Kernel M} (h : Moves A c c') (hs : Shape c.2) (h2 : ¬ A .halt)
    (hm : c'.2.mode = .halt) : c.2.mode = .halt := by
  induction h with
  | refl => exact hm
  | tail hrun hstep ih => exact ih (hstep.halted (Moves.shape hrun hs) h2 hm)

omit [MemSys M] in
theorem shell_path (c : ShellCmd) (hp : Fs.PathOk k.fs.path) : Fs.PathOk (k.fsDo c.action).fs.path := by
  have same : ∀ {m : FsM Unit}, Fs.ComesBack m → Fs.PathOk (exec m k.fs).2.path := by
    intro m hm
    rw [(hm.keeps k.fs).2]
    exact hp
  cases c with
  | put path src => exact same (Fs.fsWrite_back _ _ _)
  | rm path => exact same (Fs.fsRemove_back _)
  | mkdir path => exact same (Fs.fsMkdir_back _)
  | rmdir path => exact same (Fs.fsRmdir_back _)
  | cd path => exact Fs.fsChdir_path hp
  | mv src dst => exact same (Fs.fsRename_back _ _)
  | cp src dst => exact same (Fs.fsCopy_back _ _)
  | ln src dst => exact same (Fs.fsLink_back _ _)
  | trunc path len => exact same (Fs.fsTruncate_back _ _)
  | cat path => exact same ((Fs.fsLookup_back path).bind fun _ => Fs.comesBack_of_cached .pure)
  | sync => exact same Fs.fsSync_back

theorem act_reaches (hA : A .swap) (hS : A .shell) (hL : k.mode = .halt → A .late)
    (hr : r.raw = none) (a : Act) :
    Reaches A r k (k.act a) := by
  cases a with
  | tick =>
    have htick : Goes A r k { k with ticks := k.ticks + 1 } :=
      .quiet (.same rfl rfl rfl rfl rfl rfl rfl .refl ⟨rfl, rfl⟩)
    exact Leads.reaches (htick.trans (schedOnTick_goes hA))
  | line l =>
    have hin : Goes A r k { k with stdin := some l } :=
      .quiet (.same rfl rfl rfl rfl rfl rfl rfl .refl ⟨rfl, rfl⟩)
    exact Leads.reaches (.ite (fun _ => hin.trans schedWakeKbd_goes) fun _ => .refl)
  | ctrlC => exact (schedSignalFg_goes hA _ _).reaches
  | kill pid => exact (signalAt_goes hA _ _ _).reaches
  | run p => exact userRunFds_reaches p none none hL
  | runFile p fd path off =>
    have hrun : Reaches A r k (k.userRunFds p none none).1 := userRunFds_reaches p none none hL
    simp only [act]
    rcases hx : k.userRunFds p none none with ⟨k1, _ | _⟩ <;> rw [hx] at hrun
    · exact hrun
    · exact hrun.thenGoes fun _ => schedFdBindFile_goes _ _ _
  | pipeline left right => exact userRunPipeline_reaches hr left right hL
  | shell c => exact Leads.reaches (.of_shape fun hs => .one (.shell _ hS (shell_path c hs.path)))
  | bootTask p =>
    exact Leads.thenReaches (progImage_goes p.name) (userSpawn_spec (k := k.fsDo _) p.name p.arg _ hL).1
  | clearFg => exact (setFg_goes none).reaches

theorem acts_reaches (hA : A .swap) (hS : A .shell) (hr : r.raw = none) (acts : List Act)
    (hL : k.mode = .halt → A .late) : Reaches A r k (acts.foldl act k) := by
  induction acts generalizing k r with
  | nil => exact Leads.refl.reaches
  | cons a acts ih =>
    refine .of_shape fun hs => (act_reaches hA hS hL hr a).trans fun r1 e1 _ => ih (e1.trans hr)
      fun hm => hL ?_
    obtain ⟨r2, -, -, h⟩ := act_reaches (A := (· ≠ .halt)) (r := r) (k := k) nofun nofun (fun _ => nofun) hr a
    exact (h hs).halted hs (fun h => h rfl) hm

/-! ## Events -/

/-- The labels of an event: who may move what in it. -/
def Event.labels (k : Kernel M) : Event → Label → Prop
  | .syscall f _, l => l = .swap ∨ l = .halt ∨ (l = .chdir ∧ f.rax = 20)
  | .exception _ v _ _, l => l = .swap ∨ l = .halt ∨ (l = .stop ∧ v ≠ 14)
  | .irq _ _ _ _, l => l = .swap ∨ l = .halt ∨ l = .shell ∨ (l = .late ∧ k.mode = .halt)
  | .store _ _, _ => False
  | .idle, l => l = .swap ∨ l = .halt
  | .enter, l => l = .swap

theorem supply_goes (pages : Nat) (errs : List Bool) : Goes A r k (k.supply pages errs) :=
  .quiet (.same rfl rfl rfl rfl rfl rfl rfl .refl ⟨rfl, rfl⟩)

omit [MemSys M] in
theorem trap_own (f : Frame) : Own (k.trap f) := fun _ => Function.update_self _ _ _

theorem syscall_reaches (hA : A .swap) (hH : A .halt) (hr : r.doomed = none) (hraw : r.raw = none)
    (hm : k.mode = .user) {f : Frame} (hC : f.rax = 20 → A .chdir) (io : Io) :
    Reaches A r k (((k.trap f).supply io.pages io.errs).syscallHandler io) := by
  have htrap : Goes A r k ((k.trap f).supply io.pages io.errs) := .trans (.one (.trap f hm)) (supply_goes _ _)
  have hcall : Reaches A r ((k.trap f).supply io.pages io.errs)
      (((k.trap f).supply io.pages io.errs).userOnSyscall io) :=
    userOnSyscall_reaches (k := (k.trap f).supply io.pages io.errs) hm (trap_own (k := k) f) hA hH hr hraw
      (fun h => hC (UInt64.toNat.inj h)) io
  exact (htrap.thenReaches hcall).trans fun r' _ e2 => (deliverPending_goes hA hH (e2.trans hr)).reaches

theorem exception_goes (hA : A .swap) (hH : A .halt) (hr : r.doomed = none) (hm : k.mode = .user)
    (f : Frame) (vector error cr2 : Nat) (hS : vector ≠ 14 → A .stop) :
    Goes A r k ((k.trap f).exceptionHandler vector error cr2) := by
  have htrap : Goes A r k (k.trap f) := .one (.trap f hm)
  have ho : Own (k.trap f) := trap_own f
  refine htrap.trans ?_
  unfold exceptionHandler
  refine .ite (fun _ => ?_) fun h => .one (.stop hH (hS h))
  simp only
  have hcow : Goes A r (k.trap f) ((k.trap f).memDo (.cowBreak (k.trap f).cr3 cr2)) := memDo_goes _ rfl
  refine .ite (fun _ => hcow.trans (deliverPending_goes hA hH hr)) fun _ => ?_
  refine .trans ?_ noteSkipped_goes
  split
  · exact hcow.trans (exitZero_goes (k := (k.trap f).memDo _) hm ho hA hH hr)
  · exact exitZero_goes hm ho hA hH hr

theorem irq_reaches (hA : A .swap) (hH : A .halt) (hS : A .shell) (hL : k.mode = .halt → A .late)
    (hr : r.doomed = none) (hraw : r.raw = none) (f : Frame) (pages : Nat) (errs : List Bool)
    (acts : List Act) :
    Reaches A r k (((if k.mode = .user then k.trap f else k).supply pages errs).irqHandler acts) := by
  have hstart : Goes A r k ((if k.mode = .user then k.trap f else k).supply pages errs) :=
    .trans (.ite (fun hm => .one (.trap f hm)) fun _ => .refl) (supply_goes _ _)
  have hmode : ((if k.mode = .user then k.trap f else k).supply pages errs).mode = k.mode := by
    split <;> rfl
  exact (hstart.thenReaches (acts_reaches hA hS hraw acts fun h => hL (hmode.symm.trans h))).trans
    fun r' _ e2 => (deliverPending_goes hA hH (e2.trans hr)).reaches

/-- Every event is a sequence of moves, with the labels of its kind. -/
theorem step_reaches (hr : r.doomed = none) (hraw : r.raw = none) (e : Event) :
    Reaches (e.labels k) r k (k.step e) := by
  cases e with
  | syscall f io =>
    by_cases hm : k.mode = .user
    · simp only [step, if_pos hm]
      exact syscall_reaches (.inl rfl) (.inr (.inl rfl)) hr hraw hm (fun h => .inr (.inr ⟨rfl, h⟩)) io
    · simp only [step, if_neg hm]
      exact Leads.refl.reaches
  | exception f vector error cr2 =>
    exact Leads.reaches (.ite (fun hm => exception_goes (.inl rfl) (.inr (.inl rfl)) hr hm f _ _ _
      fun h => .inr (.inr ⟨rfl, h⟩)) fun _ => .refl)
  | irq f pages errs acts =>
    by_cases hm : k.mode = .stop
    · simp only [step, if_pos hm]
      exact Leads.refl.reaches
    · simp only [step, if_neg hm]
      exact irq_reaches (.inl rfl) (.inr (.inl rfl)) (.inr (.inr (.inl rfl)))
        (fun h => .inr (.inr (.inr ⟨rfl, h⟩))) hr hraw f pages errs acts
  | store virt b => exact Leads.reaches (.ite (fun _ => memDo_goes _ rfl) fun _ => .refl)
  | idle =>
    refine Leads.reaches (.ite (fun hm => ?_) fun _ => .refl)
    have hidle : Goes (Event.labels k .idle) r k k.idleTurn := idleTurn_goes (.inl rfl) (by rw [hm]; nofun)
    exact hidle.trans (deliverPending_goes (.inl rfl) (.inr rfl) hr)
  | enter =>
    refine Leads.reaches (.ite (fun h => .of_shape fun hs => .one (.load _ rfl ?_ ?_ h.2.2)) fun _ => .refl)
    · rw [h.1]; nofun
    · exact hs.slot (by rw [h.2.2]; nofun)

theorem Reaches.shape (h : Reaches A r k k') (hs : Shape k) : Shape k' := by
  obtain ⟨r', -, -, m⟩ := h
  exact m.shape hs

theorem step_shape (hs : Shape k) (e : Event) : Shape (k.step e) :=
  (step_reaches (r := ⟨none, none, ∅⟩) rfl rfl e).shape hs

end Kernel

end VampireOS
