import VampireOS.Sched.Shape

/-!
# The moves of every function

`Goes A r k k'`: the kernel gets from `k` to `k'` by moves, with the pipe `r` made and not yet bound. For each
function of sched.c and user.c a lemma says that its result is reached so; `step_moves` says it of every
event. What an invariant needs of the code is in Moves.lean then.
-/

namespace VampireOS

open Lib

theorem FdEntry.endOf_unused {e : FdEntry} (h : e.used = false) : e.endOf = none := by
  simp [FdEntry.endOf, h]

namespace Kernel

variable {M : Type} [MemSys M] {A : Label → Prop} {r r' r'' : Ghost} {k k' k'' : Kernel M}

def Leads (A : Label → Prop) (r r' : Ghost) (k k' : Kernel M) : Prop := Shape k → Moves A (r, k) (r', k')

abbrev Goes (A : Label → Prop) (r : Ghost) (k k' : Kernel M) : Prop := Leads A r r k k'

theorem Leads.trans (h : Leads A r r' k k') (h' : Leads A r' r'' k' k'') : Leads A r r'' k k'' :=
  fun hs => (h hs).trans (h' ((h hs).shape hs))

/-- The rest may use the shape of the state reached so far. -/
theorem Leads.step (h : Leads A r r' k k') (h' : Shape k → Shape k' → Leads A r' r'' k' k'') :
    Leads A r r'' k k'' :=
  fun hs => (h hs).trans (h' hs ((h hs).shape hs) ((h hs).shape hs))

theorem Leads.shape (h : Leads A r r' k k') (hs : Shape k) : Shape k' := (h hs).shape hs

theorem Leads.of_shape (h : Shape k → Leads A r r' k k') : Leads A r r' k k' := fun hs => h hs hs

theorem Leads.refl : Goes A r k k := fun _ => .refl

theorem Leads.one (h : Move A (r, k) (r', k')) : Leads A r r' k k' := fun _ => .single h

theorem Leads.quiet (h : Quiet k k') : Goes A r k k' := .one (.quiet h)

theorem Leads.ite {c : Prop} [Decidable c] {k1 k2 : Kernel M} (h1 : c → Leads A r r' k k1)
    (h2 : ¬ c → Leads A r r' k k2) : Leads A r r' k (if c then k1 else k2) := by
  split
  · exact h1 ‹_›
  · exact h2 ‹_›

/-- A loop whose every turn goes on. -/
theorem Leads.forTo {f : Nat → Kernel M → Kernel M} (n : Nat)
    (h : ∀ j, j < n → ∀ k, Goes A r k (f j k)) (k : Kernel M) :
    Goes A r k (forTo f n k) := by
  induction n with
  | zero => exact .refl
  | succ n ih => exact (ih fun j hj => h j (by omega)).trans (h n (by omega) _)

/-! ## Who has the processor -/

/-- The running task is not in a wait, so its registers may be written. -/
def Own (k : Kernel M) : Prop := k.mode = .user → k.hist.waiting k.current = false

/-- The processor stays where it is. -/
structure Still (k k' : Kernel M) : Prop where
  mode : k'.mode = k.mode
  current : k.mode = .user → k'.current = k.current
  own : Own k → Own k'

omit [MemSys M] in
theorem Still.of_same (hm : k'.mode = k.mode) (hc : k'.current = k.current)
    (hw : k'.hist.waiting = k.hist.waiting) :
    Still k k' := ⟨hm, fun _ => hc, fun ho hu => by rw [hw, hc]; exact ho (hm ▸ hu)⟩

/-- Without a switch a move leaves the processor with its task. -/
theorem Move.still {c c' : Ghost × Kernel M} (h : Move A c c') (hs : Shape c.2) (h1 : ¬ A .swap)
    (h2 : ¬ A .halt) :
    Still c.2 c'.2 := by
  cases h with
  | quiet hq => exact .of_same hq.mode hq.current hq.hist.waiting
  | trap f hm => exact ⟨rfl, fun _ => rfl, fun _ _ => Function.update_self _ _ _⟩
  | chdir => exact .of_same rfl rfl rfl
  | shell => exact .of_same rfl rfl rfl
  | drop i j => exact .of_same (dropFd_mode _ _ _) (dropFd_current _ _ _) (by rw [dropFd_hist])
  | setFd => exact .of_same rfl rfl rfl
  | addEnd => exact .of_same rfl rfl rfl
  | @alloc g k p hr hp =>
    rcases allocPipe_cases k with e | ⟨q, phys, -, -, -, e⟩
    · rw [e] at hp; cases hp
    · simp only [e]; exact .of_same rfl rfl rfl
  | settle => exact .of_same rfl rfl rfl
  | discard => exact .of_same (freePipe_mode _ _) (freePipe_current _ _) (by rw [freePipe_hist])
  | @read g k fd n =>
    rcases schedPipeRead_cases k fd n with e | ⟨p, u, -, e, -⟩ <;> simp only [e] <;>
      exact .of_same rfl rfl rfl
  | @write g k fd src =>
    rcases schedPipeWrite_cases k fd src with e | ⟨p, u, -, e, -⟩ <;> simp only [e] <;>
      exact .of_same rfl rfl rfl
  | pause s f hA => exact absurd hA h1
  | blockPipe p hA => exact absurd hA h1
  | load i hA => exact absurd hA h1
  | swap i hA => exact absurd hA h1
  | halt hA => exact absurd hA h2
  | stop hA => exact absurd hA h2
  | @grow g k hc =>
    have h0 : k.mode = .user → k.taskCount ≠ 0 := fun hm => by
      have := (hs.run hm).1
      change k.current < k.taskCount at this
      omega
    refine ⟨rfl, fun hm => if_neg (h0 hm), fun ho hm => ?_⟩
    simp only [if_neg (h0 hm)]
    exact ho hm
  | @spawn g k i f parent t hA hi hd =>
    refine ⟨rfl, fun _ => rfl, fun ho hm => ?_⟩
    change Function.update k.hist.waiting i false k.current = false
    by_cases hc : k.current = i
    · rw [hc, Function.update_self]
    · rw [Function.update_of_ne hc]
      exact ho hm
  | doom _ _ _ hA => exact absurd hA h1
  | die code hA => exact absurd hA h1
  | blockWait w hA => exact absurd hA h1
  | reap child hA => exact absurd hA h1
  | refuse hA => exact absurd hA h1
  | askPending hA => exact absurd hA h1
  | take => exact .of_same rfl rfl rfl
  | noFrame => exact .of_same rfl rfl rfl
  | give => exact .of_same rfl rfl rfl
  | @freeKstack g k i =>
    obtain ⟨-, -, h3, h4, h5, -⟩ := freeTaskKstack_rest k i
    exact .of_same h4 h3 (by rw [h5])

theorem Moves.still {c c' : Ghost × Kernel M} (h : Moves A c c') (hs : Shape c.2) (h1 : ¬ A .swap)
    (h2 : ¬ A .halt) :
    Still c.2 c'.2 := by
  induction h with
  | refl => exact .of_same rfl rfl rfl
  | tail hm hstep ih =>
    have hst := hstep.still (Moves.shape hm hs) h1 h2
    exact ⟨hst.mode.trans ih.mode, fun hu => (hst.current (ih.mode.trans hu)).trans (ih.current hu),
      fun ho => hst.own (ih.own ho)⟩

/-- A call that makes no labelled move. -/
theorem Leads.still (h : Leads (fun _ => False) r r' k k') (hs : Shape k) : Still k k' :=
  (h hs).still hs id id

/-! ## Quiet functions -/

/-- The tables, the frame and the history are as before. -/
theorem Quiet.same (ht : k'.tasks = k.tasks) (hp : k'.pipes = k.pipes) (hn : k'.taskCount = k.taskCount)
    (hc : k'.current = k.current) (hm : k'.mode = k.mode) (hh : k'.hist = k.hist) (hf : k'.frame = k.frame)
    (hmem : MemRun k.mem k'.mem) (hfs : k'.fs.cwd = k.fs.cwd ∧ k'.fs.path = k.fs.path) : Quiet k k' where
  task i := by rw [ht]; exact Calm.refl _
  pipes := hp
  count := hn
  current := hc
  mode := hm
  hist := by rw [hh]; exact SameLife.refl _
  mem := hmem
  cwd := hfs
  waits i _ := .inr (.of_same (by rw [ht]) (by unfold regsOf; rw [hm, hc, hf, ht]))

theorem memDo_goes (op : SpaceOp) (hop : op.kernel = false) : Goes A r k (k.memDo op) :=
  .quiet (.same rfl rfl rfl rfl rfl rfl rfl (.tail .refl op hop) ⟨rfl, rfl⟩)

theorem setCr3_goes (cr3 : Nat) : Goes A r k (k.setCr3 cr3) :=
  .quiet (.same rfl rfl rfl rfl rfl rfl rfl .refl ⟨rfl, rfl⟩)

theorem restoreCr3_goes : Goes A r k k.restoreCr3 := setCr3_goes _

theorem fsDo_goes {α : Type} {m : FsM α} (h : Fs.SameCwd k.fs (exec m k.fs).2) : Goes A r k (k.fsDo m) :=
  .quiet (.same rfl rfl rfl rfl rfl rfl rfl .refl ⟨h.cwd, h.path⟩)

/-- They may also be written when a signal is pending. -/
theorem frame_goes' (f : Frame)
    (h : k.mode = .user → k.hist.waiting k.current = false ∨ (k.tasks k.current).pending ≠ 0) :
    Goes A r k { k with frame := f } := by
  refine .quiet ⟨fun i => Calm.refl _, rfl, rfl, rfl, rfl, SameLife.refl _, .refl, ⟨rfl, rfl⟩,
    fun i hi => .inr ?_⟩
  refine ⟨id, ?_⟩
  by_cases hc : k.mode = .user ∧ k.current = i
  · obtain ⟨hm, rfl⟩ := hc
    rcases h hm with hw | hp
    · rw [hw] at hi; cases hi
    · exact .inl hp
  · refine .inr ⟨?_, id⟩
    unfold regsOf
    rw [if_neg hc, if_neg hc]

theorem frame_goes (f : Frame) (h : Own k) : Goes A r k { k with frame := f } :=
  frame_goes' f fun hm => .inl (h hm)

theorem setRax_goes (v : UInt64) (h : Own k) : Goes A r k (k.setRax v) := frame_goes _ h
theorem setAnswer_goes (v : Option Nat) (h : Own k) : Goes A r k (k.setAnswer v) := setRax_goes _ h
theorem rewind_goes (h : Own k) : Goes A r k k.rewind := frame_goes _ h

theorem tasks_goes {f : Nat → Task} (h : ∀ i, Mild (k.tasks i) (f i)) : Goes A r k { k with tasks := f } := by
  refine .quiet ⟨fun i => (h i).toCalm, rfl, rfl, rfl, rfl, SameLife.refl _, .refl, ⟨rfl, rfl⟩,
    fun i _ => .inr ⟨?_, .inr ⟨?_, (h i).stays⟩⟩⟩
  · simp only [(h i).samePending]
    exact id
  · unfold regsOf
    simp only [(h i).sameRegs]

theorem modTask_goes (i : Nat) {f : Task → Task} (h : Mild (k.tasks i) (f (k.tasks i))) :
    Goes A r k (k.modTask i f) := by
  refine tasks_goes fun n => ?_
  by_cases hn : n = i
  · subst hn
    simpa using h
  · simpa [hn] using Mild.refl (k.tasks n)

/-! ## Descriptors -/

theorem dropFd_goes (i j : Nat) : Goes A r k (k.dropFd i j) := .one (.drop i j)

theorem clearFds_goes (i : Nat) : Goes A r k (k.clearFds i) := .forTo _ (fun j _ _ => dropFd_goes i j) _

/-- `drop_fd` leaves its own entry free and puts none in use. -/
theorem dropFd_used (k : Kernel M) (i j n m : Nat) (h : ((k.tasks n).fds m).used = false ∨ (n = i ∧ m = j)) :
    (((k.dropFd i j).tasks n).fds m).used = false := by
  obtain ⟨t, hc, e⟩ := dropFd_task k i j n
  rw [e]
  have ht : ((k.tasks n).fds m).used = false → (t.fds m).used = false := fun hu => (hc.fds m).1.trans hu
  split
  · by_cases hm : m = j
    · simp [hm, FdEntry.empty]
    · simp only [Function.update_of_ne hm]
      rcases h with h | ⟨-, rfl⟩
      · exact ht h
      · exact absurd rfl hm
  · rename_i hn
    rcases h with h | ⟨rfl, rfl⟩
    · exact ht h
    · refine ht ?_
      by_contra hu
      exact hn ⟨rfl, by simpa using hu⟩

theorem dropFd_live (k : Kernel M) (i j n : Nat) :
    ((k.dropFd i j).tasks n).state = .dead ↔ (k.tasks n).state = .dead := by
  obtain ⟨t, hc, e⟩ := dropFd_task k i j n
  rw [e]
  split <;> exact hc.dead

theorem clearFds_used (hs : Shape k) (i j : Nat) : (((k.clearFds i).tasks i).fds j).used = false := by
  have hloop : ∀ n j, j < n ∨ fdMax ≤ j →
      (((forTo (fun j k => k.dropFd i j) n k).tasks i).fds j).used = false := by
    intro n
    induction n with
    | zero =>
      intro j hj
      exact hs.high i j (by omega)
    | succ n ih =>
      intro j hj
      refine dropFd_used _ i n i j ?_
      by_cases hn : j = n
      · exact .inr ⟨rfl, hn⟩
      · exact .inl (ih j (by omega))
  exact hloop fdMax j (by omega)

theorem setFd_goes (i j : Nat) (e : FdEntry) (h0 : ((k.tasks i).fds j).endOf = none) (he : e.endOf = none)
    (hl : (k.tasks i).state ≠ .dead) (hj : j < fdMax) : Goes A r k (k.setFd i j e) :=
  .one (.setFd i j e h0 he hl hj)

theorem linkFd_goes (i j : Nat) (e : FdEntry) (h0 : ((k.tasks i).fds j).used = false)
    (hl : (k.tasks i).state ≠ .dead) (hj : j < fdMax) : Goes A r k (k.linkFd i j e).1 := by
  have h0 := FdEntry.endOf_unused h0
  unfold linkFd
  split
  · rename_i he
    refine setFd_goes i j e h0 ?_ hl hj
    unfold FdEntry.endOf
    rcases he with he | he <;> simp [he]
  · rename_i he
    rw [not_or, Bool.not_eq_false, Bool.not_eq_false] at he
    cases hp : k.pipeOf e with
    | none => exact setFd_goes i j _ h0 rfl hl hj
    | some p =>
      obtain ⟨h1, h2, h3, h4⟩ := pipeOf_some hp
      exact .one (.addEnd i j p e h0 (FdEntry.endOf_some.2 ⟨he.1, rfl, h1, h2⟩) h3 h4 hl hj)

/-- The entries of slot `i` from `n` on are free and the slot is alive. -/
structure Blank (i n : Nat) (k : Kernel M) : Prop where
  live : (k.tasks i).state ≠ .dead
  free : ∀ j, n ≤ j → ((k.tasks i).fds j).used = false

omit [MemSys M] in
theorem Blank.setFd {i n : Nat} (h : Blank i n k) (e : FdEntry) : Blank i (n + 1) (k.setFd i n e) := by
  refine ⟨?_, fun j hj => ?_⟩
  · rw [setFd_tasks]
    simp only [if_true]
    exact h.live
  · rw [setFd_fds, if_neg (by omega)]
    exact h.free j (by omega)

omit [MemSys M] in
theorem Blank.linkFd {i n : Nat} (h : Blank i n k) (e : FdEntry) : Blank i (n + 1) (k.linkFd i n e).1 := by
  unfold Kernel.linkFd
  split
  · exact h.setFd e
  · cases k.pipeOf e with
    | none => exact h.setFd _
    | some p =>
      have hs := h.setFd e
      exact ⟨hs.live, hs.free⟩

theorem inheritFds_goes {dst : Nat} (src : Nat) (h : Blank dst 0 k) : Goes A r k (k.inheritFds dst src) := by
  have hloop := forTo_inv (f := fun j k => (linkFd k dst j ((k.tasks src).fds j)).1) (n := fdMax) (s := k)
    (fun n k' => Blank dst n k' ∧ Goes A r k k') ⟨h, .refl⟩
    fun j t hj ht => ⟨ht.1.linkFd _, ht.2.trans (linkFd_goes dst j _ (ht.1.free j le_rfl) ht.1.live hj)⟩
  exact hloop.2

theorem bindConsoleStd_goes {i : Nat} (h : Blank i 0 k) : Goes A r k (k.bindConsoleStd i) := by
  have hloop := forTo_inv (n := 3) (s := k)
    (f := fun j k => k.setFd i j ⟨true, if j = 0 then .consoleR else .consoleW, none, 0, []⟩)
    (fun n k' => Blank i n k' ∧ Goes A r k k') ⟨h, .refl⟩ fun j t hj ht => ⟨ht.1.setFd _, ht.2.trans ?_⟩
  · exact hloop.2
  · refine setFd_goes i j _ (FdEntry.endOf_unused (ht.1.free j le_rfl)) ?_ ht.1.live (by unfold fdMax; omega)
    by_cases h0 : j = 0 <;> simp [FdEntry.endOf, FdKind.isPipe, h0]

theorem fdIndex_some {fd : Int} {j : Nat} (h : fdIndex fd = some j) : j < fdMax ∧ fd.toNat = j := by
  unfold fdIndex at h
  split at h
  · cases h
    exact ⟨by unfold fdMax at *; omega, rfl⟩
  · cases h

omit [MemSys M] in
theorem fdAt_some {fd : Int} {e : FdEntry} (h : k.fdAt fd = some e) :
    k.taskCount ≠ 0 ∧ ∃ j, fdIndex fd = some j ∧ e = (k.tasks k.current).fds j ∧ e.used = true := by
  unfold fdAt at h
  split at h
  · cases h
  · rename_i h0
    obtain ⟨j, hj, he⟩ := Option.bind_eq_some_iff.1 h
    simp only at he
    split at he
    · rename_i hu
      cases he
      exact ⟨h0, j, hj, rfl, hu⟩
    · cases he

omit [MemSys M] in
theorem freeFd_some {t : Task} {lo j : Nat} (h : freeFd t lo = some j) :
    j < fdMax ∧ lo ≤ j ∧ (t.fds j).used = false := by
  have h1 := List.mem_of_find?_eq_some h
  have h2 := List.find?_some h
  rw [decide_eq_true_eq] at h2
  exact ⟨List.mem_range.1 h1, h2.1, h2.2⟩

theorem schedFdOpen_goes (hm : k.mode = .user) (path : List UInt8) : Goes A r k (k.schedFdOpen path).1 := by
  refine .of_shape fun hs => ?_
  unfold schedFdOpen
  split
  · exact .refl
  · cases hj : freeFd (k.tasks k.current) 0 with
    | none => exact .refl
    | some j =>
      obtain ⟨h1, -, h3⟩ := freeFd_some hj
      exact setFd_goes _ j _ (FdEntry.endOf_unused h3) rfl (hs.current_live hm) h1

theorem schedFdClose_goes (fd : Int) : Goes A r k (k.schedFdClose fd).1 := by
  unfold schedFdClose
  split
  · exact dropFd_goes _ _
  · exact .refl

theorem schedFdDup2_goes (hm : k.mode = .user) (oldfd newfd : Int) :
    Goes A r k (k.schedFdDup2 oldfd newfd).1 := by
  refine .of_shape fun hs => ?_
  unfold schedFdDup2
  split
  · rename_i e n he hn
    split
    · exact .refl
    · have hlive : ((k.dropFd k.current n).tasks k.current).state ≠ .dead := by
        rw [ne_eq, dropFd_live]
        exact hs.current_live hm
      exact (dropFd_goes k.current n).trans
        (linkFd_goes _ n e (dropFd_used k _ n _ n (.inr ⟨rfl, rfl⟩)) hlive (fdIndex_some hn).1)
  · exact .refl

theorem schedFdLseek_goes (hm : k.mode = .user) (fd : Int) (off : Nat) :
    Goes A r k (k.schedFdLseek fd off).1 := by
  refine .of_shape fun hs => ?_
  unfold schedFdLseek
  cases he : k.fdAt fd with
  | none => exact .refl
  | some e =>
    simp only [Option.elim]
    split
    · rename_i hk
      obtain ⟨-, j, hj, rfl, hu⟩ := fdAt_some he
      obtain ⟨hlt, rfl⟩ := fdIndex_some hj
      refine setFd_goes _ _ _ ?_ ?_ (hs.current_live hm) hlt
      · simp [FdEntry.endOf, hk, FdKind.isPipe]
      · simp [FdEntry.endOf, hk, FdKind.isPipe]
    · exact .refl

omit [MemSys M] in
theorem modPipe_modPipe (p : Nat) (f f' : Pipe → Pipe) :
    (k.modPipe p f).modPipe p f' = k.modPipe p fun q => f' (f q) := by
  simp [modPipe, Function.update_self, Function.update_idem]

omit [MemSys M] in
/-- The two ends of a pipe that has none are counted together. -/
theorem addRef_both {p : Nat} (hr : (k.pipes p).rrefs = 0) (hw : (k.pipes p).wrefs = 0) :
    (k.addRef .pipeR p).addRef .pipeW p = k.modPipe p fun q => { q with rrefs := 1, wrefs := 1 } := by
  unfold addRef
  rw [modPipe_modPipe]
  unfold modPipe
  congr 2
  simp [plusRef, hr, hw]

theorem schedPipe_goes (hr : r.raw = none) (hm : k.mode = .user) : Goes A r k k.schedPipe.1 := by
  intro hs
  unfold schedPipe
  split
  · exact .refl
  · split
    · exact .refl
    · rename_i i j hij
      obtain ⟨i', hi, hj⟩ := Option.bind_eq_some_iff.1 hij
      obtain ⟨j', hj, e⟩ := Option.map_eq_some_iff.1 hj
      cases e
      obtain ⟨hi1, -, hi3⟩ := freeFd_some hi
      obtain ⟨hj1, hj2, hj3⟩ := freeFd_some hj
      rcases allocPipe_cases k with ha | ⟨p, phys, hp, hpu, hphys, ha⟩
      · rw [ha]
      · rw [ha]
        simp only
        set k1 := (k.memDo (.kalloc pipeMinPhys)).modPipe p fun _ =>
          { Pipe.unused with used := true, phys := phys } with hk1
        have hp1 : k1.pipes p = { Pipe.unused with used := true, phys := phys } := by simp [hk1]
        have hlive : (k1.tasks k1.current).state ≠ .dead := hs.current_live hm
        set r' : Ghost := { r with raw := some p } with hr'
        have hback : r = { r' with raw := none } := by rw [hr', ← hr]
        have halloc : Move A (r, k) (r', k1) := by
          have := Move.alloc (A := A) (g := r) (k := k) (p := p) hr (by rw [ha])
          rwa [ha] at this
        set e1 : FdEntry := ⟨true, .pipeR, some p, 0, ((k.tasks k.current).fds i).path⟩
        set e2 : FdEntry := ⟨true, .pipeW, some p, 0, ((k.tasks k.current).fds j).path⟩
        have hread : Move A (r', k1) (r', (k1.setFd k.current i e1).addRef .pipeR p) :=
          .addEnd k.current i p e1 (FdEntry.endOf_unused hi3) rfl hp (by rw [hp1]) hlive hi1
        have hwrite : Move A (r', (k1.setFd k.current i e1).addRef .pipeR p)
            (r', (((k1.setFd k.current i e1).addRef .pipeR p).setFd k.current j e2).addRef .pipeW p) := by
          refine .addEnd k.current j p e2 ?_ rfl hp ?_ ?_ hj1
          · change ((((k1.setFd k.current i e1)).tasks k.current).fds j).endOf = none
            rw [setFd_fds, if_neg (by omega)]
            exact FdEntry.endOf_unused hj3
          · simp [addRef, plusRef, hp1]
          · change ((k1.setFd k.current i e1).tasks k.current).state ≠ .dead
            rw [setFd_tasks]
            simp only [if_true]
            exact hlive
        have heq : (((k1.setFd k.current i e1).addRef .pipeR p).setFd k.current j e2).addRef .pipeW p =
            ((k1.modPipe p fun q => { q with rrefs := 1, wrefs := 1 }).setFd k.current i e1).setFd
              k.current j e2 := by
          rw [← addRef_both (by rw [hp1]; rfl) (by rw [hp1]; rfl)]
          rfl
        rw [heq] at hwrite
        have hsettle : Move A
          (r', ((k1.modPipe p fun q => { q with rrefs := 1, wrefs := 1 }).setFd k.current i
            e1).setFd k.current j e2) ({ r' with raw := none },
              ((k1.modPipe p fun q => { q with rrefs := 1, wrefs := 1 }).setFd k.current i e1).setFd
                k.current j e2) := .settle rfl fun _ => by simp
        rw [← hback] at hsettle
        exact .tail (.tail (.tail (.single halloc) hread) hwrite) hsettle

theorem read_goes (fd : Int) (n : Nat) : Goes A r k (k.schedPipeRead fd n).1 := .one (.read fd n)
theorem write_goes (fd : Int) (src : List UInt8) : Goes A r k (k.schedPipeWrite fd src).1 :=
  .one (.write fd src)

omit [MemSys M] in
/-- The slot an entry of the pipeline calls is bound in. -/
theorem lastLive_some {i : Nat} (h : k.lastLive = some i) :
    k.lastAdded = some i ∧ i < k.taskCount ∧ (k.tasks i).state ≠ .dead := by
  obtain ⟨h1, h2⟩ := Option.filter_eq_some_iff.1 h
  rw [Bool.and_eq_true, decide_eq_true_eq, bne_iff_ne] at h2
  exact ⟨h1, h2.1, h2.2⟩

/-- The new task's entry is no pipe end, so dropping it leaves every pipe. -/
theorem schedFdBindPipe_goes (j : Nat) (kind : FdKind) (p : Nat)
    (h : ∀ i, k.lastLive = some i → ((k.tasks i).fds j).endOf = none) :
    Goes A r k (k.schedFdBindPipe j kind p).1 := by
  unfold schedFdBindPipe
  cases hi : k.lastLive with
  | none => exact .refl
  | some i =>
    simp only [Option.elim]
    split
    · rename_i hc
      obtain ⟨hj, hk, hp, hu⟩ := hc
      have hlive : ((k.dropFd i j).tasks i).state ≠ .dead := by
        rw [ne_eq, dropFd_live]
        exact (lastLive_some hi).2.2
      have hpipe : (k.dropFd i j).pipes = k.pipes := by
        rcases dropFd_cases k i j with ⟨-, e⟩ | ⟨-, -, e⟩ | ⟨q, he, -, -, -⟩
        · rw [e]
        · rw [e]; rfl
        · rw [h i hi] at he; cases he
      refine (dropFd_goes i j).trans (.one (.addEnd i j p ⟨true, kind, some p, 0, []⟩ ?_ ?_ hp ?_ hlive hj))
      · exact FdEntry.endOf_unused (dropFd_used k i j i j (.inr ⟨rfl, rfl⟩))
      · exact FdEntry.endOf_some.2 ⟨rfl, rfl, hk, rfl⟩
      · rw [hpipe]; exact hu
    · exact .refl

theorem schedFdBindFile_goes (j : Nat) (path : List UInt8) (off : Nat) :
    Goes A r k (k.schedFdBindFile j path off).1 := by
  unfold schedFdBindFile
  cases hi : k.lastLive with
  | none => exact .refl
  | some i =>
    simp only [Option.elim]
    split
    · rename_i hc
      have hlive : ((k.dropFd i j).tasks i).state ≠ .dead := by
        rw [ne_eq, dropFd_live]
        exact (lastLive_some hi).2.2
      refine (dropFd_goes i j).trans (setFd_goes i j _ ?_ rfl hlive hc.1)
      exact FdEntry.endOf_unused (dropFd_used k i j i j (.inr ⟨rfl, rfl⟩))
    · exact .refl

/-! ## The processor -/

omit [MemSys M] in
theorem pickNext_some {start i : Nat} (h : k.pickNext start = some i) :
    i < k.taskCount ∧ (k.tasks i).state = .ready := by
  have h1 := List.mem_of_find?_eq_some h
  have h2 := List.find?_some h
  obtain ⟨n, hn, rfl⟩ := List.mem_map.1 h1
  have hpos : 0 < k.taskCount := by
    have := List.mem_range.1 hn
    omega
  exact ⟨Nat.mod_lt _ hpos, of_decide_eq_true h2⟩

omit [MemSys M] in
theorem pickNext_none {start : Nat} (hs : start < k.taskCount) (h : k.pickNext start = none) {i : Nat}
    (hi : i < k.taskCount) : (k.tasks i).state ≠ .ready := by
  have hall := List.find?_eq_none.1 h
  intro hr
  -- the slot is visited in turn `i - start - 1`, counted round the table
  have hmem : i ∈ (List.range k.taskCount).map fun n => (start + (n + 1)) % k.taskCount := by
    rw [List.mem_map]
    by_cases hlt : start < i
    · refine ⟨i - start - 1, List.mem_range.2 (by omega), ?_⟩
      rw [show start + (i - start - 1 + 1) = i by omega, Nat.mod_eq_of_lt hi]
    · refine ⟨i + k.taskCount - start - 1, List.mem_range.2 (by omega), ?_⟩
      rw [show start + (i + k.taskCount - start - 1 + 1) = i + k.taskCount by omega, Nat.add_mod_right,
        Nat.mod_eq_of_lt hi]
  exact hall i hmem (by simp [hr])

theorem load_goes (hA : A .swap) (hm : k.mode ≠ .user) {start i : Nat} (h : k.pickNext start = some i) :
    Goes A r k (k.switchTo i) :=
  .one (.load i hA hm (pickNext_some h).1 (pickNext_some h).2)

theorem switchToNext_goes (hA : A .swap) (hm : k.mode = .user) : Goes A r k k.switchToNext := by
  unfold switchToNext
  cases hi : k.pickNext k.current with
  | none => exact .refl
  | some i =>
    simp only [Option.elim]
    split
    · exact .refl
    · rename_i hn
      exact .one (.swap i hA hm hn (pickNext_some hi).1 (pickNext_some hi).2)

theorem wakeSleepers_goes : Goes A r k k.wakeSleepers := by
  refine tasks_goes fun i => ?_
  unfold wakeSleeper
  split
  · split
    · rename_i h
      exact .wake (.inl h.1)
    · exact .refl _
  · exact .refl _

theorem idleTurn_goes (hA : A .swap) (hm : k.mode ≠ .user) : Goes A r k k.idleTurn := by
  refine wakeSleepers_goes.trans ?_
  change Goes A r k.wakeSleepers ((k.wakeSleepers.pickNext k.wakeSleepers.current).elim _ _)
  cases hi : k.wakeSleepers.pickNext k.wakeSleepers.current with
  | none => exact .refl
  | some i => exact load_goes (k := k.wakeSleepers) hA hm hi

theorem schedOnTick_goes (hA : A .swap) : Goes A r k k.schedOnTick := by
  unfold schedOnTick
  have htick : Goes A r k (if k.taskCount ≠ 0 ∧ (k.tasks k.current).state ≠ .dead then
      k.modTask k.current fun t => { t with cpuTicks := t.cpuTicks + 1 } else k) := by
    split
    · exact modTask_goes _ ⟨{ Calm.refl _ with }, rfl, rfl, id⟩
    · exact .refl
  exact htick.trans (wakeSleepers_goes.trans (.ite (switchToNext_goes hA) fun _ => .refl))

theorem schedWakeKbd_goes : Goes A r k k.schedWakeKbd := by
  refine tasks_goes fun i => ?_
  split
  · rename_i h
    exact .wake (.inr h.2)
  · exact .refl _

/-- The way out of every blocking call. -/
theorem block_goes (hA : A .swap) {s : TaskState} {f : Task → Task} (h : Goes A r k' (k.blocked s f)) :
    Goes A r k' (k.block s f) := by
  unfold block
  refine h.trans ?_
  change Goes A r (k.blocked s f) (((k.blocked s f).pickNext (k.blocked s f).current).elim _ _)
  cases hi : (k.blocked s f).pickNext (k.blocked s f).current with
  | none => exact setCr3_goes _
  | some i => exact load_goes (k := k.blocked s f) hA (by change Mode.idle ≠ Mode.user; decide) hi

/-! ## The end of a task -/

theorem freeTaskUser_goes (i : Nat) : Goes A r k (k.freeTaskUser i) := by
  unfold freeTaskUser
  refine .ite (fun _ => .refl) fun _ => (memDo_goes (.teardown (k.tasks i).cr3) rfl).trans ?_
  exact modTask_goes _ ⟨{ Calm.refl _ with }, rfl, rfl, id⟩

/-- What `free_task_user` leaves of slot `j`. -/
theorem freeTaskUser_task (i j : Nat) :
    ∃ u b, (k.freeTaskUser i).tasks j = { k.tasks j with userBase := u, brk := b } := by
  unfold freeTaskUser
  split
  · exact ⟨_, _, rfl⟩
  · rw [modTask_tasks]
    split
    · rename_i hj
      subst hj
      exact ⟨_, _, rfl⟩
    · exact ⟨_, _, rfl⟩

theorem freeTaskUser_rest (i : Nat) : (k.freeTaskUser i).pipes = k.pipes ∧
    (k.freeTaskUser i).taskCount = k.taskCount ∧ (k.freeTaskUser i).current = k.current ∧
    (k.freeTaskUser i).mode = k.mode ∧ (k.freeTaskUser i).hist = k.hist := by
  unfold freeTaskUser
  split <;> exact ⟨rfl, rfl, rfl, rfl, rfl⟩

theorem clearFds_rest (i : Nat) :
    (k.clearFds i).taskCount = k.taskCount ∧ (k.clearFds i).current = k.current ∧
    (k.clearFds i).mode = k.mode ∧ (k.clearFds i).hist = k.hist := by
  refine forTo_inv (f := fun j k => k.dropFd i j) (s := k) (n := fdMax)
    (fun _ k' => k'.taskCount = k.taskCount ∧
    k'.current = k.current ∧ k'.mode = k.mode ∧ k'.hist = k.hist) ⟨rfl, rfl, rfl, rfl⟩ fun j t _ h => ?_
  rw [dropFd_taskCount, dropFd_current, dropFd_mode, dropFd_hist]
  exact h

/-- Slot `j` sleeps on pipe `p`, of which entry `n` of slot `i` is an end. -/
structure SleepsOn (k : Kernel M) (j p i n : Nat) : Prop where
  slot : j < k.taskCount
  state : (k.tasks j).state = .pipe
  pipeWait : (k.tasks j).pipeWait = some p
  used : ((k.tasks i).fds n).used = true
  pipe : k.pipeOf ((k.tasks i).fds n) = some p

/-- Dropping that end wakes it. -/
theorem SleepsOn.drop {j p i n : Nat} (h : SleepsOn k j p i n) : ((k.dropFd i n).tasks j).state = .ready := by
  have hwake : ((k.wakePipeWaiters p).tasks j).state = .ready := by
    rw [wakePipeWaiters_tasks, if_pos h.slot, wakeWaiter, if_pos ⟨h.state, h.pipeWait⟩]
  unfold dropFd
  simp only
  rw [if_neg (by simp [h.used]), h.pipe, setFd_tasks]
  simp only [Option.elim]
  split
  · rename_i hj
    subst hj
    simp only [dropEnd_tasks]
    exact hwake
  · rw [dropEnd_tasks]
    exact hwake

/-- Dropping another entry wakes it or leaves everything. -/
theorem SleepsOn.dropOther {j p i n m : Nat} (h : SleepsOn k j p i n) (hm : m ≠ n) :
    ((k.dropFd i m).tasks j).state = .ready ∨ SleepsOn (k.dropFd i m) j p i n := by
  obtain ⟨hk1, hk2, hk3, hk4⟩ := pipeOf_some h.pipe
  have hend : ∀ (k1 : Kernel M), k1.taskCount = k.taskCount → (k1.tasks j).state = .pipe →
      (k1.tasks j).pipeWait = some p → (k1.tasks i).fds n = (k.tasks i).fds n → (k1.pipes p).used = true →
      SleepsOn k1 j p i n := by
    intro k1 h1 h2 h3 h4 h5
    refine ⟨h1 ▸ h.slot, h2, h3, h4 ▸ h.used, ?_⟩
    simp [pipeOf, h4, hk1, hk2, hk3, h5]
  rcases dropFd_cases k i m with ⟨-, e⟩ | ⟨-, -, e⟩ | ⟨q, he, hq, hqu, e⟩ <;> rw [e]
  · exact .inr h
  · refine .inr (hend _ rfl ?_ ?_ ?_ hk4)
    · rw [setFd_tasks]
      simp only
      split
      · rename_i hj; subst hj; exact h.state
      · exact h.state
    · rw [setFd_tasks]
      simp only
      split
      · rename_i hj; subst hj; exact h.pipeWait
      · exact h.pipeWait
    · rw [setFd_fds, if_neg (by simp [hm.symm])]
  · have htask : ∀ x, (((k.dropEnd ((k.tasks i).fds m).kind q).setFd i m .empty).tasks x).state =
        ((k.wakePipeWaiters q).tasks x).state ∧
        (((k.dropEnd ((k.tasks i).fds m).kind q).setFd i m .empty).tasks x).pipeWait =
        ((k.wakePipeWaiters q).tasks x).pipeWait := by
      intro x
      rw [setFd_tasks]
      simp only
      split
      · rename_i hx; subst hx; rw [dropEnd_tasks]; exact ⟨rfl, rfl⟩
      · rw [dropEnd_tasks]; exact ⟨rfl, rfl⟩
    by_cases hqp : q = p
    · refine .inl ?_
      rw [(htask j).1, wakePipeWaiters_tasks, if_pos h.slot, wakeWaiter, if_pos ⟨h.state, hqp ▸ h.pipeWait⟩]
    · have hsame : (k.wakePipeWaiters q).tasks j = k.tasks j := by
        rw [wakePipeWaiters_tasks, if_pos h.slot, wakeWaiter, if_neg]
        rintro ⟨-, hw⟩
        exact hqp (Option.some.inj (hw.symm.trans h.pipeWait))
      refine .inr (hend _ ?_ ?_ ?_ ?_ ?_)
      · rw [setFd_taskCount, dropEnd_taskCount]
      · rw [(htask j).1, hsame]; exact h.state
      · rw [(htask j).2, hsame]; exact h.pipeWait
      · rw [setFd_fds, if_neg (by simp [hm.symm]), dropEnd_tasks, wakePipeWaiters_tasks]
        split
        · unfold wakeWaiter; split <;> rfl
        · rfl
      · rw [setFd_pipes, dropEnd_pipes, if_neg (Ne.symm hqp)]; exact hk4

theorem dropFd_mild (i m j : Nat) : ∃ t, Mild (k.tasks j) t ∧ ((k.dropFd i m).tasks j).state = t.state ∧
    ((k.dropFd i m).tasks j).waitPid = t.waitPid ∧ ((k.dropFd i m).tasks j).parent = t.parent := by
  obtain ⟨t, ht, e⟩ := dropFd_task k i m j
  refine ⟨t, ht, ?_⟩
  rw [e]
  split <;> exact ⟨rfl, rfl, rfl⟩

theorem SleepsOn.clear {j p i n : Nat} (h : SleepsOn k j p i n) (hn : n < fdMax) :
    ((k.clearFds i).tasks j).state = .ready := by
  have hloop := forTo_inv (f := fun m k => k.dropFd i m) (n := fdMax) (s := k)
    (fun m k' => (k'.tasks j).state = .ready ∨ (m ≤ n ∧ SleepsOn k' j p i n)) (.inr ⟨Nat.zero_le n, h⟩) ?_
  · rcases hloop with hr | ⟨hle, -⟩
    · exact hr
    · omega
  · rintro m t - (hr | ⟨hle, hsl⟩)
    · obtain ⟨t', ht, e, -⟩ := dropFd_mild (k := t) i m j
      exact .inl (e.trans (ht.ready hr))
    · by_cases hm : m = n
      · subst hm
        exact .inl hsl.drop
      · rcases hsl.dropOther hm with hr | hsl
        · exact .inl hr
        · exact .inr ⟨by omega, hsl⟩

/-- What `clear_fds` leaves of any slot. -/
theorem clearFds_task (i j : Nat) : ((k.clearFds i).tasks j).parent = (k.tasks j).parent ∧
    (((k.clearFds i).tasks j).state = .dead ↔ (k.tasks j).state = .dead) ∧
    ((k.tasks j).state = .ready → ((k.clearFds i).tasks j).state = .ready) ∧
    ((k.tasks j).state = .wait →
      ((k.clearFds i).tasks j).state = .wait ∧ ((k.clearFds i).tasks j).waitPid = (k.tasks j).waitPid) := by
  refine forTo_inv (f := fun m k => k.dropFd i m) (n := fdMax) (s := k) (fun _ k' =>
    (k'.tasks j).parent = (k.tasks j).parent ∧ ((k'.tasks j).state = .dead ↔ (k.tasks j).state = .dead) ∧
    ((k.tasks j).state = .ready → (k'.tasks j).state = .ready) ∧
    ((k.tasks j).state = .wait → (k'.tasks j).state = .wait ∧ (k'.tasks j).waitPid = (k.tasks j).waitPid))
    ⟨rfl, Iff.rfl, id, fun h => ⟨h, rfl⟩⟩ fun m t _ ht => ?_
  obtain ⟨h1, h2, h3, h4⟩ := ht
  obtain ⟨t', hm, e1, e2, e3⟩ := dropFd_mild (k := t) i m j
  rw [e1, e2, e3]
  refine ⟨hm.parent.trans h1, hm.dead.trans h2, fun hr => hm.ready (h3 hr), fun hw => ?_⟩
  obtain ⟨h5, h6⟩ := h4 hw
  have hw' := hm.stays h5
  exact ⟨hw', (hm.waitPid hw').trans h6⟩

/-- Slot `i` before the end of `kill_task`. -/
theorem emptied_task (i j : Nat) : (((k.freeTaskUser i).clearFds i).tasks j).parent = (k.tasks j).parent ∧
    ((((k.freeTaskUser i).clearFds i).tasks j).state = .dead ↔ (k.tasks j).state = .dead) ∧
    ((k.tasks j).state = .ready → (((k.freeTaskUser i).clearFds i).tasks j).state = .ready) ∧
    ((k.tasks j).state = .wait → (((k.freeTaskUser i).clearFds i).tasks j).state = .wait ∧
      (((k.freeTaskUser i).clearFds i).tasks j).waitPid = (k.tasks j).waitPid) := by
  obtain ⟨u, b, e⟩ := freeTaskUser_task (k := k) i j
  have h := clearFds_task (k := k.freeTaskUser i) i j
  rw [e] at h
  exact h

omit [MemSys M] in
/-- The state in which the end of a task leaves another one. -/
theorem finishTask_state {i j : Nat} (code : UInt8) (hj : j ≠ i) :
    ((k.tasks j).state = .ready → ((k.finishTask i code).tasks j).state = .ready) ∧
    (k.WaitsFor i j → ((k.finishTask i code).tasks j).state = .ready) ∧
    ((k.tasks j).state = .dead → ((k.finishTask i code).tasks j).state = .dead) := by
  rcases finishTask_cases k i code with ⟨hno, e, -⟩ | ⟨p, hw, e, -⟩
  · rw [e, modTask_tasks, if_neg hj]
    exact ⟨id, fun h => absurd h (hno j), id⟩
  · rw [e, modTask_tasks]
    split
    · rename_i hp
      refine ⟨fun _ => rfl, fun _ => rfl, fun hd => ?_⟩
      rw [hp, hw.2.2.2.1] at hd
      cases hd
    · rename_i hp
      rw [modTask_tasks, if_neg hj]
      exact ⟨id, fun h => absurd (Option.some.inj (h.1.symm.trans hw.1)) hp, id⟩

/-- Whoever can go on is READY once the task has ended. -/
theorem goesOn_ready (hs : Shape k) {i j : Nat} (code : UInt8) (hj : j ≠ i) (h : k.goesOn i j = true) :
    ((((k.freeTaskUser i).clearFds i).finishTask i code).tasks j).state = .ready := by
  set k1 := (k.freeTaskUser i).clearFds i with hk1
  obtain ⟨hparent, -, hready, hwait⟩ := emptied_task (k := k) i j
  obtain ⟨f1, f2, -⟩ := finishTask_state (k := k1) code hj
  have hcount : k1.taskCount = k.taskCount := (clearFds_rest i).1.trans (freeTaskUser_rest i).2.1
  unfold goesOn at h
  cases hst : (k.tasks j).state with
  | ready => exact f1 (hready hst)
  | wait =>
    rw [hst] at h
    simp only [Bool.and_eq_true, decide_eq_true_eq] at h
    obtain ⟨hw1, hw2⟩ := hwait hst
    refine f2 ⟨(emptied_task (k := k) i i).1.trans h.1, ?_, hj, hw1, by rw [hw2]; exact h.2⟩
    rw [hcount]
    exact hs.slot (by rw [hst]; nofun)
  | pipe =>
    rw [hst] at h
    simp only [List.any_eq_true, List.mem_range, Bool.and_eq_true, decide_eq_true_eq] at h
    obtain ⟨n, hn, ⟨hu, hsome⟩, hp⟩ := h
    obtain ⟨p, hpipe⟩ := Option.isSome_iff_exists.1 hsome
    obtain ⟨uj, bj, ej⟩ := freeTaskUser_task (k := k) i j
    obtain ⟨ui, bi, ei⟩ := freeTaskUser_task (k := k) i i
    refine f1 (SleepsOn.clear (p := p) (n := n) ⟨?_, ?_, ?_, ?_, ?_⟩ hn)
    · rw [(freeTaskUser_rest i).2.1]
      exact hs.slot (by rw [hst]; nofun)
    · rw [ej]; exact hst
    · rw [ej]; exact hp.symm.trans hpipe
    · rw [ei]; exact hu
    · rw [ei]
      unfold pipeOf
      rw [(freeTaskUser_rest i).1]
      exact hpipe
  | dead => rw [hst] at h; cases h
  | sleep => rw [hst] at h; cases h
  | kbd => rw [hst] at h; cases h

/-- The state in which `sched_exit` looks for somebody to run. -/
def ended (k : Kernel M) (code : UInt8) : Kernel M :=
  { (((k.freeTaskUser k.current).clearFds k.current).finishTask k.current code) with mode := .idle }

theorem ended_rest (code : UInt8) :
    (k.ended code).taskCount = k.taskCount ∧ (k.ended code).current = k.current ∧
    (k.ended code).hist.deserted = k.hist.deserted := by
  obtain ⟨c1, c2, -, c4⟩ := clearFds_rest (k := k.freeTaskUser k.current) k.current
  obtain ⟨-, u2, u3, -, u5⟩ := freeTaskUser_rest (k := k) k.current
  refine ⟨?_, ?_, ?_⟩
  · exact (finishTask_taskCount _ _ _).trans (c1.trans u2)
  · exact (finishTask_current _ _ _).trans (c2.trans u3)
  · change (finishTask _ _ _).hist.deserted = _
    rw [finishTask_deserted, c4, u5]

/-- When nobody can run after the end of the task, nobody is alive, unless the end was counted as
deserting somebody. -/
theorem ended_halt (hs : Shape k) (hm : k.mode = .user) (code : UInt8)
    (hok : k.endOk k.current = true) (hnone : (k.ended code).pickNext (k.ended code).current = none)
    (i : Nat) : ((k.ended code).tasks i).state = .dead := by
  obtain ⟨hcur, -⟩ := hs.run hm
  obtain ⟨hc1, hc2, -⟩ := ended_rest (k := k) code
  have hself : ((k.ended code).tasks k.current).state = .dead := by
    rcases finishTask_task ((k.freeTaskUser k.current).clearFds k.current) k.current code k.current with
      ⟨-, b, e⟩ | ⟨hne, -⟩ | ⟨hne, -⟩
    · exact congrArg Task.state e
    · exact absurd rfl hne
    · exact absurd rfl hne
  by_cases hi : i = k.current
  · rw [hi]; exact hself
  · have hdead : (k.tasks i).state = .dead → ((k.ended code).tasks i).state = .dead := fun hd =>
      (finishTask_state code hi).2.2 ((emptied_task k.current i).2.1.2 hd)
    by_cases hlt : i < k.taskCount
    · unfold endOk at hok
      simp only [Bool.or_eq_true, List.any_eq_true, List.all_eq_true, List.mem_filter, List.mem_range,
        decide_eq_true_eq] at hok
      rcases hok with ⟨j, ⟨hj, hne⟩, hgo⟩ | hall
      · have hready : ((k.ended code).tasks j).state = .ready := goesOn_ready hs code hne hgo
        have hj' : j < (k.ended code).taskCount := by rw [hc1]; exact hj
        exact absurd hready (pickNext_none (by rw [hc1, hc2]; exact hcur) hnone hj')
      · exact hdead (hall i ⟨hlt, hi⟩)
    · exact hdead (hs.fresh i (by omega)).1

theorem schedExit_eq (hs : Shape k) (hm : k.mode = .user) :
    k.schedExit = (k.noteEnd.ended k.frame.rdi.toUInt8).runOrHalt := by
  obtain ⟨hcur, hready⟩ := hs.run hm
  have hkill : k.noteEnd.killTask k.noteEnd.current k.frame.rdi.toUInt8 =
      ((k.noteEnd.freeTaskUser k.current).clearFds k.current).finishTask k.current k.frame.rdi.toUInt8 := by
    unfold killTask
    refine if_neg ?_
    rintro (h | h)
    · exact absurd hcur (by simpa [noteEnd] using h)
    · have h : (k.tasks k.current).state = .dead := h
      rw [hready] at h
      cases h
  have hcount : k.noteEnd.taskCount ≠ 0 := by
    change k.taskCount ≠ 0
    omega
  unfold schedExit
  simp only [if_pos hcount, hkill]
  rfl

theorem noteEnd_goes : Goes A r k k.noteEnd := by
  refine .quiet ⟨fun i => Calm.refl _, rfl, rfl, rfl, rfl, ?_, .refl, ⟨rfl, rfl⟩,
    fun i _ => .inr (.of_same rfl rfl)⟩
  exact { SameLife.refl k.hist with deserted := Nat.le_add_right _ _ }

theorem ended_leads (hA : A .swap) (hm : k.mode = .user) (code : UInt8) :
    Leads A r { r with doomed := none } k (k.ended code) := by
  have hclear : Goes A r k ((k.freeTaskUser k.current).clearFds k.current) :=
    (freeTaskUser_goes _).trans (clearFds_goes _)
  refine hclear.step fun hs hs' => ?_
  obtain ⟨-, c2, c3, -⟩ := clearFds_rest (k := k.freeTaskUser k.current) k.current
  obtain ⟨-, -, u3, u4, -⟩ := freeTaskUser_rest (k := k) k.current
  have hcur : ((k.freeTaskUser k.current).clearFds k.current).current = k.current := c2.trans u3
  refine .one ?_
  have hdie := Move.die (A := A) (g := r) (k := (k.freeTaskUser k.current).clearFds k.current) code hA
    ((c3.trans u4).trans hm) (by
      rw [hcur]
      exact clearFds_used ((freeTaskUser_goes (A := A) (r := r) _).shape hs) _)
  rw [hcur] at hdie
  exact hdie

theorem schedExit_leads (hA : A .swap) (hH : A .halt) (hm : k.mode = .user) :
    Leads A r { r with doomed := none } k k.schedExit := by
  refine .of_shape fun hs => ?_
  rw [schedExit_eq hs hm]
  set code := k.frame.rdi.toUInt8
  have hs' : Shape k.noteEnd := (noteEnd_goes (A := A) (r := r)).shape hs
  have hend : Leads A r { r with doomed := none } k (k.noteEnd.ended code) :=
    noteEnd_goes.trans (ended_leads (k := k.noteEnd) hA hm code)
  unfold runOrHalt
  cases hi : (k.noteEnd.ended code).pickNext (k.noteEnd.ended code).current with
  | some i => exact hend.trans (load_goes hA (by change Mode.idle ≠ Mode.user; decide) hi)
  | none =>
    refine hend.trans ((setCr3_goes pml4Phys).trans (.one (.halt hH rfl ?_)))
    by_cases hok : k.endOk k.current = true
    · exact .inl (ended_halt hs' hm code hok hi)
    · refine .inr ?_
      change 0 < (k.noteEnd.ended code).hist.deserted
      rw [(ended_rest code).2.2]
      simp [noteEnd, hok]

/-! ## Signals -/

theorem noteSkipped_goes : Goes A r k k.noteSkipped := by
  refine .quiet ⟨fun i => Calm.refl _, rfl, rfl, rfl, rfl, ?_, .refl, ⟨rfl, rfl⟩,
    fun i _ => .inr (.of_same rfl rfl)⟩
  exact { SameLife.refl k.hist with skipped := Nat.le_add_right _ _ }

/-- The current task with other pending signals and handlers, and the frame `f`. -/
def signalled (k : Kernel M) (p : UInt8) (a b : UInt64) (f : Frame) : Kernel M :=
  { k.modTask k.current fun t => { t with pending := p, handlerInt := a, handlerTerm := b } with frame := f }

omit [MemSys M] in
theorem signalled_tasks (p : UInt8) (a b : UInt64) (f : Frame) (i : Nat) :
    (k.signalled p a b f).tasks i =
    if i = k.current then { k.tasks k.current with pending := p, handlerInt := a, handlerTerm := b }
    else k.tasks i :=
  modTask_tasks k k.current i fun t => { t with pending := p, handlerInt := a, handlerTerm := b }

theorem exitBySignal_goes (hA : A .swap) (hH : A .halt) (hr : r.doomed = none) (hm : k.mode = .user)
    (p : UInt8) (a b : UInt64) (f : Frame) : Goes A r k (k.signalled p a b f).exitBySignal := by
  set kd : Kernel M := { k.signalled 0 a b { f with rdi := (k.tasks k.current).exitCode.toUInt64 } with
    hist := { k.hist with waiting := Function.update k.hist.waiting k.current false } } with hkd
  have heq : (k.signalled p a b f).exitBySignal = kd.schedExit.noteSkipped := by
    simp [hkd, exitBySignal, signalled, modTask, Function.update_idem]
  have hback : r = { ({ r with doomed := some k.current } : Ghost) with doomed := none } := by rw [← hr]
  rw [heq]
  have hdoom : Leads A r { r with doomed := some k.current } k kd := .one (.doom a b _ hA hm)
  have hexit := hdoom.trans (schedExit_leads hA hH hm)
  rw [← hback] at hexit
  exact hexit.trans noteSkipped_goes

omit [MemSys M] in
theorem setSigHandler_eq (sig : Int) (va : UInt64) (t : Task) : setSigHandler sig va t = { t with
    handlerInt := (setSigHandler sig va t).handlerInt, handlerTerm :=
  (setSigHandler sig va t).handlerTerm } := by
  unfold setSigHandler
  split
  · rfl
  · split <;> rfl

/-- A handler is entered: one more out of a wait, if the task was in one. -/
theorem handler_goes (op : SpaceOp) (hop : op.kernel = false) {p : UInt8}
    (hp : (k.tasks k.current).pending < 4 → p < 4) (a b : UInt64) (f : Frame) (n : Nat)
    (hn : k.hist.caught ≤ n) (hw : k.hist.waiting k.current = true → k.hist.caught < n) :
    Goes A r k { (k.memDo op).signalled p a b f with hist := { k.hist with caught := n } } := by
  have htask : ∀ i, i ≠ k.current → ((k.memDo op).signalled p a b f).tasks i = k.tasks i := by
    intro i hi
    rw [signalled_tasks]
    exact if_neg hi
  refine .quiet ⟨fun i => ?_, rfl, rfl, rfl, rfl, { SameLife.refl k.hist with caught := hn },
    .tail .refl op hop, ⟨rfl, rfl⟩, fun i hi => ?_⟩
  · by_cases hc : i = k.current
    · subst hc
      have hself := signalled_tasks (k := k.memDo op) p a b f k.current
      rw [if_pos (show k.current = (k.memDo op).current from rfl)] at hself
      change Calm _ (((k.memDo op).signalled p a b f).tasks k.current)
      rw [hself]
      exact { Calm.refl (k.tasks k.current) with bits := hp }
    · change Calm _ (((k.memDo op).signalled p a b f).tasks i)
      rw [htask i hc]
      exact Calm.refl _
  · by_cases hc : i = k.current
    · subst hc
      exact .inl (hw hi)
    · refine .inr (.of_same (htask i hc) ?_)
      have hno : ¬ (k.mode = .user ∧ k.current = i) := fun h => hc h.2.symm
      unfold regsOf
      rw [if_neg hno]
      exact (if_neg hno).trans (congrArg Task.regs (htask i hc))

/-- The frame at the entry of a handler. -/
def handlerFrame (f : Frame) (sig : Int) (handler : UInt64) : Frame :=
  { f with rsp := f.rsp - 8, rip := handler, rdi := UInt64.ofNat sig.toNat }

theorem enterHandler_cases (k : Kernel M) (sig : Int) (handler : UInt64) :
    (k.enterHandler sig handler = k.exitBySignal) ∨ ∃ cr3 va b,
      (k.enterHandler sig handler = (k.memDo (.copyTo cr3 va b)).exitBySignal) ∨
      k.enterHandler sig handler = { k.memDo (.copyTo cr3 va b) with
        frame := handlerFrame k.frame sig handler
        hist := { k.hist with caught := k.hist.caught + if k.hist.waiting k.current then 1 else 0 } } := by
  unfold enterHandler pushUserU64
  split
  · exact .inl rfl
  · split
    · exact .inl rfl
    · refine .inr ⟨(k.tasks k.current).cr3, (k.frame.rsp - 8).toNat, bytes64 k.frame.rip, ?_⟩
      simp only
      split
      · exact .inr rfl
      · exact .inl rfl

theorem enterHandler_goes (hA : A .swap) (hH : A .halt) (hr : r.doomed = none) (hm : k.mode = .user)
    {p : UInt8} (hp : (k.tasks k.current).pending < 4 → p < 4) (a b : UInt64) (sig : Int)
    (handler : UInt64) : Goes A r k ((k.signalled p a b k.frame).enterHandler sig handler) := by
  rcases enterHandler_cases (k.signalled p a b k.frame) sig handler with e | ⟨cr3, va, bs, e | e⟩ <;> rw [e]
  · exact exitBySignal_goes hA hH hr hm p a b k.frame
  · exact (memDo_goes (.copyTo cr3 va bs) rfl).trans (exitBySignal_goes (k := k.memDo _) hA hH hr hm
      p a b k.frame)
  · refine handler_goes (k := k) (.copyTo cr3 va bs) rfl hp a b (handlerFrame k.frame sig handler)
      (k.hist.caught + if k.hist.waiting k.current then 1 else 0) (Nat.le_add_right _ _) fun hw => ?_
    rw [if_pos hw]
    exact Nat.lt_succ_self _

theorem and_bits {a : UInt8} (b : UInt8) (ha : a < 4) : a &&& b < 4 := by
  rw [UInt8.lt_iff_toNat_lt] at ha ⊢
  rw [UInt8.toNat_and]
  exact Nat.and_le_left.trans_lt ha

theorem deliverPending_goes (hA : A .swap) (hH : A .halt) (hr : r.doomed = none) :
    Goes A r k k.deliverPending := by
  unfold deliverPending
  refine .ite (fun _ => .refl) fun h0 => ?_
  have hm : k.mode = .user := by
    by_contra hm
    exact h0 (.inr hm)
  refine .ite (fun _ => .refl) fun _ => ?_
  set sig := pendingSigno (k.tasks k.current)
  set t1 : Task := { k.tasks k.current with pending := (k.tasks k.current).pending &&&
    ~~~ (sigBit sig) } with ht1
  refine .ite (fun _ => ?_) fun _ => ?_
  · exact exitBySignal_goes hA hH hr hm t1.pending t1.handlerInt t1.handlerTerm k.frame
  · have hk2 : (k.modTask k.current fun t => { t with pending := t.pending &&& ~~~ (sigBit sig)
      }).modTask k.current
        (setSigHandler sig 0) =
        k.signalled t1.pending (setSigHandler sig 0 t1).handlerInt
          (setSigHandler sig 0 t1).handlerTerm k.frame := by
      have ht2 := setSigHandler_eq sig 0 t1
      unfold signalled modTask
      simp only [Function.update_self, Function.update_idem, ← ht1]
      rw [ht2]
    change Goes A r k (enterHandler ((k.modTask k.current _).modTask k.current (setSigHandler sig 0)) sig _)
    rw [hk2]
    exact enterHandler_goes hA hH hr hm (and_bits _) _ _ _ _

theorem or_bits {a b : UInt8} (ha : a < 4) (hb : b < 4) : a ||| b < 4 := by
  rw [UInt8.lt_iff_toNat_lt, UInt8.toNat_or]
  exact Nat.or_lt_two_pow (n := 2) (UInt8.lt_iff_toNat_lt.1 ha) (UInt8.lt_iff_toNat_lt.1 hb)

theorem sigBit_lt (signo : Int) : sigBit signo < 4 := by
  unfold sigBit
  split
  · decide
  · split <;> decide

/-- A signal reaches the slot: it may wake up, and it is pending now. -/
theorem post_goes (i : Nat) (bit code : UInt8) (hbit : bit < 4) (hb : (k.tasks i).pending ||| bit ≠ 0) :
    Goes A r k (k.modTask i fun t =>
      wakeBlocked { t with pending := t.pending ||| bit, exitCode := code }) := by
  have hwake : ∀ t : Task, Calm t (wakeBlocked { t with pending := t.pending ||| bit, exitCode := code }) ∧
      (wakeBlocked { t with pending := t.pending ||| bit, exitCode := code }).pending =
        t.pending ||| bit := by
    intro t
    unfold wakeBlocked
    split
    · rename_i h
      refine ⟨{ Calm.refl t with
        state := .inr ⟨?_, rfl⟩, waitPid := nofun, pipeWait := nofun, bits := fun h => or_bits h hbit }, rfl⟩
      rcases h with h | h | h | h <;> (have h : t.state = _ := h; rw [h]; rfl)
    · exact ⟨{ Calm.refl t with bits := fun h => or_bits h hbit }, rfl⟩
  refine .quiet ⟨fun n => ?_, rfl, rfl, rfl, rfl, SameLife.refl _, .refl, ⟨rfl, rfl⟩, fun n _ => .inr ?_⟩
  · rw [modTask_tasks]
    split
    · rename_i hn
      subst hn
      exact (hwake _).1
    · exact Calm.refl _
  · by_cases hn : n = i
    · subst hn
      have hp : ((k.modTask n fun t =>
          wakeBlocked { t with pending := t.pending ||| bit, exitCode := code }).tasks
          n).pending ≠ 0 := by
        rw [modTask_tasks, if_pos rfl, (hwake _).2]
        exact hb
      exact ⟨fun _ => hp, .inl hp⟩
    · have htask : (k.modTask i fun t =>
          wakeBlocked { t with pending := t.pending ||| bit, exitCode := code }).tasks n =
          k.tasks n := by rw [modTask_tasks, if_neg hn]
      exact .of_same htask (by unfold regsOf; rw [htask]; rfl)

theorem sigBit_or (p : UInt8) {sig : Int} (h : sigBit sig ≠ 0) : p ||| sigBit sig ≠ 0 := by
  intro h0
  exact h (UInt8.or_eq_zero_iff.1 h0).2

theorem signalAt_goes (hA : A .swap) (pid signo : Int) (code : UInt8) :
    Goes A r k (k.signalAt pid signo code).1 := by
  refine .of_shape fun hs => ?_
  unfold signalAt
  split
  · exact .refl
  · rename_i h0
    rw [not_or, not_not] at h0
    simp only
    split
    · exact .refl
    · rename_i hl
      split
      · rename_i hc
        exact absurd hc (hs.live _ hl).1
      · have hpost := post_goes (A := A) (r := r) (k := k) pid.toNat (sigBit signo) code (sigBit_lt signo)
          (sigBit_or _ h0.1)
        split
        · rename_i hsw
          refine hpost.trans (.one (.swap pid.toNat hA hsw.2.1 hsw.1 ?_ hsw.2.2))
          change pid.toNat < k.taskCount
          omega
        · exact hpost

theorem schedSignalFg_goes (hA : A .swap) (signo : Int) (code : UInt8) :
    Goes A r k (k.schedSignalFg signo code) := by
  unfold schedSignalFg
  cases k.fgSlot with
  | none => exact .refl
  | some i => exact signalAt_goes hA _ _ _

theorem schedSigaction_goes (h : Own k) : Goes A r k k.schedSigaction := by
  unfold schedSigaction
  refine .ite (fun _ => setRax_goes _ h) fun _ => .ite (fun _ => setRax_goes _ h) fun _ => ?_
  refine (modTask_goes _ ?_).trans (setRax_goes _ h)
  rw [setSigHandler_eq]
  exact ⟨{ Calm.refl _ with }, rfl, rfl, id⟩

theorem wakeBlocked_pending (t : Task) : (wakeBlocked t).pending = t.pending := by
  unfold wakeBlocked
  split <;> rfl

/-- What a signal does: it fails, is posted, or is posted and the target runs next. -/
theorem signalAt_cases (hs : Shape k) (pid signo : Int) (code : UInt8) :
    k.signalAt pid signo code = (k, false) ∨
    (sigBit signo ≠ 0 ∧ 0 ≤ pid ∧ pid.toNat < k.taskCount ∧ (k.tasks pid.toNat).state ≠ .dead ∧
      (k.signalAt pid signo code = (k.modTask pid.toNat fun t =>
          wakeBlocked { t with pending := t.pending ||| sigBit signo, exitCode := code }, true) ∨
        (pid.toNat ≠ k.current ∧ k.mode = .user ∧ k.signalAt pid signo code = ((k.modTask pid.toNat fun t =>
          wakeBlocked { t with
            pending := t.pending ||| sigBit signo, exitCode := code }).saveTask.switchTo pid.toNat,
            true)))) := by
  unfold signalAt
  split
  · exact .inl rfl
  · rename_i h0
    rw [not_or, not_not] at h0
    simp only
    split
    · exact .inl rfl
    · rename_i hl
      split
      · rename_i hc
        exact absurd hc (hs.live _ hl).1
      · refine .inr ⟨h0.1, h0.2.1, by omega, hl, ?_⟩
        split
        · rename_i hsw
          exact .inr ⟨hsw.1, hsw.2.1, rfl⟩
        · exact .inl rfl

/-- After a kill the frame is the caller's own, or that of a task with a signal pending. -/
theorem signalAt_own (hs : Shape k) (h : Own k) (pid signo : Int) (code : UInt8)
    (hm : (k.signalAt pid signo code).1.mode = .user) :
    (k.signalAt pid signo code).1.hist.waiting (k.signalAt pid signo code).1.current = false ∨
      ((k.signalAt pid signo code).1.tasks (k.signalAt pid signo code).1.current).pending ≠ 0 := by
  rcases signalAt_cases hs pid signo code with e | ⟨hb, -, -, -, e | ⟨hn, -, e⟩⟩ <;> rw [e] at hm ⊢
  · exact .inl (h hm)
  · exact .inl (h hm)
  · refine .inr ?_
    simp only [switchTo, saveTask, modTask_tasks, modTask_current, if_neg hn, if_true, wakeBlocked_pending]
    exact sigBit_or _ hb

theorem schedKill_goes (hA : A .swap) (h : Own k) : Goes A r k k.schedKill :=
  .of_shape fun hs => (signalAt_goes hA _ _ _).trans (frame_goes' _ (signalAt_own hs h _ _ _))

/-! ## Blocking -/

theorem schedBlockPipe_goes (hA : A .swap) (hH : A .halt) (hr : r.doomed = none)
    (hm : k.mode = .user) {p : Option Nat}
    (h : ∃ q, p = some q ∧ (k.pipes q).used = true ∧ WouldBlock k.frame (k.tasks k.current).fds
      (k.pipes q) q) :
    Goes A r k (k.schedBlockPipe p) := by
  obtain ⟨q, rfl, hu, hw⟩ := h
  unfold schedBlockPipe
  exact .ite (fun _ => deliverPending_goes hA hH hr) fun _ => block_goes hA (.one (.blockPipe q hA hm hu hw))

theorem schedBlockKbd_goes (hA : A .swap) (hH : A .halt) (hr : r.doomed = none) (hm : k.mode = .user) :
    Goes A r k k.schedBlockKbd := by
  unfold schedBlockKbd
  refine .ite (fun _ => deliverPending_goes hA hH hr) fun _ => .ite (fun _ => .refl) fun _ => block_goes hA ?_
  exact .one (.pause .kbd _ hA hm (.inr rfl) fun t ht => ⟨calm_pipeWait ht none, rfl, rfl⟩)

theorem schedSleep_goes (hA : A .swap) (hH : A .halt) (hr : r.doomed = none) (hm : k.mode = .user)
    (n : UInt64) :
    Goes A r k (k.schedSleep n) := by
  unfold schedSleep
  refine .ite (fun _ => deliverPending_goes hA hH hr) fun _ =>
    .ite (fun _ => switchToNext_goes hA hm) fun _ =>
    block_goes hA (.one (.pause .sleep _ hA hm (.inl rfl) fun t ht => ⟨{ Calm.refl t with }, rfl, rfl⟩))

omit [MemSys M] in
theorem mem_candidates {i w j : Nat} (hc : k.childOf i j = true) :
    j ∈ k.candidates w ↔ wanted w j = true := by
  have hlt : j < k.taskCount := by
    unfold childOf at hc
    simp only [Bool.and_eq_true, decide_eq_true_eq] at hc
    exact hc.1.1
  unfold candidates wanted
  by_cases hw : w = 0
  · simp [hw, hlt]
  · simp [hw]

omit [MemSys M] in
theorem canWait_of_search {i w : Nat} (hz : k.findZombie i w = none) (hc : k.hasChild i w = true) :
    k.CanWait i w := by
  have hdead : ∀ j, k.Awaited i w j → (k.tasks j).state ≠ .dead := by
    rintro j ⟨h1, h2⟩ hd
    have := List.find?_eq_none.1 hz j ((mem_candidates h1).2 h2)
    exact this (by simp [h1, hd])
  obtain ⟨j, hj, hc⟩ := List.any_eq_true.1 hc
  have ha : k.Awaited i w j := ⟨hc, (mem_candidates hc).1 hj⟩
  exact ⟨⟨j, ha, hdead j ha⟩, hdead⟩

theorem schedWait_goes (hA : A .swap) (hH : A .halt) (hr : r.doomed = none) (hm : k.mode = .user) :
    Goes A r k k.schedWait := by
  unfold schedWait
  refine .ite (fun hp => ?_) fun _ => .ite (fun _ => .one (.refuse hA hm)) fun _ => ?_
  · have hpend : (k.tasks k.current).pending ≠ 0 := by
      unfold taskHasPending at hp
      simp only [Bool.and_eq_true, decide_eq_true_eq] at hp
      exact hp.2
    exact Leads.trans (.one (.askPending hA hm hpend)) (deliverPending_goes hA hH hr)
  · cases hz : k.findZombie k.current (toInt k.frame.rdi).toNat with
    | some child =>
      have h2 := List.find?_some hz
      rw [Bool.and_eq_true, decide_eq_true_eq] at h2
      exact .one (.reap child hA hm h2.1 h2.2)
    | none =>
      exact .ite (fun hc => block_goes hA (.one (.blockWait _ hA hm (canWait_of_search hz hc)))) fun _ =>
        .one (.refuse hA hm)

theorem schedResetCurrent_goes (h : Own k) (hm : k.mode = .user) (rip rsp : UInt64) (userBase : Nat) :
    Goes A r k (k.schedResetCurrent rip rsp userBase) := by
  refine .of_shape fun hs => ?_
  obtain ⟨-, hready⟩ := hs.run hm
  unfold schedResetCurrent
  refine .ite (fun _ => .refl) fun _ => .quiet ⟨fun n => ?_, rfl, rfl, rfl, rfl, SameLife.refl _,
    .refl, ⟨rfl, rfl⟩, fun n hn => .inr ?_⟩
  · simp only [modTask_tasks]
    split
    · rename_i hn
      subst hn
      exact { Calm.refl (k.tasks k.current) with
        state := .inl hready.symm, waitPid := nofun, pipeWait := nofun, regs := fun hne => absurd hready hne
        bits := fun _ => show (0 : UInt8) < 4 by decide }
    · exact Calm.refl _
  · have hc : n ≠ k.current := by
      rintro rfl
      rw [h hm] at hn
      cases hn
    refine .of_same (by simp [hc]) ?_
    have hno : ¬ (k.mode = .user ∧ k.current = n) := fun h => hc h.2.symm
    simp [regsOf, hno, hc, modTask]

end Kernel

end VampireOS
