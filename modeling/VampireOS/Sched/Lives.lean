import VampireOS.Sched.Reach

/-!
# Births, deaths and waits (sched.c:429-491, 1426-1450, 1538-1610)

| here | there |
| --- | --- |
| `Life` | what a move does to parents, deaths and waits: a birth, a death, a wait, a reaped child |
| `ExitsKept` | a waiter waits for a live child and no dead one; an exit code is collected once |
| `OwnChildren` | an un-reaped slot was forked by the task that is now in the slot it records |
| `Fostered` | the same, and that task is alive |

A parent is recorded as a slot. When the parent dies the slot goes to another task, and the record
stays: the last two hold only as long as that does not happen (`History.stale`, `History.orphaned`).
-/

namespace VampireOS

open Lib

namespace Kernel

variable {M : Type} [MemSys M] {A : Label → Prop} {m : M} {k k' : Kernel M}

/-! ## What a move does to the families -/

/-- A slot that neither dies nor is born, and does not go to wait. -/
structure Steady (t t' : Task) : Prop where
  dead : t'.state = .dead ↔ t.state = .dead
  parent : t'.parent = t.parent
  reaped : t'.reaped = t.reaped
  wait : t'.state = .wait → t.state = .wait ∧ t'.waitPid = t.waitPid

theorem Steady.refl (t : Task) : Steady t t := ⟨Iff.rfl, rfl, rfl, fun h => ⟨h, rfl⟩⟩

theorem Calm.steady {t t' : Task} (h : Calm t t') : Steady t t' where
  dead := h.dead
  parent := h.parent
  reaped := h.reaped
  wait hw := ⟨(h.back (by rw [hw]; nofun)).trans hw, h.waitPid hw⟩

/-- The history of births and deaths is the same. -/
structure SameDeaths (h h' : History) : Prop where
  born : h'.born = h.born
  uid : h'.uid = h.uid
  forkedBy : h'.forkedBy = h.forkedBy
  died : h'.died = h.died
  death : h'.death = h.death
  reports : h'.reports = h.reports
  stale : h'.stale = h.stale
  orphaned : h'.orphaned = h.orphaned

theorem SameDeaths.of_eq {h h' : History} (e : h' = h) : SameDeaths h h' := by
  subst e
  exact ⟨rfl, rfl, rfl, rfl, rfl, rfl, rfl, rfl⟩

structure Aside (k k' : Kernel M) : Prop where
  task : ∀ i, Steady (k.tasks i) (k'.tasks i)
  count : k.taskCount ≤ k'.taskCount
  hist : SameDeaths k.hist k'.hist

/-- What one move does to the families. -/
inductive Life (A : Label → Prop) (k : Kernel M) : Kernel M → Prop where
  | aside {k' : Kernel M} (h : Aside k k') : Life A k k'
  | birth (i : Nat) (parent : Option Nat) (t : Task) (hi : i < k.taskCount)
      (hd : slotReusable (k.tasks i) = true) (hp : ∀ q, parent = some q → q = k.current ∧
      k.mode = .user) (hA : k.mode = .halt → A .late) : Life A k (k.spawnTask i parent t)
  | death (code : UInt8) (hm : k.mode = .user) : Life A k { k.finishTask k.current code with mode := .idle }
  | wait (w : Nat) (hm : k.mode = .user) (hw : k.CanWait k.current w) :
      Life A k (k.asks.blocked .wait fun t => { t with waitPid := w })
  | reap (child : Nat) (hm : k.mode = .user) (hc : k.childOf k.current child = true)
      (hd : (k.tasks child).state = .dead) :
      Life A k ((k.asks.reapChild k.current child).setRax (k.tasks child).exitCode.toUInt64)

omit [MemSys M] in
/-- Only the record of slot `i` is another one. -/
theorem Aside.one {i : Nat} (hi : Steady (k.tasks i) (k'.tasks i)) (ht : ∀ n, n ≠ i → k'.tasks n = k.tasks n)
    (hc : k'.taskCount = k.taskCount) (hh : SameDeaths k.hist k'.hist) : Aside k k' := by
  refine ⟨fun n => ?_, hc.ge, hh⟩
  by_cases hn : n = i
  · exact hn ▸ hi
  · rw [ht n hn]
    exact .refl _

omit [MemSys M] in
theorem Aside.calm (ht : ∀ i, Calm (k.tasks i) (k'.tasks i)) (hc : k'.taskCount = k.taskCount)
    (hh : k'.hist = k.hist) :
    Aside k k' := ⟨fun i => (ht i).steady, hc.ge, .of_eq hh⟩

omit [MemSys M] in
/-- The records are the same. -/
theorem Aside.same (ht : k'.tasks = k.tasks) (hc : k'.taskCount = k.taskCount)
    (hh : SameDeaths k.hist k'.hist) :
    Aside k k' := ⟨fun i => by rw [ht]; exact .refl _, hc.ge, hh⟩

theorem Aside.dropFd (k : Kernel M) (i j : Nat) : Aside k (k.dropFd i j) := by
  refine ⟨fun n => ?_, (dropFd_taskCount k i j).ge, .of_eq (dropFd_hist k i j)⟩
  obtain ⟨t, ht, e⟩ := dropFd_task k i j n
  have h := ht.toCalm.steady
  rw [e]
  split
  · exact ⟨h.dead, h.parent, h.reaped, h.wait⟩
  · exact h

omit [MemSys M] in
theorem Aside.setFd (k : Kernel M) (i j : Nat) (e : FdEntry) : Aside k (k.setFd i j e) := by
  refine .one (i := i) ?_ (fun n hn => ?_) rfl (.of_eq rfl) <;> rw [setFd_tasks]
  · simp only [if_true]
    exact ⟨Iff.rfl, rfl, rfl, fun h => ⟨h, rfl⟩⟩
  · simp only [hn, if_false]

omit [MemSys M] in
/-- The running task goes to sleep, on a pipe or at the keyboard. -/
theorem Aside.blocked (hs : Shape k) (hm : k.mode = .user) {s : TaskState} (hd : s ≠ .dead) (hw : s ≠ .wait)
    {f : Task → Task} (hf : ∀ t : Task, t.state = .ready → Calm t (f t)) : Aside k (k.blocked s f) := by
  have hr : (k.tasks k.current).state = .ready := (hs.run hm).2
  have hcalm := hf { k.tasks k.current with regs := k.frame } hr
  refine .one (i := k.current) ?_ (fun n hn => by simp [Kernel.blocked, saveTask, hn]) rfl (.of_eq rfl)
  simp only [Kernel.blocked, saveTask, modTask_tasks, modTask_current, if_true]
  exact ⟨iff_of_false hd (hs.current_live hm), hcalm.parent, hcalm.reaped, fun h => absurd h hw⟩

theorem Move.life {c c' : Ghost × Kernel M} (hs : Shape c.2) (h : Move A c c') : Life A c.2 c'.2 := by
  cases h with
  | quiet hq =>
    have hh := hq.hist
    exact .aside ⟨fun i => (hq.task i).steady, hq.count.ge,
      ⟨hh.born, hh.uid, hh.forkedBy, hh.died, hh.death, hh.reports, hh.stale, hh.orphaned⟩⟩
  | @chdir g k c pwd hA hm =>
    refine .aside (.one (i := k.current) ?_ (fun n hn => by rw [modTask_tasks, if_neg hn]) rfl (.of_eq rfl))
    rw [modTask_tasks, if_pos rfl]
    exact ⟨Iff.rfl, rfl, rfl, fun h => ⟨h, rfl⟩⟩
  | drop i j => exact .aside (.dropFd _ i j)
  | setFd i j e h0 he hl hj => exact .aside (.setFd _ i j e)
  | @addEnd g k i j p e h0 he hp hu hl hj =>
    have h := Aside.setFd k i j e
    exact .aside ⟨h.task, h.count, h.hist⟩
  | @alloc g k p hr hp =>
    rcases allocPipe_cases k with e | ⟨p', phys, -, -, -, e⟩
    · rw [e] at hp; cases hp
    · simp only [e]
      exact .aside (.same rfl rfl (.of_eq rfl))
  | @discard g k p hr hp hu h0 =>
    exact .aside (.same (freePipe_tasks k p) (freePipe_taskCount k p) (.of_eq (freePipe_hist k p)))
  | @read g k fd n =>
    rcases schedPipeRead_cases k fd n with e | ⟨p, u, -, e, -⟩ <;> simp only [e]
    · exact .aside (.same rfl rfl (.of_eq rfl))
    · exact .aside (.calm (fun i => (wakePipeWaiters_mild (k.modPipe p u) p i).toCalm) rfl rfl)
  | @write g k fd src =>
    rcases schedPipeWrite_cases k fd src with e | ⟨p, u, -, e, -⟩ <;> simp only [e]
    · exact .aside (.same rfl rfl (.of_eq rfl))
    · exact .aside (.calm (fun i => (wakePipeWaiters_mild (k.modPipe p u) p i).toCalm) rfl rfl)
  | pause s f hA hm hsl hf =>
    refine .aside (.blocked hs hm ?_ ?_ fun t ht => (hf t ht).1) <;> rcases hsl with rfl | rfl <;> nofun
  | blockPipe p hA hm hu hw => exact .aside (.blocked (s := .pipe) hs hm nofun nofun fun t ht =>
      calm_pipeWait ht _)
  | @swap g k i hA hm hn hi hr =>
    refine .aside
      (.one (i := k.current) ?_ (fun n hn => by simp only [switchTo, saveTask, modTask_tasks,
      if_neg hn]) rfl (.of_eq rfl))
    simp only [switchTo, saveTask, modTask_tasks, if_true]
    exact ⟨Iff.rfl, rfl, rfl, fun h => ⟨h, rfl⟩⟩
  | grow h => exact .aside ⟨fun _ => .refl _, Nat.le_succ _, .of_eq rfl⟩
  | spawn i f parent t hA hi hd hk hc ht hf hp => exact .birth i parent t hi hd hp hA
  | @doom g k hInt hTerm f hA hm =>
    refine .aside (.one (i := k.current) ?_ (fun n hn => by rw [modTask_tasks, if_neg hn])
      rfl ⟨rfl, rfl, rfl, rfl, rfl, rfl, rfl, rfl⟩)
    rw [modTask_tasks, if_pos rfl]
    exact ⟨Iff.rfl, rfl, rfl, fun h => ⟨h, rfl⟩⟩
  | die code hA hm hf => exact .death code hm
  | blockWait w hA hm hw => exact .wait w hm hw
  | reap child hA hm hc hd => exact .reap child hm hc hd
  | @freeKstack g k i hd =>
    obtain ⟨-, hc, -, -, hh, -⟩ := freeTaskKstack_rest k i
    refine .aside ⟨fun n => ?_, hc.ge, .of_eq hh⟩
    rcases freeTaskKstack_task k i n with e | ⟨rfl, e⟩ <;> rw [e]
    · exact .refl _
    · exact ⟨Iff.rfl, rfl, rfl, fun h => ⟨h, rfl⟩⟩
  | _ => exact .aside (.same rfl rfl ⟨rfl, rfl, rfl, rfl, rfl, rfl, rfl, rfl⟩)

/-! ## Waiters and zombies -/

omit [MemSys M] in
theorem childOf_iff {p j : Nat} : k.childOf p j = true ↔
    j < k.taskCount ∧ (k.tasks j).parent = some p ∧ (k.tasks j).reaped = false := by
  simp [childOf, and_assoc]

omit [MemSys M] in
theorem hasOpenChild_iff {i : Nat} : k.hasOpenChild i = true ↔
    ∃ j, j < k.taskCount ∧ (k.tasks j).parent = some i ∧ (k.tasks j).reaped = false := by
  simp [hasOpenChild]

/-- Dead, and nobody has collected the exit code. -/
def Zombie (t : Task) : Prop := t.state = .dead ∧ t.parent ≠ none ∧ t.reaped = false

theorem slotReusable_iff {t : Task} : slotReusable t = true ↔ t.state = .dead ∧ ¬ Zombie t := by
  unfold slotReusable Zombie
  cases t.parent <;> cases t.reaped <;> simp

theorem Steady.zombie {t t' : Task} (h : Steady t t') : Zombie t' ↔ Zombie t := by
  unfold Zombie
  rw [h.dead, h.parent, h.reaped]

omit [MemSys M] in
/-- The slots counted since the state before hold no child. -/
theorem Aside.childOf (hs : Shape k) (h : Aside k k') (p j : Nat) : k'.childOf p j = k.childOf p j := by
  rw [Bool.eq_iff_iff, childOf_iff, childOf_iff, (h.task j).parent, (h.task j).reaped]
  constructor
  · rintro ⟨-, hp, hr⟩
    refine ⟨?_, hp, hr⟩
    by_contra hj
    rw [(hs.fresh j (by omega)).2.1] at hp
    cases hp
  · rintro ⟨hj, hp, hr⟩
    exact ⟨hj.trans_le h.count, hp, hr⟩

/-- Death `d` of slot `j` is the last one there and its code is still to be collected. -/
def ToCollect (k : Kernel M) (j : Nat) : Prop :=
  k.hist.death j < k.hist.died ∧ ∀ r ∈ k.hist.reports, r.death ≠ k.hist.death j

/-- No exit is lost. -/
structure ExitsKept (k : Kernel M) : Prop where
  waits : ∀ i, (k.tasks i).state = .wait → k.CanWait i (k.tasks i).waitPid
  once : (k.hist.reports.map Report.death).Nodup
  old : ∀ r ∈ k.hist.reports, r.death < k.hist.died
  zombie : ∀ j, Zombie (k.tasks j) → k.ToCollect j
  apart : ∀ i j, Zombie (k.tasks i) → Zombie (k.tasks j) → k.hist.death i = k.hist.death j → i = j

omit [MemSys M] in
/-- A waiter's live child stays one, and it gets no dead one. -/
theorem CanWait.keep {i w : Nat} (h : k.CanWait i w)
    (hlive : ∀ j, k.Awaited i w j → (k.tasks j).state ≠ .dead → k'.childOf i j = true ∧
      (k'.tasks j).state ≠ .dead)
    (hback : ∀ j, k'.Awaited i w j → (k'.tasks j).state = .dead → k.childOf i j = true ∧
      (k.tasks j).state = .dead) : k'.CanWait i w := by
  obtain ⟨⟨j, hj, hl⟩, hall⟩ := h
  obtain ⟨hc', hl'⟩ := hlive j hj hl
  refine ⟨⟨j, ⟨hc', hj.2⟩, hl'⟩, fun n hn hd => ?_⟩
  obtain ⟨hcn, hdn⟩ := hback n hn hd
  exact hall n ⟨hcn, hn.2⟩ hdn

omit [MemSys M] in
theorem ExitsKept.aside (hs : Shape k) (h : Aside k k') (hI : ExitsKept k) : ExitsKept k' := by
  obtain ⟨ht, hc, hborn, huid, hforked, hdied, hdeath, hreports, hstale, horphaned⟩ := h
  have hchild :=
    (Aside.mk ht hc ⟨hborn, huid, hforked, hdied, hdeath, hreports, hstale, horphaned⟩).childOf hs
  refine ⟨fun i hi => ?_, hreports ▸ hI.once, fun r hr => ?_, fun j hj => ?_, fun i j hi hj e => ?_⟩
  · obtain ⟨hw, e⟩ := (ht i).wait hi
    rw [e]
    refine (hI.waits i hw).keep (fun j hj hl => ?_) fun j hj hd => ?_
    · exact ⟨(hchild i j).trans hj.1, fun hd => hl ((ht j).dead.1 hd)⟩
    · exact ⟨(hchild i j).symm.trans hj.1, (ht j).dead.1 hd⟩
  · rw [hdied]
    exact hI.old r (hreports ▸ hr)
  · unfold ToCollect
    rw [hdied, hdeath, hreports]
    exact hI.zombie j ((ht j).zombie.1 hj)
  · rw [hdeath] at e
    exact hI.apart i j ((ht i).zombie.1 hi) ((ht j).zombie.1 hj) e

omit [MemSys M] in
theorem spawnTask_other {i n : Nat} {parent : Option Nat} {t : Task} (hn : n ≠ i) :
    (k.spawnTask i parent t).tasks n = k.tasks n := Function.update_of_ne hn _ _

omit [MemSys M] in
theorem spawnTask_self (k : Kernel M) (i : Nat) (parent : Option Nat) (t : Task) :
    ((k.spawnTask i parent t).tasks i).state = .ready ∧ ((k.spawnTask i parent t).tasks i).parent =
    parent := by
  simp [spawnTask]

omit [MemSys M] in
theorem ExitsKept.birth {i : Nat} {parent : Option Nat} {t : Task} (hd : slotReusable (k.tasks i) = true)
    (hI : ExitsKept k) : ExitsKept (k.spawnTask i parent t) := by
  obtain ⟨hdead, -⟩ := slotReusable_iff.1 hd
  obtain ⟨hready, -⟩ := spawnTask_self k i parent t
  have hne : ∀ {n}, ((k.spawnTask i parent t).tasks n).state ≠ .ready → n ≠ i := by
    rintro n hs rfl
    exact hs hready
  have hother : ∀ {p j}, j ≠ i → (k.spawnTask i parent t).childOf p j = k.childOf p j := fun {p j} hj => by
    rw [Bool.eq_iff_iff, childOf_iff, childOf_iff, spawnTask_other hj]
    rfl
  refine ⟨fun n hw => ?_, hI.once, hI.old, fun j hj => ?_, fun a b ha hb => ?_⟩
  · have hn : n ≠ i := hne (by rw [hw]; nofun)
    rw [spawnTask_other hn] at hw ⊢
    refine (hI.waits n hw).keep (fun j hj hl => ?_) fun j hj hdj => ?_
    · have hji : j ≠ i := by
        rintro rfl
        exact hl hdead
      rw [hother hji, spawnTask_other hji]
      exact ⟨hj.1, hl⟩
    · have hji : j ≠ i := hne (by rw [hdj]; nofun)
      rw [spawnTask_other hji] at hdj
      exact ⟨(hother hji).symm.trans hj.1, hdj⟩
  · have hji : j ≠ i := hne (by rw [hj.1]; nofun)
    rw [spawnTask_other hji] at hj
    exact hI.zombie j hj
  · rw [spawnTask_other (hne (by rw [ha.1]; nofun))] at ha
    rw [spawnTask_other (hne (by rw [hb.1]; nofun))] at hb
    exact hI.apart a b ha hb

omit [MemSys M] in
theorem finishTask_hist (k : Kernel M) (i : Nat) (code : UInt8) :
    (k.finishTask i code).hist.uid = k.hist.uid ∧ (k.finishTask i code).hist.forkedBy = k.hist.forkedBy ∧
    (k.finishTask i code).hist.born = k.hist.born ∧
    (k.finishTask i code).hist.died = k.hist.died + 1 ∧
    (k.finishTask i code).hist.death = Function.update k.hist.death i k.hist.died ∧
    (k.finishTask i code).hist.stale = k.hist.stale ∧
    (k.finishTask i code).hist.orphaned = k.hist.orphaned + if k.hasOpenChild i then 1 else 0 := by
  unfold finishTask wakeParentWaiter
  simp only
  split <;> [exact ⟨rfl, rfl, rfl, rfl, rfl, rfl, rfl⟩; (split <;> exact ⟨rfl, rfl, rfl, rfl, rfl, rfl, rfl⟩)]

omit [MemSys M] in
/-- The next death is not among those known. -/
theorem ExitsKept.fresh (hI : ExitsKept k) : k.hist.died ∉ k.hist.reports.map Report.death := by
  rw [List.mem_map]
  rintro ⟨r, hr, e⟩
  exact absurd (hI.old r hr) (by omega)

omit [MemSys M] in
/-- A slot that is waiting after a death did not wait for it. -/
theorem finishTask_waiter {i n : Nat} {code : UInt8} (hw : ((k.finishTask i code).tasks n).state = .wait) :
    n ≠ i ∧ (k.finishTask i code).tasks n = k.tasks n ∧ ¬ k.WaitsFor i n := by
  have hno : ¬ k.WaitsFor i n := fun h => by
    rcases finishTask_cases k i code with ⟨hnone, -, -⟩ | ⟨p, hp, e, -⟩
    · exact hnone n h
    · obtain rfl : n = p := Option.some.inj (h.1.symm.trans hp.1)
      rw [e, modTask_tasks, if_pos rfl] at hw
      cases hw
  rcases finishTask_task k i code n with ⟨-, b, e⟩ | ⟨hn, e⟩ | ⟨-, h, -⟩
  · rw [e] at hw; cases hw
  · exact ⟨hn, e, hno⟩
  · exact absurd h hno

omit [MemSys M] in
/-- A zombie after a death: the dead task itself when nobody was told, or an old one. -/
theorem finishTask_zombie {i n : Nat} {code : UInt8} (hz : Zombie ((k.finishTask i code).tasks n)) :
    (n = i ∧ (k.finishTask i code).hist.reports = k.hist.reports) ∨ (n ≠ i ∧ Zombie (k.tasks n)) := by
  by_cases hn : n = i
  · refine .inl ⟨hn, ?_⟩
    rcases finishTask_cases k i code with ⟨-, -, e⟩ | ⟨p, hp, e, -⟩
    · exact e
    · have hpi : ¬ i = p := fun h => hp.2.2.1 h.symm
      rw [e, modTask_tasks, hn, if_neg hpi, modTask_tasks, if_pos rfl] at hz
      exact absurd hz.2.2 (by simp)
  · rcases finishTask_task k i code n with ⟨h, -⟩ | ⟨-, e⟩ | ⟨-, -, e⟩
    · exact absurd h hn
    · exact .inr ⟨hn, e ▸ hz⟩
    · rw [e] at hz
      exact absurd hz.1 (by simp [wokenTask])

omit [MemSys M] in
/-- Another slot keeps its parent, and whether it is reaped and dead. -/
theorem finishTask_other {i n : Nat} (code : UInt8) (hn : n ≠ i) :
    ((k.finishTask i code).tasks n).parent = (k.tasks n).parent ∧
    ((k.finishTask i code).tasks n).reaped = (k.tasks n).reaped ∧
    (((k.finishTask i code).tasks n).state = .dead ↔ (k.tasks n).state = .dead) := by
  rcases finishTask_task k i code n with ⟨h, -⟩ | ⟨-, e⟩ | ⟨-, hw, e⟩
  · exact absurd h hn
  · rw [e]
    exact ⟨rfl, rfl, Iff.rfl⟩
  · rw [e]
    refine ⟨rfl, rfl, iff_of_false ?_ ?_⟩
    · simp [wokenTask]
    · intro h
      cases hw.2.2.2.1.symm.trans h

omit [MemSys M] in
theorem finishTask_reports (k : Kernel M) (i : Nat) (code : UInt8) :
    (k.finishTask i code).hist.reports = k.hist.reports ∨
    ∃ p, k.WaitsFor i p ∧ (k.finishTask i code).hist.reports =
      k.hist.reports ++ [⟨k.hist.uid p, i, k.hist.forkedBy i, k.hist.died, code⟩] := by
  rcases finishTask_cases k i code with ⟨-, -, e⟩ | ⟨p, hp, -, e⟩
  · exact .inl e
  · exact .inr ⟨p, hp, e⟩

omit [MemSys M] in
theorem ExitsKept.death (hs : Shape k) (hm : k.mode = .user) (code : UInt8) (hI : ExitsKept k) :
    ExitsKept { k.finishTask k.current code with mode := .idle } := by
  set i := k.current with hi
  obtain ⟨hcur, hready⟩ := hs.run hm
  obtain ⟨-, -, -, hdied, hdeath, -, -⟩ := finishTask_hist k i code
  have hother : ∀ {j}, j ≠ i → (k.finishTask i code).hist.death j = k.hist.death j := fun {j} hj => by
    rw [hdeath, Function.update_of_ne hj]
  have hself : (k.finishTask i code).hist.death i = k.hist.died := by rw [hdeath, Function.update_self]
  have hchild : ∀ {p j}, j ≠ i → ((k.finishTask i code).childOf p j = true ↔
      k.childOf p j = true) := fun {p j} hj => by
    rw [childOf_iff, childOf_iff, finishTask_taskCount, (finishTask_other code hj).1,
      (finishTask_other code hj).2.1]
  have hparent : ((k.finishTask i code).tasks i).parent = (k.tasks i).parent := by
    rcases finishTask_task k i code i with ⟨-, b, e⟩ | ⟨h, -⟩ | ⟨h, -⟩
    · rw [e]; rfl
    · exact absurd rfl h
    · exact absurd rfl h
  refine ⟨fun n hw => ?_, ?_, fun r hr => ?_, fun j hj => ?_, fun a b ha hb e => ?_⟩
  · obtain ⟨hn, e, hno⟩ := finishTask_waiter hw
    change (k.finishTask i code).CanWait n ((k.finishTask i code).tasks n).waitPid
    change ((k.finishTask i code).tasks n).state = .wait at hw
    rw [e] at hw ⊢
    -- the dead task is not one that slot `n` waits for
    have hnot : (k.tasks i).parent = some n → wanted (k.tasks n).waitPid i = true → False := fun hp hwant =>
      hno ⟨hp, hs.slot (by rw [hw]; nofun), hn, hw, hwant⟩
    refine (hI.waits n hw).keep (fun j hj hl => ?_) fun j hj hd => ?_
    · have hji : j ≠ i := by
        rintro rfl
        exact hnot (childOf_iff.1 hj.1).2.1 hj.2
      exact ⟨(hchild hji).2 hj.1, fun hd => hl ((finishTask_other code hji).2.2.1 hd)⟩
    · have hji : j ≠ i := by
        rintro rfl
        exact hnot (hparent ▸ (childOf_iff.1 hj.1).2.1) hj.2
      exact ⟨(hchild hji).1 hj.1, (finishTask_other code hji).2.2.1 hd⟩
  · change ((k.finishTask i code).hist.reports.map Report.death).Nodup
    rcases finishTask_reports k i code with e | ⟨p, -, e⟩ <;> rw [e]
    · exact hI.once
    · rw [List.map_append]
      exact List.Nodup.append hI.once (List.nodup_singleton _) (by simpa using hI.fresh)
  · change r.death < (k.finishTask i code).hist.died
    change r ∈ (k.finishTask i code).hist.reports at hr
    rw [hdied]
    rcases finishTask_reports k i code with e | ⟨p, -, e⟩ <;> rw [e] at hr
    · exact Nat.lt_succ_of_lt (hI.old r hr)
    · rcases List.mem_append.1 hr with hr | hr
      · exact Nat.lt_succ_of_lt (hI.old r hr)
      · rw [List.mem_singleton.1 hr]
        exact Nat.lt_succ_self _
  · change (k.finishTask i code).hist.death j < (k.finishTask i code).hist.died ∧
      ∀ r ∈ (k.finishTask i code).hist.reports, r.death ≠ (k.finishTask i code).hist.death j
    rw [hdied]
    rcases finishTask_zombie hj with ⟨hji, e⟩ | ⟨hji, hz⟩
    · rw [hji, hself, e]
      exact ⟨Nat.lt_succ_self _, fun r hr => (hI.old r hr).ne⟩
    · obtain ⟨hlt, hnew⟩ := hI.zombie j hz
      rw [hother hji]
      refine ⟨Nat.lt_succ_of_lt hlt, fun r hr => ?_⟩
      rcases finishTask_reports k i code with e | ⟨p, -, e⟩ <;> rw [e] at hr
      · exact hnew r hr
      · rcases List.mem_append.1 hr with hr | hr
        · exact hnew r hr
        · rw [List.mem_singleton.1 hr]
          exact hlt.ne'
  · change (k.finishTask i code).hist.death a = (k.finishTask i code).hist.death b at e
    rcases finishTask_zombie ha with ⟨rfl, -⟩ | ⟨hai, hza⟩ <;> rcases finishTask_zombie hb
      with ⟨hbi, -⟩ | ⟨hbi, hzb⟩
    · exact hbi.symm
    · rw [hself, hother hbi] at e
      exact absurd (hI.zombie b hzb).1 (by omega)
    · rw [hbi, hself, hother hai] at e
      exact absurd (hI.zombie a hza).1 (by omega)
    · rw [hother hai, hother hbi] at e
      exact hI.apart a b hza hzb e

omit [MemSys M] in
/-- The current task goes to wait for a live child. -/
theorem ExitsKept.wait {w : Nat} (hm : k.mode = .user) (hs : Shape k) (hw : k.CanWait k.current w)
    (hI : ExitsKept k) :
    ExitsKept (k.asks.blocked .wait fun t => { t with waitPid := w }) := by
  set k' := k.asks.blocked .wait fun t => { t with waitPid := w } with hk'
  have hready : (k.tasks k.current).state = .ready := (hs.run hm).2
  have hself : (k'.tasks k.current) =
      { k.tasks k.current with regs := k.frame, waitPid := w, state := .wait } := by
    rw [hk']
    simp [Kernel.blocked, saveTask, asks]
  have hother : ∀ {n}, n ≠ k.current → k'.tasks n = k.tasks n := fun {n} hn => by
    rw [hk']
    simp [Kernel.blocked, saveTask, asks, hn]
  have hdead : ∀ n, (k'.tasks n).state = .dead ↔ (k.tasks n).state = .dead := fun n => by
    by_cases hn : n = k.current
    · rw [hn, hself, hready]
      exact iff_of_false (fun h => by cases h) fun h => by cases h
    · rw [hother hn]
  have hrec : ∀ n, (k'.tasks n).parent = (k.tasks n).parent ∧ (k'.tasks n).reaped =
      (k.tasks n).reaped := fun n => by
    by_cases hn : n = k.current
    · rw [hn, hself]
      exact ⟨rfl, rfl⟩
    · rw [hother hn]
      exact ⟨rfl, rfl⟩
  have hchild : ∀ p j, k'.childOf p j = k.childOf p j := fun p j => by
    rw [Bool.eq_iff_iff, childOf_iff, childOf_iff, (hrec j).1, (hrec j).2]
    rfl
  have hzombie : ∀ {n}, Zombie (k'.tasks n) ↔ Zombie (k.tasks n) := fun {n} => by
    unfold Zombie
    rw [hdead, (hrec n).1, (hrec n).2]
  have hkeep : ∀ {n v}, k.CanWait n v → k'.CanWait n v := fun {n v} h =>
    h.keep (fun j hj hl => ⟨(hchild n j).trans hj.1, fun hd => hl ((hdead j).1 hd)⟩) fun j hj hd =>
      ⟨(hchild n j).symm.trans hj.1, (hdead j).1 hd⟩
  refine ⟨fun n hn => ?_, hI.once, hI.old, fun j hj => hI.zombie j (hzombie.1 hj), fun a b ha hb =>
    hI.apart a b (hzombie.1 ha) (hzombie.1 hb)⟩
  by_cases hcur : n = k.current
  · rw [hcur, hself]
    exact hkeep hw
  · rw [hother hcur] at hn ⊢
    exact hkeep (hI.waits n hn)

omit [MemSys M] in
/-- The current task collects the code of a dead child. -/
theorem ExitsKept.reap {child : Nat} {v : UInt64} (hc : k.childOf k.current child = true)
    (hd : (k.tasks child).state = .dead) (hI : ExitsKept k) :
    ExitsKept ((k.asks.reapChild k.current child).setRax v) := by
  set k' := (k.asks.reapChild k.current child).setRax v with hk'
  have hother : ∀ {n}, n ≠ child → k'.tasks n = k.tasks n := fun {n} hn => by
    rw [hk']
    simp [reapChild, setRax, asks, hn]
  have hself : k'.tasks child = { k.tasks child with reaped := true } := by
    rw [hk']
    simp [reapChild, setRax, asks]
  have hz : Zombie (k.tasks child) := by
    obtain ⟨-, hp, hr⟩ := childOf_iff.1 hc
    exact ⟨hd, hp ▸ Option.some_ne_none _, hr⟩
  have hne : ∀ {p j}, k'.childOf p j = true → j ≠ child := by
    rintro p j hj rfl
    have hr := (childOf_iff.1 hj).2.2
    rw [hself] at hr
    cases hr
  have hzombie : ∀ {n}, Zombie (k'.tasks n) → n ≠ child ∧ Zombie (k.tasks n) := by
    intro n hn
    have hnc : n ≠ child := by
      rintro rfl
      rw [hself] at hn
      cases hn.2.2
    rw [hother hnc] at hn
    exact ⟨hnc, hn⟩
  have hchild : ∀ {p j}, j ≠ child → k'.childOf p j = k.childOf p j := fun {p j} hj => by
    rw [Bool.eq_iff_iff, childOf_iff, childOf_iff, hother hj]
    rfl
  have hreports : k'.hist.reports = k.hist.reports ++
      [⟨k.hist.uid k.current, child, k.hist.forkedBy child, k.hist.death child,
        (k.tasks child).exitCode⟩] := rfl
  obtain ⟨hlt, hnew⟩ := hI.zombie child hz
  refine ⟨fun n hn => ?_, ?_, fun r hr => ?_, fun j hj => ?_, fun a b ha hb e =>
    hI.apart a b (hzombie ha).2 (hzombie hb).2 e⟩
  · have hnc : n ≠ child := by
      rintro rfl
      rw [hself] at hn
      rw [hd] at hn
      cases hn
    rw [hother hnc] at hn ⊢
    refine (hI.waits n hn).keep (fun j hj hl => ?_) fun j hj hdj => ?_
    · have hj' : j ≠ child := by
        rintro rfl
        exact hl hd
      rw [hother hj']
      exact ⟨(hchild hj').trans hj.1, hl⟩
    · have hj' := hne hj.1
      rw [hother hj'] at hdj
      exact ⟨(hchild hj').symm.trans hj.1, hdj⟩
  · rw [hreports, List.map_append]
    refine List.Nodup.append hI.once (List.nodup_singleton _) ?_
    simp only [List.map_cons, List.map_nil, List.disjoint_singleton, List.mem_map, not_exists, not_and]
    exact hnew
  · rw [hreports] at hr
    rcases List.mem_append.1 hr with hr | hr
    · exact hI.old r hr
    · rw [List.mem_singleton.1 hr]
      exact hlt
  · obtain ⟨hjc, hzj⟩ := hzombie hj
    obtain ⟨hltj, hnewj⟩ := hI.zombie j hzj
    refine ⟨hltj, fun r hr => ?_⟩
    rw [hreports] at hr
    rcases List.mem_append.1 hr with hr | hr
    · exact hnewj r hr
    · rw [List.mem_singleton.1 hr]
      exact fun e => hjc (hI.apart j child hzj hz e.symm)

omit [MemSys M] in
theorem ExitsKept.life (hs : Shape k) (h : Life A k k') (hI : ExitsKept k) : ExitsKept k' := by
  cases h with
  | aside h => exact hI.aside hs h
  | birth i parent t hi hd hp hA => exact hI.birth hd
  | death code hm => exact hI.death hs hm code
  | wait w hm hw => exact hI.wait hm hs hw
  | reap child hm hc hd => exact hI.reap hc hd

theorem Reachable.exitsKept (h : Reachable m k) : ExitsKept k := by
  obtain ⟨_, hI⟩ := h.rests (I := fun c => ExitsKept c.2)
    (fun _ _ _ => ⟨nofun, List.nodup_nil, nofun, fun _ hz => absurd rfl hz.2.1,
      fun _ _ hz => absurd rfl hz.2.1⟩)
    fun c c' hs hI hm => hI.life hs (hm.life hs)
  exact hI

/-- **No lost child exit**: a task in TASK_WAIT has a live child that it waits for and no dead one,
and each death is reported by one completed wait at most. -/
theorem exits_kept (h : Reachable m k) :
    (∀ i, (k.tasks i).state = .wait → k.CanWait i (k.tasks i).waitPid) ∧
    (k.hist.reports.map Report.death).Nodup := ⟨h.exitsKept.waits, h.exitsKept.once⟩

/-- A task that has forked and waits for its child. -/
def forkedWaiter : Kernel Plenty := (twoTasks ⟨0⟩).run [callOf 13 0 0, callOf 5 0 0]

theorem forkedWaiter_reachable : Reachable ⟨0⟩ forkedWaiter := (twoTasks_reachable _).run _

theorem exits_kept_waiter :
    (∀ i, (forkedWaiter.tasks i).state = .wait → forkedWaiter.CanWait i (forkedWaiter.tasks i).waitPid) ∧
    (forkedWaiter.hist.reports.map Report.death).Nodup := exits_kept forkedWaiter_reachable

example : (forkedWaiter.tasks 0).state = .wait := by decide +kernel

/-! ## Which task is in a slot -/

omit [MemSys M] in
theorem Life.born (h : Life A k k') : k.hist.born ≤ k'.hist.born := by
  cases h with
  | aside h => exact h.hist.born.ge
  | birth i parent t hi hd hp hA => exact Nat.le_succ _
  | death code hm => exact (finishTask_hist k k.current code).2.2.1.ge
  | wait w hm hw => exact le_rfl
  | reap child hm hc hd => exact le_rfl

omit [MemSys M] in
/-- A live task was there before, or it is new. -/
theorem Life.whose (hs : Shape k) (h : Life A k k') {i : Nat} (hl : (k'.tasks i).state ≠ .dead) :
    ((k.tasks i).state ≠ .dead ∧ k'.hist.uid i = k.hist.uid i) ∨
    (k'.hist.uid i = k.hist.born ∧ k'.hist.born = k.hist.born + 1) := by
  cases h with
  | aside h => exact .inl ⟨fun hd => hl ((h.task i).dead.2 hd), congrFun h.hist.uid i⟩
  | birth j parent t hi hd hp hA =>
    by_cases hij : i = j
    · subst hij
      exact .inr ⟨Function.update_self _ _ _, rfl⟩
    · rw [spawnTask_other hij] at hl
      exact .inl ⟨hl, Function.update_of_ne hij _ _⟩
  | death code hm =>
    refine .inl ⟨?_, congrFun (finishTask_hist k k.current code).1 i⟩
    by_cases hi : i = k.current
    · exact hi ▸ hs.current_live hm
    · exact fun hd => hl ((finishTask_other code hi).2.2.2 hd)
  | wait w hm hw =>
    refine .inl ⟨?_, rfl⟩
    by_cases hi : i = k.current
    · exact hi ▸ hs.current_live hm
    · simpa [Kernel.blocked, saveTask, asks, hi] using hl
  | reap child hm hc hd =>
    refine .inl ⟨fun hd' => hl ?_, rfl⟩
    by_cases hi : i = child
    · subst hi
      simpa [reapChild, setRax, asks] using hd
    · simpa [reapChild, setRax, asks, hi] using hd'

/-- The live tasks have numbers that were given out. -/
def Numbered (k : Kernel M) : Prop := ∀ i, (k.tasks i).state ≠ .dead → k.hist.uid i < k.hist.born

omit [MemSys M] in
theorem Numbered.life (hs : Shape k) (h : Life A k k') (hI : Numbered k) : Numbered k' := by
  intro i hl
  have hb := h.born
  rcases h.whose hs hl with ⟨hl0, e⟩ | ⟨e1, e2⟩
  · have := hI i hl0
    omega
  · omega

theorem Reachable.numbered (h : Reachable m k) : Numbered k := by
  obtain ⟨_, hI⟩ := h.rests (I := fun c => Numbered c.2) (fun _ _ _ _ hl => absurd rfl hl)
    fun c c' hs hI hm => hI.life hs (hm.life hs)
  exact hI

/-! ## Whose children -/

/-- Slot `j` records slot `p` as the parent that has not reaped it. -/
def Records (k : Kernel M) (j p : Nat) : Prop := (k.tasks j).parent = some p ∧ (k.tasks j).reaped = false

omit [MemSys M] in
theorem Records.open (hs : Shape k) {j p : Nat} (h : k.Records j p) : k.hasOpenChild p = true := by
  refine hasOpenChild_iff.2 ⟨j, ?_, h⟩
  by_contra hj
  have hp := h.1
  rw [(hs.fresh j (by omega)).2.1] at hp
  cases hp

omit [MemSys M] in
theorem finishTask_records (hs : Shape k) (hm : k.mode = .user) {code : UInt8} {j p : Nat}
    (h : (k.finishTask k.current code).Records j p) : k.Records j p := by
  by_cases hj : j = k.current
  · subst hj
    refine ⟨?_, (hs.live _ (hs.current_live hm)).2⟩
    rcases finishTask_task k k.current code k.current with ⟨-, b, e⟩ | ⟨hn, -⟩ | ⟨hn, -⟩
    · have hp := h.1
      rw [e] at hp
      exact hp
    · exact absurd rfl hn
    · exact absurd rfl hn
  · obtain ⟨h1, h2, -⟩ := finishTask_other code hj
    exact ⟨h1 ▸ h.1, h2 ▸ h.2⟩

omit [MemSys M] in
/-- A record was there before, or its slot is that of a new task, the current one's child. -/
theorem Life.records (hs : Shape k) (h : Life A k k') {j p : Nat} (hr : k'.Records j p) :
    (k.Records j p ∧ k'.hist.forkedBy j = k.hist.forkedBy j) ∨
    ((k.tasks p).state ≠ .dead ∧ (k'.tasks p).state ≠ .dead ∧ k'.hist.forkedBy j = some (k'.hist.uid p)) := by
  cases h with
  | aside h =>
    refine .inl ⟨⟨(h.task j).parent ▸ hr.1, (h.task j).reaped ▸ hr.2⟩, ?_⟩
    rw [h.hist.forkedBy]
  | birth i parent t hi hd hp hA =>
    by_cases hj : j = i
    · subst hj
      obtain ⟨rfl, hm⟩ := hp p ((spawnTask_self k j parent t).2 ▸ hr.1)
      have hlive := hs.current_live hm
      have hne : k.current ≠ j := by
        intro e
        rw [e] at hlive
        exact hlive (slotReusable_iff.1 hd).1
      refine .inr ⟨hlive, by rw [spawnTask_other hne]; exact hlive, ?_⟩
      have hpar : parent = some k.current := (spawnTask_self k j parent t).2 ▸ hr.1
      simp [spawnTask, hpar, hne]
    · refine .inl ⟨?_, ?_⟩
      · unfold Records
        unfold Records at hr
        rwa [spawnTask_other hj] at hr
      · simp [spawnTask, hj]
  | death code hm =>
    refine .inl ⟨finishTask_records hs hm hr, ?_⟩
    change (k.finishTask k.current code).hist.forkedBy j = _
    rw [(finishTask_hist k k.current code).2.1]
  | wait w hm hw =>
    refine .inl ⟨?_, rfl⟩
    by_cases hj : j = k.current
    · subst hj
      simpa [Records, Kernel.blocked, saveTask, asks] using hr
    · simpa [Records, Kernel.blocked, saveTask, asks, hj] using hr
  | reap child hm hc hd =>
    refine .inl ⟨?_, rfl⟩
    by_cases hj : j = child
    · subst hj
      have h2 := hr.2
      simp [reapChild, setRax, asks] at h2
    · simpa [Records, reapChild, setRax, asks, hj] using hr

omit [MemSys M] in
/-- A report says by whom the reaped slot was forked, and who is in the slot it records. -/
theorem Life.reports (hs : Shape k) (h : Life A k k') {r : Report} (hr : r ∈ k'.hist.reports) :
    r ∈ k.hist.reports ∨ ∃ j p, k.Records j p ∧ r.waiter = k.hist.uid p ∧ r.forkedBy = k.hist.forkedBy j := by
  cases h with
  | aside h => exact .inl (h.hist.reports ▸ hr)
  | birth i parent t hi hd hp hA => exact .inl hr
  | death code hm =>
    change r ∈ (k.finishTask k.current code).hist.reports at hr
    rcases finishTask_reports k k.current code with e | ⟨p, hp, e⟩ <;> rw [e] at hr
    · exact .inl hr
    · rcases List.mem_append.1 hr with hr | hr
      · exact .inl hr
      · rw [List.mem_singleton.1 hr]
        exact .inr ⟨k.current, p, ⟨hp.1, (hs.live _ (hs.current_live hm)).2⟩, rfl, rfl⟩
  | wait w hm hw => exact .inl hr
  | reap child hm hc hd =>
    rcases List.mem_append.1 hr with hr | hr
    · exact .inl hr
    · rw [List.mem_singleton.1 hr]
      exact .inr ⟨child, k.current, (childOf_iff.1 hc).2, rfl, rfl⟩

omit [MemSys M] in
/-- As long as no slot with a record of it goes to a new task, a recorded slot keeps its task. -/
theorem Life.stale (hs : Shape k) (h : Life A k k') (h0 : k'.hist.stale = 0) :
    k.hist.stale = 0 ∧ ∀ j p, k.Records j p → k'.hist.uid p = k.hist.uid p := by
  cases h with
  | aside h => exact ⟨h.hist.stale ▸ h0, fun j p _ => by rw [h.hist.uid]⟩
  | birth i parent t hi hd hp hA =>
    change k.hist.stale + (if k.hasOpenChild i then 1 else 0) = 0 at h0
    refine ⟨by omega, fun j p hr => Function.update_of_ne ?_ _ _⟩
    rintro rfl
    rw [if_pos (hr.open hs)] at h0
    omega
  | death code hm =>
    obtain ⟨huid, -, -, -, -, hstale, -⟩ := finishTask_hist k k.current code
    exact ⟨hstale ▸ h0, fun j p _ => congrFun huid p⟩
  | wait w hm hw => exact ⟨h0, fun _ _ _ => rfl⟩
  | reap child hm hc hd => exact ⟨h0, fun _ _ _ => rfl⟩

omit [MemSys M] in
/-- As long as nobody dies whom a slot records, a live recorded task lives on. -/
theorem Life.orphaned (hs : Shape k) (h : Life A k k') (h0 : k'.hist.orphaned = 0) :
    k.hist.orphaned = 0 ∧ ∀ j p, k.Records j p → (k.tasks p).state ≠ .dead →
      (k'.tasks p).state ≠ .dead ∧ k'.hist.uid p = k.hist.uid p := by
  cases h with
  | aside h =>
    exact ⟨h.hist.orphaned ▸ h0, fun j p _ hl => ⟨fun hd => hl ((h.task p).dead.1 hd), by rw [h.hist.uid]⟩⟩
  | birth i parent t hi hd hp hA =>
    refine ⟨h0, fun j p _ hl => ?_⟩
    have hne : p ≠ i := by
      rintro rfl
      exact hl (slotReusable_iff.1 hd).1
    exact ⟨by rw [spawnTask_other hne]; exact hl, Function.update_of_ne hne _ _⟩
  | death code hm =>
    obtain ⟨huid, -, -, -, -, -, horphaned⟩ := finishTask_hist k k.current code
    change (k.finishTask k.current code).hist.orphaned = 0 at h0
    rw [horphaned] at h0
    refine ⟨by omega, fun j p hr hl => ⟨fun hd => ?_, congrFun huid p⟩⟩
    have hne : p ≠ k.current := by
      rintro rfl
      rw [if_pos (hr.open hs)] at h0
      omega
    exact hl ((finishTask_other code hne).2.2.1 hd)
  | wait w hm hw =>
    refine ⟨h0, fun j p _ hl => ⟨?_, rfl⟩⟩
    by_cases hp : p = k.current
    · subst hp
      simp [Kernel.blocked, saveTask, asks]
    · simpa [Kernel.blocked, saveTask, asks, hp] using hl
  | reap child hm hc hd =>
    refine ⟨h0, fun j p _ hl => ⟨?_, rfl⟩⟩
    by_cases hp : p = child
    · subst hp
      exact absurd hd hl
    · simpa [reapChild, setRax, asks, hp] using hl

/-- Reports and records name the task that forked the slot. -/
structure OwnChildren (k : Kernel M) : Prop where
  reports : ∀ r ∈ k.hist.reports, r.forkedBy = some r.waiter
  records : ∀ j p, k.Records j p → k.hist.forkedBy j = some (k.hist.uid p)

omit [MemSys M] in
theorem OwnChildren.life (hs : Shape k) (h : Life A k k') (h0 : k'.hist.stale = 0) (hI : OwnChildren k) :
    OwnChildren k' := by
  obtain ⟨-, huid⟩ := h.stale hs h0
  refine ⟨fun r hr => ?_, fun j p hr => ?_⟩
  · rcases h.reports hs hr with hr | ⟨j, p, hrec, e1, e2⟩
    · exact hI.reports r hr
    · rw [e1, e2, hI.records j p hrec]
  · rcases h.records hs hr with ⟨hrec, e⟩ | ⟨-, -, e⟩
    · rw [e, hI.records j p hrec, huid j p hrec]
    · exact e

/-- **A wait reports own children**, in runs in which no new task ever gets a slot that an un-reaped
slot still records as its parent. -/
theorem own_children (h : Reachable m k) (h0 : k.hist.stale = 0) :
    ∀ r ∈ k.hist.reports, r.forkedBy = some r.waiter := by
  obtain ⟨_, hI⟩ := h.rests (I := fun c => c.2.hist.stale = 0 → OwnChildren c.2)
    (fun _ _ _ _ => ⟨nofun, fun _ _ hr => by cases hr.1⟩)
    fun c c' hs hI hm h0 => (hI ((hm.life hs).stale hs h0).1).life hs (hm.life hs) h0
  exact (hI h0).reports

/-- A task forks, its child exits and it collects the code. -/
def collected : Kernel Plenty := (twoTasks ⟨0⟩).run
  [callOf 13 0 0, callOf 3 0 0, callOf 3 0 0, callOf 2 7 0, callOf 5 0 0]

theorem collected_reachable : Reachable ⟨0⟩ collected := (twoTasks_reachable _).run _

theorem own_children_collected :
    collected.hist.reports.length = 1 ∧ ∀ r ∈ collected.hist.reports, r.forkedBy = some r.waiter :=
  ⟨by decide +kernel, own_children collected_reachable (by decide +kernel)⟩

/-- The first task forks and exits. The second one forks into the slot the first one had; that new
task collects the code of the first one's child. -/
def inherited : Kernel Plenty := (twoTasks ⟨0⟩).run
  [callOf 13 0 0, callOf 2 0 0, callOf 13 0 0, callOf 3 0 0, callOf 2 7 0, callOf 5 0 0]

theorem inherited_report :
    Reachable ⟨0⟩ inherited ∧ ¬ ∀ r ∈ inherited.hist.reports, r.forkedBy = some r.waiter :=
  ⟨(twoTasks_reachable _).run _, by decide +kernel⟩

/-! ## Lost slots -/

/-- The parent a slot records is the task that forked it, and it lives. -/
def Fostered (k : Kernel M) (j : Nat) : Prop :=
  ∃ p, k.Records j p ∧ (k.tasks p).state ≠ .dead ∧ k.hist.forkedBy j = some (k.hist.uid p)

omit [MemSys M] in
theorem Fostered.life (hs : Shape k) (h : Life A k k') (h0 : k'.hist.orphaned = 0)
    (hI : ∀ j p, k.Records j p → k.Fostered j) {j p : Nat} (hr : k'.Records j p) : k'.Fostered j := by
  obtain ⟨-, hkeep⟩ := h.orphaned hs h0
  rcases h.records hs hr with ⟨hrec, e⟩ | ⟨-, hl, e⟩
  · obtain ⟨q, hq, hl, hby⟩ := hI j p hrec
    obtain rfl : p = q := Option.some.inj (hrec.1.symm.trans hq.1)
    obtain ⟨hl', huid⟩ := hkeep j p hrec hl
    exact ⟨p, hr, hl', by rw [e, hby, huid]⟩
  · exact ⟨p, hr, hl, e⟩

theorem Reachable.fostered (h : Reachable m k) (h0 : k.hist.orphaned = 0) (j p : Nat) (hr : k.Records j p) :
    k.Fostered j := by
  obtain ⟨_, hI⟩ := h.rests (I := fun c => c.2.hist.orphaned = 0 → ∀ j p, c.2.Records j p → c.2.Fostered j)
    (fun _ _ _ _ _ _ hr => by cases hr.1)
    fun c c' hs hI hm h0 j p hr =>
      Fostered.life hs (hm.life hs) h0 (hI ((hm.life hs).orphaned hs h0).1) hr
  exact hI h0 j p hr

/-- **No slot is lost**, in runs in which nobody dies while an un-reaped slot records it as its
parent: a dead slot whose parent is dead, or is no longer the task that forked it, is reusable; and
a new task finds no slot only when each of the 16 is alive or a zombie whose own parent is alive. -/
theorem slots_kept (h : Reachable m k) (h0 : k.hist.orphaned = 0) :
    (∀ j p, (k.tasks j).state = .dead → (k.tasks j).parent = some p →
      (k.tasks p).state = .dead ∨ k.hist.forkedBy j ≠ some (k.hist.uid p) → slotReusable (k.tasks j) = true) ∧
    (k.freeSlot = none → k.taskCount = taskMax ∧
      ∀ j, j < taskMax → (k.tasks j).state ≠ .dead ∨ (Zombie (k.tasks j) ∧ k.Fostered j)) := by
  constructor
  · intro j p hd hp hgone
    refine slotReusable_iff.2 ⟨hd, fun hz => ?_⟩
    obtain ⟨q, hq, hl, hby⟩ := h.fostered h0 j p ⟨hp, hz.2.2⟩
    obtain rfl : p = q := Option.some.inj (hp.symm.trans hq.1)
    rcases hgone with hd' | hn
    · exact hl hd'
    · exact hn hby
  · intro hnone
    unfold freeSlot at hnone
    split at hnone
    · cases hnone
    · rename_i hfind
      have hcount : k.taskCount = taskMax := by
        by_contra hne
        rw [if_neg (by have := h.shape.count; omega)] at hnone
        cases hnone
      refine ⟨hcount, fun j hj => or_iff_not_imp_left.2 fun hd => ?_⟩
      have hbusy := List.find?_eq_none.1 hfind j (List.mem_range.2 (hcount ▸ hj))
      have hz : Zombie (k.tasks j) := by
        by_contra hz
        exact hbusy (slotReusable_iff.2 ⟨not_not.1 hd, hz⟩)
      obtain ⟨p, hp⟩ := Option.ne_none_iff_exists'.1 hz.2.1
      exact ⟨hz, h.fostered h0 j p ⟨hp, hz.2.2⟩⟩

theorem slots_kept_collected :
    (∀ j p, (collected.tasks j).state = .dead → (collected.tasks j).parent = some p →
      (collected.tasks p).state = .dead ∨ collected.hist.forkedBy j ≠ some (collected.hist.uid p) →
        slotReusable (collected.tasks j) = true) ∧
    (collected.freeSlot = none → collected.taskCount = taskMax ∧
      ∀ j, j < taskMax → (collected.tasks j).state ≠ .dead ∨
      (Zombie (collected.tasks j) ∧ collected.Fostered j)) :=
  slots_kept collected_reachable (by decide +kernel)

/-- A task forks and exits, and then its child exits. -/
def orphan : Kernel Plenty := (twoTasks ⟨0⟩).run [callOf 13 0 0, callOf 2 0 0, callOf 3 0 0, callOf 2 7 0]

/-- The slot of the child is not reusable, though its parent is dead. -/
theorem orphan_lost :
    Reachable ⟨0⟩ orphan ∧ (orphan.tasks 2).state = .dead ∧ (orphan.tasks 2).parent = some 0 ∧
    (orphan.tasks 0).state = .dead ∧ slotReusable (orphan.tasks 2) = false :=
  ⟨(twoTasks_reachable _).run _, by decide +kernel⟩

end Kernel

end VampireOS
