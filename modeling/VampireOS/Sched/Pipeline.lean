import VampireOS.Sched.Refs

/-!
# Pipelines of the kernel shell (kernel/user.c:768-856)

`user_run_pipeline` makes a pipe, starts the left program with its write end and then the right one with its
read end. `startable` lists what a program needs to be started.
-/

namespace VampireOS

open Lib

/-- A frame the kernel gives back is free. -/
theorem Space.kfree_free {s : Space} (hi : s.Inv) {f : Nat} (hf : f ∈ s.kern) :
    (s.step (.kfree f)).1.vm.pmm.used (f / pageSize) = false := by
  simp only [Space.step, Space.kernFree]
  rw [if_pos hf]
  dsimp only
  rw [(pmmFree_gave hi.pt.ok (hi.pt.kern f hf)).used, if_pos rfl]

namespace Kernel

variable {M : Type} [MemSys M] {k k' : Kernel M}

/-- `argv` of a program. -/
def argvOf (p : Prog) : List Name := p.name :: if p.arg = [] then [] else [p.arg]

/-- What a program needs: a name, a file that elf.c accepts, frames for the kernel stack, the PML4
and the image, an argument that `user_push_argv` takes, and a slot. -/
def startable (k : Kernel M) (p : Prog) : Bool :=
  p.name ≠ [] && (k.progImage p).any fun img =>
    let k := k.fsDo (lookupRootElf p.name)
    (k.memAsk (.kalloc page2M)).any fun _ =>
      let k := k.memDo (.kalloc page2M)
      (k.memAsk .clone).any fun cr3 =>
        let res := (k.memDo .clone).loadImage cr3 img (argvOf p)
        res.2.isSome && !(cr3 = 0 || cr3 = pml4Phys || res.1.schedBaseBusy userBase cr3) &&
          res.1.freeSlot.isSome

/-- A program with a name or an argument over 31 bytes is refused, whatever there is of memory. -/
theorem startable_short {p : Prog} (h : (argvOf p).any argRefused = true) : k.startable p = false := by
  have hload : ∀ (k : Kernel M) (cr3 : Nat) (img : Image), (k.loadImage cr3 img (argvOf p)).2 = none := by
    intro k cr3 img
    simp only [loadImage, h, if_true]
    split
    · rfl
    · split <;> rfl
  unfold startable
  dsimp only
  simp only [hload, Option.isSome_none, Bool.false_and, Option.any_false, Bool.and_false]

/-- No task that was not there before is alive, and the pipe of the call is unused, its page free. -/
def PipelineAtomic (k : Kernel Space) (left right : Prog) : Prop :=
  (k.userRunPipeline left right).2 = false →
    (∀ i, ((k.userRunPipeline left right).1.tasks i).state ≠ .dead → (k.tasks i).state ≠ .dead) ∧
    ∀ p, k.allocPipe.2 = some p → ((k.userRunPipeline left right).1.pipes p).used = false ∧
      (k.userRunPipeline left right).1.mem.vm.pmm.used ((k.allocPipe.1.pipes p).phys / pageSize) = false

/-- What `user_run` leaves when a program is started. -/
structure Started (k k' : Kernel M) (i : Nat) : Prop where
  was : (k.tasks i).state = .dead
  live : (k'.tasks i).state ≠ .dead
  last : k'.lastLive = some i
  fds : ∀ j, ((k'.tasks i).fds j).endOf = none
  others : ∀ j, j ≠ i → k'.tasks j = k.tasks j
  pipes : k'.pipes = k.pipes

/-- An entry that is free is left alone. -/
theorem clearFds_free {i : Nat} (h : ∀ j, ((k.tasks i).fds j).used = false) : k.clearFds i = k := by
  refine forTo_inv (fun _ (k' : Kernel M) => k' = k) rfl fun j t _ ht => ?_
  subst ht
  unfold dropFd
  simp only [h j, if_true]

theorem takeSlot_pipes (k : Kernel M) (i : Nat) : (k.takeSlot i).pipes = k.pipes := by
  unfold takeSlot freeTaskPml4 freeTaskKstack freeTaskUser
  dsimp only
  repeat' split
  all_goals rfl

omit [MemSys M] in
theorem bindConsoleStd_same (k : Kernel M) (i : Nat) : (k.bindConsoleStd i).pipes = k.pipes ∧
    (k.bindConsoleStd i).lastAdded = k.lastAdded ∧ (k.bindConsoleStd i).taskCount = k.taskCount ∧
    ((k.bindConsoleStd i).tasks i).state = (k.tasks i).state ∧
    ∀ j, j ≠ i → (k.bindConsoleStd i).tasks j = k.tasks j := by
  refine forTo_inv (fun _ (k' : Kernel M) => k'.pipes = k.pipes ∧ k'.lastAdded = k.lastAdded ∧
    k'.taskCount = k.taskCount ∧
    (k'.tasks i).state = (k.tasks i).state ∧ ∀ j, j ≠ i →
      k'.tasks j = k.tasks j) ⟨rfl, rfl, rfl, rfl, fun _ _ => rfl⟩ ?_
  rintro n t - ⟨h1, h2, h3, h4, h5⟩
  refine ⟨h1, h2, h3, ?_, fun j hj => ?_⟩
  · simp only [setFd, modTask, Function.update_self]
    exact h4
  · simp only [setFd, modTask, Function.update_of_ne hj]
    exact h5 j hj

theorem schedAddUser_started (hs : Shape k) (rip rsp : UInt64) (kstackTop base cr3 : Nat)
    (h : (k.schedAddUser rip rsp kstackTop base cr3).2 = true) :
    ∃ i, Started k (k.schedAddUser rip rsp kstackTop base cr3).1 i := by
  have hnew := fun j => schedAddUser_new hs rip rsp kstackTop base cr3 j h
  rcases schedAddUser_cases k rip rsp kstackTop base cr3 with e | ⟨i, hi, hc, e⟩
  · rw [e] at h
    cases h
  · have htaken := takeSlot_taken hs hi
    have hs' : Shape (k.takeSlot i) := (takeSlot_goes (A := fun _ => True) (r := ⟨none, none, ∅⟩) hi).shape hs
    have hdead := slotReusable_dead htaken.reusable
    rw [e] at hnew ⊢
    set k1 := (k.takeSlot i).spawnTask i none (k.userTask rip rsp kstackTop base cr3) with hk1
    have hclear : k1.clearFds i = k1 := clearFds_free fun j => by
      have : (k1.tasks i).fds = ((k.takeSlot i).tasks i).fds := by simp [hk1, spawnTask]
      rw [this]
      exact hs'.dead i hdead j
    rw [hclear] at hnew ⊢
    obtain ⟨b1, b2, b3, b4, b5⟩ := bindConsoleStd_same k1 i
    have hstate : (k1.tasks i).state = .ready := by simp [hk1, spawnTask]
    have hlive : ((k1.bindConsoleStd i).tasks i).state ≠ .dead := by
      rw [b4, hstate]
      exact fun h => by cases h
    have hlast : (k1.bindConsoleStd i).lastLive = some i := by
      unfold lastLive
      rw [b2, show k1.lastAdded = some i from rfl]
      simp only [Option.filter_eq_some_iff, Bool.and_eq_true, decide_eq_true_eq, bne_iff_ne, true_and]
      exact ⟨b3.symm ▸ htaken.slot, hlive⟩
    refine ⟨i, ?_, hlive, hlast, fun j => hnew j i hlast, fun j hj => ?_, ?_⟩
    · rcases freeSlot_some hi with ⟨-, hr⟩ | ⟨rfl, -⟩
      · exact slotReusable_dead hr
      · exact (hs.fresh _ le_rfl).1
    · rw [b5 j hj, hk1]
      simp only [spawnTask, Function.update_of_ne hj]
      exact htaken.other j hj
    · rw [b1]
      exact takeSlot_pipes k i

omit [MemSys M] in
theorem kstackTopOf_ne (f : Nat) : kstackTopOf f ≠ 0 := by
  simp only [kstackTopOf, pageSize]
  omega

theorem schedAddUser_answer (k : Kernel M) (rip rsp : UInt64) (f cr3 : Nat) :
    (k.schedAddUser rip rsp (kstackTopOf f) userBase cr3).2 =
      (!(cr3 = 0 || cr3 = pml4Phys || k.schedBaseBusy userBase cr3) && k.freeSlot.isSome) := by
  have hbase : ¬userBase = 0 := by decide
  unfold schedAddUser
  by_cases hc : cr3 = 0 ∨ cr3 = pml4Phys ∨ k.schedBaseBusy userBase cr3
  · rw [if_pos (Or.inr (Or.inr hc))]
    rcases hc with h | h | h <;> simp [h]
  · rw [if_neg (by rintro (h | h | h); exacts [kstackTopOf_ne f h, hbase h, hc h])]
    simp only [not_or, Bool.not_eq_true] at hc
    rw [decide_eq_false hc.1, decide_eq_false hc.2.1, hc.2.2]
    cases k.freeSlot <;> rfl

/-- A program that does not start leaves everything but the memory. -/
theorem userSpawn_spec' (hs : Shape k) (name arg : Name) (img : Option Image) :
    ((k.userSpawn name arg img).2 = true → ∃ i, Started k (k.userSpawn name arg img).1 i) ∧
    ((k.userSpawn name arg img).2 = false →
      (k.userSpawn name arg img).1 = { k with mem := (k.userSpawn name arg img).1.mem }) := by
  unfold userSpawn
  cases img with
  | none => exact ⟨fun h => (nomatch h), fun _ => rfl⟩
  | some img =>
    dsimp only
    cases k.memAsk (.kalloc page2M) with
    | none => exact ⟨fun h => (nomatch h), fun _ => rfl⟩
    | some f =>
      dsimp only
      cases (k.memDo (.kalloc page2M)).memAsk .clone with
      | none => exact ⟨fun h => (nomatch h), fun _ => rfl⟩
      | some cr3 =>
        dsimp only
        have hload := (loadImage_mem (k := (k.memDo (.kalloc page2M)).memDo .clone) cr3 img
          (name :: if arg = [] then [] else [arg]))
        rcases hx : ((k.memDo (.kalloc page2M)).memDo .clone).loadImage cr3 img
          (name :: if arg = [] then [] else [arg]) with ⟨k2, _ | sp⟩
        · rw [hx] at hload
          have hk2 : k2 = { k with mem := k2.mem } := hload.eq
          refine ⟨fun h => (nomatch h), fun _ => ?_⟩
          generalize k2.mem = m at hk2
          subst hk2
          rfl
        · rw [hx] at hload
          have hk2 : k2 = { k with mem := k2.mem } := hload.eq
          have hs2 : Shape k2 := by
            rw [hk2]
            exact hs.same rfl rfl rfl rfl rfl
          dsimp only
          have hstarted := fun h => schedAddUser_started hs2 img.entry (UInt64.ofNat sp)
            (kstackTopOf f) userBase cr3 h
          have hcases := schedAddUser_cases k2 img.entry (UInt64.ofNat sp) (kstackTopOf f) userBase cr3
          rcases hy : k2.schedAddUser img.entry (UInt64.ofNat sp) (kstackTopOf f) userBase cr3
            with ⟨k3, _ | _⟩
          · refine ⟨fun h => (nomatch h), fun _ => ?_⟩
            rcases hcases with e | ⟨i, -, -, e⟩
            · rw [hy] at e
              cases e
              generalize k2.mem = m at hk2
              subst hk2
              rfl
            · rw [hy] at e
              cases e
          · rw [hy] at hstarted
            obtain ⟨i, h1, h2, h3, h4, h5, h6⟩ := hstarted rfl
            rw [hk2] at h1 h5 h6
            exact ⟨fun _ => ⟨i, h1, h2, h3, h4, h5, h6⟩, fun h => (nomatch h)⟩

theorem userSpawn_answer (k : Kernel M) (p : Prog) :
    ((k.fsDo (lookupRootElf p.name)).userSpawn p.name p.arg (if p.name = [] then none else k.progImage p)).2 =
      k.startable p := by
  unfold startable argvOf
  by_cases h0 : p.name = []
  · simp [h0, userSpawn]
  · rw [if_neg h0]
    simp only [h0, ne_eq, not_false_eq_true, decide_true, Bool.true_and]
    unfold userSpawn
    cases k.progImage p with
    | none => rfl
    | some img =>
      dsimp only [Option.any_some]
      cases (k.fsDo (lookupRootElf p.name)).memAsk (.kalloc page2M) with
      | none => rfl
      | some f =>
        dsimp only [Option.any_some]
        cases ((k.fsDo (lookupRootElf p.name)).memDo (.kalloc page2M)).memAsk .clone with
        | none => rfl
        | some cr3 =>
          dsimp only [Option.any_some]
          rcases (((k.fsDo (lookupRootElf p.name)).memDo (.kalloc page2M)).memDo .clone).loadImage cr3 img
            (p.name :: if p.arg = [] then [] else [p.arg]) with ⟨k2, _ | sp⟩
          · rfl
          · dsimp only
            have hadd := schedAddUser_answer k2 img.entry (UInt64.ofNat sp) f cr3
            rcases hy : k2.schedAddUser img.entry (UInt64.ofNat sp) (kstackTopOf f) userBase cr3
              with ⟨k3, _ | _⟩ <;> rw [hy] at hadd <;> simpa using hadd

/-- Binding a pipe to the new task: one more end. -/
theorem Started.bind {i : Nat} (h : Started k k' i) {j q : Nat} (hj : j < fdMax) (kind : FdKind)
    (hk : kind.isPipe = true) (hq : q < pipeMax) (hu : (k.pipes q).used = true) :
    (k'.schedFdBindPipe j kind q).2 = true ∧ ((k'.schedFdBindPipe j kind q).1.tasks i).state ≠ .dead ∧
      (∀ n, n ≠ i → (k'.schedFdBindPipe j kind q).1.tasks n = k.tasks n) ∧
      (k'.schedFdBindPipe j kind q).1.pipes = Function.update k.pipes q
      (plusRef kind (k.pipes q)) := by
  have hdrop : (k'.dropFd i j).pipes = k.pipes ∧ ((k'.dropFd i j).tasks i).state ≠ .dead ∧
      ∀ n, n ≠ i → (k'.dropFd i j).tasks n = k.tasks n := by
    rcases dropFd_cases k' i j with ⟨-, e⟩ | ⟨-, -, e⟩ | ⟨p, he, -⟩
    · rw [e]
      exact ⟨h.pipes, h.live, h.others⟩
    · rw [e]
      refine ⟨h.pipes, ?_, fun n hn => ?_⟩
      · simp only [setFd, modTask, Function.update_self]
        exact h.live
      · simp only [setFd, modTask, Function.update_of_ne hn]
        exact h.others n hn
    · rw [h.fds j] at he
      cases he
  obtain ⟨d1, d2, d3⟩ := hdrop
  unfold schedFdBindPipe
  rw [h.last, h.pipes]
  dsimp only [Option.elim]
  rw [if_pos ⟨hj, hk, hq, hu⟩]
  refine ⟨rfl, ?_, fun n hn => ?_, ?_⟩
  · simp only [addRef, modPipe, setFd, modTask, Function.update_self]
    exact d2
  · simp only [addRef, modPipe, setFd, modTask, Function.update_of_ne hn]
    exact d3 n hn
  · simp only [addRef, modPipe, setFd, modTask, d1]

/-- A program that is not startable leaves the tasks and the pipes. -/
theorem userRunFds_refused (hs : Shape k) {p : Prog} (h : k.startable p = false)
    (inPipe outPipe : Option Nat) :
    (k.userRunFds p inPipe outPipe).2 = false ∧ (k.userRunFds p inPipe outPipe).1.tasks = k.tasks ∧
      (k.userRunFds p inPipe outPipe).1.pipes = k.pipes ∧ (k.userRunFds p inPipe outPipe).1.mem =
        ((k.fsDo (lookupRootElf p.name)).userSpawn p.name p.arg
          (if p.name = [] then none else k.progImage p)).1.mem := by
  have hs' : Shape (k.fsDo (lookupRootElf p.name)) :=
    (progImage_goes (A := fun _ => True) (r := ⟨none, none, ∅⟩) p.name).shape hs
  have hsame := (userSpawn_spec' hs' p.name p.arg (if p.name = [] then none else k.progImage p)).2
  rw [← userSpawn_answer] at h
  unfold userRunFds
  rcases hx : (k.fsDo (lookupRootElf p.name)).userSpawn p.name p.arg (if p.name = [] then none
    else k.progImage p) with
    ⟨k1, _ | _⟩
  · rw [hx] at hsame
    have e : k1 = { k.fsDo (lookupRootElf p.name) with mem := k1.mem } := hsame rfl
    dsimp only
    rw [hx]
    refine ⟨rfl, ?_, ?_, rfl⟩
    · rw [e]
      rfl
    · rw [e]
      rfl
  · rw [hx] at h
    cases h

/-- A startable one gets a slot and its end of the pipe. -/
theorem userRunFds_starts (hs : Shape k) {p : Prog} (h : k.startable p = true) {q : Nat}
    (hq : q < pipeMax) (hu : (k.pipes q).used = true) (inPipe outPipe : Option Nat) (kind : FdKind)
    (hends : inPipe = none ∧ outPipe = some q ∧ kind = .pipeW ∨ inPipe = some q ∧ outPipe = none ∧
      kind = .pipeR) :
    (k.userRunFds p inPipe outPipe).2 = true ∧ ∃ i, (k.tasks i).state = .dead ∧
      ((k.userRunFds p inPipe outPipe).1.tasks i).state ≠ .dead ∧
      (k.userRunFds p inPipe outPipe).1.pipes = Function.update k.pipes q
      (plusRef kind (k.pipes q)) := by
  have hs' : Shape (k.fsDo (lookupRootElf p.name)) :=
    (progImage_goes (A := fun _ => True) (r := ⟨none, none, ∅⟩) p.name).shape hs
  have hstart := (userSpawn_spec' hs' p.name p.arg (if p.name = [] then none else k.progImage p)).1
  rw [← userSpawn_answer] at h
  unfold userRunFds
  rcases hx : (k.fsDo (lookupRootElf p.name)).userSpawn p.name p.arg (if p.name = [] then none
    else k.progImage p) with
    ⟨k1, _ | _⟩
  · rw [hx] at h
    cases h
  · rw [hx] at hstart
    obtain ⟨i, hi⟩ := hstart rfl
    have hk1 : Started k { k1 with fgSlot := k1.lastAdded } i :=
      ⟨hi.was, hi.live, hi.last, hi.fds, hi.others, hi.pipes⟩
    dsimp only
    rw [hx]
    rcases hends with ⟨rfl, rfl, rfl⟩ | ⟨rfl, rfl, rfl⟩
    · obtain ⟨b1, b2, -, b4⟩ := hk1.bind (show 1 < fdMax by decide) .pipeW rfl hq hu
      exact ⟨b1, i, hi.was, b2, b4⟩
    · obtain ⟨b1, b2, -, b4⟩ := hk1.bind (show 0 < fdMax by decide) .pipeR rfl hq hu
      unfold bindPipeIf
      dsimp only [Option.elim]
      rcases hy : schedFdBindPipe { k1 with fgSlot := k1.lastAdded } 0 .pipeR q with ⟨k2, _ | _⟩
      · rw [hy] at b1
        cases b1
      · rw [hy] at b2 b4
        exact ⟨rfl, i, hi.was, b2, b4⟩

/-- The kernel keeps its frames over a load that fails. -/
theorem userSpawn_kern {k : Kernel Space} (hi : Space.Inv k.mem) (name arg : Name) (img : Option Image)
    (h : (k.userSpawn name arg img).2 = false) :
    Space.Inv (k.userSpawn name arg img).1.mem ∧ k.mem.kern ⊆ (k.userSpawn name arg img).1.mem.kern := by
  have hop : ∀ {m : Space} (op : SpaceOp), op.kernel = false → Space.Inv m →
      Space.Inv (MemSys.step m op).1 ∧ (MemSys.step m op).1.kern = m.kern := fun op hk hm =>
    MemRun.framed (.tail .refl op hk) hm
  revert h
  unfold userSpawn
  cases img with
  | none => exact fun _ => ⟨hi, Finset.Subset.refl _⟩
  | some img =>
    dsimp only
    have hinv1 : Space.Inv (k.memDo (.kalloc page2M)).mem := (Space.step_ok hi (.kalloc page2M)).inv
    have hkern1 : k.mem.kern ⊆ (k.memDo (.kalloc page2M)).mem.kern := by
      cases hf : (k.mem.step (.kalloc page2M)).2 with
      | none => exact (Space.kalloc_none hf).symm ▸ Finset.Subset.refl _
      | some f => exact (Space.kalloc_kern hi hf).2.symm ▸ Finset.subset_insert _ _
    cases k.memAsk (.kalloc page2M) with
    | none => exact fun _ => ⟨hinv1, hkern1⟩
    | some f =>
      dsimp only
      obtain ⟨hinv2, hkern2⟩ := hop .clone rfl hinv1
      cases (k.memDo (.kalloc page2M)).memAsk .clone with
      | none => exact fun _ => ⟨hinv2, hkern2 ▸ hkern1⟩
      | some cr3 =>
        dsimp only
        have hload := (loadImage_mem (k := (k.memDo (.kalloc page2M)).memDo .clone) cr3 img
          (name :: if arg = [] then [] else [arg])).run.framed hinv2
        rcases hx : ((k.memDo (.kalloc page2M)).memDo .clone).loadImage cr3 img
          (name :: if arg = [] then [] else [arg]) with ⟨k2, _ | sp⟩
        · rw [hx] at hload
          obtain ⟨hinv3, hkern3⟩ := hload
          obtain ⟨hinv4, hkern4⟩ := hop (.release cr3) rfl hinv3
          refine fun _ => ⟨hinv4, ?_⟩
          rw [show (k2.memDo (.release cr3)).mem.kern = k2.mem.kern from hkern4, hkern3]
          exact hkern2 ▸ hkern1
        · rw [hx] at hload
          obtain ⟨hinv3, hkern3⟩ := hload
          dsimp only
          rcases schedAddUser_cases k2 img.entry (UInt64.ofNat sp) (kstackTopOf f) userBase cr3
            with e | ⟨i, -, -, e⟩
          · rw [e]
            obtain ⟨hinv4, hkern4⟩ := hop (.release cr3) rfl hinv3
            refine fun _ => ⟨hinv4, ?_⟩
            rw [show (k2.memDo (.release cr3)).mem.kern = k2.mem.kern from hkern4, hkern3]
            exact hkern2 ▸ hkern1
          · rw [e]
            exact fun h => (nomatch h)

/-- The state once the pipe is there, and the pipe. -/
theorem allocPipe_new {p : Nat} (h : k.allocPipe.2 = some p) :
    p < pipeMax ∧ (k.allocPipe.1.pipes p).used = true ∧
    (k.allocPipe.1.pipes p).rrefs = 0 ∧ (k.allocPipe.1.pipes p).wrefs = 0 ∧ k.allocPipe.1.tasks = k.tasks ∧
    (k.pipes p).used = false ∧ k.memAsk (.kalloc pipeMinPhys) = some (k.allocPipe.1.pipes p).phys ∧
    k.allocPipe.1.mem = (k.memDo (.kalloc pipeMinPhys)).mem := by
  rcases allocPipe_cases k with e | ⟨q, phys, hq, hu, hf, e⟩ <;> rw [e] at h ⊢
  · cases h
  · cases h
    simp only [modPipe, Function.update_self, Pipe.unused, true_and]
    exact ⟨hq, rfl, hu, hf, trivial⟩

/-- The call, once the pipe is there. -/
theorem userRunPipeline_pipe {left right : Prog} {p : Nat} (h : k.allocPipe.2 = some p) :
    k.userRunPipeline left right =
      let first := k.allocPipe.1.userRunFds left none (some p)
      let second := first.1.userRunFds right (some p) none
      if first.2 then
        if second.2 then (second.1, true) else (second.1.schedPipeUnused p, false)
      else (first.1.schedPipeUnused p, false) := by
  unfold userRunPipeline
  rcases hx : k.allocPipe with ⟨k1, q⟩
  rw [hx] at h
  dsimp only at h
  subst h
  dsimp only
  rcases k1.userRunFds left none (some p) with ⟨k2, _ | _⟩
  · rfl
  · dsimp only
    rcases k2.userRunFds right (some p) none with ⟨k3, _ | _⟩ <;> rfl

theorem allocPipe_shape (hs : Shape k) {p : Nat} (h : k.allocPipe.2 = some p) : Shape k.allocPipe.1 :=
  (Leads.one (A := fun _ => True) (.alloc (g := ⟨none, none, ∅⟩) rfl h)).shape hs

/-- The left program and its write end. -/
theorem left_starts (hs : Shape k) {left : Prog} {p : Nat} (h : k.allocPipe.2 = some p)
    (hleft : k.allocPipe.1.startable left = true) :
    let first := k.allocPipe.1.userRunFds left none (some p)
    first.2 = true ∧ Shape first.1 ∧ (first.1.pipes p).used = true ∧ (first.1.pipes p).wrefs = 1 ∧
      ∃ i, (k.tasks i).state = .dead ∧ (first.1.tasks i).state ≠ .dead := by
  obtain ⟨hp, hu, -, hw0, htasks, -⟩ := allocPipe_new h
  have hs1 := allocPipe_shape hs h
  obtain ⟨l1, i, l2, l3, l4⟩ := userRunFds_starts hs1 hleft hp hu none (some p) .pipeW
    (.inl ⟨rfl, rfl, rfl⟩)
  have hq := congrFun l4 p
  rw [Function.update_self] at hq
  obtain ⟨c1, c2, c3⟩ := plusRef_counts .pipeW (k.allocPipe.1.pipes p)
  rw [← hq, hw0] at c3
  rw [← hq, hu] at c1
  exact ⟨l1, (userRunFds_reaches (A := fun _ => True) (r := ⟨none, none, ∅⟩) left none (some p)
    fun _ => trivial).shape hs1, c1, c3, i, htasks ▸ l2, l3⟩

theorem both_start (hs : Shape k) {left right : Prog} {p : Nat} (h : k.allocPipe.2 = some p)
    (hleft : k.allocPipe.1.startable left = true)
    (hright : (k.allocPipe.1.userRunFds left none (some p)).1.startable right = true) :
    (k.userRunPipeline left right).2 = true := by
  obtain ⟨l1, hs2, c1, -⟩ := left_starts hs h hleft
  obtain ⟨r1, -⟩ := userRunFds_starts hs2 hright (allocPipe_new h).1 c1 (some p) none .pipeR
    (.inr ⟨rfl, rfl, rfl⟩)
  rw [userRunPipeline_pipe h]
  dsimp only
  rw [if_pos l1, if_pos r1]

/-- The left program is there and keeps the pipe. -/
theorem right_refused {k : Kernel Space} (hs : Shape k) {left right : Prog} {p : Nat}
    (h : k.allocPipe.2 = some p) (hleft : k.allocPipe.1.startable left = true)
    (hright : (k.allocPipe.1.userRunFds left none (some p)).1.startable right = false) :
    ¬ k.PipelineAtomic left right := by
  obtain ⟨l1, hs2, -, c3, i, l2, l3⟩ := left_starts hs h hleft
  obtain ⟨r1, r2, r3, -⟩ := userRunFds_refused hs2 hright (some p) none
  unfold PipelineAtomic
  rw [userRunPipeline_pipe h]
  dsimp only at l1 l3 c3 ⊢
  rw [if_pos l1, if_neg (by rw [r1]; exact Bool.false_ne_true)]
  intro hat
  have hlive := (hat rfl).1 i
  dsimp only at hlive
  -- the pipe has a writer, so `sched_pipe_unused` leaves all as it is
  unfold schedPipeUnused at hlive
  rw [if_neg (by rw [r3, c3]; simp), r2] at hlive
  exact hlive l3 l2

/-- Nothing has a reference on the pipe, and its page goes back. -/
theorem left_refused {k : Kernel Space} (hs : Shape k) (hi : Space.Inv k.mem) {left right : Prog} {p : Nat}
    (h : k.allocPipe.2 = some p) (hleft : k.allocPipe.1.startable left = false) :
    k.PipelineAtomic left right := by
  obtain ⟨hp, hu, hr0, hw0, htasks, -, hphys, hmem⟩ := allocPipe_new h
  obtain ⟨l1, l2, l3, l4⟩ := userRunFds_refused (allocPipe_shape hs h) hleft none (some p)
  have hi1 : Space.Inv k.allocPipe.1.mem := by
    rw [hmem]
    exact (Space.step_ok hi (.kalloc pipeMinPhys)).inv
  have hin : (k.allocPipe.1.pipes p).phys ∈ k.allocPipe.1.mem.kern := by
    rw [hmem]
    exact (Space.kalloc_kern hi hphys).2.symm ▸ Finset.mem_insert_self _ _
  have hspawn := userSpawn_answer k.allocPipe.1 left
  rw [hleft] at hspawn
  obtain ⟨hi2, hkeep⟩ := userSpawn_kern (k := k.allocPipe.1.fsDo (lookupRootElf left.name)) hi1 left.name
    left.arg _ hspawn
  rw [← l4] at hi2 hkeep
  have hin2 := hkeep hin
  unfold PipelineAtomic
  rw [userRunPipeline_pipe h]
  dsimp only
  rw [if_neg (by rw [l1]; exact Bool.false_ne_true)]
  have hfree : (k.allocPipe.1.userRunFds left none (some p)).1.schedPipeUnused p =
      (k.allocPipe.1.userRunFds left none (some p)).1.freePipe p := by
    unfold schedPipeUnused
    rw [l3, if_pos ⟨hp, hu, hr0, hw0⟩]
  rw [hfree]
  refine fun _ => ⟨fun j hj => ?_, fun q hq => ?_⟩
  · rw [freePipe_tasks, l2, htasks] at hj
    exact hj
  · cases h.symm.trans hq
    refine ⟨?_, ?_⟩
    · unfold freePipe
      simp only [modPipe, Function.update_self]
      rfl
    · rw [freePipe_frame' _ p (by rw [l3]; exact Space.kern_ne_zero hi2 hin2), l3]
      exact Space.kfree_free hi2 hin2

/-- **A failed pipeline starts nothing** exactly when no pipe can be had, the left program cannot be
started, or the right one can be started after it. -/
theorem pipeline_atomic {m : Space} (hb : m.Boot) {k : Kernel Space} (h : Reachable m k) (left right : Prog) :
    k.PipelineAtomic left right ↔ ∀ p, k.allocPipe.2 = some p → k.allocPipe.1.startable left = true →
      (k.allocPipe.1.userRunFds left none (some p)).1.startable right = true := by
  obtain ⟨L, hframed⟩ := h.framed hb
  cases halloc : k.allocPipe.2 with
  | none =>
    have hk : k.allocPipe = (k, none) := by
      rcases allocPipe_cases k with e | ⟨q, phys, -, -, -, e⟩
      · exact e
      · rw [e] at halloc
        cases halloc
    refine iff_of_true (fun _ => ⟨fun i hi => ?_, fun p hp => ?_⟩) fun p hp => (nomatch hp)
    · rw [userRunPipeline, hk] at hi
      exact hi
    · rw [halloc] at hp
      cases hp
  | some p =>
    simp only [Option.some.injEq, forall_eq']
    cases hleft : k.allocPipe.1.startable left with
    | false => exact iff_of_true (left_refused h.shape hframed.inv halloc hleft) fun h => (nomatch h)
    | true =>
      simp only [true_implies]
      cases hright : (k.allocPipe.1.userRunFds left none (some p)).1.startable right with
      | false =>
        exact iff_of_false (right_refused h.shape halloc hleft hright) Bool.false_ne_true
      | true =>
        refine iff_of_true (fun hno => ?_) rfl
        rw [both_start h.shape halloc hleft hright] at hno
        cases hno

/-- A name that is not on the small volume. -/
def noProg : Prog := ⟨[66], [], fun _ _ => none⟩

theorem pipeline_atomic_noLeft : (twoTasks smallSpace).PipelineAtomic noProg smallProg :=
  (pipeline_atomic smallSpace_boot (twoTasks_reachable smallSpace) noProg smallProg).2 fun _ _ h =>
    absurd h (by decide +kernel)

/-- The left program runs on when the right one is not found. -/
theorem left_runs_on : ¬(twoTasks smallSpace).PipelineAtomic smallProg noProg := by
  intro h
  have hrun : ((twoTasks smallSpace).userRunPipeline smallProg noProg).2 = false ∧
      (((twoTasks smallSpace).userRunPipeline smallProg noProg).1.tasks 2).state = .ready ∧
      ((twoTasks smallSpace).tasks 2).state = .dead := by decide +kernel
  exact (h hrun.1).1 2 (by rw [hrun.2.1]; nofun) hrun.2.2

end Kernel

end VampireOS
