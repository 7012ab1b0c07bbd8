import VampireOS.Sched.Isolation

/-!
# A task that does not run keeps its memory (user.c:1176-1774, idt.c:47-100)

| the result | says |
| --- | --- |
| `tables_apart` | in every reachable state every living task has tables of its own |
| `untouched` | over any run, a task that does not get the processor keeps its tables and its memory |
| `frames_apart` | what one task can write no other task maps, and none maps the kernel's frames |
-/

namespace VampireOS

open Lib

namespace Space

variable {s : Space} {c : Nat}

/-- A new PML4: nobody's memory changes. -/
theorem clone_child (hi : s.Inv) (hc : (s.step .clone).2 = some c) :
    c ∉ s.roots ∧ (s.step .clone).1.Inv ∧ (s.step .clone).1.roots = insert c s.roots ∧
      ∀ r ∈ s.roots, (s.step .clone).1.mems r = s.mems r := by
  rw [step] at hc ⊢
  rcases clonePml4_spec hi with e | ⟨p, vm', e, a1, a2, a3, -⟩ <;> rw [e] at hc ⊢
  · cases hc
  · cases hc
    exact ⟨a1, a2, rfl, fun r hr => a3.taskMem hr⟩

theorem clone_none (hi : s.Inv) (hc : (s.step .clone).2 = none) : (s.step .clone).1 = s := by
  rw [step] at hc ⊢
  rcases clonePml4_spec hi with e | ⟨p, vm', e, -⟩ <;> rw [e] at hc ⊢
  cases hc

end Space

namespace Kernel

variable {k k0 k' : Kernel Space} {P : Set Nat} {c d i : Nat}

/-! ## New tasks -/

/-- Tables that are no task's. -/
structure Spare (c : Nat) (k : Kernel Space) : Prop where
  root : c ∈ k.mem.roots
  none : ∀ i, (k.tasks i).cr3 ≠ c

theorem WorksOn.spare (h : WorksOn d k k') (hc : Spare c k) : Spare c k' :=
  ⟨h.roots hc.root, fun i => by rw [(h.task i).1]; exact hc.none i⟩

theorem Spare.away (hc : Spare c k) : Away c P k := fun i _ _ => hc.none i

/-- They may be given back. -/
theorem Safe.release (hs : Safe k0 P k) (hc : Spare c k) : Safe k0 P (k.memDo (.release c)) := by
  have hspares := Space.Spares.release (s := k.mem) (d := c)
  exact hs.remap (hspares.inv hs.inv) fun i hi => hspares.keeps hs.inv _ hi (hc.none i)

theorem Safe.child (hs : Safe k0 P k) {s : Space} (hi : s.Inv) (hc : c ∉ k.mem.roots)
    (hroots : s.roots = insert c k.mem.roots) (hmems : ∀ r ∈ k.mem.roots, s.mems r = k.mem.mems r) :
    Safe k0 P { k with mem := s } ∧ Spare c { k with mem := s } := by
  refine ⟨hs.remap hi fun i hr => ⟨?_, hmems _ hr⟩, ?_, fun i he => hc ?_⟩
  · rw [hroots]
    exact Finset.mem_insert_of_mem hr
  · simp [hroots]
  · change (k.tasks i).cr3 = c at he
    have h0 : (k.tasks i).cr3 ≠ 0 := by
      rw [he]
      exact (hi.ne_boot (hroots ▸ Finset.mem_insert_self c _)).1
    rw [← he]
    exact hs.root i h0

theorem takeSlot_spares (k : Kernel Space) (i : Nat) :
    Space.Spares (k.tasks i).cr3 k.mem (k.takeSlot i).mem := by
  by_cases hi : i < k.taskCount
  · exact (takeSlot_frame hi).mem
  · unfold takeSlot
    rw [if_neg hi]
    exact .refl

/-- **A new task** on spare tables: the slot's last task was dead. -/
theorem Safe.newTask (hs : Safe k0 P k) (hsh : Shape k) (hi : k.freeSlot = some i) {t : Task}
    (hc : Spare t.cr3 k) (parent : Option Nat) :
    Safe k0 P ((k.takeSlot i).spawnTask i parent t) := by
  have htaken := takeSlot_taken hsh hi
  have hspares := takeSlot_spares k i
  have hdead : (k.tasks i).state = .dead := by
    rcases freeSlot_some hi with ⟨-, hr⟩ | ⟨rfl, -⟩
    · exact slotReusable_dead hr
    · exact hs.high _ le_rfl
  have hself : ((k.takeSlot i).spawnTask i parent t).tasks i = _ := Function.update_self i _ _
  have hother : ∀ n, n ≠ i → ((k.takeSlot i).spawnTask i parent t).tasks n = k.tasks n :=
    fun n hn => (Function.update_of_ne hn _ _).trans (htaken.other n hn)
  have hcr3 : (((k.takeSlot i).spawnTask i parent t).tasks i).cr3 = t.cr3 := by rw [hself]
  have hkeeps : ∀ n, n ≠ i → (k.tasks n).cr3 ≠ 0 → (k.tasks n).cr3 ∈ (k.takeSlot i).mem.roots ∧
      (k.takeSlot i).mem.mems (k.tasks n).cr3 = k.mem.mems (k.tasks n).cr3 := fun n hn h0 =>
    hspares.keeps hs.inv _ (hs.root n h0) fun he => hn (hs.apart n i he h0)
  have hroot := (hspares.keeps hs.inv _ hc.root (hc.none i).symm).1
  refine ⟨⟨hspares.inv hs.inv, fun n hl => ?_, fun n h0 => ?_, fun n j he h0 => ?_, fun n hn => ?_,
    fun hm => ?_⟩, ?_, fun n hn hst => ?_⟩
  · by_cases hni : n = i
    · subst hni
      rw [hcr3]
      exact (hs.inv.ne_boot hc.root).1
    · rw [hother n hni] at hl ⊢
      exact hs.live n hl
  · by_cases hni : n = i
    · subst hni
      rw [hcr3]
      exact hroot
    · rw [hother n hni] at h0 ⊢
      exact (hkeeps n hni h0).1
  · by_cases hni : n = i <;> by_cases hji : j = i
    · rw [hni, hji]
    · subst hni
      rw [hcr3, hother j hji] at he
      exact absurd he.symm (hc.none j)
    · subst hji
      rw [hcr3, hother n hni] at he
      exact absurd he (hc.none n)
    · rw [hother n hni, hother j hji] at he
      rw [hother n hni] at h0
      exact hs.apart n j he h0
  · have hcount := takeSlot_count k i
    have hslot := htaken.slot
    change (k.takeSlot i).taskCount ≤ n at hn
    rw [hother n (by omega)]
    exact hs.high n (by omega)
  · -- whoever runs is alive, and so not in the slot
    have hm0 : k.mode = .user := htaken.mode.symm.trans hm
    have hcount : k.taskCount ≠ 0 := by
      have := (hsh.run hm0).1
      omega
    have hcur : ((k.takeSlot i).spawnTask i parent t).current = k.current := htaken.current hcount
    have hne : k.current ≠ i := fun he => hsh.current_live hm0 (he ▸ hdead)
    have hloaded : ((k.takeSlot i).spawnTask i parent t).cr3 = k.cr3 := takeSlot_cr3 k i
    rw [hcur, hother _ hne, hloaded]
    exact hs.loaded hm0
  · change k0.hist.born ≤ (k.takeSlot i).hist.born + 1
    rw [htaken.hist]
    exact hs.born.trans (Nat.le_succ _)
  · have huid := hst.uid
    change Function.update (k.takeSlot i).hist.uid i (k.takeSlot i).hist.born n = k0.hist.uid n at huid
    rw [htaken.hist] at huid
    by_cases hni : n = i
    · -- the number of a new task is new
      subst hni
      rw [Function.update_self] at huid
      have hborn := hs.born
      have hold := hst.old
      omega
    · rw [Function.update_of_ne hni] at huid
      have hl := hst.live
      rw [hother n hni] at hl
      have hold := hs.kept n hn ⟨hl, huid, hst.old⟩
      refine ⟨hold.live, ?_, ?_⟩
      · rw [hother n hni]
        exact hold.cr3
      · rw [hother n hni]
        exact (hkeeps n hni (hs.live n hl)).2.trans hold.mem

theorem Safe.schedAddUser (hs : Safe k0 P k) (hsh : Shape k) {cr3 : Nat} (hc : Spare cr3 k)
    (rip rsp : UInt64) (top base : Nat) :
    Safe k0 P (k.schedAddUser rip rsp top base cr3).1 := by
  rcases schedAddUser_cases k rip rsp top base cr3 with e | ⟨i, hi, -, e⟩ <;> rw [e]
  · exact hs
  · have hnew := hs.newTask hsh hi (t := k.userTask rip rsp top base cr3) hc none
    have hfds : ∀ k1 : Kernel Space, WorksOn 0 k1 ((k1.clearFds i).bindConsoleStd i) :=
      fun k1 => (WorksOn.clearFds i).trans (.bindConsoleStd i)
    exact (hfds _).quiet hnew

theorem Safe.schedFork (hs : Safe k0 P k) (hsh : Shape k) (hc : Spare c k) (top : Nat) :
    Safe k0 P (k.schedFork top c).1 := by
  unfold Kernel.schedFork
  simp only
  split
  · exact hs
  · cases hi : k.freeSlot with
    | none => exact hs
    | some i =>
      simp only [Option.elim]
      refine WorksOn.quiet ((WorksOn.clearFds i).trans (.inheritFds i _)) ?_
      exact hs.newTask hsh hi hc _

theorem Safe.userFork (hs : Safe k0 P k) (hsh : Shape k) : Safe k0 P k.userFork.1 := by
  unfold Kernel.userFork
  split
  · exact hs
  · rename_i hboot
    have hpage : WorksOn 0 k (k.memDo (.kalloc page2M)) := .kalloc page2M
    have hs1 := hpage.quiet hs
    have hsh1 : Shape (k.memDo (.kalloc page2M)) := hsh.same rfl rfl rfl rfl rfl
    split
    · exact hs1
    · rename_i kstack _
      have hboot1 : (k.memDo (.kalloc page2M)).currentCr3 ≠ pml4Phys := hboot
      simp only
      generalize k.memDo (.kalloc page2M) = k1 at hs1 hsh1 hboot1
      have hroot : k1.currentCr3 ∈ k1.mem.roots := by
        unfold Kernel.currentCr3 at hboot1 ⊢
        split
        · rename_i h0
          rw [if_pos h0] at hboot1
          exact absurd rfl hboot1
        · rename_i h0
          exact hs1.root _ (not_or.1 h0).2
      have hfree : ∀ {k2 : Kernel Space}, Safe k0 P k2 → Safe k0 P (k2.memDo (.kfree kstack)) :=
        fun h => (WorksOn.kfree kstack).quiet h
      cases hf : k1.memAsk (.fork k1.currentCr3) with
      | none =>
        obtain ⟨a1, a2, a3⟩ := fork_refused hs1.inv hroot hf
        exact hfree (hs1.remap a1 fun i hi => ⟨a2.symm.subset hi, a3 _ hi⟩)
      | some c =>
        obtain ⟨a1, a2, a3, -, a5⟩ := fork_child hs1.inv hroot hf
        obtain ⟨hs2, hc⟩ := hs1.child a2 a1 a3 a5
        have hsh2 : Shape (k1.memDo (.fork k1.currentCr3)) := hsh1.same rfl rfl rfl rfl rfl
        have hfork := Safe.schedFork (k := k1.memDo (.fork k1.currentCr3)) hs2 hsh2 hc (kstackTopOf kstack)
        simp only
        rcases hx : (k1.memDo (.fork k1.currentCr3)).schedFork (kstackTopOf kstack) c
          with ⟨k2, _ | j⟩ <;> rw [hx] at hfork
        · have hk2 := schedFork_none (congrArg Prod.snd hx)
          rw [hx] at hk2
          simp only at hk2 ⊢
          rw [hk2]
          exact hfree (Safe.release (k := k1.memDo (.fork k1.currentCr3)) hs2 hc)
        · exact hfork

theorem Safe.userSpawn (hs : Safe k0 P k) (hsh : Shape k) (name arg : Name) (img : Option Image) :
    Safe k0 P (k.userSpawn name arg img).1 := by
  unfold Kernel.userSpawn
  cases img with
  | none => exact hs
  | some img =>
    have hpage : WorksOn 0 k (k.memDo (.kalloc page2M)) := .kalloc page2M
    have hs1 := hpage.quiet hs
    have hsh1 : Shape (k.memDo (.kalloc page2M)) := hsh.same rfl rfl rfl rfl rfl
    simp only
    split
    · exact hs1
    · rename_i kstack _
      generalize k.memDo (.kalloc page2M) = k1 at hs1 hsh1
      cases hf : k1.memAsk .clone with
      | none =>
        have hsame := Space.clone_none hs1.inv hf
        exact hs1.alike hsame rfl ⟨rfl, rfl⟩ rfl rfl rfl rfl
      | some c =>
        obtain ⟨a1, a2, a3, a4⟩ := Space.clone_child hs1.inv hf
        obtain ⟨hs2, hc⟩ := hs1.child a2 a1 a3 a4
        have hsh2 : Shape (k1.memDo .clone) := hsh1.same rfl rfl rfl rfl rfl
        have hs2 : Safe k0 P (k1.memDo .clone) := hs2
        have hc : Spare c (k1.memDo .clone) := hc
        simp only
        generalize k1.memDo .clone = k2 at hs2 hc hsh2
        have hload : WorksOn c k2 _ := .loadImage img (name :: if arg = [] then [] else [arg])
        have hmem := loadImage_mem (k := k2) c img (name :: if arg = [] then [] else [arg])
        rcases hx : k2.loadImage c img (name :: if arg = [] then [] else [arg])
          with ⟨k3, _ | sp⟩ <;> rw [hx] at hload hmem <;> simp only
        · exact (hload.safe hs2 hc.away).release (hload.spare hc)
        · have hmem : OnlyMem k2 k3 := hmem
          have hload : WorksOn c k2 k3 := hload
          have hs3 := hload.safe hs2 hc.away
          have hsh3 : Shape k3 := by
            rw [hmem.eq]
            exact hsh2.same rfl rfl rfl rfl rfl
          have hadd := hs3.schedAddUser hsh3 (hload.spare hc) img.entry (UInt64.ofNat sp)
            (kstackTopOf kstack) userBase
          rcases hy : k3.schedAddUser img.entry (UInt64.ofNat sp) (kstackTopOf kstack) userBase c
            with ⟨k4, _ | _⟩ <;> rw [hy] at hadd
          · -- no slot was taken
            have hk4 : k4 = k3 := by
              rcases schedAddUser_cases k3 img.entry (UInt64.ofNat sp) (kstackTopOf kstack) userBase
                c with e | ⟨i, -, -, e⟩ <;> rw [e] at hy <;> cases hy
              rfl
            subst hk4
            exact hs3.release (hload.spare hc)
          · exact hadd

/-! ## System calls -/

/-- The kernel serves a task that lives and is none of `P`. -/
structure Serves (k0 : Kernel Space) (P : Set Nat) (k : Kernel Space) : Prop where
  safe : Safe k0 P k
  out : k.current ∉ P
  alive : (k.tasks k.current).state ≠ .dead

theorem Serves.works (h : Serves k0 P k) (hw : WorksOn k.currentCr3 k k') : Safe k0 P k' :=
  hw.safe h.safe (h.safe.away_current h.out)

theorem Serves.goes (h : Serves k0 P k) (hw : WorksOn k.currentCr3 k k') (hk : Kept k k') :
    Serves k0 P k' := by
  refine ⟨h.works hw, ?_, ?_⟩ <;> rw [hw.current]
  · exact h.out
  · exact (hk.live _ h.alive).1

theorem Serves.deliver (h : Serves k0 P k) : Safe k0 P k.deliverPending := h.safe.deliver h.out

theorem Serves.schedBlockPipe (h : Serves k0 P k) (p : Option Nat) : Safe k0 P (k.schedBlockPipe p) := by
  unfold Kernel.schedBlockPipe
  split
  · exact h.deliver
  · exact h.safe.block h.alive .pipe fun _ => rfl

theorem Serves.schedBlockKbd (h : Serves k0 P k) : Safe k0 P k.schedBlockKbd := by
  unfold Kernel.schedBlockKbd
  split
  · exact h.deliver
  · split
    · exact h.safe
    · exact h.safe.block h.alive .kbd fun _ => rfl

theorem Serves.schedSleep (h : Serves k0 P k) (n : UInt64) : Safe k0 P (k.schedSleep n) := by
  unfold Kernel.schedSleep
  split
  · exact h.deliver
  · split
    · exact h.safe.switchToNext
    · exact h.safe.block h.alive .sleep fun _ => rfl

theorem Serves.schedWait (h : Serves k0 P k) : Safe k0 P k.schedWait := by
  have hasks : Serves k0 P k.asks := h.goes (.same rfl rfl ⟨rfl, rfl⟩ rfl rfl rfl rfl)
    (.same rfl rfl rfl rfl rfl)
  unfold Kernel.schedWait
  split
  · exact hasks.deliver
  · simp only
    split
    · exact hasks.works (.setRax _)
    · split
      · rename_i child _
        have hreap : WorksOn k.asks.currentCr3 k.asks (k.asks.reapChild k.current child) := by
          have hmark : WorksOn k.asks.currentCr3 k.asks
              (k.asks.modTask child fun t => { t with reaped := true }) := .modTask child ⟨rfl, id⟩
          exact hmark.trans (.same rfl rfl ⟨rfl, rfl⟩ rfl rfl rfl rfl)
        exact hasks.works (hreap.trans (.setRax _))
      · split
        · exact hasks.safe.block hasks.alive .wait fun _ => rfl
        · exact hasks.works (.setRax _)

theorem Serves.writePipe (h : Serves k0 P k) (fd : Int) (want : Nat) : Safe k0 P (k.writePipe fd want) := by
  unfold Kernel.writePipe
  split
  · exact h.works (.setRax _)
  · split
    · exact h.works (.setRax _)
    · rename_i src _
      have hw := WorksOn.schedPipeWrite (d := k.currentCr3) (k := k) fd src
      have hk := Kept.schedPipeWrite k fd src
      rcases hx : k.schedPipeWrite fd src with ⟨k1, n | _ | _⟩ <;> rw [hx] at hw hk
      · exact h.works (hw.trans (.setAnswer _))
      · exact h.works (hw.trans (.setRax _))
      · exact (h.goes (hw.trans .rewind) (hk.trans (.rewind _))).schedBlockPipe _

theorem Serves.readPipe (h : Serves k0 P k) (fd : Int) (want : Nat) : Safe k0 P (k.readPipe fd want) := by
  unfold Kernel.readPipe
  split
  · exact h.works (.setRax _)
  · have hw := WorksOn.schedPipeRead (d := k.currentCr3) (k := k) fd want
    have hk := Kept.schedPipeRead k fd want
    rcases hx : k.schedPipeRead fd want with ⟨k1, out | _ | _⟩ <;> rw [hx] at hw hk
    · exact h.works (hw.trans (.answerBytes hw.currentCr3 _ _))
    · exact h.works (hw.trans (.setRax _))
    · exact (h.goes (hw.trans .rewind) (hk.trans (.rewind _))).schedBlockPipe _

theorem Serves.readConsole (h : Serves k0 P k) (want : Nat) : Safe k0 P (k.readConsole want) := by
  unfold Kernel.readConsole
  split
  · exact h.works (.setRax _)
  · split
    · exact (h.goes .rewind (.rewind _)).schedBlockKbd
    · rename_i line _
      have htake : WorksOn k.currentCr3 k { k with stdin := none } := .same rfl rfl ⟨rfl, rfl⟩ rfl rfl rfl rfl
      exact h.works (htake.trans (.answerBytes htake.currentCr3 _ _))

theorem Serves.sysWrite (h : Serves k0 P k) : Safe k0 P k.sysWrite := by
  unfold Kernel.sysWrite
  split
  · simp only
    split
    · exact h.writePipe _ _
    · exact h.works (.setRax _)
    · cases k.schedFdPath (toInt k.frame.rdi) with
      | none => exact h.works (.setRax _)
      | some path => exact h.works (.writeFile _ path _)
    · exact h.works (.writeConsole _)
    · exact h.works (.setRax _)
    · split
      · exact h.works (.writeConsole _)
      · exact h.works (.setRax _)
  · split
    · exact h.safe
    · exact h.works (WorksOn.setCr3.trans .restoreCr3)

theorem Serves.sysRead (h : Serves k0 P k) : Safe k0 P k.sysRead := by
  unfold Kernel.sysRead
  simp only
  split
  · exact h.readPipe _ _
  · exact h.works (.setRax _)
  · exact h.readConsole _
  · cases k.schedFdPath (toInt k.frame.rdi) with
    | none => exact h.works (.setRax _)
    | some path => exact h.works (.readFile rfl _ path _)
  · exact h.works (.setRax _)
  · split
    · exact h.readConsole _
    · exact h.works (.setRax _)

theorem Serves.exit (h : Serves k0 P k) : Safe k0 P k.schedExit := (h.safe.mono Set.sdiff_subset).schedExit

theorem Serves.sysExec (h : Serves k0 P k) (io : Io) : Safe k0 P (k.sysExec io) := by
  unfold Kernel.sysExec
  split
  · exact h.works (.setRax _)
  · rename_i name _
    split
    · exact h.works (.setRax _)
    · simp only
      generalize ((k.setCr3 pml4Phys).fsAsk _).bind _ = img
      have hload : ∀ m : FsM (Bytes × Nat), WorksOn k.currentCr3 k
          (((k.setCr3 pml4Phys).fsDo m).userExecCurrent name img).1 := by
        intro m
        refine (WorksOn.setCr3.trans (.fsDo m)).trans (.userExecCurrent ?_ name img)
        rfl
      specialize hload ((k.setCr3 pml4Phys).inCwd (lookupRootElf name))
      split <;> rename_i k1 hx <;> rw [hx] at hload
      · exact h.works hload
      · exact h.works ((hload.trans (.setRax _)).trans .restoreCr3)
      · refine Safe.schedExit (Safe.mono (h.works (hload.trans ?_)) Set.sdiff_subset)
        exact .same rfl rfl ⟨rfl, rfl⟩ rfl rfl rfl rfl

theorem Safe.restore (hs : Safe k0 P k) : Safe k0 P k.restoreCr3 := WorksOn.quiet .restoreCr3 hs

/-- A posted signal may give the processor away, to anybody. -/
theorem Safe.signalAt (hs : Safe k0 P k) (pid signo : Int) (code : UInt8) :
    Safe k0 P (k.signalAt pid signo code).1 := by
  unfold Kernel.signalAt
  split
  · exact hs
  · simp only
    split
    · exact hs
    · split
      · exact (hs.mono Set.sdiff_subset).killTask code
      · have hpost : WorksOn 0 k (k.modTask pid.toNat fun t =>
            wakeBlocked { t with pending := t.pending ||| sigBit signo, exitCode := code }) := by
          apply WorksOn.modTask
          unfold wakeBlocked
          split
          · rename_i hd hw
            exact ⟨rfl, fun h => absurd h ‹¬(k.tasks pid.toNat).state = .dead›⟩
          · exact ⟨rfl, id⟩
        split
        · exact ((hpost.trans .saveTask).quiet hs).switchTo _
        · exact hpost.quiet hs

theorem Serves.lateSyscall (h : Serves k0 P k) (hsh : Shape k) (io : Io) : Safe k0 P (k.lateSyscall io) := by
  have hd : k.currentCr3 = k.currentCr3 := rfl
  have hmunmap : ∀ base va len, WorksOn k.currentCr3 k (k.memDo (.munmap k.currentCr3 base va len)) :=
    fun _ _ _ => .memDo rfl (fun e => by cases e)
  have hmprotect : ∀ va len prot, WorksOn k.currentCr3 k (k.memDo (.mprotect k.currentCr3 va len prot)) :=
    fun _ _ _ => .memDo rfl (fun e => by cases e)
  unfold Kernel.lateSyscall
  split
  · exact h.exit
  · exact h.safe.switchToNext.restore
  · exact (h.schedSleep _).restore
  · exact h.schedWait.restore
  · exact h.works (((WorksOn.schedFdClose _).trans (.setRax _)).trans .restoreCr3)
  · exact h.works (((WorksOn.userBrk hd _).trans (.setAnswer _)).trans .restoreCr3)
  · exact (WorksOn.quiet (.setAnswer _) (h.safe.userFork hsh)).restore
  · exact h.works (((WorksOn.schedFdDup2 _ _).trans (.setAnswer _)).trans .restoreCr3)
  · split
    · exact h.works ((WorksOn.setRax _).trans .restoreCr3)
    · exact h.works (((WorksOn.schedFdLseek _ _).trans (.setAnswer _)).trans .restoreCr3)
  · exact (WorksOn.quiet (.setRax _) (h.safe.signalAt _ _ _)).restore
  · exact h.works (((WorksOn.userMmap hd _ _ _).trans (.setAnswer _)).trans .restoreCr3)
  · exact h.works ((WorksOn.setAnswer _).trans .restoreCr3)
  · exact h.works (((WorksOn.fsDo _).trans (.setRax _)).trans .restoreCr3)
  · exact h.works (((hmunmap _ _ _).trans (.setRax _)).trans .restoreCr3)
  · exact h.works (.sysFbinfo hd io)
  · exact h.works ((WorksOn.setRax _).trans .restoreCr3)
  · exact h.works ((WorksOn.setRax _).trans .restoreCr3)
  · exact h.works (WorksOn.schedSigaction.trans .restoreCr3)
  · exact h.works (((hmprotect _ _ _).trans (.setRax _)).trans .restoreCr3)
  · exact h.works (.sysDate hd io)
  · exact h.works .restoreCr3

/-- **Every system call** of a task outside `P`. -/
theorem Serves.userOnSyscall (h : Serves k0 P k) (hsh : Shape k) (io : Io) :
    Safe k0 P (k.userOnSyscall io) := by
  have hd : k.currentCr3 = k.currentCr3 := rfl
  unfold Kernel.userOnSyscall
  split
  · exact h.sysWrite
  · exact h.works .sysOpen
  · exact h.sysRead
  · exact h.works (.sysReaddir hd)
  · exact h.sysExec io
  · exact h.works (.sysPipe hd)
  · exact h.works (.sysStat hd)
  · exact h.works .sysChdir
  · exact h.works (.sysGetcwd hd)
  · have hboot : Serves k0 P (k.setCr3 pml4Phys) := ⟨h.works .setCr3, h.out, h.alive⟩
    exact hboot.lateSyscall (hsh.same rfl rfl rfl rfl rfl) io

/-! ## Interrupts -/

theorem WorksOn.wakeSleepers : WorksOn d k k.wakeSleepers := by
  apply WorksOn.tasks
  intro i
  split
  · unfold wakeSleeper
    split
    · rename_i hw
      exact ⟨rfl, fun hd => by rw [hd] at hw; cases hw.1⟩
    · exact ⟨rfl, id⟩
  · exact ⟨rfl, id⟩

theorem WorksOn.schedWakeKbd : WorksOn d k k.schedWakeKbd := by
  apply WorksOn.tasks
  intro i
  split
  · rename_i hw
    exact ⟨rfl, fun hd => by rw [hd] at hw; cases hw.2⟩
  · exact ⟨rfl, id⟩

theorem Safe.schedOnTick (hs : Safe k0 P k) : Safe k0 P k.schedOnTick := by
  unfold Kernel.schedOnTick
  have hcharge : WorksOn 0 k (if k.taskCount ≠ 0 ∧ (k.tasks k.current).state ≠ .dead then
      k.modTask k.current fun t => { t with cpuTicks := t.cpuTicks + 1 } else k) := by
    split
    · exact .modTask _ ⟨rfl, id⟩
    · exact .refl
  simp only
  generalize (if k.taskCount ≠ 0 ∧ (k.tasks k.current).state ≠ .dead then
      k.modTask k.current fun t => { t with cpuTicks := t.cpuTicks + 1 } else k) = k1 at hcharge
  have hwake := (hcharge.trans .wakeSleepers).quiet hs
  split
  · exact hwake.switchToNext
  · exact hwake

theorem Safe.userRunFds (hs : Safe k0 P k) (hsh : Shape k) (p : Prog) (inPipe outPipe : Option Nat) :
    Safe k0 P (k.userRunFds p inPipe outPipe).1 := by
  have hfs : Safe k0 P (k.fsDo (lookupRootElf p.name)) := WorksOn.quiet (.fsDo _) hs
  have hsh1 : Shape (k.fsDo (lookupRootElf p.name)) :=
    (progImage_goes (A := fun _ => True) (r := ⟨none, none, ∅⟩) p.name).shape hsh
  have hspawn := hfs.userSpawn hsh1 p.name p.arg (if p.name = [] then none else k.progImage p)
  unfold Kernel.userRunFds
  simp only
  rcases hx : (k.fsDo (lookupRootElf p.name)).userSpawn p.name p.arg (if p.name = [] then none
    else k.progImage p) with
    ⟨k1, _ | _⟩ <;> rw [hx] at hspawn <;> simp only
  · exact hspawn
  · have hfg : Safe k0 P { k1 with fgSlot := k1.lastAdded } := hspawn.alike rfl rfl ⟨rfl, rfl⟩ rfl rfl rfl rfl
    have hin := (WorksOn.bindPipeIf 0 .pipeR inPipe).quiet hfg
    rcases hy : Kernel.bindPipeIf { k1 with fgSlot := k1.lastAdded } 0 .pipeR inPipe
      with ⟨k2, _ | _⟩ <;> rw [hy] at hin <;> simp only
    · exact hin
    · exact (WorksOn.bindPipeIf 1 .pipeW outPipe).quiet hin

theorem Safe.userRunPipeline (hs : Safe k0 P k) (hsh : Shape k) (left right : Prog) :
    Safe k0 P (k.userRunPipeline left right).1 := by
  have hunused : ∀ (k1 : Kernel Space) p, Safe k0 P k1 → Safe k0 P (k1.schedPipeUnused p) :=
    fun k1 p h => (WorksOn.schedPipeUnused p).quiet h
  unfold Kernel.userRunPipeline
  rcases allocPipe_cases k with e | ⟨p, phys, -, -, -, e⟩ <;> rw [e] <;> simp only
  · exact hs
  · set k1 := (k.memDo (.kalloc pipeMinPhys)).modPipe p fun _ => { Pipe.unused with used := true, phys := phys }
    have hpage : WorksOn 0 k (k.memDo (.kalloc pipeMinPhys)) := .kalloc pipeMinPhys
    have hs1 : Safe k0 P k1 := (hpage.trans (.modPipe p _)).quiet hs
    have hsh1 : Shape k1 := hsh.same rfl rfl rfl rfl rfl
    have hleft := hs1.userRunFds hsh1 left none (some p)
    have hsh2 := userRunFds_shape hsh1 left none (some p)
    rcases hx : k1.userRunFds left none (some p) with ⟨k2, _ | _⟩ <;> rw [hx] at hleft hsh2 <;> simp only
    · exact hunused k2 p hleft
    · have hright := hleft.userRunFds hsh2 right (some p) none
      rcases hy : k2.userRunFds right (some p) none with ⟨k3, _ | _⟩ <;> rw [hy] at hright <;> simp only
      · exact hunused k3 p hright
      · exact hright

theorem Safe.act (hs : Safe k0 P k) (hsh : Shape k) (a : Act) : Safe k0 P (k.act a) := by
  cases a with
  | tick =>
    have htick : Safe k0 P { k with ticks := k.ticks + 1 } := hs.alike rfl rfl ⟨rfl, rfl⟩ rfl rfl rfl rfl
    exact htick.schedOnTick
  | line l =>
    simp only [Kernel.act]
    split
    · have hin : Safe k0 P { k with stdin := some l } := hs.alike rfl rfl ⟨rfl, rfl⟩ rfl rfl rfl rfl
      exact WorksOn.quiet .schedWakeKbd hin
    · exact hs
  | ctrlC =>
    simp only [Kernel.act, schedSignalFg]
    cases k.fgSlot with
    | none => exact hs
    | some i => exact hs.signalAt _ _ _
  | kill pid => exact hs.signalAt _ _ _
  | run p => exact hs.userRunFds hsh p none none
  | runFile p fd path off =>
    have hrun := hs.userRunFds hsh p none none
    simp only [Kernel.act]
    rcases hx : k.userRunFds p none none with ⟨k1, _ | _⟩ <;> rw [hx] at hrun <;> simp only
    · exact hrun
    · exact (WorksOn.schedFdBindFile fd path off).quiet hrun
  | pipeline left right => exact hs.userRunPipeline hsh left right
  | shell c => exact WorksOn.quiet (.fsDo _) hs
  | bootTask p =>
    have hsh1 : Shape (k.fsDo (lookupRootElf p.name)) :=
      (progImage_goes (A := fun _ => True) (r := ⟨none, none, ∅⟩) p.name).shape hsh
    exact Safe.userSpawn (WorksOn.quiet (.fsDo _) hs) hsh1 _ _ _
  | clearFg => exact hs.alike rfl rfl ⟨rfl, rfl⟩ rfl rfl rfl rfl

theorem Safe.acts (hs : Safe k0 P k) (hsh : Shape k) (acts : List Act) :
    Safe k0 P (acts.foldl Kernel.act k) := by
  induction acts generalizing k with
  | nil => exact hs
  | cons a acts ih =>
    apply ih (hs.act hsh a)
    exact (act_reaches (A := fun _ => True) (r := ⟨none, none, ∅⟩) trivial trivial
      (fun _ => trivial) rfl a).shape hsh

/-! ## Events -/

/-- `P`, but for the task that runs. -/
def resting (P : Set Nat) (k : Kernel Space) : Set Nat := { i | i ∈ P ∧ ¬ k.On i }

theorem resting_subset (P : Set Nat) (k : Kernel Space) : resting P k ⊆ P := fun _ h => h.1

theorem Safe.settle (hs : Safe k0 P k) : Safe k0 (resting P k.deliverPending) k.deliverPending :=
  hs.deliverPending.mono fun _ hi => ⟨hi.1, fun _ => hi.2⟩

theorem Homed.away_loaded (h : Homed k) (hm : k.mode = .user) (hP : k.current ∉ P) : Away k.cr3 P k := by
  rcases h.loaded hm with e | e <;> rw [e]
  · exact h.away_boot
  · exact h.away_own (.inl hP)

/-- **One event.** Whoever of `P` does not run before it is safe behind it, unless it runs then. -/
theorem Safe.step (hs : Safe k0 P k) (hsh : Shape k) (hP : k.mode = .user → k.current ∉ P) (e : Event) :
    Safe k0 (resting P (k.step e)) (k.step e) := by
  have hstay : Safe k0 (resting P k) k := hs.mono (resting_subset P k)
  cases e with
  | syscall f io =>
    simp only [Kernel.step]
    split
    · rename_i hm
      have hin : Safe k0 P (k.enterCall f io) := hs.alike rfl rfl ⟨rfl, rfl⟩ rfl rfl rfl rfl
      have hsh1 : Shape (k.enterCall f io) := hsh.same rfl rfl rfl rfl rfl
      have hserves : Serves k0 P (k.enterCall f io) := ⟨hin, hP hm, hsh.current_live hm⟩
      exact (hserves.userOnSyscall hsh1 io).settle
    · exact hstay
  | exception f vector error cr2 =>
    simp only [Kernel.step]
    split
    · rename_i hm
      have htrap : Safe k0 P (k.trap f) := hs.alike rfl rfl ⟨rfl, rfl⟩ rfl rfl rfl rfl
      have hcow : WorksOn k.cr3 (k.trap f) ((k.trap f).memDo (.cowBreak k.cr3 cr2)) :=
        .memDo rfl (fun e => by cases e)
      have hbroken := hcow.safe htrap (htrap.away_loaded hm (hP hm))
      unfold exceptionHandler
      split
      · simp only
        split
        · exact hbroken.settle
        · have hend : Safe k0 P (if error &&& 7 = 7 then (k.trap f).memDo (.cowBreak k.cr3 cr2)
              else k.trap f) := by
            split
            · exact hbroken
            · exact htrap
          refine Safe.mono (Safe.alike (Safe.schedExit ?_) rfl rfl ⟨rfl, rfl⟩ rfl rfl rfl rfl)
            (resting_subset P _)
          exact (hend.mono Set.sdiff_subset).alike rfl rfl ⟨rfl, rfl⟩ rfl rfl rfl rfl
      · refine Safe.mono ?_ (resting_subset P _)
        exact htrap.off .stop (fun e => by cases e) rfl rfl rfl rfl rfl
    · exact hstay
  | irq f pages errs acts =>
    simp only [Kernel.step]
    split
    · exact hstay
    · have hin : Safe k0 P ((if k.mode = .user then k.trap f else k).supply pages errs) := by
        split <;> exact hs.alike rfl rfl ⟨rfl, rfl⟩ rfl rfl rfl rfl
      have hsh1 : Shape ((if k.mode = .user then k.trap f else k).supply pages errs) := by
        split <;> exact hsh.same rfl rfl rfl rfl rfl
      exact (hin.acts hsh1 acts).settle
  | store virt b =>
    simp only [Kernel.step]
    split
    · rename_i hm
      have hstore : WorksOn k.cr3 k (k.memDo (.store k.cr3 virt b)) := .memDo rfl (fun e => by cases e)
      exact (hstore.safe hs (hs.away_loaded hm (hP hm))).mono (resting_subset P _)
    · exact hstay
  | idle =>
    simp only [Kernel.step]
    split
    · have hwake : Safe k0 P k.wakeSleepers := WorksOn.quiet .wakeSleepers hs
      have hturn : Safe k0 P k.idleTurn := by
        unfold idleTurn
        simp only
        cases k.wakeSleepers.pickNext k.wakeSleepers.current with
        | none => exact hwake
        | some i => exact hwake.switchTo i
      exact hturn.settle
    · exact hstay
  | enter =>
    simp only [Kernel.step]
    split
    · exact (hs.switchTo _).mono (resting_subset P _)
    · exact hstay

theorem Reachable.homed {m : Space} (hb : m.Boot) (h : Reachable m k) : Homed k := by
  induction h with
  | boot fs hc hp =>
    exact ⟨Space.boot_inv hb, fun _ hl => absurd rfl hl, fun _ h0 => absurd rfl h0,
      fun _ _ _ h0 => absurd rfl h0, fun _ _ => rfl, nofun⟩
  | step hr e ih => exact ((ih.safe ∅).step hr.shape (fun _ => Set.notMem_empty _) e).toHomed

/-- **Tables apart.** In every reachable state every living task has tables of its own, which are
not the kernel's, and ring 3 runs on the running task's or on the kernel's. -/
theorem tables_apart {m : Space} (hb : m.Boot) (h : Reachable m k) :
    (∀ i, (k.tasks i).state ≠ .dead → (k.tasks i).cr3 ∈ k.mem.roots ∧ (k.tasks i).cr3 ≠ pml4Phys) ∧
      (∀ i j, (k.tasks i).state ≠ .dead → (k.tasks j).cr3 = (k.tasks i).cr3 → j = i) ∧
      (k.mode = .user → k.cr3 = pml4Phys ∨ k.cr3 = (k.tasks k.current).cr3) := by
  have hh := h.homed hb
  refine ⟨fun i hl => ?_, fun i j hl he => ?_, hh.loaded⟩
  · have hr := hh.root i (hh.live i hl)
    exact ⟨hr, (hh.inv.ne_boot hr).2⟩
  · exact (hh.apart i j he.symm (hh.live i hl)).symm

theorem tables_apart_small :
    (∀ i, ((twoTasks smallSpace).tasks i).state ≠ .dead → ((twoTasks smallSpace).tasks i).cr3 ∈
    (twoTasks smallSpace).mem.roots ∧
        ((twoTasks smallSpace).tasks i).cr3 ≠ pml4Phys) ∧
      (∀ i j, ((twoTasks smallSpace).tasks i).state ≠ .dead →
        ((twoTasks smallSpace).tasks j).cr3 = ((twoTasks smallSpace).tasks i).cr3 → j = i) ∧
      ((twoTasks smallSpace).mode = .user → (twoTasks smallSpace).cr3 = pml4Phys ∨
        (twoTasks smallSpace).cr3 = ((twoTasks smallSpace).tasks (twoTasks smallSpace).current).cr3) :=
  tables_apart smallSpace_boot (twoTasks_reachable smallSpace)

theorem Safe.run {m : Space} (h : Reachable m k) (hs : Safe k0 {i} k) (es : List Event)
    (hoff : ∀ n, n ≤ es.length → ¬ (k.run (es.take n)).On i) : Safe k0 {i} (k.run es) := by
  induction es generalizing k with
  | nil => exact hs
  | cons e es ih =>
    have hnow : ¬ k.On i := hoff 0 (Nat.zero_le _)
    have hthen : ¬ (k.step e).On i := hoff 1 (by simp)
    refine ih (h.step e) ((hs.step h.shape (fun hm hc => hnow ⟨hm, hc⟩) e).mono ?_) fun n hn => ?_
    · rintro _ rfl
      exact ⟨rfl, hthen⟩
    · exact hoff (n + 1) (by simpa using hn)

/-- **Untouched.** Whatever the others do and whatever comes from outside, a task that lives through
a run without the processor has the tables and the memory behind it that it had before. -/
theorem untouched {m : Space} (hb : m.Boot) (h : Reachable m k) (hl : (k.tasks i).state ≠ .dead)
    (es : List Event) (hoff : ∀ n, n ≤ es.length → ¬ (k.run (es.take n)).On i)
    (hl' : ((k.run es).tasks i).state ≠ .dead) (huid : (k.run es).hist.uid i = k.hist.uid i) :
    ((k.run es).tasks i).cr3 = (k.tasks i).cr3 ∧
      (k.run es).mem.mems (k.tasks i).cr3 = k.mem.mems (k.tasks i).cr3 := by
  have hrun := ((h.homed hb).safe {i}).run h es hoff
  have hsame := hrun.kept i rfl ⟨hl', huid, h.numbered i hl⟩
  refine ⟨hsame.cr3, ?_⟩
  rw [← hsame.mem, hsame.cr3]

/-- The first of two tasks writes on its stack and asks for the time. -/
def scribble : List Event := [.store 0x401800 7, callOf 19 0 0]

theorem scribble_off : ((twoTasks smallSpace).tasks 1).state ≠ .dead ∧
    (∀ n, n ≤ scribble.length → ¬ ((twoTasks smallSpace).run (scribble.take n)).On 1) ∧
    (((twoTasks smallSpace).run scribble).tasks 1).state ≠ .dead ∧
    ((twoTasks smallSpace).run scribble).hist.uid 1 = (twoTasks smallSpace).hist.uid 1 := by decide +kernel

theorem untouched_small :
    (((twoTasks smallSpace).run scribble).tasks 1).cr3 = ((twoTasks smallSpace).tasks 1).cr3 ∧
      ((twoTasks smallSpace).run scribble).mem.mems ((twoTasks smallSpace).tasks 1).cr3 =
        (twoTasks smallSpace).mem.mems ((twoTasks smallSpace).tasks 1).cr3 :=
  untouched smallSpace_boot (twoTasks_reachable smallSpace) scribble_off.1 scribble scribble_off.2.1
    scribble_off.2.2.1 scribble_off.2.2.2

/-! ## Frames -/

/-- No frame that one program may write is in another's reach, and none has a table, a kernel stack
or a pipe in its reach. -/
structure FramesApart (k : Kernel Space) : Prop where
  writable : ∀ i j, (k.tasks i).state ≠ .dead → (k.tasks j).state ≠ .dead → i ≠ j →
    ∀ n, n < userPages → ∀ n', n' < userPages → ∀ l l', view k.mem.vm.mem (k.tasks i).cr3 n =
    some l → l.hw = true → view k.mem.vm.mem (k.tasks j).cr3 n' = some l' → l'.frame ≠ l.frame
  table : ∀ i, (k.tasks i).state ≠ .dead → ∀ n, n < userPages →
    ∀ l, view k.mem.vm.mem (k.tasks i).cr3 n = some l →
    ¬ IsTable k.mem.vm.mem k.mem.roots l.frame
  stack : ∀ i, (k.tasks i).state ≠ .dead → ∀ n, n < userPages →
    ∀ l, view k.mem.vm.mem (k.tasks i).cr3 n = some l →
    ∀ j, (k.tasks j).kstackTop ≠ 0 → l.frame ≠ kstackPhys (k.tasks j)
  pipe : ∀ i, (k.tasks i).state ≠ .dead → ∀ n, n < userPages →
    ∀ l, view k.mem.vm.mem (k.tasks i).cr3 n = some l →
    ∀ p, (k.pipes p).used = true → l.frame ≠ (k.pipes p).phys
  own : ∀ i j, (k.tasks i).kstackTop ≠ 0 → (k.tasks j).kstackTop ≠ 0 → kstackPhys (k.tasks i) =
    kstackPhys (k.tasks j) → i = j

theorem frames_apart {m : Space} (hb : m.Boot) (h : Reachable m k) : FramesApart k := by
  have hh := h.homed hb
  obtain ⟨L, hf⟩ := h.framed hb
  have hroot : ∀ i, (k.tasks i).state ≠ .dead → (k.tasks i).cr3 ∈ k.mem.roots :=
    fun i hl => hh.root i (hh.live i hl)
  have hdata : ∀ i, (k.tasks i).state ≠ .dead → ∀ n, n < userPages →
    ∀ l, view k.mem.vm.mem (k.tasks i).cr3 n = some l →
      Data k.mem.vm.mem k.mem.vm.pmm k.mem.roots k.mem.kern l.frame := by
    intro i hl n hn l hv
    obtain ⟨-, -, -, hd⟩ := hh.inv.pt.of_view (hroot i hl) hn hv
    exact hd
  have hstack : ∀ j, (k.tasks j).kstackTop ≠ 0 → frameOf ⟨none, none, L⟩ k (.stack j) =
      some (kstackPhys (k.tasks j)) :=
    fun j h0 => by rw [frameOf, if_neg h0]
  have hpage : ∀ p, (k.pipes p).used = true → frameOf ⟨none, none, L⟩ k (.page p) =
      some (k.pipes p).phys := fun p hu => by
    rw [frameOf, if_pos hu]
  refine ⟨fun i j hi hj hij n hn n' hn' l l' hv hw hv' he => ?_,
    fun i hl n hn l hv => (hdata i hl n hn l hv).notTable, fun i hl n hn l hv j h0 he => ?_,
    fun i hl n hn l hv p hu he => ?_, fun i j h0 h0' he => ?_⟩
  · -- a frame that the processor may write is mapped once
    have hx : ((k.tasks i).cr3, n) ∈ sites k.mem.roots := mem_sites.2 ⟨hroot i hi, hn⟩
    have hy : ((k.tasks j).cr3, n') ∈ sites k.mem.roots := mem_sites.2 ⟨hroot j hj, hn'⟩
    obtain ⟨-, hone⟩ := hh.inv.cow.writable _ hx l hv hw
    have hsite := fiber_one (Nat.le_of_eq hone) hx hy (Option.map_eq_some_iff.2 ⟨l, hv, rfl⟩)
      (Option.map_eq_some_iff.2 ⟨l', hv', he⟩)
    exact hij (hh.apart i j (congrArg Prod.fst hsite) (hh.live i hi))
  · exact (hdata i hl n hn l hv).notKern (he ▸ hf.kept _ _ (hstack j h0))
  · exact (hdata i hl n hn l hv).notKern (he ▸ hf.kept _ _ (hpage p hu))
  · have hsame := hf.apart (.stack i) (.stack j) _ (hstack i h0)
      ((hstack j h0').trans (congrArg some he.symm))
    injection hsame

theorem frames_apart_small : FramesApart (twoTasks smallSpace) :=
  frames_apart smallSpace_boot (twoTasks_reachable smallSpace)

end Kernel

end VampireOS
