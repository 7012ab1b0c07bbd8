import VampireOS.Fs.Denote
import VampireOS.Sched.Cwds
import VampireOS.Sched.Fork
import VampireOS.User.Shell
import VampireOS.Drivers.Dollar

/-!
# What a descriptor denotes (kernel/user.c:1394-1533, sched.c:302-313, 705-780)

A descriptor stores the first 31 bytes of the path, and every `SYS_READ` looks that path up again in
the task's directory of the moment.

| here | there |
| --- | --- |
| `fileRead`, `handOut` | what `SYS_READ` of a file copies out, and the end of the call (user.c:1394-1436) |
| `Leaves`, `later` | the calls fork, dup2, lseek and chdir, one after another |
| `follow` | the descriptors that are copies of the one that was opened |
-/

namespace VampireOS

open Lib

namespace Kernel

variable {M : Type} [MemSys M] {k : Kernel M} {v : Fs}

/-! ## Looking up in a task's directory -/

omit [MemSys M] in
theorem fsSetpwd_stays {I : Fs → Prop} (h : ∀ p s, I s → I { s with path := p }) (path : Name) :
    Stays I (Fs.fsSetpwd path) :=
  Stays.need.bind fun _ => .ite (fun _ => .upd fun s hs => h _ s hs) fun _ =>
    (Stays.upd fun s hs => h _ s hs).bind fun _ => .failed

omit [MemSys M] in
theorem leaveTaskCwd_held (cl : Nat) (pwd : Name) : Stays (Fs.Held v) (leaveTaskCwd cl pwd) :=
  (Stays.attempt ((Fs.goto_held cl).conseq (fun _ h => h) (fun _ _ h => h.1) fun _ h => h)).bind fun _ =>
    (fsSetpwd_stays (fun _ _ h => ⟨⟨h.vol.geo, h.vol.disk, h.vol.fat⟩, h.cache⟩) _).attempt.bind
      fun _ => .pure

omit [MemSys M] in
/-- A lookup in the directory of a task is one from the task's cluster, and leaves the volume as it is. -/
theorem inTaskCwd_lookup (cl : Nat) (pwd path : Name) :
    Triple (Fs.Held v) (inTaskCwd cl pwd (Fs.fsLookup path))
    (fun r s => Fs.Held v s ∧ ∃ f, v.denotes cl path = some f ∧ r.2 = f.len ∧
    Fs.Agree r.1 (v.fileBytes f.cluster) r.2)
    (Fs.Held v) := by
  refine .readAt fun s hs => ?_
  simp only [id]
  refine .ite (fun hc => ?_) fun _ => ?_
  · exact (Fs.fsLookup_denotes cl path).conseq (fun s' h => h ▸ ⟨hs, hc.symm⟩) (fun _ _ h => h) fun _ h => h
  · refine Triple.bind (R := fun ok s' => Fs.Held v s' ∧ (ok = true → s'.cwd = cl)) ?_ fun ok =>
      .ite (fun _ => ?_) fun hok => ?_
    · exact Triple.attempt ((Fs.goto_held cl).conseq (fun s' h => h ▸ hs) (fun _ _ h => ⟨h.1, fun _ => h.2⟩)
        fun _ h => ⟨h, nofun⟩)
    · exact Triple.bind ((leaveTaskCwd_held _ _).conseq (fun _ h => h.1) (fun _ _ h => h) fun _ h =>
        h) fun _ => .failed
    · have hpwd : Triple (fun s' => Fs.Held v s' ∧ (ok = true → s'.cwd = cl)) (attempt (Fs.fsSetpwd pwd))
          (fun _ => Fs.HeldAt v cl) (Fs.Held v) :=
        (fsSetpwd_stays (fun _ _ h => ⟨⟨⟨h.1.vol.geo, h.1.vol.disk, h.1.vol.fat⟩, h.1.cache⟩, h.2⟩)
          pwd).attempt.conseq (fun _ h => ⟨h.1, h.2 (by simpa using hok)⟩) (fun _ _ h => h) fun _
          h => h.1
      refine hpwd.bind fun _ => Triple.bind
        (R := fun r s' => Fs.Held v s' ∧ ∀ x, r = some x → ∃ f, v.denotes cl path = some f ∧ x.2 = f.len ∧
          Fs.Agree x.1 (v.fileBytes f.cluster) x.2) ?_ fun r => ?_
      · exact .result ((Fs.fsLookup_denotes cl path).conseq (fun _ h => h)
          (fun a _ h => ⟨h.1, fun x hx => by cases hx; exact h.2⟩) fun _ h => ⟨h, nofun⟩)
      · refine Triple.bind (R := fun _ s' => Fs.Held v s' ∧ ∀ x, r = some x →
          ∃ f, v.denotes cl path = some f ∧ x.2 = f.len ∧
          Fs.Agree x.1 (v.fileBytes f.cluster) x.2) ?_ fun _ => ?_
        · intro s1 hs1
          obtain ⟨h1, h2⟩ := leaveTaskCwd_held s.cwd s.path s1 hs1.1
          exact ⟨fun a ha => ⟨h1 a ha, hs1.2⟩, h2⟩
        · refine Triple.orFailWith.conseq (fun s1 h => ?_) (fun _ _ h => h) fun _ h => h
          cases r with
          | none => exact h.1
          | some x => exact ⟨h.1, h.2 x rfl⟩

/-! ## Reading -/

/-- The bytes that `SYS_READ` copies out of the file at `fd`. -/
def fileRead (k : Kernel M) (fd : Int) (want : Nat) : Option (List UInt8) :=
  (k.schedFdPath fd).bind fun path => (k.fsAsk (k.inCwd (Fs.fsLookup path))).map fun (data, len) =>
    let off := k.schedFdOffset fd
    let got := if off ≥ min len fileMax then 0 else min want (min len fileMax - off)
    (List.range got).map fun i => data (off + i)

/-- Give the bytes `out` to the caller and move the offset behind them. -/
def handOut (k : Kernel M) (fd : Int) (off : Nat) (out : List UInt8) : Kernel M :=
  let res := k.copyToUser k.frame.rsi out
  if res.2 then
    (if out.length ≠ 0 then (res.1.schedFdLseek fd (off + out.length)).1 else res.1).setAnswer
      (some out.length)
  else res.1.setRax minusOne

/-- `SYS_READ` of a file hands out `fileRead`. -/
theorem readFile_eq (k : Kernel M) (fd : Int) (path : Name) (want : Nat) (h : k.schedFdPath fd = some path) :
    k.readFile fd path want =
      let k1 := (k.setCr3 pml4Phys).fsDo (k.inCwd (Fs.fsLookup path))
      match k.fileRead fd want with
      | none => (k1.setRax minusOne).restoreCr3
      | some out => k1.restoreCr3.handOut fd (k.schedFdOffset fd) out := by
  unfold readFile answering fileRead
  rw [h, Option.bind_some]
  have hask : (k.setCr3 pml4Phys).fsAsk ((k.setCr3 pml4Phys).inCwd (Fs.fsLookup path)) =
      k.fsAsk (k.inCwd (Fs.fsLookup path)) := rfl
  dsimp only
  rw [hask]
  cases k.fsAsk (k.inCwd (Fs.fsLookup path)) with
  | none => rfl
  | some r =>
    simp only [Option.map_some, handOut, readDone, List.length_map, List.length_range]
    rfl

/-! ## The later calls -/

/-- What happens beside the descriptors of slot `T`. -/
structure Beside (T : Nat) (k k' : Kernel M) : Prop where
  fs : k'.fs = k.fs
  current : k'.current = k.current
  count : k.taskCount ≤ k'.taskCount
  fds : (k'.tasks T).fds = (k.tasks T).fds

variable {T : Nat} {k' k'' : Kernel M}

omit [MemSys M] in
theorem Beside.refl : Beside T k k := ⟨rfl, rfl, le_rfl, rfl⟩

omit [MemSys M] in
theorem Beside.trans (h : Beside T k k') (h' : Beside T k' k'') : Beside T k k'' :=
  ⟨h'.fs.trans h.fs, h'.current.trans h.current, h.count.trans h'.count, h'.fds.trans h.fds⟩

theorem Beside.dropFd {i : Nat} (hi : T ≠ i) (j : Nat) : Beside T k (k.dropFd i j) :=
  ⟨dropFd_fs k i j, dropFd_current k i j, (dropFd_taskCount k i j).ge, funext fun m => by
    rw [Kernel.dropFd_fds, if_neg fun h => hi h.1.1]⟩

omit [MemSys M] in
theorem linkFd_fs (k : Kernel M) (i j : Nat) (e : FdEntry) : (k.linkFd i j e).1.fs = k.fs := by
  unfold Kernel.linkFd
  split
  · rfl
  · cases k.pipeOf e <;> rfl

omit [MemSys M] in
theorem Beside.linkFd {i : Nat} (hi : T ≠ i) (j : Nat) (e : FdEntry) : Beside T k (k.linkFd i j e).1 := by
  have hw := FdWork.linkFd (k := k) i j e
  exact ⟨linkFd_fs k i j e, hw.current, hw.count.ge, funext fun m => by
    rw [(linkFd_copy k i j e).2, if_neg fun h => hi h.1]⟩

omit [MemSys M] in
theorem Beside.forTo {f : Nat → Kernel M → Kernel M} (hf : ∀ j k, Beside T k (f j k)) (n : Nat)
    (k : Kernel M) :
    Beside T k (forTo f n k) :=
  forTo_inv (fun _ k' => Beside T k k') .refl fun j k' _ h => h.trans (hf j k')

theorem Beside.takeSlot {i : Nat} (hT : T < k.taskCount) (hi : T ≠ i) : Beside T k (k.takeSlot i) := by
  unfold Kernel.takeSlot
  split
  · have hv := ((freeTaskUser_vacates (k := k) i).trans (freeTaskKstack_vacates i).1).trans
      (freeTaskPml4_vacates i)
    exact ⟨hv.fs, hv.current, hv.count.ge, congrArg Task.fds (hv.other T hi)⟩
  · exact ⟨rfl, if_neg (by omega), Nat.le_succ _, rfl⟩

omit [MemSys M] in
theorem Beside.spawnTask {i : Nat} (hi : T ≠ i) (parent : Option Nat) (t : Task) :
    Beside T k (k.spawnTask i parent t) :=
  ⟨rfl, rfl, le_rfl, by simp [Kernel.spawnTask, hi]⟩

theorem Beside.schedFork (hT : T < k.taskCount) (hcur : k.current = T) (kst cr3 : Nat) :
    Beside T k (k.schedFork kst cr3).1 := by
  unfold Kernel.schedFork
  simp only
  split
  · exact .refl
  · next hn =>
    cases hi : k.freeSlot with
    | none => exact .refl
    | some i =>
      -- the parent is alive, so its slot is not the one taken
      have hne : T ≠ i := by
        rintro rfl
        rcases freeSlot_some hi with ⟨-, hr⟩ | ⟨h, -⟩
        · simp only [not_or] at hn
          exact hn.2.2.2.2.1 (hcur ▸ slotReusable_dead hr)
        · omega
      exact (((Beside.takeSlot hT hne).trans (.spawnTask hne _ _)).trans
        (.forTo (fun j _ => .dropFd hne j) _ _)).trans (.forTo (fun j _ => .linkFd hne j _) _ _)

theorem Beside.userFork (hT : T < k.taskCount) (hcur : k.current = T) : Beside T k k.userFork.1 := by
  unfold Kernel.userFork
  split
  · exact .refl
  · cases k.memAsk (.kalloc page2M) with
    | none => exact ⟨rfl, rfl, le_rfl, rfl⟩
    | some kst =>
      set k1 := k.memDo (.kalloc page2M) with hk1
      simp only
      cases k1.memAsk (.fork k1.currentCr3) with
      | none => exact ⟨rfl, rfl, le_rfl, rfl⟩
      | some cr3 =>
        have h1 : Beside T k (k1.memDo (.fork k1.currentCr3)) := ⟨rfl, rfl, le_rfl, rfl⟩
        have h2 := h1.trans (Beside.schedFork (k := k1.memDo (.fork k1.currentCr3)) hT hcur
          (kstackTopOf kst) cr3)
        simp only
        rcases hx : (k1.memDo (.fork k1.currentCr3)).schedFork (kstackTopOf kst) cr3
          with ⟨k2, _ | id⟩ <;> rw [hx] at h2
        · exact h2.trans ⟨rfl, rfl, le_rfl, rfl⟩
        · exact h2

omit [MemSys M] in
theorem userChdir_held (cl : Nat) (pwd path : Name) : Stays (Fs.Held v) (userChdir cl pwd path) :=
  have hset : Stays (Fs.Held v) (Fs.fsSetcwd cl) :=
    (Fs.goto_held cl).conseq (fun _ h => h) (fun _ _ h => h.1) fun _ h => h
  have hpwd : Stays (Fs.Held v) (Fs.fsSetpwd pwd) :=
    fsSetpwd_stays (fun _ _ h => ⟨⟨h.vol.geo, h.vol.disk, h.vol.fat⟩, h.cache⟩) pwd
  Stays.need.bind fun _ => .read fun _ _ =>
    (Stays.result (hset.bind fun _ => hpwd.attempt.bind fun _ => (Fs.fsChdir_held path).bind
      fun _ => .gets)).bind fun _ =>
      (leaveTaskCwd_held _ _).bind fun _ => .orFailWith

/-- A descriptor of the file opened as `p`, at any offset. -/
def CopyOf (p : Name) (e : FdEntry) : Prop := e.used = true ∧ e.kind = .file ∧ e.path = p

/-- The task in slot `T` runs on the volume `v`, and its descriptors in `S` are of the file opened as `p`. -/
structure Opened (v : Fs) (T : Nat) (p : Name) (S : Nat → Bool) (k : Kernel M) : Prop where
  held : Fs.Held v k.fs
  current : k.current = T
  slot : T < k.taskCount
  copy : ∀ j, S j = true → j < fdMax ∧ CopyOf p ((k.tasks T).fds j)

/-- The calls that leave the files alone: fork, dup2, lseek and chdir. -/
def Leaves (f : Frame) : Prop := f.rax = 13 ∨ f.rax = 14 ∨ f.rax = 15 ∨ f.rax = 20

/-- The descriptors that are of the file after a call: `dup2` makes one more, or one less. -/
def follow (k : Kernel M) (f : Frame) (S : Nat → Bool) : Nat → Bool :=
  if f.rax = 14 then
    match k.fdAt (toInt f.rdi), fdIndex (toInt f.rsi) with
    | some _, some n => Function.update S n (S (toInt f.rdi).toNat)
    | _, _ => S
  else S

/-- A run of calls of the current task, with the descriptors that are of the file. -/
def later : List (Frame × Io) → Kernel M × (Nat → Bool) → Kernel M × (Nat → Bool)
  | [], x => x
  | (f, io) :: cs, (k, S) => later cs ((k.enterCall f io).userOnSyscall io, k.follow f S)

variable {p : Name} {S : Nat → Bool}

omit [MemSys M] in
theorem Opened.beside (h : Opened v T p S k) (hb : Beside T k k') : Opened v T p S k' :=
  ⟨hb.fs ▸ h.held, hb.current.trans h.current, h.slot.trans_le hb.count, fun j hj => hb.fds ▸ h.copy j hj⟩

omit [MemSys M] in
theorem Opened.enterCall (h : Opened v T p S k) (f : Frame) (io : Io) : Opened v T p S (k.enterCall f io) :=
  ⟨⟨⟨h.held.vol.geo, h.held.vol.disk, h.held.vol.fat⟩, h.held.cache⟩, h.current, h.slot, h.copy⟩

omit [MemSys M] in
theorem Opened.chdirDone (h : Opened v T p S k) (cl : Nat) (pwd : Name) :
    Opened v T p S (k.chdirDone cl pwd) := by
  refine ⟨h.held, h.current, h.slot, fun j hj => ?_⟩
  have hfds : ((k.chdirDone cl pwd).tasks T).fds = (k.tasks T).fds := by
    simp only [Kernel.chdirDone, restoreCr3, setCr3, setRax, modTask_tasks]
    split
    · next hT => rw [hT]
    · rfl
  rw [hfds]
  exact h.copy j hj

theorem Opened.sysChdir (h : Opened v T p S k) : Opened v T p S k.sysChdir := by
  unfold Kernel.sysChdir
  cases k.copyFromUser k.frame.rdi.toNat userStrMax with
  | none => exact h.beside ⟨rfl, rfl, le_rfl, rfl⟩
  | some path =>
    simp only [answering]
    set m := userChdir (((k.setCr3 pml4Phys).tasks (k.setCr3 pml4Phys).current).cwd)
      (k.setCr3 pml4Phys).currentPwd path
    have hfs : Opened v T p S ((k.setCr3 pml4Phys).fsDo m) :=
      ⟨(userChdir_held _ _ path).exec h.held, h.current, h.slot, h.copy⟩
    cases (k.setCr3 pml4Phys).fsAsk m with
    | none => exact hfs.beside ⟨rfl, rfl, le_rfl, rfl⟩
    | some x => exact hfs.chdirDone x.1 x.2

omit [MemSys M] in
/-- `lseek` moves an offset. -/
theorem schedFdLseek_keeps (fd : Int) (off : Nat) : (k.schedFdLseek fd off).1.fs = k.fs ∧
    (k.schedFdLseek fd off).1.current = k.current ∧ (k.schedFdLseek fd off).1.taskCount = k.taskCount ∧
    ∀ i j, CopyOf p ((k.tasks i).fds j) → CopyOf p (((k.schedFdLseek fd off).1.tasks i).fds j) := by
  unfold Kernel.schedFdLseek
  cases he : k.fdAt fd with
  | none => exact ⟨rfl, rfl, rfl, fun _ _ h => h⟩
  | some e =>
    simp only [Option.elim_some]
    split
    · next hf =>
      obtain ⟨-, j, hj, rfl, hu⟩ := fdAt_some he
      refine ⟨rfl, rfl, rfl, fun i i' h => ?_⟩
      rw [setFd_fds]
      split
      · next hij =>
        rw [(fdIndex_some hj).2] at hij
        rw [hij.1, hij.2] at h
        exact ⟨hu, hf, h.2.2⟩
      · exact h
    · exact ⟨rfl, rfl, rfl, fun _ _ h => h⟩

omit [MemSys M] in
theorem Opened.schedFdLseek (h : Opened v T p S k) (fd : Int) (off : Nat) :
    Opened v T p S (k.schedFdLseek fd off).1 :=
  have hk := schedFdLseek_keeps (k := k) (p := p) fd off
  ⟨hk.1 ▸ h.held, hk.2.1.trans h.current, hk.2.2.1 ▸ h.slot,
    fun j hj => ⟨(h.copy j hj).1, hk.2.2.2 T j (h.copy j hj).2⟩⟩

theorem Opened.schedFdDup2 (h : Opened v T p S k) {f : Frame} (hf : f.rax = 14) :
    Opened v T p (k.follow f S) (k.schedFdDup2 (toInt f.rdi) (toInt f.rsi)).1 := by
  unfold Kernel.schedFdDup2 follow
  rw [if_pos hf]
  cases he : k.fdAt (toInt f.rdi) with
  | none => exact h
  | some e =>
    cases hn : fdIndex (toInt f.rsi) with
    | none => exact h
    | some n =>
      obtain ⟨-, j, hj, rfl, hu⟩ := fdAt_some he
      obtain ⟨-, hjn⟩ := fdIndex_some hj
      obtain ⟨hnlt, hnn⟩ := fdIndex_some hn
      simp only
      split
      · next heq =>
        have : j = n := by rw [← hjn, ← hnn, heq]
        subst this
        rw [hjn, Function.update_eq_self]
        exact h
      · have hd : (k.dropFd k.current n).fs = k.fs ∧ (k.dropFd k.current n).current = k.current ∧
            (k.dropFd k.current n).taskCount = k.taskCount :=
              ⟨dropFd_fs .., dropFd_current .., dropFd_taskCount ..⟩
        set e := (k.tasks k.current).fds j with hedef
        have hw := FdWork.linkFd (k := k.dropFd k.current n) k.current n e
        have hl := linkFd_copy (k.dropFd k.current n) k.current n e
        have hfs : ((k.dropFd k.current n).linkFd k.current n e).1.fs = k.fs := (linkFd_fs _ _ _ _).trans hd.1
        refine ⟨hfs ▸ h.held, (hw.current.trans hd.2.1).trans h.current,
          by rw [hw.count, hd.2.2]; exact h.slot, fun i hi => ?_⟩
        rw [hl.2]
        by_cases hin : i = n
        · rw [hin, Function.update_self, hjn] at hi
          obtain ⟨-, hc1, hc2, hc3⟩ := h.copy j hi
          rw [if_pos ⟨h.current.symm, hin⟩]
          have hcopy : (FdTable.copy (k.dropFd k.current n).livePipe e).1 = e := by
            rw [hedef, h.current]
            simp [FdTable.copy, hc2, FdKind.isPipe]
          rw [hcopy, hedef, h.current]
          exact ⟨hin ▸ hnlt, hc1, hc2, hc3⟩
        · rw [Function.update_of_ne hin] at hi
          rw [if_neg fun hx => hin hx.2, Kernel.dropFd_fds, if_neg fun hx => hin hx.1.2]
          exact h.copy i hi

omit [MemSys M] in
theorem follow_self {f : Frame} (hf : f.rax ≠ 14) : k.follow f S = S := if_neg hf

/-- One call keeps the descriptors of the file. -/
theorem Opened.call (h : Opened v T p S k) {f : Frame} (hf : Leaves f) (io : Io) :
    Opened v T p (k.follow f S) ((k.enterCall f io).userOnSyscall io) := by
  have he := h.enterCall f io
  have hlate : Opened v T p S ((k.enterCall f io).setCr3 pml4Phys) := he.beside ⟨rfl, rfl, le_rfl, rfl⟩
  have hdone : ∀ {S' : Nat → Bool} {k' : Kernel M} (a : Option Nat), Opened v T p S' k' →
      Opened v T p S' (k'.setAnswer a).restoreCr3 := fun a h' => h'.beside ⟨rfl, rfl, le_rfl, rfl⟩
  have hrax : ∀ n : UInt64, f.rax = n → (k.enterCall f io).frame.rax.toNat = n.toNat :=
    fun _ h' => congrArg UInt64.toNat h'
  rcases hf with hf | hf | hf | hf
  · rw [follow_self (by rw [hf]; decide)]
    have hnum : (k.enterCall f io).frame.rax.toNat = 13 := hrax 13 hf
    simp only [userOnSyscall, lateSyscall, setCr3, hnum]
    exact hdone _ (hlate.beside (.userFork hlate.slot hlate.current))
  · have hnum : (k.enterCall f io).frame.rax.toNat = 14 := hrax 14 hf
    simp only [userOnSyscall, lateSyscall, setCr3, hnum]
    exact hdone _ (hlate.schedFdDup2 (f := f) hf)
  · rw [follow_self (by rw [hf]; decide)]
    have hnum : (k.enterCall f io).frame.rax.toNat = 15 := hrax 15 hf
    set k1 := (k.enterCall f io).setCr3 pml4Phys with hk1
    have hcall : (k.enterCall f io).userOnSyscall io = k1.lateSyscall io := by
      simp only [userOnSyscall, hnum, ← hk1]
    have hnum1 : k1.frame.rax.toNat = 15 := hnum
    rw [hcall]
    simp only [lateSyscall, hnum1]
    split
    · exact hlate.beside ⟨rfl, rfl, le_rfl, rfl⟩
    · exact hdone _ (hlate.schedFdLseek _ _)
  · rw [follow_self (by rw [hf]; decide)]
    have hnum : (k.enterCall f io).frame.rax.toNat = 20 := hrax 20 hf
    simp only [userOnSyscall, hnum]
    exact he.sysChdir

theorem Opened.later (cs : List (Frame × Io)) : ∀ {k : Kernel M} {S : Nat → Bool}, Opened v T p S k →
    (∀ c ∈ cs, Leaves c.1) → Opened v T p (Kernel.later cs (k, S)).2 (Kernel.later cs (k, S)).1 := by
  induction cs with
  | nil => exact fun h _ => h
  | cons c cs ih =>
    intro k S h hcs
    exact ih (h.call (hcs c List.mem_cons_self) c.2) fun c' hc' => hcs c' (List.mem_cons_of_mem _ hc')

/-! ## Opening -/

omit [MemSys M] in
theorem schedFdOpen_some {path : Name} {k' : Kernel M} {j : Nat} (h : k.schedFdOpen path = (k', some j)) :
    j < fdMax ∧ k' = k.setFd k.current j ⟨true, .file, none, 0, copyPath path⟩ := by
  unfold schedFdOpen at h
  split at h
  · cases h
  · cases hj : freeFd (k.tasks k.current) 0 with
    | none => rw [hj] at h; cases h
    | some i =>
      rw [hj] at h
      cases h
      exact ⟨List.mem_range.1 (List.mem_of_find?_eq_some hj), rfl⟩

/-- An open that is answered with a descriptor binds it to the path that was given, cut to 31 bytes. -/
theorem sysOpen_opened {path : Name}
    (hpath : k.copyFromUser k.frame.rdi.toNat userStrMax = some path)
    (hans : k.sysOpen.frame.rax ≠ minusOne) :
    k.sysOpen.current = k.current ∧ k.sysOpen.taskCount = k.taskCount ∧ k.sysOpen.frame.rax.toNat < fdMax ∧
      CopyOf (copyPath path) ((k.sysOpen.tasks k.current).fds k.sysOpen.frame.rax.toNat) := by
  unfold Kernel.sysOpen answering at hans ⊢
  rw [hpath] at hans ⊢
  simp only at hans ⊢
  set m := (k.setCr3 pml4Phys).inCwd (openFile path ((k.setCr3 pml4Phys).frame.rsi = 1 ∨
    (k.setCr3 pml4Phys).frame.rsi = 2))
  cases hask : (k.setCr3 pml4Phys).fsAsk m with
  | none =>
    rw [hask] at hans
    exact absurd rfl hans
  | some len =>
    rw [hask] at hans
    simp only [openDone] at hans ⊢
    set k1 := (k.setCr3 pml4Phys).fsDo m
    rcases hres : k1.schedFdOpen path with ⟨k2, _ | j⟩
    · rw [hres] at hans
      exact absurd rfl hans
    · obtain ⟨hj, rfl⟩ := schedFdOpen_some hres
      have hrax : (UInt64.ofNat j).toNat = j := by
        unfold fdMax at hj
        rw [UInt64.toNat_ofNat', Nat.mod_eq_of_lt (by omega)]
      set k2 := k1.setFd k1.current j ⟨true, .file, none, 0, copyPath path⟩
      have hk2 : CopyOf (copyPath path) ((k2.tasks k1.current).fds j) := by
        rw [setFd_fds, if_pos ⟨rfl, rfl⟩]
        exact ⟨rfl, rfl, rfl⟩
      simp only [Option.elim_some]
      have hdone : ∀ k3 : Kernel M, k3.current = k.current → k3.taskCount = k.taskCount →
          CopyOf (copyPath path) ((k3.tasks k.current).fds j) →
          let k4 := (k3.setAnswer (some j)).restoreCr3
          k4.current = k.current ∧ k4.taskCount = k.taskCount ∧ k4.frame.rax.toNat < fdMax ∧
            CopyOf (copyPath path) ((k4.tasks k.current).fds k4.frame.rax.toNat) := by
        intro k3 h1 h2 h3
        refine ⟨h1, h2, ?_, ?_⟩
        · change (UInt64.ofNat j).toNat < _
          rwa [hrax]
        · change CopyOf _ ((k3.tasks _).fds (UInt64.ofNat j).toNat)
          rwa [hrax]
      split
      · have hk := schedFdLseek_keeps (k := k2) (p := copyPath path) j len
        exact hdone _ hk.2.1 hk.2.2.1 (hk.2.2.2 _ _ hk2)
      · exact hdone k2 rfl rfl hk2

/-! ## The read -/

/-- The `want` bytes of the file at `off`, as many as there are. -/
def slice (v : Fs) (f : FileEnt) (off want : Nat) : List UInt8 :=
  (List.range (if off ≥ min f.len fileMax then 0 else min want (min f.len fileMax - off))).map fun i =>
    v.fileBytes f.cluster (off + i)

/-- The state in which a read goes on after the lookup of `path`. -/
def lookedUp (k : Kernel M) (path : Name) : Kernel M := (k.setCr3 pml4Phys).fsDo (k.inCwd (Fs.fsLookup path))

/-- `SYS_READ` of the caller hands out the bytes at the descriptor's offset of the file that `path`
denotes in the directory `cl` on `v`; it is answered -1 when the volume does not answer. -/
def ReadsFrom (v : Fs) (cl : Nat) (path : Name) (k : Kernel M) : Prop :=
  let fd := toInt k.frame.rdi
  let off := k.schedFdOffset fd
  match k.fileRead fd (wantOf k.frame.rdx) with
  | none => k.sysRead.frame.rax = minusOne
  | some out => (∃ p, k.sysRead = ((k.lookedUp p).restoreCr3).handOut fd off out) ∧
    ∃ f, v.denotes cl path = some f ∧ out = slice v f off (wantOf k.frame.rdx)

/-- In the directory in which the path is looked up, a read is one of the file it denotes. -/
theorem Opened.reads (h : Opened v T p S k) (h0 : 0 ≤ toInt k.frame.rdi)
    (hS : S (toInt k.frame.rdi).toNat = true) :
    ReadsFrom v (k.tasks T).cwd p k := by
  obtain ⟨hlt, hu, hk, hp⟩ := h.copy _ hS
  have hat : k.fdAt (toInt k.frame.rdi) = some ((k.tasks T).fds (toInt k.frame.rdi).toNat) := by
    obtain ⟨n, hn⟩ := Int.eq_ofNat_of_zero_le h0
    have hc : k.taskCount ≠ 0 := by have := h.slot; omega
    rw [hn, fdAt_nat hc, h.current]
    rw [hn] at hlt hu
    exact if_pos ⟨hlt, hu⟩
  have hkind : k.schedFdKind (toInt k.frame.rdi) = .file := by rw [schedFdKind, hat]; exact hk
  have hpath : k.schedFdPath (toInt k.frame.rdi) = some p := by rw [schedFdPath, hat]; simp [hk, hp]
  have hread : k.sysRead = k.readFile (toInt k.frame.rdi) p (wantOf k.frame.rdx) := by
    simp only [Kernel.sysRead, hkind, hpath, Option.elim_some]
  have hcwd : k.inCwd (Fs.fsLookup p) = inTaskCwd (k.tasks T).cwd k.currentPwd (Fs.fsLookup p) := by
    rw [inCwd, h.current]
  have hlook := inTaskCwd_lookup (k.tasks T).cwd k.currentPwd p k.fs h.held
  rw [← hcwd] at hlook
  unfold ReadsFrom
  simp only
  rw [hread, readFile_eq k _ p _ hpath]
  cases hout : k.fileRead (toInt k.frame.rdi) (wantOf k.frame.rdx) with
  | none => rfl
  | some out =>
    simp only [fileRead, hpath, Option.bind_some] at hout
    obtain ⟨r, hask, rfl⟩ := Option.map_eq_some_iff.1 hout
    obtain ⟨-, f, hf, hlen, hag⟩ := hlook.1 r hask
    refine ⟨⟨p, rfl⟩, f, hf, ?_⟩
    unfold slice
    rw [← hlen]
    refine List.map_congr_left fun i hi => hag _ ?_
    rw [List.mem_range] at hi
    split at hi <;> omega

/-- **A descriptor denotes the file that was opened** when its path fits the 31 bytes that are kept
and is absolute or the task is back in the directory of the open. -/
theorem reads_opened_file (hT : k.current < k.taskCount) {f : Frame} (io : Io) (hf : f.rax = 6)
    {path : Name} (hpath : (k.enterCall f io).copyFromUser f.rdi.toNat userStrMax = some path)
    (hans : ((k.enterCall f io).userOnSyscall io).frame.rax ≠ minusOne)
    (hheld : Fs.Held v ((k.enterCall f io).userOnSyscall io).fs) {cs : List (Frame × Io)}
    (hcs : ∀ c ∈ cs, Leaves c.1) {kr : Kernel M} {S : Nat → Bool}
    (hrun : later cs ((k.enterCall f io).userOnSyscall io,
      fun j => j == ((k.enterCall f io).userOnSyscall io).frame.rax.toNat) = (kr, S))
    (hlen : path.length ≤ 31)
    (hcwd : path.head? = some slash ∨ (kr.tasks k.current).cwd = (k.tasks k.current).cwd)
    {g : Frame} (io' : Io) (hg : g.rax = 8) (h0 : 0 ≤ toInt g.rdi)
    (hS : S (toInt g.rdi).toNat = true) :
    (kr.enterCall g io').userOnSyscall io' = (kr.enterCall g io').sysRead ∧
      ReadsFrom v (k.tasks k.current).cwd path (kr.enterCall g io') := by
  have hnum : (k.enterCall f io).frame.rax.toNat = 6 := congrArg UInt64.toNat hf
  have hopen : (k.enterCall f io).userOnSyscall io = (k.enterCall f io).sysOpen := by
    simp only [userOnSyscall, hnum]
  have hread : (kr.enterCall g io').userOnSyscall io' = (kr.enterCall g io').sysRead := by
    have hnum : (kr.enterCall g io').frame.rax.toNat = 8 := congrArg UInt64.toNat hg
    simp only [userOnSyscall, hnum]
  rw [hopen] at hans hheld hrun
  obtain ⟨hcur, hcount, hlt, hcopy⟩ := sysOpen_opened (k := k.enterCall f io) hpath hans
  have hcut : copyPath path = path := List.take_of_length_le (by unfold fdPathMax; omega)
  rw [hcut] at hcopy
  have hstart : Opened v k.current path (fun j => j == (k.enterCall f io).sysOpen.frame.rax.toNat)
      (k.enterCall f io).sysOpen := by
    refine ⟨hheld, hcur, hcount ▸ hT, fun j hj => ?_⟩
    rw [beq_iff_eq.1 hj]
    exact ⟨hlt, hcopy⟩
  have hend := hstart.later cs hcs
  rw [hrun] at hend
  have hr := (hend.enterCall g io').reads h0 hS
  refine ⟨hread, ?_⟩
  rcases hcwd with ha | hc
  · unfold ReadsFrom at hr ⊢
    rwa [Fs.denotes_absolute ha _ ((kr.enterCall g io').tasks k.current).cwd]
  · exact hc ▸ hr

/-! ## Two files of one name -/

/-- `Plenty`, with the strings `s` at 0x401000 and `a` at 0x401008. -/
structure TwoNames where
  plenty : Plenty

instance : MemSys TwoNames where
  step m op := (⟨(MemSys.step m.plenty op).1⟩, (MemSys.step m.plenty op).2)
  peek _ _ va := some (if va = 0x401000 then 115 else if va = 0x401008 then 97 else 0)

/-- The root has a file `a` with the byte 1 and a directory `s`, in which another `a` has the byte 2. -/
def twoFiles : Fs := { dirVolume with
  disk := fun lba =>
    if lba = 4 then ofList [1]
    else if lba = 6 then ofList [2]
    else if lba = 5 then ofList ((List.range 64).map (dirVolume.disk 5) ++ (List.range 26).map
      (dirVolume.disk 3) ++ [4, 0, 1, 0, 0, 0])
    else dirVolume.disk lba
  fat := fun i => if i = 6 then 0xF8 else if i = 7 then 0x0F else dirVolume.fat i
  files := [⟨[97], some fun _ => 0, 1, 2, 0, false⟩, ⟨[115], none, 0, 3, 32, true⟩] }

/-- A task on this volume. -/
def onTwoFiles : Kernel TwoNames := (schedInit ⟨⟨0⟩⟩ twoFiles).run
  [.irq (.start 0 0) 100 [] [.bootTask { smallProg with name := [97] }], .enter]

/-- `open("a")` -/
def openedA : Kernel TwoNames := (onTwoFiles.enterCall (callFrame 6 0x401008 0) smallIo).userOnSyscall smallIo

/-- `read(fd, 0x402000, 39)` -/
def readCall (fd : UInt64) : Frame := { callFrame 8 fd 0x402000 with rdx := 39 }

/-- What an entry of the cache is apart from its page. -/
def keyOf (f : FileEnt) : Name × Nat × Nat × Nat × Bool := (f.name, f.len, f.cluster, f.dirOff, f.isDir)

theorem listFrom_bare (d : Bytes) (left : Nat) : ∀ (i : Nat) (run : Fs.LfnRun) (room : Nat),
    ((Fs.listFrom d left i run room).map FileEnt.bare) = Fs.listFrom d left i run room := by
  induction left with
  | zero => exact fun _ _ _ => rfl
  | succ left ih =>
    intro i run room
    simp only [Fs.listFrom]
    split_ifs <;> first | rfl | exact ih _ _ _ | simp [ih, FileEnt.bare]

/-- A cache that is the listing but for the pages. -/
theorem held_of_keys {s : Fs} (h : s.files.map keyOf = (s.listing s.cwd).map keyOf) : Fs.Held s s := by
  refine ⟨⟨rfl, rfl, rfl⟩, ?_⟩
  have hbare : ∀ l : List FileEnt, l.map FileEnt.bare =
      (l.map keyOf).map fun x => ⟨x.1, none, x.2.1, x.2.2.1, x.2.2.2.1, x.2.2.2.2⟩ := fun l => by
    rw [List.map_map]
    rfl
  have hl : (s.listing s.cwd).map FileEnt.bare = s.listing s.cwd := listFrom_bare _ _ _ _ _
  rw [← hl, hbare, hbare, h]

/-- `dup2(3, 5)` after the open, then the read. -/
def readOfCopy : Kernel TwoNames :=
  ((later [(callFrame 14 3 5, smallIo)] (openedA, fun j => j == 3)).1).enterCall (readCall 5) smallIo

/-- A copy of the descriptor in the same directory. -/
theorem reads_opened_file_copy :
    ReadsFrom openedA.fs 0 [97] readOfCopy ∧ readOfCopy.fileRead 5 39 = some [1] := by
  have hrax : openedA.frame.rax.toNat = 3 := by decide +kernel
  have hheld : Fs.Held openedA.fs openedA.fs := held_of_keys (by decide +kernel)
  have hc : (onTwoFiles.tasks onTwoFiles.current).cwd = 0 := by decide +kernel
  refine ⟨?_, by decide +kernel⟩
  have h := (reads_opened_file (k := onTwoFiles) (v := openedA.fs) (by decide +kernel) smallIo
    (f := callFrame 6 0x401008 0) rfl (show _ = some [97] by decide +kernel) (by decide +kernel)
    hheld (show ∀ c ∈ [(callFrame 14 3 5, smallIo)], Leaves c.1 by simp [Leaves, callFrame])
    (show _ = later [(callFrame 14 3 5, smallIo)] (openedA, fun j => j == 3) by rw [← hrax]; rfl)
      (by decide) (.inr (by decide +kernel))
    (g := readCall 5) smallIo rfl (by decide +kernel) (by decide +kernel)).2
  rwa [hc] at h

/-- `chdir("s")` after the open, then the read. -/
def readInSub : Kernel TwoNames :=
  ((later [(callFrame 20 0x401000 0, smallIo)] (openedA, fun j => j == 3)).1).enterCall (readCall 3) smallIo

/-- `open("a")`, `chdir("s")`: the other `a` is read. -/
theorem other_file_read :
    Reachable ⟨⟨0⟩⟩ onTwoFiles ∧ openedA.frame.rax = 3 ∧ Leaves (callFrame 20 0x401000 0) ∧
    readInSub.fileRead 3 39 = some [2] ∧
    ((openedA.fs.denotes 0 [97]).map fun f => slice openedA.fs f 0 39) = some [1] ∧
    ¬ ReadsFrom openedA.fs 0 [97] readInSub := by
  have hread : readInSub.fileRead (toInt readInSub.frame.rdi) (wantOf readInSub.frame.rdx) =
      some [2] := by decide +kernel
  have hfile : ((openedA.fs.denotes 0 [97]).map fun f =>
      slice openedA.fs f (readInSub.schedFdOffset (toInt readInSub.frame.rdi))
        (wantOf readInSub.frame.rdx)) = some [1] := by
    decide +kernel
  refine ⟨(Reachable.boot twoFiles rfl rfl).run _, by decide +kernel, .inr (.inr (.inr rfl)),
    by decide +kernel, by decide +kernel, fun h => ?_⟩
  unfold ReadsFrom at h
  simp only [hread] at h
  obtain ⟨-, f, hf, hout⟩ := h
  rw [hf, Option.map_some, ← hout] at hfile
  cases hfile

end Kernel

end VampireOS
