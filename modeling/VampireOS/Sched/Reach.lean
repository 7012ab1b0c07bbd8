import VampireOS.Sched.Events

/-!
# Reachable states

A state is reachable when events lead there from `sched_init`. An invariant is a property of the
state and of what the middle of a function knows about it (`Ghost`); it is proved for every move and
holds between events with no pipe half made and nobody about to die.
-/

namespace VampireOS

open Lib

namespace Kernel

variable {M : Type} [MemSys M] {A B : Label → Prop} {m : M} {k : Kernel M}

/-- Boot leaves the shell at the root; then anything may happen. -/
inductive Reachable (m : M) : Kernel M → Prop where
  | boot (fs : Fs) (hc : fs.cwd = 0) (hp : fs.path = [slash]) : Reachable m (schedInit m fs)
  | step {k : Kernel M} (h : Reachable m k) (e : Event) : Reachable m (k.step e)

/-- The states reached by events that meet `C` where they happen. -/
inductive ReachableBy (C : Kernel M → Event → Prop) (m : M) : Kernel M → Prop where
  | boot (fs : Fs) (hc : fs.cwd = 0) (hp : fs.path = [slash]) : ReachableBy C m (schedInit m fs)
  | step {k : Kernel M} (h : ReachableBy C m k) (e : Event) (he : C k e) : ReachableBy C m (k.step e)

theorem ReachableBy.reachable {C : Kernel M → Event → Prop} (h : ReachableBy C m k) : Reachable m k := by
  induction h with
  | boot fs hc hp => exact .boot fs hc hp
  | step _ e _ ih => exact ih.step e

theorem ReachableBy.run {C : Kernel M → Event → Prop} (h : ReachableBy C m k) {es : List Event}
    (hes : ∀ e ∈ es, ∀ k, C k e) : ReachableBy C m (k.run es) := by
  induction es generalizing k with
  | nil => exact h
  | cons e es ih =>
    exact ih (h.step e (hes e List.mem_cons_self k)) fun e' he' => hes e' (List.mem_cons_of_mem _ he')

/-- The trap of a system call, up to `user_on_syscall`. -/
def enterCall (k : Kernel M) (f : Frame) (io : Io) : Kernel M := (k.trap f).supply io.pages io.errs

/-- The same for the calls made on the kernel's own map. -/
def lateCall (k : Kernel M) (f : Frame) (io : Io) : Kernel M := (k.enterCall f io).setCr3 pml4Phys

omit [MemSys M] in
theorem schedInit_shape (m : M) {fs : Fs} (hp : fs.path = [slash]) : Shape (schedInit m fs) where
  count := Nat.zero_le _
  fresh _ _ := ⟨rfl, rfl, rfl⟩
  dead _ _ _ := rfl
  high _ _ _ := rfl
  live _ h := absurd rfl h
  stack _ h := absurd rfl h
  run h := by cases h
  path := by
    change Fs.PathOk fs.path
    rw [hp]
    exact ⟨List.cons_ne_nil _ _, by decide⟩

theorem Reachable.shape (h : Reachable m k) : Shape k := by
  induction h with
  | boot fs _ hp => exact schedInit_shape m hp
  | step _ e ih => exact step_shape ih e

theorem Reachable.run (h : Reachable m k) (es : List Event) : Reachable m (k.run es) := by
  induction es generalizing k with
  | nil => exact h
  | cons e es ih => exact ih (h.step e)

/-- More labels allow more moves. -/
theorem Move.mono (hAB : ∀ l, A l → B l) {c c' : Ghost × Kernel M} (h : Move A c c') : Move B c c' := by
  cases h with
  | quiet h => exact .quiet h
  | trap f hm => exact .trap f hm
  | chdir c pwd hA hm => exact .chdir c pwd (hAB _ hA) hm
  | shell s hA hs => exact .shell s (hAB _ hA) hs
  | drop i j => exact .drop i j
  | setFd i j e h0 he hl hj => exact .setFd i j e h0 he hl hj
  | addEnd i j p e h0 he hp hu hl hj => exact .addEnd i j p e h0 he hp hu hl hj
  | alloc hr h => exact .alloc hr h
  | settle hr h => exact .settle hr h
  | discard hr hp hu h0 => exact .discard hr hp hu h0
  | read fd n => exact .read fd n
  | write fd src => exact .write fd src
  | pause s f hA hm hs hf => exact .pause s f (hAB _ hA) hm hs hf
  | blockPipe p hA hm hu hw => exact .blockPipe p (hAB _ hA) hm hu hw
  | load i hA hm hi hr => exact .load i (hAB _ hA) hm hi hr
  | swap i hA hm hn hi hr => exact .swap i (hAB _ hA) hm hn hi hr
  | halt hA hm h => exact .halt (hAB _ hA) hm h
  | stop hA hS => exact .stop (hAB _ hA) (hAB _ hS)
  | grow h => exact .grow h
  | spawn i f parent t hA hi hd hk hc ht hf hp =>
    exact .spawn i f parent t (fun h => hAB _ (hA h)) hi hd hk hc ht hf hp
  | doom hInt hTerm f hA hm => exact .doom hInt hTerm f (hAB _ hA) hm
  | die code hA hm hf => exact .die code (hAB _ hA) hm hf
  | blockWait w hA hm hw => exact .blockWait w (hAB _ hA) hm hw
  | reap child hA hm hc hd => exact .reap child (hAB _ hA) hm hc hd
  | refuse hA hm => exact .refuse (hAB _ hA) hm
  | askPending hA hm hp => exact .askPending (hAB _ hA) hm hp
  | take h => exact .take h
  | noFrame h => exact .noFrame h
  | give h => exact .give h
  | freeKstack i hd => exact .freeKstack i hd

/-- An invariant of moves along a sequence of them. -/
theorem Moves.inv {I : Ghost × Kernel M → Prop} (hmove : ∀ c c', Shape c.2 → I c → Move A c c' → I c')
    {c c' : Ghost × Kernel M} (h : Moves A c c') (hs : Shape c.2) (hc : I c) : I c' := by
  induction h with
  | refl => exact hc
  | tail hrun hstep ih => exact hmove _ _ (Moves.shape hrun hs) ih hstep

/-- The invariant holds between events, for some set of frames under way. -/
def Rests (I : Ghost × Kernel M → Prop) (k : Kernel M) : Prop := ∃ L, I (⟨none, none, L⟩, k)

theorem Rests.step {I : Ghost × Kernel M → Prop} (e : Event)
    (hmove : ∀ c c', Shape c.2 → I c → Move (e.labels k) c c' → I c') (hs : Shape k) (h : Rests I k) :
    Rests I (k.step e) := by
  obtain ⟨L, hI⟩ := h
  obtain ⟨⟨raw, doomed, L'⟩, e1, e2, hmoves⟩ := step_reaches (r := ⟨none, none, L⟩) (k := k) rfl rfl e
  cases e1
  cases e2
  exact ⟨L', (hmoves hs).inv hmove hs hI⟩

theorem Reachable.rests {I : Ghost × Kernel M → Prop}
    (h0 : ∀ fs : Fs, fs.cwd = 0 → fs.path = [slash] → I (⟨none, none, ∅⟩, schedInit m fs))
    (hmove : ∀ c c', Shape c.2 → I c → Move (fun _ => True) c c' → I c') (h : Reachable m k) : Rests I k := by
  induction h with
  | boot fs hc hp => exact ⟨∅, h0 fs hc hp⟩
  | step hk e ih =>
    exact ih.step e (fun c c' hs hI hm => hmove c c' hs hI (hm.mono fun _ _ => trivial)) hk.shape

/-! ## Memory along a run -/

/-- The memory after a sequence of calls. -/
def MemFrom (m m' : M) : Prop := ∃ ops : List SpaceOp, m' = ops.foldl (fun m op => (MemSys.step m op).1) m

theorem MemFrom.refl (m : M) : MemFrom m m := ⟨[], rfl⟩

theorem MemFrom.trans {m m' m'' : M} (h : MemFrom m m') (h' : MemFrom m' m'') : MemFrom m m'' := by
  obtain ⟨ops, rfl⟩ := h
  obtain ⟨ops', rfl⟩ := h'
  exact ⟨ops ++ ops', by rw [List.foldl_append]⟩

theorem MemFrom.memDo (k : Kernel M) (op : SpaceOp) : MemFrom k.mem (k.memDo op).mem := ⟨[op], rfl⟩

theorem MemRun.from {m m' : M} (h : MemRun m m') : MemFrom m m' := by
  induction h with
  | refl => exact .refl m
  | tail _ op _ ih => exact ih.trans ⟨[op], rfl⟩

theorem freePipe_mem (k : Kernel M) (p : Nat) : MemFrom k.mem (k.freePipe p).mem := by
  unfold freePipe
  split
  · exact .memDo k _
  · exact .refl _

theorem dropFd_mem (k : Kernel M) (i j : Nat) : MemFrom k.mem (k.dropFd i j).mem := by
  rcases dropFd_cases k i j with ⟨-, e⟩ | ⟨-, -, e⟩ | ⟨p, -, -, -, e⟩ <;> rw [e]
  · exact .refl _
  · exact .refl _
  · rw [setFd_mem]
    unfold dropEnd
    simp only
    split
    · exact freePipe_mem _ p
    · exact .refl _

theorem freeTaskKstack_mem (k : Kernel M) (i : Nat) : MemFrom k.mem (k.freeTaskKstack i).mem := by
  unfold freeTaskKstack
  split
  · exact .refl _
  · simp only
    split
    · exact .memDo k _
    · exact .refl _

/-- Every move calls into the memory code or leaves it. -/
theorem Move.mem {c c' : Ghost × Kernel M} (h : Move A c c') : MemFrom c.2.mem c'.2.mem := by
  cases h with
  | quiet hq => exact hq.mem.from
  | drop i j => exact dropFd_mem _ i j
  | @alloc g k p hr hp =>
    rcases allocPipe_cases k with e | ⟨q, phys, -, -, -, e⟩
    · rw [e] at hp; cases hp
    · simp only [e]; exact .memDo k _
  | discard => exact freePipe_mem _ _
  | @read g k fd n => rcases schedPipeRead_cases k fd n with e | ⟨p, u, -, e, -⟩ <;>
      simp only [e] <;> exact .refl _
  | @write g k fd src => rcases schedPipeWrite_cases k fd src with e | ⟨p, u, -, e, -⟩ <;>
      simp only [e] <;> exact .refl _
  | die code hA hm hf =>
    simp only [finishTask_mem]
    exact .refl _
  | reap child hA hm hc hd => exact .refl _
  | take h => exact .memDo _ _
  | noFrame h => exact .memDo _ _
  | give h => exact .memDo _ _
  | freeKstack i hd => exact freeTaskKstack_mem _ i
  | _ => exact .refl _

theorem Reachable.mem (h : Reachable m k) : MemFrom m k.mem := by
  obtain ⟨_, hI⟩ := h.rests (I := fun c => MemFrom m c.2.mem) (fun _ _ _ => .refl m) fun c c' _ hc
    hm => hc.trans hm.mem
  exact hI

/-! ## A small machine -/

/-- A volume with one file, `A`, of one byte. -/
def smallVolume : Fs where
  disk := fun lba => if lba = 3 then
      ofList ([65] ++ List.replicate 10 0x20 ++ [0x20] ++ List.replicate 14 0 ++ [2, 0, 1, 0, 0, 0])
    else fun _ => 0
  dev := ⟨1, 0⟩
  errs := []
  pages := 100
  geo := ⟨1, 1, 10, 3, 4⟩
  fat := fun i => if i = 3 then 0xF8 else if i = 4 then 0x0F else 0
  cwd := 0
  savedCwd := 0
  path := [slash]
  dir := fun _ => 0
  dirBytes := 512
  files := [⟨[65], some fun _ => 0, 1, 2, 0, false⟩]
  view := none
  junk := fun _ => 0
  sent := []

/-- `A`, for elf.c a program of one byte. -/
def smallProg : Prog := ⟨[65], [], fun _ _ => some ⟨0x400000, [0x90], by decide⟩⟩

def smallIo : Io := ⟨100, [], fun _ _ => none, List.replicate 19 48, none, false⟩

/-- The registers of a call. -/
def callFrame (rax rdi rsi : UInt64) : Frame :=
  { Frame.start 0x400000 0x402000 with rax := rax, rdi := rdi, rsi := rsi }

/-- A call without a third argument. -/
def callOf (rax rdi rsi : UInt64) : Event := .syscall (callFrame rax rdi rsi) smallIo

/-- Two boot tasks, the first one running. -/
def twoTasks (m : M) : Kernel M :=
  (schedInit m smallVolume).run [.irq (.start 0 0) 100 [] [.bootTask smallProg, .bootTask smallProg], .enter]

theorem twoTasks_reachable (m : M) : Reachable m (twoTasks m) := (Reachable.boot smallVolume rfl rfl).run _

/-- 32 frames of memory from 2 MiB on. -/
def smallSpace : Space := Space.bootSpace (pmmInit ⟨24, [⟨0x200000, 0x20000, 1⟩]⟩)

theorem smallSpace_boot : smallSpace.Boot := Space.bootSpace_boot (pmmInit_ok _)

theorem twoTasks_user : (twoTasks smallSpace).mode = .user := by decide +kernel

/-- Memory whose calls all succeed; the frames are numbered from 2 MiB on. -/
structure Plenty where
  taken : Nat

instance : MemSys Plenty where
  step m op :=
    match op with
    | .kalloc _ => (⟨m.taken + 1⟩, some (page2M + m.taken * pageSize))
    | .clone => (⟨m.taken + 1⟩, some (page2M + m.taken * pageSize))
    | .fork _ => (⟨m.taken + 1⟩, some (page2M + m.taken * pageSize))
    | _ => (m, some 0)
  peek _ _ _ := some 0

theorem twoTasks_plenty : (twoTasks (M := Plenty) ⟨0⟩).mode = .user := by decide +kernel

end Kernel

end VampireOS
