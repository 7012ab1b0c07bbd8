import VampireOS.Lib.Ring
import VampireOS.Sched.Reach

/-!
# Pipes as streams, and who sleeps on them (sched.c:174-283, 989-1099)

A pipe is a queue kept in a ring: what was accepted is what was returned followed by the queue. A
task sleeps on a pipe only as long as its system call would block again.
-/

namespace VampireOS

open Lib

/-! ## Streams -/

/-- The queue is what was accepted and not yet returned, and it fits its page. -/
structure Pipe.Fifo (q : Pipe) : Prop where
  room : q.len ≤ pipeCap
  stream : q.accepted = q.returned ++ ring pipeCap q.data q.head q.len

theorem and_pipeMask (n : Nat) : n &&& pipeMask = n % pipeCap := by
  rw [show pipeMask = 2 ^ 12 - 1 from rfl, Nat.and_two_pow_sub_one_eq_mod]
  rfl

theorem ringStore_eq (xs : List UInt8) : ∀ (d : Nat → UInt8) (tail : Nat),
    Kernel.ringStore d tail xs = ringPut pipeCap d tail xs := by
  induction xs with
  | nil => intro d tail; rfl
  | cons x xs ih =>
    intro d tail
    rw [Kernel.ringStore, ringPut, and_pipeMask, ih]

/-- What a move does to pipe `p`. -/
inductive PipeStep (p : Nat) (q : Pipe) : Pipe → Prop where
  | refs (r w : Nat) : PipeStep p q { q with rrefs := r, wrefs := w }
  | free : PipeStep p q .unused
  | fresh (phys : Nat) (hp : p < pipeMax) : PipeStep p q { Pipe.unused with used := true, phys := phys }
  | read (n : Nat) : PipeStep p q { q with
      head := (q.head + min n q.len) &&& pipeMask, len := q.len - min n q.len
      returned := q.returned ++ (List.range (min n q.len)).map fun i => q.data ((q.head + i) &&& pipeMask) }
  | write (src : List UInt8) (h : q.len < pipeCap) : PipeStep p q { q with
      data := Kernel.ringStore q.data ((q.head + q.len) &&& pipeMask)
        (src.take (min src.length (pipeCap - q.len)))
      len := q.len + min src.length (pipeCap - q.len)
      accepted := q.accepted ++ src.take (min src.length (pipeCap - q.len)) }

theorem PipeStep.refl (p : Nat) (q : Pipe) : PipeStep p q q := .refs q.rrefs q.wrefs

/-- Only the pipes of the table come into use. -/
theorem PipeStep.low {p : Nat} {q q' : Pipe} (h : PipeStep p q q') (hp : pipeMax ≤ p) (hu : q.used = false) :
    q'.used = false := by
  cases h with
  | free => rfl
  | fresh phys hlt => exact absurd hlt (Nat.not_lt.2 hp)
  | _ => exact hu

theorem PipeStep.fifo {p : Nat} {q q' : Pipe} (h : PipeStep p q q') (hq : q.Fifo) : q'.Fifo := by
  cases h with
  | refs r w => exact ⟨hq.room, hq.stream⟩
  | free => exact ⟨Nat.zero_le _, rfl⟩
  | fresh phys hp => exact ⟨Nat.zero_le _, rfl⟩
  | read n =>
    have hle : min n q.len ≤ q.len := Nat.min_le_right _ _
    refine ⟨(Nat.sub_le _ _).trans hq.room, ?_⟩
    simp only [and_pipeMask]
    rw [List.append_assoc, hq.stream, ring_split q.data q.head hle]
    rfl
  | write src hl =>
    have hlen : (src.take (min src.length (pipeCap - q.len))).length = min src.length (pipeCap - q.len) := by
      rw [List.length_take]
      omega
    have hroom : q.len + (src.take (min src.length (pipeCap - q.len))).length ≤ pipeCap := by
      rw [hlen]
      omega
    refine ⟨by simp only; omega, ?_⟩
    have hput := ring_put q.head (src.take (min src.length (pipeCap - q.len))) q.data q.len hroom
    simp only [and_pipeMask, ringStore_eq, ringPut_mod]
    rw [hlen] at hput
    rw [hput, hq.stream, List.append_assoc]

namespace Kernel

variable {M : Type} [MemSys M] {A : Label → Prop} {m : M} {k k' : Kernel M}

omit [MemSys M] in
theorem minusRef_refs (c : FdKind) (q : Pipe) :
    minusRef c q = { q with rrefs := (minusRef c q).rrefs, wrefs := (minusRef c q).wrefs } := by
  unfold minusRef
  split <;> rfl

omit [MemSys M] in
theorem plusRef_refs (c : FdKind) (q : Pipe) :
    plusRef c q = { q with rrefs := (plusRef c q).rrefs, wrefs := (plusRef c q).wrefs } := by
  unfold plusRef
  split <;> rfl

/-- Pipes after `drop_fd`: one has an end less, or is free. -/
theorem dropFd_pipe (k : Kernel M) (i j q : Nat) : (k.dropFd i j).pipes q = k.pipes q ∨
    ((k.tasks i).fds j).endOf = some (((k.tasks i).fds j).kind, q) ∧
      (k.dropFd i j).pipes q = oneLess ((k.tasks i).fds j).kind (k.pipes q) := by
  rcases dropFd_cases k i j with ⟨-, e⟩ | ⟨-, -, e⟩ | ⟨p, he, -, -, e⟩ <;> rw [e]
  · exact .inl rfl
  · exact .inl rfl
  · rw [setFd_pipes, dropEnd_pipes]
    by_cases hq : q = p
    · subst hq
      exact .inr ⟨he, if_pos rfl⟩
    · exact .inl (if_neg hq)

theorem Move.pipe {c c' : Ghost × Kernel M} (h : Move A c c') (q : Nat) :
    PipeStep q (c.2.pipes q) (c'.2.pipes q) := by
  cases h with
  | quiet hq => rw [hq.pipes]; exact .refl _ _
  | @drop g k i j =>
    rcases dropFd_pipe k i j q with e | ⟨-, e⟩ <;> simp only [e]
    · exact .refl _ _
    · unfold oneLess
      split
      · exact .free
      · rw [minusRef_refs]; exact .refs _ _
  | @addEnd g k i j p e h0 he hp hu hl hj =>
    change PipeStep q (k.pipes q) (((k.setFd i j e).modPipe p (plusRef e.kind)).pipes q)
    rw [modPipe_pipes]
    split
    · rename_i hq
      subst hq
      rw [plusRef_refs]
      exact .refs _ _
    · exact .refl _ _
  | @alloc g k p hr hp =>
    rcases allocPipe_cases k with e | ⟨p', phys, hlow, -, -, e⟩
    · rw [e] at hp; cases hp
    · simp only [e, modPipe_pipes]
      split
      · rename_i hq
        exact .fresh phys (hq ▸ hlow)
      · exact .refl _ _
  | @discard g k p =>
    simp only [freePipe_pipes]
    split
    · exact .free
    · exact .refl _ _
  | @read g k fd n =>
    rcases schedPipeRead_cases k fd n with e | ⟨p, u, -, e, hu, -⟩ <;> simp only [e]
    · exact .refl _ _
    · rw [wakePipeWaiters_pipes, modPipe_pipes]
      split
      · rename_i hq
        subst hq
        rw [hu]
        exact .read n
      · exact .refl _ _
  | @write g k fd src =>
    rcases schedPipeWrite_cases k fd src with e | ⟨p, u, -, e, hu, hl, -⟩ <;> simp only [e]
    · exact .refl _ _
    · rw [wakePipeWaiters_pipes, modPipe_pipes]
      split
      · rename_i hq
        subst hq
        rw [hu]
        exact .write src hl
      · exact .refl _ _
  | die code hA hm hf => simp only [finishTask_pipes]; exact .refl _ _
  | freeKstack i hd => rw [(freeTaskKstack_rest _ i).1]; exact .refl _ _
  | _ => exact .refl _ _

theorem Reachable.fifo (h : Reachable m k) (p : Nat) : (k.pipes p).Fifo := by
  obtain ⟨_, hI⟩ := h.rests (I := fun c => ∀ p, (c.2.pipes p).Fifo) (fun _ _ _ _ => ⟨Nat.zero_le _, rfl⟩)
    fun c c' _ hc hm p => (hm.pipe p).fifo (hc p)
  exact hI p

/-- A write by the current task: what it answers and what it accepts. -/
structure WriteOk (k : Kernel M) (fd : Int) (src : List UInt8) : Prop where
  done : ∀ n, (k.schedPipeWrite fd src).2 = .done n → n ≤ src.length ∧
    ∀ q, ((k.schedPipeWrite fd src).1.pipes q).returned = (k.pipes q).returned ∧
      ((k.schedPipeWrite fd src).1.pipes q).accepted =
        (k.pipes q).accepted ++ if k.pipeEnd fd .pipeW = some q then src.take n else []
  block : (k.schedPipeWrite fd src).2 = .block →
    (k.schedPipeWrite fd src).1 = k ∧ ∃ q, k.pipeEnd fd .pipeW = some q ∧ (k.pipes q).len = pipeCap
  fail : (k.schedPipeWrite fd src).2 = .fail → (k.schedPipeWrite fd src).1 = k

/-- A read by the current task. -/
structure ReadOk (k : Kernel M) (fd : Int) (n : Nat) : Prop where
  done : ∀ out, (k.schedPipeRead fd n).2 = .done out → out.length ≤ n ∧
    ∀ q, ((k.schedPipeRead fd n).1.pipes q).accepted = (k.pipes q).accepted ∧
      ((k.schedPipeRead fd n).1.pipes q).returned =
        (k.pipes q).returned ++ if k.pipeEnd fd .pipeR = some q then out else []
  eof : (k.schedPipeRead fd n).2 = .done [] → 0 < n → ∃ q, k.pipeEnd fd .pipeR = some q ∧
    (k.pipes q).returned = (k.pipes q).accepted ∧ (k.pipes q).wrefs = 0
  block : (k.schedPipeRead fd n).2 = .block → (k.schedPipeRead fd n).1 = k ∧
    ∃ q, k.pipeEnd fd .pipeR = some q ∧
    (k.pipes q).len = 0 ∧ 0 < (k.pipes q).wrefs
  fail : (k.schedPipeRead fd n).2 = .fail → (k.schedPipeRead fd n).1 = k

omit [MemSys M] in
theorem writeOk (hq : ∀ p, (k.pipes p).Fifo) (fd : Int) (src : List UInt8) : WriteOk k fd src := by
  have hblock := schedPipeWrite_block (k := k) fd src
  refine ⟨fun n hn => ?_, fun hb => ?_, fun hf => ?_⟩
  · unfold schedPipeWrite at hn ⊢
    by_cases h0 : src = []
    · rw [if_pos h0] at hn ⊢
      cases hn
      exact ⟨Nat.zero_le _, fun q => ⟨rfl, by simp⟩⟩
    · rw [if_neg h0] at hn ⊢
      cases hp : k.pipeEnd fd .pipeW with
      | none => rw [hp] at hn; cases hn
      | some p =>
        rw [hp] at hn
        simp only [Option.elim_some] at hn ⊢
        split at hn
        · cases hn
        · rename_i hr
          split at hn
          · cases hn
          · rename_i hl
            cases hn
            rw [if_neg hr, if_neg hl]
            refine ⟨Nat.min_le_left _ _, fun q => ?_⟩
            rw [wakePipeWaiters_pipes, modPipe_pipes]
            by_cases hqp : q = p
            · subst hqp
              simp
            · simp [hqp, Ne.symm hqp]
  · obtain ⟨e, q, hq', hl, -⟩ := hblock hb
    exact ⟨e, q, hq', le_antisymm (hq q).room hl⟩
  · unfold schedPipeWrite at hf ⊢
    split at hf
    · cases hf
    · rename_i h0
      rw [if_neg h0]
      cases hp : k.pipeEnd fd .pipeW with
      | none => rfl
      | some p =>
        rw [hp] at hf
        simp only [Option.elim_some] at hf ⊢
        split at hf
        · rename_i hr
          rw [if_pos hr]
        · split at hf <;> cases hf

omit [MemSys M] in
theorem readOk (hq : ∀ p, (k.pipes p).Fifo) (fd : Int) (n : Nat) : ReadOk k fd n := by
  have hblock := schedPipeRead_block (k := k) fd n
  refine ⟨fun out ho => ?_, fun he hn => ?_, fun hb => ?_, fun hf => ?_⟩
  · unfold schedPipeRead at ho ⊢
    by_cases h0 : n = 0
    · rw [if_pos h0] at ho ⊢
      cases ho
      exact ⟨Nat.zero_le _, fun q => ⟨rfl, by simp⟩⟩
    · rw [if_neg h0] at ho ⊢
      cases hp : k.pipeEnd fd .pipeR with
      | none => rw [hp] at ho; cases ho
      | some p =>
        rw [hp] at ho
        simp only [Option.elim_some] at ho ⊢
        split at ho
        · rename_i hl
          rw [if_pos hl]
          simp only at ho
          split at ho
          · cases ho
            exact ⟨Nat.zero_le _, fun q => ⟨rfl, by simp⟩⟩
          · cases ho
        · rename_i hl
          cases ho
          rw [if_neg hl]
          refine ⟨by simp, fun q => ?_⟩
          rw [wakePipeWaiters_pipes, modPipe_pipes]
          by_cases hqp : q = p
          · subst hqp
            simp
          · simp [hqp, Ne.symm hqp]
  · unfold schedPipeRead at he
    rw [if_neg (Nat.pos_iff_ne_zero.1 hn)] at he
    cases hp : k.pipeEnd fd .pipeR with
    | none => rw [hp] at he; cases he
    | some p =>
      rw [hp] at he
      simp only [Option.elim_some] at he
      split at he
      · rename_i hl
        have hs := (hq p).stream
        rw [hl, ring_empty, List.append_nil] at hs
        refine ⟨p, rfl, hs.symm, ?_⟩
        simp only at he
        split at he
        · assumption
        · cases he
      · rename_i hl
        -- a read from a queue that is not empty returns something
        have hlen := congrArg List.length (Xfer.done.inj he)
        simp only [List.length_map, List.length_range, List.length_nil] at hlen
        omega
  · obtain ⟨e, q, h1, h2, h3⟩ := hblock hb
    exact ⟨e, q, h1, h2, h3⟩
  · unfold schedPipeRead at hf ⊢
    split at hf
    · cases hf
    · rename_i h0
      rw [if_neg h0]
      cases hp : k.pipeEnd fd .pipeR with
      | none => rfl
      | some p =>
        rw [hp] at hf
        simp only [Option.elim_some] at hf ⊢
        split at hf
        · simp only at hf
          split at hf <;> cases hf
        · cases hf

/-- **Pipes are FIFO streams**, whoever reads and writes them in whatever order. -/
theorem pipe_streams (h : Reachable m k) : (∀ p, (k.pipes p).Fifo) ∧ (∀ fd src, WriteOk k fd src) ∧
    ∀ fd n, ReadOk k fd n := ⟨h.fifo, writeOk h.fifo, readOk h.fifo⟩

/-- A task that has made a pipe, written three bytes to it, read them and sleeps in front of the
empty pipe. -/
def pipeReader : Kernel Plenty := (twoTasks ⟨0⟩).run [callOf 11 0 0,
  .syscall { callFrame 1 4 0 with rdx := 3 } smallIo, .syscall { callFrame 8 3 0 with rdx := 5 } smallIo,
  .syscall { callFrame 8 3 0 with rdx := 5 } smallIo]

theorem pipeReader_reachable : Reachable ⟨0⟩ pipeReader := (twoTasks_reachable _).run _

theorem pipe_streams_reader : (∀ p, (pipeReader.pipes p).Fifo) ∧ (∀ fd src, WriteOk pipeReader fd src) ∧
    ∀ fd n, ReadOk pipeReader fd n := pipe_streams pipeReader_reachable

example : (pipeReader.pipes 0).returned = [0, 0, 0] ∧ (pipeReader.tasks 0).state = .pipe := by decide +kernel

/-! ## Sleepers -/

/-- A task in TASK_PIPE waits for a pipe on which its system call would block again. -/
def Asleep (t : Task) (pipes : Nat → Pipe) : Prop :=
  t.state = .pipe → ∃ p, t.pipeWait = some p ∧ p < pipeMax ∧ (pipes p).used = true ∧
    WouldBlock t.regs t.fds (pipes p) p

omit [MemSys M] in
theorem endOf_like {e e' : FdEntry} (h : FdEntry.Like e e') : e'.endOf = e.endOf := by
  unfold FdEntry.endOf
  rw [h.1, h.2.1, h.2.2]

omit [MemSys M] in
/-- The call blocks with other descriptors as well, when the ends of the pipe are still there. -/
theorem WouldBlock.fds {f : Frame} {fds fds' : Nat → FdEntry} {q : Pipe} {p : Nat} (h : WouldBlock f fds q p)
    (he : ∀ j c, (fds j).endOf = some (c, p) → (fds' j).endOf = some (c, p)) : WouldBlock f fds' q p := by
  obtain ⟨hw, j, hj, ⟨h1, h2, h3⟩ | ⟨h1, h2, h3, h4⟩⟩ := h
  · exact ⟨hw, j, hj, .inl ⟨h1, he j _ h2, h3⟩⟩
  · exact ⟨hw, j, hj, .inr ⟨h1, h2, he j _ h3, h4⟩⟩

omit [MemSys M] in
theorem Asleep.awake {t : Task} {pipes : Nat → Pipe} (h : t.state ≠ .pipe) : Asleep t pipes :=
  fun hp => absurd hp h

omit [MemSys M] in
theorem Asleep.calm {t t' : Task} {pipes : Nat → Pipe} (h : Asleep t pipes) (hc : Calm t t') :
    Asleep t' pipes := by
  intro hp
  have hs : t.state = .pipe := by
    rcases hc.state with e | ⟨-, e⟩
    · rw [← e]; exact hp
    · rw [e] at hp; cases hp
  obtain ⟨p, h1, h2, h3, h4⟩ := h hs
  refine ⟨p, (hc.pipeWait hp).trans h1, h2, h3, ?_⟩
  rw [hc.regs (by rw [hs]; nofun)]
  exact h4.fds fun j c he => by rw [endOf_like (hc.fds j)]; exact he

omit [MemSys M] in
/-- The pipe waited for keeps its bytes and does not lose ends. -/
theorem Asleep.pipes {t : Task} {pipes pipes' : Nat → Pipe} (h : Asleep t pipes)
    (hq : ∀ p, t.pipeWait = some p → pipes' p = pipes p ∨ ∃ c, pipes' p = plusRef c (pipes p)) :
    Asleep t pipes' := by
  intro hp
  obtain ⟨p, h1, h2, h3, hw, j, hj, hb⟩ := h hp
  rcases hq p h1 with e | ⟨c, e⟩
  · rw [← e] at h3 hb
    exact ⟨p, h1, h2, h3, hw, j, hj, hb⟩
  · have hlen : (pipes' p).len = (pipes p).len ∧ (pipes' p).used = (pipes p).used := by
      rw [e]; unfold plusRef; split <;> exact ⟨rfl, rfl⟩
    have hr : (pipes p).rrefs ≤ (pipes' p).rrefs ∧ (pipes p).wrefs ≤ (pipes' p).wrefs := by
      rw [e]
      unfold plusRef
      split <;> exact ⟨by simp, by simp⟩
    refine ⟨p, h1, h2, hlen.2.trans h3, hw, j, hj, ?_⟩
    rcases hb with ⟨b1, b2, b3, b4⟩ | ⟨b1, b2, b3, b4, b5⟩
    · exact .inl ⟨b1, b2, hlen.1.trans b3, by omega⟩
    · exact .inr ⟨b1, b2, b3, by omega, by omega⟩

omit [MemSys M] in
theorem pipeOf_of_endOf {e : FdEntry} {c : FdKind} {p : Nat} (he : e.endOf = some (c, p)) (hp : p < pipeMax)
    (hu : (k.pipes p).used = true) : k.pipeOf e = some p := by
  obtain ⟨-, rfl, h1, h2⟩ := FdEntry.endOf_some.1 he
  unfold pipeOf
  rw [if_pos h1, h2]
  simp [Option.filter, hp, hu]

omit [MemSys M] in
/-- A wake-up on `p` leaves asleep only who waits for another pipe. -/
theorem wakePipeWaiters_asleep (hs : Shape k) {p n : Nat}
    (hp : ((k.wakePipeWaiters p).tasks n).state = .pipe) :
    (k.wakePipeWaiters p).tasks n = k.tasks n ∧ (k.tasks n).pipeWait ≠ some p := by
  have hn : n < k.taskCount := by
    by_contra hn
    simp only [wakePipeWaiters, if_neg hn] at hp
    rw [(hs.fresh n (by omega)).1] at hp
    cases hp
  simp only [wakePipeWaiters, if_pos hn, wakeWaiter] at hp ⊢
  split at hp
  · cases hp
  · rename_i hno
    rw [if_neg hno]
    exact ⟨rfl, fun hw => hno ⟨hp, hw⟩⟩

/-- Every task in TASK_PIPE sleeps rightly. -/
def SleepsRight (k : Kernel M) : Prop := ∀ i, Asleep (k.tasks i) k.pipes

theorem SleepsRight.dropFd (hs : Shape k) (h : SleepsRight k) (i j : Nat) : SleepsRight (k.dropFd i j) := by
  intro n
  rcases dropFd_cases k i j with ⟨-, e⟩ | ⟨hu, hnone, e⟩ | ⟨p, he, -, -, e⟩ <;> rw [e]
  · exact h n
  · intro hp
    rw [setFd_tasks] at hp ⊢
    simp only [setFd_pipes] at hp ⊢
    by_cases hn : n = i
    · subst hn
      simp only [if_true] at hp ⊢
      obtain ⟨p, h1, h2, h3, h4⟩ := h n hp
      refine ⟨p, h1, h2, h3, h4.fds fun j' c he => ?_⟩
      by_cases hj : j' = j
      · subst hj
        rw [pipeOf_of_endOf he h2 h3] at hnone
        cases hnone
      · rw [Function.update_of_ne hj]
        exact he
    · simp only [hn, if_false] at hp ⊢
      exact h n hp
  · intro hp
    have hpn : ((k.wakePipeWaiters p).tasks n).state = .pipe := by
      rw [setFd_tasks] at hp
      by_cases hn : n = i
      · subst hn
        simpa [dropEnd_tasks] using hp
      · simpa [hn, dropEnd_tasks] using hp
    obtain ⟨hsame, hne⟩ := wakePipeWaiters_asleep hs hpn
    rw [hsame] at hpn
    obtain ⟨p', h1, h2, h3, h4⟩ := h n hpn
    have hp' : p' ≠ p := fun hpp => hne (hpp ▸ h1)
    have hpipe : ((k.dropEnd ((k.tasks i).fds j).kind p).setFd i j .empty).pipes p' = k.pipes p' := by
      rw [setFd_pipes, dropEnd_pipes, if_neg hp']
    refine ⟨p', ?_⟩
    rw [hpipe, setFd_tasks]
    by_cases hn : n = i
    · subst hn
      simp only [if_true, dropEnd_tasks, hsame]
      refine ⟨h1, h2, h3, h4.fds fun j' c he' => ?_⟩
      by_cases hj : j' = j
      · subst hj
        rw [he] at he'
        cases he'
        exact absurd rfl hp'
      · rw [Function.update_of_ne hj]
        exact he'
    · simp only [hn, if_false, dropEnd_tasks, hsame]
      exact ⟨h1, h2, h3, h4⟩

omit [MemSys M] in
/-- Nobody falls asleep and the pipes stay. -/
theorem SleepsRight.of_calm (hI : SleepsRight k) (hp : k'.pipes = k.pipes)
    (ht : ∀ i, Calm (k.tasks i) (k'.tasks i) ∨ (k'.tasks i).state ≠ .pipe) : SleepsRight k' := by
  intro i
  rw [hp]
  rcases ht i with hc | hn
  · exact (hI i).calm hc
  · exact .awake hn

omit [MemSys M] in
/-- One slot is changed and does not sleep on a pipe. -/
theorem SleepsRight.one (hI : SleepsRight k) (hp : k'.pipes = k.pipes) (i : Nat)
    (hi : (k'.tasks i).state ≠ .pipe) (ht : ∀ n, n ≠ i → k'.tasks n = k.tasks n) : SleepsRight k' :=
  hI.of_calm hp fun n => by
    by_cases hn : n = i
    · subst hn
      exact .inr hi
    · rw [ht n hn]
      exact .inl (Calm.refl _)

omit [MemSys M] in
/-- An entry that was no pipe end gets another value, and perhaps its pipe one end more. -/
theorem SleepsRight.setFd (hI : SleepsRight k) {i j : Nat} (e : FdEntry)
    (h0 : ((k.tasks i).fds j).endOf = none) :
    SleepsRight (k.setFd i j e) := by
  intro n hp
  rw [setFd_tasks] at hp ⊢
  rw [setFd_pipes]
  by_cases hn : n = i
  · subst hn
    simp only [if_true] at hp ⊢
    obtain ⟨p, h1, h2, h3, h4⟩ := hI n hp
    refine ⟨p, h1, h2, h3, h4.fds fun j' c he => ?_⟩
    have hj : j' ≠ j := fun hj => by rw [hj, h0] at he; cases he
    rw [Function.update_of_ne hj]
    exact he
  · simp only [hn, if_false] at hp ⊢
    exact hI n hp

omit [MemSys M] in
/-- A transfer on a pipe wakes everybody who waits for it. -/
theorem SleepsRight.transfer (hs : Shape k) (hI : SleepsRight k) (p : Nat) (u : Pipe → Pipe) :
    SleepsRight ((k.modPipe p u).wakePipeWaiters p) := by
  have hs' : Shape (k.modPipe p u) := hs.same rfl rfl rfl rfl rfl
  intro n hp
  obtain ⟨hsame, hne⟩ := wakePipeWaiters_asleep hs' hp
  rw [hsame] at hp ⊢
  have hother : Asleep (k.tasks n) ((k.modPipe p u).wakePipeWaiters p).pipes := (hI n).pipes fun p' hp' => by
    have hpp : p' ≠ p := by
      rintro rfl
      exact hne hp'
    rw [wakePipeWaiters_pipes, modPipe_pipes, if_neg hpp]
    exact .inl rfl
  exact hother hp

omit [MemSys M] in
/-- The current task goes to sleep, on a pipe for a reason. -/
theorem SleepsRight.blocked (hI : SleepsRight k) (s : TaskState) (f : Task → Task)
    (hs : s ≠ .pipe ∨ ∃ p, (∀ t : Task, f t = { t with pipeWait := some p }) ∧ p < pipeMax ∧
      (k.pipes p).used = true ∧ WouldBlock k.frame (k.tasks k.current).fds (k.pipes p) p) :
    SleepsRight (k.blocked s f) := by
  intro n hp
  by_cases hn : n = k.current
  · subst hn
    simp only [Kernel.blocked, saveTask, modTask_tasks, modTask_current, if_true] at hp ⊢
    rcases hs with hs | ⟨p, hf, h1, h2, h3⟩
    · exact absurd hp hs
    · rw [hf]
      exact ⟨p, rfl, h1, h2, h3⟩
  · simp only [Kernel.blocked, saveTask, modTask_tasks, modTask_current, hn, if_false] at hp ⊢
    exact hI n hp

theorem Move.sleepers {c c' : Ghost × Kernel M} (hs : Shape c.2) (h : Move A c c')
    (hlow : ∀ p, pipeMax ≤ p → (c.2.pipes p).used = false) (hI : SleepsRight c.2) : SleepsRight c'.2 := by
  cases h with
  | quiet hq => exact hI.of_calm hq.pipes fun i => .inl (hq.task i)
  | trap f hm => exact hI
  | @chdir g k c pwd hA hm =>
    refine SleepsRight.one hI rfl k.current ?_ fun n hn => by rw [modTask_tasks, if_neg hn]
    rw [modTask_tasks, if_pos rfl]
    have hr : (k.tasks k.current).state = .ready := (hs.run hm).2
    simp [hr]
  | shell s hA hp => exact hI
  | drop i j => exact hI.dropFd hs i j
  | setFd i j e h0 he hl hj => exact hI.setFd e h0
  | @addEnd g k i j p e h0 he hp hu hl hj =>
    refine fun n => (hI.setFd (i := i) (j := j) e h0 n).pipes fun p' _ => ?_
    change ((k.setFd i j e).modPipe p (plusRef e.kind)).pipes p' = _ ∨ _
    rw [modPipe_pipes]
    by_cases hp' : p' = p
    · subst hp'
      exact .inr ⟨e.kind, if_pos rfl⟩
    · exact .inl (if_neg hp')
  | @alloc g k p hr hp =>
    rcases allocPipe_cases k with e | ⟨p', phys, -, hu, -, e⟩
    · rw [e] at hp; cases hp
    · simp only [e]
      intro n hpn
      obtain ⟨q, h1, h2, h3, h4⟩ := hI n hpn
      have hq : q ≠ p' := fun h => by rw [h, hu] at h3; cases h3
      refine ⟨q, h1, h2, ?_⟩
      simp only [modPipe_pipes, hq, if_false]
      exact ⟨h3, h4⟩
  | settle hr h => exact hI
  | @discard g k p hr hp hu h0 =>
    intro n hpn
    rw [freePipe_tasks] at hpn ⊢
    obtain ⟨q, h1, h2, h3, h4⟩ := hI n hpn
    have hq : q ≠ p := by
      rintro rfl
      obtain ⟨-, j, -, ⟨-, -, -, hw⟩ | ⟨-, -, -, -, hr⟩⟩ := h4
      · exact absurd h0.2 hw.ne'
      · exact absurd h0.1 hr.ne'
    refine ⟨q, h1, h2, ?_⟩
    simp only [freePipe_pipes, hq, if_false]
    exact ⟨h3, h4⟩
  | @read g k fd n =>
    rcases schedPipeRead_cases k fd n with e | ⟨p, u, -, e, -⟩ <;> simp only [e]
    · exact hI
    · exact hI.transfer hs p u
  | @write g k fd src =>
    rcases schedPipeWrite_cases k fd src with e | ⟨p, u, -, e, -⟩ <;> simp only [e]
    · exact hI
    · exact hI.transfer hs p u
  | @pause g k s f hA hm hsl hf =>
    refine hI.blocked s f (.inl ?_)
    rcases hsl with rfl | rfl <;> exact fun h => by cases h
  | @blockPipe g k p hA hm hu hw =>
    refine hI.blocked .pipe _ (.inr ⟨p, fun _ => rfl, ?_, hu, hw⟩)
    by_contra hp
    rw [hlow p (by omega)] at hu
    cases hu
  | load i hA hm hi hr => exact hI
  | @swap g k i hA hm hn hi hr =>
    refine SleepsRight.one hI rfl k.current ?_ fun n hn => by
      simp only [switchTo, saveTask, modTask_tasks, if_neg hn]
    have hr : (k.tasks k.current).state = .ready := (hs.run hm).2
    simp [switchTo, saveTask, hr]
  | halt hA hm h => exact hI
  | stop hA => exact hI
  | grow h => exact hI
  | @spawn g k i f parent t hA hi hd hk hc ht hf hp =>
    refine SleepsRight.one hI rfl i ?_ fun n hn => Function.update_of_ne hn _ _
    simp [spawnTask]
  | @doom g k hInt hTerm f hA hm =>
    refine SleepsRight.one hI rfl k.current ?_ fun n hn => by rw [modTask_tasks, if_neg hn]
    have hr : (k.tasks k.current).state = .ready := (hs.run hm).2
    simp [hr]
  | @die g k code hA hm hf =>
    refine SleepsRight.of_calm hI (finishTask_pipes _ _ _) fun n => ?_
    rcases finishTask_task k k.current code n with ⟨-, b, e⟩ | ⟨-, e⟩ | ⟨-, -, e⟩ <;> simp only [e]
    · exact .inr fun h => by cases h
    · exact .inl (Calm.refl _)
    · exact .inr fun h => by cases h
  | @blockWait g k w hA hm hw => exact SleepsRight.blocked (k := k.asks) hI .wait _ (.inl fun h => by cases h)
  | @reap g k child hA hm hc hd =>
    refine SleepsRight.one (k := k) hI rfl child ?_ fun n hn => ?_
    · simp [reapChild, setRax, asks, hd]
    · simp [reapChild, setRax, asks, hn]
  | refuse hA hm => exact hI
  | askPending hA hm hp => exact hI
  | take h => exact hI
  | noFrame h => exact hI
  | give h => exact hI
  | @freeKstack g k i hd =>
    refine SleepsRight.of_calm hI (freeTaskKstack_rest k i).1 fun n => ?_
    rcases freeTaskKstack_task k i n with e | ⟨rfl, e⟩ <;> rw [e]
    · exact .inl (Calm.refl _)
    · exact .inr (by simp [hd])

theorem Reachable.sleepers (h : Reachable m k) : SleepsRight k := by
  obtain ⟨_, -, hI⟩ := h.rests (I := fun c => (∀ p, pipeMax ≤ p → (c.2.pipes p).used = false) ∧
    SleepsRight c.2) (fun _ _ _ => ⟨fun _ _ => rfl, fun _ hp => by cases hp⟩)
    fun c c' hs hc hm => ⟨fun p hp => (hm.pipe p).low hp (hc.1 p hp), hm.sleepers hs hc.1 hc.2⟩
  exact hI

/-- **No lost pipe wake-up**: a task in TASK_PIPE has an end of the pipe it waits for, and the
system call that it will make again would block again: a read from an empty pipe that has a writer,
or a write to a full one that has a reader. -/
theorem pipe_sleepers (h : Reachable m k) (i : Nat) (hi : (k.tasks i).state = .pipe) :
    ∃ p j, (k.tasks i).pipeWait = some p ∧ fdIndex (toInt (k.tasks i).regs.rdi) = some j ∧
      wantOf (k.tasks i).regs.rdx ≠ 0 ∧
      (((k.tasks i).regs.rax = 8 ∧ ((k.tasks i).fds j).endOf = some (.pipeR, p) ∧
          (k.pipes p).len = 0 ∧ 0 < (k.pipes p).wrefs) ∨
        ((k.tasks i).regs.rax = 1 ∧ ((k.tasks i).fds j).endOf = some (.pipeW, p) ∧
          (k.pipes p).len = pipeCap ∧ 0 < (k.pipes p).rrefs)) := by
  obtain ⟨p, h1, -, -, hw, j, hj, hb⟩ := h.sleepers i hi
  refine ⟨p, j, h1, hj, hw, ?_⟩
  rcases hb with ⟨b1, b2, b3, b4⟩ | ⟨b1, -, b3, b4, b5⟩
  · exact .inl ⟨b1, b2, b3, b4⟩
  · exact .inr ⟨b1, b3, le_antisymm (h.fifo p).room b4, b5⟩

theorem pipe_sleepers_reader : ∃ p j, (pipeReader.tasks 0).pipeWait = some p ∧
    fdIndex (toInt (pipeReader.tasks 0).regs.rdi) = some j ∧ wantOf (pipeReader.tasks 0).regs.rdx ≠ 0 ∧
      (((pipeReader.tasks 0).regs.rax = 8 ∧ ((pipeReader.tasks 0).fds j).endOf = some (.pipeR, p) ∧
          (pipeReader.pipes p).len = 0 ∧ 0 < (pipeReader.pipes p).wrefs) ∨
        ((pipeReader.tasks 0).regs.rax = 1 ∧ ((pipeReader.tasks 0).fds j).endOf = some (.pipeW, p) ∧
          (pipeReader.pipes p).len = pipeCap ∧ 0 < (pipeReader.pipes p).rrefs)) :=
  pipe_sleepers pipeReader_reachable 0 (by decide +kernel)

end Kernel

end VampireOS
