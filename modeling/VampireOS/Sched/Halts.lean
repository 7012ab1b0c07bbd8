import VampireOS.Sched.Lives

/-!
# When the machine stops (sched.c:1452-1496, 1825-1848, idt.c:47-69)

`sched_exit` looks for a READY task once and else stays in its `hlt` loop, where ticks switch to
nobody; the other calls that find nobody READY wait in `idle_until_ready`. `exception_handler` stops
on every vector but 14.
-/

namespace VampireOS

open Lib

namespace Kernel

variable {M : Type} [MemSys M] {A : Label → Prop} {m : M} {k k' : Kernel M}

/-- An exception that `exception_handler` does not survive, when it comes from ring 3. -/
def Event.Fatal : Event → Prop
  | .exception _ vector _ _ => vector ≠ 14
  | _ => False

/-- In the `hlt` loop everybody is dead, or some exit left somebody behind. -/
def Last (k : Kernel M) : Prop :=
  k.mode ≠ .stop ∧ (k.mode = .halt → (∀ i, (k.tasks i).state = .dead) ∨ 0 < k.hist.deserted)

theorem Move.deserted {c c' : Ghost × Kernel M} (h : Move A c c') :
    c.2.hist.deserted ≤ c'.2.hist.deserted := by
  cases h with
  | quiet hq => exact hq.hist.deserted
  | drop i j => rw [dropFd_hist]
  | @alloc g k p hr hp =>
    rcases allocPipe_cases k with e | ⟨p', phys, -, -, -, e⟩
    · rw [e] at hp; cases hp
    · simp only [e]; exact le_rfl
  | discard => rw [freePipe_hist]
  | @read g k fd n => rcases schedPipeRead_cases k fd n with e | ⟨p, u, -, e, -⟩ <;>
      simp only [e] <;> exact le_rfl
  | @write g k fd src =>
    rcases schedPipeWrite_cases k fd src with e | ⟨p, u, -, e, -⟩ <;> simp only [e] <;> exact le_rfl
  | @die g k code hA hm hf => exact (finishTask_deserted k k.current code).ge
  | @freeKstack g k i hd => rw [(freeTaskKstack_rest k i).2.2.2.2.1]
  | _ => exact le_rfl

/-- Where a move leaves the processor. -/
theorem Move.mode {c c' : Ghost × Kernel M} (h : Move A c c') :
    c'.2.mode = c.2.mode ∨ c'.2.mode = .user ∨ c'.2.mode = .idle ∨
    (c'.2.mode = .halt ∧ ((∀ i, (c'.2.tasks i).state = .dead) ∨ 0 < c'.2.hist.deserted)) ∨ A .stop := by
  cases h with
  | quiet hq => exact .inl hq.mode
  | drop i j => exact .inl (dropFd_mode _ _ _)
  | @alloc g k p hr hp =>
    rcases allocPipe_cases k with e | ⟨p', phys, -, -, -, e⟩
    · rw [e] at hp; cases hp
    · simp only [e]; exact .inl rfl
  | discard => exact .inl (freePipe_mode _ _)
  | @read g k fd n => rcases schedPipeRead_cases k fd n with e | ⟨p, u, -, e, -⟩ <;> exact .inl (by simp [e])
  | @write g k fd src =>
    rcases schedPipeWrite_cases k fd src with e | ⟨p, u, -, e, -⟩ <;> exact .inl (by simp [e])
  | load | swap => exact .inr (.inl rfl)
  | pause | blockPipe | die | blockWait => exact .inr (.inr (.inl rfl))
  | halt hA hm h => exact .inr (.inr (.inr (.inl ⟨rfl, h⟩)))
  | stop hA hS => exact .inr (.inr (.inr (.inr hS)))
  | @freeKstack g k i hd => exact .inl (freeTaskKstack_rest k i).2.2.2.1
  | _ => exact .inl rfl

/-- Nobody is born in the `hlt` loop, unless there was one at the start of the event. -/
theorem Last.move {c c' : Ghost × Kernel M} (hl : ¬ A .late) (hS : ¬ A .stop) (hs : Shape c.2) (hI : Last c.2)
    (h : Move A c c') : Last c'.2 := by
  obtain ⟨hstop, hhalt⟩ := hI
  rcases h.mode with e | e | e | ⟨e, hd⟩ | hS'
  · refine ⟨e ▸ hstop, fun hm => ?_⟩
    rcases hhalt (e ▸ hm) with hdead | h0
    · have hmode : c.2.mode = .halt := e ▸ hm
      refine .inl fun i => ?_
      have hlife := h.life hs
      generalize c'.2 = k' at hlife
      cases hlife with
      | aside ha => exact (ha.task i).dead.2 (hdead i)
      | birth _ _ _ _ _ _ hA => exact absurd (hA hmode) hl
      | death _ hu => rw [hmode] at hu; cases hu
      | wait _ hu => rw [hmode] at hu; cases hu
      | reap _ hu => rw [hmode] at hu; cases hu
    · exact .inr (h0.trans_le h.deserted)
  · exact ⟨by rw [e]; nofun, fun hm => by rw [e] at hm; cases hm⟩
  · exact ⟨by rw [e]; nofun, fun hm => by rw [e] at hm; cases hm⟩
  · exact ⟨by rw [e]; nofun, fun _ => hd⟩
  · exact absurd hS' hS

/-- **The machine stops only when everybody is dead**, as long as no exception but a page fault
comes from ring 3 and each task that ends leaves somebody who can go on (READY, waiting for it, or
blocked on a pipe that it has an end of), or nobody alive. -/
theorem halts_last (h : Reachable m k) (e : Event) (hm : k.mode ≠ .halt ∧ k.mode ≠ .stop) (he : ¬ e.Fatal)
    (h0 : (k.step e).hist.deserted = 0) (hh : (k.step e).mode = .halt ∨ (k.step e).mode = .stop) :
    ∀ i, ((k.step e).tasks i).state = .dead := by
  have hl : ¬ e.labels k .late := by
    cases e <;> simp [Event.labels, hm.1]
  have hS : ¬ e.labels k .stop := by
    cases e with
    | exception f vector error cr2 =>
      have hv : vector = 14 := not_not.1 he
      simp [Event.labels, hv]
    | _ => simp [Event.labels]
  obtain ⟨_, hI⟩ := Rests.step (I := fun c => Last c.2) e (fun c c' hs hI hmv => hI.move hl hS hs hmv) h.shape
    ⟨∅, hm.2, fun hm' => absurd hm' hm.1⟩
  rcases hh with hh | hh
  · rcases hI.2 hh with hd | hpos
    · exact hd
    · exact absurd h0 (Nat.pos_iff_ne_zero.1 hpos)
  · exact absurd hh hI.1

/-- The second boot task, after the first one has exited. -/
def lastTask : Kernel Plenty := (twoTasks ⟨0⟩).run [callOf 2 0 0]

theorem lastTask_reachable : Reachable ⟨0⟩ lastTask := (twoTasks_reachable _).run _

theorem halts_last_exit : (lastTask.step (callOf 2 0 0)).mode = .halt ∧
    ∀ i, ((lastTask.step (callOf 2 0 0)).tasks i).state = .dead :=
  ⟨by decide +kernel, halts_last lastTask_reachable (callOf 2 0 0) (by decide +kernel)
    (by simp [callOf, Event.Fatal]) (by decide +kernel) (by decide +kernel)⟩

/-- The second boot task, while the first one sleeps. -/
def besideSleeper : Kernel Plenty := (twoTasks ⟨0⟩).run [callOf 4 10 0]

/-- It exits, and nobody wakes the sleeper; or it runs into an invalid opcode. -/
theorem halts_beside_sleeper : Reachable ⟨0⟩ besideSleeper ∧ besideSleeper.mode = .user ∧
    (besideSleeper.tasks 0).state = .sleep ∧ (besideSleeper.step (callOf 2 0 0)).mode = .halt ∧
    ((besideSleeper.step (callOf 2 0 0)).tasks 0).state = .sleep ∧
    (besideSleeper.step (.exception (callFrame 0 0 0) 6 0 0)).mode = .stop ∧
    ((besideSleeper.step (.exception (callFrame 0 0 0) 6 0 0)).tasks 1).state = .ready :=
  ⟨(twoTasks_reachable _).run _, by decide +kernel⟩

end Kernel

end VampireOS
