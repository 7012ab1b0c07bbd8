import VampireOS.Sched.Reach

/-!
# Sleep (sched.c:1398-1409, 1503-1536)

`SleepRun i k0 c k`: slot `i` has been asleep from `k0` to `k`, and `c` timer interrupts have come in
between. The other tasks do what they like meanwhile (`Undisturbed`), as long as they leave the
sleeper alone. `LastsFor` says that a sleep ends with the `n`-th interrupt and not before.
-/

namespace VampireOS

namespace Kernel

variable {M : Type} [MemSys M] {k k' k0 : Kernel M} {i c n : Nat}

/-! ## One slot -/

/-- What `wake_sleepers` looks at. -/
structure SameNap (t t' : Task) : Prop where
  state : t'.state = t.state
  wake : t'.wakeTick = t.wakeTick
  pending : t'.pending = t.pending

theorem SameNap.refl (t : Task) : SameNap t t := ⟨rfl, rfl, rfl⟩

theorem SameNap.trans {t t' t'' : Task} (h : SameNap t t') (h' : SameNap t' t'') : SameNap t t'' :=
  ⟨h'.state.trans h.state, h'.wake.trans h.wake, h'.pending.trans h.pending⟩

theorem SameNap.wakeSleeper {t t' : Task} (h : SameNap t t') (now : UInt32) :
    SameNap (wakeSleeper now t) (wakeSleeper now t') := by
  unfold Kernel.wakeSleeper
  rw [h.state, h.wake, h.pending]
  split
  · exact ⟨rfl, rfl, rfl⟩
  · exact h

omit [MemSys M] in
theorem modTask_nap {f : Task → Task} (hf : ∀ t, SameNap t (f t)) (j i : Nat) :
    SameNap (k.tasks i) ((k.modTask j f).tasks i) := by
  unfold modTask
  by_cases h : i = j
  · subst h
    simp only [Function.update_self]
    exact hf _
  · simp only [Function.update_of_ne h]
    exact .refl _

omit [MemSys M] in
theorem switchToNext_nap (k : Kernel M) (i : Nat) : SameNap (k.tasks i) (k.switchToNext.tasks i) := by
  unfold switchToNext
  cases k.pickNext k.current with
  | none => exact .refl _
  | some j =>
    simp only [Option.elim_some]
    split
    · exact .refl _
    · exact modTask_nap (f := fun t => { t with regs := k.frame }) (fun t => ⟨rfl, rfl, rfl⟩) k.current i

/-- A timer interrupt treats the sleeper as `wake_sleepers` does. -/
theorem tick_nap (k : Kernel M) (hi : i < k.taskCount) :
    SameNap (wakeSleeper (k.ticks + 1) (k.tasks i)) ((k.act .tick).tasks i) := by
  simp only [act, schedOnTick]
  set k1 : Kernel M := { k with ticks := k.ticks + 1 } with hk1
  set k2 := (if k1.taskCount ≠ 0 ∧ (k1.tasks k1.current).state ≠ .dead then
    k1.modTask k1.current fun t => { t with cpuTicks := t.cpuTicks + 1 } else k1) with hk2
  have hcharge : SameNap (k.tasks i) (k2.tasks i) ∧ k2.ticks = k.ticks + 1 ∧ k2.taskCount = k.taskCount := by
    rw [hk2]
    split
    · exact ⟨modTask_nap (k := k1) (f := fun t => { t with cpuTicks := t.cpuTicks + 1 })
        (fun t => ⟨rfl, rfl, rfl⟩) _ _, rfl, rfl⟩
    · exact ⟨.refl _, rfl, rfl⟩
  have hwake : SameNap (wakeSleeper (k.ticks + 1) (k.tasks i)) (k2.wakeSleepers.tasks i) := by
    have he : k2.wakeSleepers.tasks i = wakeSleeper k2.ticks (k2.tasks i) := if_pos (hcharge.2.2 ▸ hi)
    rw [he, hcharge.2.1]
    exact hcharge.1.wakeSleeper _
  split
  · exact hwake.trans (switchToNext_nap _ i)
  · exact hwake

omit [MemSys M] in
theorem idleTurn_nap (k : Kernel M) (hi : i < k.taskCount) :
    SameNap (wakeSleeper k.ticks (k.tasks i)) (k.idleTurn.tasks i) := by
  have he : k.wakeSleepers.tasks i = wakeSleeper k.ticks (k.tasks i) := if_pos hi
  unfold idleTurn
  simp only
  cases k.wakeSleepers.pickNext k.wakeSleepers.current with
  | none => exact he ▸ .refl _
  | some j => exact he ▸ .refl _

/-! ## A sleep -/

/-- What the rest of the kernel does while slot `i` sleeps, between two interrupts. -/
structure Undisturbed (i : Nat) (k k' : Kernel M) : Prop where
  ticks : k'.ticks = k.ticks
  count : i < k'.taskCount
  nap : SameNap (k.tasks i) (k'.tasks i)

inductive SleepRun (i : Nat) (k0 : Kernel M) : Nat → Kernel M → Prop where
  | start : SleepRun i k0 0 k0
  | other {c : Nat} {k k' : Kernel M} (h : SleepRun i k0 c k) (hu : Undisturbed i k k') : SleepRun i k0 c k'
  | idle {c : Nat} {k : Kernel M} (h : SleepRun i k0 c k) (hm : k.mode = .idle)
      (hs : (k.idleTurn.tasks i).state = .sleep) : SleepRun i k0 c k.idleTurn
  | tick {c : Nat} {k : Kernel M} (h : SleepRun i k0 c k) (hs : ((k.act .tick).tasks i).state = .sleep) :
      SleepRun i k0 (c + 1) (k.act .tick)

/-- The sleep of slot `i` that began in `k0` ends with the `n`-th interrupt: until then neither an
interrupt nor the idle loop wakes the slot. -/
def LastsFor (i n : Nat) (k0 : Kernel M) : Prop :=
  ∀ c k, SleepRun i k0 c k → c < n ∧ (k.mode = .idle → (k.idleTurn.tasks i).state = .sleep) ∧
    ((k.act .tick).tasks i).state = if c + 1 = n then .ready else .sleep

/-- Slot `i` is asleep until `w`, with no signal, when the counter shows `now`. -/
structure Naps (i : Nat) (w now : UInt32) (k : Kernel M) : Prop where
  count : i < k.taskCount
  state : (k.tasks i).state = .sleep
  wake : (k.tasks i).wakeTick = w
  pending : (k.tasks i).pending = 0
  ticks : k.ticks = now

omit [MemSys M] in
theorem Naps.wakeSleeper {w now : UInt32} (h : Naps i w now k) (t : UInt32) :
    (wakeSleeper t (k.tasks i)).state = (if w ≤ t then .ready else .sleep) ∧
      (wakeSleeper t (k.tasks i)).wakeTick = w ∧ (wakeSleeper t (k.tasks i)).pending = 0 := by
  unfold Kernel.wakeSleeper
  rw [h.state, h.wake, h.pending]
  by_cases hw : w ≤ t
  · simp [hw]
  · simp [hw, h.state, h.wake, h.pending]

theorem Naps.tick_state {w now : UInt32} (h : Naps i w now k) :
    ((k.act .tick).tasks i).state = if w ≤ now + 1 then .ready else .sleep := by
  rw [(tick_nap k h.count).state, h.ticks]
  exact (h.wakeSleeper _).1

omit [MemSys M] in
theorem Naps.idle_state {w now : UInt32} (h : Naps i w now k) :
    (k.idleTurn.tasks i).state = if w ≤ now then .ready else .sleep := by
  rw [(idleTurn_nap k h.count).state, h.ticks]
  exact (h.wakeSleeper _).1

omit [MemSys M] in
theorem switchToNext_counts (k : Kernel M) :
    k.switchToNext.ticks = k.ticks ∧ k.switchToNext.taskCount = k.taskCount := by
  unfold switchToNext
  cases k.pickNext k.current with
  | none => exact ⟨rfl, rfl⟩
  | some j =>
    simp only [Option.elim_some]
    split <;> exact ⟨rfl, rfl⟩

theorem tick_counts (k : Kernel M) :
    (k.act .tick).ticks = k.ticks + 1 ∧ (k.act .tick).taskCount = k.taskCount := by
  simp only [act, schedOnTick]
  set k1 : Kernel M := { k with ticks := k.ticks + 1 } with hk1
  set k2 := (if k1.taskCount ≠ 0 ∧ (k1.tasks k1.current).state ≠ .dead then
    k1.modTask k1.current fun t => { t with cpuTicks := t.cpuTicks + 1 } else k1) with hk2
  have hcharge : k2.ticks = k.ticks + 1 ∧ k2.taskCount = k.taskCount := by
    rw [hk2]
    split <;> exact ⟨rfl, rfl⟩
  split
  · obtain ⟨h1, h2⟩ := switchToNext_counts k2.wakeSleepers
    exact ⟨h1.trans hcharge.1, h2.trans hcharge.2⟩
  · exact hcharge

omit [MemSys M] in
theorem idleTurn_counts (k : Kernel M) : k.idleTurn.ticks = k.ticks ∧ k.idleTurn.taskCount = k.taskCount := by
  unfold idleTurn
  simp only
  cases k.wakeSleepers.pickNext k.wakeSleepers.current <;> exact ⟨rfl, rfl⟩

/-- The interrupts are counted as long as the slot is asleep. -/
theorem SleepRun.naps {w now : UInt32} (h0 : Naps i w now k0) (h : SleepRun i k0 c k) :
    Naps i w (now + UInt32.ofNat c) k := by
  induction h with
  | start => exact (UInt32.add_zero now).symm ▸ h0
  | other _ hu ih =>
    exact ⟨hu.count, hu.nap.state.trans ih.state, hu.nap.wake.trans ih.wake, hu.nap.pending.trans ih.pending,
      hu.ticks.trans ih.ticks⟩
  | @idle c k _ _ hs ih =>
    obtain ⟨-, h2, h3⟩ := ih.wakeSleeper k.ticks
    have hnap := idleTurn_nap k ih.count
    obtain ⟨e1, e2⟩ := idleTurn_counts k
    exact ⟨e2 ▸ ih.count, hs, hnap.wake.trans h2, hnap.pending.trans h3, e1.trans ih.ticks⟩
  | @tick c k _ hs ih =>
    obtain ⟨-, h2, h3⟩ := ih.wakeSleeper (k.ticks + 1)
    have hnap := tick_nap k ih.count
    obtain ⟨e1, e2⟩ := tick_counts k
    refine ⟨e2 ▸ ih.count, hs, hnap.wake.trans h2, hnap.pending.trans h3, ?_⟩
    rw [e1, ih.ticks, UInt32.ofNat_add, UInt32.add_assoc]
    rfl

/-- With `now + n` in range, the `n`-th interrupt wakes the slot. -/
theorem Naps.due {w now : UInt32} (hw : w.toNat = now.toNat + n) (hc : c < n) :
    w ≤ now + UInt32.ofNat c + 1 ↔ c + 1 = n := by
  have := w.toNat_lt
  rw [UInt32.le_iff_toNat_le, UInt32.toNat_add, UInt32.toNat_add, UInt32.toNat_ofNat', UInt32.toNat_one]
  omega

theorem SleepRun.count {w now : UInt32} (h0 : Naps i w now k0) (hw : w.toNat = now.toNat + n)
    (hn : 0 < n) (h : SleepRun i k0 c k) :
    c < n := by
  induction h with
  | start => exact hn
  | other _ _ ih => exact ih
  | idle _ _ _ ih => exact ih
  | @tick c k h hs ih =>
    rw [(h.naps h0).tick_state] at hs
    by_cases hdue : w ≤ now + UInt32.ofNat c + 1
    · rw [if_pos hdue] at hs
      cases hs
    · have := mt (Naps.due hw ih).2 hdue
      omega

/-- `sched_sleep` puts the running task to sleep until the counter shows `ticks + (unsigned)n`. -/
theorem schedSleep_naps (hc : k.current < k.taskCount) (hp : (k.tasks k.current).pending = 0)
    {n : UInt64} (hn : n ≠ 0) :
    Naps k.current (k.ticks + n.toUInt32) k.ticks (k.schedSleep n) := by
  have hno : ¬k.taskHasPending k.current := by
    unfold taskHasPending
    simp [hp]
  unfold schedSleep
  rw [if_neg hno, if_neg hn]
  unfold block saveTask modTask
  simp only [Function.update_idem, Function.update_self]
  generalize pickNext _ _ = next
  cases next with
  | none => exact ⟨hc, by simp [setCr3], by simp [setCr3], by simp [setCr3, hp], rfl⟩
  | some j => exact ⟨hc, by simp [switchTo], by simp [switchTo], by simp [switchTo, hp], rfl⟩

/-- **A sleep lasts as long as asked** exactly when the deadline, summed without truncation, is
below `2 ^ 32`. -/
theorem schedSleep_lasts_iff (hc : k.current < k.taskCount) (hp : (k.tasks k.current).pending = 0)
    {n : UInt64} (hn : n ≠ 0) :
    LastsFor k.current n.toNat (k.schedSleep n) ↔ k.ticks.toNat + n.toNat < 2 ^ 32 := by
  have hnap := schedSleep_naps hc hp hn
  have hpos : 0 < n.toNat := Nat.pos_of_ne_zero fun h => hn (UInt64.toNat.inj h)
  have hnow := k.ticks.toNat_lt
  constructor
  · intro h
    by_contra hwrap
    by_cases hle : k.ticks + n.toUInt32 ≤ k.ticks
    · -- the deadline has passed already: the idle loop wakes the task at once
      have hidle : SleepRun k.current (k.schedSleep n) 0 { k.schedSleep n with mode := .idle } :=
        .other .start ⟨rfl, hnap.count, .refl _⟩
      have hst := (h 0 _ hidle).2.1 rfl
      rw [(hidle.naps hnap).idle_state, if_pos (by simpa using hle)] at hst
      cases hst
    · -- the high bits of `n` are lost: the task wakes after `n mod 2 ^ 32` interrupts
      rw [UInt32.le_iff_toNat_le, UInt32.toNat_add, UInt64.toNat_toUInt32] at hle
      have hrun : ∀ c, c < n.toNat % 2 ^ 32 → ∃ k', SleepRun k.current (k.schedSleep n) c k' := by
        intro c
        induction c with
        | zero => exact fun _ => ⟨_, .start⟩
        | succ c ih =>
          intro hc'
          obtain ⟨k', hk'⟩ := ih (by omega)
          refine ⟨_, .tick hk' ?_⟩
          rw [(hk'.naps hnap).tick_state, if_neg]
          rw [UInt32.le_iff_toNat_le, UInt32.toNat_add, UInt32.toNat_add, UInt32.toNat_add,
            UInt64.toNat_toUInt32, UInt32.toNat_ofNat', UInt32.toNat_one]
          omega
      obtain ⟨k', hk'⟩ := hrun (n.toNat % 2 ^ 32 - 1) (by omega)
      have hst := (h _ _ hk').2.2
      rw [(hk'.naps hnap).tick_state, if_pos, if_neg (by omega)] at hst
      · cases hst
      · rw [UInt32.le_iff_toNat_le, UInt32.toNat_add, UInt32.toNat_add, UInt32.toNat_add,
          UInt64.toNat_toUInt32, UInt32.toNat_ofNat', UInt32.toNat_one]
        omega
  · intro hsmall c k' h
    have hk' := h.naps hnap
    have hdead : (k.ticks + n.toUInt32).toNat = k.ticks.toNat + n.toNat := by
      rw [UInt32.toNat_add, UInt64.toNat_toUInt32]
      omega
    have hcount := SleepRun.count hnap hdead hpos h
    refine ⟨hcount, fun _ => ?_, ?_⟩
    · rw [hk'.idle_state, if_neg]
      rw [UInt32.le_iff_toNat_le, hdead, UInt32.toNat_add, UInt32.toNat_ofNat']
      omega
    · rw [hk'.tick_state]
      exact if_congr (Naps.due hdead hcount) rfl rfl

/-- Two tasks, shortly before the counter comes round. -/
def lateTasks : Kernel Plenty := { twoTasks ⟨0⟩ with ticks := 4294967286 }

/-- A sleep of 20 ends with the first interrupt, and so does one of `2 ^ 32 + 1`. -/
theorem lateTasks_early :
    (lateTasks.tasks lateTasks.current).pending = 0 ∧
      ((lateTasks.schedSleep 20).tasks lateTasks.current).state = .sleep ∧
      (((lateTasks.schedSleep 20).act .tick).tasks lateTasks.current).state = .ready ∧
      (((lateTasks.schedSleep 4294967297).act .tick).tasks lateTasks.current).state = .ready := by
  decide +kernel

theorem schedSleep_lasts_iff_late :
    lateTasks.current < lateTasks.taskCount ∧ (lateTasks.tasks lateTasks.current).pending = 0 ∧
    (5 : UInt64) ≠ 0 ∧ (LastsFor lateTasks.current (5 : UInt64).toNat (lateTasks.schedSleep 5) ↔
      lateTasks.ticks.toNat + (5 : UInt64).toNat < 2 ^ 32) :=
  have hc : lateTasks.current < lateTasks.taskCount := by decide +kernel
  have hp : (lateTasks.tasks lateTasks.current).pending = 0 := by decide +kernel
  ⟨hc, hp, by decide, schedSleep_lasts_iff hc hp (by decide)⟩

end Kernel

end VampireOS
