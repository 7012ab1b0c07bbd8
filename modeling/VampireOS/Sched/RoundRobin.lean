import VampireOS.Lib.Cyclic
import Mathlib.Tactic.IntervalCases
import VampireOS.Sched.Sleep

/-!
# Round robin (sched.c:143-172, 1469-1495)

`Slices R n K F` is a run of `n` timer interrupts in ring 3 during which the READY slots are those
of `R`: in slice `j` the machine is in `K j`, and its interrupt finds the registers `F j`. Between
two interrupts the running task and the rest of the kernel do what they like (`Interlude`), as long
as the processor stays where it is and the tasks that wait for it are left alone.
-/

namespace VampireOS

open Lib

namespace Kernel

variable {M : Type} [MemSys M] {k k' : Kernel M} {R : Finset Nat}

def readySlots (k : Kernel M) : Finset Nat :=
  (Finset.range k.taskCount).filter fun i => (k.tasks i).state = .ready

omit [MemSys M] in
theorem mem_readySlots {i : Nat} : i ∈ k.readySlots ↔ i < k.taskCount ∧ (k.tasks i).state = .ready := by
  simp [readySlots]

/-! ## `pick_next` -/

omit [MemSys M] in
/-- The scan comes back empty only when no slot is READY. -/
theorem pickNext_none_iff {start : Nat} (hs : start < k.taskCount) :
    k.pickNext start = none ↔ ∀ i, i < k.taskCount → (k.tasks i).state ≠ .ready := by
  refine ⟨fun he i hi => pickNext_none hs he hi, fun he => ?_⟩
  cases hp : k.pickNext start with
  | none => rfl
  | some i =>
    obtain ⟨h1, h2⟩ := pickNext_some hp
    exact absurd h2 (he i h1)

omit [MemSys M] in
/-- The scan meets the slots in cyclic order. -/
theorem pickNext_eq {start : Nat} (hs : start < k.taskCount) (hne : k.readySlots.Nonempty) :
    k.pickNext start = some (cyclicNext k.readySlots start) := by
  cases hp : k.pickNext start with
  | none =>
    obtain ⟨i, hi⟩ := hne
    obtain ⟨h1, h2⟩ := mem_readySlots.1 hi
    exact absurd h2 ((pickNext_none_iff hs).1 hp i h1)
  | some j =>
    have hj := mem_readySlots.2 (pickNext_some hp)
    -- nothing READY is met before `j`
    have hfirst : ∃ i, i < k.taskCount ∧ (start + (i + 1)) % k.taskCount = j ∧
        ∀ i' < i, (start + (i' + 1)) % k.taskCount ∉ k.readySlots := by
      obtain ⟨-, i, hi, he, hall⟩ := List.find?_eq_some_iff_getElem.1 hp
      simp only [List.length_map, List.length_range] at hi
      simp only [List.getElem_map, List.getElem_range] at he hall
      refine ⟨i, hi, he, fun i' hi' hmem => ?_⟩
      have := hall i' hi'
      rw [(mem_readySlots.1 hmem).2] at this
      cases this
    obtain ⟨i, hi, hij, hall⟩ := hfirst
    have hmin : ∀ x ∈ k.readySlots, ∀ i', i' < k.taskCount → (start + (i' + 1)) % k.taskCount = x →
        i ≤ i' := by
      intro x hx i' _ hx'
      by_contra hlt
      exact hall i' (by omega) (hx' ▸ hx)
    have hj1 := (mem_readySlots.1 hj).1
    unfold cyclicNext
    split
    · rename_i hn
      set m := (k.readySlots.filter (start < ·)).min' hn with hm
      obtain ⟨hmr, hsm⟩ := Finset.mem_filter.1 (Finset.min'_mem _ hn)
      have hm1 := (mem_readySlots.1 hmr).1
      have hle := hmin m hmr (m - start - 1) (by omega) (by
        rw [show start + (m - start - 1 + 1) = m by omega]
        exact Nat.mod_eq_of_lt hm1)
      rw [Nat.mod_eq_of_lt (by omega)] at hij
      have hge : m ≤ j := Finset.min'_le _ j (Finset.mem_filter.2 ⟨hj, by omega⟩)
      exact congrArg some (by omega)
    · rename_i hn
      set m := k.readySlots.min' hne with hm
      have hmr := Finset.min'_mem _ hne
      have hm1 := (mem_readySlots.1 hmr).1
      have hge : m ≤ j := Finset.min'_le _ j hj
      -- no READY slot comes after `start`
      have hlast : ∀ x ∈ k.readySlots, x ≤ start := by
        intro x hx
        by_contra hlt
        exact hn ⟨x, Finset.mem_filter.2 ⟨hx, by omega⟩⟩
      have hms := hlast m hmr
      have hle := hmin m hmr (m + k.taskCount - start - 1) (by omega) (by
        rw [show start + (m + k.taskCount - start - 1 + 1) = m + k.taskCount by omega, Nat.add_mod_right]
        exact Nat.mod_eq_of_lt hm1)
      have hjs := hlast j hj
      rcases Nat.lt_or_ge (start + (i + 1)) k.taskCount with hlt | hover
      · rw [Nat.mod_eq_of_lt hlt] at hij
        omega
      · rw [Nat.mod_eq_sub_mod hover, Nat.mod_eq_of_lt (by omega)] at hij
        exact congrArg some (by omega)

/-! ## One slice -/

omit [MemSys M] in
theorem readySlots_congr (hn : k'.taskCount = k.taskCount)
    (hs : ∀ i, (k'.tasks i).state = (k.tasks i).state) :
    k'.readySlots = k.readySlots := by
  ext i
  rw [mem_readySlots, mem_readySlots, hn, hs]

/-- What an interrupt in ring 3 does to the task that runs, with registers `f`, and to the others. -/
structure Slice (f : Frame) (k k' : Kernel M) : Prop where
  current : k'.current = cyclicNext k.readySlots k.current
  mode : k'.mode = .user
  saved : k'.current ≠ k.current → (k'.tasks k.current).regs = f
  others : ∀ s, s ≠ k.current → (k'.tasks s).regs = (k.tasks s).regs
  frame : k'.frame = if k'.current = k.current then f else (k.tasks k'.current).regs

omit [MemSys M] in
theorem switchToNext_slice (hm : k.mode = .user) (hc : k.current ∈ k.readySlots) :
    Slice k.frame k k.switchToNext := by
  have hpick := pickNext_eq (mem_readySlots.1 hc).1 ⟨_, hc⟩
  unfold switchToNext
  rw [hpick]
  simp only [Option.elim_some]
  split
  · rename_i hsame
    exact ⟨hsame.symm, hm, fun h => absurd rfl h, fun _ _ => rfl, (if_pos rfl).symm⟩
  · rename_i hne
    refine ⟨rfl, rfl, fun _ => ?_, fun s hs => ?_, ?_⟩
    · simp [saveTask, modTask, switchTo]
    · simp [saveTask, modTask, switchTo, hs]
    · simp [saveTask, modTask, switchTo, hne]

omit [MemSys M] in
theorem modTask_regs {f : Task → Task} (hf : ∀ t, (f t).regs = t.regs) (j s : Nat) :
    ((k.modTask j f).tasks s).regs = (k.tasks s).regs := by
  unfold modTask
  by_cases h : s = j
  · subst h
    simp only [Function.update_self]
    exact hf _
  · simp only [Function.update_of_ne h]

theorem tick_slice {f : Frame} (hm : k.mode = .user) (hc : k.current ∈ k.readySlots)
    (hR : ((k.trap f).act .tick).readySlots = k.readySlots) : Slice f k ((k.trap f).act .tick) := by
  simp only [act, schedOnTick] at hR ⊢
  set k1 : Kernel M := { k.trap f with ticks := (k.trap f).ticks + 1 } with hk1
  set k2 := (if k1.taskCount ≠ 0 ∧ (k1.tasks k1.current).state ≠ .dead then
    k1.modTask k1.current fun t => { t with cpuTicks := t.cpuTicks + 1 } else k1) with hk2
  have hcharge : k2.current = k.current ∧ k2.mode = .user ∧ k2.frame = f ∧ ∀ s, (k2.tasks s).regs =
      (k.tasks s).regs := by
    rw [hk2]
    split
    · exact ⟨rfl, hm, rfl, modTask_regs (k := k1)
        (f := fun t => { t with cpuTicks := t.cpuTicks + 1 }) (fun _ => rfl) _⟩
    · exact ⟨rfl, hm, rfl, fun _ => rfl⟩
  obtain ⟨h1, h2, h3, h4⟩ := hcharge
  have hregs : ∀ s, (k2.wakeSleepers.tasks s).regs = (k.tasks s).regs := by
    intro s
    rw [← h4 s]
    unfold wakeSleepers wakeSleeper
    simp only
    split
    · split <;> rfl
    · rfl
  rw [if_pos (show k2.wakeSleepers.mode = .user from h2)] at hR ⊢
  have hready : k2.wakeSleepers.readySlots = k.readySlots :=
    (readySlots_congr (switchToNext_counts _).2 fun i => (switchToNext_nap _ i).state).symm.trans hR
  obtain ⟨g1, g2, g3, g4, g5⟩ := switchToNext_slice (k := k2.wakeSleepers) h2
    (by rw [hready]; exact (show k2.wakeSleepers.current = k.current from h1) ▸ hc)
  have e1 : k2.wakeSleepers.current = k.current := h1
  have e3 : k2.wakeSleepers.frame = f := h3
  rw [e1] at g1 g3 g4 g5
  rw [e3] at g3 g5
  refine ⟨hready ▸ g1, g2, g3, fun s hs => (g4 s hs).trans (hregs s), ?_⟩
  rw [g5, hregs]

/-! ## A run -/

/-- What happens between two interrupts. -/
structure Interlude (k k' : Kernel M) : Prop where
  current : k'.current = k.current
  mode : k'.mode = k.mode
  ready : k'.readySlots = k.readySlots
  regs : ∀ s ∈ k.readySlots, s ≠ k.current → (k'.tasks s).regs = (k.tasks s).regs

structure Slices (R : Finset Nat) (n : Nat) (K : Nat → Kernel M) (F : Nat → Frame) : Prop where
  mode : (K 0).mode = .user
  current : (K 0).current ∈ R
  ready : ∀ j, j ≤ n → (K j).readySlots = R
  step : ∀ j, j < n → ∃ k, Interlude (K j) k ∧ K (j + 1) = (k.trap (F j)).act .tick

variable {n : Nat} {K : Nat → Kernel M} {F : Nat → Frame}

/-- One slice of a run: the rules of `Slice`, with the interlude before the interrupt. -/
theorem Slices.slice (h : Slices R n K F) {j : Nat} (hj : j < n) (hm : (K j).mode = .user)
    (hc : (K j).current ∈ R) :
    (K (j + 1)).current = cyclicNext R (K j).current ∧ (K (j + 1)).mode = .user ∧
      ((K (j + 1)).current ≠ (K j).current → ((K (j + 1)).tasks (K j).current).regs = F j) ∧
      (∀ s ∈ R, s ≠ (K j).current → ((K (j + 1)).tasks s).regs = ((K j).tasks s).regs) ∧
      (K (j + 1)).frame = if (K (j + 1)).current = (K j).current then F j
      else ((K j).tasks (K (j + 1)).current).regs := by
  obtain ⟨k, hi, he⟩ := h.step j hj
  have hR := h.ready j hj.le
  have hR' := h.ready (j + 1) hj
  have hready : k.readySlots = R := hi.ready.trans hR
  obtain ⟨g1, g2, g3, g4, g5⟩ := tick_slice (f := F j) (hi.mode.trans hm)
    (by rw [hready, hi.current]; exact hc) (by rw [← he, hR', hready])
  rw [← he, hi.current, hready] at g1
  rw [← he] at g2 g5
  rw [← he, hi.current] at g3 g4
  rw [hi.current] at g5
  refine ⟨g1, g2, g3, fun s hs hne => ?_, ?_⟩
  · rw [g4 s hne]
    exact hi.regs s (hR ▸ hs) hne
  · rw [g5]
    split
    · rfl
    · rename_i hne
      refine hi.regs _ ?_ hne
      rw [hR, g1]
      exact cyclicNext_mem hc

theorem Slices.runs (h : Slices R n K F) {j : Nat} (hj : j ≤ n) : (K j).mode = .user ∧ (K j).current ∈ R := by
  induction j with
  | zero => exact ⟨h.mode, h.current⟩
  | succ j ih =>
    obtain ⟨hm, hc⟩ := ih (by omega)
    obtain ⟨g1, g2, -⟩ := h.slice hj hm hc
    exact ⟨g2, g1 ▸ cyclicNext_mem hc⟩

theorem Slices.next (h : Slices R n K F) {j : Nat} (hj : j < n) :
    (K (j + 1)).current = cyclicNext R (K j).current :=
  (h.slice hj (h.runs hj.le).1 (h.runs hj.le).2).1

theorem Slices.iterate (h : Slices R n K F) {j i : Nat} (hj : j + i ≤ n) :
    (K (j + i)).current = (cyclicNext R)^[i] (K j).current := by
  induction i with
  | zero => rfl
  | succ i ih => rw [← Nat.add_assoc, h.next (by omega), ih (by omega), Function.iterate_succ_apply']

/-- Until it runs again, a task keeps the registers it was interrupted with. -/
theorem Slices.kept (h : Slices R n K F) {j d s : Nat} (hs : (K j).current = s) (hj : j + (d + 1) ≤ n)
    (haway : ∀ i, j < i → i ≤ j + (d + 1) → (K i).current ≠ s) : ((K (j + (d + 1))).tasks s).regs = F j := by
  have hR : s ∈ R := hs ▸ (h.runs (j := j) (by omega)).2
  induction d with
  | zero =>
    obtain ⟨-, -, g3, -⟩ := h.slice (j := j) (by omega) (h.runs (by omega)).1 (h.runs (by omega)).2
    rw [hs] at g3
    exact g3 (haway (j + 1) (by omega) (by omega))
  | succ d ih =>
    have hprev := ih (by omega) fun i h1 h2 => haway i h1 (by omega)
    obtain ⟨-, -, -, g4, -⟩ := h.slice (j := j + (d + 1)) (by omega) (h.runs (by omega)).1
      (h.runs (by omega)).2
    rw [← hprev]
    exact g4 s hR (haway (j + (d + 1)) (by omega) (by omega)).symm

/-- A task goes on with the registers it was interrupted with. -/
theorem Slices.resumes (h : Slices R n K F) {j d s : Nat} (hs : (K j).current = s) (hj : j + (d + 1) ≤ n)
    (haway : ∀ i, j < i → i < j + (d + 1) → (K i).current ≠ s) (hback : (K (j + (d + 1))).current = s) :
    (K (j + (d + 1))).frame = F j := by
  cases d with
  | zero =>
    obtain ⟨-, -, -, -, g5⟩ := h.slice (j := j) (by omega) (h.runs (by omega)).1 (h.runs (by omega)).2
    rw [g5, if_pos (hback.trans hs.symm)]
  | succ d =>
    obtain ⟨-, -, -, -, g5⟩ := h.slice (j := j + (d + 1)) (by omega) (h.runs (by omega)).1
      (h.runs (by omega)).2
    have hne : (K (j + (d + 1))).current ≠ s := haway _ (by omega) (by omega)
    have hback' : (K (j + (d + 1) + 1)).current = s := hback
    change (K (j + (d + 1) + 1)).frame = F j
    rw [g5, hback', if_neg hne.symm]
    exact h.kept hs (by omega) fun i h1 h2 => haway i h1 (by omega)

/-- **Round robin**: each slice goes to the next READY slot in cyclic order; in as many slices as
there are READY slots each of them runs once; every task resumes with the registers it was
interrupted with; and the scan comes back empty only when no slot is READY. -/
theorem round_robin (h : Slices R n K F) :
    (∀ j, j < n → (K (j + 1)).current = cyclicNext R (K j).current) ∧
      (∀ j, j + R.card ≤ n → ∀ s ∈ R, ∃! i, i < R.card ∧ (K (j + (i + 1))).current = s) ∧
      (∀ j j', j < j' → j' ≤ n → (K j').current = (K j).current →
      (∀ i, j < i → i < j' → (K i).current ≠ (K j).current) →
        (K j').frame = F j) ∧
      ∀ (k : Kernel M) (start : Nat), start < k.taskCount →
        (k.pickNext start = none ↔ ∀ i, i < k.taskCount → (k.tasks i).state ≠ .ready) := by
  refine ⟨fun j hj => h.next hj, fun j hj s hs => ?_, fun j j' hlt hj' hback haway => ?_,
    fun k start hstart => ?_⟩
  · obtain ⟨i, ⟨hi, he⟩, huniq⟩ := visits (h.runs (j := j) (by omega)).2 hs
    refine ⟨i, ⟨hi, (h.iterate (by omega)).trans he⟩, ?_⟩
    rintro i' ⟨hi', he'⟩
    exact huniq i' ⟨hi', (h.iterate (by omega)).symm.trans he'⟩
  · obtain ⟨d, rfl⟩ := Nat.exists_eq_add_of_lt hlt
    exact h.resumes (j := j) (d := d) rfl hj' haway hback
  · exact pickNext_none_iff hstart

/-- The machine after `j` interrupts in the boot tasks, which come with the registers `callFrame i 0 0`. -/
def ticked : Nat → Kernel Plenty
  | 0 => twoTasks ⟨0⟩
  | j + 1 => ((ticked j).trap (callFrame (UInt64.ofNat j) 0 0)).act .tick

theorem ticked_slices : Slices {0, 1} 3 ticked fun j => callFrame (UInt64.ofNat j) 0 0 where
  mode := by decide +kernel
  current := by decide +kernel
  ready := by
    intro j hj
    interval_cases j <;> decide +kernel
  step j _ := ⟨ticked j, ⟨rfl, rfl, rfl, fun _ _ _ => rfl⟩, rfl⟩

theorem round_robin_ticked : Slices {0, 1} 3 ticked (fun j => callFrame (UInt64.ofNat j) 0 0) ∧
    ((∀ j, j < 3 → (ticked (j + 1)).current = cyclicNext {0, 1} (ticked j).current) ∧
      (∀ j, j + ({0, 1} : Finset Nat).card ≤ 3 → ∀ s ∈ ({0, 1} : Finset Nat),
        ∃! i, i < ({0, 1} : Finset Nat).card ∧ (ticked (j + (i + 1))).current = s) ∧
      (∀ j j', j < j' → j' ≤ 3 → (ticked j').current = (ticked j).current →
        (∀ i, j < i → i < j' → (ticked i).current ≠ (ticked j).current) →
          (ticked j').frame = callFrame (UInt64.ofNat j) 0 0) ∧
      ∀ (k : Kernel Plenty) (start : Nat), start < k.taskCount →
        (k.pickNext start = none ↔ ∀ i, i < k.taskCount → (k.tasks i).state ≠ .ready)) :=
  ⟨ticked_slices, round_robin ticked_slices⟩

end Kernel

end VampireOS
