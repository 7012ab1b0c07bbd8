import VampireOS.Sched.Pipes

/-!
# Who holds a pipe, and its page (sched.c:186-283, 595-636, 860-960)

The two counters of a pipe are the numbers of descriptors that are its ends, over all slots. The page
of a pipe is one of the kernel's frames, and nobody else's, from `alloc_pipe` until the last end is dropped.
-/

namespace VampireOS

open Lib

namespace Kernel

variable {M : Type} [MemSys M] {A : Label → Prop} {m : M} {k k' : Kernel M} {raw : Option Nat}

/-! ## Counting ends -/

/-- The entries of the descriptor tables. -/
def fdSites : Finset (Nat × Nat) := Finset.range taskMax ×ˢ Finset.range fdMax

/-- The pipe end at an entry. -/
def endAt (k : Kernel M) (x : Nat × Nat) : Option (FdKind × Nat) := ((k.tasks x.1).fds x.2).endOf

/-- How many descriptors are ends of kind `c` of pipe `p`. -/
def ends (k : Kernel M) (c : FdKind) (p : Nat) : Nat := fiber fdSites k.endAt (c, p)

/-- The references of a pipe are counted; `raw` is a pipe that has no end yet. -/
structure Counted (raw : Option Nat) (k : Kernel M) : Prop where
  rrefs : ∀ p, (k.pipes p).used = true → (k.pipes p).rrefs = k.ends .pipeR p
  wrefs : ∀ p, (k.pipes p).used = true → (k.pipes p).wrefs = k.ends .pipeW p
  bound : ∀ x c p, k.endAt x = some (c, p) → p < pipeMax ∧ (k.pipes p).used = true
  alive : ∀ p, (k.pipes p).used = true → raw = some p ∨ 0 < (k.pipes p).rrefs + (k.pipes p).wrefs

omit [MemSys M] in
theorem mem_fdSites (hs : Shape k) {i j : Nat} {c : FdKind} {p : Nat} (h : k.endAt (i, j) = some (c, p)) :
    (i, j) ∈ fdSites := by
  have hu : ((k.tasks i).fds j).used = true := (FdEntry.endOf_some.1 h).1
  have hl : (k.tasks i).state ≠ .dead := fun hd => by rw [hs.dead i hd j] at hu; cases hu
  have hi := hs.slot hl
  have hc := hs.count
  have hj : j < fdMax := by
    by_contra hj
    rw [hs.high i j (by omega)] at hu
    cases hu
  unfold fdSites
  rw [Finset.mem_product, Finset.mem_range, Finset.mem_range]
  exact ⟨by omega, hj⟩

omit [MemSys M] in
/-- Entries and counters are as before. -/
theorem Counted.same (h : Counted raw k) (he : ∀ x, k'.endAt x = k.endAt x)
    (hp : ∀ p, (k'.pipes p).used = (k.pipes p).used ∧ (k'.pipes p).rrefs = (k.pipes p).rrefs ∧
      (k'.pipes p).wrefs = (k.pipes p).wrefs) : Counted raw k' := by
  have hends : ∀ c p, k'.ends c p = k.ends c p := fun c p => fiber_congr (fun x _ => he x) _
  refine ⟨fun p hu => ?_, fun p hu => ?_, fun x c p hx => ?_, fun p hu => ?_⟩
  · rw [hends, (hp p).2.1]
    exact h.rrefs p ((hp p).1 ▸ hu)
  · rw [hends, (hp p).2.2]
    exact h.wrefs p ((hp p).1 ▸ hu)
  · rw [he] at hx
    rw [(hp p).1]
    exact h.bound x c p hx
  · rw [(hp p).2.1, (hp p).2.2]
    exact h.alive p ((hp p).1 ▸ hu)

omit [MemSys M] in
/-- The counts when one entry changes. -/
theorem ends_update {x : Nat × Nat} (hx : x ∈ fdSites) (h : ∀ y, y ≠ x → k'.endAt y = k.endAt y)
    (c : FdKind) (p : Nat) :
    k'.ends c p + (if k.endAt x = some (c, p) then 1 else 0) =
      k.ends c p + (if k'.endAt x = some (c, p) then 1 else 0) :=
  fiber_update hx (fun y _ hy => h y hy) _

omit [MemSys M] in
theorem setFd_endAt (i j : Nat) (e : FdEntry) (x : Nat × Nat) :
    (k.setFd i j e).endAt x = if x = (i, j) then e.endOf else k.endAt x := by
  unfold endAt
  rw [setFd_fds]
  by_cases h : x = (i, j)
  · subst h
    simp
  · rw [if_neg h, if_neg]
    rintro ⟨h1, h2⟩
    exact h (Prod.ext h1 h2)

omit [MemSys M] in
theorem plusRef_counts (c : FdKind) (q : Pipe) : (plusRef c q).used = q.used ∧
    (plusRef c q).rrefs = q.rrefs + (if c = .pipeR then 1 else 0) ∧
    (plusRef c q).wrefs = q.wrefs + (if c = .pipeR then 0 else 1) := by
  unfold plusRef
  split <;> simp

omit [MemSys M] in
theorem minusRef_counts (c : FdKind) (q : Pipe) : (minusRef c q).used = q.used ∧
    (minusRef c q).rrefs = q.rrefs - (if c = .pipeR then 1 else 0) ∧
    (minusRef c q).wrefs = q.wrefs - (if c = .pipeR then 0 else 1) := by
  unfold minusRef
  split <;> simp

omit [MemSys M] in
theorem isPipe_cases {c : FdKind} (h : c.isPipe = true) : c = .pipeR ∨ c = .pipeW := by
  cases c with
  | pipeR => exact .inl rfl
  | pipeW => exact .inr rfl
  | _ => cases h

omit [MemSys M] in
/-- A new end is counted. -/
theorem Counted.addEnd (hs : Shape k) (h : Counted raw k) {i j p : Nat} {e : FdEntry}
    (h0 : ((k.tasks i).fds j).endOf = none) (he : e.endOf = some (e.kind, p)) (hp : p < pipeMax)
    (hu : (k.pipes p).used = true) (hl : (k.tasks i).state ≠ .dead) (hj : j < fdMax) :
    Counted raw ((k.setFd i j e).addRef e.kind p) := by
  set k' := (k.setFd i j e).addRef e.kind p with hk'
  have hx : (i, j) ∈ fdSites := by
    have h1 := hs.slot hl
    have h2 := hs.count
    unfold fdSites
    rw [Finset.mem_product, Finset.mem_range, Finset.mem_range]
    exact ⟨by omega, hj⟩
  have hend : ∀ x, k'.endAt x = if x = (i, j) then some (e.kind, p) else k.endAt x := fun x => by
    rw [← he]
    exact setFd_endAt i j e x
  have hpipe : ∀ q, k'.pipes q = if q = p then plusRef e.kind (k.pipes p) else k.pipes q :=
    fun q => modPipe_pipes _ _ _ _
  have hold : k.endAt (i, j) = none := h0
  have hends : ∀ c q, k'.ends c q = k.ends c q + if (e.kind, p) = (c, q) then 1 else 0 := fun c q => by
    have hupd := ends_update (k := k) hx (fun y hy => (hend y).trans (if_neg hy)) c q
    rw [hend, if_pos rfl, hold] at hupd
    simpa using hupd
  have hcase := isPipe_cases (FdEntry.endOf_some.1 he).2.2.1
  obtain ⟨c1, c2, c3⟩ := plusRef_counts e.kind (k.pipes p)
  refine ⟨fun q hq => ?_, fun q hq => ?_, fun x c q hxq => ?_, fun q hq => ?_⟩
  · rw [hends]
    rw [hpipe] at hq ⊢
    by_cases hqp : q = p
    · subst hqp
      rw [if_pos rfl, c2, h.rrefs q hu]
      simp
    · rw [if_neg hqp] at hq ⊢
      rw [h.rrefs q hq, if_neg (by simp [Ne.symm hqp]), Nat.add_zero]
  · rw [hends]
    rw [hpipe] at hq ⊢
    by_cases hqp : q = p
    · subst hqp
      rw [if_pos rfl, c3, h.wrefs q hu]
      rcases hcase with hk | hk <;> simp [hk]
    · rw [if_neg hqp] at hq ⊢
      rw [h.wrefs q hq, if_neg (by simp [Ne.symm hqp]), Nat.add_zero]
  · have hused : ∀ q, q = p ∨ (k.pipes q).used = true → (k'.pipes q).used = true := fun q hq => by
      rw [hpipe]
      split
      · rw [c1]; exact hu
      · rcases hq with hq | hq
        · exact absurd hq ‹_›
        · exact hq
    rw [hend] at hxq
    split at hxq
    · cases hxq
      exact ⟨hp, hused _ (.inl rfl)⟩
    · obtain ⟨b1, b2⟩ := h.bound x c q hxq
      exact ⟨b1, hused q (.inr b2)⟩
  · rw [hpipe] at hq ⊢
    by_cases hqp : q = p
    · rw [if_pos hqp, c2, c3]
      right
      split <;> omega
    · rw [if_neg hqp] at hq ⊢
      exact h.alive q hq

theorem dropFd_endAt (i j : Nat) (x : Nat × Nat) :
    (k.dropFd i j).endAt x = if x = (i, j) then none else k.endAt x := by
  obtain ⟨n, l⟩ := x
  obtain ⟨t, ht, e⟩ := dropFd_task k i j n
  have hlike : (t.fds l).endOf = ((k.tasks n).fds l).endOf := endOf_like (ht.fds l)
  unfold endAt
  simp only
  rw [e]
  by_cases hx : (n, l) = (i, j)
  · obtain ⟨rfl, rfl⟩ := Prod.mk.inj hx
    rw [if_pos rfl]
    split
    · simp [FdEntry.endOf, FdEntry.empty]
    · rename_i hu
      rw [hlike]
      refine FdEntry.endOf_unused ?_
      simpa using hu
  · rw [if_neg hx]
    split
    · rename_i hn
      have hl : l ≠ j := fun hl => hx (by rw [hl, hn.1])
      simp only [Function.update_of_ne hl]
      exact hlike
    · exact hlike

/-- Dropping an entry takes its end off the counts, and the pipe with its last end. -/
theorem Counted.dropFd (hs : Shape k) (h : Counted raw k) (i j : Nat) : Counted raw (k.dropFd i j) := by
  have hend := dropFd_endAt (k := k) i j
  cases hx0 : k.endAt (i, j) with
  | none =>
    refine h.same (fun x => ?_) fun p => ?_
    · rw [hend]
      split
      · rename_i hx
        rw [hx, hx0]
      · rfl
    · rcases dropFd_pipe k i j p with e | ⟨he, -⟩
      · rw [e]; exact ⟨rfl, rfl, rfl⟩
      · rw [show k.endAt (i, j) = some _ from he] at hx0
        cases hx0
  | some cp =>
    obtain ⟨c, p⟩ := cp
    obtain ⟨hp, hu⟩ := h.bound _ c p hx0
    have hx : (i, j) ∈ fdSites := mem_fdSites hs hx0
    have hends : ∀ c' q, (k.dropFd i j).ends c' q + (if (c, p) = (c', q) then 1 else 0) = k.ends c'
        q := fun c' q => by
      have hupd := ends_update (k := k) hx (fun y hy => (hend y).trans (if_neg hy)) c' q
      rw [hend, if_pos rfl, hx0] at hupd
      simpa using hupd
    have hpipe : ∀ q, (k.dropFd i j).pipes q = if q = p then oneLess c (k.pipes p) else k.pipes q := by
      intro q
      rcases dropFd_cases k i j with ⟨hf, -⟩ | ⟨hf, hnone, -⟩ | ⟨p', he, -, -, e⟩
      · rw [show k.endAt (i, j) = none from FdEntry.endOf_unused hf] at hx0
        cases hx0
      · rw [pipeOf_of_endOf hx0 hp hu] at hnone
        cases hnone
      · rw [show k.endAt (i, j) = some _ from he] at hx0
        cases hx0
        rw [e, setFd_pipes, dropEnd_pipes]
    have hcase := isPipe_cases (FdEntry.endOf_some.1 hx0).2.2.1
    obtain ⟨c1, c2, c3⟩ := minusRef_counts c (k.pipes p)
    have hr : (minusRef c (k.pipes p)).rrefs = (k.dropFd i j).ends .pipeR p := by
      have := hends .pipeR p
      rw [c2, h.rrefs p hu]
      rcases hcase with rfl | rfl <;> simp at this ⊢ <;> omega
    have hw : (minusRef c (k.pipes p)).wrefs = (k.dropFd i j).ends .pipeW p := by
      have := hends .pipeW p
      rw [c3, h.wrefs p hu]
      rcases hcase with rfl | rfl <;> simp at this ⊢ <;> omega
    have hkeep : ∀ q, ((k.dropFd i j).pipes q).used = true →
        (q ≠ p ∧ (k.dropFd i j).pipes q = k.pipes q) ∨
          (q = p ∧ (k.dropFd i j).pipes q = minusRef c (k.pipes p) ∧
          0 < (minusRef c (k.pipes p)).rrefs + (minusRef c (k.pipes p)).wrefs) := by
      intro q hq
      rw [hpipe] at hq ⊢
      by_cases hqp : q = p
      · rw [if_pos hqp] at hq ⊢
        unfold oneLess at hq ⊢
        split at hq
        · cases hq
        · rename_i h0
          rw [if_neg h0]
          exact .inr ⟨hqp, rfl, by omega⟩
      · exact .inl ⟨hqp, if_neg hqp⟩
    have hother : ∀ c' q, q ≠ p → (k.dropFd i j).ends c' q = k.ends c' q := fun c' q hq => by
      have := hends c' q
      rwa [if_neg (by simp [Ne.symm hq]), Nat.add_zero] at this
    refine ⟨fun q hq => ?_, fun q hq => ?_, fun x c' q hxq => ?_, fun q hq => ?_⟩
    · rcases hkeep q hq with ⟨hn, e⟩ | ⟨rfl, e, -⟩ <;> rw [e]
      · rw [hother _ q hn]
        exact h.rrefs q (e ▸ hq)
      · exact hr
    · rcases hkeep q hq with ⟨hn, e⟩ | ⟨rfl, e, -⟩ <;> rw [e]
      · rw [hother _ q hn]
        exact h.wrefs q (e ▸ hq)
      · exact hw
    · rw [hend] at hxq
      split at hxq
      · cases hxq
      · rename_i hne
        obtain ⟨b1, b2⟩ := h.bound x c' q hxq
        refine ⟨b1, ?_⟩
        rw [hpipe]
        split
        · rename_i hqp
          subst hqp
          -- the other end still counts
          have hcount : 0 < (k.dropFd i j).ends c' q :=
            fiber_pos.2 ⟨x, mem_fdSites hs hxq, by rw [hend, if_neg hne, hxq]⟩
          unfold oneLess
          rw [if_neg, c1]
          · exact hu
          · rintro ⟨z1, z2⟩
            rw [hr] at z1
            rw [hw] at z2
            rcases isPipe_cases (FdEntry.endOf_some.1 hxq).2.2.1 with rfl | rfl <;> omega
        · exact b2
    · rcases hkeep q hq with ⟨hn, e⟩ | ⟨rfl, e, hpos⟩ <;> rw [e]
      · exact h.alive q (e ▸ hq)
      · exact .inr hpos

omit [MemSys M] in
/-- A move that only changes tasks. -/
theorem Counted.tasks (h : Counted raw k) (hf : ∀ i j, ((k'.tasks i).fds j).endOf = ((k.tasks i).fds j).endOf)
    (hp : k'.pipes = k.pipes) : Counted raw k' :=
  h.same (fun x => hf x.1 x.2) fun p => by rw [hp]; exact ⟨rfl, rfl, rfl⟩

/-- A pipe without ends is taken out of use. -/
theorem Counted.freePipe {p : Nat} (h : Counted (some p) k) (hu : (k.pipes p).used = true)
    (h0 : (k.pipes p).rrefs = 0 ∧ (k.pipes p).wrefs = 0) (hs : Shape k) : Counted none (k.freePipe p) := by
  have hend : ∀ x, (k.freePipe p).endAt x = k.endAt x := fun x => by
    unfold endAt
    rw [freePipe_tasks]
  have hends : ∀ c q, (k.freePipe p).ends c q = k.ends c q := fun c q => fiber_congr (fun x _ => hend x) _
  have hkeep : ∀ q, ((k.freePipe p).pipes q).used = true → q ≠ p ∧ (k.freePipe p).pipes q = k.pipes q := by
    intro q hq
    rw [freePipe_pipes] at hq ⊢
    split at hq
    · cases hq
    · rename_i hqp
      exact ⟨hqp, if_neg hqp⟩
  refine ⟨fun q hq => ?_, fun q hq => ?_, fun x c q hx => ?_, fun q hq => ?_⟩
  · obtain ⟨-, e⟩ := hkeep q hq
    rw [hends, e]
    exact h.rrefs q (e ▸ hq)
  · obtain ⟨-, e⟩ := hkeep q hq
    rw [hends, e]
    exact h.wrefs q (e ▸ hq)
  · rw [hend] at hx
    obtain ⟨b1, b2⟩ := h.bound x c q hx
    refine ⟨b1, ?_⟩
    rw [freePipe_pipes, if_neg]
    · exact b2
    · rintro rfl
      have hpos : 0 < k.ends c q := fiber_pos.2 ⟨x, mem_fdSites hs hx, hx⟩
      rcases isPipe_cases (FdEntry.endOf_some.1 hx).2.2.1 with rfl | rfl
      · rw [← h.rrefs q hu] at hpos; omega
      · rw [← h.wrefs q hu] at hpos; omega
  · obtain ⟨hn, e⟩ := hkeep q hq
    rw [e]
    rcases h.alive q (e ▸ hq) with hr | hpos
    · exact absurd (Option.some.inj hr).symm hn
    · exact .inr hpos

omit [MemSys M] in
/-- A new pipe has no end yet. -/
theorem Counted.fresh (h : Counted none k) {p phys : Nat} (hu : (k.pipes p).used = false) {k' : Kernel M}
    (ht : k'.tasks = k.tasks)
    (hp : ∀ q, k'.pipes q = if q = p then { Pipe.unused with used := true, phys := phys } else k.pipes q) :
    Counted (some p) k' := by
  have hend : ∀ x, k'.endAt x = k.endAt x := fun x => by unfold endAt; rw [ht]
  have hends : ∀ c q, k'.ends c q = k.ends c q := fun c q => fiber_congr (fun x _ => hend x) _
  have hzero : ∀ c, k.ends c p = 0 := fun c => fiber_eq_zero.2 fun x _ hx => by
    have := (h.bound x c p hx).2
    rw [hu] at this
    cases this
  refine ⟨fun q hq => ?_, fun q hq => ?_, fun x c q hx => ?_, fun q hq => ?_⟩
  · rw [hends]
    rw [hp] at hq ⊢
    by_cases hqp : q = p
    · rw [if_pos hqp, hqp, hzero]
      rfl
    · rw [if_neg hqp] at hq ⊢
      exact h.rrefs q hq
  · rw [hends]
    rw [hp] at hq ⊢
    by_cases hqp : q = p
    · rw [if_pos hqp, hqp, hzero]
      rfl
    · rw [if_neg hqp] at hq ⊢
      exact h.wrefs q hq
  · rw [hend] at hx
    obtain ⟨b1, b2⟩ := h.bound x c q hx
    refine ⟨b1, ?_⟩
    rw [hp]
    split
    · rfl
    · exact b2
  · by_cases hqp : q = p
    · exact .inl (hqp ▸ rfl)
    · rw [hp, if_neg hqp] at hq ⊢
      rcases h.alive q hq with hr | hpos
      · cases hr
      · exact .inr hpos

theorem Move.counted {c c' : Ghost × Kernel M} (hs : Shape c.2) (h : Move A c c') (hc : Counted c.1.raw c.2) :
    Counted c'.1.raw c'.2 := by
  cases h with
  | quiet hq => exact hc.tasks (fun i j => endOf_like ((hq.task i).fds j)) hq.pipes
  | trap f hm => exact hc.tasks (fun _ _ => rfl) rfl
  | @chdir g k c pwd hA hm =>
    refine Counted.tasks (k := k) hc (fun i j => ?_) rfl
    rw [modTask_tasks]
    split <;> simp_all
  | shell s hA hp => exact hc.tasks (fun _ _ => rfl) rfl
  | drop i j => exact hc.dropFd hs i j
  | @setFd g k i j e h0 he hl hj =>
    refine Counted.same (k := k) hc (fun x => ?_) fun p => ⟨rfl, rfl, rfl⟩
    rw [setFd_endAt]
    split
    · rename_i hx
      rw [hx, he]
      exact h0.symm
    · rfl
  | addEnd i j p e h0 he hp hu hl hj => exact hc.addEnd hs h0 he hp hu hl hj
  | @alloc g k p hr hp =>
    simp only [hr] at hc
    rcases allocPipe_cases k with e | ⟨p', phys, -, hu, -, e⟩
    · rw [e] at hp; cases hp
    · simp only [e, Option.some.injEq] at hp ⊢
      subst hp
      exact hc.fresh hu rfl fun q => modPipe_pipes _ _ _ _
  | @settle g k p hr h =>
    refine ⟨hc.rrefs, hc.wrefs, hc.bound, fun q hq => .inr ?_⟩
    rcases hc.alive q hq with hraw | hpos
    · rw [hr] at hraw
      cases hraw
      exact h hq
    · exact hpos
  | @discard g k p hr hp hu h0 =>
    simp only [hr] at hc
    exact hc.freePipe hu h0 hs
  | @read g k fd n =>
    rcases schedPipeRead_cases k fd n with e | ⟨p, u, -, e, hu, -⟩ <;> simp only [e]
    · exact hc
    · refine Counted.same (k := k) hc
        (fun x => endOf_like ((wakePipeWaiters_mild (k.modPipe p u) p x.1).fds x.2)) fun q => ?_
      rw [wakePipeWaiters_pipes, modPipe_pipes]
      by_cases hqp : q = p
      · subst hqp
        rw [if_pos rfl, hu]
        exact ⟨rfl, rfl, rfl⟩
      · rw [if_neg hqp]
        exact ⟨rfl, rfl, rfl⟩
  | @write g k fd src =>
    rcases schedPipeWrite_cases k fd src with e | ⟨p, u, -, e, hu, -⟩ <;> simp only [e]
    · exact hc
    · refine Counted.same (k := k) hc
        (fun x => endOf_like ((wakePipeWaiters_mild (k.modPipe p u) p x.1).fds x.2)) fun q => ?_
      rw [wakePipeWaiters_pipes, modPipe_pipes]
      by_cases hqp : q = p
      · subst hqp
        rw [if_pos rfl, hu]
        exact ⟨rfl, rfl, rfl⟩
      · rw [if_neg hqp]
        exact ⟨rfl, rfl, rfl⟩
  | @pause g k s f hA hm hsl hf =>
    refine Counted.tasks (k := k) hc (fun i j => ?_) rfl
    simp only [blocked, saveTask, modTask_tasks, modTask_current]
    split
    · rename_i hi
      subst hi
      exact endOf_like ((hf { k.tasks k.current with regs := k.frame } (hs.run hm).2).1.fds j)
    · rfl
  | @blockPipe g k p hA hm hu hw =>
    refine Counted.tasks (k := k) hc (fun i j => ?_) rfl
    simp only [blocked, saveTask, modTask_tasks, modTask_current]
    split <;> simp_all
  | load i hA hm hi hr => exact hc.tasks (fun _ _ => rfl) rfl
  | @swap g k i hA hm hn hi hr =>
    refine Counted.tasks (k := k) hc (fun n j => ?_) rfl
    simp only [switchTo, saveTask, modTask_tasks]
    split <;> simp_all
  | halt hA hm h => exact hc.tasks (fun _ _ => rfl) rfl
  | stop hA => exact hc.tasks (fun _ _ => rfl) rfl
  | grow h => exact hc.tasks (fun _ _ => rfl) rfl
  | @spawn g k i f parent t hA hi hd hk hcr ht hf hp =>
    refine Counted.tasks (k := k) hc (fun n j => ?_) rfl
    by_cases hn : n = i
    · subst hn
      simp [spawnTask]
    · simp [spawnTask, hn]
  | @doom g k hInt hTerm f hA hm =>
    refine Counted.tasks (k := k) hc (fun n j => ?_) rfl
    rw [modTask_tasks]
    split <;> simp_all
  | @die g k code hA hm hf =>
    refine Counted.tasks (k := k) hc (fun n j => ?_) (finishTask_pipes _ _ _)
    rcases finishTask_task k k.current code n with ⟨rfl, b, e⟩ | ⟨-, e⟩ | ⟨-, -, e⟩ <;> simp only [e] <;> rfl
  | @blockWait g k w hA hm hw =>
    refine Counted.tasks (k := k) hc (fun i j => ?_) rfl
    simp only [blocked, saveTask, modTask_tasks, modTask_current, asks]
    split <;> simp_all
  | @reap g k child hA hm hcd hd =>
    refine Counted.tasks (k := k) hc (fun i j => ?_) rfl
    simp only [reapChild, setRax, asks, modTask_tasks]
    split <;> simp_all
  | refuse hA hm => exact hc.tasks (fun _ _ => rfl) rfl
  | askPending hA hm hp => exact hc.tasks (fun _ _ => rfl) rfl
  | take h => exact hc.tasks (fun _ _ => rfl) rfl
  | noFrame h => exact hc.tasks (fun _ _ => rfl) rfl
  | give h => exact hc.tasks (fun _ _ => rfl) rfl
  | @freeKstack g k i hd =>
    refine Counted.tasks (k := k) hc (fun n j => ?_) (freeTaskKstack_rest k i).1
    rcases freeTaskKstack_task k i n with e | ⟨rfl, e⟩ <;> rw [e]

theorem Reachable.counted (h : Reachable m k) : Counted none k := by
  obtain ⟨_, hI⟩ := h.rests (I := fun c => Counted c.1.raw c.2)
    (fun _ _ _ => ⟨fun _ hu => (by cases hu), fun _ hu => (by cases hu), fun _ _ _ hx => (by cases hx),
      fun _ hu => (by cases hu)⟩) fun c c' hs hc hm => hm.counted hs hc
  exact hI

/-! ## The frames of the kernel -/

section
variable {g : Ghost} {k k' : Kernel Space}

/-- What may hold a frame: the stack of a slot, a pipe, or a frame on its way. -/
inductive Holder where
  | stack (i : Nat) | page (p : Nat) | loose (f : Nat)
deriving DecidableEq

/-- The frame that `x` holds. -/
def frameOf (g : Ghost) (k : Kernel Space) : Holder → Option Nat
  | .stack i => if (k.tasks i).kstackTop = 0 then none else some (kstackPhys (k.tasks i))
  | .page p => if (k.pipes p).used then some (k.pipes p).phys else none
  | .loose f => if f ∈ g.loose then some f else none

/-- Every frame held is one of the kernel's, and has one holder. -/
structure Framed (g : Ghost) (k : Kernel Space) : Prop where
  inv : Space.Inv k.mem
  kept : ∀ x f, frameOf g k x = some f → f ∈ k.mem.kern
  apart : ∀ x y f, frameOf g k x = some f → frameOf g k y = some f → x = y

theorem kstackPhys_of (f : Nat) (t : Task) (h : t.kstackTop = kstackTopOf f) :
    kstackPhys t = f ∧ t.kstackTop ≠ 0 := by
  unfold kstackPhys
  rw [h]
  unfold kstackTopOf pageSize
  omega

/-- Nothing is taken or given. -/
theorem Framed.same {g' : Ghost} (h : Framed g k) (hx : ∀ x, frameOf g' k' x = frameOf g k x)
    (hi : Space.Inv k'.mem) (hk : k'.mem.kern = k.mem.kern) : Framed g' k' :=
  ⟨hi, fun x f hf => hk ▸ h.kept x f (hx x ▸ hf), fun x y f h1 h2 => h.apart x y f (hx x ▸ h1) (hx y ▸ h2)⟩

/-- A new frame for `x`. -/
theorem Framed.take {g' : Ghost} (h : Framed g k) {x : Holder} {f : Nat} (hx : frameOf g' k' x = some f)
    (ho : ∀ y, y ≠ x → frameOf g' k' y = frameOf g k y) (hi : Space.Inv k'.mem) (hf : f ∉ k.mem.kern)
    (hk : k'.mem.kern = insert f k.mem.kern) : Framed g' k' := by
  have hnew : ∀ y, y ≠ x → frameOf g' k' y ≠ some f := fun y hy he => hf (h.kept y f (ho y hy ▸ he))
  refine ⟨hi, fun y f' hy => ?_, fun y z f' hy hz => ?_⟩
  · rw [hk]
    by_cases hyx : y = x
    · rw [hyx, hx] at hy
      cases hy
      exact Finset.mem_insert_self _ _
    · exact Finset.mem_insert_of_mem (h.kept y f' (ho y hyx ▸ hy))
  · by_cases hyx : y = x
    · by_contra hne
      rw [hyx, hx] at hy
      cases hy
      exact hnew z (fun hzx => hne (hyx.trans hzx.symm)) hz
    · by_cases hzx : z = x
      · rw [hzx, hx] at hz
        cases hz
        exact absurd hy (hnew y hyx)
      · exact h.apart y z f' (ho y hyx ▸ hy) (ho z hzx ▸ hz)

/-- `x` gives its frame back. -/
theorem Framed.give {g' : Ghost} (h : Framed g k) {x : Holder} {f : Nat} (hx : frameOf g k x = some f)
    (hx' : frameOf g' k' x = none) (ho : ∀ y, y ≠ x → frameOf g' k' y = frameOf g k y) (hi : Space.Inv k'.mem)
    (hk : k'.mem.kern = k.mem.kern.erase f) : Framed g' k' := by
  have hold : ∀ y f', frameOf g' k' y = some f' → y ≠ x ∧ frameOf g k y = some f' := fun y f' hy => by
    have hyx : y ≠ x := by
      rintro rfl
      rw [hx'] at hy
      cases hy
    exact ⟨hyx, ho y hyx ▸ hy⟩
  refine ⟨hi, fun y f' hy => ?_, fun y z f' hy hz => h.apart y z f' (hold y f' hy).2 (hold z f' hz).2⟩
  obtain ⟨hyx, hy⟩ := hold y f' hy
  rw [hk]
  refine Finset.mem_erase.2 ⟨?_, h.kept y f' hy⟩
  rintro rfl
  exact hyx (h.apart y x f' hy hx)

/-- The frame of `x` goes over to `y`. -/
theorem Framed.hand {g' : Ghost} (h : Framed g k) {x y : Holder} {f : Nat} (hx : frameOf g k x = some f)
    (hx' : frameOf g' k' x = none) (hy' : frameOf g' k' y = some f)
    (ho : ∀ z, z ≠ x → z ≠ y → frameOf g' k' z = frameOf g k z) (hi : Space.Inv k'.mem)
    (hk : k'.mem.kern = k.mem.kern) : Framed g' k' := by
  have hold : ∀ z f', frameOf g' k' z = some f' → (z = y ∧ f' = f) ∨
      (z ≠ y ∧ z ≠ x ∧ frameOf g k z = some f') := by
    intro z f' hz
    by_cases hzy : z = y
    · rw [hzy, hy'] at hz
      exact .inl ⟨hzy, (Option.some.inj hz).symm⟩
    · have hzx : z ≠ x := by
        rintro rfl
        rw [hx'] at hz
        cases hz
      exact .inr ⟨hzy, hzx, ho z hzx hzy ▸ hz⟩
  refine ⟨hi, fun z f' hz => ?_, fun z w f' hz hw => ?_⟩
  · rw [hk]
    rcases hold z f' hz with ⟨-, rfl⟩ | ⟨-, -, hz⟩
    · exact h.kept x _ hx
    · exact h.kept z f' hz
  · rcases hold z f' hz with ⟨hz1, rfl⟩ | ⟨-, hzx, hz⟩ <;> rcases hold w _ hw with ⟨hw1, hwf⟩ | ⟨-, hwx, hw⟩
    · rw [hz1, hw1]
    · exact absurd (h.apart w x _ hw hx) hwx
    · subst hwf
      exact absurd (h.apart z x _ hz hx) hzx
    · exact h.apart z w f' hz hw

theorem MemRun.framed {s s' : Space} (h : MemRun s s') (hi : Space.Inv s) :
    Space.Inv s' ∧ s'.kern = s.kern := by
  induction h with
  | refl => exact ⟨hi, rfl⟩
  | tail _ op hop ih => exact ⟨(Space.step_ok ih.1 op).inv, (Space.step_kern hop).trans ih.2⟩

end

theorem freePipe_frame' (k : Kernel M) (p : Nat) (h : (k.pipes p).phys ≠ 0) :
    (k.freePipe p).mem = (k.memDo (.kfree (k.pipes p).phys)).mem := by
  unfold freePipe
  rw [if_pos h]
  rfl

/-- What `drop_fd` does to pages: it keeps all of them, or it frees the one of a pipe that goes out of use. -/
theorem dropFd_page (k : Kernel M) (i j : Nat) (hphys : ∀ p, (k.pipes p).used = true → (k.pipes p).phys ≠ 0) :
    ((k.dropFd i j).mem = k.mem ∧ ∀ q, ((k.dropFd i j).pipes q).used = (k.pipes q).used ∧
      ((k.dropFd i j).pipes q).phys = (k.pipes q).phys) ∨
    ∃ p, (k.pipes p).used = true ∧ (k.dropFd i j).mem = (k.memDo (.kfree (k.pipes p).phys)).mem ∧
      ∀ q, (k.dropFd i j).pipes q = if q = p then .unused else k.pipes q := by
  rcases dropFd_cases k i j with ⟨-, e⟩ | ⟨-, -, e⟩ | ⟨p, -, -, hu, e⟩ <;> rw [e]
  · exact .inl ⟨rfl, fun _ => ⟨rfl, rfl⟩⟩
  · exact .inl ⟨rfl, fun _ => ⟨rfl, rfl⟩⟩
  · set c := ((k.tasks i).fds j).kind
    have hm : (minusRef c (k.pipes p)).used = (k.pipes p).used ∧ (minusRef c (k.pipes p)).phys =
        (k.pipes p).phys := by
      unfold minusRef
      split <;> exact ⟨rfl, rfl⟩
    simp only [setFd_mem, setFd_pipes, dropEnd_pipes]
    by_cases h0 : (minusRef c (k.pipes p)).rrefs = 0 ∧ (minusRef c (k.pipes p)).wrefs = 0
    · refine .inr ⟨p, hu, ?_, fun q => by unfold oneLess; rw [if_pos h0]⟩
      have hone : (((k.modPipe p (minusRef c)).wakePipeWaiters p).pipes p) = minusRef c (k.pipes p) := by
        rw [wakePipeWaiters_pipes, modPipe_pipes, if_pos rfl]
      unfold dropEnd
      simp only [hone]
      rw [if_pos h0, freePipe_frame' _ _ (by rw [hone, hm.2]; exact hphys p hu), hone, hm.2]
      rfl
    · refine .inl ⟨?_, fun q => ?_⟩
      · have hone : (((k.modPipe p (minusRef c)).wakePipeWaiters p).pipes p) = minusRef c (k.pipes p) := by
          rw [wakePipeWaiters_pipes, modPipe_pipes, if_pos rfl]
        unfold dropEnd
        simp only [hone]
        rw [if_neg h0]
        rfl
      · unfold oneLess
        rw [if_neg h0]
        split
        · rename_i hq
          rw [hq]
          exact hm
        · exact ⟨rfl, rfl⟩

section
variable {g : Ghost} {k k' : Kernel Space}

/-- Tasks keep their stacks and pipes their pages. -/
theorem frameOf_same (ht : ∀ i, (k'.tasks i).kstackTop = (k.tasks i).kstackTop)
    (hp : ∀ q, (k'.pipes q).used = (k.pipes q).used ∧ (k'.pipes q).phys = (k.pipes q).phys) (x : Holder) :
    frameOf g k' x = frameOf g k x := by
  cases x with
  | stack i => simp only [frameOf, kstackPhys, ht]
  | page p => simp only [frameOf, hp]
  | loose f => rfl

theorem Framed.phys (h : Framed g k) (p : Nat) (hu : (k.pipes p).used = true) : (k.pipes p).phys ≠ 0 :=
  Space.kern_ne_zero h.inv (h.kept (.page p) _ (by rw [frameOf, if_pos hu]))

/-- Only tasks change, and they keep their stacks. -/
theorem Framed.tasks (h : Framed g k) (ht : ∀ i, (k'.tasks i).kstackTop = (k.tasks i).kstackTop)
    (hp : k'.pipes = k.pipes) (hm : k'.mem = k.mem) : Framed g k' :=
  h.same (frameOf_same ht fun q => by rw [hp]; exact ⟨rfl, rfl⟩) (hm ▸ h.inv) (by rw [hm])

/-- A pipe's page goes back. -/
theorem Framed.freePage (h : Framed g k) {p : Nat} (hu : (k.pipes p).used = true)
    (ht : ∀ i, (k'.tasks i).kstackTop = (k.tasks i).kstackTop)
    (hp : ∀ q, k'.pipes q = if q = p then .unused else k.pipes q)
    (hm : k'.mem = (k.memDo (.kfree (k.pipes p).phys)).mem) : Framed g k' := by
  refine h.give (x := .page p) (by rw [frameOf, if_pos hu]) ?_ (fun y hy => ?_) ?_ ?_
  · rw [frameOf, hp, if_pos rfl]
    rfl
  · cases y with
    | stack i => simp only [frameOf, kstackPhys, ht]
    | page q =>
      have hq : q ≠ p := fun hq => hy (by rw [hq])
      simp only [frameOf, hp, hq, if_false]
    | loose f => rfl
  · rw [hm]
    exact (Space.step_ok h.inv _).inv
  · rw [hm]
    exact Space.kfree_kern _ _

end

theorem Move.framed {A : Label → Prop} {c c' : Ghost × Kernel Space} (hs : Shape c.2) (h : Move A c c')
    (hc : Framed c.1 c.2) : Framed c'.1 c'.2 := by
  cases h with
  | quiet hq =>
    obtain ⟨hi, hk⟩ := hq.mem.framed hc.inv
    exact hc.same (frameOf_same (fun i => (hq.task i).kstack) fun q => by rw [hq.pipes]; exact ⟨rfl,
      rfl⟩) hi hk
  | trap f hm => exact hc.tasks (fun _ => rfl) rfl rfl
  | @chdir g k c pwd hA hm =>
    refine Framed.tasks (k := k) hc (fun i => ?_) rfl rfl
    rw [modTask_tasks]
    split <;> simp_all
  | shell s hA hp => exact hc.tasks (fun _ => rfl) rfl rfl
  | @drop g k i j =>
    have ht : ∀ n, ((k.dropFd i j).tasks n).kstackTop = (k.tasks n).kstackTop := fun n => by
      obtain ⟨t, ht, e⟩ := dropFd_task k i j n
      rw [e]
      split <;> exact ht.kstack
    rcases dropFd_page k i j (fun p => hc.phys p) with ⟨hm, hp⟩ | ⟨p, hu, hm, hp⟩
    · exact hc.same (frameOf_same ht hp) (by rw [hm]; exact hc.inv) (by rw [hm])
    · exact hc.freePage hu ht hp hm
  | @setFd g k i j e h0 he hl hj =>
    refine Framed.tasks (k := k) hc (fun n => ?_) rfl rfl
    rw [setFd_tasks]
    by_cases hn : n = i <;> simp [hn]
  | @addEnd g k i j p e h0 he hp hu hl hj =>
    refine hc.same (frameOf_same (fun n => ?_) fun q => ?_) hc.inv rfl
    · change (((k.setFd i j e).tasks n).kstackTop) = _
      rw [setFd_tasks]
      by_cases hn : n = i <;> simp [hn]
    · have hpipe : ((k.setFd i j e).addRef e.kind p).pipes q = if q = p
          then plusRef e.kind (k.pipes p) else k.pipes q :=
        modPipe_pipes _ _ _ _
      simp only [hpipe]
      split
      · rename_i hq
        rw [hq]
        unfold plusRef
        split <;> exact ⟨rfl, rfl⟩
      · exact ⟨rfl, rfl⟩
  | @alloc g k p hr hp =>
    rcases allocPipe_cases k with e | ⟨p', phys, -, hu, hask, e⟩
    · rw [e] at hp; cases hp
    · simp only [e]
      obtain ⟨hnew, hkern⟩ := Space.kalloc_kern hc.inv hask
      refine Framed.take hc (x := .page p') (f := phys) ?_ (fun y hy => ?_)
        (Space.step_ok hc.inv _).inv hnew hkern
      · simp [frameOf]
      · cases y with
        | stack i => rfl
        | page q =>
          have hq : q ≠ p' := fun hq => hy (by rw [hq])
          simp [frameOf, hq]
          rfl
        | loose f => rfl
  | settle hr h => exact ⟨hc.inv, hc.kept, hc.apart⟩
  | @discard g k p hr hp hu h0 =>
    refine Framed.freePage (g := { g with raw := none }) ⟨hc.inv, hc.kept, hc.apart⟩ hu
      (fun i => by rw [freePipe_tasks]) (freePipe_pipes k p) (freePipe_frame' k p (hc.phys p hu))
  | @read g k fd n =>
    rcases schedPipeRead_cases k fd n with e | ⟨p, u, -, e, hu, -⟩ <;> simp only [e]
    · exact hc
    · refine Framed.same (k := k) hc
        (frameOf_same (fun i => (wakePipeWaiters_mild (k.modPipe p u) p i).kstack) fun q => ?_)
        hc.inv rfl
      rw [wakePipeWaiters_pipes, modPipe_pipes]
      by_cases hqp : q = p
      · subst hqp
        rw [if_pos rfl, hu]
        exact ⟨rfl, rfl⟩
      · rw [if_neg hqp]
        exact ⟨rfl, rfl⟩
  | @write g k fd src =>
    rcases schedPipeWrite_cases k fd src with e | ⟨p, u, -, e, hu, -⟩ <;> simp only [e]
    · exact hc
    · refine Framed.same (k := k) hc
        (frameOf_same (fun i => (wakePipeWaiters_mild (k.modPipe p u) p i).kstack) fun q => ?_)
        hc.inv rfl
      rw [wakePipeWaiters_pipes, modPipe_pipes]
      by_cases hqp : q = p
      · subst hqp
        rw [if_pos rfl, hu]
        exact ⟨rfl, rfl⟩
      · rw [if_neg hqp]
        exact ⟨rfl, rfl⟩
  | @pause g k s f hA hm hsl hf =>
    refine Framed.tasks (k := k) hc (fun i => ?_) rfl rfl
    simp only [blocked, saveTask, modTask_tasks, modTask_current]
    split
    · rename_i hi
      subst hi
      exact (hf { k.tasks k.current with regs := k.frame } (hs.run hm).2).1.kstack
    · rfl
  | @blockPipe g k p hA hm hu hw =>
    refine Framed.tasks (k := k) hc (fun i => ?_) rfl rfl
    simp only [blocked, saveTask, modTask_tasks, modTask_current]
    split <;> simp_all
  | load i hA hm hi hr => exact hc.tasks (fun _ => rfl) rfl rfl
  | @swap g k i hA hm hn hi hr =>
    refine Framed.tasks (k := k) hc (fun n => ?_) rfl rfl
    simp only [switchTo, saveTask, modTask_tasks]
    split <;> simp_all
  | halt hA hm h => exact hc.tasks (fun _ => rfl) rfl rfl
  | stop hA => exact hc.tasks (fun _ => rfl) rfl rfl
  | grow h => exact hc.tasks (fun _ => rfl) rfl rfl
  | @spawn g k i f parent t hA hi hd hk hcr ht hf hp =>
    obtain ⟨h1, h2⟩ := kstackPhys_of f t ht
    have hslot : ((k.spawnTask i parent t).tasks i).kstackTop = t.kstackTop := by simp [spawnTask]
    have hother : ∀ n, n ≠ i → (k.spawnTask i parent t).tasks n = k.tasks n := fun n hn => by
      simp [spawnTask, hn]
    refine Framed.hand hc (x := .loose f) (y := .stack i) (f := f) ?_ ?_ ?_ (fun z hx hy => ?_) hc.inv rfl
    · simp [frameOf, hf]
    · simp [frameOf]
    · simp only [frameOf, hslot, h2, if_false, kstackPhys]
      exact congrArg some h1
    · cases z with
      | stack n =>
        have hn : n ≠ i := fun hn => hy (by rw [hn])
        simp only [frameOf, hother n hn]
      | page q => rfl
      | loose f' =>
        have hf' : f' ≠ f := fun hf' => hx (by rw [hf'])
        simp [frameOf, hf']
  | @doom g k hInt hTerm f hA hm =>
    refine Framed.tasks (g := { g with doomed := some k.current }) (k := k) ⟨hc.inv, hc.kept,
      hc.apart⟩ (fun n => ?_) rfl rfl
    rw [modTask_tasks]
    split <;> simp_all
  | @die g k code hA hm hf =>
    refine Framed.tasks (g := { g with doomed := none }) (k := k) ⟨hc.inv, hc.kept, hc.apart⟩ (fun n => ?_)
      (finishTask_pipes _ _ _) (finishTask_mem _ _ _)
    rcases finishTask_task k k.current code n with ⟨rfl, b, e⟩ | ⟨-, e⟩ | ⟨-, -, e⟩ <;> simp only [e] <;> rfl
  | @blockWait g k w hA hm hw =>
    refine Framed.tasks (k := k) hc (fun i => ?_) rfl rfl
    simp only [blocked, saveTask, modTask_tasks, modTask_current, asks]
    split <;> simp_all
  | @reap g k child hA hm hcd hd =>
    refine Framed.tasks (k := k) hc (fun i => ?_) rfl rfl
    simp only [reapChild, setRax, asks, modTask_tasks]
    split <;> simp_all
  | refuse hA hm => exact hc.tasks (fun _ => rfl) rfl rfl
  | askPending hA hm hp => exact hc.tasks (fun _ => rfl) rfl rfl
  | @take g k a f h =>
    obtain ⟨hnew, hkern⟩ := Space.kalloc_kern hc.inv h
    refine Framed.take hc (x := .loose f) (f := f) ?_ (fun y hy => ?_) (Space.step_ok hc.inv _).inv hnew hkern
    · simp [frameOf]
    · cases y with
      | stack i => rfl
      | page q => rfl
      | loose f' =>
        have hf' : f' ≠ f := fun hf' => hy (by rw [hf'])
        simp [frameOf, hf']
  | @noFrame g k a h =>
    exact Framed.same hc (frameOf_same (fun _ => rfl) fun _ => ⟨rfl, rfl⟩)
      (Space.step_ok hc.inv _).inv (Space.kalloc_none h)
  | @give g k f h =>
    refine Framed.give hc (x := .loose f) (f := f) ?_ ?_ (fun y hy => ?_)
      (Space.step_ok hc.inv _).inv (Space.kfree_kern _ _)
    · simp [frameOf, h]
    · simp [frameOf]
    · cases y with
      | stack i => rfl
      | page q => rfl
      | loose f' =>
        have hf' : f' ≠ f := fun hf' => hy (by rw [hf'])
        simp [frameOf, hf']
  | @freeKstack g k i hd =>
    by_cases h0 : (k.tasks i).kstackTop = 0
    · have e : k.freeTaskKstack i = k := by
        unfold freeTaskKstack
        rw [if_pos h0]
      rw [e]
      exact hc
    · have hx : frameOf g k (.stack i) = some (kstackPhys (k.tasks i)) := by rw [frameOf, if_neg h0]
      have hp : kstackPhys (k.tasks i) ≠ 0 := Space.kern_ne_zero hc.inv (hc.kept _ _ hx)
      have e : k.freeTaskKstack i = (k.memDo (.kfree (kstackPhys (k.tasks i)))).modTask i
          fun t => { t with kstackTop := 0 } := by
        unfold freeTaskKstack
        rw [if_neg h0]
        simp only [if_pos hp]
      rw [e]
      refine Framed.give hc hx ?_ (fun y hy => ?_) (Space.step_ok hc.inv _).inv (Space.kfree_kern _ _)
      · simp [frameOf]
      · cases y with
        | stack n =>
          have hn : n ≠ i := fun hn => hy (by rw [hn])
          simp [frameOf, hn]
          rfl
        | page q => rfl
        | loose f => rfl

theorem Reachable.framed {m : Space} (hb : m.Boot) {k : Kernel Space} (h : Reachable m k) :
    ∃ L, Framed ⟨none, none, L⟩ k := by
  have hnone : ∀ fs x, frameOf ⟨none, none, ∅⟩ (schedInit m fs) x = none := fun fs x => by cases x <;> rfl
  have hboot : ∀ fs, Framed ⟨none, none, ∅⟩ (schedInit m fs) := fun fs =>
    ⟨Space.boot_inv hb, fun x f hf => (by rw [hnone] at hf; cases hf),
      fun x y f hf _ => (by rw [hnone] at hf; cases hf)⟩
  exact h.rests (I := fun c => Framed c.1 c.2) (fun fs _ _ => hboot fs) fun c c' hs hc hm => hm.framed hs hc

/-- The pipe is out of use after `drop_fd` exactly when the entry was its last end. -/
theorem dropFd_last (hs : Shape k) (h : Counted none k) {p : Nat} (hu : (k.pipes p).used = true) (i j : Nat) :
    ((k.dropFd i j).pipes p).used = false ↔
      (∃ c, ((k.tasks i).fds j).endOf = some (c, p)) ∧ k.ends .pipeR p + k.ends .pipeW p = 1 := by
  have hr := h.rrefs p hu
  have hw := h.wrefs p hu
  constructor
  · intro hf
    rcases dropFd_pipe k i j p with e | ⟨he, e⟩ <;> rw [e] at hf
    · rw [hu] at hf
      cases hf
    · obtain ⟨c1, c2, c3⟩ := minusRef_counts ((k.tasks i).fds j).kind (k.pipes p)
      refine ⟨⟨_, he⟩, ?_⟩
      unfold oneLess at hf
      split at hf
      · rename_i h0
        rw [c2, c3] at h0
        have hpos : 0 < (k.pipes p).rrefs + (k.pipes p).wrefs := (h.alive p hu).resolve_left nofun
        split at h0 <;> omega
      · rw [c1, hu] at hf
        cases hf
  · rintro ⟨⟨c, he⟩, hone⟩
    obtain ⟨hp, -⟩ := h.bound (i, j) c p he
    rcases dropFd_cases k i j with ⟨hf, -⟩ | ⟨-, hnone, -⟩ | ⟨p', he', -, -, e⟩
    · rw [FdEntry.endOf_unused hf] at he
      cases he
    · rw [pipeOf_of_endOf he hp hu] at hnone
      cases hnone
    · rw [he'] at he
      cases he
      have hself : 0 < k.ends ((k.tasks i).fds j).kind p := fiber_pos.2 ⟨(i, j), mem_fdSites hs he', he'⟩
      obtain ⟨-, c2, c3⟩ := minusRef_counts ((k.tasks i).fds j).kind (k.pipes p)
      have hzero : (minusRef ((k.tasks i).fds j).kind (k.pipes p)).rrefs = 0 ∧
          (minusRef ((k.tasks i).fds j).kind (k.pipes p)).wrefs = 0 := by
        rw [c2, c3, hr, hw]
        rcases isPipe_cases (FdEntry.endOf_some.1 he').2.2.1 with hc | hc <;> rw [hc] at hself ⊢ <;>
          simp <;> omega
      rw [e, setFd_pipes, dropEnd_pipes, if_pos rfl, oneLess, if_pos hzero]
      rfl

/-- **Pipe references and pages.** -/
structure PipesHeld (k : Kernel Space) : Prop where
  /-- The counters are the numbers of descriptors. -/
  rrefs : ∀ p, (k.pipes p).used = true → (k.pipes p).rrefs = k.ends .pipeR p
  wrefs : ∀ p, (k.pipes p).used = true → (k.pipes p).wrefs = k.ends .pipeW p
  /-- No descriptor refers to an unused pipe. -/
  bound : ∀ i j c p, ((k.tasks i).fds j).endOf = some (c, p) → (k.pipes p).used = true
  /-- A pipe is in use as long as it has ends, and so long its page is the kernel's, and nobody else's. -/
  used : ∀ p, (k.pipes p).used = true ↔ 0 < k.ends .pipeR p + k.ends .pipeW p
  page : ∀ p, (k.pipes p).used = true → (k.pipes p).phys ∈ k.mem.kern
  apart : ∀ p q, (k.pipes p).used = true → (k.pipes q).used = true →
    (k.pipes p).phys = (k.pipes q).phys → p = q
  /-- Dropping a descriptor frees the page exactly when it is the last end. -/
  freed : ∀ i j p, (k.pipes p).used = true → ((k.pipes p).phys ∉ (k.dropFd i j).mem.kern ↔
    (∃ c, ((k.tasks i).fds j).endOf = some (c, p)) ∧ k.ends .pipeR p + k.ends .pipeW p = 1)

theorem pipes_held {m : Space} (hb : m.Boot) {k : Kernel Space} (h : Reachable m k) : PipesHeld k := by
  have hs := h.shape
  have hc := h.counted
  obtain ⟨L, hf⟩ := h.framed hb
  have hpage : ∀ p, (k.pipes p).used = true → frameOf ⟨none, none, L⟩ k (.page p) =
      some (k.pipes p).phys := fun p hu => by
    rw [frameOf, if_pos hu]
  have hbound : ∀ i j c p, ((k.tasks i).fds j).endOf = some (c, p) → (k.pipes p).used = true :=
    fun i j c p he =>
    (hc.bound (i, j) c p he).2
  have hapart : ∀ p q, (k.pipes p).used = true → (k.pipes q).used = true →
      (k.pipes p).phys = (k.pipes q).phys → p = q := by
    intro p q hp hq he
    have := hf.apart (.page p) (.page q) _ (hpage p hp) (he ▸ hpage q hq)
    injection this
  refine ⟨hc.rrefs, hc.wrefs, hbound, fun p => ?_, fun p hu => hf.kept _ _ (hpage p hu), hapart,
    fun i j p hu => ?_⟩
  · constructor
    · intro hu
      rw [← hc.rrefs p hu, ← hc.wrefs p hu]
      exact (hc.alive p hu).resolve_left nofun
    · intro hpos
      have hsome : ∃ c, 0 < k.ends c p := by
        rcases Nat.eq_zero_or_pos (k.ends .pipeR p) with h0 | h0
        · exact ⟨.pipeW, by omega⟩
        · exact ⟨.pipeR, h0⟩
      obtain ⟨c, hpos⟩ := hsome
      obtain ⟨x, -, hx⟩ := fiber_pos.1 hpos
      exact hbound x.1 x.2 c p hx
  · rw [← dropFd_last hs hc hu i j]
    rcases dropFd_page k i j (fun p => hf.phys p) with ⟨hm, hp⟩ | ⟨p', hu', hm, hp⟩
    · rw [hm, (hp p).1, hu]
      simp [hf.kept _ _ (hpage p hu)]
    · have hkern : (k.dropFd i j).mem.kern = k.mem.kern.erase (k.pipes p').phys := by
        rw [hm]
        exact Space.kfree_kern _ _
      rw [hkern, hp]
      by_cases hpp : p = p'
      · subst hpp
        simp [Pipe.unused]
      · have hne : (k.pipes p).phys ≠ (k.pipes p').phys := fun he => hpp (hapart p p' hu hu' he)
        simp [hpp, hu, hne, hf.kept _ _ (hpage p hu)]

theorem pipes_held_boot : PipesHeld ((twoTasks smallSpace).run [callOf 11 0x401000 0]) :=
  pipes_held smallSpace_boot ((twoTasks_reachable smallSpace).run _)

end Kernel

end VampireOS
