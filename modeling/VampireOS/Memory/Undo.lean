import VampireOS.Memory.Leaks

/-!
# A call that is taken back

`Undone` says that the memory is as before: the same PML4s and kernel frames, the same tables and
mapped frames, the same bytes and, with `used`, the same bitmap. A fork is taken back by tearing
down the child.

| here | there |
|---|---|
| `fork_released`, `forkPml4_undone`, `forkPml4_release` | the exits of `user_fork`, user.c:1152-1171 |
| `wrap` | the kernel stack it allocates first and frees last |
-/

namespace VampireOS

open Lib

namespace Space

/-- Nothing but the hardware's write permissions may differ. -/
structure Undone (s s' : Space) : Prop where
  roots : s'.roots = s.roots
  kern : s'.kern = s.kern
  frames : s'.vm.pmm.frameCount = s.vm.pmm.frameCount
  reserved : s'.vm.pmm.reservedEnd = s.vm.pmm.reservedEnd
  tables : ∀ r ∈ s.roots, ∀ ℓ q, Place ℓ q → tab s'.vm.mem r ℓ q = tab s.vm.mem r ℓ q
  pages : ∀ r ∈ s.roots, ∀ n, n < userPages → (view s'.vm.mem r n).map Leaf.frame =
    (view s.vm.mem r n).map Leaf.frame
  mems : ∀ r ∈ s.roots, s'.mems r = s.mems r
  lost : ∀ f, s'.Lost f ↔ s.Lost f

variable {s s' : Space} {r p : Nat}

theorem Undone.refl : Undone s s :=
  ⟨rfl, rfl, rfl, rfl, fun _ _ _ _ _ => rfl, fun _ _ _ _ => rfl, fun _ _ => rfl, fun _ => Iff.rfl⟩

/-- What is in use has been handed out. -/
theorem owned_iff (h : s.Inv) (f : Nat) : s.vm.pmm.Owned f ↔ InUse s.vm.mem s.roots s.kern f ∨ s.Lost f := by
  constructor
  · intro ho
    by_cases hu : InUse s.vm.mem s.roots s.kern f
    · exact .inl hu
    · exact .inr ⟨ho, hu⟩
  · rintro ((hk | ht | ⟨r, hr, n, hn, l, hl, rfl⟩) | hl)
    · exact h.pt.kern f hk
    · exact (h.pt.own f ht).1
    · obtain ⟨-, -, -, hd⟩ := h.pt.of_view hr hn hl
      exact hd.owned
    · exact hl.1

/-- The same frames are marked used. -/
theorem Undone.used (h : Undone s s') (hi : s.Inv) (hi' : s'.Inv) {f : Nat} (hf : f < s.vm.pmm.frameCount) :
    s'.vm.pmm.used f = s.vm.pmm.used f := by
  by_cases hres : f * pageSize < s.vm.pmm.reservedEnd
  · rw [hi.pt.ok.reserved f hf hres, hi'.pt.ok.reserved f (h.frames ▸ hf) (h.reserved ▸ hres)]
  · have hdiv : f * pageSize / pageSize = f := Nat.mul_div_cancel f (by decide)
    have hown : ∀ s'' : Space, s''.vm.pmm.frameCount = s.vm.pmm.frameCount →
      s''.vm.pmm.reservedEnd = s.vm.pmm.reservedEnd →
        (s''.vm.pmm.Owned (f * pageSize) ↔ s''.vm.pmm.used f = true) := fun s'' h1 h2 =>
      ⟨fun ho => hdiv ▸ ho.taken, fun hu => ⟨Nat.mul_mod_left .., by omega, by omega, by rw [hdiv]; exact hu⟩⟩
    have hsame : s'.vm.pmm.Owned (f * pageSize) ↔ s.vm.pmm.Owned (f * pageSize) := by
      rw [owned_iff hi', owned_iff hi, h.lost, h.roots, h.kern, inUse_congr h.tables h.pages]
    rw [hown s' h.frames h.reserved, hown s rfl rfl] at hsame
    cases hu : s.vm.pmm.used f <;> cases hu' : s'.vm.pmm.used f <;> simp_all

/-! ## Fork -/

/-- A clone, a copy into it that may have failed half-way, and the clone released. -/
theorem fork_released (h : s.Inv) (hr : r ∈ s.roots) {s1 : Space} (hc : s.clonePml4 = (s1, some p)) :
    Undone s (releasePml4 { s1 with vm := (vmmCopyUser s1.vm p r).1 } p) ∧
      (releasePml4 { s1 with vm := (vmmCopyUser s1.vm p r).1 } p).Inv := by
  have hlost := fun f => clonePml4_lost h f
  rw [hc] at hlost
  -- the clone itself touches nobody
  have hclone : (s1.vm.pmm.frameCount = s.vm.pmm.frameCount ∧ s1.vm.pmm.reservedEnd = s.vm.pmm.reservedEnd) ∧
      (∀ r ∈ s.roots, ∀ ℓ q, Place ℓ q → tab s1.vm.mem r ℓ q = tab s.vm.mem r ℓ q) ∧
      ∀ r ∈ s.roots, ∀ n, n < userPages → view s1.vm.mem r n = view s.vm.mem r n := by
    unfold clonePml4 at hc
    rcases h.vmmClonePml4_shape with e | ⟨p', pmm', m', e, h0, hal, hs, hz, hh⟩
    · rw [e] at hc
      simp at hc
    · rw [e] at hc
      simp only [if_neg h0, Prod.mk.injEq] at hc
      obtain ⟨-, -, a3, a4, -⟩ := h.pt.addRoot hal hs hz hh
      rw [← hc.1]
      exact ⟨⟨hal.frames, hal.reserved⟩, a3, a4⟩
  rcases clonePml4_spec h with e | ⟨p', vm1, e, hp, hinv, hsame, hempty⟩
  · rw [hc] at e
    simp at e
  · rw [hc] at e
    simp only [Prod.mk.injEq, Option.some.injEq] at e
    obtain ⟨rfl, rfl⟩ := e
    have hp' : p ∈ insert p s.roots := Finset.mem_insert_self ..
    have hr' : r ∈ insert p s.roots := Finset.mem_insert_of_mem hr
    have hpr : r ≠ p := ne_of_mem_of_not_mem hr hp
    have hne : ∀ r' ∈ s.roots, r' ≠ p := fun r' hx => ne_of_mem_of_not_mem hx hp
    obtain ⟨b1, -, b3⟩ := hinv.vmmCopyUser_spec hr' hp' hpr hempty
    have hcopy := hinv.vmmCopyUser_tidy hr' hp' hpr hempty
    simp only at hclone hlost ⊢
    generalize (vmmCopyUser vm1 p r).1 = vm2 at b1 b3 hcopy ⊢
    obtain ⟨c1, c2⟩ := release_spec (s := ⟨vm2, insert p s.roots, s.kern⟩) b1 hp'
    have htear := (VmInv.vmmTeardownUser_tidy b1 hp').1
    have hroot : (vmmTeardownUser vm2 p).pmm.Owned p :=
      (VmInv.vmmTeardownUser_spec b1 hp').1.pt.root_owned hp'
    have hgave := pmmFree_gave (VmInv.vmmTeardownUser_spec b1 hp').1.pt.ok hroot
    refine ⟨⟨Finset.erase_insert hp, rfl, ?_, ?_, fun r' hx ℓ q hpl => ?_, fun r' hx n hn => ?_,
      fun r' hx => ?_, fun f => ?_⟩, c1⟩
    · exact hgave.frames.trans (htear.frames.trans (hcopy.frames.trans hclone.1.1))
    · exact hgave.reserved.trans (htear.reserved.trans (hcopy.reserved.trans hclone.1.2))
    · exact (htear.tables r' (Finset.mem_insert_of_mem hx) (hne r' hx) ℓ q hpl).trans
        ((hcopy.tables r' (Finset.mem_insert_of_mem hx) (hne r' hx) ℓ q hpl).trans (hclone.2.1 r' hx ℓ q hpl))
    · exact (htear.pages r' (Finset.mem_insert_of_mem hx) (hne r' hx) n hn).trans
        ((hcopy.pages r' (Finset.mem_insert_of_mem hx) (hne r' hx) n hn).trans
          (congrArg (Option.map Leaf.frame) (hclone.2.2 r' hx n hn)))
    · refine (c2 r' (Finset.mem_erase.2 ⟨hne r' hx, Finset.mem_insert_of_mem hx⟩)).trans ?_
      refine Eq.trans (funext fun n => ?_) (hsame.taskMem hx)
      unfold Space.mems taskMem
      split
      · next hn => exact b3.mem r' (Finset.mem_insert_of_mem hx) (hne r' hx) n hn
      · rfl
    · exact (releasePml4_lost (s := ⟨vm2, insert p s.roots, s.kern⟩) b1 hp' f).trans
        ((hcopy.lost f).trans (hlost f))

theorem forkPml4_undone (h : s.Inv) (hr : r ∈ s.roots) (hn : (s.forkPml4 r).2 = none) :
    Undone s (s.forkPml4 r).1 ∧ (s.forkPml4 r).1.Inv := by
  unfold forkPml4 at hn ⊢
  cases hc : s.clonePml4 with
  | mk s1 o =>
    cases o with
    | none => exact ⟨.refl, h⟩
    | some p =>
      simp only [hc] at hn ⊢
      split at hn
      · cases hn
      · rename_i hb
        rw [if_neg hb]
        exact fork_released h hr hc

/-- A child that is given up after all. -/
theorem forkPml4_release (h : s.Inv) (hr : r ∈ s.roots) (hf : s.forkPml4 r = (s', some p)) :
    p ∈ s'.roots ∧ Undone s (s'.releasePml4 p) ∧ (s'.releasePml4 p).Inv := by
  unfold forkPml4 at hf
  cases hc : s.clonePml4 with
  | mk s1 o =>
    cases o with
    | none => simp [hc] at hf
    | some q =>
      simp only [hc] at hf
      split at hf
      · simp only [Prod.mk.injEq, Option.some.injEq] at hf
        obtain ⟨rfl, rfl⟩ := hf
        refine ⟨?_, fork_released h hr hc⟩
        rcases clonePml4_spec h with e | ⟨p', vm1, e, -⟩ <;> rw [hc] at e <;>
          simp only [Prod.mk.injEq, Option.some.injEq] at e
        · exact absurd e.2 nofun
        · obtain ⟨rfl, rfl⟩ := e
          exact Finset.mem_insert_self ..
      · simp at hf

/-- A page for the kernel around calls that are taken back. -/
theorem Undone.wrap {s1 s2 : Space} {minPhys f : Nat} (h : s.Inv) (ha : s.kernAlloc minPhys = (s1, some f))
    (hu : Undone s1 s2) (hi : s2.Inv) : Undone s (s2.kernFree f).1 ∧ (s2.kernFree f).1.Inv := by
  have hlost := fun g => kernAlloc_lost h minPhys g
  rw [ha] at hlost
  unfold kernAlloc at ha
  rcases pmmAllocFrom_spec s.vm.pmm h.pt.ok minPhys with e | ⟨hne, hal⟩
  · rw [e] at ha
    simp at ha
  · simp only [if_neg hne, Prod.mk.injEq, Option.some.injEq] at ha
    obtain ⟨rfl, rfl⟩ := ha
    generalize (pmmAllocFrom s.vm.pmm minPhys).1 = f at hne hal hu hlost ⊢
    generalize (pmmAllocFrom s.vm.pmm minPhys).2 = pmm' at hal hu hlost ⊢
    have hfresh : f ∉ s.kern := fun hk => by
      have := (h.pt.kern f hk).taken
      rw [hal.clear] at this
      cases this
    have hf : f ∈ s2.kern := by
      rw [hu.kern]
      exact Finset.mem_insert_self ..
    have hgave := pmmFree_gave hi.pt.ok (hi.pt.kern f hf)
    refine ⟨⟨?_, ?_, ?_, ?_, fun r hr => ?_, fun r hr => ?_, fun r hr => ?_, fun g => ?_⟩,
      (kfree_ok hi f).inv⟩
    · unfold kernFree
      rw [if_pos hf]
      exact hu.roots
    · unfold kernFree
      rw [if_pos hf]
      exact (congrArg (·.erase f) hu.kern).trans (Finset.erase_insert hfresh)
    · unfold kernFree
      rw [if_pos hf]
      exact hgave.frames.trans (hu.frames.trans hal.frames)
    · unfold kernFree
      rw [if_pos hf]
      exact hgave.reserved.trans (hu.reserved.trans hal.reserved)
    · unfold kernFree
      rw [if_pos hf]
      exact hu.tables r hr
    · unfold kernFree
      rw [if_pos hf]
      exact hu.pages r hr
    · unfold kernFree
      rw [if_pos hf]
      exact hu.mems r hr
    · exact (kernFree_lost hi f g).trans ((hu.lost g).trans (hlost g))

theorem kernAlloc_vm (s : Space) (minPhys : Nat) : (s.kernAlloc minPhys).1.vm.mem = s.vm.mem := by
  unfold kernAlloc
  dsimp only
  split <;> rfl

theorem kernFree_vm (s : Space) (f : Nat) : (s.kernFree f).1.vm.mem = s.vm.mem := by
  unfold kernFree
  split <;> rfl

theorem kernAlloc_none {s : Space} {minPhys : Nat} (h : (s.kernAlloc minPhys).2 = none) :
    (s.kernAlloc minPhys).1 = s := by
  unfold kernAlloc at h ⊢
  dsimp only at h ⊢
  split
  · rfl
  · rename_i h0
    rw [if_neg h0] at h
    cases h

/-- The memory of a fork that gives back what it took: the kernel stack around a copy that is taken back. -/
theorem fork_memory {s s1 s2 : Space} {r f : Nat} (h : s.Inv) (ha : s.kernAlloc page2M = (s1, some f))
    (h2 : s2 = (s1.step (.fork r)).1 ∧ (s1.step (.fork r)).2 = none ∨
      ∃ p, (s1.step (.fork r)).2 = some p ∧ s2 = ((s1.step (.fork r)).1.step (.release p)).1) :
    Undone s (s2.step (.kfree f)).1 ∧ (s2.step (.kfree f)).1.Inv ∧
      (r ∉ s.roots → (s2.step (.kfree f)).1.vm.mem = s.vm.mem) := by
  have hi1 : s1.Inv := by
    have := (kalloc_ok h page2M).inv
    rwa [ha] at this
  have hmem1 : s1.vm.mem = s.vm.mem := by
    have := kernAlloc_vm s page2M
    rwa [ha] at this
  have hroots1 : s1.roots = s.roots := by
    have := congrArg (fun x => x.1.roots) ha
    unfold kernAlloc at this
    dsimp only at this
    split at this <;> exact this.symm
  have hfork : s1.step (.fork r) = s1.onTask r fun s => s.forkPml4 r := by rw [step]
  rw [hfork] at h2
  have key : Undone s1 s2 ∧ s2.Inv ∧ (r ∉ s.roots → s2.vm.mem = s.vm.mem) := by
    by_cases hr : r ∈ s1.roots
    · have hon : (s1.onTask r fun s => s.forkPml4 r) = s1.forkPml4 r := by
        rw [onTask]
        exact if_pos hr
      rw [hon] at h2
      have hoff : ∀ x : Space, r ∉ s.roots → x.vm.mem = s.vm.mem := fun _ hx => absurd (hroots1 ▸ hr) hx
      rcases h2 with ⟨rfl, hn⟩ | ⟨p, hp, rfl⟩
      · obtain ⟨a1, a2⟩ := forkPml4_undone hi1 hr hn
        exact ⟨a1, a2, hoff _⟩
      · obtain ⟨a0, a1, a2⟩ := forkPml4_release hi1 hr (Prod.ext rfl hp)
        have hrel : ((s1.forkPml4 r).1.step (.release p)).1 = (s1.forkPml4 r).1.releasePml4 p := by
          rw [step, onTask, if_pos a0]
        rw [hrel]
        exact ⟨a1, a2, hoff _⟩
    · have hon : (s1.onTask r fun s => s.forkPml4 r) = (s1, none) := by
        rw [onTask]
        exact if_neg hr
      rw [hon] at h2
      rcases h2 with ⟨rfl, -⟩ | ⟨p, hp, -⟩
      · exact ⟨.refl, hi1, fun _ => hmem1⟩
      · cases hp
  obtain ⟨a1, a2, a3⟩ := key
  obtain ⟨b1, b2⟩ := a1.wrap h ha a2
  exact ⟨b1, b2, fun hr => (kernFree_vm s2 f).trans (a3 hr)⟩

/-! ## Later stores -/

/-- One store after another, each with success. -/
def Stores (r : Nat) : Space → List (Nat × UInt8) → Prop
  | _, [] => True
  | s, (v, b) :: ws => (s.step (.store r v b)).2.isSome = true ∧ Stores r (s.step (.store r v b)).1 ws

theorem step_store (hr : r ∈ s.roots) (v : Nat) (b : UInt8) :
    s.step (.store r v b) = s.answer (cpuStore s.vm r v b) := by
  rw [step, onTask]
  exact if_pos hr

theorem answer_roots (res : Vm × Bool) : (s.answer res).1.roots = s.roots := rfl

/-- A store succeeds exactly as on private memory, frames permitting. -/
theorem store_answer (h : s.Inv) (hr : r ∈ s.roots) (v : Nat) (b : UInt8) :
    ((s.step (.store r v b)).2.isSome = true →
        storeByte (s.mems r) v b = some ((s.step (.store r v b)).1.mems r)) ∧
      ((s.step (.store r v b)).2 = none → storeByte (s.mems r) v b = none ∨ NoFrame s.vm) := by
  have hok := store_ok h hr v b
  have hspec := h.cpuStore_spec hr v b
  rw [step_store hr]
  generalize cpuStore s.vm r v b = res at hok hspec ⊢
  refine ⟨fun hsome => ?_, fun hnone => ?_⟩
  · obtain ⟨k, hk⟩ := Option.isSome_iff_exists.1 hsome
    obtain ⟨A, hA, hall⟩ := hok.success k hk
    obtain ⟨B, hB, rfl⟩ := Option.map_eq_some_iff.1 hA
    rw [answer_roots] at hall
    have h1 := hall r hr
    rw [Function.update_self] at h1
    rw [hB, h1]
  · rcases hspec with ⟨-, hn⟩ | ⟨vm', A, rfl, -⟩
    · by_cases hf : NoFrame s.vm
      · exact .inr hf
      · refine .inl (storeByte_refused fun hv l hl => ?_)
        refine (hn hv (pageOf s.vm.mem l) ?_).resolve_right hf
        rw [absMem_eq, hl]
        rfl
    · simp [answer] at hnone

theorem step_store_roots (hr : r ∈ s.roots) (v : Nat) (b : UInt8) :
    (s.step (.store r v b)).1.roots = s.roots := by
  rw [step_store hr, answer_roots]

/-- The same memory takes the same stores, until no frame is left. -/
theorem stores_again {ws : List (Nat × UInt8)} (h : s.Inv) (h' : s'.Inv) (hr : r ∈ s.roots)
    (hr' : r ∈ s'.roots) (hm : s'.mems r = s.mems r) (hs : Stores r s ws) : Stores r s' ws ∨
      ∃ done, done <+: ws ∧ NoFrame (s'.run (done.map fun w => .store r w.1 w.2)).vm := by
  induction ws generalizing s s' with
  | nil => exact .inl trivial
  | cons w ws ih =>
    obtain ⟨v, b⟩ := w
    obtain ⟨h1, h2⟩ := hs
    obtain ⟨a2, -⟩ := store_answer h hr v b
    obtain ⟨c2, c3⟩ := store_answer h' hr' v b
    cases hans : (s'.step (.store r v b)).2 with
    | none =>
      refine .inr ⟨[], List.nil_prefix, (c3 hans).resolve_left ?_⟩
      rw [hm, a2 h1]
      exact nofun
    | some k =>
      have hsome : (s'.step (.store r v b)).2.isSome = true := by rw [hans]; rfl
      have hnext : (s'.step (.store r v b)).1.mems r = (s.step (.store r v b)).1.mems r :=
        Option.some.inj (by rw [← c2 hsome, ← a2 h1, hm])
      rcases ih (step_ok h _).inv (step_ok h' _).inv (by rw [step_store_roots hr]; exact hr)
          (by rw [step_store_roots hr']; exact hr') hnext h2 with
        hrest | ⟨done, hd, hf⟩
      · exact .inl ⟨hsome, hrest⟩
      · exact .inr ⟨(v, b) :: done, by simpa using hd, hf⟩

end Space

end VampireOS
