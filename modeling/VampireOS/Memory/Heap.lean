import VampireOS.Memory.Undo

/-!
# One task's pages

`OnlyFor` follows the calls that map and unmap pages of one task, `Spares` those that take one
task's memory away: the others are left alone.
-/

namespace VampireOS

open Lib

namespace Space

variable {s s' s'' : Space} {d r va : Nat} {A : TaskMem}

/-- A mapping that is refused changes no task's memory. -/
theorem mapFresh_none (h : s.Inv) (hr : r ∈ s.roots) {minPhys : Nat}
    (hn : (s.mapFresh r va minPhys).2 = none) :
    ∀ r' ∈ s.roots, (s.mapFresh r va minPhys).1.mems r' = s.mems r' := by
  unfold mapFresh at hn ⊢
  split at hn
  · rename_i hc
    rw [if_pos hc]
    have hv := (user_half_iff va).1 hc.1
    have hnone := (VmInv.vmmTranslateUser_none h hr hv).1 hc.2
    simp only at hn ⊢
    rcases pmmAllocFrom_spec s.vm.pmm h.pt.ok minPhys with e | ⟨hne, hal⟩
    · rw [e]
      exact fun _ _ => rfl
    · rw [if_neg hne] at hn ⊢
      generalize (pmmAllocFrom s.vm.pmm minPhys).1 = p at hne hal hn ⊢
      generalize (pmmAllocFrom s.vm.pmm minPhys).2 = pmm' at hal hn ⊢
      obtain ⟨q1, -, q3, q4, q5, q6⟩ := h.pt.scribble hal (sameOff_zeroPage s.vm.mem p)
      have hvm : VmInv { s.vm with pmm := pmm', mem := zeroPage s.vm.mem p } s.roots s.kern :=
        ⟨q1, h.ready, h.unique, h.cow.congr fun x hx => q3 x.1 (mem_sites.1 hx).1 x.2 (mem_sites.1 hx).2⟩
      rcases hres : vmmMapUser { s.vm with pmm := pmm', mem := zeroPage s.vm.mem p } r va p with ⟨vm', b⟩
      rw [hres] at hn
      cases b with
      | true => cases hn
      | false =>
        by_cases ha : va % pageSize = 0
        · obtain ⟨-, a2, -⟩ := hvm.vmmMapUser_spec hr hv ha q5 q6 ((q3 r hr _ hv).trans hnone) hres
          exact fun r' hr' => (q4.trans (a2 rfl).1).taskMem hr'
        · rw [vmmMapUser_unaligned ha] at hres
          cases hres
          exact fun r' hr' => q4.taskMem hr'
  · rename_i hc
    rw [if_neg hc]
    exact fun _ _ => rfl

/-- From `s` to `s'` only the memory of task `r` has changed; it is `A` now. -/
structure OnlyFor (r : Nat) (s s' : Space) (A : TaskMem) : Prop where
  inv : s'.Inv
  roots : s'.roots = s.roots
  self : s'.mems r = A
  other : ∀ r' ∈ s.roots, r' ≠ r → s'.mems r' = s.mems r'

theorem OnlyFor.refl (h : s.Inv) : OnlyFor r s s (s.mems r) := ⟨h, rfl, rfl, fun _ _ _ => rfl⟩

theorem step_map (hr : r ∈ s.roots) (va minPhys : Nat) :
    s.step (.map r va minPhys) = s.mapFresh r va minPhys := by
  rw [step, onTask, if_pos hr]

theorem step_unmap (hr : r ∈ s.roots) (va : Nat) :
    s.step (.unmap r va) = s.answer (vmmUnmapUser s.vm r va) := by
  rw [step, onTask, if_pos hr]

/-- One page is mapped, zeroed. -/
theorem OnlyFor.map {s0 : Space} (h : OnlyFor r s0 s A) (hr : r ∈ s0.roots) {minPhys : Nat} :
    ((s.step (.map r va minPhys)).2.isSome = true →
      OnlyFor r s0 (s.step (.map r va minPhys)).1 (Function.update A (vpn va) (some ⟨fun _ => 0, true⟩))) ∧
      ((s.step (.map r va minPhys)).2 = none → OnlyFor r s0 (s.step (.map r va minPhys)).1 A) := by
  have hr' : r ∈ s.roots := h.roots ▸ hr
  have hok := map_ok h.inv hr' va minPhys
  have hroots := mapFresh_roots s r va minPhys
  rw [step_map hr']
  constructor
  · intro hs
    obtain ⟨a, ha⟩ := Option.isSome_iff_exists.1 hs
    obtain ⟨B, hB, hmem⟩ := hok.success a ha
    cases hB
    rw [hroots] at hmem
    refine ⟨hok.inv, hroots.trans h.roots, ?_, fun r' hr0 hne => ?_⟩
    · rw [hmem r hr', Function.update_self, h.self]
    · rw [hmem r' (h.roots ▸ hr0), Function.update_of_ne hne]
      exact h.other r' hr0 hne
  · intro hn
    have hsame := mapFresh_none h.inv hr' hn
    exact ⟨hok.inv, hroots.trans h.roots, (hsame r hr').trans h.self,
      fun r' hr0 hne => (hsame r' (h.roots ▸ hr0)).trans (h.other r' hr0 hne)⟩

/-- One page is unmapped. -/
theorem OnlyFor.unmap {s0 : Space} (h : OnlyFor r s0 s A) (hr : r ∈ s0.roots)
    (ha : va % pageSize = 0) (hv : vpn va < userPages) (hp : A (vpn va) ≠ none) :
    (s.step (.unmap r va)).2.isSome = true ∧
      OnlyFor r s0 (s.step (.unmap r va)).1 (Function.update A (vpn va) none) := by
  have hr' : r ∈ s.roots := h.roots ▸ hr
  have hok := unmap_ok h.inv hr' va
  rw [step_unmap hr']
  rcases VmInv.vmmUnmapUser_spec h.inv hr' va with ⟨-, hna | hnone⟩ | ⟨vm', e, -⟩
  · exact absurd ha hna
  · refine absurd ?_ hp
    rw [← h.self, mems, taskMem_at _ _ hv, absMem_none]
    exact hnone hv
  · rw [e] at hok ⊢
    obtain ⟨B, hB, hmem⟩ := hok.success 0 rfl
    cases hB
    rw [answer_roots] at hmem
    refine ⟨rfl, hok.inv, h.roots, ?_, fun r' hr0 hne => ?_⟩
    · rw [hmem r hr', Function.update_self, h.self]
    · rw [hmem r' (h.roots ▸ hr0), Function.update_of_ne hne]
      exact h.other r' hr0 hne

/-- Every task but `d` is still there, with the same memory. -/
structure Spares (d : Nat) (s s' : Space) : Prop where
  inv : s.Inv → s'.Inv
  sub : s'.roots ⊆ s.roots
  keeps : s.Inv → ∀ r ∈ s.roots, r ≠ d → r ∈ s'.roots ∧ s'.mems r = s.mems r

theorem Spares.refl : Spares d s s := ⟨id, Finset.Subset.refl _, fun _ _ hr _ => ⟨hr, rfl⟩⟩

theorem Spares.trans (h : Spares d s s') (h' : Spares d s' s'') : Spares d s s'' where
  inv hi := h'.inv (h.inv hi)
  sub := h'.sub.trans h.sub
  keeps hi r hr hne := by
    obtain ⟨h1, h2⟩ := h.keeps hi r hr hne
    obtain ⟨h3, h4⟩ := h'.keeps (h.inv hi) r h1 hne
    exact ⟨h3, h4.trans h2⟩

theorem Spares.kfree (f : Nat) : Spares d s (s.step (.kfree f)).1 := by
  refine ⟨fun hi => (kfree_ok hi f).inv, ?_, fun _ r hr _ => ⟨?_, ?_⟩⟩
  · rw [step, kernFree]
    split <;> exact Finset.Subset.refl _
  · rw [step, kernFree]
    split <;> exact hr
  · rw [step]
    unfold mems
    rw [kernFree_vm]

theorem Spares.teardown : Spares d s (s.step (.teardown d)).1 := by
  rw [step, onTask]
  split
  · rename_i hd
    refine ⟨fun hi => (teardown_ok hi hd).inv, Finset.Subset.refl _, fun hi r hr hne => ⟨hr, ?_⟩⟩
    have := teardown_mems hi hd r hr
    rwa [Function.update_of_ne hne] at this
  · exact .refl

theorem Spares.release : Spares d s (s.step (.release d)).1 := by
  rw [step, onTask]
  split
  · rename_i hd
    refine ⟨fun hi => (release_spec hi hd).1, Finset.erase_subset _ _, fun hi r hr hne => ?_⟩
    have hmem := Finset.mem_erase.2 ⟨hne, hr⟩
    exact ⟨hmem, (release_spec hi hd).2 r hmem⟩
  · exact .refl

end Space

end VampireOS
