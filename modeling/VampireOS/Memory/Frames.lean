import VampireOS.Memory.Runs

/-!
# The kernel's own frames

Only `kalloc` and `kfree` change the set of frames that the kernel holds for stacks and pipes; a new frame
is none of them.
-/

namespace VampireOS

def SpaceOp.kernel : SpaceOp → Bool
  | .kalloc _ => true
  | .kfree _ => true
  | _ => false

namespace Space

variable {s : Space}

theorem onTask_kern {r : Nat} {act : Space → Space × Option Nat} (h : ∀ s, (act s).1.kern = s.kern) :
    (s.onTask r act).1.kern = s.kern := by
  unfold onTask
  split
  · exact h s
  · rfl

theorem clonePml4_kern (s : Space) : s.clonePml4.1.kern = s.kern := by
  unfold clonePml4
  simp only
  split <;> rfl

theorem forkPml4_kern (s : Space) (r : Nat) : (s.forkPml4 r).1.kern = s.kern := by
  have hclone := clonePml4_kern s
  unfold forkPml4
  simp only
  split
  · rfl
  · split
    · exact hclone
    · exact hclone

theorem mapFresh_kern (s : Space) (r virt minPhys : Nat) : (s.mapFresh r virt minPhys).1.kern = s.kern := by
  unfold mapFresh
  split
  · simp only
    split
    · rfl
    · split <;> rfl
  · rfl

theorem answer_kern (s : Space) (res : Vm × Bool) : (s.answer res).1.kern = s.kern := rfl
theorem releasePml4_kern (s : Space) (r : Nat) : (s.releasePml4 r).kern = s.kern := rfl

/-- The other calls leave the kernel's frames. -/
theorem step_kern {op : SpaceOp} (h : op.kernel = false) : (s.step op).1.kern = s.kern := by
  cases op with
  | kalloc minPhys => cases h
  | kfree f => cases h
  | clone => exact clonePml4_kern s
  | map r virt minPhys => rw [step]; exact onTask_kern fun s => mapFresh_kern s r virt minPhys
  | fork r => rw [step]; exact onTask_kern fun s => forkPml4_kern s r
  | release r => rw [step]; exact onTask_kern fun s => releasePml4_kern s r
  | teardown r => rw [step]; exact onTask_kern fun s => rfl
  | unmap r virt => rw [step]; exact onTask_kern fun s => answer_kern s _
  | protect r virt wr => rw [step]; exact onTask_kern fun s => answer_kern s _
  | cowBreak r virt => rw [step]; exact onTask_kern fun s => answer_kern s _
  | store r virt b => rw [step]; exact onTask_kern fun s => answer_kern s _
  | copyTo r dst bytes => rw [step]; exact onTask_kern fun s => answer_kern s _
  | mprotect r va len prot => rw [step]; exact onTask_kern fun s => answer_kern s _
  | munmap r base va len => rw [step]; exact onTask_kern fun s => answer_kern s _

theorem kalloc_kern (h : s.Inv) {a f : Nat} (hf : (s.step (.kalloc a)).2 = some f) :
    f ∉ s.kern ∧ (s.step (.kalloc a)).1.kern = insert f s.kern := by
  simp only [step, kernAlloc] at hf ⊢
  rcases pmmAllocFrom_spec s.vm.pmm h.pt.ok a with e | ⟨hne, htook⟩
  · rw [e] at hf
    cases hf
  · rw [if_neg hne] at hf ⊢
    cases hf
    exact ⟨fun hk => htook.fresh (h.pt.kern _ hk) rfl, rfl⟩

theorem kalloc_none {a : Nat} (hf : (s.step (.kalloc a)).2 = none) :
    (s.step (.kalloc a)).1.kern = s.kern := by
  simp only [step, kernAlloc] at hf ⊢
  split
  · rfl
  · rename_i h0
    rw [if_neg h0] at hf
    cases hf

theorem kfree_kern (s : Space) (f : Nat) : (s.step (.kfree f)).1.kern = s.kern.erase f := by
  simp only [step, kernFree]
  split
  · rfl
  · rename_i hf
    exact (Finset.erase_eq_of_notMem hf).symm

theorem kern_ne_zero (h : s.Inv) {f : Nat} (hf : f ∈ s.kern) : f ≠ 0 := by
  have howned := h.pt.kern f hf
  have hlow := h.pt.ok.low (lt_of_le_of_lt (Nat.zero_le _) howned.below)
  have habove := howned.above
  have : 0 < Pmm.kernelEnd := by decide
  omega

end Space

end VampireOS
