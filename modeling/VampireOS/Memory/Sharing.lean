import VampireOS.Memory.Forest

/-!
# The accounting invariant

`VmInv` is `PtInv` together with `CowOk` for the sites (PML4, page) of all tasks: `cow_tab` counts
the mappings. `absMem m r n` is what page `n` holds for the task with PML4 `r`, whichever frame it
lies in: its bytes and whether the task may write there. `Same` and `Step` say that a change of
physical memory shows to no task, or to one task at one page; both also keep the kernel's frames.
-/

namespace VampireOS

open Lib

/-! ## `cow_tab` is a finite map -/

section CowTab
variable {tab : CowTab} {f : Nat}

theorem cowRefs_eq (tab : CowTab) (f : Nat) : cowRefs tab f = count (refs? tab) f := by
  unfold cowRefs count refs?
  cases tab.find? (hit f) <;> rfl

theorem cowClear_spec (h : Unique tab) (f : Nat) :
    Unique (cowClear tab f) ∧ refs? (cowClear tab f) = Function.update (refs? tab) f none := by
  refine ⟨unique_modify (fun e he => absurd rfl he) h, funext fun b => ?_⟩
  unfold cowClear
  rw [refs?_modify (fun e he => absurd rfl he) h]
  by_cases hb : b = f
  · subst hb
    rw [if_pos rfl, Function.update_self]
    cases tab.find? (hit b) <;> rfl
  · rw [if_neg hb, Function.update_of_ne hb]

theorem cowShareFrame_spec (h : Unique tab) {tab' : CowTab} (hs : cowShareFrame tab f = (tab', true)) :
    Unique tab' ∧ refs? tab' = shareRefs (refs? tab) f := by
  unfold cowShareFrame at hs
  split at hs
  · rename_i hany
    rw [any_hit] at hany
    have hk : ∀ e : RefSlot Nat, ({ e with refs := e.refs + 1 } : RefSlot Nat).refs ≠ 0 →
        ({ e with refs := e.refs + 1 } : RefSlot Nat).key = e.key := fun _ _ => rfl
    cases hs
    refine ⟨unique_modify hk h, funext fun b => ?_⟩
    rw [refs?_modify hk h, shareRefs]
    by_cases hb : b = f
    · subst hb
      rw [if_pos rfl, Function.update_self]
      unfold count refs? at *
      cases hf : tab.find? (hit b) with
      | none => rw [hf] at hany; cases hany
      | some e => rfl
    · rw [if_neg hb, Function.update_of_ne hb]
  · split at hs
    · rename_i hany hfree
      rw [any_hit] at hany
      have hnone : refs? tab f = none := by simpa using hany
      cases hs
      refine ⟨unique_insert h hnone, funext fun b => ?_⟩
      rw [refs?_insert (by decide) hnone hfree, shareRefs]
      by_cases hb : b = f
      · subst hb
        rw [if_pos rfl, Function.update_self, count, hnone]
        rfl
      · rw [if_neg hb, Function.update_of_ne hb]
    · cases hs

theorem cowPut_spec (h : Unique tab) (f : Nat) :
    Unique (cowPut tab f).1 ∧ refs? (cowPut tab f).1 = putRefs (refs? tab) f ∧
      ((cowPut tab f).2 = true ↔ count (refs? tab) f ≤ 1) := by
  unfold cowPut
  cases hf : tab.find? (hit f) with
  | none =>
    have hnone : refs? tab f = none := by rw [refs?, hf]; rfl
    have hc : count (refs? tab) f = 1 := by rw [count, hnone]; rfl
    refine ⟨h, ?_, by simp [hc]⟩
    rw [putRefs, hc, if_pos (le_refl 1), ← hnone, Function.update_eq_self]
  | some e =>
    have hsome : refs? tab f = some e.refs := by rw [refs?, hf]; rfl
    have hpos := refs?_pos hsome
    have hc : count (refs? tab) f = e.refs := by rw [count, hsome]; rfl
    simp only
    split
    · have hk : ∀ e : RefSlot Nat, ({ e with refs := e.refs - 1 } : RefSlot Nat).refs ≠ 0 →
          ({ e with refs := e.refs - 1 } : RefSlot Nat).key = e.key := fun _ _ => rfl
      rename_i hne
      refine ⟨unique_modify hk h, funext fun b => ?_, by rw [hc]; simp; omega⟩
      rw [refs?_modify hk h, putRefs, hc]
      by_cases hb : b = f
      · subst hb
        rw [if_pos rfl, Function.update_self, hf, Option.bind_some]
        simp only
        rw [if_neg hne, if_neg (by omega)]
      · rw [if_neg hb, Function.update_of_ne hb]
    · obtain ⟨h1, h2⟩ := cowClear_spec h f
      refine ⟨h1, ?_, by rw [hc]; simp; omega⟩
      rw [putRefs, hc, if_pos (by omega)]
      exact h2

theorem cowUnshare_spec (h : Unique tab) (f : Nat) :
    Unique (cowUnshare tab f) ∧ refs? (cowUnshare tab f) = Function.update (refs? tab) f
      ((refs? tab f).bind fun n => if n ≤ 2 then none else some (n - 1)) := by
  have hk : ∀ e : RefSlot Nat,
    (if e.refs ≤ 2 then ⟨0, 0⟩ else { e with refs := e.refs - 1 } : RefSlot Nat).refs ≠ 0 →
      (if e.refs ≤ 2 then ⟨0, 0⟩ else { e with refs := e.refs - 1 } : RefSlot Nat).key = e.key := by
    intro e he
    split at he
    · exact absurd rfl he
    · rename_i h2; rw [if_neg h2]
  refine ⟨unique_modify hk h, funext fun b => ?_⟩
  unfold cowUnshare
  rw [refs?_modify hk h]
  by_cases hb : b = f
  · subst hb
    rw [if_pos rfl, Function.update_self, refs?]
    cases tab.find? (hit b) with
    | none => rfl
    | some e =>
      simp only [Option.bind_some, Option.map_some]
      by_cases h2 : e.refs ≤ 2
      · simp [h2]
      · simp only [if_neg h2]
        rw [if_neg (by omega)]
  · rw [if_neg hb, Function.update_of_ne hb]

end CowTab

/-! ## What the tasks see -/

def sites (roots : Finset Nat) : Finset (Nat × Nat) := roots ×ˢ Finset.range userPages

theorem mem_sites {roots : Finset Nat} {x : Nat × Nat} : x ∈ sites roots ↔ x.1 ∈ roots ∧ x.2 < userPages := by
  simp [sites]

def see (m : Mem) (x : Nat × Nat) : Option (Leaf Nat) := view m x.1 x.2

structure VmInv (vm : Vm) (roots kern : Finset Nat) : Prop where
  pt : PtInv vm.mem vm.pmm roots kern
  ready : vm.hhdmReady = true
  unique : Unique vm.cowTab
  cow : CowOk (sites roots) (see vm.mem) (refs? vm.cowTab)

/-- A page of a task's abstract memory. -/
structure UserPage where
  bytes : Fin pageSize → UInt8
  writable : Bool

def frameBytes (m : Mem) (f : Nat) : Fin pageSize → UInt8 := fun o => m (f + o)

def absMem (m : Mem) (r n : Nat) : Option UserPage := (view m r n).map fun l => ⟨frameBytes m l.frame, l.want⟩

theorem absMem_none {m : Mem} {r n : Nat} : absMem m r n = none ↔ view m r n = none := by simp [absMem]

theorem SameOff.frameBytes {p f : Nat} {m m' : Mem} (h : SameOff p m m') (hp : Page p) (hf : Page f)
    (hne : f ≠ p) :
    frameBytes m' f = frameBytes m f := funext fun o => h.byte hp hf hne o.isLt

structure Step (roots kern : Finset Nat) (m m' : Mem) (r₀ n₀ : Nat) (v : Option UserPage) : Prop where
  mem : ∀ r ∈ roots, ∀ n, n < userPages → absMem m' r n = if r = r₀ ∧ n = n₀ then v else absMem m r n
  kern : ∀ f ∈ kern, frameBytes m' f = frameBytes m f

structure Same (roots kern : Finset Nat) (m m' : Mem) : Prop where
  mem : ∀ r ∈ roots, ∀ n, n < userPages → absMem m' r n = absMem m r n
  kern : ∀ f ∈ kern, frameBytes m' f = frameBytes m f

theorem Same.refl {roots kern : Finset Nat} {m : Mem} : Same roots kern m m :=
  ⟨fun _ _ _ _ => rfl, fun _ _ => rfl⟩

theorem Same.trans {roots kern : Finset Nat} {m m' m'' : Mem} (h : Same roots kern m m')
    (h' : Same roots kern m' m'') :
    Same roots kern m m'' :=
  ⟨fun r hr n hn => (h'.mem r hr n hn).trans (h.mem r hr n hn), fun f hf => (h'.kern f hf).trans
    (h.kern f hf)⟩

end VampireOS
