import VampireOS.Memory.Elf
import VampireOS.Memory.Undo

/-!
# The pages of a program (user.c:123-138, 227-252, 405-432)

| here | there |
| --- | --- |
| `allocPage` | `alloc_page`; the page is the kernel's until it is mapped |
| `freePage` | `if (phys != 0) pmm_free(phys)` |
| `loadInto` | `elf_load` into a page |
| `mapPage` | `vmm_map_user` of a page of the kernel, which is the task's afterwards |
| `mapPages` | the two calls of `vmm_map_user` for the code page and the stack page |
| `mapLoadElf`, `replaceLoadElf` | the functions of these names |
| `Borrowed` | what the kernel has taken from the allocator and not given back |
-/

namespace VampireOS

open Lib

namespace Space

def allocPage (s : Space) : Space × Option Nat :=
  match s.kernAlloc page2M with
  | (s, none) => (s, none)
  | (s, some f) => ({ s with vm := { s.vm with mem := zeroPage s.vm.mem f } }, some f)

def freePage (s : Space) : Option Nat → Space
  | none => s
  | some f => (s.kernFree f).1

/-- The bytes of the page `f` are `d`. -/
def putPage (s : Space) (f : Nat) (d : Elf.Dest) : Space :=
  { s with vm := { s.vm with mem := fun a => if f ≤ a ∧ a < f + pageSize then d (a - f) else s.vm.mem a } }

def loadInto (s : Space) (file : List UInt8) (base page : Nat) : Option (Space × Option Nat) :=
  (Elf.elfLoad file pageSize base fun i => s.vm.mem (page + i)).map fun r => (s.putPage page r.1, r.2)

def mapPage (s : Space) (r virt page : Nat) : Space × Bool :=
  let res := vmmMapUser s.vm r virt page
  (⟨res.1, s.roots, if res.2 then s.kern.erase page else s.kern⟩, res.2)

def mapPages (s : Space) (r base code stack : Nat) : Space × Bool :=
  let a := s.mapPage r base code
  if a.2 then a.1.mapPage r (base + pageSize) stack else a

/-- How a loader ends: `refused` is -1, `gone` is -2, and 0 comes with the entry and the stack top. -/
inductive Loaded where
  | fault
  | refused
  | gone
  | done (entry stackTop : Nat)

def mapLoadElf (s : Space) (file : List UInt8) (base r : Nat) : Space × Loaded :=
  if r = 0 then (s, .refused)
  else
    let c := s.allocPage
    let t := c.1.allocPage
    match c.2, t.2 with
    | some code, some stack =>
      match t.1.loadInto file base code with
      | none => (t.1, .fault)
      | some (s, none) => (s, .refused)
      | some (s, some entry) =>
        match s.mapPages r base code stack with
        | (s, false) => (s, .refused)
        | (s, true) => (s, .done entry (base + 2 * pageSize))
    | _, _ => (t.1, .refused)

def replaceLoadElf (s : Space) (file : List UInt8) (base r : Nat) : Space × Loaded :=
  if r = 0 ∨ r = pml4Phys then (s, .refused)
  else
    let c := s.allocPage
    let t := c.1.allocPage
    match c.2, t.2 with
    | some code, some stack =>
      match t.1.loadInto file base code with
      | none => (t.1, .fault)
      | some (s, none) => ((s.freePage code).freePage stack, .refused)
      | some (s, some entry) =>
        match ({ s with vm := vmmTeardownUser s.vm r } : Space).mapPages r base code stack with
        | (s, false) => (s, .gone)
        | (s, true) => (s, .done entry (base + 2 * pageSize))
    | code, stack => ((t.1.freePage code).freePage stack, .refused)

/-! ## Frames of the kernel -/

section
variable {s s' : Space} {F : Finset Nat} {f : Nat}

/-- A write into a page of the kernel. -/
theorem Inv.scribble (h : s.Inv) (hf : f ∈ s.kern) {m : Mem} (hs : SameOff f s.vm.mem m) :
    ({ s with vm := { s.vm with mem := m } } : Space).Inv := by
  have hown := h.pt.kern f hf
  have hnt : ¬IsTable s.vm.mem s.roots f := fun ht => (h.pt.own f ht).2 hf
  obtain ⟨a1, -, a3⟩ := h.pt.frame_page hs hown.page hnt (hown.ne_boot h.pt.ok)
  exact ⟨a1, h.ready, h.unique, h.cow.congr fun x hx => a3 x.1 (mem_sites.1 hx).1 x.2 (mem_sites.1 hx).2⟩

/-- `s'` is `s` after the kernel has taken the frames `F`, and written to nothing but free frames. -/
structure Borrowed (s s' : Space) (F : Finset Nat) : Prop where
  inv : s'.Inv
  roots : s'.roots = s.roots
  kern : s'.kern = s.kern ∪ F
  frames : s'.vm.pmm.frameCount = s.vm.pmm.frameCount
  reserved : s'.vm.pmm.reservedEnd = s.vm.pmm.reservedEnd
  fresh : ∀ f ∈ F, s.vm.pmm.used (f / pageSize) = false
  used : ∀ i, s'.vm.pmm.used i = true ↔ s.vm.pmm.used i = true ∨ ∃ f ∈ F, f / pageSize = i
  mem : ∀ a, s.vm.pmm.used (a / pageSize) = true → s'.vm.mem a = s.vm.mem a

theorem Borrowed.refl (h : s.Inv) : Borrowed s s ∅ :=
  ⟨h, rfl, (Finset.union_empty _).symm, rfl, rfl, fun f hf => absurd hf (Finset.notMem_empty f),
    fun i => by simp, fun _ _ => rfl⟩

/-- Writing to a borrowed page. -/
theorem Borrowed.scribble (b : Borrowed s s' F) (hf : f ∈ F) {m : Mem} (hs : SameOff f s'.vm.mem m) :
    Borrowed s { s' with vm := { s'.vm with mem := m } } F := by
  have hk : f ∈ s'.kern := by
    rw [b.kern]
    exact Finset.mem_union_right _ hf
  have hpage := (b.inv.pt.kern f hk).page
  refine ⟨b.inv.scribble hk hs, b.roots, b.kern, b.frames, b.reserved, b.fresh, b.used, fun a ha => ?_⟩
  refine (hs a ?_).trans (b.mem a ha)
  rintro ⟨h1, h2⟩
  have hdiv : a / pageSize = f / pageSize := by
    unfold Page at hpage
    simp only [pageSize] at h2 hpage ⊢
    omega
  rw [hdiv, b.fresh f hf] at ha
  cases ha

theorem Borrowed.kernAlloc (b : Borrowed s s' F) : (s'.kernAlloc page2M = (s', none)) ∨
    ∃ f, f ∉ F ∧ (s'.kernAlloc page2M).2 = some f ∧ Borrowed s (s'.kernAlloc page2M).1 (insert f F) := by
  have hinv := (kalloc_ok b.inv page2M).inv
  unfold Space.kernAlloc at hinv ⊢
  rcases pmmAllocFrom_spec s'.vm.pmm b.inv.pt.ok page2M with e | ⟨hne, hal⟩
  · exact .inl (by rw [e]; rfl)
  · simp only [if_neg hne] at hinv ⊢
    generalize (pmmAllocFrom s'.vm.pmm page2M).1 = f at hal hinv ⊢
    generalize (pmmAllocFrom s'.vm.pmm page2M).2 = pmm' at hal hinv ⊢
    have hclear : ¬s'.vm.pmm.used (f / pageSize) = true := by simp [hal.clear]
    rw [b.used, not_or] at hclear
    refine .inr ⟨f, fun hf => hclear.2 ⟨f, hf, rfl⟩, rfl, ⟨hinv, b.roots, ?_, hal.frames.trans b.frames,
      hal.reserved.trans b.reserved, fun g hg => ?_, fun i => ?_, b.mem⟩⟩
    · simp only [b.kern, Finset.union_insert]
    · rcases Finset.mem_insert.1 hg with rfl | hg
      · exact Bool.eq_false_iff.2 hclear.1
      · exact b.fresh g hg
    · simp only [hal.used, Finset.exists_mem_insert]
      split
      · next hi => simp [hi]
      · next hi =>
        rw [b.used]
        simp [Ne.symm hi]

theorem Borrowed.allocPage (b : Borrowed s s' F) : s'.allocPage = (s', none) ∨
    ∃ f, f ∉ F ∧ s'.allocPage.2 = some f ∧ Borrowed s s'.allocPage.1 (insert f F) := by
  unfold Space.allocPage
  rcases b.kernAlloc with e | ⟨f, hf, e, hb⟩
  · rw [e]
    exact .inl rfl
  · generalize s'.kernAlloc page2M = res at e hb
    obtain ⟨s1, o⟩ := res
    simp only at e
    subst e
    exact .inr ⟨f, hf, rfl, hb.scribble (Finset.mem_insert_self f F) (sameOff_zeroPage _ f)⟩

theorem Borrowed.freePage (h : s.Inv) (b : Borrowed s s' F) (hf : f ∈ F) :
    Borrowed s (s'.freePage (some f)) (F.erase f) := by
  have hk : f ∈ s'.kern := by
    rw [b.kern]
    exact Finset.mem_union_right _ hf
  have hfresh : f ∉ s.kern := fun hks => by
    have := (h.pt.kern f hks).taken
    rw [b.fresh f hf] at this
    cases this
  have hgave := pmmFree_gave b.inv.pt.ok (b.inv.pt.kern f hk)
  have hinv := (kfree_ok b.inv f).inv
  have hpage : ∀ g ∈ F, Page g :=
    fun g hg => (b.inv.pt.kern g (by rw [b.kern]; exact Finset.mem_union_right _ hg)).page
  unfold Space.freePage kernFree at *
  simp only [if_pos hk] at hinv ⊢
  refine ⟨hinv, b.roots, ?_, hgave.frames.trans b.frames, hgave.reserved.trans b.reserved,
    fun g hg => b.fresh g (Finset.mem_of_mem_erase hg), fun i => ?_, b.mem⟩
  · rw [b.kern, Finset.erase_union_distrib, Finset.erase_eq_of_notMem hfresh]
  · rw [hgave.used]
    split
    · next hi =>
      subst hi
      simp only [b.fresh f hf, Bool.false_eq_true, false_or, false_iff, not_exists, not_and]
      intro g hg
      exact Pmm.div_ne (hpage f hf) (hpage g (Finset.mem_of_mem_erase hg)) (Finset.ne_of_mem_erase hg)
    · next hi =>
      rw [b.used]
      refine or_congr Iff.rfl ⟨?_, ?_⟩
      · rintro ⟨g, hg, rfl⟩
        exact ⟨g, Finset.mem_erase.2 ⟨fun e => hi (by rw [e]), hg⟩, rfl⟩
      · rintro ⟨g, hg, rfl⟩
        exact ⟨g, Finset.mem_of_mem_erase hg, rfl⟩

/-- Tables and mapped pages are in use, so the loaders do not touch them. -/
theorem Borrowed.views (h : s.Inv) (b : Borrowed s s' F) {r : Nat} (hr : r ∈ s.roots) {n : Nat}
    (hn : n < userPages) :
    view s'.vm.mem r n = view s.vm.mem r n := by
  have he : ∀ t, IsTable s.vm.mem s.roots t → ∀ i, i < 512 → ent s'.vm.mem t i = ent s.vm.mem t i :=
    fun t ht i hi => by
    have hown := (h.pt.own t ht).1
    refine rd64_eq fun k hk => b.mem _ ?_
    have hpage := hown.page
    have hdiv : (t + 8 * i + k) / pageSize = t / pageSize := by
      simp only [Page, pageSize] at hpage ⊢
      omega
    rw [hdiv]
    exact hown.taken
  refine view_congr (fun r hr => tab_congr fun ℓ q t hp _ ht i hi _ => ?_) he hr hn
  unfold next
  rw [he t (isTable_of hr hp ht) i hi]

theorem Borrowed.frameBytes (b : Borrowed s s' F) (hf : s.vm.pmm.Owned f) :
    frameBytes s'.vm.mem f = frameBytes s.vm.mem f := by
  funext o
  have ho := o.isLt
  have hpage := hf.page
  have hdiv : (f + o) / pageSize = f / pageSize := by
    simp only [Page, pageSize] at hpage ho ⊢
    omega
  refine b.mem _ ?_
  rw [hdiv]
  exact hf.taken

theorem Borrowed.mems (h : s.Inv) (b : Borrowed s s' F) {r : Nat} (hr : r ∈ s.roots) :
    s'.mems r = s.mems r := by
  funext n
  unfold Space.mems taskMem
  split
  · next hn =>
    rw [absMem_eq, absMem_eq, b.views h hr hn]
    cases hv : view s.vm.mem r n with
    | none => rfl
    | some l =>
      obtain ⟨-, -, -, hd⟩ := h.pt.of_view hr hn hv
      rw [Option.map_some, Option.map_some, pageOf, pageOf, b.frameBytes hd.owned]
  · rfl

/-- The same frames are used, and every task has its mappings and its memory. -/
structure Restored (s s' : Space) : Prop where
  roots : s'.roots = s.roots
  kern : s'.kern = s.kern
  used : ∀ i, s'.vm.pmm.used i = s.vm.pmm.used i
  views : ∀ r ∈ s.roots, ∀ n, n < userPages → view s'.vm.mem r n = view s.vm.mem r n
  mems : ∀ r ∈ s.roots, s'.mems r = s.mems r

theorem Borrowed.restored (h : s.Inv) (b : Borrowed s s' ∅) : Restored s s' := by
  refine ⟨b.roots, by rw [b.kern, Finset.union_empty], fun i => ?_, fun r hr n hn => b.views h hr
    hn, fun r hr => b.mems h hr⟩
  rw [Bool.eq_iff_iff, b.used]
  simp

/-! ## The loaders -/

/-- `elf_load` writes to its page only. -/
theorem Borrowed.loadInto (b : Borrowed s s' F) (hf : f ∈ F) {file : List UInt8} {base : Nat}
    {s1 : Space} {r : Option Nat} (e : s'.loadInto file base f = some (s1, r)) :
    Borrowed s s1 F := by
  unfold Space.loadInto at e
  obtain ⟨⟨d, r'⟩, -, e⟩ := Option.map_eq_some_iff.1 e
  simp only [Prod.mk.injEq] at e
  obtain ⟨rfl, -⟩ := e
  exact b.scribble hf fun a ha => if_neg ha

/-- The two pages of a loader: neither, one, or both. -/
theorem twoPages (h : s.Inv) :
    (s.allocPage.2 = none ∧ s.allocPage.1.allocPage.2 = none ∧
      Borrowed s s.allocPage.1.allocPage.1 ∅) ∨
    (∃ code, s.allocPage.2 = some code ∧ s.allocPage.1.allocPage.2 = none ∧
      Borrowed s s.allocPage.1.allocPage.1 {code}) ∨
    ∃ code stack, code ≠ stack ∧ s.allocPage.2 = some code ∧ s.allocPage.1.allocPage.2 = some stack ∧
      Borrowed s s.allocPage.1.allocPage.1 {stack, code} := by
  rcases (Borrowed.refl h).allocPage with e | ⟨code, -, e, b⟩
  · refine .inl ?_
    rw [e]
    simp only [e]
    exact ⟨trivial, trivial, .refl h⟩
  · refine .inr ?_
    rcases b.allocPage with e' | ⟨stack, hne, e', b'⟩
    · refine .inl ⟨code, e, ?_⟩
      rw [e']
      exact ⟨rfl, b⟩
    · refine .inr ⟨code, stack, fun hcs => hne ?_, e, e', b'⟩
      rw [hcs]
      exact Finset.mem_insert_self ..

/-- A page of the kernel that is let go without being freed. -/
theorem yield_kern (h : PtInv s.vm.mem s.vm.pmm s.roots s.kern) (f : Nat) :
    PtInv s.vm.mem s.vm.pmm s.roots (s.kern.erase f) := by
  refine ⟨h.ok, fun t ht => ⟨(h.own t ht).1, fun hk => (h.own t ht).2 (Finset.mem_of_mem_erase hk)⟩,
    h.inj, h.dir, fun r hr q pt i hp h1 hi => ?_, h.high, h.boot,
    fun g hg => h.kern g (Finset.mem_of_mem_erase hg)⟩
  rcases h.leaf r hr q pt i hp h1 hi with h0 | ⟨l, hl, hd⟩
  · exact .inl h0
  · exact .inr ⟨l, hl, hd.owned, fun hk => hd.notKern (Finset.mem_of_mem_erase hk), hd.notTable⟩

/-- A page that nobody maps is the kernel's. -/
theorem claim_kern {vm : Vm} {roots kern : Finset Nat} (h : PtInv vm.mem vm.pmm roots kern)
    (hd : Data vm.mem vm.pmm roots kern f) (hm : mappings (sites roots) (see vm.mem) f = 0) :
    PtInv vm.mem vm.pmm roots (insert f kern) := by
  have hnot := not_mapped.1 hm
  refine ⟨h.ok, fun t ht => ⟨(h.own t ht).1, fun hk => ?_⟩, h.inj, h.dir,
    fun r hr q pt i hp h1 hi => ?_, h.high, h.boot, fun g hg => ?_⟩
  · rcases Finset.mem_insert.1 hk with rfl | hk
    · exact hd.notTable ht
    · exact (h.own t ht).2 hk
  · rcases h.leaf r hr q pt i hp h1 hi with h0 | ⟨l, hl, hdl⟩
    · exact .inl h0
    · refine .inr ⟨l, hl, hdl.owned, fun hk => ?_, hdl.notTable⟩
      rcases Finset.mem_insert.1 hk with e | hk
      · have hn := page_lt hp hi
        refine hnot r hr (512 * q + i) hn l ?_ e
        have hq : (512 * q + i) / 512 = q := by omega
        have hi' : (512 * q + i) % 512 = i := by omega
        rw [view, hq, h1, Option.bind_some, hi', hl, decode_encode hdl.owned.page (hdl.owned.lt64 h.ok).1]
      · exact hdl.notKern hk
  · rcases Finset.mem_insert.1 hg with rfl | hg
    · exact hd.owned
    · exact h.kern g hg

/-- A page of the kernel becomes a page of the task, or stays where it is. -/
theorem mapPage_spec (h : s.Inv) {r virt : Nat} (hr : r ∈ s.roots) (hv : vpn virt < userPages)
    (ha : virt % pageSize = 0) (hf : f ∈ s.kern) (hn : absMem s.vm.mem r (vpn virt) = none) :
    (s.mapPage r virt f).1.Inv ∧
      (s.mapPage r virt f).1.kern = (if (s.mapPage r virt f).2 then s.kern.erase f else s.kern) ∧
      ∀ n, n < userPages → n ≠ vpn virt →
        absMem (s.mapPage r virt f).1.vm.mem r n = absMem s.vm.mem r n := by
  have hown := h.pt.kern f hf
  have hnt : ¬IsTable s.vm.mem s.roots f := fun ht => (h.pt.own f ht).2 hf
  have hvm : VmInv s.vm s.roots (s.kern.erase f) := ⟨yield_kern h.pt f, h.ready, h.unique, h.cow⟩
  have hd : Data s.vm.mem s.vm.pmm s.roots (s.kern.erase f) f := ⟨hown, Finset.notMem_erase f _, hnt⟩
  have hm : mappings (sites s.roots) (see s.vm.mem) f = 0 := not_mapped.2 fun r hr n hn l hl hlf => by
    obtain ⟨-, -, -, hdl⟩ := h.pt.of_view hr hn hl
    exact hdl.notKern (hlf ▸ hf)
  unfold mapPage
  rcases hres : vmmMapUser s.vm r virt f with ⟨vm', b⟩
  obtain ⟨a1, a2, a3⟩ := hvm.vmmMapUser_spec hr hv ha hd hm (absMem_none.1 hn) hres
  cases b with
  | true =>
    refine ⟨a1, rfl, fun n hn hne => ?_⟩
    exact ((a3 rfl).mem r hr n hn).trans (if_neg fun hx => hne hx.2)
  | false =>
    obtain ⟨b1, b2, b3⟩ := a2 rfl
    have hk := claim_kern a1.pt b2 b3
    rw [Finset.insert_erase hf] at hk
    exact ⟨⟨hk, a1.ready, a1.unique, a1.cow⟩, rfl, fun n hn _ => b1.mem r hr n hn⟩

/-- The invariant holds in `s'` too, with the same PML4s, and the kernel has kept its frames. -/
structure Sound (s s' : Space) : Prop where
  inv : s'.Inv
  roots : s'.roots = s.roots
  kern : s.kern ⊆ s'.kern

theorem Borrowed.sound (b : Borrowed s s' F) : Sound s s' :=
  ⟨b.inv, b.roots, by rw [b.kern]; exact Finset.subset_union_left⟩

/-- Two pages of the user half, one behind the other. -/
structure ImageBase (base : Nat) : Prop where
  aligned : base % pageSize = 0
  code : vpn base < userPages
  stack : vpn (base + pageSize) < userPages
  apart : vpn (base + pageSize) ≠ vpn base

/-- The two pages of the image, at a task without any. -/
theorem mapPages_spec (h : s.Inv) {r base code stack : Nat} (hb : ImageBase base) (hr : r ∈ s.roots)
    (hc : code ∈ s.kern) (hs : stack ∈ s.kern) (hne : stack ≠ code)
    (hempty : ∀ n, n < userPages → absMem s.vm.mem r n = none) :
    (s.mapPages r base code stack).1.Inv ∧ (s.mapPages r base code stack).1.roots = s.roots ∧
      ∀ f ∈ s.kern, f ≠ code → f ≠ stack → f ∈ (s.mapPages r base code stack).1.kern := by
  have hal := hb.aligned
  obtain ⟨a1, a2, a3⟩ := mapPage_spec h hr hb.code hal hc (hempty _ hb.code)
  have hkern : ∀ f ∈ s.kern, f ≠ code → f ∈ (s.mapPage r base code).1.kern := fun f hf hfc => by
    rw [a2]
    split
    · exact Finset.mem_erase.2 ⟨hfc, hf⟩
    · exact hf
  have hnone := (a3 _ hb.stack hb.apart).trans (hempty _ hb.stack)
  have hroot : r ∈ (s.mapPage r base code).1.roots := hr
  have hroots : (s.mapPage r base code).1.roots = s.roots := rfl
  unfold mapPages
  simp only
  generalize s.mapPage r base code = p at a1 hkern hnone hroot hroots
  split
  · have halign : (base + pageSize) % pageSize = 0 := by rw [Nat.add_mod_right, hal]
    obtain ⟨b1, b2, -⟩ := mapPage_spec a1 hroot hb.stack halign (hkern stack hs hne) hnone
    refine ⟨b1, hroots, fun f hf hfc hfs => ?_⟩
    rw [b2]
    split
    · exact Finset.mem_erase.2 ⟨hfs, hkern f hf hfc⟩
    · exact hkern f hf hfc
  · exact ⟨a1, hroots, fun f hf hfc _ => hkern f hf hfc⟩

/-- The tail of both loaders: the pages are still the kernel's, and the task has none. -/
theorem Borrowed.mapPages (h : s.Inv) {code stack : Nat} (hne : stack ≠ code)
    (b : Borrowed s s' {stack, code}) {r base : Nat} (hb : ImageBase base) (hr : r ∈ s.roots)
    {s1 : Space} (hs1 : Sound s' s1) (hempty : ∀ n, n < userPages → absMem s1.vm.mem r n = none) :
    Sound s (s1.mapPages r base code stack).1 := by
  have hcode : code ∈ ({stack, code} : Finset Nat) :=
    Finset.mem_insert_of_mem (Finset.mem_singleton_self code)
  have hstack : stack ∈ ({stack, code} : Finset Nat) := Finset.mem_insert_self ..
  have hin : ∀ f ∈ ({stack, code} : Finset Nat), f ∈ s1.kern := fun f hf => hs1.kern (by
    rw [b.kern]
    exact Finset.mem_union_right _ hf)
  have hfresh : ∀ g ∈ ({stack, code} : Finset Nat), ∀ f ∈ s.kern, f ≠ g := fun g hg f hf e => by
    have hused := (h.pt.kern f hf).taken
    rw [e, b.fresh g hg] at hused
    cases hused
  obtain ⟨m1, m2, m3⟩ := mapPages_spec hs1.inv hb (by rw [hs1.roots, b.roots]; exact hr)
    (hin code hcode) (hin stack hstack) hne hempty
  refine ⟨m1, m2.trans (hs1.roots.trans b.roots), fun f hf => ?_⟩
  refine m3 f (hs1.kern ?_) (hfresh code hcode f hf) (hfresh stack hstack f hf)
  rw [b.kern]
  exact Finset.mem_union_left _ hf

theorem mapLoadElf_sound (h : s.Inv) {r base : Nat} (hb : ImageBase base) (hr : r ∈ s.roots)
    (hempty : ∀ n, n < userPages → absMem s.vm.mem r n = none) (file : List UInt8) :
    Sound s (s.mapLoadElf file base r).1 := by
  unfold mapLoadElf
  have htwo := twoPages h
  by_cases h0 : r = 0
  · rw [if_pos h0]
    exact ⟨h, rfl, Finset.Subset.refl _⟩
  · simp only [if_neg h0]
    generalize s.allocPage = c at htwo ⊢
    generalize c.1.allocPage = t at htwo ⊢
    obtain ⟨c1, c2⟩ := c
    obtain ⟨t1, t2⟩ := t
    rcases htwo with ⟨rfl, rfl, b⟩ | ⟨code, rfl, rfl, b⟩ | ⟨code, stack, hne, rfl, rfl, b⟩
    · exact b.sound
    · exact b.sound
    · simp only
      cases hl : t1.loadInto file base code with
      | none => exact b.sound
      | some res =>
        obtain ⟨s1, o⟩ := res
        have hb1 := b.loadInto (Finset.mem_insert_of_mem (Finset.mem_singleton_self code)) hl
        cases o with
        | none => exact hb1.sound
        | some entry =>
          have hs := hb1.mapPages h hne.symm hb hr ⟨hb1.inv, rfl, Finset.Subset.refl _⟩ fun n hn =>
            absMem_none.2 ((hb1.views h hr hn).trans (absMem_none.1 (hempty n hn)))
          simp only
          split
          · next e => exact (congrArg Prod.fst e ▸ hs :)
          · next e => exact (congrArg Prod.fst e ▸ hs :)

theorem teardown_sound (h : s.Inv) {r : Nat} (hr : r ∈ s.roots) :
    Sound s { s with vm := vmmTeardownUser s.vm r } ∧
      ∀ n, n < userPages → absMem (vmmTeardownUser s.vm r).mem r n = none := by
  obtain ⟨a1, a2, -⟩ := VmInv.vmmTeardownUser_spec h hr
  exact ⟨⟨a1, rfl, Finset.Subset.refl _⟩, fun n hn => (a2 r hr n hn).trans (if_pos rfl)⟩

/-- **A load that is refused** gives back every frame; and however it ends, the memory is in order. -/
theorem replaceLoadElf_spec (h : s.Inv) (file : List UInt8) (base r : Nat) :
    (ImageBase base → r ∈ s.roots → Sound s (s.replaceLoadElf file base r).1) ∧
      ((s.replaceLoadElf file base r).2 = .refused → Borrowed s (s.replaceLoadElf file base r).1 ∅) := by
  unfold replaceLoadElf
  have htwo := twoPages h
  by_cases hr0 : r = 0 ∨ r = pml4Phys
  · rw [if_pos hr0]
    exact ⟨fun _ _ => (Borrowed.refl h).sound, fun _ => .refl h⟩
  · simp only [if_neg hr0]
    generalize s.allocPage = c at htwo ⊢
    generalize c.1.allocPage = t at htwo ⊢
    obtain ⟨c1, c2⟩ := c
    obtain ⟨t1, t2⟩ := t
    rcases htwo with ⟨rfl, rfl, b⟩ | ⟨code, rfl, rfl, b⟩ | ⟨code, stack, hne, rfl, rfl, b⟩
    · exact ⟨fun _ _ => b.sound, fun _ => b⟩
    · have hb := b.freePage h (Finset.mem_singleton_self code)
      rw [Finset.erase_singleton] at hb
      exact ⟨fun _ _ => hb.sound, fun _ => hb⟩
    · have hcode : code ∈ ({stack, code} : Finset Nat) :=
        Finset.mem_insert_of_mem (Finset.mem_singleton_self code)
      simp only
      cases hl : t1.loadInto file base code with
      | none => exact ⟨fun _ _ => b.sound, fun hno => by cases hno⟩
      | some res =>
        obtain ⟨s1, o⟩ := res
        have hb1 := b.loadInto hcode hl
        cases o with
        | none =>
          have hstack : stack ∈ ({stack, code} : Finset Nat).erase code :=
            Finset.mem_erase.2 ⟨hne.symm, Finset.mem_insert_self ..⟩
          have hend := (hb1.freePage h hcode).freePage h hstack
          have hempty : (({stack, code} : Finset Nat).erase code).erase stack = ∅ := by
            ext g
            simp only [Finset.mem_erase, Finset.mem_insert, Finset.mem_singleton,
              Finset.notMem_empty, iff_false]
            tauto
          rw [hempty] at hend
          exact ⟨fun _ _ => hend.sound, fun _ => hend⟩
        | some entry =>
          simp only
          refine ⟨fun hbase hr => ?_, fun hno => ?_⟩
          · obtain ⟨hs1, hs2⟩ := teardown_sound hb1.inv (by rw [hb1.roots]; exact hr)
            have hs := hb1.mapPages h hne.symm hbase hr hs1 hs2
            split
            · next e => exact (congrArg Prod.fst e ▸ hs :)
            · next e => exact (congrArg Prod.fst e ▸ hs :)
          · split at hno <;> cases hno

/-- `elf_load` never leaves the file or its page. -/
theorem loadInto_some (s : Space) {file : List UInt8} (hlen : file.length < 2 ^ 32) (base page : Nat) :
    s.loadInto file base page ≠ none := by
  have hsize : pageSize < 2 ^ 32 := by decide
  obtain ⟨d', r, e, -⟩ := Elf.elfLoad_spec hlen hsize base fun i => s.vm.mem (page + i)
  unfold loadInto
  rw [e]
  exact Option.some_ne_none _

end

end Space

end VampireOS
