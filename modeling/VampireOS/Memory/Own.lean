import VampireOS.Memory.Bytes
import VampireOS.Memory.Heap

/-!
# Pages of one's own

A page that `vmm_map_user` has just mapped is writable in hardware, and its frame is nobody else's
(`OwnPage`). Copies into it never fail, and the page stays so. `OnPage` is what a series of them
leaves: `A` is read at the addresses of the task, and nothing else has changed.
-/

namespace VampireOS

open Lib

/-- The end of the user half. -/
def userTop : Nat := userPages * pageSize

/-- `A` with `bs` from `dst` on. -/
def put (A : Nat → Option UInt8) (dst : Nat) (bs : List UInt8) (w : Nat) : Option UInt8 :=
  if dst ≤ w ∧ w < dst + bs.length then bs[w - dst]? else A w

theorem put_in {A : Nat → Option UInt8} {dst i : Nat} {bs : List UInt8} (hi : i < bs.length) :
    put A dst bs (dst + i) = some bs[i] := by
  unfold put
  rw [if_pos (by omega), Nat.add_sub_cancel_left, List.getElem?_eq_getElem hi]

theorem put_out {A : Nat → Option UInt8} {dst w : Nat} {bs : List UInt8}
    (h : ¬(dst ≤ w ∧ w < dst + bs.length)) :
    put A dst bs w = A w := if_neg h

/-- Two addresses of the user half with one page and one offset are the same. -/
theorem addr_inj {v w : Nat} (hv : v < userTop) (hw : w < userTop) (hn : vpn w = vpn v)
    (ho : offset w = offset v) : w = v := by
  have ho := congrArg Fin.val ho
  simp only [offset] at ho
  unfold vpn at hn
  unfold userTop userPages pageSize at *
  omega

theorem readByte_put {bs : List UInt8} {A A' : TaskMem} {va w : Nat}
    (hva : va + bs.length ≤ userTop) (hw : w < userTop) (h : storeBytes A va bs = some A') :
    readByte A' w = put (readByte A) va bs w := by
  induction bs generalizing A va with
  | nil =>
    cases h
    exact (put_out (by simp only [List.length_nil]; omega)).symm
  | cons b bs ih =>
    unfold storeBytes at h
    cases hb : storeByte A va b with
    | none => rw [hb] at h; cases h
    | some A1 =>
      rw [hb] at h
      simp only [List.length_cons] at h hva
      rw [Nat.mod_eq_of_lt (by unfold userTop userPages pageSize at hva; omega)] at h
      rw [ih (by omega) h]
      have hfirst := readByte_storeByte (w := w) hb
      unfold put
      simp only [List.length_cons]
      by_cases hlater : va + 1 ≤ w ∧ w < va + 1 + bs.length
      · rw [if_pos hlater, if_pos (by omega), show w - va = w - (va + 1) + 1 by omega,
          List.getElem?_cons_succ]
      · rw [if_neg hlater, hfirst]
        by_cases he : w = va
        · subst he
          rw [if_pos ⟨rfl, rfl⟩, if_pos (by omega), Nat.sub_self]
          rfl
        · rw [if_neg (fun hx => he (addr_inj (by omega) hw hx.1 hx.2)), if_neg (by omega)]

/-! ## Copies into such a page -/

section
variable {vm : Vm} {roots kern : Finset Nat} {r : Nat}

/-- Page `n` of task `r` is mapped and writable in hardware. -/
def HwPage (m : Mem) (r n : Nat) : Prop := ∃ l, view m r n = some l ∧ l.hw = true

/-- A frame that is nobody else's needs no copy. -/
theorem VmInv.cowBreak_hw (h : VmInv vm roots kern) (hr : r ∈ roots) {va : Nat} (hv : vpn va < userPages)
    (hw : HwPage vm.mem r (vpn va)) : ∃ vm', vmmCowBreak vm r va = (vm', true) := by
  obtain ⟨l, hl, hhw⟩ := hw
  obtain ⟨hwant, hone⟩ := h.cow.writable (r, vpn va) (mem_sites.2 ⟨hr, hv⟩) l hl hhw
  unfold vmmCowBreak
  have hspec := h.vmmLeafPte_spec hr (va &&& addrMask)
  rw [vpn_addr] at hspec
  rcases hspec with ⟨-, h2⟩ | ⟨pt, l', h1, -, -, hl', he, hd⟩
  · rw [h2 hv] at hl
    cases hl
  · rw [hl] at hl'
    cases hl'
    have hrefs : cowRefs vm.cowTab l.frame ≤ 1 := by
      rw [cowRefs_eq]
      unfold count
      cases hrf : refs? vm.cowTab l.frame with
      | none => exact le_rfl
      | some n =>
        have := (h.cow.exact _ n hrf).2
        simp only [Option.getD_some]
        omega
    rw [h1]
    simp only
    rw [he, if_neg (fun hz => by rw [(want_encode hd.owned.page).1 hz] at hwant; cases hwant),
      encode_addr hd.owned h.pt.ok, if_pos hrefs]
    exact ⟨_, rfl⟩

theorem vpn_wrap (va i : Nat) : vpn ((va + 1) % 2 ^ 64 + i) = vpn (va + (i + 1)) := by
  unfold vpn
  omega

theorem Cached.hwPage {va page : Nat} (h : Cached vm r (va &&& addrMask) page) :
    HwPage vm.mem r (vpn va) := by
  obtain ⟨-, l, hl, hw, -⟩ := h
  rw [vpn_addr] at hl
  exact ⟨l, hl, hw⟩

theorem VmInv.copyFrom_hw (hr : r ∈ roots) {n : Nat} (hn : n < userPages) :
    ∀ (bs : List UInt8) (va pageBase page : Nat) (vm : Vm),
    VmInv vm roots kern → (pageBase ≠ 2 ^ 64 - 1 → Cached vm r pageBase page) →
    (∀ i, i < bs.length → vpn (va + i) = n) →
    HwPage vm.mem r n →
    (copyToUserFrom r bs va pageBase page vm).2 = true ∧
    HwPage (copyToUserFrom r bs va pageBase page vm).1.mem r n
  | [], va, pageBase, page, vm, _, _, _, hw => by
    unfold copyToUserFrom
    exact ⟨rfl, hw⟩
  | b :: bs, va, pageBase, page, vm, h, hc, hp, hw => by
    have hva : vpn va = n := hp 0 (Nat.succ_pos _)
    -- the rest of the loop, once the page of `va` is at hand in `vm₁`
    have rest : ∀ (vm₁ : Vm) (page : Nat), VmInv vm₁ roots kern → Cached vm₁ r (va &&& addrMask)
      page → ∀ res : Vm × Bool,
        copyToUserFrom r bs ((va + 1) % 2 ^ 64) (va &&& addrMask) page
          { vm₁ with mem := setByte vm₁.mem (page + (va &&& 0xFFF)) b } = res → res.2 = true ∧
            HwPage res.1.mem r n := by
      rintro vm₁ page h₁ hc₁ res rfl
      obtain ⟨a1, a2, -⟩ := h₁.copyByte hr hc₁ b rfl
      refine VmInv.copyFrom_hw hr hn bs _ _ _ _ a1 (fun _ => a2) (fun i hi => ?_) (hva ▸ a2.hwPage)
      rw [vpn_wrap]
      exact hp (i + 1) (Nat.succ_lt_succ hi)
    generalize hres : copyToUserFrom r (b :: bs) va pageBase page vm = res
    unfold copyToUserFrom at hres
    simp only at hres
    by_cases hb : va &&& addrMask ≠ pageBase
    · rw [if_pos hb] at hres
      obtain ⟨vm₁, e⟩ := h.cowBreak_hw hr (hva ▸ hn) (hva ▸ hw)
      rcases h.vmmCowBreak_spec hr va with ⟨a1, -⟩ | ⟨vm₂, a1, hv, a3, -, -, f, a6⟩
      · rw [a1] at e
        cases e
      · rw [a1] at hres
        cases ht : vmmTranslateUser vm₂ r va with
        | none =>
          rw [a3.vmmTranslateUser_none hr hv, a6] at ht
          cases ht
        | some phys =>
          simp only [ht] at hres
          obtain ⟨-, l, hl, rfl⟩ := a3.vmmTranslateUser_some hr ht
          obtain ⟨-, -, -, hd⟩ := a3.pt.of_view hr hv hl
          have hlt : va % pageSize < pageSize := Nat.mod_lt _ (by decide)
          rw [← or_flags_eq_add hd.owned.page hlt, or_flags_addr hd.owned.page
            (hd.owned.lt64 a3.pt.ok).1 hlt] at hres
          rw [hl] at a6
          cases a6
          exact rest vm₂ f a3 ⟨by rw [vpn_addr]; exact hv, _, by rw [vpn_addr]; exact hl, rfl, rfl⟩ res hres
    · rw [if_neg hb] at hres
      have hb : va &&& addrMask = pageBase := by simpa using hb
      rw [← hb] at hres
      exact rest vm page h (hb ▸ hc (hb ▸ addr_ne_ones va)) res hres

theorem VmInv.copyToUser_hw (h : VmInv vm roots kern) (hr : r ∈ roots) {n dst : Nat}
    (hn : n < userPages) {src : List UInt8} (hp : ∀ i, i < src.length → vpn (dst + i) = n)
    (hw : HwPage vm.mem r n) :
    (copyToUserPml4 vm r dst src).2 = true ∧ HwPage (copyToUserPml4 vm r dst src).1.mem r n := by
  unfold copyToUserPml4
  by_cases hs : src = []
  · rw [if_pos hs]
    exact ⟨rfl, hw⟩
  · rw [if_neg hs, if_neg ((h.pt.root_owned hr).ne_zero h.pt.ok)]
    exact VmInv.copyFrom_hw hr hn src dst (2 ^ 64 - 1) 0 vm h (fun hne => absurd rfl hne) hp hw

end

namespace Space

variable {s s' : Space} {r page : Nat} {A : Nat → Option UInt8}

/-- The page at `page` is mapped writable for task `r`, on a frame that is nobody else's. -/
structure OwnPage (s : Space) (r page : Nat) : Prop where
  aligned : page % pageSize = 0
  top : page + pageSize ≤ userTop
  hw : HwPage s.vm.mem r (vpn page)

/-- From `s` to `s'` only bytes of the page at `page` of task `r` were written; `A` is read now. -/
structure OnPage (r page : Nat) (s s' : Space) (A : Nat → Option UInt8) : Prop where
  inv : s'.Inv
  roots : s'.roots = s.roots
  own : s'.OwnPage r page
  read : ∀ w, w < userTop → readByte (s'.mems r) w = A w
  other : ∀ r' ∈ s.roots, r' ≠ r → s'.mems r' = s.mems r'
  kern : s'.kern = s.kern
  frames : ∀ f ∈ s.kern, frameBytes s'.vm.mem f = frameBytes s.vm.mem f

theorem OnPage.refl (h : s.Inv) (ho : s.OwnPage r page) : OnPage r page s s (readByte (s.mems r)) :=
  ⟨h, rfl, ho, fun _ _ => rfl, fun _ _ _ => rfl, rfl, fun _ _ => rfl⟩

/-- A copy into the page. -/
theorem OnPage.copy (h : OnPage r page s s' A) (hr : r ∈ s.roots) (dst : Nat) (bs : List UInt8)
    (h1 : page ≤ dst) (h2 : dst + bs.length ≤ page + pageSize) :
    (s'.step (.copyTo r dst bs)).2 = some 0 ∧ OnPage r page s (s'.step (.copyTo r dst bs)).1
    (put A dst bs) := by
  have hr' : r ∈ s'.roots := h.roots ▸ hr
  obtain ⟨ha, htop, hw⟩ := h.own
  have hv : vpn page < userPages := by
    unfold vpn userTop userPages pageSize at *
    omega
  have hvpn : ∀ i, i < bs.length → vpn (dst + i) = vpn page := by
    intro i hi
    unfold vpn
    unfold pageSize at *
    omega
  obtain ⟨hok, hw'⟩ := VmInv.copyToUser_hw h.inv hr' hv hvpn hw
  obtain ⟨a1, a2, -⟩ := VmInv.copyToUserPml4_spec h.inv hr' dst bs
  obtain ⟨B, hB, hacts⟩ := a2 hok
  have hstep : s'.step (.copyTo r dst bs) = s'.answer (copyToUserPml4 s'.vm r dst bs) := by
    rw [step, onTask, if_pos hr']
  rw [hstep]
  refine ⟨by rw [answer, hok]; rfl, a1, h.roots, ⟨ha, htop, hw'⟩, fun w hw => ?_,
    fun r' hr0 hne => ?_, h.kern, fun f hf => (hacts.kern f (h.kern ▸ hf)).trans (h.frames f hf)⟩
  · rw [show (s'.answer (copyToUserPml4 s'.vm r dst bs)).1.mems r = B from hacts.self,
      readByte_put (by omega) hw hB]
    unfold put
    split
    · rfl
    · exact h.read w hw
  · exact (hacts.other r' (h.roots ▸ hr0) hne).trans (h.other r' hr0 hne)

/-- `vmm_map_user` of a fresh frame leaves such a page. -/
theorem map_ownPage (h : s.Inv) (hr : r ∈ s.roots) (ha : page % pageSize = 0)
    (htop : page + pageSize ≤ userTop) {minPhys : Nat}
    (hok : (s.step (.map r page minPhys)).2.isSome = true) :
    (s.step (.map r page minPhys)).1.OwnPage r page := by
  refine ⟨ha, htop, ?_⟩
  rw [step_map hr] at hok ⊢
  unfold mapFresh at hok ⊢
  split at hok
  · rename_i hc
    rw [if_pos hc]
    have hv := (user_half_iff page).1 hc.1
    have hnone := (VmInv.vmmTranslateUser_none h hr hv).1 hc.2
    simp only at hok ⊢
    rcases pmmAllocFrom_spec s.vm.pmm h.pt.ok minPhys with e | ⟨hne, hal⟩
    · rw [e] at hok
      cases hok
    · rw [if_neg hne] at hok ⊢
      generalize (pmmAllocFrom s.vm.pmm minPhys).1 = p at hne hal hok ⊢
      generalize (pmmAllocFrom s.vm.pmm minPhys).2 = pmm' at hal hok ⊢
      obtain ⟨q1, -, q3, q4, q5, q6⟩ := h.pt.scribble hal (sameOff_zeroPage s.vm.mem p)
      rcases hres : vmmMapUser { s.vm with pmm := pmm', mem := zeroPage s.vm.mem p } r page p with ⟨vm', b⟩
      rw [hres] at hok
      cases b with
      | false => cases hok
      | true =>
        unfold vmmMapUser at hres
        rw [userFlags_eq] at hres
        have hready : ({ s.vm with pmm := pmm', mem := zeroPage s.vm.mem p } : Vm).hhdmReady = true := h.ready
        obtain ⟨-, -, -, -, a5⟩ := vmmMapUserFlags_spec q1 hready hr hv ha q5 hres
        have hview := (a5 rfl).view r hr (vpn page) hv
        rw [if_pos ⟨rfl, rfl⟩] at hview
        exact ⟨_, hview, rfl⟩
  · cases hok

end Space

end VampireOS
