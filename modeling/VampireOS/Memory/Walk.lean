import VampireOS.Lib.Radix
import VampireOS.Memory.Alloc
import VampireOS.Memory.Mapping

/-!
# The walk as a map (vmm.c:445-572, 869-917)

Here the tables of one PML4 may hold any entries. `WalkTree` says that the tables below its entries
other than 256 and 511 form a tree of frames that are in use and that nobody maps. A path names its
indices deepest first. `vmm_ensure_table` gives a present entry the user bit if it lacks it: pages
below such an entry that did not translate may then do.
-/

namespace VampireOS

open Lib

/-- Paths of the tables a walk may enter. -/
def walkPaths : Set (List Nat) :=
  {p | p.length ≤ 3 ∧ (∀ i ∈ p, i < 512) ∧ ∀ i ∈ p.getLast?, i ≠ 256 ∧ i ≠ 511}

/-- The path to the page table that covers `virt`. -/
def ptPath (virt : Nat) : List Nat := [pdI virt, pdptI virt, pml4I virt]

/-- A frame the allocator would hand out. -/
def Pmm.Clear (p : Pmm) (f : Nat) : Prop := f / pageSize ∈ p.clear

/-- `t` is a table of the PML4 `r`. -/
def TableOf (m : Mem) (r t : Nat) : Prop := Reached (next tableEnt m) r walkPaths t

/-- The entry of a page table maps a frame. -/
def MappedBy (m : Mem) (r f : Nat) : Prop :=
  ∃ p ∈ walkPaths, p.length = 3 ∧ ∃ pt, descend (next tableEnt m) r p = some pt ∧
    ∃ i, i < 512 ∧ ent m pt i &&& pdePresent ≠ 0 ∧ ent m pt i &&& addrMask = f

/-- No table of `r` is reached twice, and none is free. -/
structure TableTree (m : Mem) (pmm : Pmm) (r : Nat) : Prop where
  ok : pmm.Ok
  root : Page r
  once : Branching (next tableEnt m) r walkPaths
  held : ∀ t, TableOf m r t → ¬ pmm.Clear t

/-- The tables of `r` form a tree, and none is in use elsewhere. -/
structure WalkTree (m : Mem) (pmm : Pmm) (r : Nat) : Prop extends TableTree m pmm r where
  apart : ∀ t, TableOf m r t → ¬ MappedBy m r t

/-- What the entry of a page table says for a user access. -/
def leafAddr (m : Mem) (pt i : Nat) : Option Nat :=
  if userLeaf (ent m pt i) then some (ent m pt i &&& addrMask) else none

/-- The frame that entry `i` of the page table at `p` maps for the user. -/
def slot (m : Mem) (r : Nat) (p : List Nat) (i : Nat) : Option Nat :=
  (descend (next userTableEnt m) r p).bind fun pt => leafAddr m pt i

/-- Every present entry at a path of `D` is a user entry. -/
def UserOn (m : Mem) (r : Nat) (D : Set (List Nat)) : Prop :=
  ∀ i p t, i :: p ∈ D → descend (next tableEnt m) r p = some t → ent m t i &&& pdePresent ≠ 0 →
    ent m t i &&& pteUser ≠ 0

/-- Every present entry on the way to `virt` is a user entry. -/
def UserPath (m : Mem) (r virt : Nat) : Prop := UserOn m r {p | p <:+ ptPath virt}

/-! ## Entries -/

section
variable {m m' : Mem} {pmm pmm' : Pmm} {r t i j x v : Nat} {p : List Nat} {vm vm' : Vm}

theorem walkPaths_closed : PathClosed walkPaths := by
  rintro i p ⟨h1, h2, h3⟩
  refine ⟨by rw [List.length_cons] at h1; omega, fun j hj => h2 j (List.mem_cons_of_mem _ hj),
    fun j hj => h3 j ?_⟩
  cases p with
  | nil => cases hj
  | cons k p => exact hj

theorem walkPaths_suffix {q : List Nat} (h : p ∈ walkPaths) (hs : q <:+ p) : q ∈ walkPaths := by
  induction p with
  | nil =>
    rw [List.suffix_nil.1 hs]
    exact h
  | cons i p ih =>
    rcases List.suffix_cons_iff.1 hs with rfl | hs
    · exact h
    · exact ih (walkPaths_closed i p h) hs

theorem walkPaths_index (h : i :: p ∈ walkPaths) : i < 512 := h.2.1 i List.mem_cons_self

theorem ptPath_mem {virt : Nat} (h : kernelIndex virt = false) : ptPath virt ∈ walkPaths := by
  have hk : ¬ (pml4I virt = 256 ∨ pml4I virt = 511) := fun hk => by
    rw [(kernelIndex_iff virt).2 hk] at h
    cases h
  have h1 := vpn_lt virt
  have h2 := pml4I_eq virt
  have h3 := pdptI_eq virt
  have h4 := pdI_eq virt
  refine ⟨by simp [ptPath], fun i hi => ?_, fun i hi => ?_⟩
  · simp only [ptPath, List.mem_cons, List.not_mem_nil, or_false] at hi
    omega
  · simp only [ptPath, List.getLast?_cons_cons, List.getLast?_singleton, Option.mem_some_iff] at hi
    omega

theorem page_and_addr (e : Nat) : Page (e &&& addrMask) := by
  have h1 : (e &&& addrMask) &&& 0xFFF = 0 := by
    rw [Nat.and_assoc, show addrMask &&& 0xFFF = 0 by decide, Nat.and_zero]
  rw [and_fff] at h1
  exact h1

theorem next_page {ok : Nat → Bool} (h : next ok m t i = some x) : Page x := by
  unfold next at h
  split at h
  · cases h
    exact page_and_addr _
  · cases h

theorem descend_page {ok : Nat → Bool} (hr : Page r) (h : descend (next ok m) r p = some t) : Page t := by
  cases p with
  | nil =>
    cases h
    exact hr
  | cons i p =>
    obtain ⟨u, -, hn⟩ := Option.bind_eq_some_iff.1 h
    exact next_page hn

theorem ent_setEnt_page (ht : Page t) (hx : Page x) (hi : i < 512) (hj : j < 512) (hv : v < 2 ^ 64) :
    ent (setEnt m t i v) x j = if x = t ∧ j = i then v else ent m x j := by
  by_cases hxt : x = t
  · subst hxt
    by_cases hji : j = i
    · subst hji
      rw [if_pos ⟨rfl, rfl⟩, ent_setEnt _ _ _ _ hv]
    · rw [if_neg fun h => hji h.2, ent_setEnt_ne _ _ _ hji]
  · rw [if_neg fun h => hxt h.1, (sameOff_setEnt m t i v hi).ent ht hx hxt hj]

theorem ent_zeroPage_page (ht : Page t) (hx : Page x) (hj : j < 512) :
    ent (zeroPage m t) x j = if x = t then 0 else ent m x j := by
  by_cases hxt : x = t
  · subst hxt
    rw [if_pos rfl, ent_zeroPage _ _ hj]
  · rw [if_neg hxt, (sameOff_zeroPage m t).ent ht hx hxt hj]

theorem userTableEnt_tableEnt {e : Nat} (h : userTableEnt e = true) : tableEnt e = true := by
  simp only [userTableEnt, Bool.and_eq_true] at h
  simp only [tableEnt, Bool.and_eq_true]
  exact ⟨h.1.1, h.2⟩

theorem next_user_next {s : Nat} (h : next userTableEnt m t i = some s) : next tableEnt m t i = some s := by
  unfold next at h ⊢
  split at h
  · rename_i hu
    rw [if_pos (userTableEnt_tableEnt hu)]
    exact h
  · cases h

theorem descend_user {q : List Nat} (h : descend (next userTableEnt m) r q = some t) :
    descend (next tableEnt m) r q = some t :=
  descend_mono (fun _ _ _ => next_user_next) h

theorem walkPt_descend (ok : Nat → Bool) (m : Mem) (r virt : Nat) :
    walkPt ok m r virt = descend (next ok m) r (ptPath virt) := by
  rw [ptPath, descend_cons, descend_cons, descend_cons, Option.bind_assoc]
  change _ = (next ok m r (pml4I virt)).bind _
  rfl

/-- The walk of `vmm_translate_user` by slots. -/
theorem vmmTranslateUser_slot (vm : Vm) (cr3 virt : Nat) : vmmTranslateUser vm cr3 virt =
    if kernelIndex virt = true ∨ vm.hhdmReady = false then none
    else (slot vm.mem (cr3OrBoot cr3) (ptPath virt) (ptI virt)).map fun f => f ||| (virt &&& 0xFFF) := by
  unfold vmmTranslateUser vmmLeafPte
  by_cases hk : kernelIndex virt = true
  · rw [if_pos hk, if_pos (Or.inl hk), Option.map_none]
  · rw [if_neg hk]
    by_cases hr : vm.hhdmReady = false
    · rw [if_pos hr, if_pos (Or.inr hr), Option.map_none]
    · rw [if_neg hr, if_neg (not_or.2 ⟨hk, hr⟩), walkPt_descend, slot]
      generalize descend (next userTableEnt vm.mem) (cr3OrBoot cr3) (ptPath virt) = o
      cases o with
      | none => rw [Option.bind_none, Option.map_none, Option.map_none]
      | some pt =>
        rw [Option.bind_some, leafAddr]
        dsimp only
        split
        · rw [Option.map_some, Option.map_some]
        · rw [Option.map_none, Option.map_none]

/-! ## Writing a leaf -/

/-- A page table is no table above it. -/
theorem set_leaf_above {q : List Nat} {pt : Nat} (e : Nat) (h : TableTree m pmm r)
    (hq : q ∈ walkPaths) (hlen : q.length = 3) (ht : descend (next tableEnt m) r q = some pt)
    (hi : i < 512) (hp : j :: p ∈ walkPaths) (hd : descend (next tableEnt m) r p = some t) :
    ent (setEnt m pt i e) t j = ent m t j := by
  refine (sameOff_setEnt m pt i e hi).ent (descend_page h.root ht) (descend_page h.root hd) ?_
    (walkPaths_index hp)
  rintro rfl
  have hpq := h.once p (walkPaths_closed j p hp) q hq t hd ht
  have h1 := hp.1
  rw [List.length_cons, hpq] at h1
  omega

/-- No table moves. -/
theorem set_leaf_tables {q : List Nat} {pt e : Nat} (h : TableTree m pmm r) (hq : q ∈ walkPaths)
    (hlen : q.length = 3) (ht : descend (next tableEnt m) r q = some pt) (hi : i < 512) :
    (∀ p ∈ walkPaths, descend (next tableEnt (setEnt m pt i e)) r p = descend (next tableEnt m) r p) ∧
      ∀ p ∈ walkPaths, descend (next userTableEnt (setEnt m pt i e)) r p =
      descend (next userTableEnt m) r p := by
  have habove : ∀ ok, (∀ x j s, next ok m x j = some s → next tableEnt m x j = some s) → ∀ p ∈ walkPaths,
      descend (next ok (setEnt m pt i e)) r p = descend (next ok m) r p := by
    intro ok hmono
    refine descend_congr walkPaths_closed fun j p t hp hd => ?_
    have hsame := set_leaf_above e h hq hlen ht hi hp (descend_mono hmono hd)
    unfold next
    rw [hsame]
  exact ⟨habove tableEnt fun _ _ _ h => h, habove userTableEnt fun _ _ _ => next_user_next⟩

/-- **A leaf is written** in the page table at `q`: no table moves and no other slot changes. -/
theorem set_leaf {q : List Nat} {pt e : Nat} (h : TableTree m pmm r) (hq : q ∈ walkPaths)
    (hlen : q.length = 3) (ht : descend (next tableEnt m) r q = some pt) (hi : i < 512)
    (he : e < 2 ^ 64) :
    TableTree (setEnt m pt i e) pmm r ∧
      (∀ t, TableOf (setEnt m pt i e) r t ↔ TableOf m r t) ∧
      (∀ f, MappedBy (setEnt m pt i e) r f → MappedBy m r f ∨ e &&& pdePresent ≠ 0 ∧ f = e &&& addrMask) ∧
      ∀ p ∈ walkPaths, p.length = 3 → ∀ j, j < 512 → slot (setEnt m pt i e) r p j =
        if p = q ∧ j = i then
          (descend (next userTableEnt m) r q).bind fun _ => if userLeaf e then some (e &&& addrMask) else none
        else slot m r p j := by
  have hpt := descend_page h.root ht
  have hent : ∀ x j, Page x → j < 512 → ent (setEnt m pt i e) x j = if x = pt ∧ j = i then e else ent m x j :=
    fun x j hx hj => ent_setEnt_page hpt hx hi hj he
  obtain ⟨htab, huser⟩ := set_leaf_tables h hq hlen ht hi (e := e)
  refine ⟨⟨h.ok, h.root, h.once.congr htab, fun t h' => h.held t ((reached_congr htab t).1 h')⟩,
    reached_congr htab, ?_, fun p hp hl j hj => ?_⟩
  · rintro f ⟨p, hp, hl, x, hx, j, hj, h1, h2⟩
    rw [htab p hp] at hx
    rw [hent x j (descend_page h.root hx) hj] at h1 h2
    split at h1
    · rename_i hc
      rw [if_pos hc] at h2
      exact .inr ⟨h1, h2.symm⟩
    · rename_i hc
      rw [if_neg hc] at h2
      exact .inl ⟨p, hp, hl, x, hx, j, hj, h1, h2⟩
  · unfold slot leafAddr
    rw [huser p hp]
    cases hx : descend (next userTableEnt m) r p with
    | none =>
      rw [Option.bind_none, Option.bind_none]
      by_cases hc : p = q ∧ j = i
      · rw [if_pos hc, ← hc.1, hx, Option.bind_none]
      · rw [if_neg hc]
    | some x =>
      have hx' := descend_user hx
      have hentry := hent x j (descend_page h.root hx) hj
      rw [Option.bind_some, Option.bind_some]
      by_cases hc : p = q ∧ j = i
      · have hxp : x = pt := Option.some.inj ((hc.1 ▸ hx').symm.trans ht)
        rw [if_pos (show x = pt ∧ j = i from ⟨hxp, hc.2⟩)] at hentry
        rw [hentry, if_pos hc, ← hc.1, hx, Option.bind_some]
      · have hxp : ¬ (x = pt ∧ j = i) := fun hxp => hc ⟨h.once p hp q hq x hx' (hxp.1 ▸ ht), hxp.2⟩
        rw [if_neg hxp] at hentry
        rw [hentry, if_neg hc]

/-! ## `vmm_ensure_table` -/

/-- What a call of `vmm_ensure_table` on entry `i` of the table at `p` may do. -/
structure Ensured (vm vm' : Vm) (r i : Nat) (p : List Nat) : Prop where
  tree : TableTree vm'.mem vm'.pmm r
  ready : vm'.hhdmReady = vm.hhdmReady
  mapped : ∀ f, MappedBy vm'.mem r f → MappedBy vm.mem r f
  clear : ∀ f, vm'.pmm.Clear f → vm.pmm.Clear f
  tables : ∀ f, TableOf vm'.mem r f → TableOf vm.mem r f ∨ vm.pmm.Clear f
  user : ∀ D ⊆ walkPaths, UserOn vm.mem r D → UserOn vm'.mem r D
  bytes : ∀ f, Page f → ¬ TableOf vm.mem r f → ¬ vm.pmm.Clear f → ∀ o, o < pageSize →
    vm'.mem (f + o) = vm.mem (f + o)
  /-- Where it had no user bit to set, nobody sees a difference. -/
  slots : (∀ t, descend (next tableEnt vm.mem) r p = some t → ent vm.mem t i &&& pdePresent ≠ 0 →
      ent vm.mem t i &&& pteUser ≠ 0) →
    ∀ q ∈ walkPaths, q.length = 3 → ∀ j, j < 512 → slot vm'.mem r q j = slot vm.mem r q j

theorem Ensured.refl (h : TableTree vm.mem vm.pmm r) : Ensured vm vm r i p :=
  ⟨h, rfl, fun _ h => h, fun _ h => h, fun _ h => .inl h, fun _ _ h => h, fun _ _ _ _ _ _ => rfl,
    fun _ _ _ _ _ _ => rfl⟩

theorem dirEnt_lt {s : Nat} (hs : Page s) (h64 : s < 2 ^ 64) : dirEnt s < 2 ^ 64 := by
  unfold dirEnt
  rw [or_flags_eq_add hs userFlags_lt]
  have h1 := userFlags_lt
  simp only [Page, pageSize] at hs h1
  omega

theorem next_added {ok : Nat → Bool} {s : Nat} (hok : ok (dirEnt s) = true) (h0 : ok 0 = false) (hs : Page s)
    (h64 : s < 2 ^ 64) (ht : Page t) (hx : Page x) (hi : i < 512) (hj : j < 512) :
    next ok (setEnt (zeroPage m s) t i (dirEnt s)) x j =
      if x = t ∧ j = i then some s else if x = s then none else next ok m x j := by
  have hent := ent_setEnt_page (m := zeroPage m s) ht hx hi hj (dirEnt_lt hs h64)
  unfold next
  by_cases hc : x = t ∧ j = i
  · rw [if_pos hc] at hent
    rw [if_pos hc, hent, if_pos hok]
    exact congrArg some (or_flags_addr hs h64 userFlags_lt)
  · rw [if_neg hc, ent_zeroPage_page hs hx hj] at hent
    rw [if_neg hc, hent]
    by_cases hxs : x = s
    · rw [if_pos hxs, if_pos hxs, h0]
      rfl
    · rw [if_neg hxs, if_neg hxs]

theorem leafAddr_none (h : ent m t i = 0) : leafAddr m t i = none := by
  unfold leafAddr
  rw [h]
  rfl

/-- An entry that is not present leads nowhere. -/
theorem next_absent {ok : Nat → Bool} (hok : ∀ e, ok e = true → e &&& pdePresent ≠ 0)
    (h : ent m t i &&& pdePresent = 0) : next ok m t i = none := by
  unfold next
  exact if_neg fun h' => hok _ h' h

theorem tableEnt_present {e : Nat} (h : tableEnt e = true) : e &&& pdePresent ≠ 0 := by
  simp only [tableEnt, Bool.and_eq_true, bne_iff_ne, ne_eq] at h
  exact h.1

theorem userTableEnt_present {e : Nat} (h : userTableEnt e = true) : e &&& pdePresent ≠ 0 :=
  tableEnt_present (userTableEnt_tableEnt h)

/-- **A table is added**: all its entries are 0. -/
theorem ensured_added {t s : Nat} (h : TableTree vm.mem vm.pmm r) (hp : i :: p ∈ walkPaths)
    (ht : descend (next tableEnt vm.mem) r p = some t) (h0 : ent vm.mem t i &&& pdePresent = 0)
    (hal : vm.pmm.Took s pmm') :
    Ensured vm { vm with pmm := pmm', mem := setEnt (zeroPage vm.mem s) t i (dirEnt s) } r i p ∧
      descend (next tableEnt (setEnt (zeroPage vm.mem s) t i (dirEnt s))) r (i :: p) = some s ∧
      (descend (next userTableEnt vm.mem) r p = some t →
        descend (next userTableEnt (setEnt (zeroPage vm.mem s) t i (dirEnt s))) r (i :: p) = some s) := by
  have hclear : vm.pmm.Clear s := Pmm.mem_clear.2 ⟨hal.below, hal.clear⟩
  have hs := hal.page
  have h64 : s < 2 ^ 64 := by
    have h1 := (hal.owned h.ok).lt (hal.ok h.ok)
    omega
  have hi := walkPaths_index hp
  have htp := descend_page h.root ht
  have hfresh : ¬ Reached (next tableEnt vm.mem) r walkPaths s := fun hr => h.held s hr hclear
  have hts : t ≠ s := by
    rintro rfl
    exact hfresh ⟨p, walkPaths_closed i p hp, ht⟩
  have hpage : ∀ x, x = s ∨ Reached (next tableEnt vm.mem) r walkPaths x → Page x := by
    rintro x (rfl | ⟨q, -, hq⟩)
    · exact hs
    · exact descend_page h.root hq
  set m' := setEnt (zeroPage vm.mem s) t i (dirEnt s) with hm'
  have hn : ∀ j q x, j :: q ∈ walkPaths → x = s ∨ Reached (next tableEnt vm.mem) r walkPaths x →
      next tableEnt m' x j = if x = t ∧ j = i then some s else if x = s then none
        else next tableEnt vm.mem x j :=
    fun j q x hq hx => next_added (tableEnt_dirEnt hs) rfl hs h64 htp (hpage x hx) hi (walkPaths_index hq)
  have hnu : ∀ j q x, j :: q ∈ walkPaths → x = s ∨ Reached (next tableEnt vm.mem) r walkPaths x →
      next userTableEnt m' x j =
        if x = t ∧ j = i then some s else if x = s then none else next userTableEnt vm.mem x j :=
    fun j q x hq hx => next_added (userTableEnt_dirEnt hs) rfl hs h64 htp (hpage x hx) hi (walkPaths_index hq)
  have hnone := next_absent (fun _ => tableEnt_present) h0
  have hall := descend_add walkPaths_closed h.once hp ht hnone hfresh hn
  obtain ⟨honce, hreach⟩ := h.once.add walkPaths_closed hp ht hnone hfresh hn
  have hent : ∀ x j, Page x → j < 512 → ¬ (x = t ∧ j = i) → ent m' x j = if x = s then 0
      else ent vm.mem x j := by
    intro x j hx hj hne
    rw [hm', ent_setEnt_page htp hx hi hj (dirEnt_lt hs h64), if_neg hne, ent_zeroPage_page hs hx hj]
  have hnew : descend (next tableEnt m') r (i :: p) = some s := by rw [hall _ hp, if_pos rfl]
  -- the user's walk gets as far as the new table only if it got here
  have hdu : ∀ q ∈ walkPaths, descend (next userTableEnt m') r q =
      if q = i :: p ∧ descend (next userTableEnt vm.mem) r p = some t then some s
      else descend (next userTableEnt vm.mem) r q := by
    have hmono : ∀ x, Reached (next userTableEnt vm.mem) r walkPaths x →
        Reached (next tableEnt vm.mem) r walkPaths x :=
      fun x ⟨q, hq, hx⟩ => ⟨q, hq, descend_user hx⟩
    by_cases hup : descend (next userTableEnt vm.mem) r p = some t
    · intro q hq
      rw [descend_add walkPaths_closed (h.once.mono fun _ _ _ => next_user_next) hp hup
        (next_absent (fun _ => userTableEnt_present) h0) (fun hr => hfresh (hmono s hr))
        (fun j q x hq hx => hnu j q x hq (hx.imp_right (hmono x))) q hq]
      exact if_congr (iff_self_and.2 fun _ => hup) rfl rfl
    · intro q hq
      rw [if_neg fun hc => hup hc.2]
      refine descend_congr walkPaths_closed (fun j q x hq hx => ?_) q hq
      have hx' := descend_user hx
      have hr : Reached (next tableEnt vm.mem) r walkPaths x := ⟨q, walkPaths_closed j q hq, hx'⟩
      rw [hnu j q x hq (.inr hr), if_neg, if_neg]
      · rintro rfl
        exact hfresh hr
      · rintro ⟨rfl, -⟩
        rw [← h.once q (walkPaths_closed j q hq) p (walkPaths_closed i p hp) x hx' ht] at hup
        exact hup hx
  have hclear' : ∀ f, pmm'.Clear f → vm.pmm.Clear f ∧ f / pageSize ≠ s / pageSize := by
    intro f hf
    obtain ⟨h1, h2⟩ := Pmm.mem_clear.1 hf
    rw [hal.used] at h2
    split at h2
    · cases h2
    · rename_i hne
      exact ⟨Pmm.mem_clear.2 ⟨hal.frames ▸ h1, h2⟩, hne⟩
  refine ⟨⟨⟨hal.ok h.ok, h.root, honce, fun x hx hc => ?_⟩, rfl, ?_, fun f hf => (hclear' f hf).1,
    fun f hf => ?_, ?_, fun f hf h1 h2 o ho => ?_, ?_⟩, hnew, fun hu => ?_⟩
  · obtain ⟨hc1, hc2⟩ := hclear' x hc
    rcases (hreach x).1 hx with hx | rfl
    · exact h.held x hx hc1
    · exact hc2 rfl
  · rintro f ⟨q, hq, hl, x, hx, j, hj, h1, h2⟩
    rw [hall q hq] at hx
    split at hx
    · -- in the new table
      obtain rfl := Option.some.inj hx
      rw [hent s j hs hj fun hc => hts hc.1.symm, if_pos rfl] at h1
      exact absurd (Nat.zero_and _) h1
    · have hxs : x ≠ s := by
        rintro rfl
        exact hfresh ⟨q, hq, hx⟩
      have hxt : ¬ (x = t ∧ j = i) := by
        rintro ⟨rfl, -⟩
        have hqp := h.once q hq p (walkPaths_closed i p hp) x hx ht
        have h3 := hp.1
        rw [List.length_cons, ← hqp] at h3
        omega
      rw [hent x j (descend_page h.root hx) hj hxt, if_neg hxs] at h1 h2
      exact ⟨q, hq, hl, x, hx, j, hj, h1, h2⟩
  · rcases (hreach f).1 hf with hf | rfl
    · exact .inl hf
    · exact .inr hclear
  · intro D hD hu j q x hsuf hx hpres
    have hjq := hD hsuf
    have hj := walkPaths_index hjq
    rw [hall q (walkPaths_closed j q hjq)] at hx
    split at hx
    · obtain rfl := Option.some.inj hx
      rw [hent s j hs hj fun hc => hts hc.1.symm, if_pos rfl] at hpres
      exact absurd (Nat.zero_and _) hpres
    · by_cases hc : x = t ∧ j = i
      · rw [hc.1, hc.2, hm', ent_setEnt _ _ _ _ (dirEnt_lt hs h64), dirEnt, or_flags_and hs (by decide)]
        decide
      · have hxs : x ≠ s := by
          rintro rfl
          exact hfresh ⟨q, walkPaths_closed j q hjq, hx⟩
        rw [hent x j (descend_page h.root hx) hj hc, if_neg hxs] at hpres ⊢
        exact hu j q x hsuf hx hpres
  · have hft : f ≠ t := by
      rintro rfl
      exact h1 ⟨p, walkPaths_closed i p hp, ht⟩
    have hfs : f ≠ s := by
      rintro rfl
      exact h2 hclear
    exact ((sameOff_setEnt _ t i _ hi).byte htp hf hft ho).trans
      ((sameOff_zeroPage vm.mem s).byte hs hf hfs ho)
  · intro _ q hq hl j hj
    unfold slot
    rw [hdu q hq]
    by_cases hc : q = i :: p ∧ descend (next userTableEnt vm.mem) r p = some t
    · rw [if_pos hc, Option.bind_some, leafAddr_none, hc.1, descend_cons, hc.2, Option.bind_some,
        next_absent (fun _ => userTableEnt_present) h0, Option.bind_none]
      rw [hent s j hs hj fun hc => hts hc.1.symm, if_pos rfl]
    · rw [if_neg hc]
      cases hx : descend (next userTableEnt vm.mem) r q with
      | none => rw [Option.bind_none, Option.bind_none]
      | some x =>
        have hx' := descend_user hx
        have hxs : x ≠ s := by
          rintro rfl
          exact hfresh ⟨q, hq, hx'⟩
        have hxt : ¬ (x = t ∧ j = i) := by
          rintro ⟨rfl, -⟩
          have hqp := h.once q hq p (walkPaths_closed i p hp) x hx' ht
          have h3 := hp.1
          rw [List.length_cons, ← hqp] at h3
          omega
        have hsame := hent x j (descend_page h.root hx) hj hxt
        rw [if_neg hxs] at hsame
        rw [Option.bind_some, Option.bind_some, leafAddr, leafAddr, hsame]
  · rw [hdu _ hp, if_pos ⟨rfl, hu⟩]

theorem or_user_and {e k : Nat} (hk : pteUser &&& k = 0) : (e ||| pteUser) &&& k = e &&& k := by
  rw [Nat.and_or_distrib_right, hk, Nat.or_zero]

theorem tableEnt_or_user (e : Nat) : tableEnt (e ||| pteUser) = tableEnt e := by
  unfold tableEnt
  rw [or_user_and (k := pdePresent) (by decide), or_user_and (k := pdeLarge) (by decide)]

theorem ent_lt (m : Mem) (t i : Nat) : ent m t i < 2 ^ 64 := by
  unfold ent rd64
  have h := fun k => (m (t + 8 * i + k)).toNat_lt
  have h0 := h 0
  rw [Nat.add_zero] at h0
  have h1 := h 1
  have h2 := h 2
  have h3 := h 3
  have h4 := h 4
  have h5 := h 5
  have h6 := h 6
  have h7 := h 7
  omega

/-- **The user bit is set** in an entry that lacks it: no table moves. -/
theorem ensured_widened {t : Nat} (h : TableTree vm.mem vm.pmm r) (hp : i :: p ∈ walkPaths)
    (ht : descend (next tableEnt vm.mem) r p = some t) (h0 : ent vm.mem t i &&& pdePresent ≠ 0)
    (hu : ent vm.mem t i &&& pteUser = 0) :
    Ensured vm { vm with mem := setEnt vm.mem t i (ent vm.mem t i ||| pteUser) } r i p ∧
      ∀ q ∈ walkPaths, descend (next tableEnt (setEnt vm.mem t i (ent vm.mem t i ||| pteUser))) r q =
        descend (next tableEnt vm.mem) r q := by
  have hi := walkPaths_index hp
  have htp := descend_page h.root ht
  have hlt : ent vm.mem t i ||| pteUser < 2 ^ 64 := Nat.or_lt_two_pow (ent_lt _ _ _) (by decide)
  set m' := setEnt vm.mem t i (ent vm.mem t i ||| pteUser) with hm'
  have hent : ∀ x j, Page x → j < 512 →
      ent m' x j = if x = t ∧ j = i then ent vm.mem t i ||| pteUser else ent vm.mem x j :=
    fun x j hx hj => ent_setEnt_page htp hx hi hj hlt
  have hall : ∀ q ∈ walkPaths, descend (next tableEnt m') r q = descend (next tableEnt vm.mem) r q := by
    refine descend_congr walkPaths_closed fun j q x hq hx => ?_
    have hentry := hent x j (descend_page h.root hx) (walkPaths_index hq)
    unfold next
    by_cases hc : x = t ∧ j = i
    · rw [if_pos hc] at hentry
      rw [hentry, tableEnt_or_user, hc.1, hc.2, or_user_and (by decide)]
    · rw [if_neg hc] at hentry
      rw [hentry]
  refine ⟨⟨⟨h.ok, h.root, h.once.congr hall, fun x hx => h.held x ((reached_congr hall x).1 hx)⟩,
    rfl, ?_, fun _ hf => hf, fun f hf => .inl ((reached_congr hall f).1 hf), ?_,
    fun f hf h1 _ o ho => ?_, fun huser => absurd hu (huser t ht h0)⟩, hall⟩
  · rintro f ⟨q, hq, hl, x, hx, j, hj, h1, h2⟩
    rw [hall q hq] at hx
    have hxt : ¬ (x = t ∧ j = i) := by
      rintro ⟨rfl, -⟩
      have hqp := h.once q hq p (walkPaths_closed i p hp) x hx ht
      have h3 := hp.1
      rw [List.length_cons, ← hqp] at h3
      omega
    rw [hent x j (descend_page h.root hx) hj, if_neg hxt] at h1 h2
    exact ⟨q, hq, hl, x, hx, j, hj, h1, h2⟩
  · intro D hD huser j q x hsuf hx hpres
    have hjq := hD hsuf
    rw [hall q (walkPaths_closed j q hjq)] at hx
    have hentry := hent x j (descend_page h.root hx) (walkPaths_index hjq)
    by_cases hc : x = t ∧ j = i
    · rw [if_pos hc] at hentry
      rw [hentry, Nat.and_or_distrib_right, hu]
      decide
    · rw [if_neg hc] at hentry
      rw [hentry] at hpres ⊢
      exact huser j q x hsuf hx hpres
  · refine (sameOff_setEnt _ t i _ hi).byte htp hf ?_ ho
    rintro rfl
    exact h1 ⟨p, walkPaths_closed i p hp, ht⟩

/-- **`vmm_ensure_table`** answers the table below entry `i`, which the user's walk reaches if it got here. -/
theorem vmmEnsureTable_ensured {t : Nat} (h : TableTree vm.mem vm.pmm r) (hp : i :: p ∈ walkPaths)
    (ht : descend (next tableEnt vm.mem) r p = some t) {o : Option Nat}
    (he : vmmEnsureTable vm t i pteUserFlags = (vm', o)) :
    Ensured vm vm' r i p ∧ ∀ s, o = some s → descend (next tableEnt vm'.mem) r (i :: p) = some s ∧
      (descend (next userTableEnt vm.mem) r p = some t →
        descend (next userTableEnt vm'.mem) r (i :: p) = some s) := by
  unfold vmmEnsureTable at he
  simp only at he
  split at he
  · rename_i h0
    split at he
    · cases he
      exact ⟨.refl h, nofun⟩
    · rename_i s pmm' hne heq
      rcases pmmAlloc_spec vm.pmm h.ok with hal | ⟨-, hal⟩
      · rw [heq] at hal
        exact absurd (congrArg Prod.fst hal) hne
      · rw [heq] at hal
        rw [← dirEnt] at he
        cases he
        obtain ⟨h1, h2, h3⟩ := ensured_added h hp ht h0 hal
        refine ⟨h1, fun x hx => ?_⟩
        cases hx
        exact ⟨h2, h3⟩
  · rename_i h0
    split at he
    · cases he
      exact ⟨.refl h, nofun⟩
    · rename_i hl
      have htab : tableEnt (ent vm.mem t i) = true := by
        simp only [tableEnt, Bool.and_eq_true, bne_iff_ne, beq_iff_eq]
        exact ⟨h0, not_not.1 hl⟩
      have hnext : next tableEnt vm.mem t i = some (ent vm.mem t i &&& addrMask) := if_pos htab
      have hdown : descend (next tableEnt vm.mem) r (i :: p) = some (ent vm.mem t i &&& addrMask) := by
        rw [descend_cons, ht, Option.bind_some, hnext]
      split at he
      · rename_i hu
        cases he
        obtain ⟨h1, h2⟩ := ensured_widened h hp ht h0 hu.2
        refine ⟨h1, fun x hx => ?_⟩
        cases hx
        refine ⟨(h2 _ hp).trans hdown, fun hup => ?_⟩
        -- the entry is below every table of the path to it
        have hup' : descend (next userTableEnt (setEnt vm.mem t i (ent vm.mem t i ||| pteUser))) r
            p = some t := by
          rw [← hup]
          refine descend_congr (D := {q | q <:+ p}) (fun j q hq => (List.suffix_cons j q).trans hq)
            (fun j q x hq hx => ?_) p (List.suffix_refl p)
          have hjq := walkPaths_suffix (walkPaths_closed i p hp) hq
          have hne : ¬ (x = t ∧ j = i) := by
            rintro ⟨rfl, -⟩
            have hqp := h.once q (walkPaths_closed j q hjq) p (walkPaths_closed i p hp) x (descend_user hx) ht
            have hlen := List.IsSuffix.length_le hq
            rw [List.length_cons, hqp] at hlen
            omega
          have hentry := ent_setEnt_page (m := vm.mem) (descend_page h.root ht)
            (descend_page h.root hx) (walkPaths_index hp) (walkPaths_index hjq)
            (Nat.or_lt_two_pow (ent_lt vm.mem t i) (by decide : pteUser < 2 ^ 64))
          rw [if_neg hne] at hentry
          unfold next
          rw [hentry]
        have hentry : ent (setEnt vm.mem t i (ent vm.mem t i ||| pteUser)) t i = ent vm.mem t i ||| pteUser :=
          ent_setEnt _ _ _ _ (Nat.or_lt_two_pow (ent_lt vm.mem t i) (by decide : pteUser < 2 ^ 64))
        have huser : userTableEnt (ent vm.mem t i ||| pteUser) = true := by
          simp only [userTableEnt, Bool.and_eq_true, bne_iff_ne, beq_iff_eq]
          rw [or_user_and (k := pdePresent) (by decide), or_user_and (k := pdeLarge) (by decide),
            Nat.and_or_distrib_right, hu.2]
          exact ⟨⟨h0, by decide⟩, not_not.1 hl⟩
        rw [descend_cons, hup', Option.bind_some, next, hentry, if_pos huser, or_user_and (by decide)]
      · rename_i hu
        cases he
        refine ⟨.refl h, fun x hx => ?_⟩
        cases hx
        refine ⟨hdown, fun hup => ?_⟩
        rw [descend_cons, hup, Option.bind_some, next, if_pos]
        simp only [userTableEnt, Bool.and_eq_true, bne_iff_ne, beq_iff_eq]
        exact ⟨⟨h0, fun h' => hu ⟨by decide, h'⟩⟩, not_not.1 hl⟩

/-! ## Mapping and unmapping -/

/-- Tables may have been added on the way to `virt`. -/
structure GrownTo (vm vm' : Vm) (r virt : Nat) : Prop where
  tree : TableTree vm'.mem vm'.pmm r
  ready : vm'.hhdmReady = vm.hhdmReady
  mapped : ∀ f, MappedBy vm'.mem r f → MappedBy vm.mem r f
  clear : ∀ f, vm'.pmm.Clear f → vm.pmm.Clear f
  tables : ∀ f, TableOf vm'.mem r f → TableOf vm.mem r f ∨ vm.pmm.Clear f
  user : ∀ D ⊆ walkPaths, UserOn vm.mem r D → UserOn vm'.mem r D
  bytes : ∀ f, Page f → ¬ TableOf vm.mem r f → ¬ vm.pmm.Clear f → ∀ o, o < pageSize →
    vm'.mem (f + o) = vm.mem (f + o)
  slots : UserPath vm.mem r virt →
    ∀ q ∈ walkPaths, q.length = 3 → ∀ j, j < 512 → slot vm'.mem r q j = slot vm.mem r q j

section
variable {virt : Nat} {vm'' : Vm}

theorem Ensured.grownTo (h : Ensured vm vm' r i p) (hs : i :: p <:+ ptPath virt) :
    GrownTo vm vm' r virt :=
  ⟨h.tree, h.ready, h.mapped, h.clear, h.tables, h.user, h.bytes,
    fun hu => h.slots fun t ht hpres => hu i p t hs ht hpres⟩

theorem GrownTo.trans (hk : kernelIndex virt = false) (h : GrownTo vm vm' r virt)
    (h' : GrownTo vm' vm'' r virt) : GrownTo vm vm'' r virt where
  tree := h'.tree
  ready := h'.ready.trans h.ready
  mapped f hf := h.mapped f (h'.mapped f hf)
  clear f hf := h.clear f (h'.clear f hf)
  tables f hf := (h'.tables f hf).elim (h.tables f) fun hc => .inr (h.clear f hc)
  user D hD hu := h'.user D hD (h.user D hD hu)
  bytes f hf h1 h2 o ho :=
    (h'.bytes f hf (fun ht => (h.tables f ht).elim h1 h2) (fun hc => h2 (h.clear f hc)) o ho).trans
      (h.bytes f hf h1 h2 o ho)
  slots hu q hq hl j hj :=
    (h'.slots (h.user _ (fun _ => walkPaths_suffix (ptPath_mem hk)) hu) q hq hl j hj).trans
      (h.slots hu q hq hl j hj)

theorem GrownTo.refl (h : TableTree vm.mem vm.pmm r) : GrownTo vm vm r virt :=
  ⟨h, rfl, fun _ h => h, fun _ h => h, fun _ h => .inl h, fun _ _ h => h, fun _ _ _ _ _ _ => rfl,
    fun _ _ _ _ _ _ => rfl⟩

/-- The three calls of `vmm_ensure_table`, and the leaf. -/
theorem vmmMapUserFlags_grown {cr3 phys flags : Nat} {b : Bool} (h : TableTree vm.mem vm.pmm (cr3OrBoot cr3))
    (he : vmmMapUserFlags vm cr3 virt phys flags = (vm', b)) :
    b = false ∧ GrownTo vm vm' (cr3OrBoot cr3) virt ∨
      b = true ∧ virt % pageSize = 0 ∧ phys % pageSize = 0 ∧ kernelIndex virt = false ∧ vm.hhdmReady = true ∧
        ∃ vm3 pt, GrownTo vm vm3 (cr3OrBoot cr3) virt ∧
          descend (next tableEnt vm3.mem) (cr3OrBoot cr3) (ptPath virt) = some pt ∧
          descend (next userTableEnt vm3.mem) (cr3OrBoot cr3) (ptPath virt) = some pt ∧
          vm' = { vm3 with mem := setEnt vm3.mem pt (ptI virt) (phys ||| flags) } := by
  unfold vmmMapUserFlags at he
  split at he
  · cases he
    exact .inl ⟨rfl, .refl h⟩
  · rename_i hal
    split at he
    · cases he
      exact .inl ⟨rfl, .refl h⟩
    · rename_i hk
      split at he
      · cases he
        exact .inl ⟨rfl, .refl h⟩
      · rename_i hr
        simp only [not_or, not_not, and_fff] at hal
        have hk' : kernelIndex virt = false := Bool.eq_false_iff.2 hk
        have hpath := ptPath_mem hk'
        have hs1 : [pml4I virt] <:+ ptPath virt := ⟨[pdI virt, pdptI virt], rfl⟩
        have hs2 : [pdptI virt, pml4I virt] <:+ ptPath virt := ⟨[pdI virt], rfl⟩
        have hs3 : [pdI virt, pdptI virt, pml4I virt] <:+ ptPath virt := List.suffix_refl _
        rcases hens1 : vmmEnsureTable vm (cr3OrBoot cr3) (pml4I virt) pteUserFlags with ⟨vm1, o1⟩
        obtain ⟨a1, a2⟩ := vmmEnsureTable_ensured h (walkPaths_suffix hpath hs1) rfl hens1
        have g1 := a1.grownTo hs1
        rw [hens1] at he
        cases o1 with
        | none =>
          cases he
          exact .inl ⟨rfl, g1⟩
        | some pdpt =>
          obtain ⟨a3, a4⟩ := a2 pdpt rfl
          rw [orFail_some] at he
          rcases hens2 : vmmEnsureTable vm1 pdpt (pdptI virt) pteUserFlags with ⟨vm2, o2⟩
          obtain ⟨b1, b2⟩ := vmmEnsureTable_ensured g1.tree (walkPaths_suffix hpath hs2) a3 hens2
          have g2 := GrownTo.trans hk' g1 (b1.grownTo hs2)
          rw [hens2] at he
          cases o2 with
          | none =>
            cases he
            exact .inl ⟨rfl, g2⟩
          | some pd =>
            obtain ⟨b3, b4⟩ := b2 pd rfl
            rw [orFail_some] at he
            rcases hens3 : vmmEnsureTable vm2 pd (pdI virt) pteUserFlags with ⟨vm3, o3⟩
            obtain ⟨c1, c2⟩ := vmmEnsureTable_ensured g2.tree (walkPaths_suffix hpath hs3) b3 hens3
            have g3 := GrownTo.trans hk' g2 (c1.grownTo hs3)
            rw [hens3] at he
            cases o3 with
            | none =>
              cases he
              exact .inl ⟨rfl, g3⟩
            | some pt =>
              obtain ⟨c3, c4⟩ := c2 pt rfl
              rw [orFail_some] at he
              cases he
              exact .inr ⟨rfl, hal.1, hal.2, hk', Bool.eq_true_of_not_eq_false hr, vm3, pt, g3, c3,
                c4 (b4 (a4 rfl)), rfl⟩

end

/-! ## The map -/

/-- Mapping and unmapping act on the translation as on a map from pages to frames, and keep the tree. -/
structure ActsAsMap (vm : Vm) (cr3 : Nat) : Prop where
  map : ∀ virt phys, phys < 2 ^ 64 → (vmmMapUser vm cr3 virt phys).2 = true →
    (∀ k, k < pageSize → vmmTranslateUser (vmmMapUser vm cr3 virt phys).1 cr3 (virt + k) = some (phys + k)) ∧
    (UserPath vm.mem (cr3OrBoot cr3) virt → ∀ a, vpn a ≠ vpn virt →
      vmmTranslateUser (vmmMapUser vm cr3 virt phys).1 cr3 a = vmmTranslateUser vm cr3 a)
  /-- The frame to map is in use, and as no table; nor is a frame mapped that is not in use. -/
  mapTree : ∀ virt phys, phys < 2 ^ 64 → ¬ TableOf vm.mem (cr3OrBoot cr3) phys → ¬ vm.pmm.Clear phys →
    (∀ f, MappedBy vm.mem (cr3OrBoot cr3) f → ¬ vm.pmm.Clear f) →
    WalkTree (vmmMapUser vm cr3 virt phys).1.mem (vmmMapUser vm cr3 virt phys).1.pmm (cr3OrBoot cr3)
  unmap : ∀ virt, (vmmUnmapUser vm cr3 virt).2 = true →
    (∀ k, k < pageSize → vmmTranslateUser (vmmUnmapUser vm cr3 virt).1 cr3 (virt + k) = none) ∧
    ∀ a, vpn a ≠ vpn virt → vmmTranslateUser (vmmUnmapUser vm cr3 virt).1 cr3 a = vmmTranslateUser vm cr3 a
  unmapTree : ∀ virt, WalkTree (vmmUnmapUser vm cr3 virt).1.mem (vmmUnmapUser vm cr3 virt).1.pmm
    (cr3OrBoot cr3)
  kernel : ∀ a, pml4I a = 256 ∨ pml4I a = 511 → vmmTranslateUser vm cr3 a = none

section
variable {virt a k : Nat} {cr3 : Nat}

theorem vpn_within (ha : virt % pageSize = 0) (hk : k < pageSize) : vpn (virt + k) = vpn virt := by
  simp only [vpn, pageSize] at *
  omega

theorem path_eq_iff : ptPath a = ptPath virt ∧ ptI a = ptI virt ↔ vpn a = vpn virt := by
  simp only [ptPath, List.cons.injEq, and_true, pml4I_eq, pdptI_eq, pdI_eq, ptI_eq]
  omega

theorem ptI_lt (virt : Nat) : ptI virt < 512 := by
  rw [ptI_eq]
  omega

theorem kernelIndex_congr (h : vpn a = vpn virt) : kernelIndex a = kernelIndex virt := by
  unfold kernelIndex
  rw [pml4I_eq, pml4I_eq, h]

/-- The translation depends on the slots only. -/
theorem translate_congr (hr : vm'.hhdmReady = vm.hhdmReady) (hs : kernelIndex a = false →
    slot vm'.mem (cr3OrBoot cr3) (ptPath a) (ptI a) = slot vm.mem (cr3OrBoot cr3) (ptPath a) (ptI a)) :
    vmmTranslateUser vm' cr3 a = vmmTranslateUser vm cr3 a := by
  rw [vmmTranslateUser_slot, vmmTranslateUser_slot, hr]
  split
  · rfl
  · rename_i hc
    rw [hs (Bool.eq_false_iff.2 fun hk => hc (.inl hk))]

theorem vmmMapUser_map {phys : Nat} (h : TableTree vm.mem vm.pmm (cr3OrBoot cr3)) (h64 : phys < 2 ^ 64)
    (hok : (vmmMapUser vm cr3 virt phys).2 = true) :
    (∀ k, k < pageSize → vmmTranslateUser (vmmMapUser vm cr3 virt phys).1 cr3 (virt + k) = some (phys + k)) ∧
    (UserPath vm.mem (cr3OrBoot cr3) virt → ∀ a, vpn a ≠ vpn virt →
      vmmTranslateUser (vmmMapUser vm cr3 virt phys).1 cr3 a = vmmTranslateUser vm cr3 a) := by
  rcases vmmMapUserFlags_grown h (Prod.mk.eta (p := vmmMapUser vm cr3 virt phys)).symm with
    ⟨hf, -⟩ | ⟨-, hv, hp, hk, hr, vm3, pt, hg, ht, hu, e⟩
  · rw [hf] at hok
    cases hok
  · have hlt : phys ||| pteUserFlags < 2 ^ 64 := Nat.or_lt_two_pow h64 (by decide)
    obtain ⟨-, -, -, hslot⟩ := set_leaf hg.tree (ptPath_mem hk) rfl ht (ptI_lt virt) hlt
    have hleaf : userLeaf (phys ||| pteUserFlags) = true := by
      unfold userLeaf
      rw [or_flags_and hp (by decide), or_flags_and hp (by decide)]
      decide
    rw [e]
    refine ⟨fun k hk' => ?_, fun huser a ha => ?_⟩
    · have hvpn := vpn_within hv hk'
      obtain ⟨e1, e2⟩ := path_eq_iff.2 hvpn
      rw [vmmTranslateUser_slot, if_neg, e1, e2]
      · simp only
        rw [hslot _ (ptPath_mem hk) rfl _ (ptI_lt virt), if_pos ⟨rfl, rfl⟩, hu, Option.bind_some,
          if_pos hleaf, or_flags_addr hp h64 userFlags_lt, Option.map_some, and_fff]
        congr 1
        rw [show (virt + k) % pageSize = k by simp only [pageSize] at *; omega]
        exact or_flags_eq_add hp hk'
      · rw [kernelIndex_congr hvpn, hk, show vm3.hhdmReady = true from hg.ready.trans hr]
        simp
    · refine translate_congr hg.ready fun hka => ?_
      simp only
      rw [hslot _ (ptPath_mem hka) rfl _ (ptI_lt a), if_neg fun hc => ha (path_eq_iff.1 hc)]
      exact hg.slots huser _ (ptPath_mem hka) rfl _ (ptI_lt a)

theorem vmmMapUser_tree {phys : Nat} (h : WalkTree vm.mem vm.pmm (cr3OrBoot cr3)) (h64 : phys < 2 ^ 64)
    (ht : ¬ TableOf vm.mem (cr3OrBoot cr3) phys) (hc : ¬ vm.pmm.Clear phys)
    (hm : ∀ f, MappedBy vm.mem (cr3OrBoot cr3) f → ¬ vm.pmm.Clear f) :
    WalkTree (vmmMapUser vm cr3 virt phys).1.mem (vmmMapUser vm cr3 virt phys).1.pmm (cr3OrBoot cr3) := by
  have hold : ∀ {vm3 : Vm}, GrownTo vm vm3 (cr3OrBoot cr3) virt → ∀ t, TableOf vm3.mem (cr3OrBoot cr3) t →
      ¬ MappedBy vm3.mem (cr3OrBoot cr3) t ∧ t ≠ phys := by
    intro vm3 hg t htab
    rcases hg.tables t htab with h1 | h1
    · exact ⟨fun hmap => h.apart t h1 (hg.mapped t hmap), fun hp => ht (hp ▸ h1)⟩
    · exact ⟨fun hmap => hm t (hg.mapped t hmap) h1, fun hp => hc (hp ▸ h1)⟩
  rcases vmmMapUserFlags_grown h.toTableTree (Prod.mk.eta (p := vmmMapUser vm cr3 virt phys)).symm with
    ⟨-, hg⟩ | ⟨-, hv, hp, hk, hr, vm3, pt, hg, ht3, -, e⟩
  · exact ⟨hg.tree, fun t htab => (hold hg t htab).1⟩
  · have hlt : phys ||| pteUserFlags < 2 ^ 64 := Nat.or_lt_two_pow h64 (by decide)
    obtain ⟨h1, h2, h3, -⟩ := set_leaf hg.tree (ptPath_mem hk) rfl ht3 (ptI_lt virt) hlt
    rw [e]
    refine ⟨h1, fun t htab hmap => ?_⟩
    obtain ⟨k1, k2⟩ := hold hg t ((h2 t).1 htab)
    rcases h3 t hmap with hmap | ⟨-, hmap⟩
    · exact k1 hmap
    · rw [or_flags_addr hp h64 userFlags_lt] at hmap
      exact k2 hmap

theorem vmmUnmapUser_leaf (vm : Vm) (cr3 virt : Nat) : vmmUnmapUser vm cr3 virt = (vm, false) ∨
    ∃ pt, virt % pageSize = 0 ∧ kernelIndex virt = false ∧
      descend (next tableEnt vm.mem) (cr3OrBoot cr3) (ptPath virt) = some pt ∧
      ent vm.mem pt (ptI virt) &&& pdePresent ≠ 0 ∧
      vmmUnmapUser vm cr3 virt =
        (cowFreeLeaf { vm with mem := setEnt vm.mem pt (ptI virt) 0 }
          (ent vm.mem pt (ptI virt) &&& addrMask), true) := by
  unfold vmmUnmapUser
  by_cases ha : virt &&& 0xFFF ≠ 0
  · exact .inl (if_pos ha)
  · rw [if_neg ha]
    by_cases hk : kernelIndex virt = true
    · exact .inl (if_pos hk)
    · rw [if_neg hk]
      by_cases hr : vm.hhdmReady = false
      · exact .inl (if_pos hr)
      · rw [if_neg hr, walkPt_descend]
        rw [not_not, and_fff] at ha
        cases hw : descend (next tableEnt vm.mem) (cr3OrBoot cr3) (ptPath virt) with
        | none => exact .inl rfl
        | some pt =>
          simp only
          by_cases hp : ent vm.mem pt (ptI virt) &&& pdePresent = 0
          · exact .inl (if_pos hp)
          · exact .inr ⟨pt, ha, Bool.eq_false_iff.2 hk, rfl, hp, if_neg hp⟩

theorem vmmUnmapUser_map (h : TableTree vm.mem vm.pmm (cr3OrBoot cr3))
    (hok : (vmmUnmapUser vm cr3 virt).2 = true) :
    (∀ k, k < pageSize → vmmTranslateUser (vmmUnmapUser vm cr3 virt).1 cr3 (virt + k) = none) ∧
    ∀ a, vpn a ≠ vpn virt →
      vmmTranslateUser (vmmUnmapUser vm cr3 virt).1 cr3 a = vmmTranslateUser vm cr3 a := by
  rcases vmmUnmapUser_leaf vm cr3 virt with e | ⟨pt, hv, hk, ht, -, e⟩
  · rw [e] at hok
    cases hok
  · obtain ⟨-, -, -, hslot⟩ := set_leaf h (ptPath_mem hk) rfl ht (ptI_lt virt) (show 0 < 2 ^ 64 by decide)
    rw [e]
    set vm1 : Vm := { vm with mem := setEnt vm.mem pt (ptI virt) 0 }
    obtain ⟨hmem, hready⟩ := cowFreeLeaf_mem vm1 (ent vm.mem pt (ptI virt) &&& addrMask)
    refine ⟨fun k hk' => ?_, fun a ha => translate_congr hready fun hka => ?_⟩
    · obtain ⟨e1, e2⟩ := path_eq_iff.2 (vpn_within hv hk')
      rw [vmmTranslateUser_slot, e1, e2, hmem, show vm1.mem = setEnt vm.mem pt (ptI virt) 0 from rfl,
        hslot _ (ptPath_mem hk) rfl _ (ptI_lt virt), if_pos (show ptPath virt = ptPath virt ∧
          ptI virt = ptI virt from ⟨rfl, rfl⟩)]
      have hnone : ((descend (next userTableEnt vm.mem) (cr3OrBoot cr3) (ptPath virt)).bind fun _ =>
          if userLeaf 0 = true then some (0 &&& addrMask) else none) = none := by
        cases descend (next userTableEnt vm.mem) (cr3OrBoot cr3) (ptPath virt) <;> rfl
      rw [hnone, Option.map_none]
      exact ite_self _
    · rw [hmem, show vm1.mem = setEnt vm.mem pt (ptI virt) 0 from rfl, hslot _ (ptPath_mem hka)
        rfl _ (ptI_lt a), if_neg fun hc => ha (path_eq_iff.1 hc)]

theorem cowFreeLeaf_pmm (vm : Vm) (f : Nat) :
    (cowFreeLeaf vm f).pmm = vm.pmm ∨ (cowFreeLeaf vm f).pmm = pmmFree vm.pmm f := by
  unfold cowFreeLeaf
  rcases cowPut vm.cowTab f with ⟨t, _ | _⟩
  · exact .inl rfl
  · exact .inr rfl

theorem vmmUnmapUser_tree (h : WalkTree vm.mem vm.pmm (cr3OrBoot cr3)) :
    WalkTree (vmmUnmapUser vm cr3 virt).1.mem (vmmUnmapUser vm cr3 virt).1.pmm (cr3OrBoot cr3) := by
  rcases vmmUnmapUser_leaf vm cr3 virt with e | ⟨pt, hv, hk, ht, hpres, e⟩
  · rw [e]
    exact h
  · obtain ⟨h1, h2, h3, -⟩ := set_leaf h.toTableTree (ptPath_mem hk) rfl ht (ptI_lt virt)
      (show 0 < 2 ^ 64 by decide)
    have hmapped : MappedBy vm.mem (cr3OrBoot cr3) (ent vm.mem pt (ptI virt) &&& addrMask) :=
      ⟨_, ptPath_mem hk, rfl, pt, ht, _, ptI_lt virt, hpres, rfl⟩
    rw [e]
    set vm1 : Vm := { vm with mem := setEnt vm.mem pt (ptI virt) 0 } with hvm1
    obtain ⟨hmem, -⟩ := cowFreeLeaf_mem vm1 (ent vm.mem pt (ptI virt) &&& addrMask)
    have hpmm := cowFreeLeaf_pmm vm1 (ent vm.mem pt (ptI virt) &&& addrMask)
    have hf := page_and_addr (ent vm.mem pt (ptI virt))
    generalize ent vm.mem pt (ptI virt) &&& addrMask = f at hmapped hmem hpmm hf
    rw [show (cowFreeLeaf vm1 f, true).1 = cowFreeLeaf vm1 f from rfl, hmem]
    refine ⟨⟨?_, h.root, h1.once, fun t htab hc => ?_⟩, fun t htab hmap => ?_⟩
    · rcases hpmm with hpmm | hpmm <;> rw [hpmm]
      · exact h.ok
      · refine h.ok.of_keeps (Pmm.pmmFree_keeps _ _) fun g hg hr => ?_
        rw [Pmm.pmmFree_used h.ok, if_neg fun hc => ?_]
        · exact h.ok.reserved g hg hr
        · have := hc.2.1
          rw [hc.1] at this
          exact absurd this (by simp only [hvm1] at *; omega)
    · have htab' := (h2 t).1 htab
      rcases hpmm with hpmm | hpmm <;> rw [hpmm] at hc
      · exact h.held t htab' hc
      · obtain ⟨hc1, hc2⟩ := Pmm.mem_clear.1 hc
        rw [Pmm.pmmFree_used h.ok] at hc2
        split at hc2
        · rename_i hfree
          obtain ⟨q, -, hq⟩ := htab'
          have htp := descend_page h.root hq
          have htf : t = f := by
            have := hfree.1
            simp only [Page, pageSize] at *
            omega
          exact h.apart t ((h2 t).1 htab) (htf ▸ hmapped)
        · rw [(Pmm.pmmFree_keeps _ _).frames] at hc1
          exact h.held t htab' (Pmm.mem_clear.2 ⟨hc1, hc2⟩)
    · rcases h3 t hmap with hmap | ⟨hz, -⟩
      · exact h.apart t ((h2 t).1 htab) hmap
      · exact hz (Nat.zero_and _)

/-- **The four-level walk behaves as a map**, up to the pages that a user bit set on the way reveals. -/
theorem walk_is_map (vm : Vm) (cr3 : Nat) (h : WalkTree vm.mem vm.pmm (cr3OrBoot cr3)) :
    ActsAsMap vm cr3 where
  map _ _ h64 hok := vmmMapUser_map h.toTableTree h64 hok
  mapTree _ _ h64 ht hc hm := vmmMapUser_tree h h64 ht hc hm
  unmap _ hok := vmmUnmapUser_map h.toTableTree hok
  unmapTree _ := vmmUnmapUser_tree h
  kernel a ha := by
    rw [vmmTranslateUser_slot, if_pos (.inl ((kernelIndex_iff a).2 ha))]

end

end

/-! ## A page revealed -/

/-- A PML4 whose first entry is not a user entry, with one page below it. -/
def hiddenMem : Mem :=
  setEnt (setEnt (setEnt (setEnt (fun _ => 0) 0x200000 0 0x201003) 0x201000 0 0x202007) 0x202000 0 0x203007)
    0x203000 0 0x204007

def hiddenVm : Vm := ⟨hiddenMem, Pmm.empty, [], true⟩

theorem ent_hiddenMem {x j : Nat} (hx : Page x) (hj : j < 512) : ent hiddenMem x j =
    if x = 0x203000 ∧ j = 0 then 0x204007 else if x = 0x202000 ∧ j = 0 then 0x203007
    else if x = 0x201000 ∧ j = 0 then 0x202007 else if x = 0x200000 ∧ j = 0 then 0x201003 else 0 := by
  unfold hiddenMem
  rw [ent_setEnt_page (by decide) hx (by decide) hj (by decide), ent_setEnt_page (by decide) hx
    (by decide) hj (by decide), ent_setEnt_page (by decide) hx (by decide) hj (by decide),
    ent_setEnt_page (by decide) hx (by decide) hj (by decide)]
  have hz : ent (fun _ => 0) x j = 0 := rd64_zero fun _ _ => rfl
  rw [hz]

/-- Its tables are on one path. -/
theorem hidden_tables {p : List Nat} {t : Nat} (hp : p ∈ walkPaths)
    (h : descend (next tableEnt hiddenMem) 0x200000 p = some t) :
    p = [] ∧ t = 0x200000 ∨ p = [0] ∧ t = 0x201000 ∨ p = [0, 0] ∧ t = 0x202000 ∨ p = [0, 0, 0] ∧
    t = 0x203000 := by
  induction p generalizing t with
  | nil =>
    cases h
    exact .inl ⟨rfl, rfl⟩
  | cons i p ih =>
    obtain ⟨u, hu, hn⟩ := Option.bind_eq_some_iff.1 h
    have hi := walkPaths_index hp
    have hent := ent_hiddenMem (x := u) (descend_page (by decide) hu) hi
    have hzero : ∀ {e : Nat}, e = 0 → (if tableEnt e = true then some (e &&& addrMask) else none) = none := by
      rintro e rfl
      rfl
    unfold next at hn
    rcases ih (walkPaths_closed i p hp) hu with ⟨rfl, rfl⟩ | ⟨rfl, rfl⟩ | ⟨rfl, rfl⟩ | ⟨rfl, rfl⟩
    · by_cases h0 : i = 0
      · subst h0
        have he : ent hiddenMem 0x200000 0 = 0x201003 := hent
        rw [he] at hn
        exact .inr (.inl ⟨rfl, (Option.some.inj hn).symm⟩)
      · have he : ent hiddenMem 0x200000 i = 0 := by simpa [h0] using hent
        rw [hzero he] at hn
        cases hn
    · by_cases h0 : i = 0
      · subst h0
        have he : ent hiddenMem 0x201000 0 = 0x202007 := hent
        rw [he] at hn
        exact .inr (.inr (.inl ⟨rfl, (Option.some.inj hn).symm⟩))
      · have he : ent hiddenMem 0x201000 i = 0 := by simpa [h0] using hent
        rw [hzero he] at hn
        cases hn
    · by_cases h0 : i = 0
      · subst h0
        have he : ent hiddenMem 0x202000 0 = 0x203007 := hent
        rw [he] at hn
        exact .inr (.inr (.inr ⟨rfl, (Option.some.inj hn).symm⟩))
      · have he : ent hiddenMem 0x202000 i = 0 := by simpa [h0] using hent
        rw [hzero he] at hn
        cases hn
    · exact absurd hp.1 (Nat.not_succ_le_self 3)

theorem hidden_tree : WalkTree hiddenVm.mem hiddenVm.pmm 0x200000 := by
  have hclear : ∀ f, ¬ hiddenVm.pmm.Clear f := fun f hf => absurd (Pmm.mem_clear.1 hf).1 (Nat.not_lt_zero _)
  refine ⟨⟨⟨fun f hf => absurd hf (Nat.not_lt_zero f), fun h => absurd h (Nat.lt_irrefl 0), by decide,
    fun h => absurd h (Nat.lt_irrefl 0)⟩, by decide, fun p hp q hq t ht ht' => ?_, fun t _ => hclear t⟩, ?_⟩
  · rcases hidden_tables hp ht with ⟨rfl, rfl⟩ | ⟨rfl, rfl⟩ | ⟨rfl, rfl⟩ | ⟨rfl, rfl⟩ <;>
      rcases hidden_tables hq ht' with ⟨rfl, h⟩ | ⟨rfl, h⟩ | ⟨rfl, h⟩ | ⟨rfl, h⟩ <;>
      first | rfl | exact absurd h (by decide)
  · rintro t ⟨q, hq, ht⟩ ⟨p, hp, hl, pt, hpt, i, hi, h1, h2⟩
    have hpage : pt = 0x203000 := by
      rcases hidden_tables hp hpt with ⟨rfl, -⟩ | ⟨rfl, -⟩ | ⟨rfl, -⟩ | ⟨-, h⟩
      · exact absurd hl (by decide)
      · exact absurd hl (by decide)
      · exact absurd hl (by decide)
      · exact h
    subst hpage
    have hent := ent_hiddenMem (x := 0x203000) (by decide) hi
    by_cases h0 : i = 0
    · subst h0
      have he : ent hiddenMem 0x203000 0 = 0x204007 := hent
      have h3 : t = 0x204000 := h2.symm.trans (congrArg (· &&& addrMask) he)
      rcases hidden_tables hq ht with ⟨-, h⟩ | ⟨-, h⟩ | ⟨-, h⟩ | ⟨-, h⟩ <;>
        exact absurd (h.symm.trans h3) (by decide)
    · have he : ent hiddenMem 0x203000 i = 0 := by simpa [h0] using hent
      change ent hiddenMem 0x203000 i &&& pdePresent ≠ 0 at h1
      rw [he] at h1
      exact h1 rfl

/-- Mapping the page after it makes it translate. -/
theorem widening_reveals : WalkTree hiddenVm.mem hiddenVm.pmm (cr3OrBoot 0x200000) ∧
    (vmmMapUser hiddenVm 0x200000 0x1000 0x205000).2 = true ∧ vpn 0 ≠ vpn 0x1000 ∧
    vmmTranslateUser hiddenVm 0x200000 0 = none ∧
    vmmTranslateUser (vmmMapUser hiddenVm 0x200000 0x1000 0x205000).1 0x200000 0 = some 0x204000 :=
  ⟨hidden_tree, by decide +kernel, by decide, by decide +kernel, by decide +kernel⟩

/-- All of it for the page below. -/
theorem walk_is_map_hidden : ActsAsMap hiddenVm 0x200000 := walk_is_map hiddenVm 0x200000 hidden_tree

end VampireOS
