import VampireOS.Fs.Wellformed

/-!
# One slot changes

Every call that writes changes one directory at one slot, and the clusters of that slot. `Edit v v'
d j own ext` says so: the clusters `own` are at its disposal, and the directory may have grown by
`ext`. The volume is well formed again (`Edit.wellFormed`) and what the other slots have is as
before (`Edit.other`).
-/

namespace VampireOS.Fs

open Lib

/-- Every cluster in use outside the list is as it was, with its sector. -/
structure Kept (v v' : Fs) (out : List Nat) : Prop where
  geo : v'.geo = v.geo
  fat : ∀ c, 2 ≤ c → c ≤ v.geo.clusters + 1 → v.fatEnt c ≠ 0 → c ∉ out → v'.fatEnt c = v.fatEnt c
  disk : ∀ c, 2 ≤ c → c ≤ v.geo.clusters + 1 → v.fatEnt c ≠ 0 → c ∉ out →
    v'.disk (v.geo.dataLba c) = v.disk (v.geo.dataLba c)

/-- The head of the root's extension, and its first sector. -/
structure KeptRoot (v v' : Fs) : Prop where
  head : v'.fatEnt 1 = v.fatEnt 1
  first : v'.disk v.geo.firstRoot = v.disk v.geo.firstRoot

/-- All that is in use outside the list is as it was. -/
structure Outside (v u : Fs) (own : List Nat) : Prop extends Kept v u own, KeptRoot v u

/-- No other owner has one of these clusters. -/
def Mine (v : Fs) (d j : Nat) (own : List Nat) : Prop :=
  ∀ o : Owner, o.Live v → o ≠ .slot d j → own.Disjoint (v.held o)

/-- Start, size and kind of a slot are as before. -/
structure SameSlot83 (v v' : Fs) (d k : Nat) : Prop where
  start : v'.slotStart d k = v.slotStart d k
  size : v'.slotSize d k = v.slotSize d k
  isDir : v'.slotIsDir d k = v.slotIsDir d k

/-- What slot `j` has afterwards: clusters of `own`, or free ones. A directory there is empty. -/
structure NewSlot (v v' : Fs) (d j : Nat) (own ext : List Nat) : Prop where
  ok : SlotOk v' d j
  taken : ∀ c ∈ v'.owned d j, (c ∈ own ∨ v.fatEnt c = 0) ∧ c ∉ ext
  empty : v'.slotIsDir d j = true → (∀ k, ¬ v'.Occupied (v'.slotStart d j) k) ∧
    Tidy (v'.dirData (v'.slotStart d j)) (v'.dirLen (v'.slotStart d j))

structure Edit (v v' : Fs) (d j : Nat) (own ext : List Nat) : Prop where
  kept : Kept v v' (v.dirClusters d ++ own)
  root : d ≠ 0 → KeptRoot v v'
  dir : DirChain v' d (v.dirClusters d ++ ext)
  free : ∀ c ∈ ext, v.fatEnt c = 0
  mine : Mine v d j own
  slots : ∀ k, k ≠ j → (v'.Occupied d k ↔ v.Occupied d k) ∧ (v.Occupied d k → SameSlot83 v v' d k)
  dots : 2 ≤ d → ∀ b < 64, v'.dirData d b = v.dirData d b
  tidy : Tidy (v'.dirData d) (v'.dirLen d)
  self : v'.Occupied d j → NewSlot v v' d j own ext
  gone : v.Occupied d j → v.slotIsDir d j = true → ∀ k, ¬ v.Occupied (v.slotStart d j) k

variable {v v' : Fs} {d e j k c : Nat} {l out own ext : List Nat} {o : Owner}

/-! ## What is kept -/

/-- A chain apart from the list. -/
theorem Kept.chain (h : Kept v v' out) (hc : OwnChain v c l) (hd : out.Disjoint l) :
    OwnChain v' c l ∧ ∀ x ∈ l, v'.disk (v.geo.dataLba x) = v.disk (v.geo.dataLba x) :=
  ⟨hc.congr h.geo.symm fun a ha => h.fat a (hc.two_le a ha) (hc.inside a ha) (hc.used a ha)
    fun hm => hd hm ha,
      fun a ha => h.disk a (hc.two_le a ha) (hc.inside a ha) (hc.used a ha) fun hm => hd hm ha⟩

/-- The bytes of a chain apart from the list. -/
theorem Kept.fileBytes (h : Kept v v' out) (hc : OwnChain v c (v.chainAt c))
    (hd : out.Disjoint (v.chainAt c)) :
    v'.chainAt c = v.chainAt c ∧ v'.fileBytes c = v.fileBytes c := by
  obtain ⟨h1, h2⟩ := h.chain hc hd
  have he : v'.chainAt c = v.chainAt c := h1.chain_eq (v.chainAt_length c)
  refine ⟨he, ?_⟩
  unfold Fs.fileBytes
  change sectorBytes v'.disk ((v'.chainAt c).map v'.geo.dataLba) = sectorBytes v.disk
    ((v.chainAt c).map v.geo.dataLba)
  rw [he, h.geo]
  apply sectorBytes_congr
  intro lba hl
  obtain ⟨x, hx, rfl⟩ := List.mem_map.1 hl
  exact h2 x hx

/-- A directory apart from the list. -/
theorem Kept.dir (h : Kept v v' out) (hr : d < 2 → KeptRoot v v') (hchain : DirChain v d l)
    (hd : out.Disjoint l) :
    DirChain v' d l ∧ v'.dirData d = v.dirData d ∧ v'.dirLen d = v.dirLen d := by
  obtain ⟨h1, h2⟩ := h.chain hchain.chain hd
  have hhead : v'.dirHead d = v.dirHead d := by
    unfold dirHead
    split
    · next hlt => exact (hr hlt).head
    · rfl
  have hnew : DirChain v' d l := ⟨by rw [hhead]; exact h1, hchain.length, hchain.ne⟩
  refine ⟨hnew, ?_, ?_⟩
  · rw [hnew.data, hchain.data, h.geo]
    apply sectorBytes_congr
    intro lba hl
    rcases List.mem_append.1 hl with hl | hl
    · split at hl
      · next hlt =>
        rw [List.mem_singleton.1 hl]
        exact (hr hlt).first
      · cases hl
    · obtain ⟨x, hx, rfl⟩ := List.mem_map.1 hl
      exact h2 x hx
  · rw [hnew.len, hchain.len, h.geo]

namespace Edit

variable (h : Edit v v' d j own ext) (hw : WellFormed v) (hd : Dir v d)

/-- The directory of slot `j`, when it is one. -/
def Gone (v : Fs) (d j e : Nat) : Prop := v.Occupied d j ∧ v.slotIsDir d j = true ∧ v.slotStart d j = e

include hw hd in
theorem not_gone : ¬ Gone v d j d := fun ⟨h1, h2, h3⟩ => hw.not_self hd j h1 h2 h3

include hw hd in
/-- Only slot `j` can lead to the directory that is gone. -/
theorem gone_home (he : Dir v e) (hk : v.Occupied e k) (hdir : v.slotIsDir e k = true)
    (hg : Gone v d j (v.slotStart e k)) :
    (e, k) = (d, j) := by
  obtain ⟨h1, h2, h3⟩ := hg
  have hhome : Home v (v.slotStart e k) (.slot d j) := h3 ▸ Home.slot h2
  obtain ⟨rfl, rfl⟩ := Owner.slot.inj (hw.home_unique (o := .slot e k) ⟨he, hk⟩ ⟨hd, h1⟩ (.slot hdir) hhome)
  rfl

include h hw hd in
/-- An owner apart from the directory and from slot `j`. -/
theorem out_apart (ho : o.Live v) (hne : o ≠ .slot d j) (hh : ¬ Home v d o) :
    (v.dirClusters d ++ own).Disjoint (v.held o) := by
  intro c hc hc'
  rcases List.mem_append.1 hc with hc | hc
  · exact hw.dir_apart hd ho hh hc hc'
  · exact h.mine o ho hne hc hc'

include h hw hd in
/-- Another directory, unless it is gone. -/
theorem elsewhere (he : Dir v e) (hne : e ≠ d) (hg : ¬ Gone v d j e) :
    DirChain v' e (v.dirClusters e) ∧ v'.dirData e = v.dirData e ∧ v'.dirLen e = v.dirLen e := by
  obtain ⟨o, ho, hh⟩ := he.home
  have hslot : o ≠ .slot d j := by
    rintro rfl
    cases hh with
    | slot hdir => exact hg ⟨ho.2, hdir, rfl⟩
  have hhome : ¬ Home v d o := by
    intro hh'
    cases hh with
    | root => cases hh'; exact hne rfl
    | slot hdir => cases hh'; exact hne rfl
  apply h.kept.dir _ (hw.dirChain he)
  · rw [← hw.home_held ho hh]
    exact h.out_apart hw hd ho hslot hhome
  · intro hlt
    apply h.root
    rintro rfl
    cases hh with
    | root => exact hne rfl
    | slot hdir =>
      have := hw.sub_cluster ho.1 ho.2 hdir
      omega

include h hw hd in
/-- Every slot but `j` is as before. -/
theorem slot_same (he : Dir v e) (hg : ¬ Gone v d j e) (hne : (e, k) ≠ (d, j)) :
    (v'.Occupied e k ↔ v.Occupied e k) ∧ (v.Occupied e k → SameSlot83 v v' e k) := by
  by_cases hed : e = d
  · subst hed
    exact h.slots k fun e => hne (by rw [e])
  · obtain ⟨-, h1, h2⟩ := h.elsewhere hw hd he hed hg
    obtain ⟨h3, h4, h5, h6⟩ := slots_congr h1 h2 k
    exact ⟨h3, fun _ => ⟨h4, h5, h6⟩⟩

/-- The directory of slot `j` afterwards, when it is one. -/
def New (v' : Fs) (d j e : Nat) : Prop := v'.Occupied d j ∧ v'.slotIsDir d j = true ∧ v'.slotStart d j = e

include h in
theorem new_empty (he : New v' d j e) : (∀ k, ¬ v'.Occupied e k) ∧ Tidy (v'.dirData e) (v'.dirLen e) := by
  obtain ⟨h1, h2, rfl⟩ := he
  exact (h.self h1).empty h2

include h hw hd in
theorem dir_old (he : Dir v' e) : (Dir v e ∧ ¬ Gone v d j e) ∨ New v' d j e := by
  induction he with
  | root =>
    refine .inl ⟨.root, fun ⟨h1, h2, h3⟩ => ?_⟩
    have := hw.sub_cluster hd h1 h2
    omega
  | @sub p k hp hk hdir ih =>
    rcases ih with ⟨hp, hg⟩ | hnew
    · by_cases hpk : (p, k) = (d, j)
      · obtain ⟨rfl, rfl⟩ := Prod.mk.inj hpk
        exact .inr ⟨hk, hdir, rfl⟩
      · obtain ⟨h1, h2⟩ := h.slot_same hw hd hp hg hpk
        have hs := h2 (h1.1 hk)
        rw [hs.isDir] at hdir
        rw [hs.start]
        exact .inl ⟨.sub hp (h1.1 hk) hdir, fun hg' => hpk (gone_home hw hd hp (h1.1 hk) hdir hg')⟩
    · exact absurd hk ((h.new_empty hnew).1 k)

include h hw hd in
theorem dir_new (he : Dir v e) (hg : ¬ Gone v d j e) : Dir v' e := by
  induction he with
  | root => exact .root
  | @sub p k hp hk hdir ih =>
    have hp' : ¬ Gone v d j p := by
      rintro ⟨h1, h2, rfl⟩
      exact h.gone h1 h2 k hk
    have hpk : (p, k) ≠ (d, j) := by
      intro hpk
      obtain ⟨rfl, rfl⟩ := Prod.mk.inj hpk
      exact hg ⟨hk, hdir, rfl⟩
    obtain ⟨h1, h2⟩ := h.slot_same hw hd hp hp' hpk
    have hs := h2 hk
    rw [← hs.start]
    exact .sub (ih hp') (h1.2 hk) (hs.isDir ▸ hdir)

include h hw hd in
/-- The directory itself stays. -/
theorem dir_self : Dir v' d := h.dir_new hw hd hd (not_gone hw hd)

include h hw hd in
/-- Another owner was one before, with the same clusters, or is the home of the directory and has
`ext` behind them. -/
theorem held_other (ho : o.Live v') (hne : o ≠ .slot d j) :
    o.Live v ∧ ∃ x, v'.held o = v.held o ++ x ∧ (x = [] ∨ x = ext ∧ Home v d o) ∧
    (∃ cl, OwnChain v' cl (v'.held o)) ∧ ∀ e k, o = .slot e k → SameSlot83 v v' e k ∧
    OwnChain v' (v'.slotStart e k) (v'.held o) := by
  cases o with
  | root =>
    refine ⟨trivial, ?_⟩
    by_cases hd0 : d = 0
    · subst hd0
      exact ⟨ext, h.dir.eq, .inr ⟨rfl, .root⟩,
        ⟨_, by rw [show v'.held .root = _ from h.dir.eq]; exact h.dir.chain⟩, nofun⟩
    · have hg : ¬ Gone v d j 0 := fun ⟨h1, h2, h3⟩ => by
        have := hw.sub_cluster hd h1 h2
        omega
      obtain ⟨h1, -⟩ := h.elsewhere hw hd .root (fun e => hd0 e.symm) hg
      have heq : v'.held .root = v.held .root := h1.eq
      exact ⟨[], by rw [heq, List.append_nil], .inl rfl, ⟨_, by rw [heq]; exact h1.chain⟩, nofun⟩
  | slot e k =>
    have hpk : (e, k) ≠ (d, j) := fun hx => hne (by rw [(Prod.mk.inj hx).1, (Prod.mk.inj hx).2])
    obtain ⟨he, hk⟩ := ho
    rcases h.dir_old hw hd he with ⟨he, hg⟩ | hnew
    · obtain ⟨h1, h2⟩ := h.slot_same hw hd he hg hpk
      have hs := h2 (h1.1 hk)
      have hlive : Owner.Live v (.slot e k) := ⟨he, h1.1 hk⟩
      have hchain := (hw.slot e k he (h1.1 hk)).chain
      refine ⟨hlive, ?_⟩
      suffices ∃ x, OwnChain v' (v'.slotStart e k) (v.owned e k ++ x) ∧ (v.owned e k ++ x).length ≤ chainMax ∧
          (x = [] ∨ x = ext ∧ Home v d (.slot e k)) by
        obtain ⟨x, hx, hlen, hcase⟩ := this
        have heq : v'.held (.slot e k) = v.held (.slot e k) ++ x := chainAt_eq hx hlen
        exact ⟨x, heq, hcase, ⟨_, by rw [heq]; exact hx⟩, fun a b hab => by
          obtain ⟨rfl, rfl⟩ := Owner.slot.inj hab
          exact ⟨hs, by rw [heq]; exact hx⟩⟩
      rw [hs.start]
      by_cases hhome : Home v d (.slot e k)
      · have hheld := hw.home_held hlive hhome
        have hdir := h.dir
        rw [← hheld] at hdir
        have hd2 : 2 ≤ d := by
          cases hhome with
          | slot hx => exact hw.sub_cluster he (h1.1 hk) hx
        have hstart : v.slotStart e k = d := by
          cases hhome with
          | slot hx => rfl
        have hc := hdir.chain
        have hlen := hdir.length
        unfold dirHead at hc
        rw [if_neg (by omega)] at hc hlen
        rw [hstart]
        exact ⟨ext, hc, hlen, .inr ⟨rfl, hhome⟩⟩
      · obtain ⟨h3, -⟩ := h.kept.chain hchain (h.out_apart hw hd hlive hne hhome)
        refine ⟨[], ?_, ?_, .inl rfl⟩
        · rw [List.append_nil]
          exact h3
        · rw [List.append_nil]
          exact v.chainAt_length _
    · exact absurd hk ((h.new_empty hnew).1 k)

include h hw hd in
/-- The clusters of slot `j` are apart from the others. -/
theorem new_apart (ho : o.Live v') (hne : o ≠ .slot d j) (hj : v'.Occupied d j) :
    (v'.owned d j).Disjoint (v'.held o) := by
  obtain ⟨hlive, x, hx, hcase, -⟩ := h.held_other hw hd ho hne
  intro c hc hc'
  obtain ⟨h1, h2⟩ := (h.self hj).taken c hc
  rw [hx] at hc'
  rcases List.mem_append.1 hc' with hc' | hc'
  · rcases h1 with h1 | h1
    · exact h.mine o hlive hne h1 hc'
    · exact hw.held_used hlive c hc' h1
  · rcases hcase with rfl | ⟨rfl, -⟩
    · cases hc'
    · exact h2 hc'

include h hw hd in
theorem apart {o' : Owner} (ho : o.Live v') (ho' : o'.Live v') (hne : o ≠ o') :
    (v'.held o).Disjoint (v'.held o') := by
  by_cases hs : o = .slot d j
  · subst hs
    exact h.new_apart hw hd ho' hne.symm ho.2
  · by_cases hs' : o' = .slot d j
    · subst hs'
      exact List.disjoint_symm (h.new_apart hw hd ho hs ho'.2)
    · obtain ⟨h1, x, hx, hcase, -⟩ := h.held_other hw hd ho hs
      obtain ⟨h1', x', hx', hcase', -⟩ := h.held_other hw hd ho' hs'
      have hfree : ∀ c ∈ ext, c ∉ v.held o ∧ c ∉ v.held o' := fun c hc =>
        ⟨fun hm => hw.held_used h1 c hm (h.free c hc), fun hm => hw.held_used h1' c hm (h.free c hc)⟩
      rw [hx, hx']
      intro c hc hc'
      rcases List.mem_append.1 hc with hc | hc <;> rcases List.mem_append.1 hc' with hc' | hc'
      · exact hw.apart o o' h1 h1' hne hc hc'
      · rcases hcase' with rfl | ⟨rfl, -⟩
        · cases hc'
        · exact (hfree c hc').1 hc
      · rcases hcase with rfl | ⟨rfl, -⟩
        · cases hc
        · exact (hfree c hc).2 hc'
      · rcases hcase with rfl | ⟨rfl, hh⟩
        · cases hc
        · rcases hcase' with rfl | ⟨-, hh'⟩
          · cases hc'
          · exact hne (hw.home_unique h1 h1' hh hh')

include h hw hd in
/-- The dots of a subdirectory stay. -/
theorem keeps_dots (he : Dir v e) (hk : v.Occupied e k) (hdir : v.slotIsDir e k = true)
    (hne : (e, k) ≠ (d, j)) :
    HasDots (v'.disk (v'.geo.dataLba (v.slotStart e k))) e := by
  obtain ⟨hcl, hdots⟩ := (hw.slot e k he hk).dir hdir
  have h2 := hw.sub_cluster he hk hdir
  have hsub : Dir v (v.slotStart e k) := .sub he hk hdir
  have hsame : ∀ b < 64, v'.disk (v'.geo.dataLba (v.slotStart e k)) b =
      v.disk (v.geo.dataLba (v.slotStart e k)) b := by
    intro b hb
    have hb' : b < secSize := Nat.lt_trans hb (by decide)
    rw [← (hw.dirChain hsub).first h2 hb']
    by_cases hed : v.slotStart e k = d
    · rw [hed] at h2 ⊢
      rw [← h.dir.first h2 hb']
      exact h.dots h2 b hb
    · obtain ⟨h3, h4, -⟩ := h.elsewhere hw hd hsub hed fun hg => hne (gone_home hw hd he hk hdir hg)
      rw [← h3.first h2 hb', h4]
  constructor
  · rw [hsame 0 (by decide)]
    exact hdots.dot
  · rw [hsame 32 (by decide)]
    exact hdots.dots
  · rw [hsame 43 (by decide)]
    exact hdots.attr
  · unfold rdU16
    rw [hsame 58 (by decide), hsame 59 (by decide)]
    exact hdots.up

include h hw hd in
/-- **The volume is well formed again.** -/
theorem wellFormed : WellFormed v' := by
  have hroot : Owner.root ≠ .slot d j := nofun
  constructor
  · exact h.kept.geo ▸ hw.geo
  · by_cases hd0 : d = 0
    · subst hd0
      have := h.dir.chain
      rwa [← h.dir.eq] at this
    · have hg : ¬ Gone v d j 0 := fun ⟨h1, h2, h3⟩ => by
        have := hw.sub_cluster hd h1 h2
        omega
      obtain ⟨h1, -⟩ := h.elsewhere hw hd .root (fun e => hd0 e.symm) hg
      have := h1.chain
      rwa [← h1.eq] at this
  · intro e k he hk
    by_cases hpk : (e, k) = (d, j)
    · obtain ⟨rfl, rfl⟩ := Prod.mk.inj hpk
      exact (h.self hk).ok
    · have hne : Owner.slot e k ≠ .slot d j :=
        fun hx => hpk (by rw [(Owner.slot.inj hx).1, (Owner.slot.inj hx).2])
      obtain ⟨hlive, x, hx, -, -, hslot⟩ := h.held_other hw hd (o := .slot e k) ⟨he, hk⟩ hne
      obtain ⟨hs, hchain⟩ := hslot e k rfl
      have hok := hw.slot e k hlive.1 hlive.2
      refine ⟨hchain, fun hf => ?_, fun hdir => ?_⟩
      · rw [hs.isDir] at hf
        obtain ⟨h1, h2⟩ := hok.file hf
        have hlen : (v.owned e k).length ≤ (v'.owned e k).length := by
          rw [show v'.owned e k = v.owned e k ++ x from hx, List.length_append]
          exact Nat.le_add_right _ _
        rw [hs.size]
        exact ⟨h1, Nat.le_trans h2 (Nat.mul_le_mul_left _ hlen)⟩
      · rw [hs.isDir] at hdir
        rw [hs.start]
        exact ⟨(hok.dir hdir).1, h.keeps_dots hw hd hlive.1 hlive.2 hdir hpk⟩
  · exact fun o o' ho ho' hne => h.apart hw hd ho ho' hne
  · intro e he
    rcases h.dir_old hw hd he with ⟨he, hg⟩ | hnew
    · by_cases hed : e = d
      · rw [hed]
        exact h.tidy
      · obtain ⟨-, h1, h2⟩ := h.elsewhere hw hd he hed hg
        rw [h1, h2]
        exact hw.tidy e he
    · exact (h.new_empty hnew).2

include h hw hd in
/-- The contents of any other file. -/
theorem other (he : Dir v e) (hk : v.Occupied e k) (hne : (e, k) ≠ (d, j)) (hfile : v.slotIsDir e k = false) :
    Dir v' e ∧ v'.Occupied e k ∧ SameSlot83 v v' e k ∧ v'.owned e k = v.owned e k ∧
      v'.fileBytes (v'.slotStart e k) = v.fileBytes (v.slotStart e k) := by
  have hg : ¬ Gone v d j e := by
    rintro ⟨h1, h2, rfl⟩
    exact h.gone h1 h2 k hk
  obtain ⟨h1, h2⟩ := h.slot_same hw hd he hg hne
  have hs := h2 hk
  have hhome : ¬ Home v d (.slot e k) := by
    intro hx
    cases hx with
    | slot hdir =>
      rw [hfile] at hdir
      cases hdir
  have hne' : Owner.slot e k ≠ .slot d j :=
    fun hx => hne (by rw [(Owner.slot.inj hx).1, (Owner.slot.inj hx).2])
  obtain ⟨h3, h4⟩ := h.kept.fileBytes (hw.slot e k he hk).chain
    (h.out_apart hw hd (o := .slot e k) ⟨he, hk⟩ hne' hhome)
  refine ⟨h.dir_new hw hd he hg, h1.2 hk, hs, ?_, ?_⟩
  · unfold owned
    rw [hs.start, h3]
  · rw [hs.start, h4]

end Edit

end VampireOS.Fs
