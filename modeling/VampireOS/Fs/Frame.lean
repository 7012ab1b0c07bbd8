import VampireOS.Fs.Steps

/-!
# What an edit leaves to the others

`Frame v v' d j`: all slots of all directories but slot `j` of the directory at `d` have the name,
kind, first cluster, size and contents they had. The cached entries stay entries of their slots too,
so the cache holds after an edit (`Cache.put`, `Cache.add`, `Cache.drop`).
-/

namespace VampireOS.Fs

open Lib

/-- Slot `k` of the directory has the same name, and the same byte that a scan goes by. -/
def NameKept (v v' : Fs) (d k : Nat) : Prop :=
  v'.slotName d k = v.slotName d k ∧ v'.dirData d (32 * k) = v.dirData d (32 * k)

/-- The names of the other slots of the directory. -/
def NamesKept (v v' : Fs) (d j : Nat) : Prop := ∀ k, k ≠ j → v.Occupied d k → NameKept v v' d k

structure Frame (v v' : Fs) (d j : Nat) : Prop where
  slot : ∀ e k, (e, k) ≠ (d, j) → (Dir v' e ∧ v'.Occupied e k ↔ Dir v e ∧ v.Occupied e k)
  same : ∀ e k, (e, k) ≠ (d, j) → Dir v e → v.Occupied e k → SameSlot83 v v' e k ∧ NameKept v v' e k
  file : ∀ e k, (e, k) ≠ (d, j) → Dir v e → v.Occupied e k → v.slotIsDir e k = false →
    v'.fileBytes (v.slotStart e k) = v.fileBytes (v.slotStart e k)

variable {v v' v'' s s' : Fs} {d e i j j' k m c cl : Nat} {own ext : List Nat} {f f' g : FileEnt}
    {files files' : List FileEnt}

theorem Frame.refl (v : Fs) (d j : Nat) : Frame v v d j where
  slot := fun _ _ _ => Iff.rfl
  same := fun _ _ _ _ _ => ⟨⟨rfl, rfl, rfl⟩, rfl, rfl⟩
  file := fun _ _ _ _ _ _ => rfl

theorem Frame.trans (h : Frame v v' d j) (h' : Frame v' v'' d j) : Frame v v'' d j := by
  constructor
  · intro e k hne
    rw [h'.slot e k hne, h.slot e k hne]
  · intro e k hne he hk
    obtain ⟨he', hk'⟩ := (h.slot e k hne).2 ⟨he, hk⟩
    obtain ⟨h1, h2⟩ := h.same e k hne he hk
    obtain ⟨h3, h4⟩ := h'.same e k hne he' hk'
    exact ⟨⟨h3.start.trans h1.start, h3.size.trans h1.size, h3.isDir.trans h1.isDir⟩,
      h4.1.trans h2.1, h4.2.trans h2.2⟩
  · intro e k hne he hk hf
    obtain ⟨he', hk'⟩ := (h.slot e k hne).2 ⟨he, hk⟩
    obtain ⟨h1, -⟩ := h.same e k hne he hk
    have h2 := h'.file e k hne he' hk' (by rw [h1.isDir]; exact hf)
    rw [h1.start] at h2
    rw [h2, h.file e k hne he hk hf]

theorem Frame.symm (h : Frame v v' d j) : Frame v' v d j := by
  refine ⟨fun e k hne => (h.slot e k hne).symm, fun e k hne he' hk' => ?_, fun e k hne he' hk' hf => ?_⟩
  · obtain ⟨he, hk⟩ := (h.slot e k hne).1 ⟨he', hk'⟩
    obtain ⟨h1, h2⟩ := h.same e k hne he hk
    exact ⟨⟨h1.start.symm, h1.size.symm, h1.isDir.symm⟩, h2.1.symm, h2.2.symm⟩
  · obtain ⟨he, hk⟩ := (h.slot e k hne).1 ⟨he', hk'⟩
    obtain ⟨h1, -⟩ := h.same e k hne he hk
    rw [h1.start]
    exact (h.file e k hne he hk (h1.isDir.symm.trans hf)).symm

/-- An edit of slot `j`, or of none when `j'` is not in use before and after it. -/
theorem Edit.frame (h : Edit v v' d j' own ext) (hw : WellFormed v) (hd : Dir v d)
    (hj : j' = j ∨ ¬ v.Occupied d j' ∧ ¬ v'.Occupied d j') (hn : NamesKept v v' d j) :
    Frame v v' d j := by
  have hother : ∀ e k, (e, k) ≠ (d, j) → v.Occupied e k → (e, k) ≠ (d, j') := by
    rintro e k hne hk heq
    obtain ⟨rfl, rfl⟩ := Prod.mk.inj heq
    rcases hj with rfl | hj
    · exact hne rfl
    · exact hj.1 hk
  have hother' : ∀ e k, (e, k) ≠ (d, j) → v'.Occupied e k → (e, k) ≠ (d, j') := by
    rintro e k hne hk heq
    obtain ⟨rfl, rfl⟩ := Prod.mk.inj heq
    rcases hj with rfl | hj
    · exact hne rfl
    · exact hj.2 hk
  have hlive : ∀ e k, v.Occupied e k → ¬ Edit.Gone v d j' e := by
    rintro e k hk ⟨h1, h2, rfl⟩
    exact h.gone h1 h2 k hk
  constructor
  · intro e k hne
    constructor
    · rintro ⟨he, hk⟩
      rcases h.dir_old hw hd he with ⟨he, hg⟩ | hnew
      · exact ⟨he, (h.slot_same hw hd he hg (hother' e k hne hk)).1.1 hk⟩
      · exact absurd hk ((h.new_empty hnew).1 k)
    · rintro ⟨he, hk⟩
      have hg := hlive e k hk
      exact ⟨h.dir_new hw hd he hg, (h.slot_same hw hd he hg (hother e k hne hk)).1.2 hk⟩
  · intro e k hne he hk
    have hg := hlive e k hk
    refine ⟨(h.slot_same hw hd he hg (hother e k hne hk)).2 hk, ?_⟩
    by_cases hed : e = d
    · subst hed
      exact hn k (fun e => hne (by rw [e])) hk
    · obtain ⟨-, h1, -⟩ := h.elsewhere hw hd he hed hg
      unfold NameKept slotName
      rw [h1]
      exact ⟨rfl, rfl⟩
  · intro e k hne he hk hf
    obtain ⟨-, -, hs, -, hbytes⟩ := h.other hw hd he hk (hother e k hne hk) hf
    rw [hs.start] at hbytes
    exact hbytes

/-! ## Cached entries -/

theorem AtEntry.chain (h : AtEntry v d k f) (hw : WellFormed v) (hd : Dir v d) :
    OwnChain v f.cluster (v.chainAt f.cluster) := by
  rcases h.cluster with hc | ⟨-, -, hs⟩
  · rw [hc]
    exact (hw.slot d k hd h.mem).chain
  · exact hs.chain

/-- No other owner has a cluster of the entry's chain. -/
theorem AtEntry.mine (h : AtEntry v d k f) (hw : WellFormed v) (hd : Dir v d) :
    Mine v d k (v.chainAt f.cluster) := by
  intro o ho hne
  rcases h.cluster with hc | ⟨-, -, hs⟩
  · rw [hc]
    exact hw.apart (.slot d k) o ⟨hd, h.mem⟩ ho hne.symm
  · exact hs.apart o ho

/-- Of the slot's own chain the entry's is all. -/
theorem AtEntry.owned_sub (h : AtEntry v d k f) : v.owned d k ⊆ v.chainAt f.cluster := by
  rcases h.cluster with hc | ⟨-, hnil, -⟩
  · rw [hc]
    exact List.Subset.refl _
  · rw [hnil]
    exact List.nil_subset _

namespace Edit

variable (h : Edit v v' d j own ext) (hw : WellFormed v) (hd : Dir v d)
include h hw hd

/-- A chain that no owner has, apart from the clusters of the edit. -/
theorem keeps_spare (hs : Spare v cl) (ho : own.Disjoint (v.chainAt cl)) :
    Spare v' cl ∧ v'.chainAt cl = v.chainAt cl ∧
    v'.fileBytes cl = v.fileBytes cl := by
  obtain ⟨o, hlive, hh⟩ := hd.home
  have hout : (v.dirClusters d ++ own).Disjoint (v.chainAt cl) := by
    intro c hc hc'
    rcases List.mem_append.1 hc with hc | hc
    · rw [← hw.home_held hlive hh] at hc
      exact hs.apart o hlive hc' hc
    · exact ho hc hc'
  obtain ⟨h1, h2⟩ := h.kept.fileBytes hs.chain hout
  refine ⟨⟨h1.symm ▸ (h.kept.chain hs.chain hout).1, fun o ho' => ?_⟩, h1, h2⟩
  rw [h1]
  intro c hc hc'
  by_cases hj : o = .slot d j
  · subst hj
    obtain ⟨h3, -⟩ := (h.self ho'.2).taken c hc'
    rcases h3 with h3 | h3
    · exact ho h3 hc
    · exact hs.chain.used c hc h3
  · obtain ⟨hl, x, hx, hcase, -⟩ := h.held_other hw hd ho' hj
    rw [hx] at hc'
    rcases List.mem_append.1 hc' with hc' | hc'
    · exact hs.apart o hl hc hc'
    · rcases hcase with rfl | ⟨rfl, -⟩
      · cases hc'
      · exact hs.chain.used c hc (h.free c hc')

/-- The entry of another slot. -/
theorem keeps_entry (hn : NamesKept v v' d j) (hf : AtEntry v d k f) (hk : k ≠ j)
    (ho : own.Disjoint (v.chainAt f.cluster)) :
    AtEntry v' d k f ∧ v'.chainAt f.cluster = v.chainAt f.cluster := by
  obtain ⟨hocc, hsame⟩ := h.slots k hk
  have hs := hsame hf.mem
  have hlive : Owner.Live v' (.slot d k) := ⟨h.dir_self hw hd, hocc.2 hf.mem⟩
  have hne : Owner.slot d k ≠ .slot d j := fun e => hk (Owner.slot.inj e).2
  have hhome : ¬ Home v d (.slot d k) := fun hh => by
    obtain ⟨h1, h2⟩ := hh.slot_inv
    exact hw.not_self hd k hf.mem h1 h2
  obtain ⟨-, x, hx, hcase, -⟩ := h.held_other hw hd hlive hne
  have howned : v'.owned d k = v.owned d k := by
    rcases hcase with rfl | ⟨-, hh⟩
    · rw [List.append_nil] at hx
      exact hx
    · exact absurd hh hhome
  have hmark : skipMark (v'.dirData d (32 * k)) = false := (hn k hk hf.mem).2 ▸ hf.mark
  rcases hf.cluster with hc | ⟨hfile, hnil, hsp⟩
  · have hchain : v'.chainAt f.cluster = v.chainAt f.cluster := by
      have := howned
      unfold owned at this
      rw [hs.start, ← hc] at this
      exact this
    refine ⟨⟨hocc.2 hf.mem, hf.name.trans (hn k hk hf.mem).1.symm, hf.off,
      hf.isDir.trans hs.isDir.symm, .inl (hc.trans hs.start.symm), fun hfile => (hf.len hfile).trans
      hs.size.symm, fun hfile => ?_, hmark⟩, hchain⟩
    obtain ⟨p, hp, hag⟩ := hf.page hfile
    have hout : (v.dirClusters d ++ own).Disjoint (v.chainAt f.cluster) := by
      intro c hc1 hc2
      rcases List.mem_append.1 hc1 with hc1 | hc1
      · rw [hc] at hc2
        exact hw.dir_apart (o := .slot d k) hd ⟨hd, hf.mem⟩ hhome hc1 hc2
      · exact ho hc1 hc2
    rw [← (h.kept.fileBytes (hf.chain hw hd) hout).2] at hag
    exact ⟨p, hp, hag⟩
  · obtain ⟨h1, h2, h3⟩ := h.keeps_spare hw hd hsp ho
    refine ⟨⟨hocc.2 hf.mem, hf.name.trans (hn k hk hf.mem).1.symm, hf.off,
      hf.isDir.trans hs.isDir.symm, .inr ⟨hfile, howned.trans hnil, h1⟩,
      fun hfile => (hf.len hfile).trans hs.size.symm, fun hfile => ?_, hmark⟩, h2⟩
    obtain ⟨p, hp, hag⟩ := hf.page hfile
    rw [← h3] at hag
    exact ⟨p, hp, hag⟩

end Edit

/-! ## The cache after an edit -/

/-- The other entries of the cache: other slots, and other chains. -/
theorem Cache.other (hc : Cache v d files) (hi : files[i]? = some f) (hf : AtEntry v d j f)
    (hne : k ≠ i) (hk : files[k]? = some g) :
    ∃ m, m ≠ j ∧ AtEntry v d m g ∧ (v.chainAt f.cluster).Disjoint (v.chainAt g.cluster) := by
  obtain ⟨m, hm⟩ := hc.entry k g hk
  obtain ⟨h1, h2⟩ := hc.apart i k f g hne.symm hi hk
  refine ⟨m, ?_, hm, h2⟩
  rintro rfl
  exact h1 (hf.off.trans hm.off.symm)

/-- Entries of the old cache that the edit does not touch, in any order. -/
theorem Cache.pick (h : Edit v v' d j own ext) (hw : WellFormed v) (hd : Dir v d)
    (hn : NamesKept v v' d j) (hc : Cache v d files) (pos : Nat → Nat)
    (hinj : ∀ a b, a ≠ b → a < files'.length → b < files'.length → pos a ≠ pos b)
    (hpos : ∀ (a : Nat) g, files'[a]? = some g → files[pos a]? = some g)
    (hout : ∀ (a : Nat) g, files'[a]? = some g → (∃ m, m ≠ j ∧ AtEntry v d m g) ∧
      own.Disjoint (v.chainAt g.cluster)) : Cache v' d files' := by
  constructor
  · intro a g ha
    obtain ⟨⟨m, hm, hg⟩, ho⟩ := hout a g ha
    exact ⟨m, (h.keeps_entry hw hd hn hg hm ho).1⟩
  · intro a b f g hne ha hb
    obtain ⟨⟨m, hm, hf⟩, ho⟩ := hout a f ha
    obtain ⟨⟨m', hm', hg⟩, ho'⟩ := hout b g hb
    obtain ⟨hla, -⟩ := List.getElem?_eq_some_iff.1 ha
    obtain ⟨hlb, -⟩ := List.getElem?_eq_some_iff.1 hb
    obtain ⟨h1, h2⟩ := hc.apart _ _ f g (hinj a b hne hla hlb) (hpos a f ha) (hpos b g hb)
    unfold Apart
    rw [(h.keeps_entry hw hd hn hf hm ho).2, (h.keeps_entry hw hd hn hg hm' ho').2]
    exact ⟨h1, h2⟩

theorem Apart.symm (h : Apart v f g) : Apart v g f := ⟨h.1.symm, List.disjoint_symm h.2⟩

/-- An entry beside the others: of slot `j`, with clusters of the edit or that were free. -/
theorem Edit.apart_new (h : Edit v v' d j own ext) (hw : WellFormed v) (hd : Dir v d)
    (hn : NamesKept v v' d j) (hf : f.dirOff = 32 * j)
    (hnew : ∀ c ∈ v'.chainAt f.cluster, c ∈ own ∨ v.fatEnt c = 0) (hg : AtEntry v d m g)
    (hm : m ≠ j) (ho : own.Disjoint (v.chainAt g.cluster)) :
    Apart v' f g := by
  constructor
  · rw [hf, hg.off]
    omega
  · rw [(h.keeps_entry hw hd hn hg hm ho).2]
    intro c hc hc'
    rcases hnew c hc with h1 | h1
    · exact ho h1 hc'
    · exact (hg.chain hw hd).used c hc' h1

/-- The entry at `i` is another. -/
theorem Cache.put (h : Edit v v' d j own ext) (hw : WellFormed v) (hd : Dir v d)
    (hn : NamesKept v v' d j) (hc : Cache v d files) (hi : files[i]? = some f)
    (hf : AtEntry v d j f) (hown : own = v.chainAt f.cluster) (hf' : AtEntry v' d j f')
    (hnew : ∀ c ∈ v'.chainAt f'.cluster, c ∈ own ∨ v.fatEnt c = 0) :
    Cache v' d (files.set i f') := by
  subst hown
  have hlt : i < files.length := (List.getElem?_eq_some_iff.1 hi).1
  have hget : ∀ (a : Nat) g, (files.set i f')[a]? = some g → (a = i ∧ g = f') ∨
      (a ≠ i ∧ files[a]? = some g) := by
    intro a g ha
    rw [List.getElem?_set] at ha
    split at ha
    · next e =>
      subst e
      exact .inl ⟨rfl, (Option.some.inj ha).symm⟩
    · next e => exact .inr ⟨fun e' => e e'.symm, ha⟩
  constructor
  · intro a g ha
    rcases hget a g ha with ⟨-, rfl⟩ | ⟨hne, ha⟩
    · exact ⟨j, hf'⟩
    · obtain ⟨m, hm, hg, ho⟩ := hc.other hi hf hne ha
      exact ⟨m, (h.keeps_entry hw hd hn hg hm ho).1⟩
  · intro a b x y hne ha hb
    rcases hget a x ha with ⟨ea, ex⟩ | ⟨hai, hxa⟩ <;> rcases hget b y hb with ⟨eb, ey⟩ | ⟨hbi, hyb⟩
    · exact absurd (ea.trans eb.symm) hne
    · obtain ⟨m, hm, hg, ho⟩ := hc.other hi hf hbi hyb
      exact ex ▸ h.apart_new hw hd hn hf'.off hnew hg hm ho
    · obtain ⟨m, hm, hg, ho⟩ := hc.other hi hf hai hxa
      exact ey ▸ (h.apart_new hw hd hn hf'.off hnew hg hm ho).symm
    · obtain ⟨m, hm, hx, ho⟩ := hc.other hi hf hai hxa
      obtain ⟨m', hm', hy, ho'⟩ := hc.other hi hf hbi hyb
      unfold Apart
      rw [(h.keeps_entry hw hd hn hx hm ho).2, (h.keeps_entry hw hd hn hy hm' ho').2]
      exact hc.apart a b x y hne hxa hyb

/-- No entry is at a slot that was not in use. -/
theorem Cache.others (hc : Cache v d files) (hj : ¬ v.Occupied d j) :
    ∀ (a : Nat) g, files[a]? = some g → ∃ m, m ≠ j ∧ AtEntry v d m g := by
  intro a g ha
  obtain ⟨m, hm⟩ := hc.entry a g ha
  exact ⟨m, fun e => hj (e ▸ hm.mem), hm⟩

/-- The cache stays when the slot was not in use. -/
theorem Cache.stay (h : Edit v v' d j [] ext) (hw : WellFormed v) (hd : Dir v d)
    (hn : NamesKept v v' d j) (hc : Cache v d files) (hj : ¬ v.Occupied d j) :
    Cache v' d files :=
  hc.pick h hw hd hn id (fun _ _ hne _ _ => hne) (fun _ _ h => h) fun a g ha =>
    ⟨hc.others hj a g ha, List.disjoint_nil_left _⟩

/-- A new entry. -/
theorem Cache.add (h : Edit v v' d j [] ext) (hw : WellFormed v) (hd : Dir v d)
    (hn : NamesKept v v' d j) (hc : Cache v d files) (hj : ¬ v.Occupied d j)
    (hf' : AtEntry v' d j f') (hnew : ∀ c ∈ v'.chainAt f'.cluster, v.fatEnt c = 0) :
    Cache v' d (files ++ [f']) := by
  have hstay := hc.stay h hw hd hn hj
  have hget : ∀ (a : Nat) g, (files ++ [f'])[a]? = some g → files[a]? = some g ∨
      (a = files.length ∧ g = f') := by
    intro a g ha
    rw [List.getElem?_append] at ha
    split at ha
    · exact .inl ha
    · rw [List.getElem?_singleton] at ha
      split at ha
      · exact .inr ⟨by omega, (Option.some.inj ha).symm⟩
      · cases ha
  have hnew' : ∀ (a : Nat) g, files[a]? = some g → Apart v' f' g := fun a g ha => by
    obtain ⟨m, hm, hg⟩ := hc.others hj a g ha
    exact h.apart_new hw hd hn hf'.off (fun c hc => .inr (hnew c hc)) hg hm (List.disjoint_nil_left _)
  constructor
  · intro a g ha
    rcases hget a g ha with ha | ⟨-, rfl⟩
    · exact hstay.entry a g ha
    · exact ⟨j, hf'⟩
  · intro a b x y hne ha hb
    rcases hget a x ha with hx | ⟨ea, ex⟩ <;> rcases hget b y hb with hy | ⟨eb, ey⟩
    · exact hstay.apart a b x y hne hx hy
    · exact ey ▸ (hnew' a x hx).symm
    · exact ex ▸ hnew' b y hy
    · exact absurd (ea.trans eb.symm) hne

theorem swapRemove_length (files : List FileEnt) (i : Nat) :
    (swapRemove files i).length = files.length - 1 := by
  unfold swapRemove
  cases h : files.getLast? with
  | none => rw [List.getLast?_eq_none_iff.1 h]; rfl
  | some l => rw [List.length_dropLast, List.length_set]

/-- The entry at `i` is gone, and the last one is in its place. -/
theorem Cache.drop (h : Edit v v' d j own ext) (hw : WellFormed v) (hd : Dir v d)
    (hn : NamesKept v v' d j) (hc : Cache v d files) (hi : files[i]? = some f)
    (hf : AtEntry v d j f) (hown : own = v.chainAt f.cluster) :
    Cache v' d (swapRemove files i) := by
  have hlt : i < files.length := (List.getElem?_eq_some_iff.1 hi).1
  have hlast : files.getLast? = files[files.length - 1]? := List.getLast?_eq_getElem?
  obtain ⟨last, hl⟩ : ∃ last, files[files.length - 1]? = some last := ⟨_, List.getElem?_eq_getElem (by omega)⟩
  have hswap : swapRemove files i = (files.set i last).dropLast := by
    unfold swapRemove
    rw [hlast, hl]
  have hlen := swapRemove_length files i
  have hget : ∀ (a : Nat) g, (swapRemove files i)[a]? = some g → a < files.length - 1 ∧
      files[if a = i then files.length - 1 else a]? = some g := by
    intro a g ha
    have hal : a < files.length - 1 := hlen ▸ (List.getElem?_eq_some_iff.1 ha).1
    refine ⟨hal, ?_⟩
    rw [hswap, List.getElem?_dropLast, List.length_set, if_pos hal, List.getElem?_set] at ha
    split at ha
    · next e =>
      rw [if_pos e.symm, hl]
      exact ha
    · next e =>
      rw [if_neg fun e' => e e'.symm]
      exact ha
  refine hc.pick h hw hd hn (fun a => if a = i then files.length - 1 else a) ?_
    (fun a g ha => (hget a g ha).2) ?_
  · intro a b hne ha hb
    rw [hlen] at ha hb
    split <;> split <;> omega
  · intro a g ha
    obtain ⟨hal, hg⟩ := hget a g ha
    obtain ⟨m, hm, hat, ho⟩ := hc.other hi hf (k := if a = i then files.length - 1 else a)
      (by split <;> omega) hg
    exact ⟨⟨m, hm, hat⟩, hown ▸ ho⟩

/-! ## The state after an edit -/

theorem Stands.edit (hs : Stands v s) (hw : WellFormed v) (h : Edit v v' s.cwd j own ext)
    (hg : ¬ Edit.Gone v s.cwd j s.savedCwd) (hv : SameVol v' s') (hr : Reliable s')
    (hc : s'.cwd = s.cwd) (hsv : s'.savedCwd = s.savedCwd) (hb : s'.dirBytes = 32 * v'.dirLen s.cwd)
    (hp : Agree s'.dir (v'.dirData s.cwd) (32 * v'.dirLen s.cwd))
      (hcache : Cache v' s.cwd s'.files) : Stands v' s' := by
  refine ⟨⟨hv, hr, ?_, ?_⟩, ?_, ?_, ?_⟩
  · rw [hc]
    exact h.dir_self hw hs.cwd
  · rw [hsv]
    exact h.dir_new hw hs.cwd hs.saved hg
  · rw [hc]
    exact hb
  · rw [hc]
    exact hp
  · rw [hc]
    exact hcache

/-- Slot `j` is a file of this name, size and contents. -/
structure FileAt (v : Fs) (d j : Nat) (name : Name) (data : Bytes) (len : Nat) : Prop where
  mem : v.Occupied d j
  isDir : v.slotIsDir d j = false
  name : v.slotName d j = name
  size : v.slotSize d j = len
  bytes : Agree (v.fileBytes (v.slotStart d j)) data len

/-- After a step from the volume `v`, slot `j` of the directory at `d` is this file, and the others
are as before. -/
def Wrote (v : Fs) (d j : Nat) (name : Name) (data : Bytes) (len : Nat) (s : Fs) : Prop :=
  ∃ v', WellFormed v' ∧ Stands v' s ∧ Frame v v' d j ∧ FileAt v' d j name data len

/-- After a step from the state `s` that keeps the directory and the number of cached entries. -/
structure Seated (s s' : Fs) : Prop where
  cwd : s'.cwd = s.cwd
  count : s'.files.length = s.files.length

end VampireOS.Fs
