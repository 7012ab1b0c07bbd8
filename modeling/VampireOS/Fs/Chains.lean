import VampireOS.Lib.Links
import VampireOS.Fs.Fat

/-!
# Chains of clusters (kernel/fs.c:511, 897-1000, 1207)

A chain is a list linked by the FAT. `fat_resize` that succeeds keeps the front of the old chain and
adds clusters that were free; `fat_free_chain` clears what it visits. No other entry of the FAT
changes.
-/

namespace VampireOS

open Lib

/-- The layout of a volume with two FATs that have an entry for every cluster. -/
structure Geo.Sane (g : Geo) : Prop where
  clusters : g.clusters ≤ fat12Max
  fits : g.clusters + 1 + (g.clusters + 1) / 2 + 1 < Fs.fatBytes g
  separate : Separate g (g.firstData + g.clusters)

/-- The FAT in memory has the entry of `c`. -/
def Geo.Entry (g : Geo) (c : Nat) : Prop := c + c / 2 + 1 < Fs.fatBytes g

theorem Geo.Sane.entry {g : Geo} {c : Nat} (hg : g.Sane) (hc : c ≤ g.clusters + 1) : g.Entry c := by
  have := hg.fits
  unfold Geo.Entry
  omega

namespace Fs

theorem chain_follow (g : Geo) (fat : Bytes) (n : Nat) :
    ∀ cl, chain g fat n cl = follow isCluster (fat12Ent g fat) n cl := by
  induction n with
  | zero => exact fun _ => rfl
  | succ n ih =>
    intro cl
    unfold chain follow
    rw [ih]

/-- The chain from `cl` is `l`: it ends, and its clusters are on the volume and in use. -/
structure OwnChain (v : Fs) (cl : Nat) (l : List Nat) : Prop where
  links : Links isCluster v.fatEnt cl l
  inside : ∀ c ∈ l, c ≤ v.geo.clusters + 1
  used : ∀ c ∈ l, v.fatEnt c ≠ 0

variable {s s' v : Fs} {cl c : Nat} {l : List Nat}

theorem isCluster_iff : isCluster c = true ↔ 2 ≤ c ∧ c < fat12Eof := by
  unfold isCluster
  rw [Bool.and_eq_true, decide_eq_true_eq, decide_eq_true_eq]

/-- The loops stop after `chainMax` clusters. -/
theorem chain_take (h : Links isCluster v.fatEnt cl l) : chain v.geo v.fat chainMax cl = l.take chainMax := by
  rw [chain_follow]
  exact h.follow_eq _

theorem OwnChain.chain_eq (h : OwnChain v cl l) (hl : l.length ≤ chainMax) :
    chain v.geo v.fat chainMax cl = l := by
  rw [chain_take h.links, List.take_of_length_le hl]

theorem OwnChain.two_le (h : OwnChain v cl l) : ∀ a ∈ l, 2 ≤ a :=
  fun a ha => (isCluster_iff.1 (h.links.live_of_mem a ha)).1

theorem OwnChain.nil (h : isCluster cl = false) : OwnChain v cl [] := ⟨.stop h, nofun, nofun⟩

theorem OwnChain.unique {l' : List Nat} (h : OwnChain v cl l) (h' : OwnChain v cl l') : l = l' :=
  h.links.unique h'.links

/-- The same geometry, and the same entries for the clusters of the chain. -/
theorem OwnChain.congr (h : OwnChain v cl l) (hg : v.geo = s.geo)
    (he : ∀ a ∈ l, s.fatEnt a = v.fatEnt a) : OwnChain s cl l :=
  ⟨h.links.congr he, fun a ha => hg ▸ h.inside a ha, fun a ha => by rw [he a ha]; exact h.used a ha⟩

/-- A free cluster is in no chain. -/
theorem OwnChain.not_mem (h : OwnChain v cl l) (hc : v.fatEnt c = 0) : c ∉ l := fun hm => h.used c hm hc

/-! ## Setting entries -/

theorem exec_fatSet (cl val : Nat) (s : Fs) :
    exec (fatSet cl val) s = (some (), { s with fat := fat12Set s.geo s.fat cl val }) := rfl

theorem fatEnt_set (hin : s.geo.Entry cl) (val : Nat) :
    ({ s with fat := fat12Set s.geo s.fat cl val } : Fs).fatEnt = Function.update s.fatEnt cl
    (val % 4096) := by
  funext c
  change fat12Ent s.geo (fat12Set s.geo s.fat cl val) c = _
  rw [fat12Ent_set]
  by_cases h : c = cl
  · rw [if_pos ⟨h, hin⟩, h, Function.update_self]
  · rw [if_neg fun hx => h hx.1, Function.update_of_ne h]
    rfl

/-- An entry that the FAT does not have reads as the end of a chain, and is not written. -/
theorem fatEnt_end (cl : Nat) (s : Fs) :
    ({ s with fat := fat12Set s.geo s.fat cl fat12Eof } : Fs).fatEnt = Function.update s.fatEnt cl
    fat12Eof := by
  by_cases h : s.geo.Entry cl
  · exact fatEnt_set h fat12Eof
  · have hout : fatBytes s.geo ≤ cl + cl / 2 + 1 := Nat.le_of_not_lt h
    rw [fat12Set_outside hout]
    exact (Function.update_eq_self_iff.2 (fat12Ent_outside hout).symm).symm

theorem entry_of_ne (h : s.fatEnt c ≠ fat12Eof) : s.geo.Entry c := by
  by_contra hout
  exact h (fat12Ent_outside (Nat.le_of_not_lt hout))

theorem entry_of_free (h : s.fatEnt c = 0) : s.geo.Entry c := entry_of_ne (by rw [h]; decide)

/-- Only the entry of the last cluster of a chain can be missing. -/
theorem OwnChain.entry (h : OwnChain v cl l) (hlast : ∀ c ∈ l.getLast?, v.geo.Entry c) :
    ∀ c ∈ l, v.geo.Entry c := by
  have hl := h.links
  clear h
  induction l generalizing cl with
  | nil => nofun
  | cons a l ih =>
    obtain ⟨rfl, -, hrest⟩ := Links.cons_iff.1 hl
    intro c hc
    cases l with
    | nil => exact hlast c (by simpa [eq_comm] using hc)
    | cons b l =>
      rcases List.mem_cons.1 hc with rfl | hc
      · obtain ⟨rfl, hlive, -⟩ := Links.cons_iff.1 hrest
        apply entry_of_ne
        intro heof
        rw [heof] at hlive
        exact absurd hlive (by decide)
      · exact ih (by simpa using hlast) hrest c hc

/-- Clearing entries: they are free, the others as before. -/
theorem fatClear_spec (cls : List Nat) : ∀ {s : Fs}, (∀ c ∈ cls, s.geo.Entry c) →
    ∃ s', exec (fatClear cls) s = (some (), s') ∧ FatOnly s s' ∧ (∀ c ∈ cls, s'.fatEnt c = 0) ∧
      ∀ c, c ∉ cls → s'.fatEnt c = s.fatEnt c := by
  induction cls with
  | nil => exact fun {s} _ => ⟨s, rfl, rfl, nofun, fun _ _ => rfl⟩
  | cons cl cls ih =>
    intro s hin
    set s1 : Fs := { s with fat := fat12Set s.geo s.fat cl 0 } with hs1
    obtain ⟨s', h1, h2, h3, h4⟩ := ih (s := s1) fun c hc => hin c (List.mem_cons_of_mem _ hc)
    have hset : s1.fatEnt = Function.update s.fatEnt cl 0 := fatEnt_set (hin cl List.mem_cons_self) 0
    refine ⟨s', h1, IsTrans.trans _ _ _ (show FatOnly s s1 from rfl) h2, fun c hc => ?_, fun c hc => ?_⟩
    · by_cases hm : c ∈ cls
      · exact h3 c hm
      · rw [h4 c hm, hset, (List.mem_cons.1 hc).resolve_right hm, Function.update_self]
    · rw [List.mem_cons, not_or] at hc
      rw [h4 c hc.2, hset, Function.update_of_ne hc.1]

/-- `fat_alloc` that succeeds. -/
theorem fatAlloc_ok (h : exec fatAlloc s = (some cl, s')) :
    FatOnly s s' ∧ 2 ≤ cl ∧ cl ≤ s.geo.clusters + 1 ∧ s.fatEnt cl = 0 ∧
    s'.fatEnt = Function.update s.fatEnt cl fat12Eof := by
  cases hf : s.fatFind with
  | none =>
    rw [exec_fatAlloc_full (fatFind_none.1 hf)] at h
    cases h
  | some c =>
    rw [exec_fatAlloc hf] at h
    obtain ⟨rfl, rfl⟩ : c = cl ∧ _ = s' := by simpa using h
    obtain ⟨h2, hc, h0⟩ := fatFind_some hf
    exact ⟨rfl, h2, hc, h0, fatEnt_end c s⟩

theorem isCluster_inside {g : Geo} (hg : g.clusters ≤ fat12Max) (h2 : 2 ≤ c)
    (hc : c ≤ g.clusters + 1) : isCluster c = true := by
  unfold fat12Max at hg
  exact isCluster_iff.2 ⟨h2, by unfold fat12Eof; omega⟩

/-- A cluster just taken is a chain of its own. -/
theorem OwnChain.single (hg : s.geo.clusters ≤ fat12Max) (h2 : 2 ≤ c) (hc : c ≤ s.geo.clusters + 1)
    (he : s.fatEnt c = fat12Eof) :
    OwnChain s c [c] := by
  refine ⟨.step (isCluster_inside hg h2 hc) (.stop ?_), ?_, ?_⟩
  · rw [he]
    rfl
  · simpa using hc
  · simp [he, fat12Eof]

/-! ## Growing and shrinking -/

/-- What growing leaves: `new` was free and is linked behind `cls`. -/
structure Extended (s s' : Fs) (cls new : List Nat) : Prop where
  only : FatOnly s s'
  chain : OwnChain s' ((cls ++ new).headD 0) (cls ++ new)
  free : ∀ c ∈ new, 2 ≤ c ∧ c ≤ s.geo.clusters + 1 ∧ s.fatEnt c = 0
  other : ∀ c, c ∉ cls ++ new → s'.fatEnt c = s.fatEnt c

theorem FatOnly.geo (h : FatOnly s s') : s'.geo = s.geo := by
  rw [show s' = _ from h]

theorem Extended.refl (h : OwnChain s (l.headD 0) l) : Extended s s l [] :=
  ⟨rfl, by rwa [List.append_nil], nofun, fun _ _ => rfl⟩

/-- One more cluster. -/
theorem Extended.push {s1 : Fs} {cls : List Nat} (hg : s.geo.clusters ≤ fat12Max)
    (h : OwnChain s (cls.headD 0) cls) (hlast : ∀ p ∈ cls.getLast?, s.geo.Entry p)
    (ha : exec fatAlloc s = (some c, s1)) : ∃ s2, exec (match cls.getLast? with
      | some prev => fatSet prev c
      | none => pure () : FsM Unit) s1 = (some (), s2) ∧ Extended s s2 cls [c] := by
  obtain ⟨honly, h2, hc, h0, hent⟩ := fatAlloc_ok ha
  have hg1 : s1.geo = s.geo := honly.geo
  have hnew : c ∉ cls := h.not_mem h0
  have hclean : OwnChain s1 (cls.headD 0) cls := h.congr hg1.symm fun a ha => by
    rw [hent, Function.update_of_ne fun e : a = c => hnew (e ▸ ha)]
  have hself : s1.fatEnt c = fat12Eof := by rw [hent, Function.update_self]
  have hown : OwnChain s1 c [c] := .single (hg1 ▸ hg) h2 (hg1 ▸ hc) hself
  rcases List.eq_nil_or_concat cls with rfl | ⟨pre, prev, rfl⟩
  · refine ⟨s1, rfl, honly, hown, fun a ha => ?_, fun a ha => ?_⟩
    · rw [List.mem_singleton.1 ha]
      exact ⟨h2, hc, h0⟩
    · rw [hent, Function.update_of_ne fun e => ha (by simp [e])]
  · rw [List.concat_eq_append] at *
    have hprev : s1.geo.Entry prev := hg1 ▸ hlast prev (by simp)
    have hmod : c % 4096 = c := Nat.mod_eq_of_lt (by
      unfold fat12Max at hg
      omega)
    set s2 : Fs := { s1 with fat := fat12Set s1.geo s1.fat prev c } with hs2
    have hent2 : s2.fatEnt = Function.update s1.fatEnt prev c := by rw [hs2, fatEnt_set hprev, hmod]
    have hne : c ≠ prev := fun e => hnew (by simp [e])
    have hhead : ∀ x, ((pre ++ [prev]) ++ [x]).headD 0 = (pre ++ [prev]).headD 0 := fun x => by
      cases pre <;> rfl
    refine ⟨s2, by rw [List.getLast?_concat]; rfl, IsTrans.trans _ _ _ honly (show FatOnly s1 s2
      from rfl), ⟨?_, ?_, ?_⟩, ?_, ?_⟩
    · rw [hhead, List.append_assoc, List.singleton_append, hent2]
      exact hclean.links.append hnew hown.links
    · intro a ha
      rcases List.mem_append.1 ha with ha | ha
      · exact hclean.inside a ha
      · exact hown.inside a ha
    · intro a ha
      rw [hent2]
      by_cases e : a = prev
      · rw [e, Function.update_self]
        omega
      · rw [Function.update_of_ne e]
        rcases List.mem_append.1 ha with ha | ha
        · exact hclean.used a ha
        · exact hown.used a ha
    · intro a ha
      rw [List.mem_singleton.1 ha]
      exact ⟨h2, hc, h0⟩
    · intro a ha
      simp only [List.mem_append, List.mem_singleton, not_or] at ha
      rw [hent2, Function.update_of_ne ha.1.2, hent, Function.update_of_ne ha.2]

theorem Extended.trans {s1 : Fs} {cls a b : List Nat} (h : Extended s s1 cls a)
    (h' : Extended s1 s' (cls ++ a) b) :
    Extended s s' cls (a ++ b) := by
  refine ⟨IsTrans.trans _ _ _ h.only h'.only, ?_, fun c hc => ?_, fun c hc => ?_⟩
  · rw [← List.append_assoc]
    exact h'.chain
  · rcases List.mem_append.1 hc with hc | hc
    · exact h.free c hc
    · obtain ⟨h1, h2, h3⟩ := h'.free c hc
      rw [h.other c (h.chain.not_mem h3)] at h3
      exact ⟨h1, h.only.geo ▸ h2, h3⟩
  · rw [← List.append_assoc, List.mem_append, not_or] at hc
    rw [h'.other c (by rw [List.mem_append, not_or]; exact hc), h.other c hc.1]

/-- The growing loop: it stops short only when no cluster is free. -/
theorem fatExtend_spec (n : Nat) :
    ∀ {s : Fs} {cls : List Nat}, s.geo.clusters ≤ fat12Max → OwnChain s (cls.headD 0) cls →
    (n = 0 ∨ ∀ p ∈ cls.getLast?, s.geo.Entry p) → ∃ new s', exec (fatExtend n cls) s =
    (some (cls ++ new, decide (new.length = n)), s') ∧ new.length ≤ n ∧
      Extended s s' cls new := by
  induction n with
  | zero => exact fun {s cls} _ h _ => ⟨[], s, by rw [List.append_nil]; rfl, Nat.le_refl _, .refl h⟩
  | succ n ih =>
    intro s cls hg h hlast
    cases hf : s.fatFind with
    | none =>
      refine ⟨[], s, ?_, Nat.zero_le _, .refl h⟩
      rw [exec_fatExtend_full (fatFind_none.1 hf), List.append_nil]
      rfl
    | some c =>
      have ha := exec_fatAlloc hf
      obtain ⟨s2, h2, hpush⟩ := Extended.push hg h (hlast.resolve_left (Nat.succ_ne_zero n)) ha
      have hc : s2.geo.Entry c := hpush.only.geo ▸ entry_of_free (fatFind_some hf).2.2
      obtain ⟨new, s', h3, h4, h5⟩ := ih (hpush.only.geo ▸ hg) hpush.chain (.inr (by simpa using hc))
      refine ⟨c :: new, s', ?_, Nat.succ_le_succ h4, hpush.trans h5⟩
      unfold fatExtend
      rw [exec_bind_of (exec_result _ _), ha]
      dsimp only
      have hlen : decide ((c :: new).length = n + 1) = decide (new.length = n) := by simp
      rw [hlen, List.append_cons cls c new, ← h3]
      cases hl : cls.getLast? with
      | none =>
        rw [hl] at h2
        obtain rfl := (Prod.mk.inj h2).2
        rfl
      | some prev =>
        rw [hl] at h2
        dsimp only at h2 ⊢
        rw [exec_bind_of h2]

/-- What `fat_resize` to `count` clusters leaves when it returned 0: `old` was the chain, `new` was free. -/
structure Resized (s s' : Fs) (old new : List Nat) (count cl : Nat) : Prop where
  only : FatOnly s s'
  added : new.length = count - old.length
  chain : OwnChain s' cl ((old ++ new).take count)
  free : ∀ c ∈ new, 2 ≤ c ∧ c ≤ s.geo.clusters + 1 ∧ s.fatEnt c = 0
  dropped : ∀ c ∈ old.drop count, s'.fatEnt c = 0
  other : ∀ c, c ∉ old ++ new → s'.fatEnt c = s.fatEnt c

/-- A list that is long enough, around its cell number `count`. -/
theorem split_at_count {cls : List Nat} {count : Nat} (h0 : count ≠ 0) (hlen : count ≤ cls.length) :
    ∃ pre a, cls = pre ++ a :: cls.drop count ∧ cls.take count = pre ++ [a] ∧ cls.getD (count - 1) 0 = a := by
  have hlt : count - 1 < cls.length := by omega
  refine ⟨cls.take (count - 1), cls[count - 1], ?_, ?_, ?_⟩
  · have h := List.take_append_drop (count - 1) cls
    rw [List.drop_eq_getElem_cons hlt, Nat.sub_add_cancel (Nat.pos_of_ne_zero h0)] at h
    exact h.symm
  · rw [← List.take_succ_eq_append_getElem hlt, Nat.sub_add_cancel (Nat.pos_of_ne_zero h0)]
  · rw [List.getD_eq_getElem?_getD, List.getElem?_eq_getElem hlt, Option.getD_some]

theorem OwnChain.head {start : Nat} (h : OwnChain s start l) : OwnChain s (l.headD 0) l := by
  cases l with
  | nil => exact .nil (by decide)
  | cons a l =>
    obtain ⟨rfl, -, -⟩ := Links.cons_iff.1 h.links
    exact h

theorem fatResize_spec {start count : Nat} {old : List Nat} (hg : s.geo.clusters ≤ fat12Max)
    (hold : OwnChain s start old) (hlen : old.length ≤ chainMax)
    (hcount : count ≠ 0 ∧ count ≤ chainMax)
    (hlast : old.length = count ∨ ∀ c ∈ old.getLast?, s.geo.Entry c)
    (h : exec (fatResize start count) s = (some (cl, true), s')) :
    ∃ new, Resized s s' old new count cl := by
  obtain ⟨new, s1, h1, h2, h3⟩ := fatExtend_spec (count - old.length) hg hold.head
    (hlast.imp_left fun e => by omega)
  unfold fatResize at h
  rw [if_neg (by omega), exec_bind_of (exec_gets _ _)] at h
  simp only [id, hold.chain_eq hlen] at h
  rw [exec_bind_of h1] at h
  by_cases hn : new.length = count - old.length
  · simp only [hn, decide_true, if_true] at h
    have hlong : count ≤ (old ++ new).length := by
      rw [List.length_append]
      omega
    obtain ⟨pre, a, e1, e2, e3⟩ := split_at_count hcount.1 hlong
    set cls := old ++ new with hcls
    have hchain : OwnChain s1 (cls.headD 0) cls := h3.chain
    have hg1 : s1.geo = s.geo := h3.only.geo
    obtain ⟨s2, h4, h5, h6, h7⟩ := fatClear_spec (s := s1) (cls.drop count).reverse fun c hc => by
      have hdrop : c ∈ old.drop count ∨ c ∈ new.drop (count - old.length) := by
        simpa [hcls, List.drop_append, or_comm] using hc
      rcases hdrop with hc | hc
      · have hshort : old.length ≠ count := fun e => by simp [← e] at hc
        exact hg1 ▸ hold.entry (hlast.resolve_left hshort) c (List.mem_of_mem_drop hc)
      · rw [← hn, List.drop_length] at hc
        cases hc
    rw [exec_bind_of h4, e3, exec_bind_of (exec_fatSet _ _ _)] at h
    obtain ⟨rfl, rfl⟩ : cls.getD 0 0 = cl ∧ _ = s' := by simpa using h
    have hmem : a ∈ cls := by
      rw [e1]
      simp
    have hg2 : s2.geo = s.geo := h5.geo.trans hg1
    set s3 : Fs := { s2 with fat := fat12Set s2.geo s2.fat a fat12Eof } with hs3
    have hent : s3.fatEnt = Function.update s2.fatEnt a fat12Eof := fatEnt_end a s2
    have hnodup : cls.Nodup := hchain.links.nodup
    -- the cut list has none of the cleared clusters
    have hkeep : ∀ c ∈ pre ++ [a], c ∉ (cls.drop count).reverse := by
      intro c hc hd
      rw [e1, List.append_cons] at hnodup
      exact List.disjoint_of_nodup_append hnodup hc (List.mem_reverse.1 hd)
    have hlast : a ∉ (cls.drop count).reverse := hkeep a (by simp)
    have hcut : Links isCluster s3.fatEnt (cls.getD 0 0) (pre ++ [a]) := by
      have hlinks := hchain.links
      rw [e1] at hlinks
      have hget : (pre ++ a :: cls.drop count).headD 0 = cls.getD 0 0 := by
        rw [← e1]
        cases cls <;> rfl
      rw [hget] at hlinks
      refine (hlinks.cut (b := fat12Eof) (by decide)).congr fun c hc => ?_
      rw [hent]
      by_cases e : c = a
      · rw [e, Function.update_self, Function.update_self]
      · rw [Function.update_of_ne e, Function.update_of_ne e, h7 c (hkeep c hc)]
    refine ⟨new, ⟨?_, hn, ⟨by rwa [e2], fun c hc => ?_, fun c hc => ?_⟩, h3.free, fun c hc => ?_,
      fun c hc => ?_⟩⟩
    · exact IsTrans.trans _ _ _ (IsTrans.trans _ _ _ h3.only h5) (show FatOnly s2 s3 from rfl)
    · have := hchain.inside c (List.mem_of_mem_take hc)
      change c ≤ s2.geo.clusters + 1
      rwa [hg1, ← hg2] at this
    · rw [hent]
      by_cases e : c = a
      · rw [e, Function.update_self]
        decide
      · rw [e2] at hc
        rw [Function.update_of_ne e, h7 c (hkeep c hc)]
        exact hchain.used c (by rw [e1, List.append_cons]; exact List.mem_append_left _ hc)
    · have hc' : c ∈ (cls.drop count).reverse := by
        rw [List.mem_reverse, hcls, List.drop_append]
        exact List.mem_append_left _ hc
      rw [hent, Function.update_of_ne fun e : c = a => hlast (e ▸ hc'), h6 c hc']
    · rw [hent, Function.update_of_ne fun e => hc (by rw [e]; exact hmem),
        h7 c fun hd => hc (List.mem_of_mem_drop (List.mem_reverse.1 hd)), h3.other c hc]
  · simp only [hn, decide_false, Bool.false_eq_true, if_false] at h
    cases h

/-- The chain afterwards: the old one cut to `need` clusters, or all of it and clusters that were free. -/
theorem fatResize_yields {start need : Nat} {old : List Nat} (hg : s.geo.clusters ≤ fat12Max)
    (hold : OwnChain s start old) (hlen : old.length ≤ chainMax)
    (hneed : need ≠ 0 ∧ need ≤ chainMax)
    (hlast : old.length = need ∨ ∀ c ∈ old.getLast?, s.geo.Entry c)
    (h : exec (fatResize start need) s = (some (cl, true), s')) :
    ∃ new, OwnChain s' cl (old.take need ++ new) ∧ (old.take need ++ new).Nodup ∧
    (old.take need ++ new).length = need ∧
      (∀ c ∈ new, 2 ≤ c ∧ c ≤ s.geo.clusters + 1 ∧ s.fatEnt c = 0) ∧ (∀ c ∈ old.drop need, s'.fatEnt c = 0) ∧
      (∀ c, c ∉ old → c ∉ new → s'.fatEnt c = s.fatEnt c) ∧ s'.fatEnt 0 = s.fatEnt 0 ∧
      s'.fatEnt 1 = s.fatEnt 1 ∧
      FatOnly s s' := by
  obtain ⟨new, hr⟩ := fatResize_spec hg hold hlen hneed hlast h
  have htake : (old ++ new).take need = old.take need ++ new := by
    rw [List.take_append, List.take_of_length_le (l := new)]
    rw [hr.added]
  have hchain := hr.chain
  rw [htake] at hchain
  have hother : ∀ c, c ∉ old → c ∉ new → s'.fatEnt c = s.fatEnt c := fun c h1 h2 => hr.other c (by
    rw [List.mem_append, not_or]
    exact ⟨h1, h2⟩)
  have hlow : ∀ c, c < 2 → c ∉ old ∧ c ∉ new := fun c hc =>
    ⟨fun hm => absurd (hold.two_le c hm) (by omega), fun hm => absurd (hr.free c hm).1 (by omega)⟩
  refine ⟨new, hchain, hchain.links.nodup, ?_, hr.free, hr.dropped, hother, ?_, ?_, hr.only⟩
  · rw [List.length_append, List.length_take, hr.added]
    omega
  · exact hother 0 (hlow 0 (by decide)).1 (hlow 0 (by decide)).2
  · exact hother 1 (hlow 1 (by decide)).1 (hlow 1 (by decide)).2

theorem fatResize_yields_grow : let s := twoClusters [0xF8, 0xFF, 0xFF, 0xFF, 0x0F, 0x00]
    ∃ s' new, exec (fatResize 2 2) s = (some (2, true), s') ∧ OwnChain s' 2 ([2] ++ new) ∧
      ([2] ++ new).length = 2 := by
  intro s
  have hold : OwnChain s 2 [2] := by
    refine ⟨.step (by decide) (.stop (by decide +kernel)), ?_, ?_⟩
    · simp only [List.mem_singleton, forall_eq]
      decide +kernel
    · simp only [List.mem_singleton, forall_eq]
      decide +kernel
  have hlast : ∀ c ∈ [2].getLast?, s.geo.Entry c := by
    simp only [List.getLast?_singleton, Option.mem_some, forall_eq']
    unfold Geo.Entry
    decide +kernel
  obtain ⟨new, h1, -, h3, -⟩ := fatResize_yields (by decide +kernel) hold (by decide) (by decide) (.inr hlast)
    (show exec (fatResize 2 2) s = (some (2, true), _) from Prod.ext (by decide +kernel) rfl)
  exact ⟨_, new, Prod.ext (by decide +kernel) rfl, h1, h3⟩

/-- A volume of 340 clusters with a FAT of one sector, which has no entry for the last cluster. -/
def shortFat : Fs :=
  let disk lba :=
    if lba = 0 then bootSector 1 2 16 1 344
    else if lba = 3 then rootSector 341
    else fun _ => 0
  { bootVolume 2 with disk := disk }

theorem shortFat_init : (exec fsInit shortFat).1 = some () ∧ OwnChain (exec fsInit shortFat).2 341 [341] := by
  refine ⟨by decide +kernel, ⟨.step (by decide) (.stop (by decide +kernel)), ?_, ?_⟩⟩
  · simp only [List.mem_singleton, forall_eq]
    decide +kernel
  · simp only [List.mem_singleton, forall_eq]
    decide +kernel

/-- The link to the added cluster is lost. -/
theorem fatResize_link_lost :
    (exec fsInit shortFat).1 = some () ∧ OwnChain (exec fsInit shortFat).2 341 [341] ∧
    ∃ s', exec (fatResize 341 2) (exec fsInit shortFat).2 = (some (341, true), s') ∧
    ∀ l, OwnChain s' 341 l → l.length = 1 := by
  refine ⟨shortFat_init.1, shortFat_init.2, _, Prod.ext (by decide +kernel) rfl, fun l hl => ?_⟩
  have hone : OwnChain (exec (fatResize 341 2) (exec fsInit shortFat).2).2 341 [341] := by
    refine ⟨.step (by decide) (.stop (by decide +kernel)), ?_, ?_⟩
    · simp only [List.mem_singleton, forall_eq]
      decide +kernel
    · simp only [List.mem_singleton, forall_eq]
      decide +kernel
  rw [hl.unique hone]
  rfl

/-- `fat_free_chain`: exactly the clusters of the chain become free. -/
theorem fatFreeChain_spec (hg : s.geo.Sane) (h : OwnChain s cl l) (hl : l.length ≤ chainMax) :
    ∃ s', exec (fatFreeChain cl) s = (some (), s') ∧ FatOnly s s' ∧ (∀ c ∈ l, s'.fatEnt c = 0) ∧
      ∀ c, c ∉ l → s'.fatEnt c = s.fatEnt c := by
  have hstep : exec (fatFreeChain cl) s = exec (fatClear l) s := by
    unfold fatFreeChain
    rw [exec_bind_of (exec_gets _ _)]
    simp only [id, h.chain_eq hl]
  rw [hstep]
  exact fatClear_spec l fun c hc => hg.entry (h.inside c hc)

end Fs

end VampireOS
