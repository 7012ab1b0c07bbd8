import VampireOS.Fs.Create

/-!
# Removing (kernel/fs.c:722-735, 911-939, 1664-1704, 1940-1997)

`fs_remove` and `fs_rmdir` give the chain back, wipe the entry with its long name, and store the
page; the last cached entry takes the place of the one that is gone.
-/

namespace VampireOS.Fs

open Lib

variable {v v' u u' s s' : Fs} {b b' : Bytes} {d e i j k m n cl : Nat} {own l : List Nat} {f : FileEnt}

/-! ## Wiping the page -/

theorem Agree.update {x : Nat} {y : UInt8} (h : Agree b b' n) :
    Agree (Function.update b x y) (Function.update b' x y) n := by
  intro i hi
  by_cases he : i = x
  · rw [he, Function.update_self, Function.update_self]
  · rw [Function.update_of_ne he, Function.update_of_ne he]
    exact h i hi

theorem Agree.wipeBack (j : Nat) :
    ∀ {b b' : Bytes}, Agree b b' n → 32 * j ≤ n → Agree (wipeBack b j) (wipeBack b' j) n := by
  induction j with
  | zero => exact fun h _ => h
  | succ j ih =>
    intro b b' h hj
    unfold Fs.wipeBack
    rw [h (32 * j) (by omega), h (32 * j + 11) (by omega)]
    split
    · exact h
    · exact ih h.update (by omega)

theorem Agree.wiped (h : Agree b b' n) (hj : 32 * j ≤ n) : Agree (wiped b j) (wiped b' j) n :=
  h.update.wipeBack j hj

theorem exec_dirWipe (s : Fs) (j : Nat) :
    exec (dirWipe (32 * j)) s = (some (), { s with dir := wiped s.dir j }) := by
  unfold dirWipe wiped
  rw [exec_upd, Nat.mul_div_cancel_left j (by decide)]

/-- After a step from the volume `v`, slot `j` of the directory at `d` is free with its clusters,
and the others are as before. -/
structure Removed (v v' s : Fs) (d j : Nat) : Prop where
  well : WellFormed v'
  stands : Stands v' s
  frame : Frame v v' d j
  gone : ¬ v'.Occupied d j
  free : ∀ c ∈ v.owned d j, v'.fatEnt c = 0

/-- **The end of a removal**: the page is loaded, the chain free and the FAT flushed. -/
theorem wipe_ends (hw : WellFormed v) (hs : Stands v s) (hi : s.files[i]? = some f)
    (hf : AtEntry v s.cwd j f) (hu : Ready v s u (v.chainAt f.cluster)) (hl : PageAt v u u s.cwd)
    (hfree : ∀ c ∈ v.chainAt f.cluster, u.fatEnt c = 0)
    (gone : v.slotIsDir s.cwd j = true → (∀ k, ¬ v.Occupied (v.slotStart s.cwd j) k) ∧
      v.slotStart s.cwd j ≠ s.savedCwd) :
    ∃ u', exec dirStore { u with dir := wiped u.dir j } = (some (), u') ∧
      u' = { u with dir := wiped u.dir j, disk := u'.disk, sent := u'.sent } ∧
      ∀ n, Removed v u' { u' with files := swapRemove s.files i, pages := n } s.cwd j := by
  have hd := hs.cwd
  set d := s.cwd
  have hmine := hf.mine hw hd
  set ux : Fs := { u with dir := wiped u.dir j } with hux
  have hout : Outside v ux (v.chainAt f.cluster) :=
    ⟨⟨hu.out.geo, hu.out.fat, hu.out.disk⟩, ⟨hu.out.head, hu.out.first⟩⟩
  have hrel : Reliable ux := hu.rel.same rfl rfl rfl
  have hlt := hf.mem.1
  have hpage : Agree ux.dir (wiped (v.dirData d) j) (32 * v.dirLen d) := hl.page.wiped (by omega)
  obtain ⟨a, hblock, hattr, hnot, htidy⟩ := wiped_block hf.mem.2 (v.dirLen d)
  have hlow : 2 ≤ d → 2 ≤ a := by
    intro h2
    obtain ⟨h3, h4, h5⟩ := hw.dots hd h2
    have hj := hf.mem.two_le hw hd h2
    by_contra hlt
    have := hattr 1 (by omega) (by omega)
    exact h5 this
  have htidy' := htidy (hw.tidy d hd)
  obtain ⟨u', h1, h2⟩ := page_at hw hd hmine hout hrel hu.cwd hl.bytes hpage hblock.slots
    (fun h2 => hblock.dots (hlow h2) (by have := hw.dirLen_ge hd; omega)) htidy'
  have hgone : ¬ u'.Occupied d j := by
    rintro ⟨-, ho⟩
    unfold ownsChain at ho hnot
    rw [h2.page _ (by omega), h2.page _ (by omega), hnot] at ho
    cases ho
  have hedit := h2.edit (fun ho => absurd ho hgone) fun _ hdir => (gone hdir).1
  have hn : NamesKept v u' d j := fun k hk ho => names_kept hblock (Nat.le_refl _) hlt
    (hw.tidy d hd) htidy' h2.page hk ho
  have hstate := h2.state
  have hent : u'.fatEnt = u.fatEnt := by
    rw [hstate]
    rfl
  refine ⟨u', h1, hstate, fun n => ⟨hedit.wellFormed hw hd, ?_, hedit.frame hw hd (.inl rfl) hn,
    hgone, fun c hc => ?_⟩⟩
  · refine hs.edit hw hedit (fun hg => ?_) ⟨rfl, rfl, rfl⟩ ?_ ?_ ?_ ?_ ?_ ?_
    · exact (gone hg.2.1).2 hg.2.2
    · have : Reliable u' := by
        rw [hstate]
        exact hrel.same rfl rfl rfl
      exact this.same rfl rfl rfl
    · show u'.cwd = d
      rw [hstate]
      exact hu.cwd
    · show u'.savedCwd = _
      rw [hstate]
      exact hu.saved
    · show u'.dirBytes = _
      rw [h2.len, hstate]
      exact hl.bytes
    · show Agree u'.dir _ _
      rw [h2.len, hstate]
      exact fun x hx => (hpage x hx).trans (by rw [← h2.page x hx, hstate])
    · exact hs.cache.drop hedit hw hd hn hi hf rfl
  · rw [hent]
    exact hfree c (hf.owned_sub hc)

/-! ## `fs_remove` -/

/-- Another entry of the directory starts at the same cluster: then there is no chain. -/
theorem shared_nil (hw : WellFormed v) (hd : Dir v d) (hf : AtEntry v d j f) (hl : PageAt v u u d)
    (h : u.otherLinks f.cluster f.dirOff ≠ 0) :
    v.chainAt f.cluster = [] := by
  unfold otherLinks at h
  split at h
  · exact absurd rfl h
  · obtain ⟨k, hk, hp⟩ := List.countP_pos_iff.1 (Nat.pos_of_ne_zero h)
    have hents : u.dirEnts = v.dirLen d := by
      unfold dirEnts
      rw [hl.bytes]
      omega
    rw [hents] at hk
    obtain ⟨-, hlt, hreach⟩ := (mem_entriesFrom _ _ 0).1 hk
    have hmark := hl.page (32 * k) (by omega)
    have hattr := hl.page (32 * k + 11) (by omega)
    simp only [Bool.and_eq_true, decide_eq_true_eq, Bool.not_eq_true', Bool.or_eq_false_iff,
      decide_eq_false_iff_not] at hp
    obtain ⟨⟨hne, hlive⟩, hstart⟩ := hp
    have hocc : v.Occupied d k := by
      refine ⟨by omega, ?_⟩
      have h0 := hreach k (Nat.zero_le k) (Nat.le_refl k)
      unfold ownsChain freeMark
      rw [hmark] at h0 hlive
      rw [hattr] at hlive
      simp [h0, hlive.1.1.1, hlive.1.1.2, hlive.1.2]
    have heq : v.slotStart d k = f.cluster := by
      rw [← hstart]
      unfold slotStart
      exact (hl.page.rdU16 (by omega)).symm
    have hnot : Owner.slot d k ≠ .slot d j := by
      intro e
      apply hne
      rw [hf.off, (Owner.slot.inj e).2]
    have hdis := hf.mine hw hd (.slot d k) ⟨hd, hocc⟩ hnot
    rw [show v.held (.slot d k) = v.chainAt f.cluster by rw [← heq]; rfl] at hdis
    exact List.eq_nil_iff_forall_not_mem.2 fun c hc => hdis hc hc

theorem ready_refl (hs : Stands v s) (own : List Nat) : Ready v s s own :=
  ⟨hs.vol.outside own, hs.rel, rfl, rfl⟩

theorem Stands.pageAt (h : Stands v s) : PageAt v s s s.cwd := ⟨rfl, h.bytes, h.page⟩

/-- The chain of an entry is free, and the FAT flushed. -/
theorem unchain (hw : WellFormed v) (hs : Stands v s) (hf : AtEntry v s.cwd j f) :
    ∃ s1 u, exec (fatFreeChain f.cluster) s = (some (), s1) ∧
    exec fatFlush s1 = (some (), u) ∧ Ready v s u (v.chainAt f.cluster) ∧
    u = { s with fat := u.fat, disk := u.disk, sent := u.sent } ∧
      ∀ c ∈ v.chainAt f.cluster, u.fatEnt c = 0 := by
  have hold : OwnChain s f.cluster (v.chainAt f.cluster) := (hf.chain hw hs.cwd).sameVol hs.vol
  obtain ⟨s1, h1, hgone⟩ := Regrown.freed (hs.vol.geo ▸ hw.geo) hold (v.chainAt_length _)
  obtain ⟨s1', h1', -, hzero, -⟩ := fatFreeChain_spec (hs.vol.geo ▸ hw.geo) hold (v.chainAt_length _)
  obtain rfl : s1 = s1' := (Prod.mk.inj (h1.symm.trans h1')).2
  obtain ⟨u, h2, hu, -, hstate, hent, -⟩ := hgone.flushed hw hs s1.files
  refine ⟨s1, u, h1, h2, hu, ?_, fun c hc => ?_⟩
  · rw [hgone.sameFiles] at hstate
    exact hstate
  · rw [hent]
    exact hzero c hc

theorem removeFile_removed (hw : WellFormed v) (hs : Stands v s) (hi : s.files[i]? = some f)
    (hf : AtEntry v s.cwd j f) (hfile : f.isDir = false) :
    ∃ v' s', exec (removeFile i) s = (some (), s') ∧ Removed v v' s' s.cwd j ∧ s'.cwd = s.cwd ∧
    s'.files.length = s.files.length - 1 := by
  obtain ⟨s1, h1, hpage⟩ := dirLoad_pageAt hw hs
  have hs1 := hpage.stands hs
  have hstate1 := hpage.state
  have hcwd1 : s1.cwd = s.cwd := by rw [hstate1]
  have hi1 : s1.files[i]? = some f := by
    rw [hstate1]
    exact hi
  rw [← hcwd1] at hf ⊢
  have hkind : v.slotIsDir s1.cwd j = true → (∀ k, ¬ v.Occupied (v.slotStart s1.cwd j) k) ∧
      v.slotStart s1.cwd j ≠ s1.savedCwd := fun ht => by
    rw [← hf.isDir, hfile] at ht
    cases ht
  have hless : (swapRemove s1.files i).length = s.files.length - 1 := by rw [swapRemove_length, hstate1]
  unfold removeFile
  rw [exec_bind_of h1, exec_bind_of (exec_gets _ _)]
  simp only [id, fileAt_set hi1]
  by_cases h0 : s1.otherLinks f.cluster f.dirOff = 0
  · obtain ⟨s2, u, h2, h3, hu, hstate, hzero⟩ := unchain hw hs1 hf
    have hl : PageAt v u u s1.cwd := ⟨rfl, by rw [hstate]; exact hs1.bytes, by rw [hstate]; exact hs1.page⟩
    obtain ⟨u', h4, hstate', h5⟩ := wipe_ends hw hs1 hi1 hf hu hl hzero hkind
    refine ⟨_, _, ?_, h5 (u'.pages + f.data.toList.length), by rw [hstate']; exact hu.cwd, hless⟩
    rw [if_pos h0, exec_bind_of h2, exec_bind_of h3, hf.off, exec_bind_of (exec_dirWipe _ _),
      exec_bind_of h4, exec_upd]
    have hfiles : u'.files = s1.files := by rw [hstate', hstate]
    rw [hfiles]
  · have hnil := shared_nil hw hs1.cwd hf hs1.pageAt h0
    obtain ⟨u', h4, hstate', h5⟩ := wipe_ends hw hs1 hi1 hf (ready_refl hs1 _) hs1.pageAt
      (by rw [hnil]; exact nofun) hkind
    refine ⟨_, _, ?_, h5 (u'.pages + f.data.toList.length), by rw [hstate'], hless⟩
    rw [if_neg h0, hf.off, exec_bind_of (exec_dirWipe _ _), exec_bind_of h4, exec_upd]
    have hfiles : u'.files = s1.files := by rw [hstate']
    rw [hfiles]

/-! ## `fs_rmdir` -/

/-- Up to the end, or to a slot that starts with 0, all slots are deleted or the dots. -/
def Hollow (b : Bytes) (n : Nat) : Prop :=
  ∃ m ≤ n, (∀ k < m, b (32 * k) = 0xE5 ∨ b (32 * k) = dot) ∧ (m < n → b (32 * m) = 0)

theorem Hollow.owns (h : Hollow b n) (ht : Tidy b n) (hk : k < n) : ownsChain b k = false := by
  obtain ⟨m, -, h1, h2⟩ := h
  unfold ownsChain freeMark
  rcases Nat.lt_or_ge k m with hlt | hge
  · rcases h1 k hlt with he | he
    · simp [he]
    · simp [he]
  · have := ht.zero m k hge hk (h2 (by omega))
    simp [this]

theorem sectorEmpty_some {r : Bool} (h : sectorEmpty b = some r) :
    ∃ m < 16, (∀ k < m, b (32 * k) = 0xE5 ∨ b (32 * k) = dot) ∧
    r = decide (b (32 * m) = 0) := by
  unfold sectorEmpty at h
  split at h
  · cases h
  · next m hm =>
    obtain ⟨-, hlt, hbefore⟩ := List.find?_range_eq_some.1 hm
    refine ⟨m, List.mem_range.1 hlt, fun k hk => ?_, (Option.some.inj h).symm⟩
    simpa using hbefore k hk

theorem sectorEmpty_none (h : sectorEmpty b = none) : ∀ k < 16, b (32 * k) = 0xE5 ∨ b (32 * k) = dot := by
  unfold sectorEmpty at h
  split at h
  · next hm =>
    intro k hk
    simpa [or_iff_not_imp_left] using List.find?_eq_none.1 hm k (List.mem_range.2 hk)
  · cases h

theorem dirEmptyFrom_spec (hr : Reliable s) (cls : List Nat)
    (hin : ∀ c ∈ cls, 2 ≤ c ∧ c ≤ s.geo.clusters + 1) :
    ∃ r, exec (dirEmptyFrom cls) s = (some r, s) ∧
    (r = true → Hollow (sectorBytes s.disk (cls.map s.geo.dataLba)) (16 * cls.length)) := by
  induction cls with
  | nil => exact ⟨true, rfl, fun _ => ⟨0, Nat.le_refl 0, fun k hk => by omega, fun h => by simp at h⟩⟩
  | cons c cls ih =>
    obtain ⟨hc2, hcl⟩ := hin c List.mem_cons_self
    unfold dirEmptyFrom
    rw [exec_bind_of (exec_gets _ _)]
    simp only [id]
    rw [exec_bind_of (exec_result _ _), exec_bread hr.errs (hr.cluster hc2 hcl)]
    dsimp only
    have hhead : ∀ k < 16, sectorBytes s.disk ((c :: cls).map s.geo.dataLba) (32 * k) =
        s.disk (s.geo.dataLba c) (32 * k) :=
      fun k hk => sectorBytes_head _ _ _ (by unfold secSize; omega)
    cases hs : sectorEmpty (s.disk (s.geo.dataLba c)) with
    | some r =>
      refine ⟨r, rfl, fun hr => ?_⟩
      obtain ⟨m, hm, h1, h2⟩ := sectorEmpty_some hs
      refine ⟨m, by rw [List.length_cons]; omega, fun k hk => ?_, fun _ => ?_⟩
      · rw [hhead k (by omega)]
        exact h1 k hk
      · rw [hhead m hm]
        rw [hr] at h2
        simpa using h2.symm
    | none =>
      have hall := sectorEmpty_none hs
      obtain ⟨r, h1, h2⟩ := ih fun x hx => hin x (List.mem_cons_of_mem _ hx)
      refine ⟨r, h1, fun hr => ?_⟩
      obtain ⟨m, hm, h3, h4⟩ := h2 hr
      have htail : ∀ k, sectorBytes s.disk ((c :: cls).map s.geo.dataLba) (32 * (16 + k)) =
          sectorBytes s.disk (cls.map s.geo.dataLba) (32 * k) := by
        intro k
        rw [show 32 * (16 + k) = secSize + 32 * k by unfold secSize; omega]
        exact sectorBytes_tail _ _ _ _
      refine ⟨16 + m, by rw [List.length_cons]; omega, fun k hk => ?_, fun hlt => ?_⟩
      · rcases Nat.lt_or_ge k 16 with hk16 | hk16
        · rw [hhead k hk16]
          exact hall k hk16
        · obtain ⟨x, rfl⟩ := Nat.exists_eq_add_of_le hk16
          rw [htail x]
          exact h3 x (by omega)
      · rw [htail m]
        rw [List.length_cons] at hlt
        exact h4 (by omega)

/-- **`dir_empty` is right**: a directory it accepts has no entry. -/
theorem dirEmpty_spec (hw : WellFormed v) (hs : Stands v s) (he : Dir v e) :
    ∃ r, exec (dirEmpty e) s = (some r, s) ∧
    (r = true → ∀ k, ¬ v.Occupied e k) := by
  unfold dirEmpty
  rw [exec_bind_of (exec_gets _ _)]
  by_cases h2 : e < 2
  · exact ⟨false, by rw [if_pos h2]; rfl, nofun⟩
  · have h2' : 2 ≤ e := Nat.le_of_not_lt h2
    have hchain := hw.dirChain he
    have hat : chain s.geo s.fat chainMax e = v.dirClusters e := by
      rw [hs.vol.geo, hs.vol.fat, dirClusters_sub h2']
      rfl
    obtain ⟨r, h3, h4⟩ := dirEmptyFrom_spec hs.rel (v.dirClusters e) fun c hc => ⟨hchain.chain.two_le c hc, by
      rw [hs.vol.geo]
      exact hchain.chain.inside c hc⟩
    refine ⟨r, ?_, fun hr k hk => ?_⟩
    · rw [if_neg h2]
      simp only [id, hat]
      exact h3
    · have hhollow := h4 hr
      rw [hs.vol.disk, hs.vol.geo] at hhollow
      have hdata : v.dirData e = sectorBytes v.disk ((v.dirClusters e).map v.geo.dataLba) := by
        rw [hchain.data, sectorsOf, if_neg h2, List.nil_append]
      have hlen : v.dirLen e = 16 * (v.dirClusters e).length := by
        rw [hchain.len, sectorsOf, if_neg h2, List.nil_append, List.length_map, Nat.mul_comm]
      rw [← hdata, ← hlen] at hhollow
      have := hhollow.owns (hw.tidy e he) hk.1
      rw [hk.2] at this
      cases this

theorem rmdirBody_removed (hw : WellFormed v) (hs : Stands v s) (hi : s.files[i]? = some f)
    (hf : AtEntry v s.cwd j f) (hdir : f.isDir = true) (hempty : ∀ k, ¬ v.Occupied f.cluster k)
    (hsaved : f.cluster ≠ s.savedCwd) :
    ∃ v' s', exec (rmdirBody i) s = (some (), s') ∧ Removed v v' s' s.cwd j ∧ s'.cwd = s.cwd ∧
    s'.files.length = s.files.length - 1 := by
  have hstart : f.cluster = v.slotStart s.cwd j := by
    rcases hf.cluster with h | ⟨h, -⟩
    · exact h
    · rw [hdir] at h
      cases h
  obtain ⟨s1, u, h1, h2, hu, hstate, hzero⟩ := unchain hw hs hf
  obtain ⟨u1, h3, h4, h5, h6⟩ := dirLoad_at hw hs.cwd hu.out ((hf.mine hw hs.cwd).dir hw hs.cwd) hu.rel hu.cwd
  have hu1 : Ready v s u1 (v.chainAt f.cluster) := by
    rw [h4]
    exact ⟨⟨⟨hu.out.geo, hu.out.fat, hu.out.disk⟩, ⟨hu.out.head, hu.out.first⟩⟩,
      hu.rel.same rfl rfl rfl, hu.cwd, hu.saved⟩
  have hent : u1.fatEnt = u.fatEnt := by
    rw [h4]
    rfl
  obtain ⟨u', h7, hstate', h8⟩ :=
    wipe_ends hw hs hi hf hu1 ⟨rfl, h5, h6⟩ (by rw [hent]; exact hzero) fun _ => by
    rw [← hstart]
    exact ⟨hempty, hsaved⟩
  refine ⟨_, _, ?_, h8 u'.pages, by rw [hstate']; exact hu1.cwd, swapRemove_length _ _⟩
  unfold rmdirBody
  rw [exec_bind_of (exec_gets _ _)]
  simp only [id, fileAt_set hi]
  rw [exec_bind_of h1, exec_bind_of h2, exec_bind_of h3, hf.off, exec_bind_of (exec_dirWipe _ _),
    exec_bind_of h7, exec_upd]
  have hfiles : u'.files = s.files := by rw [hstate', h4, hstate]
  rw [hfiles]

end VampireOS.Fs
