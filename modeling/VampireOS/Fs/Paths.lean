import VampireOS.Fs.Mkdir

/-!
# Where a path leads (kernel/fs.c:247-369)

`Reaches v c path d leaf`: from the directory at `c` the path leads to the directory at `d` and ends
in the name `leaf`, for any volume, also one whose directories are longer than the cache. A call
that changes one slot, which is not a directory, leaves every path where it led (`Reaches.frame`),
and when the names of every directory are different a path leads to one slot at most.
-/

namespace VampireOS.Fs

open Lib

variable {v v' s s' : Fs} {c d d0 d' e e' i j j0 k : Nat} {f : FileEnt} {x leaf leaf' path : Name}
    {cs : List Name} {F : Prop}

/-- One component. -/
inductive Next (v : Fs) (x : Name) : Nat → Nat → Prop where
  | dot {d : Nat} : isDot x = true → Next v x d d
  | top {d : Nat} : isDot x = false → isDotDot x = true → d = 0 → Next v x d 0
  | up {d p k : Nat} : isDot x = false → isDotDot x = true → Dir v p → v.Occupied p k →
      v.slotIsDir p k = true → v.slotStart p k = d →
    Next v x d p
  | down {d e k : Nat} : isDot x = false → isDotDot x = false → v.Occupied d k →
      v.slotIsDir d k = true → v.slotName d k = x →
    v.slotStart d k = e → Next v x d e

def Leads (v : Fs) : Nat → List Name → Nat → Prop
  | d, [], e => d = e
  | d, x :: cs, e => ∃ m, Next v x d m ∧ Leads v m cs e

/-- Where a path leads: the directory of its last component, and that component. -/
def Reaches (v : Fs) (c : Nat) (path : Name) (d : Nat) (leaf : Name) : Prop :=
  ∃ cs, components path = (cs ++ [leaf]).map some ∧ Leads v (fromDir path c) cs d

/-- No directory has two entries of one name. -/
def Distinct (v : Fs) : Prop :=
  ∀ d, Dir v d → ∀ j k, v.Occupied d j → v.Occupied d k → v.slotName d j = v.slotName d k → j = k

/-! ## On the volume -/

theorem Next.dir (h : Next v x d e) (hd : Dir v d) : Dir v e := by
  cases h with
  | dot _ => exact hd
  | top _ _ _ => exact .root
  | up _ _ hp _ _ _ => exact hp
  | down _ _ hk hdir _ he => exact he ▸ .sub hd hk hdir

theorem Leads.dir (h : Leads v d cs e) (hd : Dir v d) : Dir v e := by
  induction cs generalizing d with
  | nil => exact h ▸ hd
  | cons x cs ih =>
    obtain ⟨m, h1, h2⟩ := h
    exact ih h2 (h1.dir hd)

theorem fromDir_dir (hc : Dir v c) (path : Name) : Dir v (fromDir path c) := by
  unfold fromDir
  split
  · exact .root
  · exact hc

theorem Reaches.dir (h : Reaches v c path d leaf) (hc : Dir v c) : Dir v d := by
  obtain ⟨cs, -, h⟩ := h
  exact h.dir (fromDir_dir hc path)

theorem Next.unique (h : Next v x d e) (hw : WellFormed v) (hu : Distinct v) (hd : Dir v d)
    (h' : Next v x d e') : e = e' := by
  cases h with
  | dot h1 =>
    cases h' with
    | dot _ => rfl
    | top h2 | up h2 | down h2 =>
      rw [h1] at h2
      cases h2
  | top h1 h2 h0 =>
    cases h' with
    | dot _ => exact h0.symm
    | top => rfl
    | up _ _ hp hk hdir he =>
      have := hw.sub_cluster hp hk hdir
      omega
    | down _ h3 =>
      rw [h2] at h3
      cases h3
  | up h1 h2 hp hk hdir he =>
    cases h' with
    | dot h3 =>
      rw [h1] at h3
      cases h3
    | top _ _ h0 =>
      have := hw.sub_cluster hp hk hdir
      omega
    | up _ _ hp' hk' hdir' he' =>
      have hhome := Home.slot hdir
      have hhome' := Home.slot hdir'
      rw [he] at hhome
      rw [he'] at hhome'
      exact (Owner.slot.inj (hw.home_unique ⟨hp, hk⟩ ⟨hp', hk'⟩ hhome hhome')).1
    | down _ h3 =>
      rw [h2] at h3
      cases h3
  | down h1 h2 hk hdir hname he =>
    cases h' with
    | dot h3 =>
      rw [h1] at h3
      cases h3
    | top _ h3 | up _ h3 =>
      rw [h2] at h3
      cases h3
    | down _ _ hk' _ hname' he' =>
      rw [← he, ← he', hu _ hd _ _ hk hk' (hname.trans hname'.symm)]

theorem Leads.unique (h : Leads v d cs e) (hw : WellFormed v) (hu : Distinct v) (hd : Dir v d)
    (h' : Leads v d cs e') : e = e' := by
  induction cs generalizing d with
  | nil => exact h.symm.trans h'
  | cons x cs ih =>
    obtain ⟨m, h1, h2⟩ := h
    obtain ⟨m', h3, h4⟩ := h'
    obtain rfl := h1.unique hw hu hd h3
    exact ih h2 (h1.dir hd) h4

/-- **A path leads to one place.** -/
theorem Reaches.unique (h : Reaches v c path d leaf) (hw : WellFormed v) (hu : Distinct v)
    (hc : Dir v c) (h' : Reaches v c path d' leaf') :
    d = d' ∧ leaf = leaf' := by
  obtain ⟨cs, h1, h2⟩ := h
  obtain ⟨cs', h3, h4⟩ := h'
  have heq : cs ++ [leaf] = cs' ++ [leaf'] := List.map_injective_iff.2 (Option.some_injective _)
    (h1.symm.trans h3)
  obtain ⟨rfl, hleaf⟩ := List.append_inj' heq rfl
  exact ⟨h2.unique hw hu (fromDir_dir hc path) h4, List.head_eq_of_cons_eq hleaf⟩

/-! ## After a change of one slot -/

section
variable (hf : Frame v v' d0 j0) (hdir : ¬ (v.Occupied d0 j0 ∧ v.slotIsDir d0 j0 = true))
include hf hdir

theorem Frame.subdir (he : Dir v e) (hk : v.Occupied e k) (hkd : v.slotIsDir e k = true) :
    Dir v' e ∧ v'.Occupied e k ∧
    v'.slotIsDir e k = true ∧ v'.slotStart e k = v.slotStart e k ∧
      v'.slotName e k = v.slotName e k := by
  have hne : (e, k) ≠ (d0, j0) := by
    intro h
    obtain ⟨rfl, rfl⟩ := Prod.mk.inj h
    exact hdir ⟨hk, hkd⟩
  obtain ⟨he', hk'⟩ := (hf.slot e k hne).2 ⟨he, hk⟩
  obtain ⟨hs, hn⟩ := hf.same e k hne he hk
  exact ⟨he', hk', hs.isDir.trans hkd, hs.start, hn.1⟩

/-- The directories stay. -/
theorem Frame.dir (hd : Dir v d) : Dir v' d := by
  induction hd with
  | root => exact .root
  | sub hp hk hkd _ =>
    obtain ⟨h1, h2, h3, h4, -⟩ := hf.subdir hdir hp hk hkd
    rw [← h4]
    exact .sub h1 h2 h3

theorem Next.frame (h : Next v x d e) (hd : Dir v d) : Next v' x d e := by
  cases h with
  | dot h => exact .dot h
  | top h1 h2 h0 => exact .top h1 h2 h0
  | up h1 h2 hp hk hkd he =>
    obtain ⟨h3, h4, h5, h6, -⟩ := hf.subdir hdir hp hk hkd
    exact .up h1 h2 h3 h4 h5 (h6.trans he)
  | down h1 h2 hk hkd hname he =>
    obtain ⟨-, h4, h5, h6, h7⟩ := hf.subdir hdir hd hk hkd
    exact .down h1 h2 h4 h5 (h7.trans hname) (h6.trans he)

theorem Leads.frame (h : Leads v d cs e) (hd : Dir v d) : Leads v' d cs e := by
  induction cs generalizing d with
  | nil => exact h
  | cons x cs ih =>
    obtain ⟨m, h1, h2⟩ := h
    exact ⟨m, h1.frame hf hdir hd, ih h2 (h1.dir hd)⟩

theorem Reaches.frame (h : Reaches v c path d leaf) (hc : Dir v c) : Reaches v' c path d leaf := by
  obtain ⟨cs, h1, h2⟩ := h
  exact ⟨cs, h1, h2.frame hf hdir (fromDir_dir hc path)⟩

end

/-! ## Walking -/

theorem goto_sees (hw : WellFormed v) (hF : F → Listable v) (hd : Dir v d) :
    Triple (Stands v) (do setCwd d; scanDir) (fun _ s => Sees F v s ∧ s.cwd = d) (Stands v) := by
  intro s hs
  have hb : Based v { s with cwd := d } :=
    ⟨⟨hs.vol.geo, hs.vol.disk, hs.vol.fat⟩, hs.rel.same rfl rfl rfl, hd, hs.saved⟩
  obtain ⟨h1, h2⟩ := scanDir_sees hw hF _ hb
  rw [exec_bind_of (exec_setCwd d s)]
  exact ⟨fun a ha => ⟨h1 a ha, (scanDir_cached _).cwd⟩, h2⟩

theorem leaveParent_sees (hw : WellFormed v) (hF : F → Listable v) :
    Triple (Sees F v) leaveParent (fun _ => Sees F v) (Stands v) := by
  apply Triple.read
  intro s hs
  refine .ite (fun _ => (goto_sees hw hF hs.saved).conseq (fun _ h => h.toStands) (fun _ _ h => h.1)
    fun _ h => h) fun _ => ?_
  exact Triple.pure.conseq (fun _ h => h) (fun _ _ h => h) fun _ h => h

/-- The parent of a directory. -/
theorem WellFormed.next_up (hw : WellFormed v) (hd : Dir v d) (h2 : 2 ≤ d) (h1 : isDot x = false)
    (hx : isDotDot x = true) :
    Next v x d (rdU16 (v.disk (v.geo.dataLba d)) 58) := by
  cases hd with
  | root => omega
  | sub hp hk hdir =>
    rw [((hw.slot _ _ hp hk).dir hdir).2.up]
    exact .up h1 hx hp hk hdir rfl

/-- The step to the parent, which the first sector names. -/
theorem goUp_sees (hw : WellFormed v) (hF : F → Listable v) (hs : Stands v s) (h2 : 2 ≤ s.cwd)
    (h1 : isDot x = false) (hx : isDotDot x = true) :
    Triple (fun s' => s' = s) (do
      let b ← bread s.dirLba
      setCwd (rdU16 b 58)
      scanDir) (fun _ s' => Sees F v s' ∧ Next v x s.cwd s'.cwd) (Stands v) := by
  have hlba : s.dirLba = v.geo.dataLba s.cwd := by rw [dirLba, if_neg (by omega), hs.vol.geo]
  have hup := hw.next_up hs.cwd h2 h1 hx
  have hgo := (goto_sees hw hF (hup.dir hs.cwd)).conseq (fun _ h => h)
    (fun _ s' h => (⟨h.1, by rw [h.2]; exact hup⟩ : Sees F v s' ∧ Next v x s.cwd s'.cwd))
    fun _ h => h
  refine Triple.bind (R := fun b s' => Stands v s' ∧ b = v.disk (v.geo.dataLba s.cwd)) ?_ fun b => ?_
  · rintro s' rfl
    refine ⟨fun b hb => ⟨hs.calm (bread_calm _ s'), ?_⟩, fun _ => hs.calm (bread_calm _ s')⟩
    rw [((bread_disk s'.disk _ s' rfl).1 b hb).1, hs.vol.disk, hlba]
  · rintro s' ⟨hs', rfl⟩
    exact hgo s' hs'

/-- The step to a subdirectory, which the cache has. -/
theorem goDown_sees (hw : WellFormed v) (hF : F → Listable v) (hs : Stands v s)
    (h1 : isDot x = false) (hx : isDotDot x = false) :
    Triple (fun s' => s' = s) (do
      let i ← orFailWith (s.findFile x)
      need (s.fileAt i).isDir
      setCwd (s.fileAt i).cluster
      scanDir) (fun _ s' => Sees F v s' ∧ Next v x s.cwd s'.cwd) (Stands v) := by
  have hst : ∀ s', s' = s → Stands v s' := fun s' e => e ▸ hs
  refine .take hst fun i hi => .check hst fun hdir => ?_
  obtain ⟨hget, hname⟩ := findFile_get hi
  obtain ⟨j, hj⟩ := hs.cache.entry i _ hget
  have hcl : v.slotStart s.cwd j = (s.fileAt i).cluster := by
    rcases hj.cluster with hc | ⟨hf, -⟩
    · exact hc.symm
    · rw [hdir] at hf
      cases hf
  have hdown : Next v x s.cwd (s.fileAt i).cluster := .down h1 hx hj.mem (hj.isDir.symm.trans hdir)
    (hj.name.symm.trans hname) hcl
  exact (goto_sees hw hF (hs.child hi hdir)).conseq hst
    (fun _ s' h => ⟨h.1, by rw [h.2]; exact hdown⟩) fun _ h => h

theorem chdirOne_leads (hw : WellFormed v) (hF : F → Listable v) (x : Name) :
    Triple (fun s => Sees F v s ∧ s.cwd = d) (chdirOne x)
    (fun _ s => Sees F v s ∧ Next v x d s.cwd) (Stands v) := by
  apply Triple.readAt
  rintro s ⟨hs, rfl⟩
  have hst := hs.toStands
  refine .ite (fun h1 => ?_) fun h1 => .ite (fun hx => .ite (fun hlt => ?_) fun hge => ?_) fun hx => ?_
  · exact .pureAt ⟨hs, .dot h1⟩
  · have h0 : s.cwd = 0 := by
      by_contra hne
      exact Nat.not_lt.2 (hw.two_le hst.cwd hne) hlt
    exact .pureAt ⟨hs, h0 ▸ .top (Bool.eq_false_iff.2 h1) hx rfl⟩
  · exact goUp_sees hw hF hst (Nat.le_of_not_lt hge) (Bool.eq_false_iff.2 h1) hx
  · exact goDown_sees hw hF hst (Bool.eq_false_iff.2 h1) (Bool.eq_false_iff.2 hx)

theorem enterFrom_leads (hw : WellFormed v) (hF : F → Listable v) (ps : List (Option Name)) : ∀ d : Nat,
    Triple (fun s => Sees F v s ∧ s.cwd = d) (enterFrom ps)
      (fun leaf s => Sees F v s ∧ ∃ cs, ps = (cs ++ [leaf]).map some ∧ Leads v d cs s.cwd) (Stands v) := by
  induction ps with
  | nil => exact fun d => Triple.failed.conseq (fun _ h => h.1.toStands) (fun _ _ h => h) fun _ h => h
  | cons p ps ih =>
    intro d
    match p, ps with
    | none, ps => exact Triple.failed.conseq (fun _ h => h.1.toStands) (fun _ _ h => h) fun _ h => h
    | some x, [] => exact Triple.pure.conseq (fun s h => ⟨h.1, [], rfl, h.2.symm⟩) (fun _ _ h => h) fun _ h => h
    | some x, none :: ps => exact Triple.failed.conseq (fun _ h => h.1.toStands) (fun _ _ h => h) fun _ h => h
    | some x, some y :: ps =>
      refine (chdirOne_leads hw hF x).bind fun _ s hs => ?_
      obtain ⟨h1, h2⟩ := hs
      obtain ⟨h3, h4⟩ := ih s.cwd s ⟨h1, rfl⟩
      refine ⟨fun leaf hl => ?_, h4⟩
      obtain ⟨h5, cs, h6, h7⟩ := h3 leaf hl
      refine ⟨h5, x :: cs, ?_, s.cwd, h2, h7⟩
      rw [h6]
      rfl

theorem enterWalk_leads (hw : WellFormed v) (hF : F → Listable v) (path : Name) :
    Triple (fun s => Sees F v s ∧ s.cwd = c) (do
      if path.head? = some slash then toRoot
      enterFrom (components path))
    (fun leaf s => Sees F v s ∧ Reaches v c path s.cwd leaf) (Stands v) := by
  have hgo : ∀ d, fromDir path c = d → Triple (fun s => Sees F v s ∧ s.cwd = d) (enterFrom (components path))
      (fun leaf s => Sees F v s ∧ Reaches v c path s.cwd leaf) (Stands v) := fun d hd =>
    (enterFrom_leads hw hF (components path) d).conseq (fun _ h => h) (fun leaf s h => ⟨h.1, by
      obtain ⟨cs, h1, h2⟩ := h.2
      exact ⟨cs, h1, hd ▸ h2⟩⟩) fun _ h => h
  refine .ite (fun h => ?_) fun h => hgo c ?_
  · refine .bind (R := fun _ s => Sees F v s ∧ s.cwd = fromDir path c) ?_ fun _ => hgo _ rfl
    unfold toRoot fromDir
    apply Triple.readAt
    rintro s ⟨hs, rfl⟩
    simp only [id, ge_iff_le, h, true_and]
    split
    · exact (goto_sees hw hF .root).conseq (fun _ e => e ▸ hs.toStands) (fun _ _ h => h) fun _ h => h
    · exact .pureAt ⟨hs, rfl⟩
  · unfold fromDir
    rw [if_neg fun hx => h hx.1]

/-- **`enter_parent` goes where the path leads.** -/
theorem enterParent_leads (hw : WellFormed v) (hF : F → Listable v) (path : Name) :
    Triple (fun s => Sees F v s ∧ s.cwd = c) (enterParent path)
    (fun leaf s => Sees F v s ∧ s.savedCwd = c ∧ Reaches v c path s.cwd leaf) (Stands v) := by
  have hwithin : Keeps Within (do
      if path.head? = some slash then toRoot
      enterFrom (components path)) :=
    .ite (fun _ => toRoot_within.bind fun _ => enterFrom_within _) fun _ => enterFrom_within _
  refine .bind (R := fun _ s => (Sees F v s ∧ s.cwd = c) ∧ s.savedCwd = c)
    (.change fun s h => ⟨⟨?_, h.2⟩, h.2⟩) fun _ =>
    .check (fun _ h => h.1.1.toStands) fun _ => .bind (R := fun leaf s => leaf.elim (Stands v s) fun leaf =>
      Sees F v s ∧ s.savedCwd = c ∧ Reaches v c path s.cwd leaf) (.result ?_) fun leaf => ?_
  · obtain ⟨⟨⟨⟨hv, hr, hc, -⟩, hb, hp, hca⟩, hfull⟩, -⟩ := h
    exact ⟨⟨⟨⟨hv.geo, hv.disk, hv.fat⟩, hr.same rfl rfl rfl, hc, hc⟩, hb, hp, hca⟩, hfull⟩
  · intro s hs
    obtain ⟨h1, h2⟩ := enterWalk_leads hw hF path s hs.1
    refine ⟨fun leaf hl => ?_, h2⟩
    obtain ⟨h3, h4⟩ := h1 leaf hl
    exact ⟨h3, (hwithin s).savedCwd.trans hs.2, h4⟩
  · cases leaf with
    | some leaf => exact Triple.pure.conseq (fun _ h => h) (fun _ _ h => h) fun _ h => h
    | none => exact Triple.bind (R := fun _ => Stands v) (leaveParent_stands hw).attempt fun _ => .failed

end VampireOS.Fs
