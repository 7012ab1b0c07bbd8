import VampireOS.Fs.Calls

/-!
# When a call that reads answers (kernel/fs.c:247-369, 1463-1531)

A volume whose directories list all their entries, each under a name of its own, and a page for
every file a directory can have: then nothing on the way of `fs_lookup` or `fs_stat` fails. The path
is walked to its end, the cache has the entry, and the way back scans again.
-/

namespace VampireOS.Fs

open Lib

variable {v s : Fs} {data : Bytes} {c d e i j k len p : Nat} {f : FileEnt} {files : List FileEnt}
    {leaf x path : Name} {cs : List Name}

/-- In the directory at `d`, with a complete cache and `p` pages for it. -/
structure Stocked (v : Fs) (p d : Nat) (s : Fs) : Prop extends Sees True v s where
  here : s.cwd = d
  room : s.room = p

/-- There are pages for any directory. -/
theorem fits_all (hp : fsMax ≤ p) (d : Nat) : Fits v p d := by
  have hlen : (v.listing d).length ≤ fsMax := by
    rw [listing_take]
    exact List.length_take_le _ _
  exact (List.countP_le_length.trans hlen).trans hp

/-- The cache has the entry of an occupied slot, under its name. -/
theorem Sees.finds (hs : Sees True v s) (hu : Distinct v) (hk : v.Occupied s.cwd k)
    (hn : v.slotName s.cwd k = x) (hx : x ≠ []) :
    ∃ i, s.findFile x = some i ∧ s.files[i]? = some (s.fileAt i) ∧ AtEntry v s.cwd k (s.fileAt i) := by
  cases hi : s.findFile x with
  | none => exact absurd hn (hs.absent hi hx trivial k hk)
  | some i =>
    obtain ⟨hget, hname⟩ := findFile_get hi
    obtain ⟨m, hm⟩ := hs.cache.entry i _ hget
    obtain rfl := hu _ hs.cwd m k hm.mem hk (hm.name.symm.trans (hname.trans hn.symm))
    exact ⟨i, rfl, hget, hm⟩

/-! ## Walking -/

/-- The first sector of a subdirectory can be read. -/
theorem Stands.bread_dir (hs : Stands v s) (hw : WellFormed v) (h2 : 2 ≤ s.cwd) :
    exec (bread s.dirLba) s = (some (v.disk (v.geo.dataLba s.cwd)), s) := by
  have hchain := hw.dirChain hs.cwd
  have hlba : s.dirLba = v.geo.dataLba s.cwd := by rw [dirLba, if_neg (by omega), hs.vol.geo]
  have hin := hs.rel.cluster h2 (hs.vol.geo ▸ hchain.chain.inside _ (hchain.self_mem h2))
  rw [hs.vol.geo, ← hlba] at hin
  rw [exec_bread hs.rel.errs hin, hs.vol.disk, hlba]

section
variable (hw : WellFormed v) (hl : Listable v) (hp : fsMax ≤ p)
include hw hl hp

theorem goto_stocked (hd : Dir v e) :
    Triple (Stocked v p d) (do setCwd e; scanDir) (fun _ => Stocked v p e) fun _ => False := by
  intro s hs
  have hm := scanDir_at (p := p) hw hd { s with cwd := e }
    ⟨⟨hs.vol.geo, hs.vol.disk, hs.vol.fat⟩, hs.rel.same rfl rfl rfl, rfl, hs.room⟩
  obtain ⟨h1, -⟩ := goto_sees hw (F := True) (fun _ => hl) hd s hs.toStands
  rw [exec_bind_of (exec_setCwd e s)] at h1 ⊢
  exact ⟨fun a ha => ⟨(h1 a ha).1, (h1 a ha).2, (hm.1 a ha).1.room⟩, fun hn => hm.2 hn (fits_all hp e)⟩

variable (hu : Distinct v)
include hu

theorem chdirOne_stocked (hx : x ≠ []) (h : Next v x d e) (hd : Dir v d) :
    Triple (Stocked v p d) (chdirOne x) (fun _ => Stocked v p e) fun _ => False := by
  have hgo := goto_stocked (d := d) hw hl hp (h.dir hd)
  apply Triple.readAt
  rintro s hs
  simp only [id]
  cases h with
  | dot h1 =>
    rw [if_pos h1]
    exact .pureAt hs
  | top h1 h2 h0 =>
    rw [if_neg (by simp [h1]), if_pos h2, if_pos (by rw [hs.here, h0]; decide)]
    exact .pureAt (h0 ▸ hs)
  | up h1 h2 hp' hk hdir hst =>
    have h2' : 2 ≤ s.cwd := by
      rw [hs.here, ← hst]
      exact hw.sub_cluster hp' hk hdir
    have hup : rdU16 (v.disk (v.geo.dataLba s.cwd)) 58 = e := by
      rw [hs.here, ← hst]
      exact ((hw.slot _ _ hp' hk).dir hdir).2.up
    rw [if_neg (by simp [h1]), if_pos h2, if_neg (by omega)]
    rintro s' rfl
    rw [exec_bind_of (hs.bread_dir hw h2'), hup]
    exact hgo s' hs
  | down h1 h2 hk hdir hname hst =>
    rw [← hs.here] at hk hdir hname hst
    obtain ⟨i, hi, -, hentry⟩ := hs.toSees.finds hu hk hname hx
    have hkind : (s.fileAt i).isDir = true := hentry.isDir.trans hdir
    have hcl : (s.fileAt i).cluster = e := by
      rcases hentry.cluster with hc | ⟨hf, -⟩
      · exact hc.trans hst
      · rw [hkind] at hf
        cases hf
    rw [if_neg (by simp [h1]), if_neg (by simp [h2]), hi]
    rintro s' rfl
    rw [exec_bind_of (exec_orFailWith _ _), exec_bind_of (show exec (need (s'.fileAt i).isDir) s' =
      (some (), s') by simp [hkind]), hcl]
    exact hgo s' hs

theorem enterFrom_stocked (hcs : ∀ x ∈ cs, x ≠ []) (h : Leads v d cs e) (hd : Dir v d) :
    Triple (Stocked v p d) (enterFrom ((cs ++ [leaf]).map some)) (fun l s => l = leaf ∧
    Stocked v p e s) fun _ => False := by
  induction cs generalizing d with
  | nil =>
    obtain rfl := h
    exact Triple.pure.conseq (fun _ hs => ⟨rfl, hs⟩) (fun _ _ h => h) fun _ h => h
  | cons x cs ih =>
    obtain ⟨m, h1, h2⟩ := h
    have hrest := ih (fun y hy => hcs y (List.mem_cons_of_mem _ hy)) h2 (h1.dir hd)
    have hstep := (chdirOne_stocked hw hl hp hu (hcs x List.mem_cons_self) h1 hd).bind fun _ => hrest
    cases cs with
    | nil => exact hstep
    | cons y cs => exact hstep

/-- **`enter_parent` gets to where the path leads.** -/
theorem enterParent_stocked (hr : Reaches v c path d leaf) (hc : Dir v c) :
    Triple (Stocked v p c) (enterParent path)
    (fun l s => l = leaf ∧ Stocked v p d s ∧ s.savedCwd = c) fun _ => False := by
  obtain ⟨cs, hpath, hlead⟩ := hr
  have hcs : ∀ x ∈ cs, x ≠ [] := fun x hx => (components_ok (p := path) (by rw [hpath]; simp [hx])).1
  have hne : path ≠ [] := by
    rintro rfl
    simp [components] at hpath
  have hwithin : Keeps Within (do
      if path.head? = some slash then toRoot
      enterFrom (components path)) :=
    .ite (fun _ => toRoot_within.bind fun _ => enterFrom_within _) fun _ => enterFrom_within _
  have hfrom : ∀ d', fromDir path c = d' → Triple (Stocked v p d') (enterFrom (components path))
      (fun l s => l = leaf ∧ Stocked v p d s) fun _ => False := by
    rintro d' rfl
    rw [hpath]
    exact enterFrom_stocked hw hl hp hu hcs hlead (fromDir_dir hc path)
  have hwalk : Triple (Stocked v p c) (do
      if path.head? = some slash then toRoot
      enterFrom (components path)) (fun l s => l = leaf ∧ Stocked v p d s) fun _ => False := by
    refine .ite (fun h => ?_) fun h => hfrom c (if_neg fun hx => h hx.1)
    refine .bind (R := fun _ => Stocked v p (fromDir path c)) (Triple.readAt fun s hs => ?_)
      fun _ => hfrom _ rfl
    unfold fromDir
    simp only [id, ge_iff_le, h, true_and, hs.here]
    split
    · exact (goto_stocked hw hl hp .root).conseq (fun _ e => e ▸ hs) (fun _ _ h => h) fun _ h => h
    · exact .pureAt hs
  refine .bind (R := fun _ s => Stocked v p c s ∧ s.savedCwd = c) (.change fun s hs => ?_) fun _ => ?_
  · obtain ⟨⟨⟨⟨hv, hrel, hd, -⟩, hb, hpage, hcache⟩, hfull⟩, hhere, hroom⟩ := hs
    exact ⟨⟨⟨⟨⟨⟨hv.geo, hv.disk, hv.fat⟩, hrel.same rfl rfl rfl, hd, hd⟩, hb, hpage, hcache⟩,
      hfull⟩, hhere, hroom⟩, hhere⟩
  · rintro s ⟨hs, hsaved⟩
    have hsub := hwithin s
    obtain ⟨h1, h2⟩ := hwalk s hs
    rw [exec_bind_of (show exec (need _) s = (some (), s) by simp [hne]), exec_bind_of (exec_result _ _)]
    cases hx : (exec (do
      if path.head? = some slash then toRoot
      enterFrom (components path)) s).1 with
    | none => exact (h2 hx).elim
    | some l =>
      obtain ⟨rfl, h3⟩ := h1 l hx
      exact ⟨fun a ha => ⟨(Option.some.inj ha).symm, h3, hsub.savedCwd.trans hsaved⟩, nofun⟩

end

/-! ## `fs_lookup` and `fs_stat` -/

/-- What cannot fail answers. -/
theorem answers {α : Type} {m : FsM α} {P : Fs → Prop} {Q : α → Fs → Prop}
    (h : Triple P m Q fun _ => False) (hs : P s) :
    ∃ a, (exec m s).1 = some a := by
  cases hx : (exec m s).1 with
  | none => exact ((h s hs).2 hx).elim
  | some a => exact ⟨a, rfl⟩

theorem heldPages_le (files : List FileEnt) : heldPages files ≤ files.length := by
  induction files with
  | nil => exact Nat.le_refl _
  | cons f files ih =>
    have hone : f.data.toList.length ≤ 1 := by cases f.data <;> simp
    have hsum : heldPages (f :: files) = f.data.toList.length + heldPages files := by simp [heldPages]
    rw [hsum, List.length_cons]
    omega

/-- There is a page for the view, or it has one. -/
theorem viewPage_answers (hl : Listable v) :
    Triple (fun s => Sees True v s ∧ fsMax < s.room) viewPage (fun _ s => Sees True v s ∧
    fsMax ≤ s.room) fun _ => False := by
  rintro s ⟨hs, hroom⟩
  have hpages : s.pages ≠ 0 := fun h0 => by
    have hheld : s.room ≤ fsMax := by
      unfold room
      rw [h0, Nat.zero_add]
      exact (heldPages_le _).trans (hs.cache.length_le.trans (hl.card hs.cwd))
    omega
  obtain ⟨h1, -⟩ := viewPage_sees s hs
  unfold viewPage at h1 ⊢
  rw [exec_bind_of (exec_gets _ _)] at h1 ⊢
  simp only [id] at h1 ⊢
  cases hv : s.view with
  | some w =>
    rw [hv] at h1
    exact ⟨fun a ha => ⟨h1 a ha, Nat.le_of_lt hroom⟩, nofun⟩
  | none =>
    rw [hv] at h1
    dsimp only at h1 ⊢
    rw [exec_bind_of (exec_pageBuf hpages)] at h1 ⊢
    refine ⟨fun a ha => ⟨h1 a ha, ?_⟩, nofun⟩
    show fsMax ≤ s.pages - 1 + heldPages s.files
    unfold room at hroom
    omega

section
variable (hw : WellFormed v) (hl : Listable v)
include hw hl

/-- The way back does not fail either. -/
theorem leaveParent_answers :
    Triple (fun s => Sees True v s ∧ fsMax ≤ s.room) leaveParent (fun _ _ => True) fun _ => False := by
  refine .readAt fun s hs => ?_
  obtain ⟨hs, hroom⟩ := hs
  have hgo := goto_stocked (d := s.cwd) hw hl hroom hs.saved
  have hhere : ∀ s', s' = s → Stocked v s.room s.cwd s' :=
    fun s' e => e ▸ (⟨hs, rfl, rfl⟩ : Stocked v s.room s.cwd s)
  exact .ite (fun _ => hgo.conseq hhere (fun _ _ _ => trivial) fun _ h => h) fun _ => .pureAt trivial

theorem thenLeave_answers {α : Type} {body : FsM α} {P : Fs → Prop}
    (h : Triple P body (fun _ s => Sees True v s ∧ fsMax ≤ s.room) fun _ => False) :
    Triple P (thenLeave body) (fun _ _ => True) fun _ => False :=
  thenLeave_rule h (fun _ => leaveParent_answers hw hl) fun _ h => h.elim

variable (hu : Distinct v)
include hu

/-- The entry is found, and its contents are handed out. -/
theorem lookupBody_answers (hs : Sees True v s) (hroom : fsMax < s.room)
    (hf : FileAt v s.cwd j leaf data len) (hne : leaf ≠ []) :
    Triple (fun x => x = s) (do
      let s ← gets id
      let i ← orFailWith (s.findFile leaf)
      need (!(s.fileAt i).isDir && (s.fileAt i).data.isSome)
      let len ← refresh i
      let s ← gets id
      let data := (s.fileAt i).data.getD s.junk
      if s.cwd ≠ s.savedCwd then
        let v ← viewPage
        let v := putBytes v 0 data len
        upd fun s => { s with view := some v }
        pure (v, len)
      else pure (data, len)) (fun _ x => Sees True v x ∧ fsMax ≤ x.room) fun _ => False := by
  obtain ⟨i, hi, hget, hat⟩ := hs.finds hu hf.mem hf.name hne
  have hfile : (s.fileAt i).isDir = false := hat.isDir.trans hf.isDir
  obtain ⟨page, hpage, -⟩ := hat.page hfile
  obtain ⟨u, data', h1, h2, h3, -, h4⟩ := refresh_reads hw hs hget hat hfile
  rintro x rfl
  rw [exec_bind_of (exec_gets _ _)]
  simp only [id]
  rw [hi, exec_bind_of (exec_orFailWith _ _),
    exec_bind_of (show exec (need _) x = (some (), x) by simp [hfile, hpage]), exec_bind_of h1,
    exec_bind_of (exec_gets _ _)]
  refine (?_ : Triple (fun y => Sees True v y ∧ fsMax < y.room) _ (fun _ y => Sees True v y ∧
    fsMax ≤ y.room) fun _ => False) u ⟨h2, h4 ▸ hroom⟩
  refine .ite (fun _ => ?_) fun _ => ?_
  · exact (viewPage_answers hl).bind fun w => Triple.bind (R := fun _ y => Sees True v y ∧ fsMax ≤ y.room)
      (Triple.change fun y h => ⟨h.1.calm ⟨rfl, id⟩, h.2⟩) fun _ => Triple.pure.conseq
        (fun _ h => h) (fun _ _ h => h) fun _ h => h
  · exact Triple.pure.conseq (fun _ h => ⟨h.1, Nat.le_of_lt h.2⟩) (fun _ _ h => h) fun _ h => h

/-- **`fs_lookup` finds every file that a path leads to**, when there are pages for the files of a
directory and the view. -/
theorem fsLookup_answers (hs : Sees True v s) (hroom : fsMax < s.room)
    (hr : Reaches v s.cwd path d leaf) (hf : FileAt v d j leaf data len) :
    ∃ r, (exec (fsLookup path) s).1 = some r := by
  have hbody : Triple (Stocked v s.room s.cwd) (fsLookup path) (fun _ _ => True) fun _ => False := by
    refine (enterParent_stocked hw hl (Nat.le_of_lt hroom) hu hr hs.cwd).bind fun l => ?_
    rintro x ⟨rfl, hx, -⟩
    refine thenLeave_answers hw hl (lookupBody_answers hw hl hu hx.toSees ?_ (hx.here.symm ▸ hf)
      hr.leaf_ne) x rfl
    rw [hx.room]
    exact hroom
  exact answers hbody ⟨hs, rfl, rfl⟩

/-- **`fs_stat` finds every entry that a path leads to.** -/
theorem fsStat_answers (hs : Sees True v s) (hroom : fsMax ≤ s.room)
    (hr : Reaches v s.cwd path d leaf) (hk : v.Occupied d k) (hn : v.slotName d k = leaf) :
    ∃ r, (exec (fsStat path) s).1 = some r := by
  have hbody : Triple (Stocked v s.room s.cwd) (fsStat path) (fun _ _ => True) fun _ => False := by
    refine (enterParent_stocked hw hl hroom hu hr hs.cwd).bind fun l => ?_
    rintro x ⟨rfl, hx, -⟩
    refine thenLeave_answers hw hl (P := fun y => y = x) ?_ x rfl
    rw [← hx.here] at hk hn
    obtain ⟨i, hi, -, -⟩ := hx.toSees.finds hu hk hn hr.leaf_ne
    obtain ⟨u, h1, hpage⟩ := dirLoad_pageAt hw hx.toStands
    have hstate := hpage.state
    have hroom' : u.room = x.room := by rw [hstate]; rfl
    rintro y rfl
    rw [exec_bind_of (exec_gets _ _)]
    simp only [id]
    rw [hi, exec_bind_of (exec_orFailWith _ _), exec_bind_of h1]
    refine ⟨fun _ _ => ⟨hpage.sees hx.toSees, ?_⟩, nofun⟩
    show fsMax ≤ u.room
    rw [hroom', hx.room]
    exact hroom
  exact answers hbody ⟨hs, rfl, rfl⟩

end

end VampireOS.Fs
