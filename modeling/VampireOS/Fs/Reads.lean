import VampireOS.Fs.Listed

/-!
# Calls that read (kernel/fs.c:304-369, 1420-1531, 1579-1591)

`Over P s`: the state stands on a well-formed volume with `P`, and `Settled F P s`: the cache and
the listings are complete as well. The way back of a call keeps that, so what the body of a call has
done to the volume is what the call has done. `fs_lookup` and `fs_stat` answer for a slot that the
path leads to.
-/

namespace VampireOS.Fs

open Lib

variable {α : Type} {v v' u s s' : Fs} {b data : Bytes} {c d i j k n len : Nat} {f g : FileEnt}
    {leaf path : Name} {F : Prop}

/-! ## Enter, do something, and leave -/

def Over (P : Fs → Prop) (s : Fs) : Prop := ∃ v', WellFormed v' ∧ Stands v' s ∧ P v'

theorem Over.mono {P P' : Fs → Prop} (h : Over P s) (hp : ∀ v', P v' → P' v') : Over P' s := by
  obtain ⟨v', h1, h2, h3⟩ := h
  exact ⟨v', h1, h2, hp v' h3⟩

theorem Stands.over {P : Fs → Prop} (h : Stands v s) (hw : WellFormed v) (hp : P v) : Over P s :=
  ⟨v, hw, h, hp⟩

/-- What holds for each volume holds over it. -/
theorem over_stays {P : Fs → Prop} {m : FsM α} (h : ∀ v', WellFormed v' → Stays (Stands v') m) :
    Stays (Over P) m := by
  rintro s ⟨v', h1, h2, h3⟩
  obtain ⟨h4, h5⟩ := h v' h1 s h2
  exact ⟨fun a ha => ⟨v', h1, h4 a ha, h3⟩, fun hn => ⟨v', h1, h5 hn, h3⟩⟩

/-- `Over` with a complete cache, and with directories that are listed whole, if `F`. -/
def Settled (F : Prop) (P : Fs → Prop) (s : Fs) : Prop :=
  ∃ v', WellFormed v' ∧ Sees F v' s ∧ (F → Listable v') ∧ P v'

theorem Settled.over {P : Fs → Prop} (h : Settled F P s) : Over P s := by
  obtain ⟨v', h1, h2, -, h4⟩ := h
  exact ⟨v', h1, h2.toStands, h4⟩

theorem Settled.mono {P P' : Fs → Prop} (h : Settled F P s) (hp : ∀ v', P v' → P' v') : Settled F P' s := by
  obtain ⟨v', h1, h2, h3, h4⟩ := h
  exact ⟨v', h1, h2, h3, hp v' h4⟩

theorem Sees.settled {P : Fs → Prop} (h : Sees F v s) (hw : WellFormed v) (hl : F → Listable v)
    (hp : P v) : Settled F P s := ⟨v, hw, h, hl, hp⟩

/-- One slot of the directory has changed, and the cache has an entry for each. -/
theorem Stands.settled {P : Fs → Prop} (h : Stands v' s) (hw : WellFormed v')
    (hf : Frame v v' s.cwd j) (hl : F → Listable v)
    (hn : F → (v'.slots s.cwd).card ≤ s.files.length ∧ (v'.slots s.cwd).card ≤ fsMax) (hp : P v') :
    Settled F P s :=
  ⟨v', hw, ⟨h, fun hF => (h.whole hw hf (hl hF) (hn hF)).1⟩, fun hF => (h.whole hw hf (hl hF) (hn hF)).2, hp⟩

theorem leaveFail_over {P : Fs → Prop} {R : α → Fs → Prop} : Triple (Over P) (leaveFail : FsM α) R (Over P) :=
  Triple.bind (R := fun _ => Over P) (over_stays fun _ hw => leaveParent_stands hw).attempt fun _ => .failed

/-- The body, and the way back, from either outcome. -/
theorem thenLeave_rule {P E : Fs → Prop} {R R' : α → Fs → Prop} {body : FsM α}
    (h : Triple P body R E) (hr : ∀ a, Triple (R a) leaveParent (fun _ => R' a) E)
    (he : Stays E leaveParent) : Triple P (thenLeave body) R' E := by
  refine .bind (R := fun r s => r.elim (E s) fun a => R a s) (.result h) fun r => ?_
  cases r with
  | none => exact Triple.bind (R := fun _ => E) he fun _ => .failed
  | some a => exact Triple.bind (R := fun _ => R' a) (hr a) fun _ => .pure

/-- The way back changes nothing on the volume. -/
theorem thenLeave_settled {P E : Fs → Prop} {Q : α → Fs → Prop} {body : FsM α}
    (h : Triple P body (fun a => Settled F (Q a)) (Over E)) (hq : ∀ a v', Q a v' → E v') :
    Triple P (thenLeave body) (fun a => Settled F (Q a)) (Over E) := by
  refine thenLeave_rule h (fun a s hs => ?_) (over_stays fun _ hw => leaveParent_stands hw)
  obtain ⟨v', hw, hs, hl, hp⟩ := hs
  obtain ⟨h1, h2⟩ := leaveParent_sees hw hl s hs
  exact ⟨fun r hr => ⟨v', hw, h1 r hr, hl, hp⟩, fun hn => ⟨v', hw, h2 hn, hq a v' hp⟩⟩

/-- A body that reads: its answer is about the volume. -/
theorem thenLeave_reads (hw : WellFormed v) (hF : F → Listable v) {P : Fs → Prop} {X : α → Prop}
    {body : FsM α} (h : Triple P body (fun a s => Sees F v s ∧ X a) (Stands v)) :
    Triple P (thenLeave body) (fun a s => Sees F v s ∧ X a) (Stands v) := by
  refine thenLeave_rule h (fun a s hs => ?_) (leaveParent_stands hw)
  obtain ⟨h1, h2⟩ := leaveParent_sees hw hF s hs.1
  exact ⟨fun r hr => ⟨h1 r hr, hs.2⟩, h2⟩

/-- The body starts in the directory that the path leads to. -/
theorem enter_over (hw : WellFormed v) (hF : F → Listable v) {Q : α → Fs → Prop} {E : Fs → Prop}
    {k : Name → FsM α} (hE : E v)
    (h : ∀ leaf s, Sees F v s → Reaches v c path s.cwd leaf → Triple (fun x => x = s) (k leaf) Q
      (Over E)) :
    Triple (fun s => Sees F v s ∧ s.cwd = c) (enterParent path >>= k) Q (Over E) := by
  refine .bind ((enterParent_leads hw hF path).conseq (fun _ h => h) (fun _ _ h => h) fun _ h =>
    h.over hw hE) fun leaf s hs => ?_
  exact h leaf s hs.1 hs.2.2 s rfl

/-! ## A file is read again -/

theorem AtEntry.fileAt (h : AtEntry v d j f) (hw : WellFormed v) (hd : Dir v d)
    (hfile : f.isDir = false) (ha : Agree data (v.fileBytes f.cluster) f.len) :
    FileAt v d j f.name data f.len := by
  refine ⟨h.mem, h.isDir.symm.trans hfile, h.name.symm, (h.len hfile).symm, fun b hb => ?_⟩
  rcases h.cases hw hd with ⟨hc, -⟩ | ⟨-, -, h0⟩
  · rw [← hc]
    exact (ha b hb).symm
  · rw [h0 hfile] at hb
    exact absurd hb (Nat.not_lt_zero _)

/-- The chain of a cached entry covers the file. -/
theorem AtEntry.covers (h : AtEntry v d j f) (hw : WellFormed v) (hd : Dir v d) (hfile : f.isDir = false) :
    f.len ≤ fileMax ∧ f.len ≤ secSize * (v.chainAt f.cluster).length := by
  rcases h.cases hw hd with ⟨hc, -⟩ | ⟨-, -, h0⟩
  · obtain ⟨h1, h2⟩ := (hw.slot d j hd h.mem).file (h.isDir.symm.trans hfile)
    rw [h.len hfile, hc]
    exact ⟨h1, h2⟩
  · rw [h0 hfile]
    exact ⟨Nat.zero_le _, Nat.zero_le _⟩

/-- The page of an entry is another one with the same contents. -/
theorem Stands.reload (hs : Stands v s) (hi : s.files[i]? = some f) {g : FileEnt}
    (hg : g = { f with data := some data }) (ha : Agree data (v.fileBytes f.cluster) f.len) :
    Stands v { s with files := s.files.set i g } := by
  have hlt : i < s.files.length := (List.getElem?_eq_some_iff.1 hi).1
  have hget : ∀ (a : Nat) x, (s.files.set i g)[a]? = some x → ∃ y, s.files[a]? = some y ∧
    x.dirOff = y.dirOff ∧ x.cluster = y.cluster ∧
      ∀ m, AtEntry v s.cwd m y → AtEntry v s.cwd m x := by
    intro a x hx
    rw [List.getElem?_set] at hx
    split at hx
    · next e =>
      subst e
      obtain rfl := Option.some.inj hx
      refine ⟨f, hi, by rw [hg], by rw [hg], fun m hm => ?_⟩
      subst hg
      exact ⟨hm.mem, hm.name, hm.off, hm.isDir, hm.cluster, hm.len, fun _ => ⟨data, rfl, ha⟩, hm.mark⟩
    · exact ⟨x, hx, rfl, rfl, fun _ h => h⟩
  refine ⟨hs.toBased.of ⟨rfl, rfl, rfl⟩ id rfl rfl rfl, hs.bytes, hs.page, fun a x hx => ?_,
    fun a e x y hne hx hy => ?_⟩
  · obtain ⟨y, hy, -, -, hat⟩ := hget a x hx
    obtain ⟨m, hm⟩ := hs.cache.entry a y hy
    exact ⟨m, hat m hm⟩
  · obtain ⟨x', hx', h1, h2, -⟩ := hget a x hx
    obtain ⟨y', hy', h3, h4, -⟩ := hget e y hy
    obtain ⟨h5, h6⟩ := hs.cache.apart a e x' y' hne hx' hy'
    unfold Apart
    rw [h1, h2, h3, h4]
    exact ⟨h5, h6⟩

/-- The cache has an entry for every slot it had one for. -/
theorem Sees.reload (hs : Sees F v s) (hi : s.files[i]? = some f) {g : FileEnt}
    (hg : g = { f with data := some data }) (ha : Agree data (v.fileBytes f.cluster) f.len) :
    Sees F v { s with files := s.files.set i g } := by
  refine ⟨hs.toStands.reload hi hg ha, fun hF j hj => ?_⟩
  obtain ⟨x, hx, hat⟩ := hs.full hF j hj
  obtain ⟨k, hk⟩ := List.mem_iff_getElem?.1 hx
  by_cases hki : k = i
  · subst hki
    obtain rfl : x = f := Option.some.inj (hk.symm.trans hi)
    refine ⟨g, List.mem_of_getElem? (List.getElem?_set_self (List.getElem?_eq_some_iff.1 hi).1), ?_⟩
    subst hg
    exact ⟨hat.mem, hat.name, hat.off, hat.isDir, hat.cluster, hat.len, fun _ => ⟨data, rfl, ha⟩, hat.mark⟩
  · refine ⟨x, List.mem_of_getElem? (i := k) ?_, hat⟩
    rw [List.getElem?_set_ne fun e => hki e.symm]
    exact hk

theorem PageAt.sees (h : PageAt v s u s.cwd) (hs : Sees F v s) : Sees F v u := by
  refine ⟨h.stands hs.toStands, fun hF => ?_⟩
  have := hs.full hF
  rw [h.state]
  exact this

theorem set_self {α : Type} {l : List α} {x : α} (h : l[i]? = some x) : l.set i x = l := by
  obtain ⟨hlt, rfl⟩ := List.getElem?_eq_some_iff.1 h
  exact List.set_getElem_self hlt

/-- The entry of the loaded directory has what the slot has. -/
theorem PageAt.slot (h : PageAt v s u d) (hj : j < v.dirLen d) :
    rdU32 u.dir (32 * j + 28) = v.slotSize d j ∧ rdU16 u.dir (32 * j + 26) = v.slotStart d j :=
  ⟨h.page.rdU32 (by omega), h.page.rdU16 (by omega)⟩

/-- A cached file has one page, whatever is in it. -/
theorem heldPages_set {files : List FileEnt} (h : files[i]? = some f)
    (hg : g.data.toList.length = f.data.toList.length) :
    heldPages (files.set i g) = heldPages files := by
  obtain ⟨hi, rfl⟩ := List.getElem?_eq_some_iff.1 h
  unfold heldPages
  rw [List.map_set, hg]
  congr 1
  exact set_self (List.getElem?_eq_some_iff.2 ⟨by simpa using hi, by simp⟩)

/-- `refresh` cannot fail here, and the page has the contents of the file. -/
theorem refresh_reads (hw : WellFormed v) (hs : Sees F v s) (hi : s.files[i]? = some f)
    (hf : AtEntry v s.cwd j f) (hfile : f.isDir = false) :
    ∃ u data, exec (refresh i) s = (some f.len, u) ∧ Sees F v u ∧
    u.files[i]? = some { f with data := some data } ∧
      Agree data (v.fileBytes f.cluster) f.len ∧ u.room = s.room := by
  obtain ⟨u, h1, hpage⟩ := dirLoad_pageAt hw hs.toStands
  have hu := hpage.sees hs
  have hstate := hpage.state
  have hfiles : u.files = s.files := by rw [hstate]
  have hget : u.files[i]? = some f := hfiles ▸ hi
  have hlen : rdU32 u.dir (f.dirOff + 28) = f.len := by
    rw [hf.off, (hpage.slot hf.mem.1).1]
    exact (hf.len hfile).symm
  obtain ⟨hmax, hcover⟩ := hf.covers hw hs.cwd hfile
  obtain ⟨data, h2, h3⟩ := loadFile_total hu.rel ((hf.chain hw hs.cwd).sameVol hu.vol)
    (v.chainAt_length _) hcover (f.data.getD u.junk)
  rw [hu.vol.fileBytes] at h3
  have hmod : u.files.modify i (fun f' => { f' with len := f.len }) = u.files := by
    rw [modify_eq_set hget]
    exact set_self hget
  obtain ⟨old, hold, -⟩ := hf.page hfile
  have hheld : heldPages (u.files.set i { f with data := some data }) = heldPages s.files := by
    rw [heldPages_set hget (by rw [hold]; rfl), hfiles]
  have hset : u.files.modify i (fun f' => { f' with data := some data }) = u.files.set i
      { f with data := some data } := modify_eq_set hget _
  refine ⟨{ u with files := u.files.set i { f with data := some data } }, data, ?_,
    hu.reload hget rfl h3, ?_, h3, ?_⟩
  · unfold refresh
    rw [exec_bind_of h1, exec_bind_of (exec_gets _ _)]
    simp only [id, fileAt_set hget, hlen]
    rw [exec_bind_of (exec_modFile _ _ _), hmod,
      exec_bind_of (show exec (need _) u = (some (), u) by simp [hmax]), exec_bind_of h2]
    dsimp only
    rw [exec_bind_of (exec_modFile _ _ _), hset]
    rfl
  · exact List.getElem?_set_self (List.getElem?_eq_some_iff.1 hget).1
  · unfold room
    dsimp only
    rw [hheld, hstate]

theorem calm_sees {m : FsM α} (h : Keeps Calm m) : Stays (Sees F v) m := h.stays fun _ _ hc hs => hs.calm hc

theorem viewPage_sees : Stays (Sees F v) viewPage := by
  refine .read fun s _ => ?_
  simp only [id]
  split
  · exact .pure
  · exact (calm_sees pageBuf_calm).bind fun page => .bind (calm_sees (.upd fun _ => ⟨rfl, id⟩)) fun _ => .pure

/-! ## `fs_lookup` and `fs_stat` -/

theorem lookupBody_file (hw : WellFormed v) (hs : Sees F v s) (leaf : Name) : Triple (fun x => x = s) (do
      let s ← gets id
      let i ← orFailWith (s.findFile leaf)
      need (!(s.fileAt i).isDir && (s.fileAt i).data.isSome)
      let len ← refresh i
      let s ← gets id
      let data := (s.fileAt i).data.getD s.junk
      if s.cwd ≠ s.savedCwd then
        let v ← viewPage
        let v := putBytes v 0 data len
        upd fun s => { s with view := some v }
        pure (v, len)
      else pure (data, len))
    (fun r x => Sees F v x ∧ ∃ j, FileAt v s.cwd j leaf r.1 r.2) (Stands v) := by
  refine .readAt fun x hx => ?_
  subst hx
  simp only [id]
  have hst : ∀ y, y = x → Stands v y := fun y e => e ▸ hs.toStands
  refine .take hst fun i hi => .check hst fun hneed => ?_
  have hfile : (x.fileAt i).isDir = false := by
    rw [Bool.and_eq_true, Bool.not_eq_true'] at hneed
    exact hneed.1
  obtain ⟨hget, hname⟩ := findFile_get hi
  obtain ⟨j, hj⟩ := hs.cache.entry i _ hget
  obtain ⟨u, data, h1, hu, h2, h3, -⟩ := refresh_reads hw hs hget hj hfile
  have hat := hj.fileAt hw hs.cwd hfile h3
  rw [hname] at hat
  rintro y rfl
  rw [exec_bind_of h1, exec_bind_of (exec_gets _ _)]
  simp only [id, fileAt_set h2, Option.getD_some]
  suffices hend : Triple (Sees F v) (if u.cwd ≠ u.savedCwd then do
      let v ← viewPage
      upd fun s => { s with view := some (putBytes v 0 data (y.fileAt i).len) }
      pure (putBytes v 0 data (y.fileAt i).len, (y.fileAt i).len)
    else pure (data, (y.fileAt i).len)) (fun r x => Sees F v x ∧ ∃ j, FileAt v y.cwd j leaf r.1 r.2)
      (Stands v) from hend u hu
  have hview : Triple (Sees F v) viewPage (fun _ => Sees F v) (Stands v) :=
    viewPage_sees.conseq (fun _ h => h) (fun _ _ h => h) fun _ h => h.toStands
  refine .ite (fun _ => Triple.bind hview fun w => ?_) fun _ => ?_
  · refine Triple.bind (R := fun _ => Sees F v) (Triple.change fun _ h => h.calm ⟨rfl, id⟩) fun _ => ?_
    refine Triple.pure.conseq (fun x hx => ⟨hx, j, hat.agree fun b hb => ?_⟩) (fun _ _ h => h) fun _ h => h
    show data b = putBytes w 0 data (y.fileAt i).len b
    unfold putBytes
    rw [if_pos (by omega), Nat.sub_zero]
  · exact Triple.pure.conseq (fun x hx => ⟨hx, j, hat⟩) (fun _ _ h => h) fun _ h => h

/-- Enter and read. -/
theorem enter_reads (hw : WellFormed v) (hF : F → Listable v) {X : α → Prop} {k : Name → FsM α}
    (h : ∀ leaf s, Sees F v s → Reaches v c path s.cwd leaf → Triple (fun x => x = s) (k leaf)
      (fun a s => Sees F v s ∧ X a) (Stands v)) :
    Triple (fun s => Sees F v s ∧ s.cwd = c) (enterParent path >>= fun leaf => thenLeave (k leaf))
      (fun a s => Sees F v s ∧ X a) (Stands v) := by
  refine .bind (enterParent_leads hw hF path) fun leaf s hs => ?_
  exact thenLeave_reads hw hF (h leaf s hs.1 hs.2.2) s rfl

/-- **`fs_lookup`** answers with the size and the contents of a file that the path leads to. -/
theorem fsLookup_reads (hw : WellFormed v) (hF : F → Listable v) (path : Name) :
    Triple (fun s => Sees F v s ∧ s.cwd = c) (fsLookup path)
    (fun r s => Sees F v s ∧ ∃ d j leaf, Reaches v c path d leaf ∧ FileAt v d j leaf r.1 r.2)
    (Stands v) := by
  refine enter_reads hw hF fun leaf s hs hr => ?_
  refine (lookupBody_file hw hs leaf).conseq (fun _ h => h) (fun r x h => ?_) fun _ h => h
  obtain ⟨h1, j, h2⟩ := h
  exact ⟨h1, s.cwd, j, leaf, hr, h2⟩

/-- **`fs_stat`** answers for a slot that the path leads to. -/
theorem fsStat_reads (hw : WellFormed v) (hF : F → Listable v) (path : Name) :
    Triple (fun s => Sees F v s ∧ s.cwd = c) (fsStat path)
    (fun r s => Sees F v s ∧ ∃ d j leaf, Reaches v c path d leaf ∧ v.Occupied d j ∧ v.slotName d j = leaf ∧
      r = (v.slotSize d j, v.slotStart d j, v.slotIsDir d j)) (Stands v) := by
  refine enter_reads hw hF fun leaf s hs hr => .readAt fun x hx => ?_
  subst hx
  refine .take (fun y e => e ▸ hs.toStands) fun i hi => ?_
  obtain ⟨hget, hname⟩ := findFile_get hi
  obtain ⟨j, hj⟩ := hs.cache.entry i _ hget
  obtain ⟨u, h1, hpage⟩ := dirLoad_pageAt hw hs.toStands
  have hfile : u.fileAt i = x.fileAt i := by rw [hpage.state]; rfl
  rintro y rfl
  rw [exec_bind_of h1, exec_bind_of (exec_gets _ _)]
  refine ⟨fun r hr' => ⟨hpage.sees hs, _, j, leaf, hr, hj.mem, hj.name.symm.trans hname, ?_⟩, nofun⟩
  obtain rfl := Option.some.inj hr'
  obtain ⟨h2, h3⟩ := hpage.slot hj.mem.1
  simp only [id, hfile]
  rw [show (y.fileAt i).dirOff = 32 * j from hj.off, h2, h3, show (y.fileAt i).isDir = _ from hj.isDir]

/-! ## `fs_sync` -/

/-- `fs_sync` cannot fail here, and stores the page as it is. -/
theorem fsSync_unmoved (hw : WellFormed v) (hs : Stands v s) :
    ∃ s', exec fsSync s = (some (), s') ∧ Unmoved v s.cwd s' := by
  have hd := hs.cwd
  set d := s.cwd
  obtain ⟨u, h1, h2, h3⟩ := fatFlush_spec hs.rel (hs.vol.geo ▸ hw.geo)
  rw [hs.vol.geo] at h3
  have hout : Outside v u [] := (hs.vol.outside []).flush hw h2 h3
  have hu : u = { s with disk := u.disk, sent := u.sent } := h2
  have hrel : Reliable u := hs.rel.diskOnly h2
  have hnone : ¬ v.Occupied d (v.dirLen d) := fun ho => Nat.lt_irrefl _ ho.1
  have hslots : SlotsKept (v.dirData d) (v.dirData d) (v.dirLen d) (v.dirLen d) :=
    fun _ _ _ => ⟨rfl, fun _ => ⟨rfl, fun _ _ _ => rfl⟩⟩
  obtain ⟨u', h4, h5⟩ := page_at hw hd (fun _ _ _ => List.disjoint_nil_left _) hout hrel (by rw [hu])
    (by rw [hu]; exact hs.bytes) (by rw [hu]; exact hs.page) hslots (fun _ _ _ => rfl) (hw.tidy d hd)
  have hnone' : ¬ u'.Occupied d (v.dirLen d) := fun ho => Nat.lt_irrefl _ (h5.len ▸ ho.1)
  have hedit := h5.edit (fun ho => absurd ho hnone') fun ho => absurd ho hnone
  have hn : ∀ j, NamesKept v u' d j := fun j k _ hk => ⟨h5.page.name hk.1, h5.page _ (by have := hk.1; omega)⟩
  have hstate : u' = { s with disk := u'.disk, sent := u'.sent } := by rw [h5.state, hu]
  have hrel' : Reliable u' := by
    rw [h5.state]
    exact hrel.same rfl rfl rfl
  refine ⟨u', ?_, u', hedit.wellFormed hw hd, ?_, fun j => hedit.frame hw hd (.inr ⟨hnone, hnone'⟩) (hn j)⟩
  · unfold fsSync
    rw [exec_bind_of h1, exec_bind_of h4]
    exact exec_driver hrel'.errs
  · refine hs.edit hw hedit (fun hg => hnone hg.1) ⟨rfl, rfl, rfl⟩ hrel' (by rw [hstate])
      (by rw [hstate]) ?_ ?_ ?_
    · rw [h5.len, hstate]
      exact hs.bytes
    · rw [h5.len, hstate]
      exact fun i hi => (hs.page i hi).trans (by rw [← h5.page i hi, hstate])
    · have hfiles : u'.files = s.files := by rw [hstate]
      rw [hfiles]
      exact hs.cache.stay hedit hw hd (hn _) hnone

end VampireOS.Fs
