import VampireOS.Fs.Wellformed

/-!
# The cache of the current directory on a well-formed volume (kernel/fs.c:1040-1100, 1232-1260)

`Mirrors v p d s`: the state `s` has the volume `v` under it and is in the directory at `d`, with a
cache that shows what a scan lists, and `p` pages for this cache. On a device that answers, a scan
succeeds exactly when there is a page for each file it lists (`scanDir_at`).
-/

namespace VampireOS.Fs

open Lib

/-- The pages that a scan can use: the free ones, and those of the cache. -/
def room (s : Fs) : Nat := s.pages + heldPages s.files

/-- The files among the entries. -/
def fileCount (fs : List FileEnt) : Nat := fs.countP fun f => !f.isDir

/-- There are pages for the files of the directory at `d`. -/
def Fits (v : Fs) (p d : Nat) : Prop := fileCount (v.listing d) ≤ p

instance (v : Fs) (p d : Nat) : Decidable (Fits v p d) := inferInstanceAs (Decidable (_ ≤ _))

/-- A cached file has its contents. -/
def PageOk (v : Fs) (f : FileEnt) : Prop :=
  f.isDir = false → ∃ p, f.data = some p ∧ Agree p (v.fileBytes f.cluster) f.len

theorem heldPages_append (fs : List FileEnt) (f : FileEnt) :
    heldPages (fs ++ [f]) = heldPages fs + f.data.toList.length := by
  unfold heldPages
  simp

variable {v s : Fs} {d n p w : Nat} {dir : Bytes}

/-! ## Scanning -/

/-- The chains of the listed files are long enough. -/
def Readable (v : Fs) (dir : Bytes) (n : Nat) : Prop :=
  ∀ k < n, (∀ m ≤ k, dir (32 * m) ≠ 0) → skipMark (dir (32 * k)) = false →
  skippedAttr (dir (32 * k + 11)) = false → dir (32 * k + 11) &&& 0x10 = 0 →
    rdU32 dir (32 * k + 28) ≤ fileMax →
  ∃ l, OwnChain v (rdU16 dir (32 * k + 26)) l ∧ l.length ≤ chainMax ∧ rdU32 dir (32 * k + 28) ≤
    secSize * l.length

/-- In the loop of a scan; `w` pages are out of its hands, having been taken for the file at hand. -/
structure Scanned (v : Fs) (dir : Bytes) (p w : Nat) (s : Fs) : Prop where
  vol : SameVol v s
  rel : Reliable s
  dir : s.dir = dir
  pages : ∀ f ∈ s.files, PageOk v f
  room : s.room + w = p

theorem OwnChain.sameVol {cl : Nat} {l : List Nat} (h : OwnChain v cl l) (hv : SameVol v s) :
    OwnChain s cl l := by
  have hent : s.fatEnt = v.fatEnt := by
    unfold fatEnt
    rw [hv.geo, hv.fat]
  exact h.congr hv.geo.symm fun a _ => congrFun hent a

theorem SameVol.fileBytes (hv : SameVol v s) (cl : Nat) : s.fileBytes cl = v.fileBytes cl := by
  unfold Fs.fileBytes
  rw [hv.geo, hv.fat, hv.disk]

theorem exec_pageBuf_none (h : s.pages = 0) : exec pageBuf s = (none, s) := by
  unfold pageBuf
  rw [exec_bind_of (exec_gets _ _)]
  simp only [id, exec_bind, exec_need, h, ne_eq, not_true, decide_false, Bool.false_eq_true,
    if_false, Option.elim_none]

/-- A file is about to go into the cache: there is a page for it, or there are too few for the scan. -/
theorem Scanned.pageBuf {fs : List FileEnt} :
    Triple (fun s => Scanned v dir p 0 s ∧ s.files = fs) pageBuf
    (fun _ s => Scanned v dir p 1 s ∧ s.files = fs) (fun s => (∀ f ∈ s.files, PageOk v f) ∧
    p = heldPages fs) := by
  rintro s ⟨h, rfl⟩
  by_cases hp : s.pages = 0
  · rw [exec_pageBuf_none hp]
    refine ⟨nofun, fun _ => ⟨h.pages, ?_⟩⟩
    have := h.room
    unfold Fs.room at this
    omega
  · rw [exec_pageBuf hp]
    refine ⟨fun _ _ => ⟨⟨⟨h.vol.geo, h.vol.disk, h.vol.fat⟩, h.rel.same rfl rfl rfl, h.dir, h.pages,
      ?_⟩, rfl⟩, nofun⟩
    have := h.room
    unfold Fs.room at *
    change s.pages - 1 + heldPages s.files + 1 = p
    omega

theorem Scanned.loadFile {cl size : Nat} {l : List Nat} {fs : List FileEnt} (page : Bytes)
    (hc : OwnChain v cl l) (hl : l.length ≤ chainMax) (hsize : size ≤ secSize * l.length) :
    Triple (fun s => Scanned v dir p w s ∧ s.files = fs) (loadFile page cl size)
      (fun r s => (Scanned v dir p w s ∧ s.files = fs) ∧ Agree r.1 (v.fileBytes cl) size)
      (fun _ => False) := by
  intro s h
  obtain ⟨data, h1, h2⟩ := loadFile_total h.1.rel (hc.sameVol h.1.vol) hl hsize page
  rw [h1]
  refine ⟨fun r hr => ?_, fun hn => by cases hn⟩
  obtain rfl := Option.some.inj hr
  rw [h.1.vol.fileBytes] at h2
  exact ⟨h, h2⟩

/-- An entry goes to the end of the cache, with the page taken for it. -/
theorem Scanned.push (h : Scanned v dir p w s) {f : FileEnt} (hf : PageOk v f)
    (hw : f.data.toList.length = w) :
    Scanned v dir p 0 { s with files := s.files ++ [f] } := by
  refine ⟨⟨h.vol.geo, h.vol.disk, h.vol.fat⟩, h.rel.same rfl rfl rfl, h.dir, fun g hg => ?_, ?_⟩
  · rcases List.mem_append.1 hg with hg | hg
    · exact h.pages g hg
    · rw [List.mem_singleton.1 hg]
      exact hf
  · have := h.room
    unfold Fs.room at *
    change s.pages + heldPages (s.files ++ [f]) + 0 = p
    rw [heldPages_append]
    omega

/-- The loop: the files it will have taken in are `n` in all. -/
theorem scanFrom_mirror (hread : Readable v dir w) (left : Nat) :
    ∀ (i : Nat) (run : LfnRun), (∀ m < i, dir (32 * m) ≠ 0) →
    i + left ≤ w →
    Triple (fun s => Scanned v dir p 0 s ∧
        heldPages s.files + fileCount (listFrom dir left i run (fsMax - s.files.length)) = n)
      (scanFrom left i run) (fun _ s => Scanned v dir p 0 s ∧ heldPages s.files = n)
      (fun s => (∀ f ∈ s.files, PageOk v f) ∧ p < n) := by
  induction left with
  | zero => exact fun _ _ _ _ => Triple.pure.conseq (fun _ h => ⟨h.1, h.2⟩) (fun _ _ h => h) fun _ h => h
  | succ left ih =>
    intro i run hreach hi
    unfold scanFrom
    refine .readAt fun s hs => ?_
    obtain ⟨hs, hn⟩ := hs
    have hroom : fsMax - s.files.length = 0 ↔ s.files.length ≥ fsMax := by omega
    unfold listFrom at hn
    simp only [hroom] at hn
    simp only [id, hs.dir]
    have hend : ∀ s', s' = s → fileCount [] = fileCount [] → heldPages s.files = n →
        Scanned v dir p 0 s' ∧ heldPages s'.files = n :=
      fun s' e _ h => e ▸ ⟨hs, h⟩
    refine .ite (fun hstop => ?_) fun hstop => ?_
    · rw [if_pos hstop] at hn
      exact Triple.pure.conseq (fun s' e => hend s' e rfl hn) (fun _ _ h => h) fun _ h => h
    rw [if_neg hstop] at hn
    rw [not_or] at hstop
    have hreach' : ∀ m < i + 1, dir (32 * m) ≠ 0 := fun m hm => by
      rcases Nat.lt_succ_iff_lt_or_eq.1 hm with h | rfl
      · exact hreach m h
      · exact hstop.2
    have hgo : ∀ run,
      heldPages s.files + fileCount (listFrom dir left (i + 1) run (fsMax - s.files.length)) = n →
        Triple (fun s' => s' = s) (scanFrom left (i + 1) run) (fun _ s => Scanned v dir p 0 s ∧
          heldPages s.files = n) (fun s => (∀ f ∈ s.files, PageOk v f) ∧ p < n) :=
      fun run h => (ih (i + 1) run hreach' (by omega)).conseq (fun s' e => e ▸ ⟨hs, h⟩)
        (fun _ _ h => h) fun _ h => h
    -- behind the new entry `f` there is room for one less
    have hadd : ∀ (f : FileEnt) (w : Nat), PageOk v f → f.data.toList.length = w →
        heldPages s.files + w + fileCount (listFrom dir left (i + 1) none (fsMax - s.files.length - 1)) = n →
        Triple (fun s' => Scanned v dir p w s' ∧ s'.files = s.files) (do
            upd fun s => { s with files := s.files ++ [f] }
            scanFrom left (i + 1) none)
          (fun _ s => Scanned v dir p 0 s ∧ heldPages s.files = n)
            (fun s => (∀ f ∈ s.files, PageOk v f) ∧ p < n) := by
      intro f w hf hw h
      refine .bind (R := fun _ s' => Scanned v dir p 0 s' ∧ s'.files = s.files ++ [f])
        (.change fun s' h' => ?_) fun _ => ?_
      · exact ⟨h'.1.push hf hw, by rw [h'.2]⟩
      · refine (ih (i + 1) none hreach' (by omega)).conseq (fun s' h' => ⟨h'.1, ?_⟩)
          (fun _ _ h => h) fun _ h => h
        rw [h'.2, heldPages_append, hw, List.length_append, List.length_singleton, ← Nat.sub_sub]
        exact h
    split at hn
    · next hskip =>
      rw [if_pos hskip]
      exact hgo _ hn
    · next hskip =>
      rw [if_neg hskip]
      split at hn
      · next hlong =>
        rw [if_pos hlong]
        exact hgo _ hn
      · next hlong =>
        rw [if_neg hlong]
        split at hn
        · next hlabel =>
          rw [if_pos hlabel]
          exact hgo _ hn
        · next hlabel =>
          rw [if_neg hlabel]
          split at hn
          · next hdir =>
            rw [if_pos hdir]
            refine (hadd _ 0 (fun h => by cases h) rfl ?_).conseq (fun s' e => ⟨e ▸ hs, by rw [e]⟩)
              (fun _ _ h => h) fun _ h => h
            simpa [fileCount] using hn
          · next hdir =>
            rw [if_neg hdir]
            split at hn
            · next hsize =>
              rw [if_pos hsize]
              exact hgo _ hn
            · next hsize =>
              rw [if_neg hsize]
              have hn' : heldPages s.files + 1 +
                  fileCount (listFrom dir left (i + 1) none (fsMax - s.files.length - 1)) = n := by
                rw [← hn]
                simp [fileCount]
                omega
              obtain ⟨l, hc, hl, hlen⟩ := hread i (by omega) (fun m hm => hreach' m (by omega))
                (by simpa using hskip) (by simpa [skippedAttr, hlong] using hlabel)
                (by simpa using hdir) (by omega)
              refine .bind (Scanned.pageBuf.conseq (fun s' e => ⟨e ▸ hs, by rw [e]⟩)
                (fun _ _ h => h) fun _ h => ⟨h.1, by omega⟩) fun page => ?_
              refine .bind ((Scanned.loadFile page hc hl hlen).conseq (fun _ h => h)
                (fun _ _ h => h) fun _ h => h.elim) fun r s' hr => ?_
              exact hadd _ 1 (fun _ => ⟨_, rfl, hr.2⟩) rfl hn' s' hr.1

/-- In the directory at `d` of the volume `v`, with a cache that shows what a scan lists, and `p`
pages for it. -/
structure Mirrors (v : Fs) (p d : Nat) (s : Fs) : Prop where
  vol : SameVol v s
  rel : Reliable s
  cwd : s.cwd = d
  cache : s.files.map FileEnt.bare = v.listing d
  pages : ∀ f ∈ s.files, PageOk v f
  room : s.room = p

theorem WellFormed.readable (h : WellFormed v) (hd : Dir v d) : Readable v (v.dirData d) (v.dirLen d) := by
  intro k hk hreach hskip hattr hdir hsize
  have hmem : v.Occupied d k := by
    refine ⟨hk, ?_⟩
    have h0 := hreach k (Nat.le_refl _)
    unfold ownsChain freeMark
    unfold skipMark at hskip
    simp only [Bool.or_eq_false_iff] at hskip
    simp only [hattr, hskip.1.1, hskip.2, h0, decide_false, Bool.or_self, Bool.not_false]
  have hok := h.slot d k hd hmem
  exact ⟨_, hok.chain, v.chainAt_length _, (hok.file (by simpa [slotIsDir] using hdir)).2⟩

theorem Readable.agree {dir' : Bytes} (h : Readable v dir n) (ha : Agree dir' dir (32 * n)) :
    Readable v dir' n := by
  intro k hk hreach hskip hattr hdir hsize
  rw [ha _ (by omega)] at hskip hattr hdir
  rw [ha.rdU32 (by omega)] at hsize ⊢
  rw [ha.rdU16 (by omega)]
  exact h k hk (fun m hm => by rw [← ha _ (by omega)]; exact hreach m hm) hskip hattr hdir hsize

theorem DirChain.sameVol {l : List Nat} (h : DirChain v d l) (hv : SameVol v s) : DirChain s d l := by
  have hent : s.fatEnt = v.fatEnt := by
    unfold fatEnt
    rw [hv.geo, hv.fat]
  refine ⟨?_, h.length, h.ne⟩
  unfold dirHead
  rw [hent]
  exact h.chain.sameVol hv

/-- The page and the two directories of a call. -/
structure SamePlace (s s' : Fs) : Prop where
  dir : s'.dir = s.dir
  dirBytes : s'.dirBytes = s.dirBytes
  cwd : s'.cwd = s.cwd
  savedCwd : s'.savedCwd = s.savedCwd

instance : Std.Refl SamePlace := ⟨fun _ => ⟨rfl, rfl, rfl, rfl⟩⟩

instance : IsTrans Fs SamePlace := ⟨fun _ _ _ h h' =>
  ⟨h'.dir.trans h.dir, h'.dirBytes.trans h.dirBytes, h'.cwd.trans h.cwd, h'.savedCwd.trans h.savedCwd⟩⟩

theorem Quiet.samePlace {s s' : Fs} (h : Quiet s s') : SamePlace s s' := by
  rw [h]
  exact ⟨rfl, rfl, rfl, rfl⟩

theorem scanFrom_samePlace (left : Nat) :
    ∀ (i : Nat) (run : LfnRun), Keeps SamePlace (scanFrom left i run) := by
  induction left with
  | zero => exact fun _ _ => .pure
  | succ left ih =>
    intro i run
    have hadd : ∀ f : FileEnt, Keeps SamePlace (do
        upd fun s => { s with files := s.files ++ [f] }
        scanFrom left (i + 1) none) := fun f => .bind (.upd fun _ => ⟨rfl, rfl, rfl, rfl⟩) fun _ => ih _ _
    exact .bind .gets fun s => .ite (fun _ => .pure) fun _ => .ite (fun _ => ih _ _) fun _ =>
      .ite (fun _ => ih _ _) fun _ =>
      .ite (fun _ => ih _ _) fun _ => .ite (fun _ => hadd _) fun _ => .ite (fun _ => ih _ _) fun _ =>
      .bind (pageBuf_quiet.mono fun _ _ => Quiet.samePlace) fun _ => .bind
        ((loadFile_quiet _ _ _).mono fun _ _ => Quiet.samePlace) fun _ => hadd _

/-- The loop of a scan starts from an empty cache and the page of the directory. -/
structure Starts (v s s2 : Fs) : Prop where
  run : exec scanDir s = exec (scanFrom (v.dirLen s.cwd) 0 none) s2
  scanned : Scanned v s2.dir s.room 0 s2
  files : s2.files = []
  cwd : s2.cwd = s.cwd
  savedCwd : s2.savedCwd = s.savedCwd
  dirBytes : s2.dirBytes = 32 * v.dirLen s.cwd
  agree : Agree s2.dir (v.dirData s.cwd) (32 * v.dirLen s.cwd)

theorem scanDir_starts (hw : WellFormed v) (hv : SameVol v s) (hr : Reliable s) (hd : Dir v s.cwd) :
    ∃ s2, Starts v s s2 := by
  have hchain := hw.dirChain hd
  have hemp := emptied_eq s
  have hv0 : SameVol v (emptied s) := by
    rw [hemp]
    exact ⟨hv.geo, hv.disk, hv.fat⟩
  have hcwd : (emptied s).cwd = s.cwd := by rw [hemp]
  obtain ⟨s2, h1, h2, h3, h4⟩ :=
    dirLoad_total (s := emptied s) (by rw [hemp]; exact hr.same rfl rfl rfl) (hv0.geo ▸ hw.geo)
    (by rw [hcwd]; exact hchain.sameVol hv0)
  rw [hcwd, hv0.geo] at h3 h4
  rw [hv0.disk] at h3
  have hbytes : s2.dirBytes = 32 * v.dirLen s.cwd := by
    rw [h4, hchain.len]
    unfold secSize
    omega
  have hents : s2.dirEnts = v.dirLen s.cwd := by
    unfold dirEnts
    omega
  have hagree : Agree s2.dir (v.dirData s.cwd) (32 * v.dirLen s.cwd) := by
    rw [hchain.data, hchain.len]
    exact h3.mono (by unfold secSize; omega)
  have hs2 : s2 = { emptied s with errs := s2.errs, dir := s2.dir, dirBytes := s2.dirBytes } := h2
  have herrs : s2.errs = [] := by
    have := (dirLoad_cached (emptied s)).errs (by rw [hemp]; exact hr.errs)
    rwa [h1] at this
  refine ⟨s2, ?_, ⟨?_, ⟨herrs, ?_⟩, rfl, ?_, ?_⟩, ?_, ?_, ?_, hbytes, hagree⟩
  · rcases scanDir_loaded s with ⟨s3, hx, -⟩ | ⟨s3, hx, -, h⟩
    · rw [h1] at hx
      cases hx
    · obtain rfl : s2 = s3 := (Prod.mk.inj (h1.symm.trans hx)).2
      rw [h, hents]
  · rw [hs2]
    exact ⟨hv0.geo, hv0.disk, hv0.fat⟩
  · rw [hs2, hemp]
    exact hr.reach
  · rw [hs2, hemp]
    exact fun _ h => by cases h
  · rw [hs2, hemp]
    unfold room
    simp [heldPages]
  all_goals rw [hs2, hemp]

/-- **A scan of a directory of the volume** succeeds when there are pages for its files, and only then. -/
theorem scanDir_at (hw : WellFormed v) (hd : Dir v d) :
    Triple (fun s => SameVol v s ∧ Reliable s ∧ s.cwd = d ∧ s.room = p) scanDir
    (fun _ s => Mirrors v p d s ∧ Fits v p d) (fun _ => ¬ Fits v p d) := by
  rintro s ⟨hv, hr, rfl, rfl⟩
  obtain ⟨s2, h⟩ := scanDir_starts hw hv hr hd
  have hlist : listFrom s2.dir (v.dirLen s.cwd) 0 none fsMax = v.listing s.cwd := by
    rw [h.agree.listFrom _ _ _ _ .none (by omega)]
    rfl
  have hloop := scanFrom_mirror (n := fileCount (v.listing s.cwd)) (p := s.room)
    ((hw.readable hd).agree h.agree) (v.dirLen s.cwd) 0 none
    (fun m hm => absurd hm (Nat.not_lt_zero m)) (by omega) s2 ⟨h.scanned, by
      rw [h.files, List.length_nil, Nat.sub_zero, hlist]
      simp [heldPages]⟩
  have hlists := (scanDir_lists s).2
  have hkeep := (scanDir_cached s).cwd
  rw [← h.run] at hloop
  refine ⟨fun a ha => ?_, fun hn hfit => ?_⟩
  · obtain ⟨hend, hn⟩ := hloop.1 a ha
    have hl : (exec scanDir s).2.files.map FileEnt.bare = v.listing s.cwd := by
      rw [hlists ha, hv.listing]
    have hroom := hend.room
    refine ⟨⟨hend.vol, hend.rel, hkeep, hl, hend.pages, hroom⟩, ?_⟩
    unfold Fits room at *
    omega
  · have := (hloop.2 hn).2
    unfold Fits at hfit
    omega

/-- Whatever a scan has put into the cache has its contents. -/
theorem scanDir_pages (hw : WellFormed v) (hv : SameVol v s) (hr : Reliable s) (hd : Dir v s.cwd) :
    ∀ f ∈ (exec scanDir s).2.files, PageOk v f := by
  obtain ⟨s2, h⟩ := scanDir_starts hw hv hr hd
  have hloop := scanFrom_mirror (p := s.room) ((hw.readable hd).agree h.agree) (v.dirLen s.cwd) 0 none
    (fun m hm => absurd hm (Nat.not_lt_zero m)) (by omega) s2 ⟨h.scanned, rfl⟩
  rw [h.run]
  cases hx : (exec (scanFrom (v.dirLen s.cwd) 0 none) s2).1 with
  | none => exact (hloop.2 hx).1
  | some a => exact (hloop.1 a hx).1.pages

/-- The page is that of the directory. -/
theorem scanDir_page (hw : WellFormed v) (hv : SameVol v s) (hr : Reliable s) (hd : Dir v s.cwd) :
    (exec scanDir s).2.dirBytes = 32 * v.dirLen s.cwd ∧ Agree (exec scanDir s).2.dir
    (v.dirData s.cwd) (32 * v.dirLen s.cwd) := by
  obtain ⟨s2, h⟩ := scanDir_starts hw hv hr hd
  have hsame := scanFrom_samePlace (v.dirLen s.cwd) 0 none s2
  rw [h.run, hsame.dirBytes, hsame.dir]
  exact ⟨h.dirBytes, h.agree⟩

/-! ## Entries -/

/-- A listed entry and its slot. -/
structure AtSlot (v : Fs) (d j : Nat) (f : FileEnt) : Prop where
  mem : v.Occupied d j
  name : f.name = v.slotName d j
  off : f.dirOff = 32 * j
  cluster : f.cluster = v.slotStart d j
  isDir : f.isDir = v.slotIsDir d j
  len : f.isDir = false → f.len = v.slotSize d j ∧ f.len ≤ fileMax
  bare : f.data = none
  mark : skipMark (v.dirData d (32 * j)) = false

theorem mem_entries {f : FileEnt} (h : f ∈ v.entries d) :
    ∃ j, AtSlot v d j f ∧ entryAt (v.dirData d) j = some f := by
  obtain ⟨j, hj, hat⟩ := mem_entriesOf.1 h
  have hl := entryAt_some hat
  have hmark := hl.skip
  have hs := hl.skip
  unfold skipMark at hs
  simp only [Bool.or_eq_false_iff] at hs
  obtain ⟨-, hlt, hreach⟩ := (mem_entriesFrom _ _ 0).1 hj
  refine ⟨j, ⟨⟨by omega, ?_⟩, hl.name, hl.off, hl.cluster, ?_, hl.len, hl.data, hmark⟩, hat⟩
  · unfold ownsChain freeMark
    simp only [hreach j (Nat.zero_le _) (Nat.le_refl _), decide_false, hs.1.1, hs.2, hl.attr,
      Bool.or_self, Bool.not_false]
  · rw [Bool.eq_iff_iff, hl.dir]
    unfold slotIsDir
    rw [decide_eq_true_iff]

theorem mem_listing {f : FileEnt} (h : f ∈ v.listing d) : ∃ j, AtSlot v d j f := by
  rw [listing_take] at h
  obtain ⟨j, hj, -⟩ := mem_entries (List.mem_of_mem_take h)
  exact ⟨j, hj⟩

end VampireOS.Fs
