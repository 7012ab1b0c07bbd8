import VampireOS.Fs.Tree

/-!
# What a path denotes (kernel/fs.c:247-302, 1420-1480)

`walkTo` and `enterTo` follow a path from a directory on the volume alone, with `.` and `..`;
`denotes` is the entry of the file it ends at and `fileBytes` its contents. `fs_lookup` that
succeeds hands out the contents of the file the path denotes.
-/

namespace VampireOS.Fs

open Lib

variable {v : Fs}

/-- In the directory at `cl`: what the cache holds is the beginning of its listing. -/
def HeldAt (v : Fs) (cl : Nat) (s : Fs) : Prop := Held v s ∧ s.cwd = cl

/-! ## On the volume -/

/-- One component. -/
def stepTo (v : Fs) (cl : Nat) (c : Name) : Option Nat :=
  if isDot c then some cl
  else if isDotDot c then if cl < 2 then some cl else some (rdU16 (v.disk (v.geo.dataLba cl)) 58)
  else v.child cl c

/-- All components but the last, which is the name in the directory that the others lead to. -/
def enterTo (v : Fs) (cl : Nat) : List (Option Name) → Option (Nat × Name)
  | [some c] => some (cl, c)
  | some c :: some c' :: cs => (v.stepTo cl c).bind fun cl' => v.enterTo cl' (some c' :: cs)
  | _ => none

/-- Where a walk from the directory at `cl` begins. -/
def fromDir (path : Name) (cl : Nat) : Nat := if path.head? = some slash ∧ 2 ≤ cl then 0 else cl

/-- The entry of the file that `path` denotes in the directory at `cl`. -/
def denotes (v : Fs) (cl : Nat) (path : Name) : Option FileEnt :=
  (v.enterTo (fromDir path cl) (components path)).bind fun p =>
    ((v.listing p.1).find? fun f => f.name = p.2).filter fun f => !f.isDir

/-- The contents of the chain at `cl`. -/
def fileBytes (v : Fs) (cl : Nat) : Bytes :=
  sectorBytes v.disk ((chain v.geo v.fat chainMax cl).map v.geo.dataLba)

theorem fromDir_absolute {path : Name} (h : path.head? = some slash) (cl : Nat) : fromDir path cl < 2 := by
  unfold fromDir
  split
  · decide
  · next hn => exact Nat.lt_of_not_le fun h2 => hn ⟨h, h2⟩

/-! ## The walk -/

theorem goto_heldAt (cl cl' : Nat) :
    Triple (HeldAt v cl) (do setCwd cl'; scanDir) (fun _ => HeldAt v cl') (Held v) :=
  (goto_held cl').conseq (fun _ h => h.1) (fun _ _ h => h) fun _ h => h

theorem chdirOne_to (cl : Nat) (c : Name) :
    Triple (HeldAt v cl) (chdirOne c) (fun _ s => ∃ cl', v.stepTo cl c = some cl' ∧ HeldAt v cl' s)
      (Held v) := by
  unfold chdirOne stepTo
  refine .read fun s hs => ?_
  obtain ⟨hh, rfl⟩ := hs
  simp only [id]
  split
  · exact Triple.pure.conseq (fun _ h => ⟨_, rfl, h⟩) (fun _ _ h => h) fun _ h => h
  · split
    · split
      · exact Triple.pure.conseq (fun _ h => ⟨_, rfl, h⟩) (fun _ _ h => h) fun _ h => h
      · next h2 =>
        have hlba : s.dirLba = v.geo.dataLba s.cwd := by rw [dirLba, if_neg h2, hh.vol.geo]
        have hread : Triple (HeldAt v s.cwd) (bread s.dirLba)
            (fun b s' => HeldAt v s.cwd s' ∧ b = v.disk (v.geo.dataLba s.cwd)) (Held v) := by
          intro s0 hs0
          have hq := bread_quiet s.dirLba s0
          have hheld : HeldAt v s.cwd (exec (bread s.dirLba) s0).2 :=
            ⟨hs0.1.quiet hq, by rw [hq]; exact hs0.2⟩
          refine ⟨fun b hb => ⟨hheld, ?_⟩, fun _ => hheld.1⟩
          rw [((bread_disk s0.disk s.dirLba s0 rfl).1 b hb).1, hlba, hs0.1.vol.disk]
        refine hread.bind fun b => ?_
        intro s0 hs0
        obtain ⟨h0, rfl⟩ := hs0
        obtain ⟨h3, h4⟩ := goto_heldAt s.cwd (rdU16 (v.disk (v.geo.dataLba s.cwd)) 58) s0 h0
        exact ⟨fun a ha => ⟨_, rfl, h3 a ha⟩, h4⟩
    · refine .take (fun _ h => h.1) fun i hi => .check (fun _ h => h.1) fun hd => ?_
      have hc := hh.child hi hd
      exact (goto_heldAt s.cwd _).conseq (fun _ h => h) (fun _ _ h => ⟨_, hc, h⟩) fun _ h => h

theorem enterFrom_to (cs : List (Option Name)) : ∀ cl : Nat, Triple (HeldAt v cl) (enterFrom cs)
    (fun leaf s => ∃ cl', v.enterTo cl cs = some (cl', leaf) ∧ HeldAt v cl' s) (Held v) := by
  induction cs with
  | nil => exact fun cl => Triple.failed.conseq (fun _ h => h.1) (fun _ _ h => h) fun _ h => h
  | cons x cs ih =>
    intro cl
    cases x with
    | none => exact Triple.failed.conseq (fun _ h => h.1) (fun _ _ h => h) fun _ h => h
    | some c =>
      cases cs with
      | nil => exact Triple.pure.conseq (fun _ h => ⟨cl, rfl, h⟩) (fun _ _ h => h) fun _ h => h
      | cons y cs =>
        cases y with
        | none => exact Triple.failed.conseq (fun _ h => h.1) (fun _ _ h => h) fun _ h => h
        | some c' =>
          refine (chdirOne_to cl c).bind fun _ s hs => ?_
          obtain ⟨cl', hcl, hs⟩ := hs
          obtain ⟨h1, h2⟩ := ih cl' s hs
          refine ⟨fun a ha => ?_, h2⟩
          rw [enterTo, hcl]
          exact h1 a ha

theorem toRoot_to (cl : Nat) :
    Triple (HeldAt v cl) toRoot (fun _ => HeldAt v (if 2 ≤ cl then 0 else cl)) (Held v) := by
  refine .read fun s hs => ?_
  obtain ⟨hh, rfl⟩ := hs
  simp only [id, ge_iff_le]
  split
  · exact goto_heldAt s.cwd 0
  · exact Triple.pure.conseq (fun _ h => h) (fun _ _ h => h) fun _ h => h

/-- The walk of `enter_parent`. -/
theorem enterWalk_to (path : Name) (cl : Nat) : Triple (HeldAt v cl) (do
      if path.head? = some slash then toRoot
      enterFrom (components path))
    (fun leaf s => ∃ cl', v.enterTo (fromDir path cl) (components path) = some (cl', leaf) ∧
    HeldAt v cl' s) (Held v) := by
  unfold fromDir
  split
  · next h =>
    simp only [h, true_and]
    exact (toRoot_to cl).bind fun _ => enterFrom_to _ _
  · next h =>
    simp only [h, false_and, if_false]
    exact enterFrom_to _ _

theorem leaveParent_held : Stays (Held v) leaveParent :=
  .read fun _ _ => .ite (fun _ => (goto_held _).conseq (fun _ h => h) (fun _ _ h => h.1) fun _ h =>
    h) fun _ => .pure

/-- `enter_parent`: in the directory of the last component, with the way back; a failure leaves a
cache that fits. -/
theorem enterParent_to (path : Name) (cl : Nat) : Triple (HeldAt v cl) (enterParent path)
    (fun leaf s => ∃ cl', v.enterTo (fromDir path cl) (components path) = some (cl', leaf) ∧
    HeldAt v cl' s ∧ s.savedCwd = cl)
    (Held v) := by
  have hwithin : Keeps Within (do
      if path.head? = some slash then toRoot
      enterFrom (components path)) :=
    .ite (fun _ => toRoot_within.bind fun _ => enterFrom_within _) fun _ => enterFrom_within _
  refine .bind (R := fun _ s => HeldAt v cl s ∧ s.savedCwd = cl)
    (.change fun s h => ⟨⟨⟨⟨h.1.vol.geo, h.1.vol.disk, h.1.vol.fat⟩, h.1.cache⟩, h.2⟩, h.2⟩) fun _ =>
    .check (fun _ h => h.1.1) fun _ => .bind (R := fun leaf s => leaf.elim (Held v s) fun leaf =>
      ∃ cl', v.enterTo (fromDir path cl) (components path) = some (cl', leaf) ∧ HeldAt v cl' s ∧
        s.savedCwd = cl)
      (.result ?_) fun leaf => ?_
  · intro s hs
    obtain ⟨h1, h2⟩ := enterWalk_to path cl s hs.1
    refine ⟨fun leaf hl => ?_, h2⟩
    obtain ⟨cl', he, hat⟩ := h1 leaf hl
    exact ⟨cl', he, hat, (hwithin s).savedCwd.trans hs.2⟩
  · cases leaf with
    | some leaf => exact Triple.pure.conseq (fun _ h => h) (fun _ _ h => h) fun _ h => h
    | none => exact Triple.bind (R := fun _ => Held v) (Stays.attempt leaveParent_held) fun _ => .failed

/-! ## The contents -/

theorem sectorBytes_prefix {disk : Nat → Bytes} (ls rest : List Nat) :
    Agree (sectorBytes disk ls) (sectorBytes disk (ls ++ rest)) (secSize * ls.length) := by
  intro k hk
  unfold sectorBytes
  rw [List.getElem?_append_left]
  unfold secSize at *
  omega

/-- The loop of `load_file` after the clusters `done`: what it calls a success has the bytes of the chain. -/
theorem loadFileFrom_reads (size : Nat) (rest : List Nat) : ∀ (done : List Nat) (dst : Bytes),
    Agree dst (sectorBytes v.disk (done.map v.geo.dataLba)) (min size (secSize * done.length)) →
    Triple (SameVol v) (loadFileFrom dst size (secSize * done.length) rest)
      (fun r s => SameVol v s ∧
      (r.2 = true → Agree r.1 (sectorBytes v.disk ((done ++ rest).map v.geo.dataLba)) size))
      (SameVol v) := by
  induction rest with
  | nil =>
    intro done dst hd
    refine Triple.pure.conseq (fun s hs => ⟨hs, fun hle => ?_⟩) (fun _ _ h => h) fun _ h => h
    rw [decide_eq_true_eq] at hle
    rw [List.append_nil]
    exact hd.mono (by omega)
  | cons cl rest ih =>
    intro done dst hd
    unfold loadFileFrom
    refine .ite (fun hle => ?_) fun hgt => .read fun s0 hs0 => ?_
    · refine Triple.pure.conseq (fun s hs => ⟨hs, fun _ => ?_⟩) (fun _ _ h => h) fun _ h => h
      rw [List.map_append]
      intro k hk
      dsimp only
      rw [hd k (by omega), sectorBytes_prefix _ _ k (by rw [List.length_map]; omega)]
    · refine .bind (R := fun b s => SameVol v s ∧ ∀ x, b = some x → x = v.disk (v.geo.dataLba cl))
        (fun s hs => ?_) fun b => ?_
      · have hq := bread_quiet (s0.geo.dataLba cl) s
        refine ⟨fun b hb => ⟨?_, fun x hx => ?_⟩, nofun⟩
        · change SameVol v (exec (bread (s0.geo.dataLba cl)) s).2
          rw [hq]
          exact ⟨hs.geo, hs.disk, hs.fat⟩
        · rw [exec_result, Option.some.injEq] at hb
          rw [((bread_disk s.disk _ s rfl).1 x (hb.trans hx)).1, hs.disk]
          simp only [id, hs0.geo]
      · cases b with
        | none => exact Triple.pure.conseq (fun s hs => ⟨hs.1, nofun⟩) (fun _ _ h => h) fun _ h => h
        | some b =>
          intro s hs
          obtain ⟨hvol, hb⟩ := hs
          have hagree : Agree
            (putBytes dst (secSize * done.length) b (min (size - secSize * done.length) secSize))
              (sectorBytes v.disk ((done ++ [cl]).map v.geo.dataLba))
                (min size (secSize * (done ++ [cl]).length)) := by
            intro k hk
            simp only [List.length_append, List.length_singleton] at hk
            rw [List.map_append, List.map_singleton, sectorBytes_append k (by simp; omega),
              List.length_map, hb b rfl]
            simp only [putBytes]
            unfold secSize at *
            split
            · rw [if_pos (by omega)]
            · rw [if_neg (by omega)]
              exact hd k (by omega)
          have := ih (done ++ [cl]) _ hagree s hvol
          rwa [List.length_append, List.length_singleton, Nat.mul_add, Nat.mul_one, List.append_assoc,
            List.singleton_append] at this

theorem loadFile_reads (dst : Bytes) (start size : Nat) : Triple (SameVol v) (loadFile dst start size)
    (fun r s => SameVol v s ∧ (r.2 = true → Agree r.1 (v.fileBytes start) size)) (SameVol v) := by
  refine .read fun s hs => ?_
  have := loadFileFrom_reads (v := v) size (chain v.geo v.fat chainMax start) [] dst
    (fun k hk => by simp at hk)
  simp only [id, hs.geo, hs.fat]
  exact this

/-- An entry of a listing lies at its offset, with the size that stands there. -/
theorem listFrom_mem {d : Bytes} {f : FileEnt} (left : Nat) : ∀ (i : Nat) (run : LfnRun) (room : Nat),
    f ∈ listFrom d left i run room →
    ∃ j < i + left, f.dirOff = 32 * j ∧ (f.isDir = false → f.len = rdU32 d (32 * j + 28)) := by
  induction left with
  | zero =>
    intro i run room hf
    cases hf
  | succ left ih =>
    intro i run room hf
    have hnext : ∀ run room, f ∈ listFrom d left (i + 1) run room →
        ∃ j < i + (left + 1), f.dirOff = 32 * j ∧
          (f.isDir = false → f.len = rdU32 d (32 * j + 28)) := fun run room h => by
      obtain ⟨j, hj, h⟩ := ih (i + 1) run room h
      exact ⟨j, by omega, h⟩
    unfold listFrom at hf
    simp only at hf
    split_ifs at hf
    · cases hf
    · exact hnext _ _ hf
    · exact hnext _ _ hf
    · exact hnext _ _ hf
    · rcases List.mem_cons.1 hf with rfl | hf
      · refine ⟨i, by omega, rfl, fun h => ?_⟩
        cases h
      · exact hnext _ _ hf
    · exact hnext _ _ hf
    · rcases List.mem_cons.1 hf with rfl | hf
      · exact ⟨i, by omega, rfl, fun _ => rfl⟩
      · exact hnext _ _ hf

/-- The state of a look at the cached file `i`: its entry is `f`, up to the page. -/
structure Looking (v : Fs) (d c i : Nat) (f : FileEnt) (s : Fs) : Prop where
  held : HeldAt v d s
  saved : s.savedCwd = c
  entry : ∃ f', s.files[i]? = some f' ∧ f'.bare = f

variable {d c i : Nat} {f : FileEnt}

theorem SameVol.dirSectors {s : Fs} (h : SameVol v s) (hd : s.cwd = d) :
    s.dirSectors = { v with cwd := d }.dirSectors := by
  unfold Fs.dirSectors fatEnt
  simp only [h.geo, h.fat, hd]

theorem Looking.mem {s : Fs} (h : Looking v d c i f s) : f ∈ v.listing d := by
  obtain ⟨f', hf, rfl⟩ := h.entry
  obtain ⟨hh, hd⟩ := h.held
  exact hd ▸ hh.cache.subset (List.mem_map_of_mem (List.mem_of_getElem? hf))

theorem Looking.fileAt {s : Fs} (h : Looking v d c i f s) : (s.fileAt i).bare = f := by
  obtain ⟨f', hf, hb⟩ := h.entry
  rw [Fs.fileAt, List.getD_eq_getElem?_getD, hf]
  exact hb

/-- A change of the entry that leaves all but its page. -/
theorem Looking.modFile {g : FileEnt → FileEnt} (hg : ∀ e, e.bare = f → (g e).bare = f) :
    Triple (Looking v d c i f) (modFile i g) (fun _ s => Looking v d c i f s ∧
    ∃ e, s.files[i]? = some (g e) ∧ e.bare = f)
      (Held v) := by
  refine .change fun s h => ?_
  obtain ⟨f', hf, hb⟩ := h.entry
  have hmod : (s.files.modify i g)[i]? = some (g f') := by simp [hf]
  have hmap : (s.files.modify i g).map FileEnt.bare = s.files.map FileEnt.bare := by
    refine List.ext_getElem? fun x => ?_
    by_cases hx : i = x
    · subst hx
      simp [hf, hb, hg f' hb]
    · simp [hx]
  exact ⟨⟨⟨⟨⟨h.held.1.vol.geo, h.held.1.vol.disk, h.held.1.vol.fat⟩, hmap ▸ h.held.1.cache⟩,
    h.held.2⟩, h.saved, g f', hmod, hg f' hb⟩, f', hmod, hb⟩

theorem Looking.quiet {s s' : Fs} (h : Looking v d c i f s) (hq : Quiet s s') : Looking v d c i f s' := by
  rw [hq]
  exact ⟨⟨⟨⟨h.held.1.vol.geo, h.held.1.vol.disk, h.held.1.vol.fat⟩, h.held.1.cache⟩, h.held.2⟩,
    h.saved, h.entry⟩

/-- `dir_load` finds the size of the entry where the listing has it. -/
theorem Looking.dirLoad (hf : f.isDir = false) : Triple (Looking v d c i f) dirLoad
    (fun _ s => Looking v d c i f s ∧ rdU32 s.dir ((s.fileAt i).dirOff + 28) = f.len) (Held v) := by
  intro s h
  have honly := dirLoad_dirOnly s
  have hl : Looking v d c i f (exec Fs.dirLoad s).2 := by
    rw [honly]
    exact ⟨⟨⟨⟨h.held.1.vol.geo, h.held.1.vol.disk, h.held.1.vol.fat⟩, h.held.1.cache⟩, h.held.2⟩,
      h.saved, h.entry⟩
  refine ⟨fun a ha => ⟨hl, ?_⟩, fun _ => hl.held.1⟩
  obtain ⟨hagree, -⟩ := dirLoad_loads (show exec Fs.dirLoad s = (some a, (exec Fs.dirLoad s).2)
    from Prod.ext ha rfl)
  rw [h.held.1.vol.dirSectors h.held.2, h.held.1.vol.disk] at hagree
  obtain ⟨j, hj, hoff, hlen⟩ := listFrom_mem _ _ _ _ h.mem
  have hoff' : ((exec Fs.dirLoad s).2.fileAt i).dirOff = 32 * j := by
    rw [← hoff, ← hl.fileAt]
    rfl
  rw [hoff', hagree.rdU32 (by unfold secSize; omega), hlen hf]

/-- `refresh`: the page of the entry has the contents of its chain. -/
theorem Looking.refresh (hf : f.isDir = false) : Triple (Looking v d c i f) (refresh i)
    (fun len s => len = f.len ∧ Looking v d c i f s ∧ ∃ data, (s.fileAt i).data = some data ∧
    Agree data (v.fileBytes f.cluster) len)
    (Held v) := by
  unfold Fs.refresh
  refine (Looking.dirLoad hf).bind fun _ => .read fun s hs => ?_
  simp only [id, hs.2]
  have hcl : (s.fileAt i).cluster = f.cluster := by
    rw [← hs.1.fileAt]
    rfl
  rw [hcl]
  have hlen : ∀ e : FileEnt, e.bare = f → FileEnt.bare { e with len := f.len } = f := by
    rintro e rfl
    rfl
  refine Triple.bind ((Looking.modFile hlen).conseq (fun _ h => h.1) (fun _ _ h => h.1) fun _ h => h) fun _ =>
    .check (fun _ h => h.held.1) fun _ => .bind (R := fun r s => Looking v d c i f s ∧
      (r.2 = true → Agree r.1 (v.fileBytes f.cluster) f.len)) ?_ fun r => ?_
  · intro s1 h1
    have hq := loadFile_quiet ((s.fileAt i).data.getD s.junk) f.cluster f.len s1
    refine ⟨fun r hr => ⟨h1.quiet hq, ?_⟩, fun _ => (h1.quiet hq).held.1⟩
    exact ((loadFile_reads _ f.cluster f.len s1 h1.held.1.vol).1 r hr).2
  · obtain ⟨data, ok⟩ := r
    have hdata : ∀ e : FileEnt, e.bare = f → FileEnt.bare { e with data := some data } = f := fun e he => he
    refine Triple.bind (R := fun _ s => Looking v d c i f s ∧ (s.fileAt i).data = some data ∧
      (ok = true → Agree data (v.fileBytes f.cluster) f.len)) (fun s1 h1 => ?_) fun _ => ?_
    · obtain ⟨h2, -⟩ := Looking.modFile hdata s1 h1.1
      refine ⟨fun _ _ => ?_, nofun⟩
      obtain ⟨hl, e, he, -⟩ := h2 () rfl
      refine ⟨hl, ?_, h1.2⟩
      rw [Fs.fileAt, List.getD_eq_getElem?_getD, he]
      rfl
    · refine .check (fun _ h => h.1.held.1) fun hok => ?_
      exact Triple.pure.conseq (fun s h => ⟨rfl, h.1, data, h.2.1, h.2.2 hok⟩) (fun _ _ h => h) fun _ h => h

/-! ## Looking up -/

/-- What is found in the cache is the first entry of the name in the directory. -/
theorem Held.found {s : Fs} {name : Name} {i : Nat} (h : Held v s) (hi : s.findFile name = some i) :
    s.files[i]? = some (s.fileAt i) ∧ (v.listing s.cwd).find? (fun f => f.name = name) =
    some (s.fileAt i).bare := by
  unfold findFile at hi
  split at hi
  · cases hi
  · obtain ⟨hlt, hname, hfirst⟩ := List.findIdx?_eq_some_iff_getElem.1 hi
    have hat : s.files[i]? = some (s.fileAt i) := by
      unfold fileAt
      rw [List.getD_eq_getElem?_getD, List.getElem?_eq_getElem hlt, Option.getD_some]
    have hget : s.files[i] = s.fileAt i := Option.some.inj ((List.getElem?_eq_getElem hlt).symm.trans hat)
    have hmap : (s.files.map FileEnt.bare).find? (fun f => decide (f.name = name)) =
        some (s.fileAt i).bare := by
      rw [List.find?_map]
      refine Option.map_eq_some_iff.2 ⟨s.fileAt i, ?_, rfl⟩
      refine List.find?_eq_some_iff_getElem.2 ⟨?_, i, hlt, hget, fun j hj => ?_⟩
      · exact hget ▸ hname
      · change (!decide (s.files[j].name = name)) = true
        simpa using hfirst j hj
    exact ⟨hat, List.IsPrefix.find?_eq_some h.cache hmap⟩

theorem viewPage_held : Stays (Held v) viewPage := by
  refine .read fun s _ => ?_
  simp only [id]
  split
  · exact .pure
  · exact (pageBuf_quiet.stays fun _ _ hq h => Held.quiet h hq).bind fun _ =>
      (Stays.upd fun _ h => ⟨⟨h.vol.geo, h.vol.disk, h.vol.fat⟩, h.cache⟩).bind fun _ => .pure

/-- The way back takes nothing from the answer. -/
theorem thenLeave_held {α : Type} {P : Fs → Prop} {F : α → Prop} {body : FsM α}
    (h : Triple P body (fun r s => Held v s ∧ F r) (Held v)) :
    Triple P (thenLeave body) (fun r s => Held v s ∧ F r) (Held v) := by
  refine Triple.bind (R := fun r s => Held v s ∧ ∀ x, r = some x → F x) (.result (h.conseq (fun _ h => h)
    (fun r s h => ⟨h.1, fun x hx => Option.some.inj hx ▸ h.2⟩) fun _ h => ⟨h, nofun⟩)) fun r => ?_
  refine Triple.bind (R := fun _ s => Held v s ∧ ∀ x, r = some x → F x) (fun s hs => ?_) fun _ => ?_
  · obtain ⟨h1, h2⟩ := leaveParent_held s hs.1
    exact ⟨fun a ha => ⟨h1 a ha, hs.2⟩, h2⟩
  · cases r with
    | none => exact Triple.failed.conseq (fun _ h => h.1) (fun _ _ h => h) fun _ h => h
    | some x => exact Triple.pure.conseq (fun _ h => ⟨h.1, h.2 x rfl⟩) (fun _ _ h => h) fun _ h => h

/-- The file found, and its page or the view. -/
theorem lookupBody_reads (leaf : Name) : Triple (fun s => HeldAt v d s ∧ s.savedCwd = c) (do
      let s ← gets id
      let i ← orFailWith (s.findFile leaf)
      need (!(s.fileAt i).isDir && (s.fileAt i).data.isSome)
      let len ← Fs.refresh i
      let s ← gets id
      let data := (s.fileAt i).data.getD s.junk
      if s.cwd ≠ s.savedCwd then
        let v ← viewPage
        let v := putBytes v 0 data len
        upd fun s => { s with view := some v }
        pure (v, len)
      else pure (data, len))
    (fun r s => Held v s ∧
      ∃ f, ((v.listing d).find? fun f => f.name = leaf).filter (fun f => !f.isDir) = some f ∧
      r.2 = f.len ∧ Agree r.1 (v.fileBytes f.cluster) r.2) (Held v) := by
  refine .readAt fun s hs => ?_
  obtain ⟨⟨hh, rfl⟩, rfl⟩ := hs
  refine .take (fun _ h => h ▸ hh) fun i hi => .check (fun _ h => h ▸ hh) fun hok => ?_
  simp only [id] at hi hok ⊢
  obtain ⟨hat, hfind⟩ := hh.found hi
  have hdir : (s.fileAt i).bare.isDir = false := by
    rw [Bool.and_eq_true, Bool.not_eq_true'] at hok
    exact hok.1
  have hfile : ((v.listing s.cwd).find? fun f => f.name = leaf).filter (fun f => !f.isDir) =
      some (s.fileAt i).bare := by
    rw [hfind, Option.filter_some, hdir]
    rfl
  have hstart : ∀ s', s' = s → Looking v s.cwd s.savedCwd i (s.fileAt i).bare s' := by
    rintro s' rfl
    exact ⟨⟨hh, rfl⟩, rfl, _, hat, rfl⟩
  refine Triple.bind ((Looking.refresh hdir).conseq hstart (fun _ _ h => h) fun _ h => h) fun len => ?_
  refine .read fun s1 hs1 => ?_
  obtain ⟨rfl, -, data, hdata, hagree⟩ := hs1
  simp only [id, hdata, Option.getD_some]
  refine .ite (fun _ => ?_) fun _ => ?_
  · refine Triple.bind (viewPage_held.conseq (fun _ h => h.2.1.held.1) (fun _ _ h => h) fun _ h =>
      h) fun p => ?_
    refine Triple.bind (R := fun _ => Held v)
      (.change fun _ h => ⟨⟨h.vol.geo, h.vol.disk, h.vol.fat⟩, h.cache⟩) fun _ => ?_
    refine Triple.pure.conseq (fun s h => ⟨h, _, hfile, rfl, fun k hk => ?_⟩) (fun _ _ h => h) fun _ h => h
    rw [← hagree k hk]
    simp [putBytes, hk]
  · exact Triple.pure.conseq (fun s h => ⟨h.2.1.held.1, _, hfile, rfl, hagree⟩) (fun _ _ h => h) fun _ h => h

/-- **`fs_lookup`** hands out the contents of the file that the path denotes. -/
theorem fsLookup_denotes (cl : Nat) (path : Name) : Triple (HeldAt v cl) (fsLookup path)
    (fun r s => Held v s ∧ ∃ f, v.denotes cl path = some f ∧ r.2 = f.len ∧
    Agree r.1 (v.fileBytes f.cluster) r.2) (Held v) := by
  unfold fsLookup
  refine (enterParent_to path cl).bind fun leaf => ?_
  intro s hs
  obtain ⟨d, he, hat, hsaved⟩ := hs
  have hbody := thenLeave_held (lookupBody_reads (v := v) (d := d) (c := cl) leaf) s ⟨hat, hsaved⟩
  rw [denotes, he, Option.bind_some]
  exact hbody

/-! ## The root -/

/-- Clusters 0 and 1 both stand for the root. -/
theorem listing_root {a b : Nat} (ha : a < 2) (hb : b < 2) : v.listing a = v.listing b := by
  unfold listing dirSectors
  simp only [ha, hb, if_true]
  rfl

theorem enterTo_root {α : Type} (F : List FileEnt → Name → Option α) (cs : List (Option Name)) :
    ∀ {a b : Nat}, a < 2 → b < 2 →
    ((v.enterTo a cs).bind fun p => F (v.listing p.1) p.2) = (v.enterTo b cs).bind fun p =>
    F (v.listing p.1) p.2 := by
  induction cs with
  | nil => exact fun _ _ => rfl
  | cons x cs ih =>
    intro a b ha hb
    rcases x with _ | c
    · rfl
    · rcases cs with _ | ⟨_ | c', cs⟩
      · simp [enterTo, listing_root ha hb]
      · rfl
      · simp only [enterTo, stepTo, if_pos ha, if_pos hb, child, listing_root ha hb]
        split
        · exact ih ha hb
        · split
          · exact ih ha hb
          · rfl

/-- An absolute path denotes the same file in every directory. -/
theorem denotes_absolute {path : Name} (h : path.head? = some slash) (cl cl' : Nat) :
    v.denotes cl path = v.denotes cl' path := by
  have hfile := enterTo_root (v := v)
    (fun (l : List FileEnt) (c : Name) => (l.find? fun f => decide (f.name = c)).filter fun f => !f.isDir)
    (components path) (fromDir_absolute h cl) (fromDir_absolute h cl')
  exact hfile

end VampireOS.Fs
