import VampireOS.Fs.Ops

/-!
# Every call comes back (kernel/fs.c)

`enter_parent` notes the directory it starts from and `leave_parent` goes back there. In between the
calls read and write the volume but leave `g_saved_cwd` and `g_path` alone (`Within`), so every call,
also one that fails anywhere on the way, ends in the directory it began in (`SameCwd`).

The scans change nothing but the cache (`Cached`).
-/

namespace VampireOS

open Lib

namespace Fs

/-- Only the cache, the frames left for buffers and the fate of later transfers may be different. -/
structure Cached (s s' : Fs) : Prop where
  disk : s'.disk = s.disk
  geo : s'.geo = s.geo
  fat : s'.fat = s.fat
  cwd : s'.cwd = s.cwd
  savedCwd : s'.savedCwd = s.savedCwd
  path : s'.path = s.path
  dev : s'.dev = s.dev
  sent : s'.sent = s.sent
  errs : s.errs = [] → s'.errs = []

instance : Std.Refl Cached := ⟨fun _ => ⟨rfl, rfl, rfl, rfl, rfl, rfl, rfl, rfl, id⟩⟩

instance : IsTrans Fs Cached := ⟨fun _ _ _ h h' =>
  ⟨h'.disk.trans h.disk, h'.geo.trans h.geo, h'.fat.trans h.fat, h'.cwd.trans h.cwd,
    h'.savedCwd.trans h.savedCwd, h'.path.trans h.path, h'.dev.trans h.dev, h'.sent.trans h.sent,
    fun he => h'.errs (h.errs he)⟩⟩

/-- What the calls leave alone between `enter_parent` and `leave_parent`. -/
structure Within (s s' : Fs) : Prop where
  geo : s'.geo = s.geo
  savedCwd : s'.savedCwd = s.savedCwd
  path : s'.path = s.path

instance : Std.Refl Within := ⟨fun _ => ⟨rfl, rfl, rfl⟩⟩

instance : IsTrans Fs Within := ⟨fun _ _ _ h h' =>
  ⟨h'.geo.trans h.geo, h'.savedCwd.trans h.savedCwd, h'.path.trans h.path⟩⟩

theorem Cached.within {s s' : Fs} (h : Cached s s') : Within s s' := ⟨h.geo, h.savedCwd, h.path⟩

structure SameCwd (s s' : Fs) : Prop where
  cwd : s'.cwd = s.cwd
  path : s'.path = s.path

instance : Std.Refl SameCwd := ⟨fun _ => ⟨rfl, rfl⟩⟩

instance : IsTrans Fs SameCwd := ⟨fun _ _ _ h h' => ⟨h'.cwd.trans h.cwd, h'.path.trans h.path⟩⟩

/-! ## Reading -/

theorem driver_cached : Keeps Cached driver := by
  refine .bind .gets fun e => .bind
    (.upd fun s => ⟨rfl, rfl, rfl, rfl, rfl, rfl, rfl, rfl, fun he => ?_⟩) fun _ => .need
  simp [he]

theorem fetch_cached (lba n : Nat) : Keeps Cached (fetch lba n) :=
  .bind .gets fun _ => .bind .need fun _ => driver_cached

theorem bread_cached (lba : Nat) : Keeps Cached (bread lba) := (fetch_cached _ _).bind fun _ => .gets

theorem pageBuf_cached : Keeps Cached pageBuf :=
  .bind .gets fun _ => .bind .need fun _ => .bind
    (.upd fun _ => ⟨rfl, rfl, rfl, rfl, rfl, rfl, rfl, rfl, id⟩) fun _ => .pure

theorem dropPage_cached (d : Option Bytes) : Keeps Cached (dropPage d) :=
  .upd fun _ => ⟨rfl, rfl, rfl, rfl, rfl, rfl, rfl, rfl, id⟩

theorem loadFileFrom_cached (size : Nat) (cls : List Nat) : ∀ (dst : Bytes) (off : Nat),
    Keeps Cached (loadFileFrom dst size off cls) := by
  induction cls with
  | nil => intro dst off; exact .pure
  | cons cl cls ih =>
    intro dst off
    refine .ite (fun _ => .pure) fun _ => .bind .gets fun s => .bind (bread_cached _).result fun sec => ?_
    cases sec with
    | none => exact .pure
    | some b => exact ih _ _

theorem loadFile_cached (dst : Bytes) (start size : Nat) : Keeps Cached (loadFile dst start size) :=
  .bind .gets fun _ => loadFileFrom_cached _ _ _ _

theorem dirLoadFrom_cached (ls : List Nat) : ∀ off : Nat, Keeps Cached (dirLoadFrom off ls) := by
  induction ls with
  | nil => intro off; exact .upd fun _ => ⟨rfl, rfl, rfl, rfl, rfl, rfl, rfl, rfl, id⟩
  | cons lba rest ih =>
    intro off
    exact (bread_cached lba).bind fun b => .bind
      (.upd fun _ => ⟨rfl, rfl, rfl, rfl, rfl, rfl, rfl, rfl, id⟩) fun _ => ih _

theorem dirLoad_cached : Keeps Cached dirLoad :=
  .bind .gets fun _ => .bind (dirLoadFrom_cached _ _) fun _ => .need

theorem addFile_cached (f : FileEnt) : Keeps Cached (upd fun s => { s with files := s.files ++ [f] }) :=
  .upd fun _ => ⟨rfl, rfl, rfl, rfl, rfl, rfl, rfl, rfl, id⟩

theorem scanFrom_cached (left : Nat) : ∀ (i : Nat) (run : LfnRun), Keeps Cached (scanFrom left i run) := by
  induction left with
  | zero => intro i run; exact .pure
  | succ left ih =>
    intro i run
    refine .bind .gets fun s => .ite (fun _ => .pure) fun _ => .ite (fun _ => ih _ _) fun _ =>
      .ite (fun _ => ih _ _) fun _ => .ite (fun _ => ih _ _) fun _ => .ite (fun _ => ?_) fun _ =>
      .ite (fun _ => ih _ _) fun _ => ?_
    · exact (addFile_cached _).bind fun _ => ih _ _
    · exact pageBuf_cached.bind fun page => (loadFile_cached _ _ _).bind fun r =>
        (addFile_cached _).bind fun _ => ih _ _

theorem dropAll_cached (fs : List FileEnt) : Keeps Cached (dropAll fs) := by
  induction fs with
  | nil => exact .pure
  | cons f fs ih => exact (dropPage_cached _).bind fun _ => ih

theorem scanDir_cached : Keeps Cached scanDir :=
  .bind .gets fun _ => (dropAll_cached _).bind fun _ => .bind
    (.upd fun _ => ⟨rfl, rfl, rfl, rfl, rfl, rfl, rfl, rfl, id⟩) fun _ =>
    dirLoad_cached.bind fun _ => .bind .gets fun _ => scanFrom_cached _ _ _

theorem dirEmptyFrom_cached (cls : List Nat) : Keeps Cached (dirEmptyFrom cls) := by
  induction cls with
  | nil => exact .pure
  | cons cl cls ih =>
    refine .bind .gets fun s => .bind (bread_cached _).result fun b => ?_
    cases b with
    | none => exact .pure
    | some b =>
      simp only
      cases sectorEmpty b with
      | none => exact ih
      | some r => exact .pure

theorem dirEmpty_cached (cl : Nat) : Keeps Cached (dirEmpty cl) :=
  .bind .gets fun _ => .ite (fun _ => .pure) fun _ => dirEmptyFrom_cached _

theorem modFile_cached (i : Nat) (f : FileEnt → FileEnt) : Keeps Cached (modFile i f) :=
  .upd fun _ => ⟨rfl, rfl, rfl, rfl, rfl, rfl, rfl, rfl, id⟩

theorem refresh_cached (i : Nat) : Keeps Cached (refresh i) :=
  dirLoad_cached.bind fun _ => .bind .gets fun _ => (modFile_cached _ _).bind fun _ => .bind .need fun _ =>
    (loadFile_cached _ _ _).bind fun _ => (modFile_cached _ _).bind fun _ => .bind .need fun _ => .pure

theorem setView_cached (v : Bytes) : Keeps Cached (upd fun s => { s with view := some v }) :=
  .upd fun _ => ⟨rfl, rfl, rfl, rfl, rfl, rfl, rfl, rfl, id⟩

theorem viewPage_cached : Keeps Cached viewPage := by
  refine .bind .gets fun s => ?_
  cases s.view with
  | some v => exact .pure
  | none => exact pageBuf_cached.bind fun page => (setView_cached page).bind fun _ => .pure

/-! ## Walking -/

theorem scanDir_within : Keeps Within scanDir := scanDir_cached.mono fun _ _ => Cached.within
theorem dirLoad_within : Keeps Within dirLoad := dirLoad_cached.mono fun _ _ => Cached.within

theorem exec_setCwd (cl : Nat) (s : Fs) : exec (setCwd cl) s = (some (), { s with cwd := cl }) := rfl

theorem setCwd_within (cl : Nat) : Keeps Within (setCwd cl) := .upd fun _ => ⟨rfl, rfl, rfl⟩

theorem chdirOne_within (name : Name) : Keeps Within (chdirOne name) := by
  refine .bind .gets fun s => .ite (fun _ => .pure) fun _ =>
    .ite (fun _ => .ite (fun _ => .pure) fun _ => ?_) fun _ => ?_
  · exact ((bread_cached _).mono fun _ _ => Cached.within).bind fun b => (setCwd_within _).bind
      fun _ => scanDir_within
  · exact .bind .orFailWith fun i => .bind .need fun _ => (setCwd_within _).bind fun _ => scanDir_within

theorem toRoot_within : Keeps Within toRoot :=
  .bind .gets fun _ => .ite (fun _ => (setCwd_within 0).bind fun _ => scanDir_within) fun _ => .pure

theorem walkFrom_within (cs : List (Option Name)) : Keeps Within (walkFrom cs) := by
  induction cs with
  | nil => exact .pure
  | cons c cs ih =>
    cases c with
    | none => exact .failed
    | some c => exact (chdirOne_within c).bind fun _ => ih

theorem walkAll_within (path : Name) : Keeps Within (walkAll path) :=
  .ite (fun _ => toRoot_within.bind fun _ => walkFrom_within _) fun _ => walkFrom_within _

theorem enterFrom_within (cs : List (Option Name)) : Keeps Within (enterFrom cs) := by
  induction cs with
  | nil => exact .failed
  | cons c cs ih =>
    match c, cs with
    | some c, [] => exact .pure
    | some c, some c' :: cs => exact (chdirOne_within c).bind fun _ => ih
    | some c, none :: cs => exact .failed
    | none, cs => exact .failed

/-! ## Writing -/

theorem send_within (lba n : Nat) : Keeps Within (send lba n) :=
  .bind .gets fun _ => .bind .need fun _ => .bind (.upd fun _ => ⟨rfl, rfl, rfl⟩) fun _ =>
    driver_cached.mono fun _ _ => Cached.within

theorem modFile_within (i : Nat) (f : FileEnt → FileEnt) : Keeps Within (modFile i f) :=
  (modFile_cached i f).mono fun _ _ => Cached.within

theorem bwrite_within (lba : Nat) (b : Bytes) : Keeps Within (bwrite lba b) :=
  (send_within _ _).bind fun _ => .upd fun _ => ⟨rfl, rfl, rfl⟩

theorem bwriteN_within (lba n : Nat) (b : Bytes) : Keeps Within (bwriteN lba n b) :=
  (send_within _ _).bind fun _ => .upd fun _ => ⟨rfl, rfl, rfl⟩

theorem fatFlush_within : Keeps Within fatFlush :=
  .bind .gets fun _ => (bwriteN_within _ _ _).bind fun _ => bwriteN_within _ _ _

theorem fatSet_within (cl val : Nat) : Keeps Within (fatSet cl val) := .upd fun _ => ⟨rfl, rfl, rfl⟩

theorem fatAlloc_within : Keeps Within fatAlloc :=
  .bind .gets fun _ => .bind .orFailWith fun _ => (fatSet_within _ _).bind fun _ => .pure

theorem fatClear_within (cls : List Nat) : Keeps Within (fatClear cls) := by
  induction cls with
  | nil => exact .pure
  | cons cl cls ih => exact (fatSet_within cl 0).bind fun _ => ih

theorem fatFreeChain_within (cl : Nat) : Keeps Within (fatFreeChain cl) :=
  .bind .gets fun _ => fatClear_within _

theorem fatExtend_within (n : Nat) : ∀ cls : List Nat, Keeps Within (fatExtend n cls) := by
  induction n with
  | zero => intro cls; exact .pure
  | succ n ih =>
    intro cls
    refine fatAlloc_within.result.bind fun cl => ?_
    cases cl with
    | none => exact .pure
    | some cl =>
      simp only
      cases cls.getLast? with
      | none => exact ih _
      | some prev => exact (fatSet_within prev cl).bind fun _ => ih _

theorem fatResize_within (start count : Nat) : Keeps Within (fatResize start count) :=
  .ite (fun _ => .pure) fun _ => .bind .gets fun _ => (fatExtend_within _ _).bind fun _ =>
    .ite (fun _ => (fatClear_within _).bind fun _ => (fatSet_within _ _).bind fun _ => .pure) fun _ => .pure

theorem storeChainFrom_within (src : Bytes) (len : Nat) (cls : List Nat) : ∀ off : Nat,
    Keeps Within (storeChainFrom src len off cls) := by
  induction cls with
  | nil => intro off; exact .need
  | cons cl cls ih =>
    intro off
    exact .ite (fun _ => .pure) fun _ => .bind .gets fun _ => (bwrite_within _ _).bind fun _ => ih _

theorem storeChain_within (start : Nat) (src : Bytes) (len : Nat) : Keeps Within (storeChain start src len) :=
  .bind .gets fun _ => storeChainFrom_within _ _ _ _

theorem dirStoreFrom_within (ls : List Nat) : ∀ off : Nat, Keeps Within (dirStoreFrom off ls) := by
  induction ls with
  | nil => intro off; exact .bind .gets fun _ => .need
  | cons lba rest ih =>
    intro off
    exact .bind .gets fun _ => .ite (fun _ => .pure) fun _ => (bwrite_within _ _).bind fun _ => ih _

theorem dirStore_within : Keeps Within dirStore :=
  .bind .gets fun _ => .bind .need fun _ => dirStoreFrom_within _ _

theorem dirGrow_within : Keeps Within dirGrow := by
  refine .bind .gets fun _ => .bind .need fun _ => fatAlloc_within.bind fun _ =>
    (fatSet_within _ _).bind fun _ =>
    fatFlush_within.attempt.bind fun _ => .ite (fun _ => .upd fun _ => ⟨rfl, rfl, rfl⟩) fun _ => ?_
  exact (fatSet_within _ _).bind fun _ => (fatSet_within _ _).bind fun _ =>
    fatFlush_within.attempt.bind fun _ => .failed

theorem dirSlots_within (count : Nat) : Keeps Within (dirSlots count) := by
  refine dirLoad_within.bind fun _ => .bind .gets fun s => ?_
  cases s.dirFindRun count with
  | some off => exact .pure
  | none => exact dirGrow_within.bind fun _ => .bind .gets fun _ => .orFailWith

theorem dirWipe_within (off : Nat) : Keeps Within (dirWipe off) := .upd fun _ => ⟨rfl, rfl, rfl⟩
theorem putEntry_within (off : Nat) (e : Bytes) : Keeps Within (putEntry off e) :=
  .upd fun _ => ⟨rfl, rfl, rfl⟩
theorem putSize_within (off cl len : Nat) : Keeps Within (putSize off cl len) := .upd fun _ => ⟨rfl, rfl, rfl⟩
theorem dropPage_within (d : Option Bytes) : Keeps Within (dropPage d) := .upd fun _ => ⟨rfl, rfl, rfl⟩

theorem putLfn_within (off count : Nat) (sum : UInt8) (name : Name) (seq : Nat) :
    Keeps Within (putLfn off count sum name seq) := by
  induction seq with
  | zero => exact .pure
  | succ seq ih => exact (putEntry_within _ _).bind fun _ => ih

theorem giveBack_within {α : Type} (cl : Nat) : Keeps Within (giveBack cl : FsM α) :=
  (fatSet_within cl 0).bind fun _ => fatFlush_within.attempt.bind fun _ => .failed

theorem createName_within (name : Name) : Keeps Within (createName name) := by
  unfold createName
  cases to83 name with
  | some n83 => exact .pure
  | none =>
    exact dirLoad_within.bind fun _ => .bind .need fun _ => .bind .gets fun _ => .bind .orFailWith fun _ =>
      .bind .need fun _ => .pure

theorem fsCreate_within (name : Name) : Keeps Within (fsCreate name) := by
  refine .bind .gets fun _ => .bind .need fun _ => (createName_within name).bind fun _ =>
    (pageBuf_cached.mono fun _ _ => Cached.within).bind fun _ => fatAlloc_within.result.bind fun cl => ?_
  cases cl with
  | none => exact (dropPage_within _).bind fun _ => .failed
  | some cl =>
    refine fatFlush_within.attempt.bind fun _ => .ite (fun _ => ?_) fun _ =>
      (dirSlots_within _).result.bind fun off => ?_
    · exact (fatSet_within _ _).bind fun _ => (dropPage_within _).bind fun _ => .failed
    · cases off with
      | none => exact (dropPage_within _).bind fun _ => giveBack_within _
      | some off =>
        refine (putLfn_within _ _ _ _ _).bind fun _ => (putEntry_within _ _).bind fun _ =>
          dirStore_within.attempt.bind fun _ => .ite (fun _ => ?_) fun _ => ?_
        · exact (dropPage_within _).bind fun _ => giveBack_within _
        · exact .bind .gets fun _ => .bind (.upd fun _ => ⟨rfl, rfl, rfl⟩) fun _ => .pure

theorem writeFile_within (i : Nat) (src : Bytes) (len : Nat) : Keeps Within (writeFile i src len) :=
  .ite (fun _ => .pure) fun _ => .bind .need fun _ => .bind .gets fun _ =>
    (fatResize_within _ _).bind fun _ =>
    (modFile_within _ _).bind fun _ => .bind .need fun _ => fatFlush_within.bind fun _ =>
    (storeChain_within _ _ _).bind fun _ => dirLoad_within.bind fun _ => (putSize_within _ _ _).bind fun _ =>
    dirStore_within.bind fun _ => modFile_within _ _

theorem truncateZero_within (i : Nat) : Keeps Within (truncateZero i) :=
  .bind .gets fun _ => (fatFreeChain_within _).bind fun _ => (modFile_within _ _).bind fun _ =>
    fatFlush_within.bind fun _ => dirLoad_within.bind fun _ => (putSize_within _ _ _).bind fun _ =>
    dirStore_within.bind fun _ => modFile_within _ _

theorem truncateTo_within (i len : Nat) : Keeps Within (truncateTo i len) := by
  refine .bind .gets fun _ => (fatResize_within _ _).bind fun _ => (modFile_within _ _).bind
    fun _ => .bind .need fun _ =>
    fatFlush_within.bind fun _ => .ite (fun _ => ?_) fun _ => ?_
  · refine (modFile_within _ _).bind fun _ => (storeChain_within _ _ _).bind fun _ =>
      dirLoad_within.bind fun _ =>
      (putSize_within _ _ _).bind fun _ => dirStore_within.bind fun _ => modFile_within _ _
  · exact dirLoad_within.bind fun _ => (putSize_within _ _ _).bind fun _ => dirStore_within.bind fun _ =>
      modFile_within _ _

theorem removeFile_within (i : Nat) : Keeps Within (removeFile i) := by
  refine dirLoad_within.bind fun _ => .bind .gets fun s => .ite (fun _ => ?_) fun _ => ?_
  · exact (fatFreeChain_within _).bind fun _ => fatFlush_within.bind fun _ => (dirWipe_within _).bind fun _ =>
      dirStore_within.bind fun _ => .upd fun _ => ⟨rfl, rfl, rfl⟩
  · exact (dirWipe_within _).bind fun _ => dirStore_within.bind fun _ => .upd fun _ => ⟨rfl, rfl, rfl⟩

theorem putCopy_within (e : Bytes) (n83 : Name) : Keeps Within (putCopy e n83) :=
  (dirSlots_within 1).bind fun _ => (putEntry_within _ _).bind fun _ => .bind
    (.upd fun _ => ⟨rfl, rfl, rfl⟩) fun _ =>
    dirStore_within

theorem renameHere_within (leaf n83 : Name) : Keeps Within (renameHere leaf n83) :=
  .bind .gets fun _ => .bind .orFailWith fun _ => dirLoad_within.bind fun _ =>
    .bind (.upd fun _ => ⟨rfl, rfl, rfl⟩) fun _ => dirStore_within.bind fun _ => scanDir_within

theorem wipeSource_within (leaf : Name) : Keeps Within (wipeSource leaf) :=
  .bind .gets fun _ => .bind .orFailWith fun _ => dirLoad_within.bind fun _ =>
    (dirWipe_within _).bind fun _ =>
    dirStore_within.bind fun _ => scanDir_within

theorem mkdirEntry_within (n83 : Name) (cl : Nat) : Keeps Within (mkdirEntry n83 cl) :=
  (dirSlots_within 1).bind fun _ => (putEntry_within _ _).bind fun _ => dirStore_within

theorem mkdirBody_within (n83 : Name) : Keeps Within (mkdirBody n83) := by
  refine fatAlloc_within.bind fun _ => fatFlush_within.attempt.bind fun _ => .ite (fun _ => ?_) fun _ =>
    .bind .gets fun _ => (bwrite_within _ _).attempt.bind fun _ => .ite (fun _ => giveBack_within _)
      fun _ => ?_
  · exact (fatSet_within _ _).bind fun _ => .failed
  · exact (mkdirEntry_within _ _).attempt.bind fun _ => .ite (fun _ => giveBack_within _) fun _ => .pure

theorem rmdirBody_within (i : Nat) : Keeps Within (rmdirBody i) :=
  .bind .gets fun _ => (fatFreeChain_within _).bind fun _ => fatFlush_within.bind fun _ =>
    dirLoad_within.bind fun _ =>
    (dirWipe_within _).bind fun _ => dirStore_within.bind fun _ => .upd fun _ => ⟨rfl, rfl, rfl⟩

/-! ## The calls -/

/-- In directory `c` under the path `p`. -/
def At (c : Nat) (p : Name) (s : Fs) : Prop := s.cwd = c ∧ s.path = p

/-- Somewhere else, to come back to `c`. -/
def Away (c : Nat) (p : Name) (s : Fs) : Prop := s.savedCwd = c ∧ s.path = p

/-- A call that ends where it began, on every way out. -/
def ComesBack {α : Type} (m : FsM α) : Prop := ∀ c p, Triple (At c p) m (fun _ => At c p) (At c p)

theorem ComesBack.keeps {α : Type} {m : FsM α} (h : ComesBack m) (s : Fs) :
    (exec m s).2.cwd = s.cwd ∧ (exec m s).2.path = s.path := by
  obtain ⟨h1, h2⟩ := h s.cwd s.path s ⟨rfl, rfl⟩
  cases hx : (exec m s).1 with
  | none => exact h2 hx
  | some a => exact h1 a hx

section
variable {α : Type} {c : Nat} {p : Name}

theorem within_away {m : FsM α} (h : Keeps Within m) :
    Triple (Away c p) m (fun _ => Away c p) (Away c p) := by
  intro s hs
  have hw := h s
  have ha : Away c p (exec m s).2 := ⟨hw.savedCwd.trans hs.1, hw.path.trans hs.2⟩
  exact ⟨fun _ _ => ha, fun _ => ha⟩

/-- After a step that keeps `g_saved_cwd` and cannot fail, what follows has to come back. -/
theorem bind_away {β : Type} {m : FsM α} {f : α → FsM β} (hm : Keeps Within m)
    (hok : ∀ s, (exec m s).1 ≠ none) (hf : ∀ a, Triple (Away c p) (f a) (fun _ => At c p)
      (At c p)) :
    Triple (Away c p) (m >>= f) (fun _ => At c p) (At c p) := by
  refine .bind (R := fun _ => Away c p) (fun s hs => ?_) hf
  exact ⟨fun a ha => (within_away hm s hs).1 a ha, fun hn => absurd hn (hok s)⟩

theorem leaveParent_spec : Triple (Away c p) leaveParent (fun _ => At c p) (At c p) := by
  intro s hs
  have hleave : At c p (exec leaveParent s).2 := by
    unfold leaveParent
    simp only [exec_bind, exec_gets, Option.elim, id, exec_ite]
    split
    · have hk := scanDir_cached (exec (setCwd s.savedCwd) s).2
      exact ⟨hk.cwd.trans hs.1, hk.path.trans hs.2⟩
    · rename_i hc
      exact ⟨(not_not.1 hc).trans hs.1, hs.2⟩
  exact ⟨fun _ _ => hleave, fun _ => hleave⟩

theorem leaveFail_spec : Triple (Away c p) (leaveFail : FsM α) (fun _ => At c p) (At c p) :=
  .bind (R := fun _ => At c p) (.attempt leaveParent_spec) fun _ => .failed

theorem thenLeave_spec {body : FsM α} (h : Keeps Within body) :
    Triple (Away c p) (thenLeave body) (fun _ => At c p) (At c p) := by
  refine bind_away h.result nofun fun r => .bind leaveParent_spec fun _ => ?_
  refine Triple.orFailWith.conseq (fun s hs => ?_) (fun _ _ => id) fun _ => id
  cases r with
  | none => exact hs
  | some a => exact hs

theorem enterParent_spec (path : Name) : Triple (At c p) (enterParent path) (fun _ => Away c p) (At c p) := by
  have hwalk : Keeps Within (do
      if path.head? = some slash then toRoot
      enterFrom (components path)) :=
    .ite (fun _ => toRoot_within.bind fun _ => enterFrom_within _) fun _ => enterFrom_within _
  refine .bind (R := fun _ s => Away c p s ∧ At c p s) (fun s hs => ?_) fun _ =>
    .bind (R := fun _ => Away c p) (fun s hs => ?_) fun _ =>
    .bind (R := fun _ => Away c p) (.result (within_away hwalk)) fun leaf => ?_
  · exact ⟨fun _ _ => ⟨⟨hs.1, hs.2⟩, hs⟩, nofun⟩
  · exact ⟨fun _ _ => hs.1, fun _ => hs.2⟩
  · cases leaf with
    | some leaf => exact Triple.pure (Q := fun _ => Away c p)
    | none => exact .bind (.attempt leaveParent_spec) fun _ => .failed

end

/-- Enter, do something, and leave. -/
theorem comesBack_enter {α : Type} {path : Name} {f : Name → FsM α}
    (h : ∀ c p leaf, Triple (Away c p) (f leaf) (fun _ => At c p) (At c p)) :
    ComesBack (enterParent path >>= f) :=
  fun c p => .bind (enterParent_spec path) (h c p)

theorem ComesBack.bind {α β : Type} {m : FsM α} {f : α → FsM β} (hm : ComesBack m)
    (hf : ∀ a, ComesBack (f a)) :
    ComesBack (m >>= f) := fun c p => .bind (hm c p) fun a => hf a c p

theorem comesBack_of_keeps {α : Type} {m : FsM α} (h : Keeps SameCwd m) : ComesBack m := by
  intro c p s hs
  have hk := h s
  have hat : At c p (exec m s).2 := ⟨hk.cwd.trans hs.1, hk.path.trans hs.2⟩
  exact ⟨fun _ _ => hat, fun _ => hat⟩

theorem Cached.sameCwd {s s' : Fs} (h : Cached s s') : SameCwd s s' := ⟨h.cwd, h.path⟩

theorem comesBack_of_cached {α : Type} {m : FsM α} (h : Keeps Cached m) : ComesBack m :=
  comesBack_of_keeps (h.mono fun _ _ => Cached.sameCwd)

theorem fsLookup_back (path : Name) : ComesBack (fsLookup path) := by
  refine comesBack_enter fun c p leaf => thenLeave_spec ?_
  refine .bind .gets fun s => .bind .orFailWith fun i => .bind .need fun _ =>
    ((refresh_cached i).mono fun _ _ => Cached.within).bind fun len => .bind .gets fun s =>
      .ite (fun _ => ?_) fun _ => .pure
  exact (viewPage_cached.mono fun _ _ => Cached.within).bind fun v =>
    ((setView_cached _).mono fun _ _ => Cached.within).bind fun _ => .pure

theorem fsStat_back (path : Name) : ComesBack (fsStat path) := by
  refine comesBack_enter fun c p leaf => thenLeave_spec ?_
  exact .bind .gets fun s => .bind .orFailWith fun i => dirLoad_within.bind fun _ => .bind .gets
    fun s => .pure

theorem fsWrite_back (path : Name) (src : Bytes) (len : Nat) : ComesBack (fsWrite path src len) := by
  refine comesBack_enter fun c p leaf => bind_away .gets nofun fun s => ?_
  cases s.findFile leaf with
  | some i => exact .ite (fun _ => leaveFail_spec) fun _ => thenLeave_spec (writeFile_within i src len)
  | none =>
    refine bind_away (fsCreate_within leaf).result nofun fun i => ?_
    cases i with
    | none => exact leaveFail_spec
    | some i => exact thenLeave_spec (writeFile_within i src len)

theorem fsTruncate_back (path : Name) (len : Nat) : ComesBack (fsTruncate path len) := by
  refine .bind (comesBack_of_cached .need) fun _ => comesBack_enter fun c p leaf => bind_away .gets
    nofun fun s => ?_
  cases (s.findFile leaf).filter fun i => !(s.fileAt i).isDir && (s.fileAt i).data.isSome with
  | none => exact leaveFail_spec
  | some i =>
    exact thenLeave_spec (.ite (fun _ => .pure) fun _ => .ite (fun _ => truncateZero_within i) fun _ =>
      truncateTo_within i len)

theorem fsRemove_back (path : Name) : ComesBack (fsRemove path) :=
  comesBack_enter fun _ _ _ => thenLeave_spec
    (.bind .gets fun _ => .bind .orFailWith fun i => .bind .need fun _ => removeFile_within i)

theorem grabEntry_back (path : Name) (ok : FileEnt → Bool) : ComesBack (grabEntry path ok) := by
  refine comesBack_enter fun c p leaf => bind_away .gets nofun fun s => ?_
  cases (s.findFile leaf).filter fun i => ok (s.fileAt i) with
  | none => exact leaveFail_spec
  | some i =>
    refine bind_away dirLoad_within.attempt nofun fun r => .ite (fun _ => leaveFail_spec) fun _ =>
      bind_away .gets nofun fun s => .bind leaveParent_spec fun _ => Triple.pure (Q := fun _ => At c p)

theorem fsRename_back (src dst : Name) : ComesBack (fsRename src dst) := by
  refine .bind (grabEntry_back src _) fun r => comesBack_enter fun c p leaf => bind_away .gets nofun
    fun s => ?_
  cases to83 leaf with
  | none => exact leaveFail_spec
  | some n83 =>
    refine .ite (fun _ => leaveFail_spec) fun _ =>
      .ite (fun _ => thenLeave_spec (renameHere_within _ _)) fun _ =>
      bind_away (putCopy_within _ _).attempt nofun fun ok => .ite (fun _ => leaveFail_spec) fun _ =>
      .bind leaveParent_spec fun _ => .bind (enterParent_spec src) fun leaf => thenLeave_spec
        (wipeSource_within leaf)

theorem fsCopy_back (src dst : Name) : ComesBack (fsCopy src dst) :=
  (fsLookup_back src).bind fun _ => .bind (comesBack_of_cached viewPage_cached) fun _ =>
    .bind (comesBack_of_cached (setView_cached _)) fun _ => fsWrite_back _ _ _

theorem fsLink_back (src dst : Name) : ComesBack (fsLink src dst) := by
  refine .bind (grabEntry_back src _) fun r => comesBack_enter fun c p leaf => bind_away .gets nofun
    fun s => ?_
  cases to83 leaf with
  | none => exact leaveFail_spec
  | some n83 =>
    exact .ite (fun _ => leaveFail_spec) fun _ => thenLeave_spec
      ((putCopy_within _ _).bind fun _ => scanDir_within)

theorem fsMkdir_back (path : Name) : ComesBack (fsMkdir path) := by
  refine comesBack_enter fun c p leaf => bind_away .gets nofun fun s => ?_
  cases to83 leaf with
  | none => exact leaveFail_spec
  | some n83 =>
    exact .ite (fun _ => leaveFail_spec) fun _ => thenLeave_spec
      ((mkdirBody_within n83).bind fun _ => scanDir_within)

theorem fsRmdir_back (path : Name) : ComesBack (fsRmdir path) :=
  comesBack_enter fun _ _ _ => thenLeave_spec
    (.bind .gets fun _ => .bind .orFailWith fun i => .bind .need fun _ =>
      ((dirEmpty_cached _).mono fun _ _ => Cached.within).bind fun _ => .bind .need fun _ =>
        rmdirBody_within i)

theorem send_stays (lba n : Nat) : Keeps SameCwd (send lba n) :=
  .bind .gets fun _ => .bind .need fun _ => .bind (.upd fun _ => ⟨rfl, rfl⟩) fun _ =>
    driver_cached.mono fun _ _ => Cached.sameCwd

theorem bwrite_stays (lba : Nat) (b : Bytes) : Keeps SameCwd (bwrite lba b) :=
  (send_stays _ _).bind fun _ => .upd fun _ => ⟨rfl, rfl⟩

theorem bwriteN_stays (lba n : Nat) (b : Bytes) : Keeps SameCwd (bwriteN lba n b) :=
  (send_stays _ _).bind fun _ => .upd fun _ => ⟨rfl, rfl⟩

theorem dirStoreFrom_stays (ls : List Nat) : ∀ off : Nat, Keeps SameCwd (dirStoreFrom off ls) := by
  induction ls with
  | nil => intro off; exact .bind .gets fun _ => .need
  | cons lba rest ih =>
    intro off
    exact .bind .gets fun _ => .ite (fun _ => .pure) fun _ => (bwrite_stays _ _).bind fun _ => ih _

theorem fsSync_back : ComesBack fsSync := by
  have hflush : Keeps SameCwd fatFlush := .bind .gets fun _ => (bwriteN_stays _ _ _).bind fun _ =>
    bwriteN_stays _ _ _
  have hstore : Keeps SameCwd dirStore := .bind .gets fun _ => .bind .need fun _ => dirStoreFrom_stays _ _
  exact comesBack_of_keeps
    (hflush.bind fun _ => hstore.bind fun _ => driver_cached.mono fun _ _ => Cached.sameCwd)

/-! ## Changing directory -/

/-- A path that fits its buffer. -/
def PathOk (p : Name) : Prop := p ≠ [] ∧ p.length < pathMax

theorem pathPop_ok {p : Name} (h : PathOk p) : PathOk (pathPop p) := by
  unfold pathPop
  simp only
  split
  · exact ⟨by simp, by simp [pathMax]⟩
  · rename_i hk
    refine ⟨hk, Nat.lt_of_le_of_lt ?_ h.2⟩
    have hd := (List.dropWhile_suffix (l := p.reverse) (· ≠ slash)).length_le
    simp only [List.length_reverse, List.length_tail] at hd ⊢
    omega

theorem pathPush_ok {p c q : Name} (h : pathPush p c = some q) : PathOk q := by
  unfold pathPush at h
  split at h
  · cases h
  · rename_i hc
    obtain ⟨hl, hq⟩ := Option.ite_none_right_eq_some.1 h
    cases hq
    exact ⟨by simp [hc], hl⟩

theorem pathApplyFrom_ok (cs : List (Option Name)) :
    ∀ {p q : Name}, PathOk p → pathApplyFrom p cs = some q → PathOk q := by
  induction cs with
  | nil => intro p q hp h; cases h; exact hp
  | cons c cs ih =>
    intro p q hp h
    cases c with
    | none => cases h
    | some c =>
      simp only [pathApplyFrom] at h
      split at h
      · exact ih hp h
      · split at h
        · exact ih (pathPop_ok hp) h
        · obtain ⟨r, hr, hq⟩ := Option.bind_eq_some_iff.1 h
          exact ih (pathPush_ok hr) hq

theorem pathApply_ok {p path q : Name} (hp : PathOk p) (h : pathApply p path = some q) : PathOk q := by
  refine pathApplyFrom_ok _ ?_ h
  split
  · exact ⟨by simp, by simp [pathMax]⟩
  · exact hp

/-- `fs_chdir` fails when the text does, or the walk; else it is the walk under the new path. -/
theorem fsChdir_cases (path : Name) (s : Fs) :
    ((exec (fsChdir path) s).1 = none ∧ At s.cwd s.path (exec (fsChdir path) s).2) ∨
    ∃ q, path ≠ [] ∧ pathApply s.path path = some q ∧ (exec (walkAll path) { s with path := q }).1 = some () ∧
      exec (fsChdir path) s = (some (), (exec (walkAll path) { s with path := q }).2) := by
  unfold fsChdir
  by_cases h0 : path = []
  · exact .inl (by simp [exec_bind, h0, At])
  · cases hp : pathApply s.path path with
    | none => exact .inl (by simp [exec_bind, h0, At, hp])
    | some q =>
      have hw := walkAll_within path { s with path := q }
      cases hx : (exec (walkAll path) { s with path := q }).1 with
      | some a => exact .inr ⟨q, h0, rfl, hx, by simp [exec_bind, h0, hp, hx, exec_ite]⟩
      | none =>
        refine .inl ?_
        by_cases hc : (exec (walkAll path) { s with path := q }).2.cwd = s.cwd
        · simp [exec_bind, exec_ite, h0, hp, hx, hc, At]
        · have hk := scanDir_cached { (exec (walkAll path) { s with path := q }).2 with cwd := s.cwd }
          simp only [exec_bind, exec_ite, exec_need, exec_gets, exec_orFailWith, exec_upd,
            exec_attempt, exec_failed, h0, hp, hx, hc, id, Option.elim_some, Option.isSome_none,
            ne_eq, if_true, not_false_iff, exec_setCwd]
          exact ⟨rfl, hk.cwd, rfl⟩

theorem fsChdir_path {path : Name} {s : Fs} (h : PathOk s.path) : PathOk (exec (fsChdir path) s).2.path := by
  rcases fsChdir_cases path s with ⟨-, -, hp⟩ | ⟨q, -, hq, -, e⟩
  · rw [hp]; exact h
  · rw [e, (walkAll_within path _).path]
    exact pathApply_ok h hq

theorem fsSetcwd_at (cl : Nat) (s : Fs) : At cl s.path (exec (fsSetcwd cl) s).2 := by
  have hk := scanDir_cached (exec (setCwd cl) s).2
  exact ⟨hk.cwd, hk.path⟩

theorem fsSetpwd_at {p : Name} (hp : PathOk p) (s : Fs) :
    exec (fsSetpwd p) s = (some (), { s with path := p }) := by
  unfold fsSetpwd
  simp [exec_bind, hp.1, hp.2]

end Fs

end VampireOS
