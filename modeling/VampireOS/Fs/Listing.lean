import VampireOS.Fs.Fat

/-!
# What a directory lists (kernel/fs.c:1230-1315)

`listing` reads a directory off the volume as a scan would with a device that does not fail and
pages enough; the cache after a scan is the beginning of it, and all of it after a scan that
succeeds.
-/

namespace VampireOS

open Lib

/-- An entry of the cache without its page. -/
def FileEnt.bare (f : FileEnt) : FileEnt := { f with data := none }

namespace Fs

/-- The bytes of the sectors `ls`, one after another. -/
def sectorBytes (disk : Nat → Bytes) (ls : List Nat) : Bytes := fun i =>
  (ls[i / secSize]?).elim 0 fun l => disk l (i % secSize)

/-- The entries from `i` on that a scan puts into the cache, as long as there is room; the pages are
left out. -/
def listFrom (d : Bytes) : Nat → Nat → LfnRun → Nat → List FileEnt
  | 0, _, _, _ => []
  | left + 1, i, run, room =>
    let attr := d (32 * i + 11)
    if room = 0 ∨ d (32 * i) = 0 then []
    else if skipMark (d (32 * i)) then listFrom d left (i + 1) none room
    else if attr = 0x0F then listFrom d left (i + 1) (nextRun d i run) room
    else if attr &&& 0x08 ≠ 0 then listFrom d left (i + 1) none room
    else
      let f : FileEnt := ⟨entryName d i run, none, 0, rdU16 d (32 * i + 26), 32 * i, false⟩
      if attr &&& 0x10 ≠ 0 then { f with isDir := true } :: listFrom d left (i + 1) none (room - 1)
      else
        let sz := rdU32 d (32 * i + 28)
        if sz > fileMax then listFrom d left (i + 1) none room
        else { f with len := sz } :: listFrom d left (i + 1) none (room - 1)

/-- The directory at cluster `cl`. -/
def listing (s : Fs) (cl : Nat) : List FileEnt :=
  let ls := { s with cwd := cl }.dirSectors
  listFrom (sectorBytes s.disk ls) (ls.length * 16) 0 none fsMax

/-! ## Only the bytes of the directory count -/

def Agree (d d' : Bytes) (n : Nat) : Prop := ∀ k, k < n → d k = d' k

variable {d d' : Bytes} {n : Nat}

theorem Agree.mono {m : Nat} (h : Agree d d' n) (hm : m ≤ n) : Agree d d' m :=
  fun k hk => h k (Nat.lt_of_lt_of_le hk hm)

theorem Agree.rdU16 {o : Nat} (h : Agree d d' n) (ho : o + 2 ≤ n) : rdU16 d o = rdU16 d' o := by
  unfold VampireOS.rdU16
  rw [h o (by omega), h (o + 1) (by omega)]

theorem Agree.rdU32 {o : Nat} (h : Agree d d' n) (ho : o + 4 ≤ n) : rdU32 d o = rdU32 d' o := by
  unfold VampireOS.rdU32
  rw [h o (by omega), h (o + 1) (by omega), h (o + 2) (by omega), h (o + 3) (by omega)]

theorem Agree.bytes {o k : Nat} (h : Agree d d' n) (ho : o + k ≤ n) :
    ((List.range k).map fun i => d (o + i)) = (List.range k).map fun i => d' (o + i) :=
  List.map_congr_left fun i hi => h _ (by have := List.mem_range.1 hi; omega)

theorem Agree.name83 {o : Nat} (h : Agree d d' n) (ho : o + 32 ≤ n) : name83 d o = name83 d' o :=
  h.bytes (by omega)

theorem Agree.fatName {o : Nat} (h : Agree d d' n) (ho : o + 32 ≤ n) : fatName d o = fatName d' o := by
  unfold Fs.fatName fatChars
  simp only
  rw [h.bytes (by omega), h.bytes (o := o + 8) (by omega), h (o + 8) (by omega)]

theorem Agree.lfnChars {o : Nat} (h : Agree d d' n) (ho : o + 32 ≤ n) (out : Name) :
    lfnChars d o out = lfnChars d' o out := by
  have hslot : (lfnSlot.map fun p => (d (o + p), d (o + p + 1))) = lfnSlot.map fun p =>
      (d' (o + p), d' (o + p + 1)) := by
    refine List.map_congr_left fun p hp => ?_
    have : p ≤ 30 := by
      revert p
      decide
    rw [h _ (by omega), h _ (by omega)]
  unfold Fs.lfnChars
  rw [hslot, h (o + 11) (by omega), h (o + 12) (by omega)]

theorem Agree.lfnBuild {first count o : Nat} (h : Agree d d' n) (hc : 32 * (first + count) ≤ n)
    (ho : o + 32 ≤ n) :
    lfnBuild d first count o = lfnBuild d' first count o := by
  have hlt : ∀ i ∈ List.range count, 32 * (first + i) + 32 ≤ n := fun i hi => by
    have := List.mem_range.1 hi
    omega
  unfold Fs.lfnBuild
  simp only [h.name83 ho]
  have hall : ((List.range count).all fun i => d (32 * (first + i)) =
    (UInt8.ofNat (count - i) ||| if i = 0 then 0x40 else 0) &&
      d (32 * (first + i) + 13) = lfnCksum (Fs.name83 d' o)) =
      (List.range count).all fun i => d' (32 * (first + i)) = (UInt8.ofNat (count - i) ||| if i = 0
        then 0x40 else 0) &&
      d' (32 * (first + i) + 13) = lfnCksum (Fs.name83 d' o) := by
    rw [Bool.eq_iff_iff, List.all_eq_true, List.all_eq_true]
    refine forall₂_congr fun i hi => ?_
    have := hlt i hi
    rw [h _ (by omega), h _ (by omega)]
  have hfold : ∀ (l : List Nat) (a : Option Name), (∀ i ∈ l, i ∈ List.range count) →
      l.foldl (fun acc i => acc.bind fun out => Fs.lfnChars d (32 * (first + i)) out) a =
      l.foldl (fun acc i => acc.bind fun out => Fs.lfnChars d' (32 * (first + i)) out) a := by
    intro l
    induction l with
    | nil => exact fun _ _ => rfl
    | cons i l ih =>
      intro a hl
      have he : (a.bind fun out => Fs.lfnChars d (32 * (first + i)) out) = a.bind fun out =>
          Fs.lfnChars d' (32 * (first + i)) out :=
        congrArg a.bind (funext fun out => h.lfnChars (hlt i (hl i List.mem_cons_self)) out)
      rw [List.foldl_cons, List.foldl_cons, he]
      exact ih _ fun j hj => hl j (List.mem_cons_of_mem _ hj)
  rw [hall, hfold _ _ fun i hi => List.mem_reverse.1 hi]

/-- A run ends before the entry `i`. -/
def RunBefore (i : Nat) (run : LfnRun) : Prop := ∀ r, run = some r → r.1 + r.2 = i

theorem RunBefore.none {i : Nat} : RunBefore i none := nofun

theorem RunBefore.next {i : Nat} {run : LfnRun} (h : RunBefore i run) (d : Bytes) :
    RunBefore (i + 1) (nextRun d i run) := by
  intro r hr
  unfold nextRun at hr
  split at hr
  · obtain rfl := Option.some.inj hr
    rfl
  · obtain ⟨r', rfl, hr'⟩ := Option.bind_eq_some_iff.1 hr
    have := h r' rfl
    split at hr'
    · obtain rfl := Option.some.inj hr'
      simp only
      omega
    · cases hr'

theorem Agree.entryName {i : Nat} {run : LfnRun} (h : Agree d d' n) (hr : RunBefore i run)
    (hi : 32 * (i + 1) ≤ n) :
    entryName d i run = entryName d' i run := by
  unfold Fs.entryName
  rw [h.fatName (by omega)]
  cases run with
  | none => rfl
  | some r =>
    have := hr r rfl
    rw [Option.bind_some, Option.bind_some, h.lfnBuild (by omega) (by omega)]

theorem Agree.nextRun {i : Nat} (h : Agree d d' n) (hi : 32 * (i + 1) ≤ n) (run : LfnRun) :
    nextRun d i run = nextRun d' i run := by
  unfold Fs.nextRun
  rw [h _ (by omega)]

theorem Agree.listFrom (h : Agree d d' n) (left : Nat) :
    ∀ (i : Nat) (run : LfnRun) (room : Nat), RunBefore i run →
    32 * (i + left) ≤ n → listFrom d left i run room = listFrom d' left i run room := by
  induction left with
  | zero => exact fun _ _ _ _ _ => rfl
  | succ left ih =>
    intro i run room hr hi
    have hi' : 32 * (i + 1 + left) ≤ n := by omega
    unfold Fs.listFrom
    rw [← h (32 * i) (by omega), ← h (32 * i + 11) (by omega), ← h.entryName hr (by omega),
      ← h.rdU16 (o := 32 * i + 26) (by omega), ← h.rdU32 (o := 32 * i + 28) (by omega),
      ← h.nextRun (by omega), ih _ _ _ .none hi', ih _ _ _ .none hi',
      ih _ _ _ (hr.next d) hi']

/-! ## Loading and scanning -/

theorem sectorBytes_append {disk : Nat → Bytes} {ls : List Nat} {l : Nat} :
    Agree (sectorBytes disk (ls ++ [l]))
    (putBytes (sectorBytes disk ls) (secSize * ls.length) (disk l) secSize)
    (secSize * (ls ++ [l]).length) := by
  intro k hk
  simp only [List.length_append, List.length_singleton] at hk
  unfold sectorBytes putBytes
  unfold secSize at *
  rcases Nat.lt_or_ge k (512 * ls.length) with h | h
  · rw [if_neg (by omega), List.getElem?_append_left (by omega)]
  · have hq : k / 512 = ls.length := by omega
    have hr : k % 512 = k - 512 * ls.length := by omega
    rw [if_pos ⟨h, by omega⟩, hq, List.getElem?_append_right (Nat.le_refl _), Nat.sub_self, hr]
    rfl

/-- Only the driver and the supply of pages have moved on. -/
def Quiet (s s' : Fs) : Prop := s' = { s with errs := s'.errs, pages := s'.pages }

instance : Std.Refl Quiet := ⟨fun _ => rfl⟩

instance : IsTrans Fs Quiet := ⟨fun s s' s'' h h' => by
  unfold Quiet at *
  rw [h', h]⟩

theorem driver_quiet : Keeps Quiet driver := .bind .gets fun _ => .bind (.upd fun _ => rfl) fun _ => .need

theorem bread_quiet (lba : Nat) : Keeps Quiet (bread lba) :=
  .bind (.bind .gets fun _ => .bind .need fun _ => driver_quiet) fun _ => .gets

theorem pageBuf_quiet : Keeps Quiet pageBuf :=
  .bind .gets fun _ => .bind .need fun _ => .bind (.upd fun _ => rfl) fun _ => .pure

theorem dropPage_quiet (d : Option Bytes) : Keeps Quiet (dropPage d) := .upd fun _ => rfl

theorem dropAll_quiet (fs : List FileEnt) : Keeps Quiet (dropAll fs) := by
  induction fs with
  | nil => exact .pure
  | cons f fs ih => exact (dropPage_quiet f.data).bind fun _ => ih

theorem exec_dropAll (fs : List FileEnt) (s : Fs) : (exec (dropAll fs) s).1 = some () := by
  induction fs generalizing s with
  | nil => rfl
  | cons f fs ih => exact ih _

theorem loadFileFrom_quiet (size : Nat) (cls : List Nat) : ∀ (dst : Bytes) (off : Nat),
    Keeps Quiet (loadFileFrom dst size off cls) := by
  induction cls with
  | nil => exact fun _ _ => .pure
  | cons cl cls ih =>
    intro dst off
    refine .ite (fun _ => .pure) fun _ => .bind .gets fun s => (bread_quiet _).result.bind fun b => ?_
    cases b with
    | none => exact .pure
    | some b => exact ih _ _

theorem loadFile_quiet (dst : Bytes) (start size : Nat) : Keeps Quiet (loadFile dst start size) :=
  .bind .gets fun _ => loadFileFrom_quiet _ _ _ _

/-- The page holds the sectors `ls`. -/
def Loaded (disk : Nat → Bytes) (ls : List Nat) (s : Fs) : Prop :=
  s.disk = disk ∧ Agree s.dir (sectorBytes disk ls) (secSize * ls.length)

theorem Loaded.quiet {disk : Nat → Bytes} {ls : List Nat} {s s' : Fs} (h : Loaded disk ls s)
    (hq : Quiet s s') :
    Loaded disk ls s' := by
  rw [hq]
  exact h

theorem dirLoadFrom_loads (disk : Nat → Bytes) (rest : List Nat) : ∀ ls : List Nat,
    Triple (Loaded disk ls) (dirLoadFrom (secSize * ls.length) rest)
      (fun _ s => Loaded disk (ls ++ rest) s ∧ s.dirBytes = secSize * (ls ++ rest).length) fun _ => True := by
  induction rest with
  | nil =>
    intro ls
    rw [List.append_nil]
    exact .change fun s hs => ⟨hs, rfl⟩
  | cons l rest ih =>
    intro ls
    refine .bind (R := fun b s => Loaded disk ls s ∧ b = disk l)
      (fun s hs => ⟨fun b hb => ?_, fun _ => trivial⟩) fun b =>
      .bind (R := fun _ => Loaded disk (ls ++ [l])) (.change fun s hs => ?_) fun _ => ?_
    · exact ⟨hs.quiet (bread_quiet l s), ((bread_disk s.disk l s rfl).1 b hb).1.trans (congrFun hs.1 l)⟩
    · obtain ⟨⟨h1, h2⟩, rfl⟩ := hs
      refine ⟨h1, fun k hk => ?_⟩
      rw [sectorBytes_append k hk]
      simp only [putBytes]
      split
      · rfl
      · refine h2 k ?_
        simp only [List.length_append, List.length_singleton] at hk
        unfold secSize at *
        omega
    · have hrest := ih (ls ++ [l])
      rw [List.append_assoc, List.singleton_append, List.length_append, List.length_singleton,
        Nat.mul_add, Nat.mul_one] at hrest
      exact hrest

/-- Only the page of the directory is new. -/
def DirOnly (s s' : Fs) : Prop := s' = { s with errs := s'.errs, dir := s'.dir, dirBytes := s'.dirBytes }

instance : Std.Refl DirOnly := ⟨fun _ => rfl⟩

instance : IsTrans Fs DirOnly := ⟨fun s s' s'' h h' => by
  unfold DirOnly at *
  rw [h', h]⟩

theorem bread_dirOnly (lba : Nat) : Keeps DirOnly (bread lba) :=
  .bind (.bind .gets fun _ => .bind .need fun _ => .bind .gets fun _ => .bind (.upd fun _ => rfl)
    fun _ => .need) fun _ => .gets

theorem dirLoadFrom_dirOnly (ls : List Nat) : ∀ off : Nat, Keeps DirOnly (dirLoadFrom off ls) := by
  induction ls with
  | nil => exact fun _ => .upd fun _ => rfl
  | cons l rest ih => exact fun _ => (bread_dirOnly l).bind fun _ => .bind (.upd fun _ => rfl) fun _ => ih _

theorem dirLoad_dirOnly : Keeps DirOnly dirLoad :=
  .bind .gets fun _ => (dirLoadFrom_dirOnly _ _).bind fun _ => .need

/-- `dir_load` that succeeds. -/
theorem dirLoad_loads {s s' : Fs} (h : exec dirLoad s = (some (), s')) :
    Agree s'.dir (sectorBytes s.disk s.dirSectors) (secSize * s.dirSectors.length) ∧
      s'.dirBytes = secSize * s.dirSectors.length := by
  unfold dirLoad at h
  rw [exec_bind_of (exec_gets _ _)] at h
  simp only [id] at h
  obtain ⟨⟨⟩, s2, h2, e⟩ := exec_bind_some (b := ()) (by rw [h])
  obtain ⟨h3, h4⟩ := (dirLoadFrom_loads s.disk s.dirSectors [] s ⟨rfl, fun k hk => by simp at hk⟩).1 () (by
    rw [List.length_nil, Nat.mul_zero, h2])
  rw [List.length_nil, Nat.mul_zero, h2] at h3 h4
  rw [h] at e
  obtain rfl : s' = s2 := congrArg Prod.snd e
  exact ⟨h3.2, h4⟩

/-- The cache is `fs` and then the start of what is listed from `i` on. -/
structure Listed (d : Bytes) (fs : List FileEnt) (ls : List FileEnt) (whole : Bool) (s : Fs) : Prop where
  dir : s.dir = d
  files : ∃ l, s.files = fs ++ l ∧ l.map FileEnt.bare <+: ls ∧ (whole = true → l.map FileEnt.bare = ls)

theorem Listed.cons {d : Bytes} {fs ls : List FileEnt} {f : FileEnt} {whole : Bool} {s : Fs}
    (h : Listed d (fs ++ [f]) ls whole s) : Listed d fs (f.bare :: ls) whole s := by
  obtain ⟨l, e, hp, hw⟩ := h.files
  refine ⟨h.dir, f :: l, by rw [e, List.append_assoc, List.singleton_append], ?_, fun h1 => ?_⟩
  · exact (List.prefix_cons_inj _).2 hp
  · rw [List.map_cons, hw h1]

/-- What the loop of `scan_dir` starts from. -/
def Scanning (d : Bytes) (fs : List FileEnt) (s : Fs) : Prop := s.dir = d ∧ s.files = fs

theorem Scanning.quiet {d : Bytes} {fs : List FileEnt} {s s' : Fs} (h : Scanning d fs s) (hq : Quiet s s') :
    Scanning d fs s' := by
  rw [hq]
  exact h

theorem Scanning.stop {d : Bytes} {fs ls : List FileEnt} {s : Fs} (h : Scanning d fs s) :
    Listed d fs ls false s :=
  ⟨h.1, [], by rw [h.2, List.append_nil], List.nil_prefix, nofun⟩

theorem scanFrom_lists (d : Bytes) (left : Nat) : ∀ (i : Nat) (run : LfnRun) (fs : List FileEnt),
    Triple (Scanning d fs) (scanFrom left i run)
      (fun _ => Listed d fs (listFrom d left i run (fsMax - fs.length)) true)
      (Listed d fs (listFrom d left i run (fsMax - fs.length)) false) := by
  have hnil : ∀ fs : List FileEnt, Triple (Scanning d fs) (pure () : FsM Unit) (fun _ => Listed d fs [] true)
      (Listed d fs [] false) := fun fs => Triple.pure.conseq
    (fun s hs => ⟨hs.1, [], by rw [hs.2, List.append_nil], List.nil_prefix, fun _ => rfl⟩)
      (fun _ _ h => h) fun _ h => h
  induction left with
  | zero => exact fun _ _ fs => hnil fs
  | succ left ih =>
    intro i run fs
    -- an entry goes to the end of the cache, and there is less room
    have hadd : ∀ f : FileEnt, Triple (Scanning d fs) (do
          upd fun s => { s with files := s.files ++ [f] }
          scanFrom left (i + 1) none)
        (fun _ => Listed d fs (f.bare :: listFrom d left (i + 1) none (fsMax - fs.length - 1)) true)
        (Listed d fs (f.bare :: listFrom d left (i + 1) none (fsMax - fs.length - 1)) false) := by
      intro f
      have hrest := ih (i + 1) none (fs ++ [f])
      rw [List.length_append, List.length_singleton, ← Nat.sub_sub] at hrest
      refine .bind (R := fun _ => Scanning d (fs ++ [f])) (.change fun s hs => ⟨hs.1, ?_⟩) fun _ =>
        hrest.conseq (fun _ h => h) (fun _ _ => Listed.cons) fun _ => Listed.cons
      rw [← hs.2]
    have hquiet : ∀ {α : Type} {m : FsM α} (ls : List FileEnt), Keeps Quiet m →
        Triple (Scanning d fs) m (fun _ => Scanning d fs) (Listed d fs ls false) := fun ls hm s hs =>
      ⟨fun _ _ => hs.quiet (hm s), fun _ => (hs.quiet (hm s)).stop⟩
    unfold scanFrom listFrom
    refine .read fun s hs => ?_
    have hroom : fs.length ≥ fsMax ↔ fsMax - fs.length = 0 := by omega
    simp only [id, hs.1, hs.2, hroom]
    split
    · exact hnil fs
    split
    · exact ih _ _ fs
    split
    · exact ih _ _ fs
    split
    · exact ih _ _ fs
    split
    · exact hadd _
    split
    · exact ih _ _ fs
    · exact (hquiet _ pageBuf_quiet).bind fun page => (hquiet _ (loadFile_quiet _ _ _)).bind fun r => hadd _

/-- **The cache after a scan** is the beginning of the listing, and all of it when the scan succeeds. -/
theorem scanDir_lists (s : Fs) : (exec scanDir s).2.files.map FileEnt.bare <+: s.listing s.cwd ∧
    ((exec scanDir s).1 = some () → (exec scanDir s).2.files.map FileEnt.bare = s.listing s.cwd) := by
  set s1 : Fs := { (exec (dropAll s.files) s).2 with files := [] } with hs1
  have hq : Quiet s (exec (dropAll s.files) s).2 := dropAll_quiet _ s
  have hdrop : exec scanDir s = exec (do
      dirLoad
      let s ← gets id
      scanFrom s.dirEnts 0 none) s1 := by
    unfold scanDir
    rw [exec_bind_of (exec_gets _ _)]
    have hx : exec (dropAll s.files) s = (some (), (exec (dropAll s.files) s).2) :=
      Prod.ext (exec_dropAll _ _) rfl
    simp only [id]
    rw [exec_bind_of hx, exec_bind_of (exec_upd _ _)]
  have hsect : s1.dirSectors = s.dirSectors := by
    rw [hs1, hq]
    rfl
  have hdisk : s1.disk = s.disk := by
    rw [hs1, hq]
  rw [hdrop]
  rcases hx : exec dirLoad s1 with ⟨_ | ⟨⟩, s2⟩
  · have honly : DirOnly s1 s2 := by
      have := dirLoad_dirOnly s1
      rwa [hx] at this
    rw [exec_bind, hx]
    refine ⟨?_, nofun⟩
    simp only [Option.elim_none]
    rw [honly]
    exact List.nil_prefix
  · have honly : DirOnly s1 s2 := by
      have := dirLoad_dirOnly s1
      rwa [hx] at this
    obtain ⟨hagree, hbytes⟩ := dirLoad_loads hx
    rw [hsect, hdisk] at hagree
    rw [hsect] at hbytes
    rw [exec_bind_of hx, exec_bind_of (exec_gets _ _)]
    simp only [id]
    have hents : s2.dirEnts = s.dirSectors.length * 16 := by
      unfold dirEnts
      rw [hbytes]
      unfold secSize
      omega
    have hlist : listFrom s2.dir s2.dirEnts 0 none fsMax = s.listing s.cwd := by
      rw [hents]
      exact hagree.listFrom _ _ _ _ .none (by unfold secSize; omega)
    have hfiles : s2.files = [] := by
      rw [honly]
    obtain ⟨h1, h2⟩ := scanFrom_lists s2.dir s2.dirEnts 0 none [] s2 ⟨rfl, hfiles⟩
    rw [List.length_nil, Nat.sub_zero, hlist] at h1 h2
    cases hr : (exec (scanFrom s2.dirEnts 0 none) s2).1 with
    | none =>
      obtain ⟨l, e, hp, -⟩ := (h2 hr).files
      rw [e]
      exact ⟨hp, nofun⟩
    | some a =>
      obtain ⟨l, e, hp, hw⟩ := (h1 a hr).files
      rw [e]
      exact ⟨hp, fun _ => hw rfl⟩

end Fs

end VampireOS
