import Mathlib.Algebra.GroupWithZero.Nat
import Mathlib.Data.List.TakeWhile
import VampireOS.Lib.Twin
import VampireOS.Fs.Listing

/-!
# Scanning whatever is on the volume (kernel/fs.c:1102-1315)

| here | there |
| --- | --- |
| `putChars`, `putLong` | `lfn_chars`, `lfn_build` with the buffer they write (fs.c:1144, 1168) |
| `putString` | the bytes and the terminator that `fat_name` writes (fs.c:1102) |
| `putName` | the name of the entry in `files[file_count].name` (fs.c:1275) |
| `scanWith` | `scan_dir` with the decoder of long names as a parameter |

Nothing is assumed about the bytes of the directory, of the FAT or of the files. That a scan ends is
the recursion of `scanFrom` and `chain`.
-/

namespace VampireOS.Fs

open Lib

/-! ## The name buffer -/

/-- The loop of `lfn_chars` over the slots still ahead: the buffer, the characters in it, and
whether it went through. -/
def putChars (d : Bytes) (off : Nat) : List Nat → Bytes → Nat → Bytes × Nat × Bool
  | [], buf, n => (buf, n, true)
  | p :: ps, buf, n =>
    if d (off + p) = 0 ∧ d (off + p + 1) = 0 then (buf, n, true)
    else if d (off + p + 1) ≠ 0 ∨ d (off + p) < 0x20 ∨ n + 1 ≥ nameMax then (buf, n, false)
    else putChars d off ps (Function.update buf n (d (off + p))) (n + 1)

/-- The last loop of `lfn_build`, the long-name entries `is` to go. -/
def putParts (d : Bytes) (first : Nat) : List Nat → Bytes → Nat → Bytes × Nat × Bool
  | [], buf, n => (buf, n, true)
  | i :: is, buf, n =>
    let off := 32 * (first + i)
    if d (off + 11) ≠ 0x0F ∨ d (off + 12) ≠ 0 then (buf, n, false)
    else
      match putChars d off lfnSlot buf n with
      | (buf, n, true) => putParts d first is buf n
      | (buf, n, false) => (buf, n, false)

/-- `lfn_build`: the buffer, and whether it returned 0. -/
def putLong (d : Bytes) (first count off : Nat) (buf : Bytes) : Bytes × Bool :=
  let sum := lfnCksum (name83 d off)
  let good i := d (32 * (first + i)) = (UInt8.ofNat (count - i) ||| if i = 0 then 0x40 else 0) &&
    d (32 * (first + i) + 13) = sum
  if count = 0 ∨ count > 2 ∨ !(List.range count).all good then (buf, false)
  else
    match putParts d first (List.range count).reverse buf 0 with
    | (buf, n, true) => if n = 0 then (buf, false) else (Function.update buf n 0, true)
    | (buf, _, false) => (buf, false)

def putString (l : Name) (buf : Bytes) : Bytes := putBytes buf 0 (ofList (l ++ [0])) (l.length + 1)

/-- `if (lfn_ent == 0 || lfn_build(…) != 0) fat_name(…)`. -/
def putName (d : Bytes) (i : Nat) (run : LfnRun) (buf : Bytes) : Bytes :=
  match run with
  | none => putString (fatChars d (32 * i)) buf
  | some r =>
    match putLong d r.1 r.2 (32 * i) buf with
    | (buf, true) => buf
    | (buf, false) => putString (fatChars d (32 * i)) buf

/-- The buffer holds the string `l`, its terminator among the first 16 bytes. -/
structure Holds (buf : Bytes) (l : Name) : Prop where
  short : l.length < nameMax
  nonzero : 0 ∉ l
  chars : ∀ k < l.length, buf k = l.getD k 0
  stop : buf l.length = 0

/-- Beyond the 16 bytes nothing is written. -/
def Beyond (buf buf' : Bytes) : Prop := ∀ k, nameMax ≤ k → buf' k = buf k

/-- `n` characters of a name that is not finished. -/
structure Partly (buf : Bytes) (n : Nat) (l : Name) : Prop where
  length : l.length = n
  short : l.length < nameMax
  nonzero : 0 ∉ l
  chars : ∀ k < l.length, buf k = l.getD k 0

theorem Partly.nil (buf : Bytes) : Partly buf 0 [] := ⟨rfl, by decide, List.not_mem_nil, nofun⟩

theorem Partly.push {buf : Bytes} {n : Nat} {l : Name} {c : UInt8} (h : Partly buf n l)
    (hn : n + 1 < nameMax) (hc : c ≠ 0) :
    Partly (Function.update buf n c) (n + 1) (l ++ [c]) := by
  obtain ⟨rfl, -, hz, hk⟩ := h
  refine ⟨by simp, by simpa using hn, by simpa using ⟨hz, hc.symm⟩, fun k hlt => ?_⟩
  rw [List.length_append, List.length_singleton] at hlt
  rcases Nat.lt_or_ge k l.length with h | h
  · rw [Function.update_of_ne (by omega), hk k h, List.getD_eq_getElem?_getD, List.getD_eq_getElem?_getD,
      List.getElem?_append_left h]
  · obtain rfl : k = l.length := by omega
    simp

/-- The terminator. -/
theorem Partly.finish {buf : Bytes} {n : Nat} {l : Name} (h : Partly buf n l) :
    Holds (Function.update buf n 0) l := by
  obtain ⟨rfl, hs, hz, hk⟩ := h
  exact ⟨hs, hz, fun k hlt => by rw [Function.update_of_ne (by omega), hk k hlt], Function.update_self ..⟩

theorem Beyond.refl (buf : Bytes) : Beyond buf buf := fun _ _ => rfl

theorem Beyond.trans {b b' b'' : Bytes} (h : Beyond b b') (h' : Beyond b' b'') : Beyond b b'' := fun k hk =>
  (h' k hk).trans (h k hk)

theorem Beyond.update (buf : Bytes) {n : Nat} (hn : n < nameMax) (c : UInt8) :
    Beyond buf (Function.update buf n c) :=
  fun _ hk => Function.update_of_ne (by omega) ..

/-- `lfn_chars` on the slots `ps` only. -/
def partChars (d : Bytes) (off : Nat) (ps : List Nat) (out : Name) : Option Name :=
  let chars := (ps.map fun p => (d (off + p), d (off + p + 1))).takeWhile fun c => c ≠ (0, 0)
  if chars.all (fun c => c.2 = 0 && 0x20 ≤ c.1) && out.length + chars.length < nameMax then
    some (out ++ chars.map Prod.fst)
  else none

theorem lfnChars_eq (d : Bytes) (off : Nat) (out : Name) : lfnChars d off out =
    if d (off + 11) ≠ 0x0F ∨ d (off + 12) ≠ 0 then none else partChars d off lfnSlot out := rfl

theorem partChars_nil (d : Bytes) (off : Nat) (out : Name) (h : out.length < nameMax) :
    partChars d off [] out = some out := by
  simp [partChars, h]

theorem partChars_stop {d : Bytes} {off p : Nat} (ps : List Nat) {out : Name} (h : out.length < nameMax)
    (h0 : d (off + p) = 0 ∧ d (off + p + 1) = 0) : partChars d off (p :: ps) out = some out := by
  simp [partChars, h0.1, h0.2, h]

theorem partChars_fail {d : Bytes} {off p : Nat} (ps : List Nat) {out : Name}
    (h0 : ¬ (d (off + p) = 0 ∧ d (off + p + 1) = 0))
    (hbad : d (off + p + 1) ≠ 0 ∨ d (off + p) < 0x20 ∨ out.length + 1 ≥ nameMax) :
    partChars d off (p :: ps) out = none := by
  unfold partChars
  simp only [List.map_cons, ne_eq]
  rw [List.takeWhile_cons_of_pos (by rw [decide_eq_true_eq, Prod.mk.injEq]; exact h0)]
  rw [if_neg]
  simp only [List.all_cons, List.length_cons, Bool.and_eq_true, decide_eq_true_eq, not_and]
  rintro ⟨⟨h1, h2⟩, -⟩ h3
  rcases hbad with h | h | h
  · exact h h1
  · exact absurd h (UInt8.not_lt.2 h2)
  · omega

theorem partChars_next {d : Bytes} {off p : Nat} (ps : List Nat) {out : Name}
    (h0 : ¬ (d (off + p) = 0 ∧ d (off + p + 1) = 0))
    (hok : ¬ (d (off + p + 1) ≠ 0 ∨ d (off + p) < 0x20 ∨ out.length + 1 ≥ nameMax)) :
    partChars d off (p :: ps) out = partChars d off ps (out ++ [d (off + p)]) := by
  simp only [not_or, not_not, ge_iff_le, Nat.not_le] at hok
  have h1 : (0x20 : UInt8) ≤ d (off + p) := UInt8.not_lt.1 hok.2.1
  unfold partChars
  simp only [List.map_cons, ne_eq]
  rw [List.takeWhile_cons_of_pos (by rw [decide_eq_true_eq, Prod.mk.injEq]; exact h0)]
  generalize (ps.map fun p => (d (off + p), d (off + p + 1))).takeWhile _ = chars
  have hlen : out.length + (chars.length + 1) = out.length + 1 + chars.length := by omega
  simp only [List.all_cons, hok.1, h1, decide_true, Bool.and_self, Bool.true_and, List.length_cons,
    List.length_append, List.length_nil, Nat.zero_add, List.map_cons, List.append_assoc,
    List.singleton_append, hlen]

/-- `lfn_chars` writes what it is said to append, and nothing past the buffer even when it fails. -/
theorem putChars_spec (d : Bytes) (off : Nat) (ps : List Nat) :
    ∀ {buf : Bytes} {n : Nat} {l : Name}, Partly buf n l →
    Beyond buf (putChars d off ps buf n).1 ∧ (putChars d off ps buf n).2.2 = (partChars d off ps l).isSome ∧
      ∀ l', partChars d off ps l = some l' →
        Partly (putChars d off ps buf n).1 (putChars d off ps buf n).2.1 l' := by
  induction ps with
  | nil =>
    intro buf n l h
    rw [partChars_nil _ _ _ h.short]
    exact ⟨.refl _, rfl, fun l' e => Option.some.inj e ▸ h⟩
  | cons p ps ih =>
    intro buf n l h
    unfold putChars
    split
    · next h0 =>
      rw [partChars_stop ps h.short h0]
      exact ⟨.refl _, rfl, fun l' e => Option.some.inj e ▸ h⟩
    · next h0 =>
      split
      · next hbad =>
        rw [← h.length] at hbad
        rw [partChars_fail ps h0 hbad]
        exact ⟨.refl _, rfl, nofun⟩
      · next hok =>
        have hlt : n + 1 < nameMax := by omega
        have hc : d (off + p) ≠ 0 := fun e => by
          rw [e] at hok
          exact hok (.inr (.inl (by decide)))
        rw [← h.length] at hok
        rw [partChars_next ps h0 hok]
        obtain ⟨h1, h2, h3⟩ := ih (h.push hlt hc)
        exact ⟨(Beyond.update buf (by omega) _).trans h1, h2, h3⟩

/-- The characters of the entries `is` behind `out`. -/
def longChars (d : Bytes) (first : Nat) (is : List Nat) (out : Option Name) : Option Name :=
  is.foldl (fun acc i => acc.bind fun out => lfnChars d (32 * (first + i)) out) out

theorem longChars_none (d : Bytes) (first : Nat) (is : List Nat) : longChars d first is none = none := by
  induction is with
  | nil => rfl
  | cons i is ih => exact ih

theorem putParts_spec (d : Bytes) (first : Nat) (is : List Nat) :
    ∀ {buf : Bytes} {n : Nat} {l : Name}, Partly buf n l →
    Beyond buf (putParts d first is buf n).1 ∧ (putParts d first is buf n).2.2 =
    (longChars d first is (some l)).isSome ∧
      ∀ l', longChars d first is (some l) = some l' →
        Partly (putParts d first is buf n).1 (putParts d first is buf n).2.1 l' := by
  induction is with
  | nil => exact fun h => ⟨.refl _, rfl, fun l' e => Option.some.inj e ▸ h⟩
  | cons i is ih =>
    intro buf n l h
    have hstep : longChars d first (i :: is) (some l) = longChars d first is
        (lfnChars d (32 * (first + i)) l) := rfl
    rw [hstep, lfnChars_eq]
    unfold putParts
    simp only
    split
    · rw [longChars_none]
      exact ⟨.refl _, rfl, nofun⟩
    · obtain ⟨h1, h2, h3⟩ := putChars_spec d (32 * (first + i)) lfnSlot h
      rcases hx : putChars d (32 * (first + i)) lfnSlot buf n with ⟨buf', n', ok⟩
      rw [hx] at h1 h2 h3
      cases hp : partChars d (32 * (first + i)) lfnSlot l with
      | none =>
        rw [hp] at h2
        obtain rfl : ok = false := h2
        rw [longChars_none]
        exact ⟨h1, rfl, nofun⟩
      | some l' =>
        rw [hp] at h2
        obtain rfl : ok = true := h2
        obtain ⟨h4, h5, h6⟩ := ih (h3 l' hp)
        exact ⟨h1.trans h4, h5, h6⟩

/-- `lfn_build` writes the name that it is said to return. -/
theorem putLong_spec (d : Bytes) (first count off : Nat) (buf : Bytes) :
    Beyond buf (putLong d first count off buf).1 ∧
    (putLong d first count off buf).2 = (lfnBuild d first count off).isSome ∧
      ∀ l, lfnBuild d first count off = some l → Holds (putLong d first count off buf).1 l := by
  have hbuild : lfnBuild d first count off = if count = 0 ∨ count > 2 ∨ !(List.range count).all fun i =>
      d (32 * (first + i)) = (UInt8.ofNat (count - i) ||| if i = 0 then 0x40 else 0) &&
        d (32 * (first + i) + 13) = lfnCksum (name83 d off) then none
      else (longChars d first (List.range count).reverse (some [])).filter fun n => n ≠ [] := rfl
  rw [hbuild]
  unfold putLong
  simp only
  split
  · exact ⟨.refl _, rfl, nofun⟩
  · obtain ⟨h1, h2, h3⟩ := putParts_spec d first (List.range count).reverse (Partly.nil buf)
    rcases hx : putParts d first (List.range count).reverse buf 0 with ⟨buf', n, ok⟩
    rw [hx] at h1 h2 h3
    cases hp : longChars d first (List.range count).reverse (some []) with
    | none =>
      rw [hp] at h2
      obtain rfl : ok = false := h2
      exact ⟨h1, rfl, nofun⟩
    | some l =>
      rw [hp] at h2
      obtain rfl : ok = true := h2
      have hl : Partly buf' n l := h3 l hp
      have hn : n = 0 ↔ l = [] := by rw [← hl.length, List.length_eq_zero_iff]
      have hlt : n < nameMax := hl.length ▸ hl.short
      dsimp only at h1 ⊢
      split
      · next h0 =>
        obtain rfl := hn.1 h0
        exact ⟨h1, rfl, nofun⟩
      · next h0 =>
        rw [Option.filter_some, if_pos (by simpa using fun e => h0 (hn.2 e))]
        exact ⟨h1.trans (.update _ hlt _), rfl, fun l' e => Option.some.inj e ▸ hl.finish⟩

theorem fatChars_short (d : Bytes) (off : Nat) : (fatChars d off).length ≤ 12 := by
  have hpart : ∀ a n, ((((List.range n).map fun i => d (off + a + i)).takeWhile (· ≠ blank)).map
      lower).length ≤ n := by
    intro a n
    rw [List.length_map]
    refine (List.takeWhile_sublist _).length_le.trans ?_
    rw [List.length_map, List.length_range]
  unfold fatChars
  simp only [List.length_append]
  have h1 := hpart 0 8
  have h2 := hpart 8 3
  split
  · rw [List.length_cons]
    omega
  · rw [List.length_nil]
    omega

theorem ofList_append (l : Name) (c : UInt8) {k : Nat} (h : k < l.length) :
    ofList (l ++ [c]) k = l.getD k 0 := by
  unfold ofList
  rw [List.getD_eq_getElem?_getD, List.getD_eq_getElem?_getD, List.getElem?_append_left h]

/-- A string and its terminator: the first zero comes where the string ends. -/
theorem getD_takeWhile (l : Name) : (l ++ [0]).getD (l.takeWhile (· ≠ 0)).length 0 = 0 := by
  induction l with
  | nil => rfl
  | cons c l ih =>
    by_cases hc : c = 0
    · simp [hc]
    · rw [List.takeWhile_cons_of_pos (by simpa using hc)]
      exact ih

theorem putString_spec {l : Name} (hl : l.length < nameMax) (buf : Bytes) :
    Beyond buf (putString l buf) ∧ Holds (putString l buf) (l.takeWhile (· ≠ 0)) := by
  have hbyte : ∀ k ≤ l.length, putString l buf k = ofList (l ++ [0]) k := fun k hk => by
    unfold putString putBytes
    rw [if_pos ⟨Nat.zero_le _, by omega⟩, Nat.sub_zero]
  have hpre := List.takeWhile_prefix (l := l) (fun c => decide (c ≠ 0))
  have hle := hpre.length_le
  refine ⟨fun k hk => ?_, by omega, fun h0 => ?_, fun k hk => ?_, ?_⟩
  · unfold putString putBytes
    rw [if_neg (by omega)]
  · have := List.mem_takeWhile_imp h0
    simp at this
  · rw [hbyte k (by omega), ofList_append _ _ (by omega), List.getD_eq_getElem?_getD,
      List.getD_eq_getElem?_getD, List.prefix_iff_getElem?.1 hpre k hk, List.getElem?_eq_getElem hk]
  · rw [hbyte _ hle]
    exact getD_takeWhile l

/-- **The name of a cached entry**, also when the long-name decoder gives up half-way. -/
theorem putName_spec (d : Bytes) (i : Nat) (run : LfnRun) (buf : Bytes) :
    Beyond buf (putName d i run buf) ∧ Holds (putName d i run buf) (entryName d i run) := by
  have hplain : ∀ buf, Beyond buf (putString (fatChars d (32 * i)) buf) ∧
      Holds (putString (fatChars d (32 * i)) buf) (fatName d (32 * i)) :=
    putString_spec (Nat.lt_of_le_of_lt (fatChars_short d _) (by decide))
  cases run with
  | none => exact hplain buf
  | some r =>
    obtain ⟨h1, h2, h3⟩ := putLong_spec d r.1 r.2 (32 * i) buf
    unfold putName entryName
    rw [Option.bind_some]
    simp only
    rcases hx : putLong d r.1 r.2 (32 * i) buf with ⟨buf', ok⟩
    rw [hx] at h1 h2 h3
    cases hl : lfnBuild d r.1 r.2 (32 * i) with
    | none =>
      rw [hl] at h2
      obtain rfl : ok = false := h2
      exact ⟨h1.trans (hplain buf').1, (hplain buf').2⟩
    | some l =>
      rw [hl] at h2
      obtain rfl : ok = true := h2
      exact ⟨h1, h3 l hl⟩

/-! ## The runs that reach the decoder -/

/-- A decoder of long names: the directory, the first entry of the run, its length, and the offset
of the 8.3 entry. -/
abbrev Decoder := Bytes → Nat → Nat → Nat → Option Name

def entryNameWith (build : Decoder) (d : Bytes) (i : Nat) (run : LfnRun) : Name :=
  (run.bind fun r => build d r.1 r.2 (32 * i)).getD (fatName d (32 * i))

/-- The loop of `scan_dir` with `build` for `lfn_build`. -/
def scanWith (build : Decoder) : Nat → Nat → LfnRun → FsM Unit
  | 0, _, _ => pure ()
  | left + 1, i, run => do
    let s ← gets id
    let d := s.dir
    let attr := d (32 * i + 11)
    if s.files.length ≥ fsMax ∨ d (32 * i) = 0 then pure ()
    else if skipMark (d (32 * i)) then scanWith build left (i + 1) none
    else if attr = 0x0F then scanWith build left (i + 1) (nextRun d i run)
    else if attr &&& 0x08 ≠ 0 then scanWith build left (i + 1) none
    else
      let f : FileEnt := ⟨entryNameWith build d i run, none, 0, rdU16 d (32 * i + 26), 32 * i, false⟩
      if attr &&& 0x10 ≠ 0 then
        upd fun s => { s with files := s.files ++ [{ f with isDir := true }] }
        scanWith build left (i + 1) none
      else
        let sz := rdU32 d (32 * i + 28)
        if sz > fileMax then scanWith build left (i + 1) none
        else
          let page ← pageBuf
          let (data, _) ← loadFile page f.cluster sz
          upd fun s => { s with files := s.files ++ [{ f with data := some data, len := sz }] }
          scanWith build left (i + 1) none

def scanDirWith (build : Decoder) : FsM Unit := do
  let s ← gets id
  dropAll s.files
  upd fun s => { s with files := [] }
  dirLoad
  let s ← gets id
  scanWith build s.dirEnts 0 none

theorem scanWith_lfnBuild (left : Nat) :
    ∀ (i : Nat) (run : LfnRun), scanWith lfnBuild left i run = scanFrom left i run := by
  induction left with
  | zero => exact fun _ _ => rfl
  | succ left ih =>
    intro i run
    unfold scanWith scanFrom
    simp only [ih]
    rfl

theorem scanDirWith_lfnBuild : scanDirWith lfnBuild = scanDir := by
  unfold scanDirWith scanDir
  simp only [scanWith_lfnBuild]

/-- At most two long-name entries in use, directly before the entry `i`. -/
structure LongRun (d : Bytes) (first count i : Nat) : Prop where
  size : count = 1 ∨ count = 2
  before : first + count = i
  long : ∀ j, first ≤ j → j < i → d (32 * j + 11) = 0x0F ∧ d (32 * j) ≠ 0 ∧ d (32 * j) ≠ 0xE5

/-- The entry `i` is an 8.3 entry in use. -/
def Entry83 (d : Bytes) (i : Nat) : Prop :=
  d (32 * i) ≠ 0 ∧ skipMark (d (32 * i)) = false ∧ skippedAttr (d (32 * i + 11)) = false

/-- Whatever `build` says about anything else. -/
def OnRuns (build : Decoder) : Prop := ∀ d first count i, LongRun d first count i → Entry83 d i →
  build d first count (32 * i) = lfnBuild d first count (32 * i)

/-- Where the scan stands: a run is one of long names up to here. -/
def RunAt (d : Bytes) (i : Nat) (run : LfnRun) : Prop := ∀ r, run = some r → LongRun d r.1 r.2 i

theorem RunAt.none {d : Bytes} {i : Nat} : RunAt d i none := nofun

theorem RunAt.next {d : Bytes} {i : Nat} {run : LfnRun} (h : RunAt d i run)
    (hskip : skipMark (d (32 * i)) = false) (h0 : d (32 * i) ≠ 0) (hattr : d (32 * i + 11) = 0x0F) :
    RunAt d (i + 1) (nextRun d i run) := by
  have hdel : d (32 * i) ≠ 0xE5 := fun e => by
    rw [e] at hskip
    cases hskip
  intro r hr
  unfold nextRun at hr
  split at hr
  · obtain rfl := Option.some.inj hr
    refine ⟨.inl rfl, rfl, fun j h1 h2 => ?_⟩
    obtain rfl : j = i := by
      dsimp only at h1
      omega
    exact ⟨hattr, h0, hdel⟩
  · obtain ⟨r', rfl, hr'⟩ := Option.bind_eq_some_iff.1 hr
    obtain ⟨h1, h2, h3⟩ := h r' rfl
    split at hr'
    · next hlt =>
      obtain rfl := Option.some.inj hr'
      refine ⟨.inr (by dsimp only; omega), by dsimp only; omega, fun j hj hj' => ?_⟩
      rcases Nat.lt_or_ge j i with hlt | hge
      · exact h3 j hj hlt
      · obtain rfl : j = i := by omega
        exact ⟨hattr, h0, hdel⟩
    · cases hr'

theorem entryNameWith_eq {build : Decoder} (hb : OnRuns build) {d : Bytes} {i : Nat} {run : LfnRun}
    (h : RunAt d i run) (he : Entry83 d i) : entryNameWith build d i run = entryName d i run := by
  cases run with
  | none => rfl
  | some r =>
    unfold entryNameWith entryName
    rw [Option.bind_some, Option.bind_some, hb d r.1 r.2 i (h r rfl) he]

/-- The same state, and the directory is `d`. -/
def ScanAt (d : Bytes) (s t : Fs) : Prop := t = s ∧ s.dir = d

theorem ScanAt.of_quiet {d : Bytes} {α : Type} {m : FsM α} (h : Keeps Quiet m) : Twin (ScanAt d) m m := by
  rintro s t ⟨rfl, hd⟩
  refine ⟨rfl, rfl, ?_⟩
  rw [h t]
  exact hd

theorem scanWith_runs {build : Decoder} (hb : OnRuns build) (d : Bytes) (left : Nat) :
    ∀ (i : Nat) (run : LfnRun), RunAt d i run →
    Twin (ScanAt d) (scanWith build left i run) (scanFrom left i run) := by
  induction left with
  | zero => exact fun _ _ _ => .pure
  | succ left ih =>
    intro i run hrun
    unfold scanWith scanFrom
    refine .read fun s t h => ?_
    obtain ⟨rfl, rfl⟩ := h
    have hadd : ∀ f : FileEnt, Twin (ScanAt t.dir) (upd fun s => { s with files := s.files ++ [f] })
        (upd fun s => { s with files := s.files ++ [f] }) := fun f => .upd fun s t h => by
      obtain ⟨rfl, h⟩ := h
      exact ⟨rfl, h⟩
    simp only [id]
    refine .ite (fun _ => .pure) fun hstop => .ite (fun _ => ih _ _ .none) fun hskip =>
      .ite (fun hattr => ih _ _ ?_) fun hattr =>
      .ite (fun _ => ih _ _ .none) fun hlabel => ?_
    · exact hrun.next (by simpa using hskip) (fun h => hstop (.inr h)) hattr
    · have he : Entry83 t.dir i :=
        ⟨fun h => hstop (.inr h), by simpa using hskip, by simpa [skippedAttr, hattr] using hlabel⟩
      rw [entryNameWith_eq hb hrun he]
      exact .ite (fun _ => (hadd _).bind fun _ => ih _ _ .none) fun _ =>
        .ite (fun _ => ih _ _ .none) fun _ => (ScanAt.of_quiet pageBuf_quiet).bind fun page =>
        (ScanAt.of_quiet (loadFile_quiet _ _ _)).bind fun r => (hadd _).bind fun _ => ih _ _ .none

/-! ## The way of a scan -/

/-- The cache given back. -/
def emptied (s : Fs) : Fs := { (exec (dropAll s.files) s).2 with files := [] }

/-- The pages that the cache holds. -/
def heldPages (fs : List FileEnt) : Nat := (fs.map fun f => f.data.toList.length).sum

theorem exec_dropAll_pages (fs : List FileEnt) :
    ∀ s : Fs, (exec (dropAll fs) s).2 = { s with pages := s.pages + heldPages fs } := by
  induction fs with
  | nil => exact fun s => rfl
  | cons f fs ih =>
    intro s
    refine (ih { s with pages := s.pages + f.data.toList.length }).trans ?_
    unfold heldPages
    rw [List.map_cons, List.sum_cons, Nat.add_assoc]

theorem emptied_eq (s : Fs) : emptied s = { s with pages := s.pages + heldPages s.files, files := [] } := by
  unfold emptied
  rw [exec_dropAll_pages]

/-- A directory that cannot be loaded leaves the cache empty; else the loop runs over the loaded entries. -/
theorem exec_scanDirWith (build : Decoder) (s : Fs) :
    exec (scanDirWith build) s = (exec dirLoad (emptied s)).1.elim
    (none, (exec dirLoad (emptied s)).2) fun _ =>
      exec (scanWith build (exec dirLoad (emptied s)).2.dirEnts 0 none)
        (exec dirLoad (emptied s)).2 := by
  have hx : exec (dropAll s.files) s = (some (), (exec (dropAll s.files) s).2) :=
    Prod.ext (exec_dropAll _ _) rfl
  unfold scanDirWith
  rw [exec_bind_of (exec_gets _ _)]
  simp only [id]
  rw [exec_bind_of hx, exec_bind_of (exec_upd _ _)]
  rfl

/-- **The runs that reach `lfn_build`**: a decoder that differs elsewhere gives the same scan. -/
theorem scanDir_runs {build : Decoder} (hb : OnRuns build) (s : Fs) :
    exec (scanDirWith build) s = exec scanDir s := by
  rw [← scanDirWith_lfnBuild, exec_scanDirWith, exec_scanDirWith]
  generalize exec dirLoad (emptied s) = r
  obtain ⟨_ | ⟨⟩, s2⟩ := r
  · simp only [Option.elim_none]
  · obtain ⟨h1, h2, -⟩ := scanWith_runs hb s2.dir s2.dirEnts 0 none .none s2 s2 ⟨rfl, rfl⟩
    simp only [Option.elim_some, scanWith_lfnBuild]
    exact Prod.ext h1 h2.symm

theorem chain_length (g : Geo) (fat : Bytes) (n : Nat) : ∀ cl, (chain g fat n cl).length ≤ n := by
  induction n with
  | zero => exact fun _ => Nat.le_refl _
  | succ n ih =>
    intro cl
    unfold chain
    split
    · exact Nat.succ_le_succ (ih _)
    · exact Nat.zero_le _

theorem dirSectors_length (s : Fs) : s.dirSectors.length ≤ chainMax := by
  unfold dirSectors
  split
  · have := chain_length s.geo s.fat (chainMax - 1) (s.fatEnt 1)
    rw [List.length_cons, List.length_map]
    unfold chainMax at *
    omega
  · rw [List.length_map]
    exact chain_length ..

/-! ## What is written -/

/-- The bytes from `n` on are those of `d`. -/
def DirBeyond (d : Bytes) (n : Nat) (s : Fs) : Prop := ∀ k, n ≤ k → s.dir k = d k

theorem dirLoadFrom_beyond (d : Bytes) (n : Nat) (ls : List Nat) : ∀ off, off + secSize * ls.length ≤ n →
    Stays (DirBeyond d n) (dirLoadFrom off ls) := by
  induction ls with
  | nil => exact fun _ _ => .upd fun _ h => h
  | cons l ls ih =>
    intro off hoff
    rw [List.length_cons, Nat.mul_add, Nat.mul_one] at hoff
    refine .bind ((bread_quiet l).stays fun s s' hq h => ?_) fun b => .bind
      (.upd fun s h k hk => ?_) fun _ => ih _ (by omega)
    · rw [hq]
      exact h
    · simp only [putBytes]
      rw [if_neg (by omega)]
      exact h k hk

theorem dirLoad_beyond (d : Bytes) : Stays (DirBeyond d 4096) dirLoad := by
  have hle : ∀ s : Fs, 0 + secSize * s.dirSectors.length ≤ 4096 := fun s => by
    have := dirSectors_length s
    unfold secSize chainMax at *
    omega
  exact .read fun s _ => .bind (dirLoadFrom_beyond d _ _ _ (hle s)) fun _ => .need

theorem loadFileFrom_beyond (dst : Bytes) (size : Nat) (cls : List Nat) :
    ∀ (dst' : Bytes) (off : Nat),
    (∀ k, size ≤ k → dst' k = dst k) →
    Triple (fun _ => True) (loadFileFrom dst' size off cls) (fun r _ => ∀ k, size ≤ k →
    r.1 k = dst k) fun _ => True := by
  induction cls with
  | nil => exact fun _ _ h => Triple.pure.conseq (fun _ _ => h) (fun _ _ h => h) fun _ h => h
  | cons cl cls ih =>
    intro dst' off h
    have hpure : ∀ ok : Bool, Triple (fun _ => True) (pure (dst', ok) : FsM (Bytes × Bool))
      (fun r _ => ∀ k, size ≤ k → r.1 k = dst k)
        fun _ => True := fun ok => Triple.pure.conseq (fun _ _ => h) (fun _ _ h => h) fun _ h => h
    refine .ite (fun _ => hpure true) fun hlt => .read fun s _ => .bind (R := fun _ _ => True) (fun _ _ =>
      ⟨fun _ _ => trivial, fun _ => trivial⟩) fun b => ?_
    cases b with
    | none => exact hpure false
    | some b =>
      refine ih _ _ fun k hk => ?_
      rw [putBytes, if_neg (by omega)]
      exact h k hk

/-- What a scan may put into the cache when the directory has `n` bytes. -/
structure CacheSafe (junk : Bytes) (n : Nat) (f : FileEnt) : Prop where
  name : f.name.length < nameMax ∧ 0 ∉ f.name
  len : f.len ≤ fileMax
  off : f.dirOff % 32 = 0 ∧ f.dirOff < n
  page : ∀ p, f.data = some p → ∀ k, fileMax ≤ k → p k = junk k

/-- Through the loop over a directory of `n` bytes in the page `d`. -/
structure ScanSafe (junk d : Bytes) (n : Nat) (s : Fs) : Prop where
  fill : s.junk = junk
  dir : s.dir = d
  bytes : s.dirBytes = n
  count : s.files.length ≤ fsMax
  cache : ∀ f ∈ s.files, CacheSafe junk n f

variable {junk d : Bytes} {n : Nat}

theorem ScanSafe.quiet {s s' : Fs} (h : ScanSafe junk d n s) (hq : Quiet s s') : ScanSafe junk d n s' := by
  rw [hq]
  exact ⟨h.fill, h.dir, h.bytes, h.count, h.cache⟩

/-- In front of an entry that is added. -/
def RoomSafe (junk d : Bytes) (n : Nat) (s : Fs) : Prop := ScanSafe junk d n s ∧ s.files.length < fsMax

theorem RoomSafe.stays {α : Type} {m : FsM α} (h : Keeps Quiet m) : Stays (RoomSafe junk d n) m :=
  h.stays fun s s' hq h => by
  refine ⟨h.1.quiet hq, ?_⟩
  rw [hq]
  exact h.2

theorem pageBuf_safe :
    Triple (RoomSafe junk d n) pageBuf (fun page s => RoomSafe junk d n s ∧ page = junk)
      (ScanSafe junk d n) := by
  refine .read fun s hs => .check (fun _ h => h.1) fun _ => .bind (R := fun _ => RoomSafe junk d n)
    (.change fun s h => ?_) fun _ => ?_
  · exact ⟨⟨h.1.fill, h.1.dir, h.1.bytes, h.1.count, h.1.cache⟩, h.2⟩
  · exact Triple.pure.conseq (fun _ h => ⟨h, hs.1.fill⟩) (fun _ _ h => h) fun _ h => h

theorem loadFile_safe (page : Bytes) (start size : Nat) :
    Triple (fun s => RoomSafe junk d n s ∧ page = junk)
    (loadFile page start size) (fun r s => RoomSafe junk d n s ∧ ∀ k, size ≤ k → r.1 k = junk k)
    (ScanSafe junk d n) := by
  intro s hs
  have hroom := (RoomSafe.stays (loadFile_quiet page start size)).exec hs.1
  refine ⟨fun r hr => ⟨hroom, fun k hk => ?_⟩, fun _ => hroom.1⟩
  rw [← hs.2]
  exact (loadFileFrom_beyond page size (chain s.geo s.fat chainMax start) page 0 (fun _ _ => rfl) s
    trivial).1 r hr k hk

theorem scanFrom_safe (left : Nat) : ∀ (i : Nat) (run : LfnRun), 32 * (i + left) ≤ n →
    Stays (ScanSafe junk d n) (scanFrom left i run) := by
  induction left with
  | zero => exact fun _ _ _ => .pure
  | succ left ih =>
    intro i run hi
    have hnext : ∀ run, Stays (ScanSafe junk d n) (scanFrom left (i + 1) run) :=
      fun run => ih (i + 1) run (by omega)
    have hadd : ∀ f : FileEnt, CacheSafe junk n f → Triple (RoomSafe junk d n) (do
          upd fun s => { s with files := s.files ++ [f] }
          scanFrom left (i + 1) none) (fun _ => ScanSafe junk d n) (ScanSafe junk d n) := by
      intro f hf
      refine .bind (R := fun _ => ScanSafe junk d n)
        (.change fun s hs => ⟨hs.1.fill, hs.1.dir, hs.1.bytes, ?_, fun g hg => ?_⟩)
        fun _ => hnext none
      · rw [List.length_append, List.length_singleton]
        exact hs.2
      · rcases List.mem_append.1 hg with hg | hg
        · exact hs.1.cache g hg
        · exact List.mem_singleton.1 hg ▸ hf
    unfold scanFrom
    refine .readAt fun s hs => ?_
    have hname := (putName_spec s.dir i run fun _ => 0).2
    have hoff : 32 * i % 32 = 0 ∧ 32 * i < n := by omega
    have hstart : ∀ s', s' = s → ScanSafe junk d n s' := fun s' e => e ▸ hs
    have hgo : ∀ run, Triple (fun s' => s' = s) (scanFrom left (i + 1) run)
        (fun _ => ScanSafe junk d n) (ScanSafe junk d n) :=
      fun run => (hnext run).conseq hstart (fun _ _ h => h) fun _ h => h
    simp only [id]
    refine .ite (fun _ => Triple.pure.conseq hstart (fun _ _ h => h) fun _ h => h) fun hroom =>
      .ite (fun _ => hgo _) fun _ =>
      .ite (fun _ => hgo _) fun _ => .ite (fun _ => hgo _) fun _ => ?_
    have hlt : s.files.length < fsMax := by omega
    have hstart' : ∀ s', s' = s → RoomSafe junk d n s' := fun s' e => e ▸ ⟨hs, hlt⟩
    refine .ite
      (fun _ => (hadd _ ⟨⟨hname.short, hname.nonzero⟩, Nat.zero_le _, hoff,
      fun _ h => by cases h⟩).conseq hstart' (fun _ _ h => h) fun _ h => h) fun _ => .ite (fun _ =>
      hgo _) fun hsize => ?_
    refine .bind (pageBuf_safe.conseq hstart' (fun _ _ h => h) fun _ h => h) fun page => ?_
    refine .bind (loadFile_safe page _ _) fun r s2 hs2 => ?_
    refine hadd _ ⟨⟨hname.short, hname.nonzero⟩, Nat.not_lt.1 hsize, hoff, fun p e k hk => ?_⟩ s2 hs2.1
    rw [← Option.some.inj e]
    exact hs2.2 k (by omega)

/-! ## What is read -/

/-- The same state up to the bytes of the directory page behind the first 4096. -/
def SameFront (s t : Fs) : Prop := ∃ d, t = { s with dir := d } ∧ Agree s.dir d 4096

theorem driver_front : Twin SameFront driver driver :=
  .bind (.gets fun s t ⟨_, e, _⟩ => by rw [e]) fun e => .bind
    (.upd fun s t ⟨d, e, h⟩ => ⟨d, by rw [e], h⟩) fun _ => .need

theorem bread_front (lba : Nat) : Twin SameFront (bread lba) (bread lba) := by
  refine .bind (.read fun s t h => ?_) fun _ => .gets fun s t ⟨_, e, _⟩ => by rw [e]
  obtain ⟨d, rfl, -⟩ := h
  exact .bind .need fun _ => driver_front

theorem pageBuf_front : Twin SameFront pageBuf pageBuf := by
  refine .read fun s t h => ?_
  obtain ⟨d, rfl, -⟩ := h
  exact .bind .need fun _ => .bind (.upd fun s t ⟨d, e, h⟩ => ⟨d, by rw [e], h⟩) fun _ => .pure

theorem dropAll_front (fs : List FileEnt) : Twin SameFront (dropAll fs) (dropAll fs) := by
  induction fs with
  | nil => exact .pure
  | cons f fs ih => exact .bind (.upd fun s t ⟨d, e, h⟩ => ⟨d, by rw [e], h⟩) fun _ => ih

theorem loadFileFrom_front (size : Nat) (cls : List Nat) : ∀ (dst : Bytes) (off : Nat),
    Twin SameFront (loadFileFrom dst size off cls) (loadFileFrom dst size off cls) := by
  induction cls with
  | nil => exact fun _ _ => .pure
  | cons cl cls ih =>
    intro dst off
    refine .ite (fun _ => .pure) fun _ => .read fun s t h => ?_
    obtain ⟨d, rfl, -⟩ := h
    refine (bread_front _).result.bind fun b => ?_
    cases b with
    | none => exact .pure
    | some b => exact ih _ _

theorem loadFile_front (dst : Bytes) (start size : Nat) :
    Twin SameFront (loadFile dst start size) (loadFile dst start size) := by
  refine .read fun s t h => ?_
  obtain ⟨d, rfl, -⟩ := h
  exact loadFileFrom_front _ _ _ _

theorem dirLoadFrom_front (ls : List Nat) :
    ∀ off, Twin SameFront (dirLoadFrom off ls) (dirLoadFrom off ls) := by
  induction ls with
  | nil => exact fun _ => .upd fun s t ⟨d, e, h⟩ => ⟨d, by rw [e], h⟩
  | cons l ls ih =>
    intro off
    refine (bread_front l).bind fun b => .bind (.upd fun s t h => ?_) fun _ => ih _
    obtain ⟨d, rfl, h⟩ := h
    refine ⟨_, rfl, fun k hk => ?_⟩
    simp only [putBytes, h k hk]

theorem dirLoad_front : Twin SameFront dirLoad dirLoad := by
  refine .read fun s t h => ?_
  obtain ⟨d, rfl, -⟩ := h
  exact (dirLoadFrom_front _ _).bind fun _ => .need

theorem scanFrom_front (left : Nat) : ∀ (i : Nat) (run : LfnRun), RunBefore i run → i + left ≤ 128 →
    Twin SameFront (scanFrom left i run) (scanFrom left i run) := by
  induction left with
  | zero => exact fun _ _ _ _ => .pure
  | succ left ih =>
    intro i run hr hi
    have hi' : i + 1 + left ≤ 128 := by omega
    have hadd : ∀ f : FileEnt, Twin SameFront (upd fun s => { s with files := s.files ++ [f] })
        (upd fun s => { s with files := s.files ++ [f] }) := fun f => .upd fun s t ⟨d, e, h⟩ =>
          ⟨d, by rw [e], h⟩
    unfold scanFrom
    refine .read fun s t h => ?_
    obtain ⟨d, rfl, h⟩ := h
    simp only [id]
    rw [← h (32 * i) (by omega), ← h (32 * i + 11) (by omega), ← h.entryName hr (by omega),
      ← h.rdU16 (o := 32 * i + 26) (by omega), ← h.rdU32 (o := 32 * i + 28) (by omega),
      ← h.nextRun (by omega)]
    exact .ite (fun _ => .pure) fun _ => .ite (fun _ => ih _ _ .none hi') fun _ =>
      .ite (fun _ => ih _ _ (hr.next s.dir) hi') fun _ =>
      .ite (fun _ => ih _ _ .none hi') fun _ => .ite (fun _ => (hadd _).bind fun _ => ih _ _ .none
        hi') fun _ =>
      .ite (fun _ => ih _ _ .none hi') fun _ => pageBuf_front.bind fun page =>
        (loadFile_front _ _ _).bind fun r =>
      (hadd _).bind fun _ => ih _ _ .none hi'

/-! ## How often the device is read -/

/-- At most `n` calls of the driver. -/
def Asks {α : Type} (n : Nat) (m : FsM α) : Prop := ∀ s, ∃ k ≤ n, (exec m s).2.errs = s.errs.drop k

theorem Asks.none {α : Type} {m : FsM α} {n : Nat} (h : ∀ s, (exec m s).2.errs = s.errs) :
    Asks n m := fun s =>
  ⟨0, Nat.zero_le _, h s⟩

theorem Asks.bind {α β : Type} {m : FsM α} {f : α → FsM β} {a b n : Nat} (hm : Asks a m)
    (hf : ∀ x, Asks b (f x)) (hn : a + b ≤ n) :
    Asks n (m >>= f) := by
  intro s
  obtain ⟨k, hk, h1⟩ := hm s
  rw [exec_bind]
  cases hx : (exec m s).1 with
  | none => exact ⟨k, by omega, h1⟩
  | some x =>
    obtain ⟨j, hj, h2⟩ := hf x (exec m s).2
    exact ⟨k + j, by omega, by rw [Option.elim_some, h2, h1, List.drop_drop]⟩

theorem Asks.ite {α : Type} {c : Prop} [Decidable c] {m m' : FsM α} {n : Nat} (ht : c → Asks n m)
    (hf : ¬ c → Asks n m') :
    Asks n (if c then m else m') := by
  split
  · exact ht ‹_›
  · exact hf ‹_›

theorem Asks.read {α β : Type} {f : Fs → α} {k : α → FsM β} {n : Nat} (h : ∀ s, Asks n (k (f s))) :
    Asks n (gets f >>= k) :=
  fun s => h s s

theorem Asks.mono {α : Type} {m : FsM α} {a n : Nat} (h : Asks a m) (hn : a ≤ n) : Asks n m := fun s =>
  (h s).imp fun _ hk => ⟨hk.1.trans hn, hk.2⟩

theorem bread_asks (lba : Nat) : Asks 1 (bread lba) := by
  have hdriver : Asks 1 driver := fun s => ⟨1, Nat.le_refl _, by
    change s.errs.tail = _
    rw [List.drop_one]⟩
  have hneed : ∀ b, Asks 0 (need b : FsM Unit) := fun b => .none fun _ => rfl
  exact .bind (.read fun s => .bind (hneed _) (fun _ => hdriver) (Nat.le_refl _))
    (fun _ => .none fun _ => rfl) (Nat.le_refl (1 + 0))

theorem loadFileFrom_asks (size : Nat) (cls : List Nat) : ∀ (dst : Bytes) (off : Nat),
    Asks cls.length (loadFileFrom dst size off cls) := by
  induction cls with
  | nil => exact fun _ _ => .none fun _ => rfl
  | cons cl cls ih =>
    intro dst off
    refine .ite (fun _ => .none fun _ => rfl) fun _ => .read fun s => .bind (a := 1)
      (b := cls.length) (bread_asks _) (fun b => ?_) ?_
    · cases b with
      | none => exact .none fun _ => rfl
      | some b => exact ih _ _
    · rw [List.length_cons]
      omega

theorem loadFile_asks (dst : Bytes) (start size : Nat) : Asks chainMax (loadFile dst start size) :=
  .read fun _ => (loadFileFrom_asks _ _ _ _).mono (chain_length ..)

theorem dirLoadFrom_asks (ls : List Nat) : ∀ off, Asks ls.length (dirLoadFrom off ls) := by
  induction ls with
  | nil => exact fun _ => .none fun _ => rfl
  | cons l ls ih =>
    intro off
    refine .bind (bread_asks l) (fun b => .bind (.none fun _ => rfl) (fun _ => ih _)
      (Nat.le_refl (0 + ls.length))) ?_
    rw [List.length_cons]
    omega

theorem dirLoad_asks : Asks chainMax dirLoad :=
  .read fun s => .bind (b := 0) (dirLoadFrom_asks _ _) (fun _ => .none fun _ => rfl) (dirSectors_length s)

theorem scanFrom_asks (left : Nat) :
    ∀ (i : Nat) (run : LfnRun), Asks (chainMax * left) (scanFrom left i run) := by
  induction left with
  | zero => exact fun _ _ => .none fun _ => rfl
  | succ left ih =>
    intro i run
    have hle : chainMax * left ≤ chainMax * (left + 1) := Nat.mul_le_mul_left _ (Nat.le_succ _)
    have hnext : ∀ run, Asks (chainMax * (left + 1)) (scanFrom left (i + 1) run) :=
      fun run => (ih _ _).mono hle
    have hadd : ∀ f : FileEnt, Asks (chainMax * left) (do
        upd fun s => { s with files := s.files ++ [f] }
        scanFrom left (i + 1) none) := fun f => .bind (a := 0) (.none fun _ => rfl)
          (fun _ => ih _ _) (by omega)
    unfold scanFrom
    refine .read fun s => .ite (fun _ => .none fun _ => rfl) fun _ => .ite (fun _ => hnext _)
      fun _ => .ite (fun _ => hnext _) fun _ =>
      .ite (fun _ => hnext _) fun _ => .ite (fun _ => (hadd _).mono hle) fun _ =>
        .ite (fun _ => hnext _) fun _ => ?_
    refine .bind (a := 0) (.none fun s => ?_) (fun page => .bind (loadFile_asks _ _ _)
      (fun r => hadd _) (Nat.le_refl _)) ?_
    · unfold pageBuf
      rw [exec_bind_of (exec_gets _ _), exec_bind]
      simp only [exec_need]
      split <;> rfl
    · rw [Nat.mul_succ]
      omega

/-! ## The scan -/

/-- A scan that got past the load: the directory it runs over. -/
theorem scanDir_loaded (s : Fs) :
    (∃ s2, exec dirLoad (emptied s) = (none, s2) ∧ exec scanDir s = (none, s2)) ∨
    ∃ s2, exec dirLoad (emptied s) = (some (), s2) ∧ s2.dirBytes ≤ 4096 ∧
    exec scanDir s = exec (scanFrom s2.dirEnts 0 none) s2 := by
  have h := exec_scanDirWith lfnBuild s
  rw [scanDirWith_lfnBuild, scanWith_lfnBuild] at h
  rcases hx : exec dirLoad (emptied s) with ⟨_ | ⟨⟩, s2⟩
  · rw [hx] at h
    exact .inl ⟨s2, rfl, h⟩
  · rw [hx] at h
    refine .inr ⟨s2, rfl, ?_, h⟩
    have hlen := dirSectors_length (emptied s)
    rw [(dirLoad_loads hx).2]
    unfold secSize chainMax at *
    omega

theorem scanDir_asks (s : Fs) : ∃ k ≤ 1032, (exec scanDir s).2.errs = s.errs.drop k := by
  have hp := emptied_eq s
  have herrs : (emptied s).errs = s.errs := by rw [hp]
  obtain ⟨k, hk, h1⟩ := dirLoad_asks (emptied s)
  unfold chainMax at hk
  rcases scanDir_loaded s with ⟨s2, hx, h⟩ | ⟨s2, hx, hle, h⟩
  · rw [hx] at h1
    exact ⟨k, by omega, by rw [h, h1, herrs]⟩
  · rw [hx] at h1
    obtain ⟨j, hj, h2⟩ := scanFrom_asks s2.dirEnts 0 none s2
    refine ⟨k + j, ?_, by rw [h, h2, h1, herrs, List.drop_drop]⟩
    unfold chainMax dirEnts at hj
    omega

/-- What is written, and what is in the cache afterwards. -/
theorem scanDir_ends (s : Fs) : DirBeyond s.dir 4096 (exec scanDir s).2 ∧
    ((exec scanDir s).2.files = [] ∨ ∃ d n, n ≤ 4096 ∧ ScanSafe s.junk d n (exec scanDir s).2) := by
  have hp := emptied_eq s
  have hload := (dirLoad_beyond s.dir).exec (s := emptied s) (by rw [hp]; exact fun _ _ => rfl)
  have honly := dirLoad_dirOnly (emptied s)
  rcases scanDir_loaded s with ⟨s2, hx, h⟩ | ⟨s2, hx, hle, h⟩
  · rw [hx] at hload honly
    rw [h]
    refine ⟨hload, .inl ?_⟩
    rw [honly, hp]
  · rw [hx] at hload honly
    have hjunk : s2.junk = s.junk := by
      rw [show s2 = _ from honly, hp]
    have hfiles : s2.files = [] := by
      rw [show s2 = _ from honly, hp]
    have hsafe : ScanSafe s.junk s2.dir s2.dirBytes (exec (scanFrom s2.dirEnts 0 none) s2).2 := by
      refine (scanFrom_safe s2.dirEnts 0 none ?_).exec ⟨hjunk, rfl, rfl, ?_, ?_⟩
      · unfold dirEnts
        omega
      · rw [hfiles]
        exact Nat.zero_le _
      · rw [hfiles]
        exact nofun
    rw [h]
    refine ⟨fun k hk => ?_, .inr ⟨_, _, hle, hsafe⟩⟩
    rw [hsafe.dir]
    exact hload k hk

theorem scanDir_reads (s : Fs) (d : Bytes) (hd : Agree s.dir d 4096) :
    (exec scanDir { s with dir := d }).1 = (exec scanDir s).1 ∧ SameFront (exec scanDir s).2
    (exec scanDir { s with dir := d }).2 := by
  have hempty : SameFront (emptied s) (emptied { s with dir := d }) := by
    obtain ⟨-, d', h, h'⟩ := dropAll_front s.files s { s with dir := d } ⟨d, rfl, hd⟩
    refine ⟨d', ?_, h'⟩
    unfold emptied
    rw [h]
  obtain ⟨h1, h2⟩ := dirLoad_front _ _ hempty
  rcases scanDir_loaded s with ⟨s2, hx, h⟩ | ⟨s2, hx, hle, h⟩ <;>
    rcases scanDir_loaded { s with dir := d } with ⟨t2, hy, h'⟩ | ⟨t2, hy, -, h'⟩ <;> rw [hx, hy]
      at h1 h2 <;> rw [h, h']
  · exact ⟨rfl, h2⟩
  · cases h1
  · cases h1
  · obtain ⟨d', e, hd'⟩ := h2
    have hents : t2.dirEnts = s2.dirEnts := by
      rw [show t2 = _ from e]
      rfl
    obtain ⟨h3, h4⟩ := scanFrom_front s2.dirEnts 0 none .none (by unfold dirEnts; omega) s2 t2 ⟨d', e, hd'⟩
    rw [hents]
    exact ⟨h3.symm, h4⟩

/-- **Scanning any directory is safe**: it ends after at most 1032 sectors, reads and writes 4096
bytes of the directory page and of each file page, keeps the cache within its bounds, and hands only
runs of long names to the decoder. -/
theorem scan_safe (s : Fs) :
    let s' := (exec scanDir s).2
    (∃ k ≤ 1032, s'.errs = s.errs.drop k) ∧
    (∀ k, 4096 ≤ k → s'.dir k = s.dir k) ∧
    (∀ d, Agree s.dir d 4096 → (exec scanDir { s with dir := d }).1 = (exec scanDir s).1 ∧
      SameFront s' (exec scanDir { s with dir := d }).2) ∧
    s'.files.length ≤ fsMax ∧ (s'.files ≠ [] → s'.dirBytes ≤ 4096) ∧
      (∀ f ∈ s'.files, CacheSafe s.junk s'.dirBytes f) ∧
    (∀ build, OnRuns build → exec (scanDirWith build) s = exec scanDir s) ∧
    (∀ d i run buf, Beyond buf (putName d i run buf) ∧ Holds (putName d i run buf) (entryName d i run)) := by
  obtain ⟨hwrite, hcache⟩ := scanDir_ends s
  refine ⟨scanDir_asks s, hwrite, scanDir_reads s, ?_, fun hne => ?_, fun f hf => ?_,
    fun build hb => scanDir_runs hb s, putName_spec⟩
  · rcases hcache with h | ⟨d, n, -, h⟩
    · rw [h]
      exact Nat.zero_le _
    · exact h.count
  · obtain ⟨d, n, hn, h⟩ := hcache.resolve_left hne
    exact h.bytes ▸ hn
  · obtain ⟨d, n, -, h⟩ := hcache.resolve_left (List.ne_nil_of_mem hf)
    exact h.bytes ▸ h.cache f hf

end VampireOS.Fs
