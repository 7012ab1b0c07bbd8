import VampireOS.Fs.Slots
import VampireOS.Fs.Names
import VampireOS.Fs.Exec

/-!
# Long names, written and read back (kernel/fs.c:730-895, 1026-1205)

`fs_create` scatters a name that is no 8.3 name over entries in front of the 8.3 entry, the last
part first: 13 characters an entry, a zero behind the last one, 0xFF after it. `Spelled` says that a
slot holds such an entry; a scan that comes by, with whatever run it carries, reads the name back.
-/

namespace VampireOS.Fs

open Lib

variable {d : Bytes} {s s' : Fs} {name a : Name} {i n : Nat} {sum : UInt8}

/-! ## One entry -/

/-- Slot `j` holds the long-name entry `seq` of `count`. -/
def Spelled (d : Bytes) (j seq count : Nat) (sum : UInt8) (name : Name) : Prop := ∀ o < 32,
  d (32 * j + o) = lfnStore (UInt8.ofNat seq ||| if seq = count then 0x40 else 0) sum name ((seq - 1) * 13) o

/-- The places of character `k`. -/
theorem lfnSlot_place (k : Nat) (hk : k < 13) : let p := lfnSlot.getD k 0
    p + 1 < 32 ∧ p ≠ 0 ∧ p ≠ 11 ∧ p ≠ 13 ∧ p + 1 ≠ 11 ∧ p + 1 ≠ 13 ∧ lfnSlot.getD k 0 ≠ p + 1 ∧
      lfnSlot.findIdx? (fun q => q = p ∨ q + 1 = p) = some k ∧
        lfnSlot.findIdx? (fun q => q = p + 1 ∨ q + 1 = p + 1) = some k := by
  revert k
  decide

/-- What stands in the places of character `k`. -/
def placed (name : Name) (start k : Nat) : UInt8 × UInt8 :=
  if name.length < start + k then (0xFF, 0xFF) else (name.getD (start + k) 0, 0)

theorem lfnStore_char (seq : UInt8) (start : Nat) {k : Nat} (hk : k < 13) :
    (lfnStore seq sum name start (lfnSlot.getD k 0), lfnStore seq sum name start (lfnSlot.getD k 0 + 1)) =
      placed name start k := by
  obtain ⟨-, h0, h11, h13, h11', h13', hne, hp, hp'⟩ := lfnSlot_place k hk
  unfold lfnStore placed
  rw [if_neg h0, if_neg h11, if_neg h13, if_neg (Nat.succ_ne_zero _), if_neg h11', if_neg h13', hp, hp']
  simp only [if_neg hne, if_true]
  split <;> rfl

/-- The characters of one entry as they stand in the slots: the part of the name, a zero if there is
room, 0xFF. -/
def part (name : Name) (start : Nat) : Name := (name.drop start).take 13

theorem placed_part (start : Nat) : ((List.range (part name start).length).map (placed name start)) =
    (part name start).map fun c => (c, 0) := by
  refine List.ext_getElem (by simp) fun k h1 h2 => ?_
  simp only [part, List.length_map, List.length_range, List.length_take, List.length_drop] at h1
  rw [List.getElem_map, List.getElem_range, List.getElem_map]
  simp only [placed, part, List.getElem_take, List.getElem_drop]
  rw [if_neg (by omega), List.getD_eq_getElem?_getD, List.getElem?_eq_getElem (by omega), Option.getD_some]

/-- The zero behind the last character, when there is room for it, ends the part. -/
theorem placed_eq {start : Nat} (hs : start ≤ name.length) (h0 : ∀ c ∈ name, c ≠ 0) :
    ((List.range 13).map (placed name start)).takeWhile (fun c => c ≠ (0, 0)) =
    (part name start).map fun c => (c, 0) := by
  have hlen : (part name start).length = min 13 (name.length - start) := by
    unfold part
    rw [List.length_take, List.length_drop]
  have hall : ∀ c ∈ (part name start).map fun c => (c, (0 : UInt8)), decide (c ≠ (0, 0)) = true := by
    intro c hc
    obtain ⟨x, hx, rfl⟩ := List.mem_map.1 hc
    have hx0 := h0 x (List.mem_of_mem_drop (List.mem_of_mem_take hx))
    simp [hx0]
  obtain ⟨rest, hrest⟩ := Nat.exists_eq_add_of_le (show (part name start).length ≤ 13 by omega)
  rw [hrest, List.range_add, List.map_append, placed_part, List.takeWhile_append_of_pos hall]
  cases rest with
  | zero => simp
  | succ rest =>
    have hend : placed name start ((part name start).length + 0) = (0, 0) := by
      unfold placed
      rw [if_neg (by omega), List.getD_eq_getElem?_getD, List.getElem?_eq_none (by omega), Option.getD_none]
    rw [List.range_succ_eq_map, List.map_cons, List.map_cons, hend, List.takeWhile_cons,
      if_neg (by simp), List.append_nil]

/-- A slot that holds an entry gives its part of the name. -/
theorem Spelled.chars {j seq count : Nat} (h : Spelled d j seq count sum name)
    (hs : (seq - 1) * 13 ≤ name.length) (hprint : ∀ c ∈ name, 0x20 ≤ c) {out : Name}
    (hroom : out.length + (part name ((seq - 1) * 13)).length < nameMax) :
    lfnChars d (32 * j) out = some (out ++ part name ((seq - 1) * 13)) := by
  have h0 : ∀ c ∈ name, c ≠ 0 := fun c hc e => absurd (hprint c hc) (by rw [e]; decide)
  have hmap : (lfnSlot.map fun p => (d (32 * j + p), d (32 * j + p + 1))) = (List.range 13).map
      (placed name ((seq - 1) * 13)) := by
    have hslots : lfnSlot = (List.range 13).map fun k => lfnSlot.getD k 0 := by decide
    rw [hslots, List.map_map]
    refine List.map_congr_left fun k hk => ?_
    rw [List.mem_range] at hk
    obtain ⟨h32, -⟩ := lfnSlot_place k hk
    rw [Function.comp_apply, Nat.add_assoc, h _ (by omega), h _ h32]
    exact lfnStore_char _ _ hk
  unfold lfnChars
  simp only [hmap, placed_eq hs h0]
  rw [h 11 (by decide), h 12 (by decide), if_neg, if_pos]
  · simp [List.map_map, Function.comp_def]
  · rw [List.length_map, Bool.and_eq_true, decide_eq_true hroom, List.all_eq_true]
    refine ⟨fun c hc => ?_, rfl⟩
    obtain ⟨x, hx, rfl⟩ := List.mem_map.1 hc
    simpa using hprint x (List.mem_of_mem_drop (List.mem_of_mem_take hx))
  · have h12 : lfnSlot.findIdx? (fun q => q = 12 ∨ q + 1 = 12) = none := by decide
    unfold lfnStore
    rw [h12]
    simp

/-! ## A name and its entries -/

/-- The long-name entries a name takes. -/
def lfnCount (name : Name) : Nat := (name.length + 12) / 13

/-- What `lfn_ok` says. -/
structure LongOk (name : Name) : Prop where
  pos : 0 < name.length
  short : name.length < nameMax
  print : ∀ c ∈ name, 0x20 ≤ c

theorem printable (c : UInt8) : c = dot ∨ Alnum c → 0x20 ≤ c := by
  revert c
  exact forall_byte (by decide +kernel)

theorem longOk (h : lfnOk name = true) : LongOk name := by
  unfold lfnOk at h
  simp only [Bool.and_eq_true, decide_eq_true_eq, List.all_eq_true, Bool.or_eq_true, nameChar_foldAz] at h
  obtain ⟨⟨hne, hlt⟩, hall⟩ := h
  exact ⟨List.length_pos_iff.2 hne, hlt, fun c hc => printable c (hall c hc)⟩

theorem LongOk.count (h : LongOk name) :
    lfnCount name = 1 ∧ name.length ≤ 13 ∨ lfnCount name = 2 ∧ 13 < name.length := by
  have h1 := h.pos
  have h2 := h.short
  unfold nameMax at h2
  unfold lfnCount
  omega

/-- The parts in the order of the name. -/
theorem LongOk.parts (h : LongOk name) :
    part name 0 ++ (if lfnCount name = 2 then part name 13 else []) = name := by
  have h2 := h.short
  unfold nameMax at h2
  unfold part
  rcases h.count with ⟨hc, hlen⟩ | ⟨hc, hlen⟩
  · rw [hc, if_neg (by decide), List.drop_zero, List.take_of_length_le hlen, List.append_nil]
  · rw [hc, if_pos rfl, List.drop_zero, List.take_of_length_le (l := name.drop 13)
      (by rw [List.length_drop]; omega), List.take_append_drop]

/-- From slot `i` on stand the entries of a name, the last part first, and its 8.3 entry. -/
structure Written (d : Bytes) (i : Nat) (name a : Name) (cl : Nat) : Prop where
  long : ∀ k < lfnCount name, Spelled d (i + k) (lfnCount name - k) (lfnCount name) (lfnCksum a) name
  short : ∀ o < 32, d (32 * (i + lfnCount name) + o) = newEntry a 0x20 cl o

variable {cl : Nat}

theorem Written.longChars (h : Written d i name a cl) (hok : LongOk name) :
    longChars d i (List.range (lfnCount name)).reverse (some []) = some name := by
  have hparts := hok.parts
  have hlen := hok.short
  have hfirst : (part name 0).length ≤ name.length := by
    unfold part
    rw [List.length_take, List.drop_zero]
    omega
  rcases hok.count with ⟨hc, hle⟩ | ⟨hc, hle⟩
  · have h0 := h.long 0 (by omega)
    rw [hc, if_neg (by decide), List.append_nil] at hparts
    rw [hc] at h0 ⊢
    have hread : lfnChars d (32 * (i + 0)) [] = some ([] ++ part name 0) :=
      h0.chars (Nat.zero_le _) hok.print (by simpa using Nat.lt_of_le_of_lt hfirst hlen)
    exact hread.trans (congrArg some hparts)
  · have h0 := h.long 0 (by omega)
    have h1 := h.long 1 (by omega)
    rw [hc, if_pos rfl] at hparts
    rw [hc] at h0 h1 ⊢
    have hread1 : lfnChars d (32 * (i + 1)) [] = some ([] ++ part name 0) :=
      h1.chars (Nat.zero_le _) hok.print (by simpa using Nat.lt_of_le_of_lt hfirst hlen)
    have hread0 : lfnChars d (32 * (i + 0)) (part name 0) = some (part name 0 ++ part name 13) :=
      h0.chars (Nat.le_of_lt hle) hok.print (by
      rw [← List.length_append, show part name 0 ++ part name ((2 - 0 - 1) * 13) = name from hparts]
      exact hlen)
    have hstep : Fs.longChars d i (List.range 2).reverse (some []) =
        (lfnChars d (32 * (i + 1)) []).bind fun out => lfnChars d (32 * (i + 0)) out := rfl
    rw [hstep, hread1]
    exact hread0.trans (congrArg some hparts)

theorem newEntry_read (ha : a.length = 11) (attr : UInt8) (cl : Nat) :
    name83 (newEntry a attr cl) 0 = a ∧ newEntry a attr cl 11 = attr ∧
    rdU16 (newEntry a attr cl) 26 = cl % 65536 ∧
      rdU32 (newEntry a attr cl) 28 = 0 := by
  have hname : ∀ o < 11, newEntry a attr cl o = ofList a o := by
    intro o ho
    unfold newEntry wrU16 putBytes
    rw [if_neg (by omega), Function.update_of_ne (by omega), if_pos (by omega), Nat.sub_zero]
  refine ⟨?_, rfl, ?_, ?_⟩
  · have hlist := range_map_ofList a 0 11 (by omega)
    rw [List.drop_zero, List.take_of_length_le (by omega)] at hlist
    refine Eq.trans (List.map_congr_left fun o ho => ?_) hlist
    rw [Nat.zero_add]
    exact hname o (List.mem_range.1 ho)
  · change (UInt8.ofNat (cl / 256 ^ 0)).toNat + (UInt8.ofNat (cl / 256 ^ 1)).toNat * 256 = cl % 65536
    simp only [UInt8.toNat_ofNat']
    omega
  · have hzero : ∀ o, 28 ≤ o → newEntry a attr cl o = 0 := fun o ho => by
      unfold newEntry wrU16 putBytes
      rw [if_neg (by omega), Function.update_of_ne (by omega), if_neg (by omega)]
    unfold rdU32
    rw [hzero _ (by omega), hzero _ (by omega), hzero _ (by omega), hzero _ (by omega)]
    rfl

/-! ## The alias -/

theorem upper_first (c : UInt8) : Alnum c → upper (foldAz c) ≠ 0 ∧ skipMark (upper (foldAz c)) = false := by
  revert c
  exact forall_byte (by decide +kernel)

/-- An alias starts with a letter or digit, has a tilde, and no entry of the directory has it. -/
structure Alias (s : Fs) (a : Name) : Prop where
  length : a.length = 11
  first : ofList a 0 ≠ 0 ∧ skipMark (ofList a 0) = false
  tilde : 126 ∈ a
  unused : s.aliasUsed a = false

theorem makeAlias_spec (h : s.makeAlias name = some a) : Alias s a := by
  unfold makeAlias at h
  simp only at h
  set base :=
    ((((splitDot name).1.filter fun c => nameChar (foldAz c)).map fun c => upper (foldAz c)).take 8)
    with hbase
  set ext : Name := (splitDot name).2.elim [] fun e =>
    ((e.filter fun c => nameChar (foldAz c)).map fun c => upper (foldAz c)).take 3
    with hext
  have hext3 : ext.length ≤ 3 := by
    rw [hext]
    cases (splitDot name).2 with
    | none => simp
    | some e => simp only [Option.elim_some, List.length_take]; omega
  split at h
  · cases h
  · next hne =>
    obtain ⟨hp, hm⟩ := And.intro (List.find?_some h) (List.mem_of_find?_eq_some h)
    obtain ⟨g, -, rfl⟩ := List.mem_map.1 hm
    cases hb : base with
    | nil => exact absurd hb hne
    | cons c rest =>
      have hc : c ∈ base := by
        rw [hb]
        exact List.mem_cons_self
      obtain ⟨x, hx, rfl⟩ := List.mem_map.1 (List.mem_of_mem_take (hbase ▸ hc))
      have hal : Alnum x := (nameChar_foldAz x).1 (List.mem_filter.1 hx).2
      have h8 : ((upper (foldAz x) :: rest).take 6 ++ [126, UInt8.ofNat (49 + g)]).length ≤ 8 := by
        rw [List.length_append, List.length_take, List.length_cons, List.length_cons,
          List.length_cons, List.length_nil]
        omega
      refine ⟨?_, ?_, ?_, ?_⟩
      · rw [List.length_append, padTo_length h8, padTo_length hext3]
      · exact upper_first x hal
      · rw [padTo]
        simp
      · rw [hb] at hp
        simpa using hp

/-- An 8.3 name has letters, digits and blanks. -/
theorem upper_tilde (c : UInt8) : upper (foldAz c) = 126 → ¬ Alnum c := by
  revert c
  exact forall_byte (by decide +kernel)

theorem tilde_padTo {b : Name} (n : Nat) (h : ∀ c ∈ b, Alnum c) :
    126 ∉ padTo n (b.map fun c => upper (foldAz c)) := by
  intro hm
  unfold padTo at hm
  rcases List.mem_append.1 hm with hm | hm
  · obtain ⟨c, hc, e⟩ := List.mem_map.1 hm
    exact upper_tilde c e (h c hc)
  · exact absurd (List.eq_of_mem_replicate hm) (by decide)

theorem to83_no_tilde {other b : Name} (h : to83 other = some b) : 126 ∉ b := by
  cases is83_of_to83 h with
  | base hb =>
    rw [to83_base hb] at h
    obtain rfl := Option.some.inj h
    rw [List.mem_append, not_or]
    exact ⟨tilde_padTo 8 hb.alnum, by decide⟩
  | ext hb he =>
    rw [to83_ext hb he] at h
    obtain rfl := Option.some.inj h
    rw [List.mem_append, not_or]
    exact ⟨tilde_padTo 8 hb.alnum, tilde_padTo 3 he.alnum⟩

/-- The alias is no live 8.3 name of the directory. -/
theorem Alias.fresh (h : Alias s a) {j : Nat} (hj : j ∈ entriesFrom s.dir s.dirEnts 0)
    (hlive : s.dir (32 * j) ≠ 0xE5) (hattr : skippedAttr (s.dir (32 * j + 11)) = false) :
    name83 s.dir (32 * j) ≠ a := by
  intro e
  have hused := h.unused
  unfold aliasUsed at hused
  rw [List.any_eq_false] at hused
  exact hused j hj (by simp [hlive, hattr, e])

/-! ## Reading it back -/

theorem Written.name83 (h : Written d i name a cl) (ha : a.length = 11) :
    name83 d (32 * (i + lfnCount name)) = a := by
  rw [← (newEntry_read ha 0x20 cl).1]
  refine List.map_congr_left fun o ho => ?_
  rw [Nat.zero_add]
  exact h.short o (by have := List.mem_range.1 ho; omega)

/-- Marks, attributes and checksums of the entries. -/
theorem Written.mark (h : Written d i name a cl) {k : Nat} (hk : k < lfnCount name) :
    d (32 * (i + k)) = (UInt8.ofNat (lfnCount name - k) ||| if k = 0 then 0x40 else 0) ∧
    d (32 * (i + k) + 11) = 0x0F ∧
      d (32 * (i + k) + 13) = lfnCksum a := by
  have h0 := h.long k hk
  refine ⟨?_, h0 11 (by decide), h0 13 (by decide)⟩
  have hmark := h0 0 (by decide)
  rw [Nat.add_zero] at hmark
  rw [hmark]
  unfold lfnStore
  rw [if_pos rfl]
  by_cases hk0 : k = 0
  · rw [if_pos (by omega), if_pos hk0]
  · rw [if_neg (by omega), if_neg hk0]

theorem Written.build (h : Written d i name a cl) (hok : LongOk name) (ha : a.length = 11) :
    lfnBuild d i (lfnCount name) (32 * (i + lfnCount name)) = some name := by
  have hbuild : ∀ count off, lfnBuild d i count off = if count = 0 ∨ count > 2 ∨
    !(List.range count).all fun k =>
      d (32 * (i + k)) = (UInt8.ofNat (count - k) ||| if k = 0 then 0x40 else 0) &&
        d (32 * (i + k) + 13) = lfnCksum (Fs.name83 d off) then none
      else (Fs.longChars d i (List.range count).reverse (some [])).filter fun n => n ≠ [] := fun _ _ => rfl
  have hgood : ((List.range (lfnCount name)).all fun k => d (32 * (i + k)) =
      (UInt8.ofNat (lfnCount name - k) ||| if k = 0 then 0x40 else 0) && d (32 * (i + k) + 13) =
        lfnCksum a) = true := by
    rw [List.all_eq_true]
    intro k hk
    obtain ⟨h0, -, h13⟩ := h.mark (List.mem_range.1 hk)
    rw [h0, h13, decide_eq_true rfl, decide_eq_true rfl]
    rfl
  have hne : name ≠ [] := List.length_pos_iff.1 hok.pos
  have hcount := hok.count
  rw [hbuild, h.name83 ha, hgood, h.longChars hok, if_neg (by simp; omega), Option.filter_some,
    if_pos (by simpa using hne)]

/-- The listed name, whatever stands in front. -/
theorem Written.entryName (h : Written d i name a cl) (hok : LongOk name) (ha : a.length = 11) :
    entryName d (i + lfnCount name) (some (i, lfnCount name)) = name := by
  unfold Fs.entryName
  rw [Option.bind_some, h.build hok ha, Option.getD_some]

/-- The marks of long-name entries: they end no directory and are not passed over, and only the
first starts a run. -/
theorem marks (h : LongOk name) {k : Nat} (hk : k < lfnCount name) :
    let c := UInt8.ofNat (lfnCount name - k) ||| if k = 0 then 0x40 else 0
    c ≠ 0 ∧ skipMark c = false ∧ (c &&& 0x40 ≠ 0 ↔ k = 0) := by
  rcases h.count with ⟨hc, -⟩ | ⟨hc, -⟩
  · rw [hc] at hk ⊢
    obtain rfl : k = 0 := by omega
    decide
  · rw [hc] at hk ⊢
    obtain rfl | rfl : k = 0 ∨ k = 1 := by omega
    · decide
    · decide

/-- The run that a scan carries behind `k` of the entries. -/
theorem Written.next (h : Written d i name a cl) (hok : LongOk name) {k : Nat}
    (hk : k < lfnCount name) {run : LfnRun} (hrun : k ≠ 0 → run = some (i, k)) :
    nextRun d (i + k) run = some (i, k + 1) := by
  obtain ⟨h0, -, -⟩ := h.mark hk
  obtain ⟨-, -, hfirst⟩ := marks hok hk
  have hcount := hok.count
  unfold nextRun
  rw [h0]
  by_cases hk0 : k = 0
  · rw [if_pos (hfirst.2 hk0), hk0]
    rfl
  · rw [if_neg fun hx => hk0 (hfirst.1 hx), hrun hk0, Option.bind_some]
    exact if_pos (show k < 2 by omega)

theorem exec_scanFrom_long {run : LfnRun} {left : Nat} (h0 : s.dir (32 * i) ≠ 0)
    (hskip : skipMark (s.dir (32 * i)) = false) (hattr : s.dir (32 * i + 11) = 0x0F)
    (hroom : s.files.length < fsMax) :
    exec (scanFrom (left + 1) i run) s = exec (scanFrom left (i + 1) (nextRun s.dir i run)) s := by
  conv_lhs => unfold scanFrom
  rw [exec_bind_of (exec_gets _ _)]
  simp only [id]
  rw [if_neg (by simp only [not_or, not_le]; exact ⟨hroom, h0⟩), if_neg (by rw [hskip]; decide), if_pos hattr]

/-- A scan that comes to slot `i` with any run stands in front of the 8.3 entry with the run of the name. -/
theorem Written.scan (h : Written s.dir i name a cl) (hok : LongOk name)
    (hroom : s.files.length < fsMax) (left : Nat) (run : LfnRun) :
    ∀ k ≤ lfnCount name, exec (scanFrom (k + left) i run) s =
      exec (scanFrom left (i + k) (if k = 0 then run else some (i, k))) s := by
  intro k
  induction k generalizing left with
  | zero => simp
  | succ k ih =>
    intro hk
    obtain ⟨h0, h11, -⟩ := h.mark (show k < lfnCount name by omega)
    obtain ⟨hz, hs, -⟩ := marks hok (show k < lfnCount name by omega)
    rw [show k + 1 + left = k + (left + 1) by omega, ih (left + 1) (by omega),
      exec_scanFrom_long (by rw [h0]; exact hz) (by rw [h0]; exact hs) h11 hroom,
      h.next hok (by omega) fun hk0 => if_neg hk0, if_neg (Nat.succ_ne_zero k), Nat.add_assoc]

theorem Written.runAt (h : Written d i name a cl) (hok : LongOk name) : ∀ k ≤ lfnCount name, k ≠ 0 →
    lfnRunAt d (i + k) = some (i, k) := by
  intro k
  induction k with
  | zero => exact fun _ h => absurd rfl h
  | succ k ih =>
    intro hk _
    obtain ⟨h0, h11, -⟩ := h.mark (show k < lfnCount name by omega)
    obtain ⟨-, hs, -⟩ := marks hok (show k < lfnCount name by omega)
    rw [← Nat.add_assoc, lfnRunAt_succ, h0, hs, if_neg (by decide), if_pos h11,
      h.next hok (by omega) fun hk0 => ih (by omega) hk0]

theorem Written.first (h : Written d i name a cl) : d (32 * (i + lfnCount name)) = ofList a 0 := by
  have h0 := h.short 0 (by decide)
  rw [Nat.add_zero] at h0
  rw [h0]
  unfold newEntry wrU16 putBytes
  rw [if_neg (by omega), Function.update_of_ne (by omega), if_pos (by omega)]

/-- The entry as it is listed. -/
theorem Written.entryAt (h : Written d i name a cl) (hok : LongOk name) (ha : Alias s a) :
    entryAt d (i + lfnCount name) = some ⟨name, none, 0, cl % 65536, 32 * (i + lfnCount name), false⟩ := by
  have hcount := hok.count
  obtain ⟨-, h11, h26, h28⟩ := newEntry_read ha.length 0x20 cl
  have hattr : d (32 * (i + lfnCount name) + 11) = 0x20 := (h.short 11 (by decide)).trans h11
  have hcl : rdU16 d (32 * (i + lfnCount name) + 26) = cl % 65536 := by
    rw [← h26]
    unfold rdU16
    rw [h.short 26 (by decide), Nat.add_assoc, h.short 27 (by decide)]
  have hsz : rdU32 d (32 * (i + lfnCount name) + 28) = 0 := by
    rw [← h28]
    unfold rdU32
    simp only [Nat.add_assoc, Nat.reduceAdd]
    rw [h.short 28 (by decide), h.short 29 (by decide), h.short 30 (by decide), h.short 31 (by decide)]
  rw [entryAt_used (by rw [h.first]; exact ha.first.2) (by rw [hattr]; decide), hattr, hcl, hsz,
    if_neg (by decide), if_neg (by decide), h.runAt hok _ (Nat.le_refl _) (by omega),
    h.entryName hok ha.length]

/-! ## Writing it -/

theorem exec_putEntry (off : Nat) (e : Bytes) (s : Fs) :
    exec (putEntry off e) s = (some (), { s with dir := putBytes s.dir off e 32 }) := rfl

/-- `seq` entries, the last part of the name first. -/
theorem exec_putLfn (off count : Nat) (sum : UInt8) (name : Name) (seq : Nat) :
    ∀ s : Fs, seq ≤ count →
    ∃ d', exec (putLfn off count sum name seq) s = (some (), { s with dir := d' }) ∧
      (∀ k, count - seq ≤ k → k < count → ∀ o < 32, d' (off + 32 * k + o) =
        lfnStore (UInt8.ofNat (count - k) ||| if count - k = count then 0x40 else 0) sum name
          ((count - k - 1) * 13) o) ∧
      ∀ j, ¬ (off + 32 * (count - seq) ≤ j ∧ j < off + 32 * count) → d' j = s.dir j := by
  induction seq with
  | zero => exact fun s _ => ⟨s.dir, rfl, fun k h1 h2 => by omega, fun _ _ => rfl⟩
  | succ seq ih =>
    intro s hle
    set e := lfnStore (UInt8.ofNat (seq + 1) ||| if seq + 1 = count then 0x40 else 0) sum name
      (seq * 13) with he
    obtain ⟨d', h1, h2, h3⟩ :=
      ih { s with dir := putBytes s.dir (off + 32 * (count - (seq + 1))) e 32 } (by omega)
    refine ⟨d', ?_, fun k hk hlt o ho => ?_, fun j hj => ?_⟩
    · unfold putLfn
      rw [exec_bind_of (exec_putEntry _ _ _), h1]
    · by_cases hk' : count - seq ≤ k
      · exact h2 k hk' hlt o ho
      · obtain rfl : k = count - (seq + 1) := by omega
        have hseq : count - (count - (seq + 1)) = seq + 1 := by omega
        rw [h3 _ (by omega), hseq, Nat.add_sub_cancel]
        simp only [putBytes]
        rw [if_pos (by omega), Nat.add_sub_cancel_left]
    · rw [h3 j (by omega)]
      simp only [putBytes]
      rw [if_neg (by omega)]

/-- The entries that `fs_create` writes. -/
theorem exec_put (i : Nat) (name a : Name) (cl : Nat) (s : Fs) : ∃ s1 d',
    exec (putLfn (32 * i) (lfnCount name) (lfnCksum a) name (lfnCount name)) s = (some (), s1) ∧
      exec (putEntry (32 * i + 32 * lfnCount name) (newEntry a 0x20 cl)) s1 =
      (some (), { s with dir := d' }) ∧ Written d' i name a cl ∧
      ∀ j, ¬ (32 * i ≤ j ∧ j < 32 * (i + lfnCount name + 1)) → d' j = s.dir j := by
  obtain ⟨d', h1, h2, h3⟩ := exec_putLfn (32 * i) (lfnCount name) (lfnCksum a) name (lfnCount name)
    s (Nat.le_refl _)
  refine ⟨_, putBytes d' (32 * i + 32 * lfnCount name) (newEntry a 0x20 cl) 32, h1, rfl,
    ⟨fun k hk o ho => ?_, fun o ho => ?_⟩, fun j hj => ?_⟩
  · unfold putBytes
    rw [if_neg (by omega), Nat.mul_add]
    exact h2 k (by omega) hk o ho
  · unfold putBytes
    rw [if_pos (by omega), Nat.mul_add, Nat.add_sub_cancel_left]
  · unfold putBytes
    rw [if_neg (by omega), h3 j (by omega)]

/-! ## Creating -/

theorem findRunFrom_slot (d : Bytes) (count left : Nat) :
    ∀ i run off, findRunFrom d count left i run = some off → ∃ j, off = 32 * j := by
  induction left with
  | zero => exact fun _ _ _ => nofun
  | succ left ih =>
    intro i run off h
    unfold findRunFrom at h
    split at h
    · split at h
      · exact ⟨i - run, (Option.some.inj h).symm⟩
      · exact ih _ _ _ h
    · exact ih _ _ _ h

theorem dirFindRun_slot {count off : Nat} (h : s.dirFindRun count = some off) : ∃ j, off = 32 * j := by
  unfold dirFindRun at h
  split at h
  · cases h
  · exact findRunFrom_slot _ _ _ _ _ _ h

/-- Any outcome. -/
theorem triple_any {α : Type} {P : Fs → Prop} {m : FsM α} : Triple P m (fun _ _ => True) fun _ => True :=
  fun _ _ => ⟨fun _ _ => trivial, fun _ => trivial⟩

theorem dirSlots_slot (count : Nat) :
    Triple (fun _ => True) (dirSlots count) (fun off _ => ∃ j, off = 32 * j) fun _ => True := by
  refine triple_any.bind fun _ => .read fun s _ => ?_
  simp only [id]
  cases h : s.dirFindRun count with
  | some off => exact Triple.pure.conseq (fun _ _ => dirFindRun_slot h) (fun _ _ h => h) fun _ h => h
  | none =>
    refine triple_any.bind fun _ => .read fun s' _ => ?_
    simp only [id]
    cases h' : s'.dirFindRun count with
    | none => exact fun _ _ => ⟨nofun, fun _ => trivial⟩
    | some off => exact fun _ _ => ⟨fun x hx => Option.some.inj hx ▸ dirFindRun_slot h', fun _ => trivial⟩

/-- Writing sectors leaves the page of the directory alone. -/
def SamePage (s s' : Fs) : Prop := s'.dir = s.dir

instance : Std.Refl SamePage := ⟨fun _ => rfl⟩

instance : IsTrans Fs SamePage := ⟨fun _ _ _ h h' => h'.trans h⟩

theorem bwrite_samePage (lba : Nat) (b : Bytes) : Keeps SamePage (bwrite lba b) :=
  .bind (.bind .gets fun _ => .bind .need fun _ => .bind (.upd fun _ => rfl) fun _ => .bind .gets fun _ =>
    .bind (.upd fun _ => rfl) fun _ => .need) fun _ => .upd fun _ => rfl

theorem dirStoreFrom_samePage (ls : List Nat) : ∀ off : Nat, Keeps SamePage (dirStoreFrom off ls) := by
  induction ls with
  | nil => exact fun _ => .bind .gets fun _ => .need
  | cons lba rest ih => exact fun _ => .bind .gets fun _ => .ite (fun _ => .pure) fun _ =>
      (bwrite_samePage _ _).bind fun _ => ih _

theorem dirStore_samePage : Keeps SamePage dirStore :=
  .bind .gets fun _ => .bind .need fun _ => dirStoreFrom_samePage _ _

/-- What `fs_create` has done for a name that needs long-name entries, when it returns. -/
structure Created (s s' : Fs) (name a : Name) (i cl : Nat) : Prop where
  loaded : ∃ s0, exec dirLoad s = (some (), s0) ∧ lfnOk name = true ∧ s0.makeAlias name = some a
  written : Written s'.dir i name a cl
  cached : ∃ page, s'.files.getLast? = some ⟨name, some page, 0, cl, 32 * (i + lfnCount name), false⟩

theorem createName_long (h83 : to83 name = none) :
    Triple (fun x => x = s) (createName name) (fun r _ =>
    r.2 = lfnCount name ∧ ∃ s0, exec dirLoad s = (some (), s0) ∧ lfnOk name = true ∧
    s0.makeAlias name = some r.1) fun _ => True := by
  unfold createName
  rw [h83]
  simp only
  refine .bind (R := fun _ s0 => exec dirLoad s = (some (), s0))
    (fun x hx => ⟨fun _ h => ?_, fun _ => trivial⟩) fun _ => ?_
  · rw [← hx]
    exact Prod.ext h rfl
  · refine .check (fun _ _ => trivial) fun hok => .read fun s0 hs0 => .take (fun _ _ => trivial)
      fun a ha => ?_
    refine .check (fun _ _ => trivial) fun _ => ?_
    exact Triple.pure.conseq (fun _ _ => ⟨rfl, s0, hs0, hok, ha⟩) (fun _ _ h => h) fun _ h => h

/-- A fact that does not depend on the state. -/
theorem triple_known {α : Type} {p : Prop} {m : FsM α} {Q : α → Fs → Prop} {E : Fs → Prop}
    (h : p → Triple (fun _ => True) m Q E) : Triple (fun _ => p) m Q E := fun s hp => h hp s trivial

theorem triple_failed {α : Type} {P : Fs → Prop} {Q : α → Fs → Prop} :
    Triple P (failed : FsM α) Q fun _ => True :=
  fun _ _ => ⟨nofun, fun _ => trivial⟩

theorem giveBack_failed {α : Type} {P : Fs → Prop} {Q : α → Fs → Prop} (cl : Nat) :
    Triple P (giveBack cl : FsM α) Q fun _ => True :=
  triple_any.bind fun _ => triple_any.bind fun _ => triple_failed

/-- The page after the entries are put there. -/
theorem put_written (i : Nat) (name a : Name) (cl : Nat) {α : Type} {rest : FsM α} {Q : α → Fs → Prop}
    (h : Triple (fun x => Written x.dir i name a cl) rest Q fun _ => True) : Triple (fun _ => True) (do
      putLfn (32 * i) (lfnCount name) (lfnCksum a) name (lfnCount name)
      putEntry (32 * i + 32 * lfnCount name) (newEntry a 0x20 cl)
      rest) Q fun _ => True := by
  intro s2 _
  obtain ⟨s3, d', h1, h2, hw, -⟩ := exec_put i name a cl s2
  rw [exec_bind_of h1, exec_bind_of h2]
  exact h _ hw

theorem fsCreate_long (h83 : to83 name = none) : Triple (fun x => x = s) (fsCreate name)
    (fun _ s' => ∃ a i cl, Created s s' name a i cl) fun _ => True := by
  refine .read fun _ _ => .check (fun _ _ => trivial) fun _ => (createName_long h83).bind fun r =>
    triple_known fun hr => ?_
  obtain ⟨a, n⟩ := r
  obtain ⟨rfl, hloaded⟩ := hr
  have hlong : lfnCount name ≠ 0 := by
    obtain ⟨_, -, hok, -⟩ := hloaded
    have := (longOk hok).count
    omega
  simp only
  refine triple_any.bind fun page => triple_any.bind fun cl => ?_
  cases cl with
  | none => exact triple_any.bind fun _ => triple_failed
  | some cl =>
    refine triple_any.bind fun _ => .ite (fun _ => triple_any.bind fun _ => triple_any.bind fun _ =>
      triple_failed) fun _ => ?_
    refine .bind (R := fun off _ => ∀ o, off = some o → ∃ j, o = 32 * j)
      (Triple.result ((dirSlots_slot _).conseq (fun _ _ => trivial)
      (fun o _ h o' e => Option.some.inj e ▸ h) fun _ _ => nofun)) fun off => triple_known fun hoff => ?_
    cases off with
    | none => exact triple_any.bind fun _ => giveBack_failed cl
    | some off =>
      obtain ⟨i, rfl⟩ := hoff off rfl
      refine put_written i name a cl (.bind (R := fun _ x => Written x.dir i name a cl)
        (fun x hx => ?_) fun ok =>
        .ite (fun _ => triple_any.bind fun _ => giveBack_failed cl) fun _ => .read fun x _ => ?_)
      · have hsame : (exec (attempt dirStore) x).2.dir = x.dir := dirStore_samePage.attempt x
        refine ⟨fun _ _ => ?_, fun _ => trivial⟩
        show Written (exec (attempt dirStore) x).2.dir i name a cl
        rw [hsame]
        exact hx
      · simp only [id, if_pos hlong]
        refine .bind (R := fun _ s' => Created s s' name a i cl)
          (.change fun y hy => ⟨hloaded, hy, page, ?_⟩) fun _ => ?_
        · simp only [List.getLast?_append, List.getLast?_singleton, Option.some_or]
          rw [Nat.mul_add]
        · exact Triple.pure.conseq (fun _ h => ⟨a, i, cl, h⟩) (fun _ _ h => h) fun _ h => h

/-- A scan reads the name back: with any run in front of slot `i`, and for every directory in which
it comes that far. -/
structure ReadBack (d : Bytes) (i : Nat) (name : Name) (cl : Nat) : Prop where
  scan : ∀ (s : Fs) (left : Nat) (run : LfnRun), s.dir = d → s.files.length < fsMax →
    exec (scanFrom (lfnCount name + left) i run) s =
      exec (scanFrom left (i + lfnCount name) (some (i, lfnCount name))) s
  build : entryName d (i + lfnCount name) (some (i, lfnCount name)) = name
  listed : ∀ n, i + lfnCount name < n → (∀ k < i, d (32 * k) ≠ 0) →
    ⟨name, none, 0, cl % 65536, 32 * (i + lfnCount name), false⟩ ∈ entriesOf d n

theorem Written.readBack (h : Written d i name a cl) (hok : LongOk name) (ha : Alias s a) :
    ReadBack d i name cl := by
  have hcount := hok.count
  refine ⟨fun x left run hd hroom => ?_, h.entryName hok ha.length, fun n hn hreach => ?_⟩
  · subst hd
    rw [h.scan hok hroom left run _ (Nat.le_refl _), if_neg (by omega)]
  · rw [mem_entriesOf]
    refine ⟨i + lfnCount name, (mem_entriesFrom d n 0).2 ⟨Nat.zero_le _, by omega,
      fun k _ hk => ?_⟩, h.entryAt hok ha⟩
    rcases Nat.lt_or_ge k i with hlt | hge
    · exact hreach k hlt
    · obtain ⟨m, rfl⟩ := Nat.exists_eq_add_of_le hge
      rcases Nat.lt_or_ge m (lfnCount name) with hm | hm
      · rw [(h.mark hm).1]
        exact (marks hok hm).1
      · obtain rfl : m = lfnCount name := by omega
        rw [h.first]
        exact ha.first.1

/-- **Long names survive**: the alias is new, and the entries written at any slot are read back,
also by way of `fs_create`. -/
theorem long_names_survive (name : Name) (h83 : to83 name = none) (hok : lfnOk name = true) :
    (∀ (s : Fs) (a : Name), s.makeAlias name = some a →
      (∀ j ∈ entriesFrom s.dir s.dirEnts 0, s.dir (32 * j) ≠ 0xE5 →
      skippedAttr (s.dir (32 * j + 11)) = false →
        name83 s.dir (32 * j) ≠ a) ∧
      (∀ other b, to83 other = some b → b ≠ a) ∧
      ∀ (s1 : Fs) (i cl : Nat), ∃ d', exec (do
          putLfn (32 * i) (lfnCount name) (lfnCksum a) name (lfnCount name)
          putEntry (32 * i + 32 * lfnCount name) (newEntry a 0x20 cl)) s1 = (some (), { s1 with dir := d' }) ∧
        (∀ j, ¬ (32 * i ≤ j ∧ j < 32 * (i + lfnCount name + 1)) → d' j = s1.dir j) ∧ ReadBack d' i name cl) ∧
    ∀ (s s' : Fs) (k : Nat), exec (fsCreate name) s = (some k, s') → ∃ a i cl,
    Created s s' name a i cl ∧ ReadBack s'.dir i name cl := by
  have hlong := longOk hok
  refine ⟨fun s a ha => ?_, fun s s' k h => ?_⟩
  · have hal := makeAlias_spec ha
    refine ⟨fun j hj => hal.fresh hj, fun other b hb e => to83_no_tilde hb (e ▸ hal.tilde), fun s1 i cl => ?_⟩
    obtain ⟨s2, d', h1, h2, hw, hout⟩ := exec_put i name a cl s1
    exact ⟨d', by rw [exec_bind_of h1, h2], hout, hw.readBack hlong hal⟩
  · obtain ⟨a, i, cl, hc⟩ := (fsCreate_long h83 s rfl).1 k (by rw [h])
    rw [h] at hc
    obtain ⟨s0, -, -, ha⟩ := hc.loaded
    exact ⟨a, i, cl, hc, hc.written.readBack hlong (makeAlias_spec ha)⟩

theorem long_names_survive_fourteen : let name : Name := List.replicate 14 97
    let s := (exec fsInit (bootVolume 2)).2
    s.makeAlias name = some [65, 65, 65, 65, 65, 65, 126, 49, 32, 32, 32] ∧ ∃ d', ReadBack d' 1 name 3 := by
  intro name s
  have ha : s.makeAlias name = some [65, 65, 65, 65, 65, 65, 126, 49, 32, 32, 32] := by decide +kernel
  obtain ⟨-, -, h⟩ := (long_names_survive name (by decide) (by decide)).1 s _ ha
  obtain ⟨d', -, -, h⟩ := h s 1 3
  exact ⟨ha, d', h⟩

end VampireOS.Fs
