import Mathlib.Algebra.Group.Nat.Defs
import VampireOS.Lib.Intervals
import Mathlib.Data.List.Basic
import Mathlib.Data.List.Sort
import Mathlib.Logic.Function.Basic

/-!
# ELF images (elf.c)

| here | there |
| --- | --- |
| `Ehdr`, `Phdr` | `struct elf64_ehdr`, `struct elf64_phdr`, the fields that are used |
| `collect` | the first loop of `elf_parse` |
| `insertPh`, `sortPhs` | its insertion sort: the sorted prefix, last entry first |
| `overlaps`, `hits` | its last two loops |
| `fill` | the loops that store into `out` |
| `loadSegs`, `elfLoad` | the loop over the segments, `elf_load` |
| `Valid`, `Image` | what an image is, and the memory it stands for |

An image is the list of its bytes. A read past its end or a store past the destination is a fault
(`Parse.fault`, and `none` in `elfLoad`). Pointers are not null.
-/

namespace VampireOS

open Lib

namespace Elf

/-- `n` bytes of the image from `off` on, least significant first. -/
def le (file : List UInt8) (off : Nat) : Nat → Nat
  | 0 => 0
  | n + 1 => (file.getD off 0).toNat + 256 * le file (off + 1) n

structure Ehdr where
  ident : Nat → Nat
  type : Nat
  machine : Nat
  entry : Nat
  phoff : Nat
  ehsize : Nat
  phentsize : Nat
  phnum : Nat

structure Phdr where
  type : Nat
  offset : Nat
  vaddr : Nat
  filesz : Nat
  memsz : Nat

def ehdr (file : List UInt8) : Ehdr where
  ident i := le file i 1
  type := le file 16 2
  machine := le file 18 2
  entry := le file 24 8
  phoff := le file 32 8
  ehsize := le file 52 2
  phentsize := le file 54 2
  phnum := le file 56 2

def phdr (file : List UInt8) (off : Nat) : Phdr where
  type := le file off 4
  offset := le file (off + 8) 8
  vaddr := le file (off + 16) 8
  filesz := le file (off + 32) 8
  memsz := le file (off + 40) 8

inductive Parse (α : Type) where
  | fault
  | refused
  | ok (a : α)

/-- The magic, `ELF_CLASS64`, `ELF_DATA2LSB` and `ELF_EV_CURRENT`. -/
def IdentOk (eh : Ehdr) : Prop :=
  eh.ident 0 = 0x7F ∧ eh.ident 1 = 0x45 ∧ eh.ident 2 = 0x4C ∧ eh.ident 3 = 0x46 ∧ eh.ident 4 = 2 ∧
    eh.ident 5 = 1 ∧ eh.ident 6 = 1

instance (eh : Ehdr) : Decidable (IdentOk eh) := inferInstanceAs (Decidable (_ ∧ _))

/-- `ELF_ET_EXEC`, `ELF_EM_X86_64` and the sizes. -/
def KindOk (eh : Ehdr) : Prop :=
  eh.type = 2 ∧ eh.machine = 62 ∧ eh.ehsize = 64 ∧ eh.phentsize = 56 ∧ eh.phnum ≠ 0

instance (eh : Ehdr) : Decidable (KindOk eh) := inferInstanceAs (Decidable (_ ∧ _))

/-- `n` program headers are left, from `phoff + i * 56` on. -/
def collect (file : List UInt8) (phoff : Nat) : Nat → Nat → List Phdr → Parse (List Phdr)
  | 0, _, phs => .ok phs
  | n + 1, i, phs =>
    if file.length < phoff + i * 56 + 56 then .fault
    else
      let p := phdr file (phoff + i * 56)
      if p.type ≠ 1 ∨ p.memsz = 0 then collect file phoff n (i + 1) phs
      else if phs.length ≥ 8 then .refused
      else if p.filesz > p.memsz ∨ p.offset > file.length then .refused
      else if p.filesz > file.length - p.offset then .refused
      else if (p.vaddr + p.memsz) % 2 ^ 64 < p.vaddr then .refused
      else collect file phoff n (i + 1) (phs ++ [p])

def insertPh (key : Phdr) : List Phdr → List Phdr
  | [] => [key]
  | p :: ps => if p.vaddr > key.vaddr then p :: insertPh key ps else key :: p :: ps

def sortPhs (phs : List Phdr) : List Phdr := (phs.foldl (fun ps key => insertPh key ps) []).reverse

def overlaps : List Phdr → Bool
  | p :: q :: ps => decide (q.vaddr < (p.vaddr + p.memsz) % 2 ^ 64) || overlaps (q :: ps)
  | _ => false

def hits (entry : Nat) (phs : List Phdr) : Bool :=
  phs.any fun p => decide (entry ≥ p.vaddr ∧ entry < (p.vaddr + p.memsz) % 2 ^ 64)

def elfParse (file : List UInt8) : Parse (Ehdr × List Phdr) :=
  if file.length < 64 then .refused
  else
    let eh := ehdr file
    if ¬IdentOk eh then .refused
    else if ¬KindOk eh then .refused
    else if eh.phoff > file.length ∨ eh.phnum > 8 then .refused
    else if (eh.phoff + eh.phnum * 56) % 2 ^ 64 > file.length then .refused
    else
      match collect file eh.phoff eh.phnum 0 [] with
      | .fault => .fault
      | .refused => .refused
      | .ok phs =>
        if phs.length = 0 then .refused
        else if overlaps (sortPhs phs) then .refused
        else if ¬hits eh.entry (sortPhs phs) then .refused
        else .ok (eh, sortPhs phs)

/-- `elf_image_base`. -/
def elfImageBase (file : List UInt8) : Parse Nat :=
  match elfParse file with
  | .ok (_, p :: _) => .ok p.vaddr
  | .ok (_, []) => .fault
  | .refused => .refused
  | .fault => .fault

abbrev Dest := Nat → UInt8

/-- `for (; n != 0; n--, i++) out[rel + i] = f(i)`. -/
def fill (size : Nat) (f : Nat → Option UInt8) (rel : Nat) : Nat → Nat → Dest → Option Dest
  | 0, _, d => some d
  | n + 1, i, d =>
    match f i with
    | none => none
    | some b => if (rel + i) % 2 ^ 64 < size then fill size f rel n (i + 1)
        (Function.update d ((rel + i) % 2 ^ 64) b) else none

/-- The flag is `false` when a segment does not fit. -/
def loadSegs (file : List UInt8) (size vaddr : Nat) : List Phdr → Dest → Option (Dest × Bool)
  | [], d => some (d, true)
  | p :: ps, d =>
    let rel := (p.vaddr + 2 ^ 64 - vaddr) % 2 ^ 64
    if rel > size ∨ p.memsz > size - rel then some (d, false)
    else
      match fill size (fun i => file[(p.offset + i) % 2 ^ 64]?) rel (p.filesz % 2 ^ 32) 0 d with
      | none => none
      | some d =>
        match fill size (fun _ => some 0) rel (p.memsz % 2 ^ 32 - p.filesz % 2 ^ 32)
          (p.filesz % 2 ^ 32) d with
        | none => none
        | some d => loadSegs file size vaddr ps d

/-- `elf_load` once the base is right: the wipe and the segments. -/
def loadImage (file : List UInt8) (size vaddr : Nat) (eh : Ehdr) (phs : List Phdr) (d : Dest) :
    Option (Dest × Option Nat) :=
  match fill size (fun _ => some 0) 0 size 0 d with
  | none => none
  | some d =>
    match loadSegs file size vaddr phs d with
    | none => none
    | some (d, ok) => some (d, if ok then some eh.entry else none)

/-- The destination afterwards, and the entry when the image was accepted. -/
def elfLoad (file : List UInt8) (size vaddr : Nat) (d : Dest) : Option (Dest × Option Nat) :=
  match elfParse file with
  | .fault => none
  | .refused => some (d, none)
  | .ok (_, []) => none
  | .ok (eh, p :: ps) => if p.vaddr ≠ vaddr then some (d, none) else loadImage file size vaddr eh (p :: ps) d

/-! ## What an image is -/

/-- The segments that are loaded: `PT_LOAD` with memory. -/
def loads (file : List UInt8) : List Phdr :=
  ((List.range (ehdr file).phnum).map fun i => phdr file ((ehdr file).phoff + i * 56)).filter
    fun p => p.type = 1 ∧ p.memsz ≠ 0

structure HeaderOk (file : List UInt8) : Prop where
  length : 64 ≤ file.length
  ident : IdentOk (ehdr file)
  kind : KindOk (ehdr file)
  phnum : (ehdr file).phnum ≤ 8
  inside : (ehdr file).phoff + (ehdr file).phnum * 56 ≤ file.length

structure SegOk (file : List UInt8) (p : Phdr) : Prop where
  filesz : p.filesz ≤ p.memsz
  inside : p.offset + p.filesz ≤ file.length
  wrap : p.vaddr + p.memsz < 2 ^ 64

/-- An image for `[vaddr, vaddr + size)`. -/
structure Valid (file : List UInt8) (size vaddr : Nat) : Prop where
  header : HeaderOk file
  some : loads file ≠ []
  segs : ∀ p ∈ loads file, SegOk file p
  apart : (loads file).Pairwise (Apart Phdr.vaddr Phdr.memsz)
  base : (∃ p ∈ loads file, p.vaddr = vaddr) ∧ ∀ p ∈ loads file, vaddr ≤ p.vaddr
  fits : ∀ p ∈ loads file, p.vaddr + p.memsz ≤ vaddr + size
  entry : ∃ p ∈ loads file, p.vaddr ≤ (ehdr file).entry ∧ (ehdr file).entry < p.vaddr + p.memsz

/-- The memory of the image: the file's bytes where a segment has them, 0 elsewhere. -/
def Image (file : List UInt8) (size vaddr : Nat) (d : Dest) : Prop :=
  ∀ k, k < size →
    (∀ p ∈ loads file, p.vaddr ≤ vaddr + k → vaddr + k < p.vaddr + p.filesz →
      file[p.offset + (vaddr + k - p.vaddr)]? = some (d k)) ∧
    ((∀ p ∈ loads file, ¬(p.vaddr ≤ vaddr + k ∧ vaddr + k < p.vaddr + p.filesz)) → d k = 0)

/-! ## Fields -/

variable {file : List UInt8}

theorem le_lt (off n : Nat) : le file off n < 256 ^ n := by
  induction n generalizing off with
  | zero => simp [le]
  | succ n ih =>
    have := ih (off + 1)
    have := (file.getD off 0).toNat_lt
    rw [le, Nat.pow_succ]
    omega

theorem phdr_lt (file : List UInt8) (off : Nat) :
    (phdr file off).offset < 2 ^ 64 ∧ (phdr file off).vaddr < 2 ^ 64 ∧ (phdr file off).filesz <
    2 ^ 64 ∧
    (phdr file off).memsz < 2 ^ 64 :=
  ⟨le_lt (off + 8) 8, le_lt (off + 16) 8, le_lt (off + 32) 8, le_lt (off + 40) 8⟩

/-! ## The sort -/

/-- The order of the sorted prefix, last entry first. -/
def Down (p q : Phdr) : Prop := q.vaddr ≤ p.vaddr

instance : DecidableRel Down := fun p q => inferInstanceAs (Decidable (q.vaddr ≤ p.vaddr))

instance : Std.Total Down := ⟨fun p q => Nat.le_total q.vaddr p.vaddr⟩

instance : IsTrans Phdr Down := ⟨fun _ _ _ h h' => Nat.le_trans h' h⟩

theorem insertPh_eq (key : Phdr) (ps : List Phdr) : insertPh key ps = ps.orderedInsert Down key := by
  induction ps with
  | nil => rfl
  | cons p ps ih =>
    rw [insertPh, List.orderedInsert_cons, ih]
    by_cases h : p.vaddr > key.vaddr
    · have hd : ¬Down key p := Nat.not_le.2 h
      rw [if_pos h, if_neg hd]
    · have hd : Down key p := Nat.le_of_not_lt h
      rw [if_neg h, if_pos hd]

theorem sortPhs_eq (phs : List Phdr) : sortPhs phs = (phs.reverse.insertionSort Down).reverse := by
  unfold sortPhs List.insertionSort
  rw [List.foldr_reverse]
  congr 1
  refine congrArg (fun f => phs.foldl f []) ?_
  funext ps key
  exact insertPh_eq key ps

theorem sortPhs_perm (phs : List Phdr) : (sortPhs phs).Perm phs := by
  rw [sortPhs_eq]
  exact (List.reverse_perm _).trans ((List.perm_insertionSort Down _).trans (List.reverse_perm _))

theorem sortPhs_ne_nil {phs : List Phdr} (h : phs ≠ []) : sortPhs phs ≠ [] := by
  intro e
  have := (sortPhs_perm phs).length_eq
  rw [e] at this
  exact h (List.length_eq_zero_iff.1 this.symm)

theorem sortPhs_sorted (phs : List Phdr) : (sortPhs phs).Pairwise fun p q => p.vaddr ≤ q.vaddr := by
  rw [sortPhs_eq, List.pairwise_reverse]
  exact List.pairwise_insertionSort Down _

/-! ## `elf_parse` -/

/-- An image that `elf_parse` accepts. -/
structure Parsable (file : List UInt8) : Prop where
  header : HeaderOk file
  some : loads file ≠ []
  segs : ∀ p ∈ loads file, SegOk file p
  apart : (loads file).Pairwise (Apart Phdr.vaddr Phdr.memsz)
  entry : ∃ p ∈ loads file, p.vaddr ≤ (ehdr file).entry ∧ (ehdr file).entry < p.vaddr + p.memsz

/-- The segments among `n` headers from the `i`-th on. -/
def loadsFrom (file : List UInt8) (phoff i n : Nat) : List Phdr :=
  ((List.range' i n).map fun i => phdr file (phoff + i * 56)).filter fun p => p.type = 1 ∧ p.memsz ≠ 0

theorem loads_eq (file : List UInt8) : loads file = loadsFrom file (ehdr file).phoff 0 (ehdr file).phnum := by
  unfold loads loadsFrom
  rw [List.range_eq_range']

theorem loadsFrom_succ (phoff i n : Nat) : loadsFrom file phoff i (n + 1) =
    if (phdr file (phoff + i * 56)).type = 1 ∧ (phdr file (phoff + i * 56)).memsz ≠ 0 then
      phdr file (phoff + i * 56) :: loadsFrom file phoff (i + 1) n
    else loadsFrom file phoff (i + 1) n := by
  unfold loadsFrom
  rw [List.range'_succ, List.map_cons, List.filter_cons]
  simp only [decide_eq_true_eq]

theorem loads_pos {p : Phdr} (hp : p ∈ loads file) :
    0 < p.memsz ∧ p.vaddr < 2 ^ 64 ∧ p.memsz < 2 ^ 64 ∧ p.offset < 2 ^ 64 ∧ p.filesz < 2 ^ 64 := by
  unfold loads at hp
  obtain ⟨hm, hc⟩ := List.mem_filter.1 hp
  obtain ⟨i, -, rfl⟩ := List.mem_map.1 hm
  have hc := of_decide_eq_true hc
  obtain ⟨h1, h2, h3, h4⟩ := phdr_lt file ((ehdr file).phoff + i * 56)
  exact ⟨Nat.pos_of_ne_zero hc.2, h2, h4, h1, h3⟩

/-- The first loop keeps the segments, or finds one that is not right. -/
theorem collect_spec (hlen : file.length < 2 ^ 32) (phoff : Nat) : ∀ (n i : Nat) (phs : List Phdr),
    phoff + (i + n) * 56 ≤ file.length → phs.length + n ≤ 8 →
    (collect file phoff n i phs = .ok (phs ++ loadsFrom file phoff i n) ∧
    ∀ p ∈ loadsFrom file phoff i n, SegOk file p) ∨
      (collect file phoff n i phs = .refused ∧ ∃ p ∈ loadsFrom file phoff i n, ¬SegOk file p)
  | 0, i, phs, _, _ => .inl ⟨by simp [collect, loadsFrom], by simp [loadsFrom]⟩
  | n + 1, i, phs, hin, hphs => by
    rw [collect, if_neg (by omega), loadsFrom_succ]
    obtain ⟨h1, h2, h3, h4⟩ := phdr_lt file (phoff + i * 56)
    generalize phdr file (phoff + i * 56) = p at h1 h2 h3 h4
    simp only
    by_cases hload : p.type = 1 ∧ p.memsz ≠ 0
    · rw [if_neg (by omega), if_pos hload, if_neg (by omega)]
      by_cases hok : SegOk file p
      · obtain ⟨g1, g2, g3⟩ := id hok
        rw [if_neg (by omega), if_neg (by omega), if_neg (by omega)]
        rcases collect_spec hlen phoff n (i + 1) (phs ++ [p]) (by omega) (by simp; omega)
          with ⟨e, hall⟩ | ⟨e, q, hq, hbad⟩
        · refine .inl ⟨by rw [e]; simp, fun q hq => ?_⟩
          rcases List.mem_cons.1 hq with rfl | hq
          · exact hok
          · exact hall q hq
        · exact .inr ⟨e, q, List.mem_cons_of_mem _ hq, hbad⟩
      · refine .inr ⟨?_, p, List.mem_cons_self, hok⟩
        by_cases c1 : p.filesz > p.memsz ∨ p.offset > file.length
        · rw [if_pos c1]
        · rw [if_neg c1]
          by_cases c2 : p.filesz > file.length - p.offset
          · rw [if_pos c2]
          · rw [if_neg c2, if_pos]
            by_contra hw
            exact hok ⟨by omega, by omega, by omega⟩
    · rw [if_pos (by omega), if_neg hload]
      exact collect_spec hlen phoff n (i + 1) phs (by omega) (by omega)

theorem overlaps_iff {phs : List Phdr} (h : ∀ p ∈ phs, p.vaddr + p.memsz < 2 ^ 64) :
    overlaps phs = false ↔ phs.IsChain (Before Phdr.vaddr Phdr.memsz) := by
  induction phs with
  | nil => simp [overlaps]
  | cons p phs ih =>
    cases phs with
    | nil => simp [overlaps]
    | cons q phs =>
      have hp := h p (by simp)
      rw [overlaps, Bool.or_eq_false_iff, ih fun r hr => h r (List.mem_cons_of_mem _ hr),
        List.isChain_cons_cons, decide_eq_false_iff_not, Nat.mod_eq_of_lt hp, Nat.not_lt]
      rfl

theorem hits_iff {entry : Nat} {phs : List Phdr} (h : ∀ p ∈ phs, p.vaddr + p.memsz < 2 ^ 64) :
    hits entry phs = true ↔ ∃ p ∈ phs, p.vaddr ≤ entry ∧ entry < p.vaddr + p.memsz := by
  unfold hits
  rw [List.any_eq_true]
  refine exists_congr fun p => and_congr_right fun hp => ?_
  rw [decide_eq_true_eq, Nat.mod_eq_of_lt (h p hp)]

/-- `elf_parse` reads inside the file, and accepts what is parsable. -/
theorem elfParse_spec (hlen : file.length < 2 ^ 32) :
    (Parsable file ∧ elfParse file = .ok (ehdr file, sortPhs (loads file))) ∨
    (¬Parsable file ∧ elfParse file = .refused) := by
  unfold elfParse
  by_cases c1 : file.length < 64
  · rw [if_pos c1]
    exact .inr ⟨fun h => Nat.not_le.2 c1 h.header.length, rfl⟩
  rw [if_neg c1]
  by_cases c2 : IdentOk (ehdr file)
  swap
  · exact .inr ⟨fun h => c2 h.header.ident, if_pos c2⟩
  simp only [c2, not_true_eq_false, if_false]
  by_cases c3 : KindOk (ehdr file)
  swap
  · exact .inr ⟨fun h => c3 h.header.kind, if_pos c3⟩
  simp only [c3, not_true_eq_false, if_false]
  by_cases c4 : (ehdr file).phoff > file.length ∨ (ehdr file).phnum > 8
  · rw [if_pos c4]
    refine .inr ⟨fun h => ?_, rfl⟩
    have := h.header.inside
    have := h.header.phnum
    omega
  rw [if_neg c4]
  by_cases c5 : ((ehdr file).phoff + (ehdr file).phnum * 56) % 2 ^ 64 > file.length
  · rw [if_pos c5]
    refine .inr ⟨fun h => ?_, rfl⟩
    have := h.header.inside
    omega
  rw [if_neg c5]
  have hheader : HeaderOk file := ⟨by omega, c2, c3, by omega, by omega⟩
  have hcollect := collect_spec hlen (ehdr file).phoff (ehdr file).phnum 0 [] (by omega) (by simp; omega)
  rw [← loads_eq, List.nil_append] at hcollect
  rcases hcollect with ⟨e, hall⟩ | ⟨e, p, hp, hbad⟩
  swap
  · rw [e]
    exact .inr ⟨fun h => hbad (h.segs p hp), rfl⟩
  rw [e]
  simp only
  by_cases c6 : (loads file).length = 0
  · rw [if_pos c6]
    exact .inr ⟨fun h => h.some (List.length_eq_zero_iff.1 c6), rfl⟩
  rw [if_neg c6]
  -- neighbours in the sorted list decide whether the segments lie apart
  have hperm := sortPhs_perm (loads file)
  have hnw : ∀ p ∈ sortPhs (loads file), p.vaddr + p.memsz < 2 ^ 64 :=
    fun p hp => (hall p (hperm.mem_iff.1 hp)).wrap
  have hapart : overlaps (sortPhs (loads file)) = false ↔
      (loads file).Pairwise (Apart Phdr.vaddr Phdr.memsz) := by
    rw [overlaps_iff hnw, isChain_before_iff (sortPhs_sorted _) fun p hp =>
      (loads_pos (hperm.mem_iff.1 hp)).1, apart_perm hperm]
  have hentry : hits (ehdr file).entry (sortPhs (loads file)) = true ↔
      ∃ p ∈ loads file, p.vaddr ≤ (ehdr file).entry ∧ (ehdr file).entry < p.vaddr + p.memsz := by
    rw [hits_iff hnw]
    exact exists_congr fun p => and_congr_left fun _ => hperm.mem_iff
  by_cases c7 : overlaps (sortPhs (loads file)) = true
  · rw [if_pos c7]
    exact .inr ⟨fun h => Bool.noConfusion ((hapart.2 h.apart).symm.trans c7), rfl⟩
  rw [if_neg c7]
  by_cases c8 : hits (ehdr file).entry (sortPhs (loads file)) = true
  · simp only [c8, not_true_eq_false, if_false]
    exact .inl ⟨⟨hheader, fun h => c6 (by rw [h]; rfl), hall, hapart.1 (Bool.eq_false_iff.2 c7),
      hentry.1 c8⟩, trivial⟩
  · rw [if_pos c8]
    exact .inr ⟨fun h => c8 (hentry.2 h.entry), rfl⟩

/-! ## `elf_load` -/

/-- A loop that stays inside the destination stores what it says. -/
theorem fill_spec {size : Nat} (hsize : size < 2 ^ 32) (f : Nat → Option UInt8) (rel : Nat) :
    ∀ (n i : Nat) (d : Dest), rel + i + n ≤ size →
    (∀ j, i ≤ j → j < i + n → (f j).isSome) → ∃ d', fill size f rel n i d = some d' ∧
      ∀ k, d' k = if rel + i ≤ k ∧ k < rel + i + n then (f (k - rel)).getD 0 else d k
  | 0, i, d, _, _ => ⟨d, rfl, fun k => by rw [if_neg (by omega)]⟩
  | n + 1, i, d, hn, hf => by
    obtain ⟨b, hb⟩ := Option.isSome_iff_exists.1 (hf i (by omega) (by omega))
    have hmod : (rel + i) % 2 ^ 64 = rel + i := Nat.mod_eq_of_lt (by omega)
    obtain ⟨d', e, hd⟩ := fill_spec hsize f rel n (i + 1) (Function.update d (rel + i) b) (by omega)
      fun j h1 h2 => hf j (by omega) (by omega)
    refine ⟨d', ?_, fun k => ?_⟩
    · rw [fill, hb]
      simp only [hmod]
      rw [if_pos (by omega), e]
    · rw [hd k]
      by_cases hk : k = rel + i
      · subst hk
        rw [if_neg (by omega), if_pos (by omega), Function.update_self, Nat.add_sub_cancel_left, hb,
          Option.getD_some]
      · rw [Function.update_of_ne hk]
        by_cases hin : rel + (i + 1) ≤ k ∧ k < rel + (i + 1) + n
        · rw [if_pos hin, if_pos (by omega)]
        · rw [if_neg hin, if_neg (by omega)]

/-- The byte of a segment at `k`. -/
def segByte (file : List UInt8) (p : Phdr) (k : Nat) : UInt8 :=
  if k < p.vaddr + p.filesz then file.getD (p.offset + (k - p.vaddr)) 0 else 0

variable {size vaddr : Nat}

/-- One segment that fits. -/
theorem seg_spec (hlen : file.length < 2 ^ 32) (hsize : size < 2 ^ 32) {p : Phdr}
    (hok : SegOk file p) (hbase : vaddr ≤ p.vaddr) (hfits : p.vaddr + p.memsz ≤ vaddr + size)
    (d : Dest) :
    ∃ d1 d2, fill size (fun i => file[(p.offset + i) % 2 ^ 64]?) (p.vaddr - vaddr)
      (p.filesz % 2 ^ 32) 0 d = some d1 ∧
      fill size (fun _ => some 0) (p.vaddr - vaddr) (p.memsz % 2 ^ 32 - p.filesz % 2 ^ 32)
        (p.filesz % 2 ^ 32) d1 = some d2 ∧
      ∀ k, d2 k = if p.vaddr ≤ vaddr + k ∧ vaddr + k < p.vaddr + p.memsz
        then segByte file p (vaddr + k) else d k := by
  obtain ⟨h1, h2, h3⟩ := hok
  have hf : p.filesz % 2 ^ 32 = p.filesz := Nat.mod_eq_of_lt (by omega)
  have hm : p.memsz % 2 ^ 32 = p.memsz := Nat.mod_eq_of_lt (by omega)
  have hoff : ∀ j, j < p.filesz → (p.offset + j) % 2 ^ 64 = p.offset + j :=
    fun j hj => Nat.mod_eq_of_lt (by omega)
  rw [hf, hm]
  obtain ⟨d1, e1, hd1⟩ := fill_spec hsize (fun i => file[(p.offset + i) % 2 ^ 64]?)
    (p.vaddr - vaddr) p.filesz 0 d (by omega) fun j _ hj => by
      rw [hoff j (by omega), List.getElem?_eq_getElem (by omega)]; rfl
  obtain ⟨d2, e2, hd2⟩ := fill_spec hsize (fun _ => some 0) (p.vaddr - vaddr) (p.memsz - p.filesz)
    p.filesz d1 (by omega) fun j _ _ => rfl
  refine ⟨d1, d2, e1, e2, fun k => ?_⟩
  rw [hd2 k]
  unfold segByte
  by_cases hin : p.vaddr ≤ vaddr + k ∧ vaddr + k < p.vaddr + p.memsz
  · rw [if_pos hin]
    by_cases hfile : vaddr + k < p.vaddr + p.filesz
    · rw [if_pos hfile, if_neg (by omega), hd1 k, if_pos (by omega)]
      rw [hoff _ (by omega), show k - (p.vaddr - vaddr) = vaddr + k - p.vaddr by omega,
        List.getD_eq_getElem?_getD]
    · rw [if_neg hfile, if_pos (by omega), Option.getD_some]
  · rw [if_neg hin, if_neg (by omega), hd1 k, if_neg (by omega)]

/-- The loop over the segments stays inside, and ends early exactly when one does not fit. -/
theorem loadSegs_spec (hlen : file.length < 2 ^ 32) (hsize : size < 2 ^ 32) :
    ∀ (ps : List Phdr) (d : Dest), (∀ p ∈ ps, SegOk file p) →
    (∀ p ∈ ps, vaddr ≤ p.vaddr) → ps.Pairwise (Apart Phdr.vaddr Phdr.memsz) → ∃ d' ok,
    loadSegs file size vaddr ps d = some (d', ok) ∧
      (ok = true ↔ ∀ p ∈ ps, p.vaddr + p.memsz ≤ vaddr + size) ∧ (∀ k, size ≤ k → d' k = d k) ∧
      (ok = true → ∀ k, (∀ p ∈ ps, p.vaddr ≤ vaddr + k → vaddr + k < p.vaddr + p.memsz →
      d' k = segByte file p (vaddr + k)) ∧
        ((∀ p ∈ ps, ¬(p.vaddr ≤ vaddr + k ∧ vaddr + k < p.vaddr + p.memsz)) → d' k = d k))
  | [], d, _, _, _ => ⟨d, true, rfl, by simp, fun _ _ => rfl, fun _ k => ⟨nofun, fun _ => rfl⟩⟩
  | p :: ps, d, hok, hbase, hapart => by
    have hp := hok p (by simp)
    have hb := hbase p (by simp)
    have hw := hp.wrap
    have hrel : (p.vaddr + 2 ^ 64 - vaddr) % 2 ^ 64 = p.vaddr - vaddr := by omega
    obtain ⟨hfirst, hrest⟩ := List.pairwise_cons.1 hapart
    rw [loadSegs]
    simp only [hrel]
    by_cases hfits : p.vaddr + p.memsz ≤ vaddr + size
    · rw [if_neg (by omega)]
      obtain ⟨d1, d2, e1, e2, hd2⟩ := seg_spec hlen hsize hp hb hfits d
      rw [e1]
      simp only
      rw [e2]
      simp only
      obtain ⟨d', ok, e, hiff, hout, him⟩ :=
        loadSegs_spec hlen hsize ps d2 (fun q hq => hok q (by simp [hq]))
          (fun q hq => hbase q (by simp [hq])) hrest
      refine ⟨d', ok, e, ?_, fun k hk => ?_, fun ht k => ⟨fun q hq h1 h2 => ?_, fun hno => ?_⟩⟩
      · rw [hiff, List.forall_mem_cons]
        exact ⟨fun h => ⟨hfits, h⟩, fun h => h.2⟩
      · rw [hout k hk, hd2 k, if_neg (by omega)]
      · rcases List.mem_cons.1 hq with rfl | hq
        · -- no later segment covers the place
          rw [(him ht k).2 fun r hr hc => ?_, hd2 k, if_pos ⟨h1, h2⟩]
          have := hfirst r hr
          unfold Apart at this
          omega
        · exact (him ht k).1 q hq h1 h2
      · rw [(him ht k).2 fun q hq => hno q (by simp [hq]), hd2 k, if_neg (hno p (by simp))]
    · rw [if_pos (by omega)]
      exact ⟨d, false, rfl, ⟨nofun, fun h => absurd (h p (by simp)) hfits⟩, fun _ _ => rfl, nofun⟩

/-- The first entry of the sorted segments is the lowest. -/
theorem sorted_first (vaddr : Nat) {p : Phdr} {ps : List Phdr} (e : sortPhs (loads file) = p :: ps) :
    p.vaddr = vaddr ↔ (∃ q ∈ loads file, q.vaddr = vaddr) ∧ ∀ q ∈ loads file, vaddr ≤ q.vaddr := by
  have hperm := sortPhs_perm (loads file)
  have hsorted := sortPhs_sorted (loads file)
  rw [e] at hperm hsorted
  have hlow : ∀ q ∈ loads file, p.vaddr ≤ q.vaddr := by
    intro q hq
    rcases List.mem_cons.1 (hperm.mem_iff.2 hq) with rfl | hq
    · exact le_rfl
    · exact (List.pairwise_cons.1 hsorted).1 q hq
  constructor
  · rintro rfl
    exact ⟨⟨p, hperm.mem_iff.1 (by simp), rfl⟩, hlow⟩
  · rintro ⟨⟨q, hq, rfl⟩, hall⟩
    exact Nat.le_antisymm (hlow q hq) (hall p (hperm.mem_iff.1 (by simp)))

/-- `elf_image_base` gives the lowest address of an image. -/
theorem elfImageBase_spec (hlen : file.length < 2 ^ 32) :
    (Parsable file ∧ ∃ base, elfImageBase file = .ok base ∧ (∃ p ∈ loads file, p.vaddr = base) ∧
    ∀ p ∈ loads file, base ≤ p.vaddr) ∨
      (¬Parsable file ∧ elfImageBase file = .refused) := by
  unfold elfImageBase
  rcases elfParse_spec hlen with ⟨hp, e⟩ | ⟨hp, e⟩
  · rw [e]
    cases hs : sortPhs (loads file) with
    | nil => exact absurd hs (sortPhs_ne_nil hp.some)
    | cons p ps => exact .inl ⟨hp, p.vaddr, rfl, (sorted_first p.vaddr hs).1 rfl⟩
  · rw [e]
    exact .inr ⟨hp, rfl⟩

section
variable {eh : Ehdr} {p : Phdr} {ps : List Phdr} {d d1 d2 : Dest} {ok : Bool}

theorem elfLoad_refused (e : elfParse file = .refused) : elfLoad file size vaddr d = some (d, none) := by
  unfold elfLoad
  rw [e]

theorem elfLoad_elsewhere (e : elfParse file = .ok (eh, p :: ps)) (h : p.vaddr ≠ vaddr) :
    elfLoad file size vaddr d = some (d, none) := by
  unfold elfLoad
  rw [e]
  exact if_pos h

theorem loadImage_done (e1 : fill size (fun _ => some 0) 0 size 0 d = some d1)
    (e2 : loadSegs file size vaddr ps d1 = some (d2, ok)) :
    loadImage file size vaddr eh ps d = some (d2, if ok then some eh.entry else none) := by
  unfold loadImage
  rw [e1]
  simp only
  rw [e2]

theorem elfLoad_done (e : elfParse file = .ok (eh, p :: ps)) (h : p.vaddr = vaddr) :
    elfLoad file size vaddr d = loadImage file size vaddr eh (p :: ps) d := by
  unfold elfLoad
  rw [e]
  exact if_neg (not_not.2 h)

end

/-- What the loaded segments leave in the wiped destination is the image. -/
theorem image_of {d d1 : Dest} (hsegs : ∀ p ∈ loads file, SegOk file p)
    (hwipe : ∀ k, k < size → d1 k = 0)
    (hseg : ∀ k, ∀ p ∈ loads file, p.vaddr ≤ vaddr + k → vaddr + k < p.vaddr + p.memsz →
      d k = segByte file p (vaddr + k))
    (hout : ∀ k, (∀ p ∈ loads file, ¬(p.vaddr ≤ vaddr + k ∧ vaddr + k < p.vaddr + p.memsz)) →
      d k = d1 k) : Image file size vaddr d := by
  refine fun k hk => ⟨fun p hp h1 h2 => ?_, fun hno => ?_⟩
  · have h3 := (hsegs p hp).filesz
    have h4 := (hsegs p hp).inside
    rw [hseg k p hp h1 (by omega), segByte, if_pos h2, List.getD_eq_getElem?_getD,
      List.getElem?_eq_getElem (by omega), Option.getD_some]
  · by_cases hc : ∃ p ∈ loads file, p.vaddr ≤ vaddr + k ∧ vaddr + k < p.vaddr + p.memsz
    · obtain ⟨p, hp, h1, h2⟩ := hc
      rw [hseg k p hp h1 h2, segByte, if_neg fun h3 => hno p hp ⟨h1, h3⟩]
    · rw [hout k fun p hp h => hc ⟨p, hp, h⟩, hwipe k hk]

/-- **`elf_load` accepts exactly the valid images and builds exactly their memory**; it never reads
past the file nor stores past the destination. -/
theorem elfLoad_spec (hlen : file.length < 2 ^ 32) {size : Nat} (hsize : size < 2 ^ 32)
    (vaddr : Nat) (d : Dest) :
    ∃ d' r, elfLoad file size vaddr d = some (d', r) ∧ (r.isSome ↔ Valid file size vaddr) ∧
      (∀ entry, r = some entry → entry = (ehdr file).entry ∧ Image file size vaddr d') ∧
      ∀ k, size ≤ k → d' k = d k := by
  rcases elfParse_spec hlen with ⟨hp, e⟩ | ⟨hp, e⟩
  swap
  · exact ⟨d, none, elfLoad_refused e,
      ⟨nofun, fun h => absurd ⟨h.header, h.some, h.segs, h.apart, h.entry⟩ hp⟩, nofun,
      fun _ _ => rfl⟩
  have hperm := sortPhs_perm (loads file)
  cases hs : sortPhs (loads file) with
  | nil => exact absurd hs (sortPhs_ne_nil hp.some)
  | cons p ps =>
    have hfirst := sorted_first vaddr hs
    rw [hs] at hperm e
    by_cases hbase : p.vaddr = vaddr
    swap
    · exact ⟨d, none, elfLoad_elsewhere e hbase, ⟨nofun, fun h => absurd (hfirst.2 h.base) hbase⟩,
        nofun, fun _ _ => rfl⟩
    obtain ⟨d1, e1, hd1⟩ := fill_spec hsize (fun _ => some 0) 0 size 0 d (by omega) fun _ _ _ => rfl
    obtain ⟨d', ok, e', hiff, hout, him⟩ :=
      loadSegs_spec hlen hsize (p :: ps) d1 (fun q hq => hp.segs q (hperm.mem_iff.1 hq))
      (fun q hq => (hfirst.1 hbase).2 q (hperm.mem_iff.1 hq)) ((apart_perm hperm).2 hp.apart)
    have hfits : ok = true ↔ ∀ q ∈ loads file, q.vaddr + q.memsz ≤ vaddr + size :=
      hiff.trans (forall_congr' fun q => imp_congr_left hperm.mem_iff)
    have hkeep : ∀ k, size ≤ k → d' k = d k := fun k hk => by rw [hout k hk, hd1 k, if_neg (by omega)]
    have hwipe : ∀ k, k < size → d1 k = 0 := fun k hk => by
      rw [hd1 k, if_pos (by omega), Option.getD_some]
    refine ⟨d', _, (elfLoad_done e hbase).trans (loadImage_done e1 e'), ?_, fun entry he => ?_, hkeep⟩
    · cases ok with
      | false => exact ⟨nofun, fun h => absurd (hfits.2 h.fits) Bool.false_ne_true⟩
      | true => exact ⟨fun _ => ⟨hp.header, hp.some, hp.segs, hp.apart, hfirst.1 hbase, hfits.1 rfl,
          hp.entry⟩, fun _ => rfl⟩
    · cases ok with
      | false => cases he
      | true =>
        refine ⟨(Option.some.inj he).symm, image_of hp.segs hwipe
          (fun k q hq => (him rfl k).1 q (hperm.mem_iff.2 hq)) fun k hno => ?_⟩
        exact (him rfl k).2 fun q hq => hno q (hperm.mem_iff.1 hq)

/-- An image of one byte of code. -/
def haltImage : List UInt8 :=
  [0x7F, 0x45, 0x4C, 0x46, 2, 1, 1, 0, 0, 0, 0, 0, 0, 0, 0, 0,
   2, 0, 0x3E, 0, 1, 0, 0, 0, 0, 0, 0x40, 0, 0, 0, 0, 0, 0x40, 0, 0, 0, 0, 0, 0, 0,
   0, 0, 0, 0, 0, 0, 0, 0, 0, 0, 0, 0, 0x40, 0, 0x38, 0, 1, 0, 0, 0, 0, 0, 0, 0,
   1, 0, 0, 0, 5, 0, 0, 0, 0x78, 0, 0, 0, 0, 0, 0, 0, 0, 0, 0x40, 0, 0, 0, 0, 0, 0, 0, 0x40, 0, 0, 0, 0, 0,
   1, 0, 0, 0, 0, 0, 0, 0, 1, 0, 0, 0, 0, 0, 0, 0, 0x10, 0, 0, 0, 0, 0, 0, 0, 0xF4]

example : (elfLoad haltImage 1 0x400000 fun _ => 0).map Prod.snd = some (some 0x400000) := by decide +kernel

theorem elfLoad_halt :
    haltImage.length < 2 ^ 32 ∧ 4096 < 2 ^ 32 ∧
      ∃ d' r, elfLoad haltImage 4096 0x400000 (fun _ => 0) = some (d', r) ∧
    (r.isSome ↔ Valid haltImage 4096 0x400000) :=
  have h := elfLoad_spec (show haltImage.length < 2 ^ 32 by decide) (show 4096 < 2 ^ 32 by decide)
    0x400000 fun _ => 0
  ⟨by decide, by decide, h.imp fun _ h => h.imp fun _ h => ⟨h.1, h.2.1⟩⟩

end Elf

end VampireOS
