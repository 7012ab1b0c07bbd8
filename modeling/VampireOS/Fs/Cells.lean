import VampireOS.Fs.Fat

/-!
# The FAT as cells (kernel/fs.c:398-435, 511-524)

| here | there |
| --- | --- |
| `fatBytes32`, `fat12Ent32`, `fat12Set32` | `fat_bytes`, `fat12_ent`, `fat12_set` on `unsigned` |
| `Inside` | the 12 bits of the entry are in the image |

`fatBytes`, `fat12Ent` and `fat12Set` (Fs/Volume.lean) have no bound on these. That is the same for
every number whose offset fits 32 bits, in particular for every cluster of a mounted volume
(`fat12Ent32_eq`, `fat12Set32_eq`).
-/

namespace VampireOS.Fs

def fatBytes32 (g : Geo) : UInt32 := UInt32.ofNat g.fatsz * 512

def fat12Ent32 (g : Geo) (fat : Bytes) (cl : UInt32) : Nat :=
  let off := cl + cl / 2
  if off + 1 ≥ fatBytes32 g then fat12Eof
  else
    let v := (fat off.toNat).toNat ||| (fat (off + 1).toNat).toNat <<< 8
    if cl % 2 = 1 then v >>> 4 else v &&& 0xFFF

def fat12Set32 (g : Geo) (fat : Bytes) (cl val : UInt32) : Bytes :=
  let off := cl + cl / 2
  let val := val.toNat &&& 0xFFF
  if off + 1 ≥ fatBytes32 g then fat
  else if cl % 2 = 1 then
    Function.update
      (Function.update fat off.toNat
        (UInt8.ofNat (((fat off.toNat).toNat &&& 0x0F) ||| (val &&& 0x0F) <<< 4)))
      (off + 1).toNat (UInt8.ofNat (val >>> 4))
  else
    Function.update (Function.update fat off.toNat (UInt8.ofNat val))
      (off + 1).toNat (UInt8.ofNat (((fat (off + 1).toNat).toNat &&& 0xF0) ||| val >>> 8))

/-- Entry `cl` is bits `12 * cl` to `12 * cl + 11` of the image. -/
def Inside (g : Geo) (cl : UInt32) : Prop := 12 * (cl.toNat + 1) ≤ 8 * (fatBytes32 g).toNat

instance (g : Geo) (cl : UInt32) : Decidable (Inside g cl) := inferInstanceAs (Decidable (_ ≤ _))

/-- The first number whose offset leaves 32 bits. -/
def fatWrap : UInt32 := 0xAAAAAAAA

variable {g : Geo} {c d : UInt32}

/-- The geometry whose table has the size that `fat_bytes` computes. -/
def wrapped (g : Geo) : Geo := { g with fatsz := g.fatsz % 2 ^ 23 }

theorem fatBytes_wrapped (g : Geo) : fatBytes (wrapped g) = (fatBytes32 g).toNat := by
  unfold fatBytes32 fatBytes wrapped secSize
  rw [UInt32.toNat_mul, UInt32.toNat_ofNat']
  change _ = g.fatsz % 2 ^ 32 * 512 % 2 ^ 32
  simp only
  omega

theorem inside_iff : Inside g c ↔ c.toNat + c.toNat / 2 + 1 < fatBytes (wrapped g) := by
  rw [fatBytes_wrapped]
  unfold Inside
  omega

theorem Inside.lt_wrap (h : Inside g c) : c < fatWrap := by
  have hn := (fatBytes32 g).toNat_lt
  unfold Inside at h
  rw [UInt32.lt_iff_toNat_lt]
  change c.toNat < 0xAAAAAAAA
  omega

theorem odd_iff : c % 2 = 1 ↔ c.toNat % 2 = 1 := by
  rw [← UInt32.toNat_inj, UInt32.toNat_mod]
  rfl

section
variable (h : c < fatWrap)
include h

theorem off_toNat :
    (c + c / 2).toNat = c.toNat + c.toNat / 2 ∧ (c + c / 2 + 1).toNat = c.toNat + c.toNat / 2 + 1 := by
  have hlt : c.toNat < 0xAAAAAAAA := UInt32.lt_iff_toNat_lt.1 h
  have hdiv : (c / 2).toNat = c.toNat / 2 := UInt32.toNat_div c 2
  have hoff : (c + c / 2).toNat = c.toNat + c.toNat / 2 := by
    rw [UInt32.toNat_add, hdiv]
    omega
  refine ⟨hoff, ?_⟩
  rw [UInt32.toNat_add, hoff]
  change (c.toNat + c.toNat / 2 + 1) % 2 ^ 32 = _
  omega

theorem ge_iff_off : c + c / 2 + 1 ≥ fatBytes32 g ↔ c.toNat + c.toNat / 2 + 1 ≥ fatBytes (wrapped g) := by
  rw [ge_iff_le, UInt32.le_iff_toNat_le, (off_toNat h).2, fatBytes_wrapped]

theorem fat12Ent32_wrapped (fat : Bytes) : fat12Ent32 g fat c = fat12Ent (wrapped g) fat c.toNat := by
  obtain ⟨h1, h2⟩ := off_toNat h
  simp only [fat12Ent32, fat12Ent, ge_iff_off h, odd_iff, h1, h2]

theorem fat12Set32_wrapped (fat : Bytes) (v : UInt32) :
    fat12Set32 g fat c v = fat12Set (wrapped g) fat c.toNat v.toNat := by
  obtain ⟨h1, h2⟩ := off_toNat h
  simp only [fat12Set32, fat12Set, ge_iff_off h, odd_iff, h1, h2]

theorem fat12Ent32_eq (hg : g.fatsz < 2 ^ 23) (fat : Bytes) :
    fat12Ent32 g fat c = fat12Ent g fat c.toNat := by
  rw [fat12Ent32_wrapped h]
  unfold wrapped
  rw [Nat.mod_eq_of_lt hg]

theorem fat12Set32_eq (hg : g.fatsz < 2 ^ 23) (fat : Bytes) (v : UInt32) :
    fat12Set32 g fat c v = fat12Set g fat c.toNat v.toNat := by
  rw [fat12Set32_wrapped h]
  unfold wrapped
  rw [Nat.mod_eq_of_lt hg]

end

/-- **The entries are independent cells.** Below `fatWrap` a number whose entry is not in the image
is read as the end of a chain, is not written and is not handed out. -/
theorem cells_independent (g : Geo) (fat : Bytes) (c v : UInt32) :
    (Inside g c → fat12Ent32 g (fat12Set32 g fat c v) c = v.toNat % 4096 ∧
      ∀ d, Inside g d → d ≠ c → fat12Ent32 g (fat12Set32 g fat c v) d = fat12Ent32 g fat d) ∧
    (¬Inside g c → c < fatWrap → fat12Set32 g fat c v = fat ∧ fat12Eof ≤ fat12Ent32 g fat c ∧
      ∀ s : Fs, s.geo = g → g.fatsz < 2 ^ 23 → s.fatFind ≠ some c.toNat) := by
  constructor
  · intro hin
    have hc := hin.lt_wrap
    rw [fat12Set32_wrapped hc, fat12Ent32_wrapped hc, fat12Ent_set, if_pos ⟨rfl, inside_iff.1 hin⟩]
    refine ⟨rfl, fun d hd hne => ?_⟩
    rw [fat12Ent32_wrapped hd.lt_wrap, fat12Ent32_wrapped hd.lt_wrap, fat12Ent_set,
      if_neg fun hx => hne (UInt32.toNat_inj.1 hx.1)]
  · intro hout hc
    have hge := Nat.le_of_not_lt (mt inside_iff.2 hout)
    refine ⟨?_, ?_, fun s hs hg hfind => ?_⟩
    · rw [fat12Set32_wrapped hc, fat12Set_outside hge]
    · rw [fat12Ent32_wrapped hc, fat12Ent_outside hge]
    · obtain ⟨-, -, h0⟩ := fatFind_some hfind
      rw [fatEnt, hs, ← fat12Ent32_eq hc hg, fat12Ent32_wrapped hc, fat12Ent_outside hge] at h0
      cases h0

/-- Entries 340 and 341 share the last byte of the first sector with nothing behind it: 340 is
inside, 341 is not. -/
example : let g : Geo := ⟨1, 1, 2000, 3, 4⟩
    Inside g 340 ∧ ¬Inside g 341 := by decide

/-- The offset of entry 0xAAAAAAAB is 2^32: its setting writes byte 0. -/
theorem cells_independent_wrap : let g : Geo := ⟨1, 1, 2000, 3, 4⟩
    ¬Inside g 0xAAAAAAAB ∧ fat12Set32 g (fun _ => 0) 0xAAAAAAAB 0xFFF ≠ fun _ => 0 := by
  refine ⟨by decide, fun h => ?_⟩
  have h0 := congrFun h 0
  revert h0
  decide +kernel

end VampireOS.Fs
