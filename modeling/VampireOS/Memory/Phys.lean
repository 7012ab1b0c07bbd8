import Mathlib.Data.Nat.Bitwise
import Mathlib.Tactic.Common

/-!
# Physical memory

The kernel reaches every frame through the higher-half map (`phys_to_virt`, vmm.c:362), so a
pointer into a frame is a physical address here and memory is one array of bytes. A page table
is a page read as 512 little-endian `uint64_t`; `ent m t i` is `table[i]` for the table at `t`.
-/

namespace VampireOS

abbrev Mem := Nat → UInt8

/-- `PAGE_4K` (vmm.c:11). -/
abbrev pageSize : Nat := 0x1000

/-- `p` is the address of a page. -/
def Page (p : Nat) : Prop := p % pageSize = 0

instance (p : Nat) : Decidable (Page p) := inferInstanceAs (Decidable (_ = _))

/-! ## Words -/

def rd64 (m : Mem) (a : Nat) : Nat :=
  (m a).toNat + (m (a + 1)).toNat * 0x100 + (m (a + 2)).toNat * 0x10000 + (m (a + 3)).toNat * 0x1000000 +
    (m (a + 4)).toNat * 0x100000000 + (m (a + 5)).toNat * 0x10000000000 +
    (m (a + 6)).toNat * 0x1000000000000 + (m (a + 7)).toNat * 0x100000000000000

def wr64 (m : Mem) (a v : Nat) : Mem := fun x =>
  if a ≤ x ∧ x < a + 8 then UInt8.ofNat (v / 0x100 ^ (x - a)) else m x

/-- `table[i]`. -/
def ent (m : Mem) (t i : Nat) : Nat := rd64 m (t + 8 * i)

/-- `table[i] = v`. -/
def setEnt (m : Mem) (t i v : Nat) : Mem := wr64 m (t + 8 * i) v

/-- `zero_page` (user.c:113) and the clearing loops of the page-table code. -/
def zeroPage (m : Mem) (p : Nat) : Mem := fun x => if p ≤ x ∧ x < p + pageSize then 0 else m x

/-- `copy_page` (vmm.c:654). -/
def copyPage (m : Mem) (dst src : Nat) : Mem := fun x =>
  if dst ≤ x ∧ x < dst + pageSize then m (src + (x - dst)) else m x

/-- `page[o] = b`. -/
def setByte (m : Mem) (a : Nat) (b : UInt8) : Mem := fun x => if x = a then b else m x

theorem rd64_eq {m m' : Mem} {a b : Nat} (h : ∀ k, k < 8 → m' (a + k) = m (b + k)) :
    rd64 m' a = rd64 m b := by
  have h0 := h 0 (by omega)
  rw [Nat.add_zero, Nat.add_zero] at h0
  unfold rd64
  rw [h0, h 1 (by omega), h 2 (by omega), h 3 (by omega), h 4 (by omega), h 5 (by omega), h 6 (by omega),
    h 7 (by omega)]

theorem rd64_zero {m : Mem} {a : Nat} (h : ∀ k, k < 8 → m (a + k) = 0) : rd64 m a = 0 :=
  (rd64_eq (m := fun _ => 0) (b := 0) h).trans rfl

theorem wr64_at (m : Mem) (a v k : Nat) (hk : k < 8) : (wr64 m a v (a + k)).toNat = v / 0x100 ^ k % 256 := by
  unfold wr64
  rw [if_pos (by omega), Nat.add_sub_cancel_left, UInt8.toNat_ofNat']

theorem rd64_wr64 (m : Mem) (a v : Nat) (hv : v < 2 ^ 64) : rd64 (wr64 m a v) a = v := by
  have h0 := wr64_at m a v 0 (by omega)
  rw [Nat.add_zero] at h0
  unfold rd64
  rw [h0, wr64_at m a v 1 (by omega), wr64_at m a v 2 (by omega), wr64_at m a v 3 (by omega),
    wr64_at m a v 4 (by omega), wr64_at m a v 5 (by omega), wr64_at m a v 6 (by omega),
    wr64_at m a v 7 (by omega)]
  simp only [Nat.reducePow, Nat.div_one]
  omega

theorem ent_setEnt (m : Mem) (t i v : Nat) (hv : v < 2 ^ 64) : ent (setEnt m t i v) t i = v :=
  rd64_wr64 m _ v hv

/-! ## Pages do not overlap -/

/-- `m'` differs from `m` inside the page at `p` only. -/
def SameOff (p : Nat) (m m' : Mem) : Prop := ∀ a, ¬(p ≤ a ∧ a < p + pageSize) → m' a = m a

theorem SameOff.refl (p : Nat) (m : Mem) : SameOff p m m := fun _ _ => rfl

theorem SameOff.trans {p : Nat} {m m' m'' : Mem} (h : SameOff p m m') (h' : SameOff p m' m'') :
    SameOff p m m'' := fun a ha => (h' a ha).trans (h a ha)

theorem sameOff_setEnt (m : Mem) (t i v : Nat) (hi : i < 512) : SameOff t m (setEnt m t i v) := by
  intro a ha
  simp only [setEnt, wr64]
  rw [if_neg (by simp only [pageSize] at ha; omega)]

theorem sameOff_zeroPage (m : Mem) (p : Nat) : SameOff p m (zeroPage m p) := by
  intro a ha
  simp only [zeroPage, if_neg ha]

theorem sameOff_copyPage (m : Mem) (dst src : Nat) : SameOff dst m (copyPage m dst src) := by
  intro a ha
  simp only [copyPage, if_neg ha]

theorem sameOff_setByte (m : Mem) (p o : Nat) (b : UInt8) (ho : o < pageSize) :
    SameOff p m (setByte m (p + o) b) := by
  intro a ha
  simp only [setByte]
  rw [if_neg (by omega)]

theorem page_disjoint {p q : Nat} (hp : Page p) (hq : Page q) (hne : q ≠ p) {o : Nat} (ho : o < pageSize) :
    ¬(p ≤ q + o ∧ q + o < p + pageSize) := by
  simp only [Page, pageSize] at *
  omega

theorem SameOff.byte {p q : Nat} {m m' : Mem} (h : SameOff p m m') (hp : Page p) (hq : Page q) (hne : q ≠ p)
    {o : Nat} (ho : o < pageSize) : m' (q + o) = m (q + o) := h _ (page_disjoint hp hq hne ho)

theorem SameOff.ent {p t : Nat} {m m' : Mem} (h : SameOff p m m') (hp : Page p) (ht : Page t) (hne : t ≠ p)
    {i : Nat} (hi : i < 512) : ent m' t i = ent m t i := by
  apply rd64_eq
  intro k hk
  rw [Nat.add_assoc]
  exact h.byte hp ht hne (by simp only [pageSize]; omega)

theorem ent_setEnt_ne (m : Mem) (t v : Nat) {i j : Nat} (hij : j ≠ i) :
    ent (setEnt m t i v) t j = ent m t j := by
  apply rd64_eq
  intro k hk
  simp only [setEnt, wr64]
  rw [if_neg (by omega)]

theorem ent_zeroPage (m : Mem) (p : Nat) {i : Nat} (hi : i < 512) : ent (zeroPage m p) p i = 0 := by
  refine rd64_zero fun k hk => ?_
  simp only [zeroPage]
  rw [if_pos (by simp only [pageSize]; omega)]

theorem copyPage_at (m : Mem) (dst src : Nat) {o : Nat} (ho : o < pageSize) :
    copyPage m dst src (dst + o) = m (src + o) := by
  simp only [copyPage]
  rw [if_pos (by omega), Nat.add_sub_cancel_left]

theorem zeroPage_at (m : Mem) (p : Nat) {o : Nat} (ho : o < pageSize) : zeroPage m p (p + o) = 0 := by
  simp only [zeroPage]
  rw [if_pos (by omega)]

/-! ## Page-table entries -/

/-- Low 12 bits of an entry: flags, not address. -/
theorem or_flags_and {p fl k : Nat} (hp : Page p) (hk : k < pageSize) : (p ||| fl) &&& k = fl &&& k := by
  rw [Nat.and_or_distrib_right]
  have h0 : p &&& k = 0 := by
    apply Nat.eq_of_testBit_eq
    intro i
    rw [Nat.testBit_and, Nat.zero_testBit]
    by_cases hi : i < 12
    · have : p.testBit i = false := by
        have hdvd : p = 2 ^ 12 * (p / 2 ^ 12) := by simp only [Page, pageSize] at hp; omega
        rw [hdvd, Nat.testBit_two_pow_mul]
        simp; omega
      rw [this, Bool.false_and]
    · have : k.testBit i = false :=
        Nat.testBit_lt_two_pow
          (lt_of_lt_of_le hk (Nat.pow_le_pow_right (by omega : 0 < 2) (show 12 ≤ i by omega)))
      rw [this, Bool.and_false]
  rw [h0, Nat.zero_or]

/-- `p | flags` is `p + flags`. -/
theorem or_flags_eq_add {p fl : Nat} (hp : Page p) (hf : fl < pageSize) : p ||| fl = p + fl := by
  have hdvd : p = 2 ^ 12 * (p / 2 ^ 12) := by simp only [Page, pageSize] at hp; omega
  rw [hdvd]
  exact (Nat.two_pow_add_eq_or_of_lt hf _).symm

/-- `ADDR_MASK` (vmm.c:29), `~0xFFF`. -/
def addrMask : Nat := 0xFFFFFFFFFFFFF000

theorem or_flags_addr {p fl : Nat} (hp : Page p) (hp64 : p < 2 ^ 64) (hf : fl < pageSize) :
    (p ||| fl) &&& addrMask = p := by
  apply Nat.eq_of_testBit_eq
  intro i
  have hmask : addrMask = 2 ^ 12 * (2 ^ 52 - 1) := rfl
  have hdvd : p = 2 ^ 12 * (p / 2 ^ 12) := by simp only [Page, pageSize] at hp; omega
  rw [Nat.testBit_and, Nat.testBit_or, hmask, Nat.testBit_two_pow_mul, Nat.testBit_two_pow_sub_one]
  by_cases hi : i < 12
  · have h0 : p.testBit i = false := by
      rw [hdvd, Nat.testBit_two_pow_mul]
      simp; omega
    rw [h0]
    simp; omega
  · have hfi : fl.testBit i = false :=
      Nat.testBit_lt_two_pow
        (lt_of_lt_of_le hf (Nat.pow_le_pow_right (by omega : 0 < 2) (show 12 ≤ i by omega)))
    by_cases h64 : i < 64
    · rw [hfi]
      simp; omega
    · have hpi : p.testBit i = false :=
        Nat.testBit_lt_two_pow
          (lt_of_lt_of_le hp64 (Nat.pow_le_pow_right (by omega : 0 < 2) (show 64 ≤ i by omega)))
      rw [hpi, hfi]
      simp

theorem or_flags_lt {p fl : Nat} (hp : Page p) (hp64 : p + pageSize ≤ 2 ^ 64) (hf : fl < pageSize) :
    p ||| fl < 2 ^ 64 := by
  rw [or_flags_eq_add hp hf]
  omega

end VampireOS
