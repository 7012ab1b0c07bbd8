import VampireOS.Lib.Blocks
import VampireOS.Memory.Pmm

/-!
# Heaps in memory (heap.c:14-37, 83-130, malloc.c:8-36, 113-165)

| here | there |
| --- | --- |
| `Heap` | `heap_base`, `heap_end` and the memory, of which the bytes below `lim` are mapped |
| `Header`, `Heap.header` | `struct block`, a read of it |
| `nextBlock` | `next_block` |
| `carveBlock` | what `kmalloc` and `malloc` do with the block they have found |
| `firstFit` | their loop over the blocks |
| `freeBlock` | `kfree`, `free` |
| `Reads`, `Tiled` | the headers say these blocks |

The two allocators share this code but for `HEAP_MAGIC`; `sizeof(struct block)` and `HEAP_ALIGN` are
16. Pointers are 64-bit numbers, and an access past `lim` is a `Stop.fault`. The loop over the
blocks has fuel.
-/

namespace VampireOS

open Lib

/-! ## Words of four bytes -/

def rd32 (m : Mem) (a : Nat) : Nat :=
  (m a).toNat + (m (a + 1)).toNat * 0x100 + (m (a + 2)).toNat * 0x10000 + (m (a + 3)).toNat * 0x1000000

def wr32 (m : Mem) (a v : Nat) : Mem :=
  fun x => if a ≤ x ∧ x < a + 4 then UInt8.ofNat (v / 0x100 ^ (x - a)) else m x

theorem rd32_eq {m m' : Mem} {a : Nat} (h : ∀ k, k < 4 → m' (a + k) = m (a + k)) : rd32 m' a = rd32 m a := by
  have h0 := h 0 (by omega)
  rw [Nat.add_zero] at h0
  unfold rd32
  rw [h0, h 1 (by omega), h 2 (by omega), h 3 (by omega)]

theorem wr32_at (m : Mem) (a v k : Nat) (hk : k < 4) : (wr32 m a v (a + k)).toNat = v / 0x100 ^ k % 256 := by
  unfold wr32
  rw [if_pos (by omega), Nat.add_sub_cancel_left, UInt8.toNat_ofNat']

theorem rd32_wr32 (m : Mem) (a v : Nat) (hv : v < 2 ^ 32) : rd32 (wr32 m a v) a = v := by
  have h0 := wr32_at m a v 0 (by omega)
  rw [Nat.add_zero] at h0
  unfold rd32
  rw [h0, wr32_at m a v 1 (by omega), wr32_at m a v 2 (by omega), wr32_at m a v 3 (by omega)]
  simp only [Nat.reducePow, Nat.div_one]
  omega

/-! ## The code -/

inductive Stop where
  | fault
  | fuel
deriving DecidableEq, Repr

structure Header where
  magic : Nat
  free : Nat
  size : Nat

structure Heap where
  mem : Mem
  base : Nat
  top : Nat
  lim : Nat

namespace Heap

def header (h : Heap) (b : Nat) : Except Stop Header :=
  if h.lim < b + 16 then .error .fault else .ok ⟨rd32 h.mem b, rd32 h.mem (b + 4), rd64 h.mem (b + 8)⟩

/-- `b->free = v`. -/
def setFree (h : Heap) (b v : Nat) : Heap := { h with mem := wr32 h.mem (b + 4) v }

/-- `b->size = v`. -/
def setSize (h : Heap) (b v : Nat) : Heap := { h with mem := wr64 h.mem (b + 8) v }

/-- The three stores that make a free block. -/
def newBlock (magic : Nat) (h : Heap) (b size : Nat) : Except Stop Heap :=
  if h.lim < b + 16 then .error .fault
  else .ok { h with mem := wr64 (wr32 (wr32 h.mem b magic) (b + 4) 1) (b + 8) size }

def nextBlock (h : Heap) (b size : Nat) : Nat :=
  let p := (b + 16 + size) % 2 ^ 64
  if p < (b + 16) % 2 ^ 64 ∨ (p + 16) % 2 ^ 64 > h.top then 0 else p

def carveBlock (magic need : Nat) (h : Heap) (b size : Nat) : Except Stop Heap :=
  let leftover := size - need
  if leftover ≥ 16 + 16 then
    (h.newBlock magic ((b + 16 + need) % 2 ^ 64) (leftover - 16)).map fun h => (h.setSize b need).setFree b 0
  else .ok (h.setFree b 0)

/-- How the loop ends: at a block, at a header without the magic, or past the last block. -/
inductive Found where
  | block (p : Nat)
  | bad
  | none

def firstFit (magic need : Nat) : Nat → Heap → Nat → Except Stop (Heap × Found)
  | 0, _, _ => .error .fuel
  | n + 1, h, b =>
    if b = 0 then .ok (h, .none)
    else
      match h.header b with
      | .error e => .error e
      | .ok hd =>
        if hd.magic ≠ magic then .ok (h, .bad)
        else if hd.free ≠ 0 ∧ hd.size ≥ need then (carveBlock magic need h b hd.size).map fun h =>
          (h, .block (b + 16))
        else firstFit magic need n h (h.nextBlock b hd.size)

def freeBlock (magic : Nat) (h : Heap) (ptr : Nat) : Except Stop Heap :=
  if ptr = 0 ∨ h.base = 0 then .ok h
  else if ptr < h.base + 16 ∨ ptr ≥ h.top then .ok h
  else
    let b := ptr - 16
    match h.header b with
    | .error e => .error e
    | .ok hd =>
      if hd.magic ≠ magic ∨ hd.free ≠ 0 then .ok h
      else
        let h := h.setFree b 1
        let n := h.nextBlock b hd.size
        if n = 0 then .ok h
        else
          match h.header n with
          | .error e => .error e
          | .ok nd =>
            if nd.magic = magic ∧ nd.free ≠ 0
              then .ok (h.setSize b ((hd.size + 16 + nd.size) % 2 ^ 64)) else .ok h

end Heap

/-! ## What is written -/

/-- `m'` differs from `m` in `[lo, hi)` only. -/
def Within (lo hi : Nat) (m m' : Mem) : Prop := ∀ x, ¬(lo ≤ x ∧ x < hi) → m' x = m x

theorem Within.refl (lo hi : Nat) (m : Mem) : Within lo hi m m := fun _ _ => rfl

theorem Within.trans {lo hi : Nat} {m m' m'' : Mem} (h : Within lo hi m m')
    (h' : Within lo hi m' m'') : Within lo hi m m'' :=
  fun x hx => (h' x hx).trans (h x hx)

theorem Within.mono {lo hi lo' hi' : Nat} {m m' : Mem} (h : Within lo hi m m') (h1 : lo' ≤ lo)
    (h2 : hi ≤ hi') :
    Within lo' hi' m m' := fun x hx => h x fun hc => hx ⟨by omega, by omega⟩

theorem wr32_within (m : Mem) (a v : Nat) : Within a (a + 4) m (wr32 m a v) := fun _ hx => if_neg hx

theorem wr64_within (m : Mem) (a v : Nat) : Within a (a + 8) m (wr64 m a v) := fun _ hx => if_neg hx

theorem Within.rd32 {lo hi a : Nat} {m m' : Mem} (h : Within lo hi m m') (ha : a + 4 ≤ lo ∨
      hi ≤ a) : VampireOS.rd32 m' a = VampireOS.rd32 m a :=
  rd32_eq fun k hk => h _ fun hc => by omega

theorem Within.rd64 {lo hi a : Nat} {m m' : Mem} (h : Within lo hi m m') (ha : a + 8 ≤ lo ∨
      hi ≤ a) : VampireOS.rd64 m' a = VampireOS.rd64 m a :=
  rd64_eq fun k hk => h _ fun hc => by omega

/-- The header of a block, as three words. -/
structure HeaderIs (m : Mem) (b magic free size : Nat) : Prop where
  magic : rd32 m b = magic
  free : rd32 m (b + 4) = free
  size : rd64 m (b + 8) = size

theorem HeaderIs.congr {m m' : Mem} {b magic free size lo hi : Nat}
    (h : HeaderIs m b magic free size) (hw : Within lo hi m m') (ha : b + 16 ≤ lo ∨ hi ≤ b) :
    HeaderIs m' b magic free size :=
  ⟨(hw.rd32 (by omega)).trans h.magic, (hw.rd32 (by omega)).trans h.free, (hw.rd64 (by omega)).trans h.size⟩

theorem HeaderIs.setFree {m : Mem} {b magic free size : Nat} (h : HeaderIs m b magic free size)
    {v : Nat} (hv : v < 2 ^ 32) :
    HeaderIs (wr32 m (b + 4) v) b magic v size :=
  ⟨((wr32_within m (b + 4) v).rd32 (by omega)).trans h.magic, rd32_wr32 m _ _ hv,
    ((wr32_within m (b + 4) v).rd64 (by omega)).trans h.size⟩

theorem HeaderIs.setSize {m : Mem} {b magic free size : Nat} (h : HeaderIs m b magic free size)
    {v : Nat} (hv : v < 2 ^ 64) :
    HeaderIs (wr64 m (b + 8) v) b magic free v :=
  ⟨((wr64_within m (b + 8) v).rd32 (by omega)).trans h.magic,
    ((wr64_within m (b + 8) v).rd32 (by omega)).trans h.free, rd64_wr64 m _ _ hv⟩

theorem headerIs_new (m : Mem) (b : Nat) {magic : Nat} (size : Nat) (hm : magic < 2 ^ 32)
    (hs : size < 2 ^ 64) :
    HeaderIs (wr64 (wr32 (wr32 m b magic) (b + 4) 1) (b + 8) size) b magic 1 size :=
  have h : HeaderIs (wr32 (wr32 m b magic) (b + 4) 1) b magic 1
      (rd64 (wr32 (wr32 m b magic) (b + 4) 1) (b + 8)) :=
    ⟨((wr32_within _ (b + 4) 1).rd32 (by omega)).trans (rd32_wr32 m b magic hm),
      rd32_wr32 _ _ _ (by omega), rfl⟩
  h.setSize hs

theorem new_within (m : Mem) (b magic size : Nat) :
    Within b (b + 16) m (wr64 (wr32 (wr32 m b magic) (b + 4) 1) (b + 8) size) :=
  ((wr32_within m b magic).mono (by omega) (by omega)).trans <|
    ((wr32_within _ (b + 4) 1).mono (by omega) (by omega)).trans
      ((wr64_within _ (b + 8) size).mono (by omega) (by omega))

/-! ## The blocks that the headers say -/

/-- The headers from `p` on are those of the blocks. -/
def Reads (magic : Nat) (m : Mem) : Nat → List Block → Prop
  | _, [] => True
  | p, b :: bs => HeaderIs m p magic (if b.free then 1 else 0) b.size ∧ Reads magic m (p + 16 + b.size) bs

/-- The blocks tile the heap. -/
structure Tiled (magic : Nat) (h : Heap) (bs : List Block) : Prop where
  reads : Reads magic h.mem h.base bs
  top : h.base + Block.span 16 bs = h.top
  sizes : Block.Aligned 16 bs
  tail : Block.Tail 16 bs
  base : 0 < h.base
  aligned : 16 ∣ h.base
  mapped : h.top ≤ h.lim
  bounded : h.top + 16 < 2 ^ 64

section
variable {magic need p q n : Nat} {m m' : Mem} {h : Heap} {b : Block} {bs bs' l r : List Block}

theorem reads_append :
    Reads magic m p (l ++ r) ↔ Reads magic m p l ∧ Reads magic m (p + Block.span 16 l) r := by
  induction l generalizing p with
  | nil => simp [Reads, Block.span]
  | cons b l ih =>
    simp only [List.cons_append, Reads, ih, Block.span, and_assoc]
    rw [show p + (16 + b.size + Block.span 16 l) = p + 16 + b.size + Block.span 16 l by omega]

theorem Reads.congr {lo hi : Nat} : ∀ {p : Nat} {bs : List Block}, Reads magic m p bs → Within lo hi m m' →
    (p + Block.span 16 bs ≤ lo ∨ hi ≤ p) → Reads magic m' p bs
  | _, [], _, _, _ => trivial
  | p, b :: bs, h, hw, ha => by
    simp only [Block.span] at ha
    exact ⟨h.1.congr hw (by omega), Reads.congr h.2 hw (by omega)⟩

/-- A write into the blocks `x` turns them into `x'`. -/
theorem Reads.edit {x y : List Block} (h : Reads magic m p (l ++ (x ++ r)))
    (hw : Within (p + Block.span 16 l) (p + Block.span 16 l + Block.span 16 x) m m')
    (hx : Reads magic m' (p + Block.span 16 l) y) (hs : Block.span 16 y = Block.span 16 x) :
    Reads magic m' p (l ++ (y ++ r)) := by
  obtain ⟨h1, h2⟩ := reads_append.1 h
  obtain ⟨-, h3⟩ := reads_append.1 h2
  refine reads_append.2 ⟨h1.congr hw (.inl (by omega)), reads_append.2 ⟨hx, ?_⟩⟩
  rw [hs]
  exact h3.congr hw (.inr (by omega))

/-- A pointer to the first of the blocks, null when there is none. -/
def firstPtr (p : Nat) : List Block → Nat
  | [] => 0
  | _ :: _ => p

@[simp] theorem firstPtr_nil (p : Nat) : firstPtr p [] = 0 := rfl

@[simp] theorem firstPtr_cons (p : Nat) (b : Block) (r : List Block) : firstPtr p (b :: r) = p := rfl

/-- A heap that is not empty has a first block. -/
theorem Tiled.first (ht : Tiled magic h bs) (hlt : h.base < h.top) : firstPtr h.base bs = h.base := by
  cases bs with
  | nil =>
    have := ht.top
    rw [Block.span] at this
    omega
  | cons b r => rfl

theorem Tiled.header (ht : Tiled magic h (l ++ b :: r)) :
    HeaderIs h.mem (h.base + Block.span 16 l) magic (if b.free then 1 else 0) b.size :=
  (reads_append.1 ht.reads).2.1

theorem Tiled.room (ht : Tiled magic h (l ++ b :: r)) :
    h.base + Block.span 16 l + 16 + b.size + Block.span 16 r = h.top := by
  have := ht.top
  rw [Block.span_append, Block.span] at this
  omega

theorem Tiled.header_ok (ht : Tiled magic h (l ++ b :: r)) :
    h.header (h.base + Block.span 16 l) = .ok ⟨magic, if b.free then 1 else 0, b.size⟩ := by
  have := ht.room
  have := ht.mapped
  obtain ⟨h1, h2, h3⟩ := ht.header
  unfold Heap.header
  rw [if_neg (by omega), h1, h2, h3]

theorem Tiled.nextBlock (ht : Tiled magic h (l ++ b :: r)) :
    h.nextBlock (h.base + Block.span 16 l) b.size = firstPtr (h.base + Block.span 16 l + 16 + b.size) r := by
  have hroom := ht.room
  have hbound := ht.bounded
  have hmod : (h.base + Block.span 16 l + 16 + b.size) % 2 ^ 64 = h.base + Block.span 16 l + 16 + b.size :=
    Nat.mod_eq_of_lt (by omega)
  unfold Heap.nextBlock
  simp only [hmod]
  cases r with
  | nil =>
    simp only [Block.span] at hroom
    rw [if_pos (by omega)]
    rfl
  | cons c r =>
    simp only [Block.span] at hroom
    rw [if_neg (by omega)]
    rfl

/-- The loop passes the blocks that do not fit. -/
theorem Tiled.firstFit_skip :
    ∀ {r l : List Block} {n : Nat}, Tiled magic h (l ++ r) → (∀ b ∈ r, ¬b.Fits need) →
    r.length < n →
    Heap.firstFit magic need n h (firstPtr (h.base + Block.span 16 l) r) = .ok (h, .none)
  | _, _, 0, _, _, hn => by cases hn
  | [], _, n + 1, _, _, _ => by
    rw [firstPtr_nil, Heap.firstFit, if_pos rfl]
  | b :: r, l, n + 1, ht, hno, hn => by
    have hbase := ht.base
    have hfit := hno b (by simp)
    rw [firstPtr_cons, Heap.firstFit, if_neg (by omega), ht.header_ok]
    simp only [ne_eq, not_true_eq_false, if_false]
    rw [if_neg, ht.nextBlock]
    · have ht' : Tiled magic h ((l ++ [b]) ++ r) := by simpa using ht
      have ih := ht'.firstFit_skip (fun c hc => hno c (List.mem_cons_of_mem _ hc)) (Nat.lt_of_succ_lt_succ hn)
      rw [Block.span_append, Block.span, Block.span] at ih
      rw [← ih]
      congr 2
      omega
    · intro hc
      refine hfit ⟨?_, hc.2⟩
      cases hf : b.free with
      | true => rfl
      | false => simp [hf] at hc

/-- The loop ends at the first block that fits. -/
theorem Tiled.firstFit_find :
    ∀ {t l : List Block} {n : Nat}, Tiled magic h (l ++ (t ++ b :: r)) → (∀ c ∈ t, ¬c.Fits need) →
    b.Fits need → t.length < n →
      Heap.firstFit magic need n h (firstPtr (h.base + Block.span 16 l) (t ++ b :: r)) =
      (Heap.carveBlock magic need h (h.base + Block.span 16 (l ++ t)) b.size).map fun h' =>
        (h', .block (h.base + Block.span 16 (l ++ t) + 16))
  | _, _, 0, _, _, _, hn => by cases hn
  | [], l, n + 1, ht, _, hb, _ => by
    have hbase := ht.base
    rw [List.nil_append, List.append_nil, firstPtr_cons, Heap.firstFit, if_neg (by omega),
      Tiled.header_ok (by simpa using ht)]
    simp only [ne_eq, not_true_eq_false, if_false]
    rw [if_pos ⟨by simp [hb.1], hb.2⟩]
  | c :: t, l, n + 1, ht, hno, hb, hn => by
    have hbase := ht.base
    have hfit := hno c (by simp)
    have hc : Tiled magic h (l ++ c :: (t ++ b :: r)) := by simpa using ht
    rw [List.cons_append, firstPtr_cons, Heap.firstFit, if_neg (by omega), hc.header_ok]
    simp only [ne_eq, not_true_eq_false, if_false]
    rw [if_neg, hc.nextBlock]
    · have ht' : Tiled magic h ((l ++ [c]) ++ (t ++ b :: r)) := by simpa using ht
      have ih := ht'.firstFit_find (fun c hc => hno c (List.mem_cons_of_mem _ hc)) hb
        (Nat.lt_of_succ_lt_succ hn)
      rw [Block.span_append, Block.span, Block.span, List.append_assoc, List.singleton_append] at ih
      rw [← ih]
      congr 2
      omega
    · intro hx
      refine hfit ⟨?_, hx.2⟩
      cases hf : c.free with
      | true => rfl
      | false => simp [hf] at hx

/-! ## What a call leaves -/

/-- A header that says free still does, but for the one at `q`. -/
def StaysFree (q : Nat) (m m' : Mem) : Prop := ∀ x, 16 ∣ x → x ≠ q → rd32 m (x + 4) ≠ 0 → rd32 m' (x + 4) ≠ 0

/-- The bytes of the blocks that are given out are the same. -/
def SameBytes (p : Nat) (bs : List Block) (m m' : Mem) : Prop :=
  ∀ x ∈ Block.used 16 p bs, ∀ a, x.1 + 16 ≤ a → a < x.1 + 16 + x.2 → m' a = m a

/-- Writing one header does not touch the others. -/
theorem Within.staysFree (h : Within q (q + 16) m m') (hq : 16 ∣ q) : StaysFree q m m' := by
  intro x hx hne hf
  rwa [h.rd32 (by omega)]

theorem staysFree_free (hq : 16 ∣ q) (hw : Within q (q + 16) m m') (hf : rd32 m' (q + 4) ≠ 0)
    (q' : Nat) : StaysFree q' m m' := by
  intro x hx _ hx0
  by_cases hxq : x = q
  · rwa [hxq]
  · exact hw.staysFree hq x hx hxq hx0

/-- Blocks that are given out do not reach into a free one. -/
theorem sameBytes_free (hb : b.free = true)
    (hw : Within (p + Block.span 16 l) (p + Block.span 16 l + 16 + b.size) m m') :
    SameBytes p (l ++ b :: r) m m' := by
  intro x hx a h1 h2
  rw [Block.used_append, Block.used, if_pos hb, List.nil_append, List.mem_append] at hx
  refine hw a fun hc => ?_
  rcases hx with hx | hx
  · have := (Block.used_bounds hx).2
    omega
  · have := (Block.used_bounds hx).1
    omega

/-- Blocks that are given out do not reach into a header. -/
theorem sameBytes_header (hw : Within (p + Block.span 16 l) (p + Block.span 16 l + 16) m m') :
    SameBytes p (l ++ b :: r) m m' := by
  intro x hx a h1 h2
  rw [Block.used_append, Block.used, List.mem_append, List.mem_append] at hx
  refine hw a fun hc => ?_
  rcases hx with hx | hx | hx
  · have := (Block.used_bounds hx).2
    omega
  · split at hx
    · cases hx
    · cases List.mem_singleton.1 hx
      omega
  · have := (Block.used_bounds hx).1
    omega

theorem Tiled.aligned_at (ht : Tiled magic h (l ++ r)) : 16 ∣ h.base + Block.span 16 l := by
  have hbase := ht.aligned
  have hl : ∀ {l : List Block}, (∀ b ∈ l, 16 ∣ b.size) → 16 ∣ Block.span 16 l := by
    intro l hs
    induction l with
    | nil => exact Nat.dvd_zero _
    | cons b l ih =>
      have h1 := hs b (by simp)
      have h2 := ih fun c hc => hs c (by simp [hc])
      simp only [Block.span]
      omega
  have := hl (l := l) fun b hb => ht.sizes b (by simp [hb])
  omega

/-! ## A block is found -/

theorem Tiled.carveBlock (ht : Tiled magic h (l ++ b :: r)) (hm : magic < 2 ^ 32) (hn : 16 ∣ need)
    (hb : b.Fits need) :
    ∃ m', Heap.carveBlock magic need h (h.base + Block.span 16 l) b.size = .ok { h with mem := m' } ∧
      Reads magic m' (h.base + Block.span 16 l) (Block.carve 16 32 need b) ∧
      Within (h.base + Block.span 16 l) (h.base + Block.span 16 l + 16 + b.size) h.mem m' ∧
      StaysFree (h.base + Block.span 16 l) h.mem m' := by
  have hroom := ht.room
  have hbound := ht.bounded
  have hmap := ht.mapped
  have halign := ht.aligned_at
  have hhead := ht.header
  have hfit := hb.2
  generalize h.base + Block.span 16 l = q at hroom halign hhead
  unfold Heap.carveBlock Block.carve
  by_cases hl : 32 ≤ b.size - need
  · rw [if_pos (show b.size - need ≥ 16 + 16 from hl), if_pos hl]
    have hmod : (q + 16 + need) % 2 ^ 64 = q + 16 + need := Nat.mod_eq_of_lt (by omega)
    rw [hmod]
    unfold Heap.newBlock
    rw [if_neg (by omega)]
    -- the header split off, then the block's own
    have hsplit := headerIs_new h.mem (q + 16 + need) (b.size - need - 16) hm (by omega)
    have hw := new_within h.mem (q + 16 + need) magic (b.size - need - 16)
    set m1 := wr64 (wr32 (wr32 h.mem (q + 16 + need) magic) (q + 16 + need + 4) 1)
      (q + 16 + need + 8) (b.size - need - 16) with hm1
    have hown := ((hhead.congr hw (.inl (by omega))).setSize (v := need) (by omega)).setFree
      (v := 0) (by omega)
    have hw2 : Within q (q + 16) m1 (wr32 (wr64 m1 (q + 8) need) (q + 4) 0) :=
      ((wr64_within m1 (q + 8) need).mono (by omega) (by omega)).trans
        ((wr32_within _ (q + 4) 0).mono (by omega) (by omega))
    refine ⟨wr32 (wr64 m1 (q + 8) need) (q + 4) 0, rfl, ⟨hown, hsplit.congr hw2 (.inr (by omega)),
      trivial⟩, ?_, ?_⟩
    · exact (hw.mono (by omega) (by omega)).trans (hw2.mono (by omega) (by omega))
    · intro x hx hne hf
      have hsf := staysFree_free (Nat.dvd_add (Nat.dvd_add halign (Nat.dvd_refl 16)) hn) hw
        (by rw [hsplit.free]; omega) q
      exact hw2.staysFree halign x hx hne (hsf x hx hne hf)
  · rw [if_neg (show ¬b.size - need ≥ 16 + 16 from hl), if_neg hl]
    have hw2 : Within q (q + 16) h.mem (wr32 h.mem (q + 4) 0) :=
      (wr32_within h.mem (q + 4) 0).mono (by omega) (by omega)
    exact ⟨wr32 h.mem (q + 4) 0, rfl, ⟨hhead.setFree (by omega), trivial⟩,
      hw2.mono (by omega) (by omega), hw2.staysFree halign⟩

/-- **The loop is first fit** on the blocks. -/
theorem Tiled.firstFit (ht : Tiled magic h bs) (hm : magic < 2 ^ 32) (hn : 16 ∣ need) (fuel : Nat)
    (hf : bs.length < fuel) :
    (Block.take 16 32 need h.base bs = none ∧ Heap.firstFit magic need fuel h (firstPtr h.base bs) =
    .ok (h, .none)) ∨
      ∃ q bs' m', Block.take 16 32 need h.base bs = some (q, bs') ∧
        Heap.firstFit magic need fuel h (firstPtr h.base bs) = .ok ({ h with mem := m' }, .block (q + 16)) ∧
        Tiled magic { h with mem := m' } bs' ∧ Within h.base h.top h.mem m' ∧ SameBytes h.base bs h.mem m' ∧
        StaysFree q h.mem m' := by
  cases e : Block.take 16 32 need h.base bs with
  | none =>
    refine .inl ⟨rfl, ?_⟩
    have := Tiled.firstFit_skip (l := []) ht (Block.take_eq_none.1 e) hf
    simpa [Block.span] using this
  | some x =>
    obtain ⟨q, bs'⟩ := x
    obtain ⟨l, b, r, rfl, hb, rfl, rfl, hno⟩ := Block.take_spec e
    obtain ⟨m', hcarve, hreads, hw, hstay⟩ := ht.carveBlock hm hn hb
    have hroom := ht.room
    have hspan := Block.span_carve (w := 16) (g := 32) (by omega) hb
    have hfind := Tiled.firstFit_find (l := []) (t := l) (n := fuel) ht hno hb (by simp at hf; omega)
    simp only [List.nil_append, Block.span, Nat.add_zero, hcarve] at hfind
    have hedit : Reads magic m' h.base (l ++ (Block.carve 16 32 need b ++ r)) := by
      refine Reads.edit (x := [b]) (by simpa using ht.reads) (hw.mono le_rfl ?_) hreads (hspan.trans ?_)
      · simp only [Block.span]
        omega
      · simp [Block.span]
    refine .inr ⟨_, _, m', rfl, hfind, ⟨hedit, ?_, ?_, ?_, ht.base, ht.aligned, ht.mapped,
      ht.bounded⟩, hw.mono (by omega) (by omega), sameBytes_free hb.1 hw, hstay⟩
    · rw [Block.span_take (by omega) e]
      exact ht.top
    · exact ht.sizes.take (Nat.dvd_refl 16) hn e
    · exact ht.tail.take (by omega) e

/-! ## A block is freed -/

/-- A pointer whose header says free is left alone. -/
theorem Tiled.freeBlock_stale (ht : Tiled magic h bs) {ptr : Nat} (hf : rd32 h.mem (ptr - 16 + 4) ≠ 0) :
    Heap.freeBlock magic h ptr = .ok h := by
  have hmap := ht.mapped
  unfold Heap.freeBlock
  split
  · rfl
  · split
    · rfl
    · rename_i hc
      have hrange : ¬(ptr < h.base + 16 ∨ ptr ≥ h.top) := hc
      have hread : h.header (ptr - 16) = .ok ⟨rd32 h.mem (ptr - 16), rd32 h.mem (ptr - 16 + 4),
          rd64 h.mem (ptr - 16 + 8)⟩ :=
        if_neg (by omega)
      simp only [hread]
      rw [if_pos (.inr hf)]

/-- The header of the freed block, and what becomes of the block after it. -/
theorem Tiled.absorb (ht : Tiled magic h (l ++ ⟨n, false⟩ :: r)) :
    ∃ m', Heap.freeBlock magic h (h.base + Block.span 16 l + 16) = .ok { h with mem := m' } ∧
      Reads magic m' h.base (l ++ Block.absorb 16 ⟨n, false⟩ r) ∧
      Within (h.base + Block.span 16 l) (h.base + Block.span 16 l + 16) h.mem m' ∧
      rd32 m' (h.base + Block.span 16 l + 4) ≠ 0 := by
  have hbase := ht.base
  have hbound := ht.bounded
  have hroom := ht.room
  have hmap := ht.mapped
  have hhead := ht.header
  have hreads := ht.reads
  have hnext := ht.nextBlock
  have hok := ht.header_ok
  -- the last block is not empty, so its payload starts below `heap_end`
  have hlt : h.base + Block.span 16 l + 16 < h.top := by
    cases r with
    | nil =>
      have := ht.tail ⟨n, false⟩ (by simp)
      simp only [Block.span] at this hroom
      omega
    | cons c r =>
      simp only [Block.span] at hroom
      omega
  have hq : ∀ m1 m2, Within (h.base + Block.span 16 l) (h.base + Block.span 16 l + 16) m1 m2 →
      Within (h.base + Block.span 16 l) (h.base + Block.span 16 l + Block.span 16 [⟨n, false⟩]) m1 m2 :=
    fun m1 m2 hw => hw.mono le_rfl (by simp only [Block.span]; omega)
  unfold Heap.freeBlock
  rw [if_neg (by omega), if_neg (by omega), Nat.add_sub_cancel]
  simp only [hok, Bool.false_eq_true, if_false, ne_eq, not_true_eq_false, or_self]
  rw [show (h.setFree (h.base + Block.span 16 l) 1).nextBlock (h.base + Block.span 16 l) n =
    h.nextBlock (h.base + Block.span 16 l) n from rfl, hnext]
  have hfree := hhead.setFree (v := 1) (by omega)
  have hw1 : Within (h.base + Block.span 16 l) (h.base + Block.span 16 l + 16) h.mem
      (wr32 h.mem (h.base + Block.span 16 l + 4) 1) :=
    (wr32_within h.mem _ 1).mono (by omega) (by omega)
  have hfirst : Reads magic (wr32 h.mem (h.base + Block.span 16 l + 4) 1) h.base (l ++ ([⟨n, true⟩] ++ r)) :=
    Reads.edit (x := [⟨n, false⟩]) hreads (hq _ _ hw1) ⟨hfree, trivial⟩ rfl
  have hnz : rd32 (wr32 h.mem (h.base + Block.span 16 l + 4) 1) (h.base + Block.span 16 l + 4) ≠ 0 := by
    rw [hfree.free]
    omega
  cases r with
  | nil => exact ⟨_, by rw [firstPtr_nil, if_pos rfl]; rfl, hfirst, hw1, hnz⟩
  | cons c r =>
    simp only [Block.span] at hroom
    have hc : HeaderIs (wr32 h.mem (h.base + Block.span 16 l + 4) 1) (h.base + Block.span 16 l + 16 + n) magic
        (if c.free then 1 else 0) c.size := (reads_append.1 hfirst).2.2.1
    rw [firstPtr_cons, if_neg (by omega)]
    unfold Heap.header
    rw [if_neg (by simp only [Heap.setFree]; omega)]
    simp only [Heap.setFree, hc.magic, hc.free, hc.size, true_and]
    cases hcf : c.free with
    | true =>
      rw [if_pos (by simp), Block.absorb, if_pos hcf]
      simp only [Heap.setSize]
      set m1 := wr32 h.mem (h.base + Block.span 16 l + 4) 1 with hm1
      have hmod : (n + 16 + c.size) % 2 ^ 64 = n + 16 + c.size := Nat.mod_eq_of_lt (by omega)
      rw [hmod]
      have hw2 : Within (h.base + Block.span 16 l) (h.base + Block.span 16 l + 16) m1
          (wr64 m1 (h.base + Block.span 16 l + 8) (n + 16 + c.size)) :=
            (wr64_within m1 _ _).mono (by omega) (by omega)
      have hsize := hfree.setSize (v := n + 16 + c.size) (by omega)
      refine ⟨_, rfl, ?_, hw1.trans hw2, ?_⟩
      · refine Reads.edit (x := [⟨n, true⟩, c]) (y := [⟨n + 16 + c.size, true⟩]) hfirst
          (hw2.mono le_rfl ?_) ⟨hsize, trivial⟩ ?_
        · simp only [Block.span]
          omega
        · simp only [Block.span]
          omega
      · rw [hsize.free]
        omega
    | false =>
      rw [if_neg (by simp), Block.absorb, if_neg (by simp [hcf])]
      exact ⟨_, rfl, hfirst, hw1, hnz⟩

/-- **`kfree` and `free`** of a block that is given out. -/
theorem Tiled.freeBlock (ht : Tiled magic h bs) (hu : (q, n) ∈ Block.used 16 h.base bs) :
    ∃ m', Heap.freeBlock magic h (q + 16) = .ok { h with mem := m' } ∧
      Tiled magic { h with mem := m' } (Block.release 16 q h.base bs) ∧ Within h.base h.top h.mem m' ∧
      SameBytes h.base bs h.mem m' ∧ (∀ q', StaysFree q' h.mem m') ∧ rd32 m' (q + 4) ≠ 0 := by
  obtain ⟨l, r, rfl, rfl⟩ := Block.mem_used.1 hu
  obtain ⟨m', hok, hreads, hw, hf⟩ := ht.absorb
  have hroom := ht.room
  refine ⟨m', hok, ⟨?_, ?_, ht.sizes.release (by omega) (Nat.dvd_refl 16),
    ht.tail.release (by omega), ht.base, ht.aligned, ht.mapped,
    ht.bounded⟩, hw.mono (by omega) (by simp only at hroom; omega), sameBytes_header hw,
      staysFree_free ht.aligned_at hw hf, hf⟩
  · rw [Block.release_at (by omega)]
    exact hreads
  · rw [Block.span_release (by omega)]
    exact ht.top

/-! ## The walk -/

/-- The blocks that `next_block` visits from `b` on. -/
inductive Visits (h : Heap) : Nat → List Nat → Prop where
  | nil : Visits h 0 []
  | cons {b : Nat} {l : List Nat} (hb : b ≠ 0) (ht : Visits h (h.nextBlock b (rd64 h.mem (b + 8)))
      l) : Visits h b (b :: l)

/-- Blocks that follow one another from `lo` to `hi`. -/
def Tiles (m : Mem) : List Nat → Nat → Nat → Prop
  | [], lo, hi => lo = hi
  | b :: l, lo, hi => b = lo ∧ Tiles m l (b + 16 + rd64 m (b + 8)) hi

/-- Where blocks stand. -/
def addrs : Nat → List Block → List Nat
  | _, [] => []
  | p, b :: bs => p :: addrs (p + 16 + b.size) bs

theorem mem_addrs :
    ∀ {p a : Nat} {bs : List Block}, a ∈ addrs p bs ↔ ∃ l b r, bs = l ++ b :: r ∧
    a = p + Block.span 16 l
  | p, a, [] => by simp [addrs]
  | p, a, b :: bs => by
    rw [addrs, List.mem_cons, mem_addrs]
    constructor
    · rintro (rfl | ⟨l, c, r, rfl, rfl⟩)
      · exact ⟨[], b, bs, rfl, rfl⟩
      · refine ⟨b :: l, c, r, rfl, ?_⟩
        simp only [Block.span]
        omega
    · rintro ⟨l, c, r, e, rfl⟩
      cases l with
      | nil => exact .inl rfl
      | cons d l =>
        cases e
        refine .inr ⟨l, c, r, rfl, ?_⟩
        simp only [Block.span]
        omega

theorem Tiled.visits_from : ∀ {r l : List Block}, Tiled magic h (l ++ r) →
    Visits h (firstPtr (h.base + Block.span 16 l) r) (addrs (h.base + Block.span 16 l) r) ∧
      Tiles h.mem (addrs (h.base + Block.span 16 l) r) (h.base + Block.span 16 l) h.top
  | [], l, ht => by
    refine ⟨.nil, ?_⟩
    have := ht.top
    rw [List.append_nil] at this
    exact this
  | b :: r, l, ht => by
    have hbase := ht.base
    obtain ⟨ih1, ih2⟩ := Tiled.visits_from (l := l ++ [b]) (r := r) (by simpa using ht)
    rw [Block.span_append, Block.span, Block.span, show h.base + (Block.span 16 l + (16 + b.size + 0)) =
      h.base + Block.span 16 l + 16 + b.size by omega] at ih1 ih2
    rw [firstPtr_cons, addrs]
    refine ⟨.cons (by omega) ?_, rfl, ?_⟩
    · rw [ht.header.size, ht.nextBlock]
      exact ih1
    · rw [ht.header.size]
      exact ih2

/-- The walk from `heap_base` ends, and its blocks tile the heap. -/
theorem Tiled.visits (ht : Tiled magic h bs) : Visits h (firstPtr h.base bs) (addrs h.base bs) ∧
    Tiles h.mem (addrs h.base bs) h.base h.top ∧ ∀ b ∈ addrs h.base bs, rd32 h.mem b = magic := by
  obtain ⟨h1, h2⟩ := Tiled.visits_from (l := []) ht
  refine ⟨h1, h2, fun a ha => ?_⟩
  obtain ⟨l, b, r, rfl, rfl⟩ := mem_addrs.1 ha
  exact ht.header.magic

end

end VampireOS
