import VampireOS.Memory.Clients
import VampireOS.Sched.User

/-!
# `malloc` and `free` (malloc.c)

| here | there |
| --- | --- |
| `Heap.lim` | the break, as `brk(0)` says |
| `brk` | the system call; `allow` is the kernel's answer to a new break |
| `lastBlock` | the walk of `grow` |
| `grow`, `mallocLoop`, `malloc`, `free` | `grow`, the `for (;;)` of `malloc`, `malloc`, `free` |

The bytes from the break on are not mapped. A call of `malloc` may call `brk` several times: `allow
k` answers the call number `k`. The `for (;;)` has fuel for 2^64 rounds.
-/

namespace VampireOS

open Lib

/-- `HEAP_MAGIC` of malloc.c. -/
def mallocMagic : Nat := 0x4d414c43

/-- `HEAP_GROW`. -/
def heapGrow : Nat := 0x1000

/-- `(void *)-1`. -/
def brkFailed : Nat := 2 ^ 64 - 1

/-- `brk(w)`: a query for 0, else the new break or -1. -/
def brk (allow : Nat → Bool) (h : Heap) (w : Nat) : Heap × Nat :=
  if w = 0 then (h, h.lim) else if allow w then ({ h with lim := w }, w) else (h, brkFailed)

def lastBlock : Nat → Heap → Nat → Except Stop Nat
  | 0, _, _ => .error .fuel
  | n + 1, h, b =>
    match h.header b with
    | .error e => .error e
    | .ok hd => if h.nextBlock b hd.size = 0 then .ok b else lastBlock n h (h.nextBlock b hd.size)

/-- `grow` once `heap_base` is set. -/
def growBy (allow : Nat → Bool) (h : Heap) (extra : Nat) : Except Stop (Heap × Bool) :=
  let want := (h.top + extra) % 2 ^ 64
  match brk allow h want with
  | (h, got) =>
    if got = brkFailed ∨ got < want then .ok (h, false)
    else
      let extra := (got + 2 ^ 64 - h.top) % 2 ^ 64
      if h.top = h.base then
        (h.newBlock mallocMagic h.base ((extra + 2 ^ 64 - 16) % 2 ^ 64)).map fun h =>
          ({ h with top := got }, true)
      else
        match lastBlock ((h.top - h.base) / 16 + 1) h h.base with
        | .error e => .error e
        | .ok b =>
          match h.header b with
          | .error e => .error e
          | .ok hd =>
            if hd.free ≠ 0 then .ok ({ h.setSize b ((hd.size + extra) % 2 ^ 64) with top := got }, true)
            else (h.newBlock mallocMagic h.top ((extra + 2 ^ 64 - 16) % 2 ^ 64)).map fun h =>
              ({ h with top := got }, true)

/-- The bytes that `grow(need)` asks for. -/
def growth (need : Nat) : Nat := Pmm.alignUp (if need < heapGrow then heapGrow else need) heapGrow

def grow (allow : Nat → Bool) (h : Heap) (need : Nat) : Except Stop (Heap × Bool) :=
  if h.base = 0 then
    let cur := (brk allow h 0).2
    if cur = 0 ∨ cur = brkFailed then .ok (h, false)
      else growBy allow { h with base := cur, top := cur } (growth need)
  else growBy allow h (growth need)

def mallocLoop (allow : Nat → Nat → Bool) (need : Nat) : Nat → Nat → Heap → Except Stop (Heap × Nat)
  | 0, _, _ => .error .fuel
  | n + 1, k, h =>
    match Heap.firstFit mallocMagic need ((h.top - h.base) / 16 + 1) h h.base with
    | .error e => .error e
    | .ok (h, .block p) => .ok (h, p)
    | .ok (h, .bad) => .ok (h, 0)
    | .ok (h, .none) =>
      match grow (allow k) h ((16 + need) % 2 ^ 64) with
      | .error e => .error e
      | .ok (h, false) => .ok (h, 0)
      | .ok (h, true) => mallocLoop allow need n (k + 1) h

def malloc (allow : Nat → Nat → Bool) (h : Heap) (size : Nat) : Except Stop (Heap × Nat) :=
  if size = 0 then .ok (h, 0)
  else if h.base = 0 then
    match grow (allow 0) h ((16 + Pmm.alignUp size 16) % 2 ^ 64) with
    | .error e => .error e
    | .ok (h, false) => .ok (h, 0)
    | .ok (h, true) => mallocLoop allow (Pmm.alignUp size 16) (2 ^ 64) 1 h
  else mallocLoop allow (Pmm.alignUp size 16) (2 ^ 64) 0 h

def free (h : Heap) (ptr : Nat) : Except Stop Heap := Heap.freeBlock mallocMagic h ptr

/-! ## Growing the blocks -/

section
variable {bs l : List Block} {b : Block} {h : Heap} {n extra : Nat}

theorem Tiled.lastBlock :
    ∀ {r l : List Block} {n : Nat}, Tiled mallocMagic h (l ++ (r ++ [b])) → r.length < n →
    VampireOS.lastBlock n h (firstPtr (h.base + Block.span 16 l) (r ++ [b])) =
    .ok (h.base + Block.span 16 (l ++ r))
  | _, _, 0, _, hn => by cases hn
  | [], l, n + 1, ht, _ => by
    rw [List.nil_append, firstPtr_cons, VampireOS.lastBlock, Tiled.header_ok ht]
    simp only
    rw [Tiled.nextBlock ht, firstPtr_nil, if_pos rfl, List.append_nil]
  | c :: r, l, n + 1, ht, hn => by
    have hc : Tiled mallocMagic h (l ++ c :: (r ++ [b])) := by simpa using ht
    have hbase := ht.base
    have ih := Tiled.lastBlock (r := r) (l := l ++ [c]) (n := n) (by simpa using ht)
      (Nat.lt_of_succ_lt_succ hn)
    rw [List.cons_append, firstPtr_cons, VampireOS.lastBlock, hc.header_ok]
    simp only
    rw [hc.nextBlock]
    have hne : ∀ p, 0 < p → firstPtr p (r ++ [b]) ≠ 0 := by
      intro p hp
      cases r with
      | nil => exact Nat.ne_of_gt hp
      | cons d r => exact Nat.ne_of_gt hp
    rw [if_neg (hne _ (by omega))]
    rw [Block.span_append, Block.span, Block.span, List.append_assoc, List.singleton_append] at ih
    rw [← ih]
    congr 2
    omega

/-- A refused growth changes nothing. -/
theorem growBy_refused {allow : Nat → Bool} (h0 : (h.top + extra) % 2 ^ 64 ≠ 0)
    (ha : allow ((h.top + extra) % 2 ^ 64) = false) :
    growBy allow h extra = .ok (h, false) := by
  have hgot : brk allow h ((h.top + extra) % 2 ^ 64) = (h, brkFailed) := by
    unfold brk
    rw [if_neg h0, if_neg (by rw [ha]; exact Bool.false_ne_true)]
  unfold growBy
  simp only [hgot, true_or, if_true]

/-- The first growth makes one free block. -/
theorem growBy_first {c : Nat} (hbase : h.base = c) (htop : h.top = c) (hc : 0 < c)
    (halign : 16 ∣ c) (he : 16 ∣ extra) (h32 : 32 ≤ extra) (hlt : c + extra + 16 < 2 ^ 64)
    {allow : Nat → Bool} (ha : allow (c + extra) = true) :
    ∃ m', growBy allow h extra = .ok (⟨m', c, c + extra, c + extra⟩, true) ∧
      Tiled mallocMagic ⟨m', c, c + extra, c + extra⟩ [⟨extra - 16, true⟩] ∧
      Within c (c + 16) h.mem m' ∧ rd32 m' (c + 4) ≠ 0 := by
  have hwant : (h.top + extra) % 2 ^ 64 = c + extra := by
    rw [htop]
    exact Nat.mod_eq_of_lt (by omega)
  have hextra : (c + extra + 2 ^ 64 - c) % 2 ^ 64 = extra := by omega
  have hsize : (extra + 2 ^ 64 - 16) % 2 ^ 64 = extra - 16 := by omega
  have hnew := headerIs_new h.mem c (extra - 16) (show mallocMagic < 2 ^ 32 by decide) (by omega)
  have hgot : brk allow h (c + extra) = ({ h with lim := c + extra }, c + extra) := by
    unfold brk
    rw [if_neg (by omega), if_pos ha]
  unfold growBy
  simp only [hwant, hgot, brkFailed]
  rw [if_neg (by omega), if_pos (by omega), htop, hbase, hextra, hsize]
  unfold Heap.newBlock
  rw [if_neg (by simp only; omega)]
  refine ⟨_, rfl, ⟨⟨hnew, trivial⟩, ?_, ?_, ?_, hc, halign, le_rfl, hlt⟩, new_within _ _ _ _, ?_⟩
  · simp only [Block.span]
    omega
  · intro b hb
    rw [List.mem_singleton.1 hb]
    exact Nat.dvd_sub he (Nat.dvd_refl 16)
  · rw [Block.tail_singleton]
    simp only
    omega
  · rw [hnew.free]
    omega

/-- Later growths extend the blocks. -/
theorem Tiled.growBy (ht : Tiled mallocMagic h bs) (hlt : h.base < h.top) (hlim : h.lim = h.top)
    (he : 16 ∣ extra) (h32 : 32 ≤ extra) (hmax : h.top + extra + 16 < 2 ^ 64) {allow : Nat → Bool}
    (ha : allow (h.top + extra) = true) :
    ∃ m', VampireOS.growBy allow h extra = .ok (⟨m', h.base, h.top + extra, h.top + extra⟩, true) ∧
      Tiled mallocMagic ⟨m', h.base, h.top + extra, h.top + extra⟩ (Block.extend 16 extra bs) ∧
      SameBytes h.base bs h.mem m' ∧
      ∀ q, StaysFree q h.mem m' := by
  have hwant : (h.top + extra) % 2 ^ 64 = h.top + extra := Nat.mod_eq_of_lt (by omega)
  have hextra : (h.top + extra + 2 ^ 64 - h.top) % 2 ^ 64 = extra := by omega
  have hsize : (extra + 2 ^ 64 - 16) % 2 ^ 64 = extra - 16 := by omega
  have hlen := Block.length_le_span (w := 16) bs
  have htop := ht.top
  have hbase := ht.base
  set h1 : Heap := { h with lim := h.top + extra } with hh1
  have ht1 : Tiled mallocMagic h1 bs := ⟨ht.reads, ht.top, ht.sizes, ht.tail, ht.base, ht.aligned,
    by simp only [hh1]; omega, ht.bounded⟩
  have hgot : VampireOS.brk allow h (h.top + extra) = (h1, h.top + extra) := by
    unfold brk
    rw [if_neg (by omega), if_pos ha]
  have htiled : ∀ m', Reads mallocMagic m' h.base (Block.extend 16 extra bs) →
      Tiled mallocMagic ⟨m', h.base, h.top + extra, h.top + extra⟩ (Block.extend 16 extra bs) := fun m' hr =>
    ⟨hr, by rw [Block.span_extend (by omega)]; simp only; omega, ht.sizes.extend (Nat.dvd_refl 16)
      he, ht.tail.extend (by omega), ht.base, ht.aligned, le_rfl, hmax⟩
  unfold VampireOS.growBy
  simp only [hwant, hgot, brkFailed]
  rw [if_neg (by omega), hextra, hsize, if_neg (by simp only [hh1]; omega)]
  rcases Block.extend_spec (w := 16) extra bs with ⟨rfl, -⟩ | ⟨l, n, rfl, e⟩ | ⟨l, n, rfl, e⟩
  · rw [Block.span] at htop
    omega
  · -- the last block is free
    have hlast := Tiled.lastBlock (l := []) (r := l) (n := (h1.top - h1.base) / 16 + 1) ht1
      (by simp only [List.length_append, List.length_singleton] at hlen; simp only [hh1]; omega)
    have hroom := ht.room
    have hhead := ht.header
    have halign := ht.aligned_at
    have hok := ht1.header_ok
    simp only [Block.span, Nat.add_zero, List.nil_append, ht1.first hlt] at hlast hroom
    have hmod : (n + extra) % 2 ^ 64 = n + extra := Nat.mod_eq_of_lt (by omega)
    rw [hlast]
    simp only [hok, if_true]
    rw [if_pos (by omega), hmod]
    have hsz := hhead.setSize (v := n + extra) (by omega)
    have hw : Within (h.base + Block.span 16 l) (h.base + Block.span 16 l + 16) h.mem
        (wr64 h.mem (h.base + Block.span 16 l + 8) (n + extra)) :=
          (wr64_within h.mem _ _).mono (by omega) (by omega)
    refine ⟨wr64 h.mem (h.base + Block.span 16 l + 8) (n + extra), rfl, htiled _ ?_, sameBytes_header hw,
      staysFree_free halign hw (by rw [hsz.free]; simp)⟩
    rw [e]
    exact reads_append.2 ⟨(reads_append.1 ht.reads).1.congr hw (.inl le_rfl), hsz, trivial⟩
  · -- the last block is in use
    have hlast := Tiled.lastBlock (l := []) (r := l) (n := (h1.top - h1.base) / 16 + 1) ht1
      (by simp only [List.length_append, List.length_singleton] at hlen; simp only [hh1]; omega)
    have hok := ht1.header_ok
    have halign := Tiled.aligned_at (l := l ++ [⟨n, false⟩]) (r := []) (by rwa [List.append_nil])
    rw [htop] at halign
    simp only [Block.span, Nat.add_zero, List.nil_append, ht1.first hlt] at hlast
    rw [hlast]
    simp only [hok, Bool.false_eq_true, if_false, ne_eq, not_true_eq_false]
    have hnew := headerIs_new h.mem h.top (extra - 16) (show mallocMagic < 2 ^ 32 by decide) (by omega)
    have hw := new_within h.mem h.top mallocMagic (extra - 16)
    unfold Heap.newBlock
    rw [if_neg (by simp only [hh1]; omega)]
    refine ⟨_, rfl, htiled _ ?_, fun x hx a h1 h2 => hw a fun hc => ?_, staysFree_free halign hw
      (by simp only [hh1]; rw [hnew.free]; simp)⟩
    · rw [e, show l ++ [⟨n, false⟩, ⟨extra - 16, true⟩] = (l ++ [⟨n, false⟩]) ++
        [(⟨extra - 16, true⟩ : Block)] by simp]
      refine reads_append.2 ⟨ht.reads.congr hw (.inl (by omega)), ?_⟩
      rw [htop]
      exact ⟨hnew, trivial⟩
    · have := (Block.used_bounds hx).2
      omega

end

/-! ## Runs -/

inductive MallocOp where
  | malloc (size : UInt64) (allow : Nat → Nat → Bool)
  | free (ptr : Nat)
  | store (a : Nat) (b : UInt8)

/-- The end of user addresses. -/
def breakMax : Nat := 2 ^ 47

/-- The break that the kernel names lies above the stack page. -/
theorem userBrk_query {M : Type} [MemSys M] (k : Kernel M) {w : Nat}
      (h : (k.userBrk 0).2 = some w) : 0 < w := by
  unfold Kernel.userBrk at h
  simp only at h
  split at h
  · cases h
  · rw [if_true] at h
    cases h
    unfold pageSize
    split <;> omega

/-- The kernel answers `brk` as `allow` does: the new break, within the task's heap, or -1. -/
theorem userBrk_allow {M : Type} [MemSys M] (k : Kernel M)
    (hb : (k.tasks k.current).userBase + 2 * pageSize + userHeapPages * pageSize ≤ breakMax) :
    ∃ allow : Nat → Bool, (∀ w, allow w = true → w ≠ 0 → w ≤ breakMax) ∧
      ∀ w, w ≠ 0 → (k.userBrk w).2 = if allow w then some w else none := by
  have hanswered : ∀ (done : Bool) (k1 k2 : Kernel M) (w : Nat),
    (if done then (k1, some w) else (k2, none)).2 = none ∨
      (if done then (k1, some w) else (k2, none)).2 = some w := by
    intro done k1 k2 w
    cases done with
    | true => exact .inr rfl
    | false => exact .inl rfl
  have hanswer : ∀ w, w ≠ 0 → (k.userBrk w).2 = none ∨ ((k.userBrk w).2 = some w ∧ w ≤ breakMax) := by
    intro w h0
    unfold Kernel.userBrk
    simp only [if_neg h0]
    by_cases hc : k.currentCr3 = pml4Phys ∨ (k.tasks k.current).userBase = 0
    · rw [if_pos hc]
      exact .inl rfl
    · rw [if_neg hc]
      by_cases hw : w < (k.tasks k.current).userBase + 2 * pageSize ∨
          w > (k.tasks k.current).userBase + 2 * pageSize + userHeapPages * pageSize
      · rw [if_pos hw]
        exact .inl rfl
      · rw [if_neg hw]
        exact (hanswered _ _ _ w).imp_right fun e => ⟨e, (Nat.le_of_not_lt (not_or.1 hw).2).trans hb⟩
  refine ⟨fun w => (k.userBrk w).2.isSome, fun w hw h0 => ?_, fun w h0 => ?_⟩
  · rcases hanswer w h0 with e | ⟨-, h⟩
    · simp [e] at hw
    · exact h
  · rcases hanswer w h0 with e | ⟨e, -⟩
    · simp [e]
    · simp [e]

namespace Malloc

/-- A program before its first call: the break is at `c`. -/
def start (mem : Mem) (c : Nat) : Client := ⟨⟨mem, 0, 0, c⟩, [], [], false⟩

def step (s : Client) : MallocOp → Except Stop Client
  | .malloc size allow => (malloc allow s.heap size.toNat).map fun r => s.got r.1 r.2 size.toNat
  | .free ptr => (free s.heap ptr).map fun h => s.gave h ptr
  | .store a b => .ok (s.store a b)

/-- `brk` answers with user addresses, and the program frees what it was given and stores into what
it holds. -/
def Legal (s : Client) : MallocOp → Prop
  | .malloc _ allow => ∀ k w, allow k w = true → w ≤ breakMax
  | .free ptr => s.MayFree ptr
  | .store a _ => s.MayStore a

/-- The break that `malloc(size)` asks for when it grows the heap. -/
def growTo (h : Heap) (size : Nat) : Nat :=
  (if h.base = 0 then h.lim else h.top) + growth ((16 + Pmm.alignUp size 16) % 2 ^ 64)

/-- `brk` does not give that break. -/
def Refused (h : Heap) (size : Nat) (allow : Nat → Nat → Bool) : Prop :=
  growTo h size % 2 ^ 64 ≠ 0 ∧ allow 0 (growTo h size % 2 ^ 64) = false

/-- The first growth was refused: `heap_base` is set, and there is no block. -/
def Empty (h : Heap) : Prop := h.base ≠ 0 ∧ h.top = h.base

instance (h : Heap) : Decidable (Empty h) := inferInstanceAs (Decidable (_ ∧ _))

/-- The states of a run whose steps are all `ok`. -/
inductive Reach (ok : Client → MallocOp → Prop) (s₀ : Client) : Client → Prop where
  | start : Reach ok s₀ s₀
  | step {s s' : Client} (op : MallocOp) (h : Reach ok s₀ s) (hl : ok s op)
      (e : step s op = .ok s') : Reach ok s₀ s'

/-- What every call keeps. -/
structure Inv (s : Client) : Prop where
  lim : s.heap.lim ≤ breakMax
  aligned : 16 ∣ s.heap.lim
  blocks : (s.heap.base = 0 ∧ s.heap.top = 0 ∧ s.live = [] ∧ ∀ ptr ∈ s.freed, ptr = 0) ∨
    (s.heap.lim = s.heap.top ∧ ∃ bs, Client.Inv mallocMagic (fun _ => True) s bs)

variable {s s' : Client} {bs : List Block} {size need : Nat} {allow : Nat → Nat → Bool}

theorem growth_spec (hs : size ≤ 2 ^ 64 - 4112) :
    16 ∣ Pmm.alignUp size 16 ∧ size ≤ Pmm.alignUp size 16 ∧ (16 + Pmm.alignUp size 16) % 2 ^ 64 =
    16 + Pmm.alignUp size 16 ∧
      16 ∣ growth (16 + Pmm.alignUp size 16) ∧ 16 + Pmm.alignUp size 16 ≤ growth (16 + Pmm.alignUp size 16) ∧
      4096 ≤ growth (16 + Pmm.alignUp size 16) := by
  have h1 : 16 ∣ Pmm.alignUp size 16 ∧ size ≤ Pmm.alignUp size 16 ∧ Pmm.alignUp size 16 ≤ 2 ^ 64 - 4112 := by
    unfold Pmm.alignUp
    omega
  obtain ⟨h1, h2, h3⟩ := h1
  generalize Pmm.alignUp size 16 = need at h1 h2 h3
  unfold growth Pmm.alignUp heapGrow
  split <;> omega

/-- A block that fits is given out, whatever `brk` would say. -/
theorem serve (hi : Client.Inv mallocMagic (fun _ => True) s bs) (hlt : s.heap.base < s.heap.top)
    (hn : 16 ∣ need) (hsize : size ≤ need) (hfit : ∃ b ∈ bs, b.Fits need) :
    ∃ q m', (∀ (allow : Nat → Nat → Bool) n k, mallocLoop allow need (n + 1) k s.heap =
    .ok ({ s.heap with mem := m' }, q + 16)) ∧
      SameBytes s.heap.base bs s.heap.mem m' ∧
      ∃ bs', Client.Inv mallocMagic (fun _ => True) (s.got { s.heap with mem := m' } (q + 16) size)
        bs' := by
  have htop := hi.tiled.top
  have hlen := Block.length_le_span (w := 16) bs
  have hff := hi.tiled.firstFit (by decide) hn ((s.heap.top - s.heap.base) / 16 + 1) (by omega)
  rw [hi.tiled.first hlt] at hff
  rcases hff with ⟨e, -⟩ | ⟨q, bs', m', e, hf, ht, -, hsame, hstay⟩
  · obtain ⟨b, hb, hfit⟩ := hfit
    exact absurd hfit (Block.take_eq_none.1 e b hb)
  · refine ⟨q, m', fun allow n k => ?_, hsame, bs', hi.got e ht hstay fun _ => hsize⟩
    rw [mallocLoop, hf]

/-- Growth does not touch what is held. -/
theorem grown {m' : Mem} {top extra : Nat} (hi : Client.Inv mallocMagic (fun _ => True) s bs)
    (ht : Tiled mallocMagic ⟨m', s.heap.base, top, top⟩ (Block.extend 16 extra bs))
    (hstay : ∀ q, StaysFree q s.heap.mem m') :
    Client.Inv mallocMagic (fun _ => True) { s with heap := ⟨m', s.heap.base, top, top⟩ }
      (Block.extend 16 extra bs) := by
  refine ⟨ht, ⟨?_, ?_, hi.owns.nodup⟩, fun hst ptr hp hl => ?_⟩
  · simp only [Block.used_extend]
    exact hi.owns.block
  · simp only [Block.used_extend]
    exact hi.owns.held
  · rcases hi.stale hst ptr hp hl with h0 | ⟨h1, h2, h3⟩
    · exact .inl h0
    · exact .inr ⟨h1, h2, hstay ptr _ (Nat.dvd_sub h1 (Nat.dvd_refl 16)) (by omega) h3⟩

/-- What a call of `malloc` leaves. -/
structure Served (s : Client) (allow : Nat → Nat → Bool) (size : Nat) (h' : Heap) (ptr : Nat) : Prop where
  inv : Inv (s.got h' ptr size)
  /-- Only `brk` can be the reason for 0. -/
  zero : ptr = 0 → size = 0 ∨ s.heap.lim = 0 ∨ Refused s.heap size allow
  bytes : ∀ x ∈ s.live, ∀ a, x.1 ≤ a → a < x.1 + s.blockSize x.1 → h'.mem a = s.heap.mem a
  grew : h'.lim = s.heap.lim ∨ h'.lim = growTo s.heap size

/-- The bytes of the blocks that are held. -/
theorem bytes_of {m' : Mem} (hi : Client.Inv mallocMagic (fun _ => True) s bs)
    (hsame : SameBytes s.heap.base bs s.heap.mem m') :
    ∀ x ∈ s.live, ∀ a, x.1 ≤ a → a < x.1 + s.blockSize x.1 → m' a = s.heap.mem a := by
  intro x hx a h1 h2
  obtain ⟨h16, n, hn, -⟩ := hi.owns.block x hx
  rw [hi.blockSize hn] at h2
  exact hsame _ hn a (by simp only; omega) (by simp only; omega)

theorem served_inv {m' : Mem} {q : Nat} {h : Heap} (hlim : h.lim ≤ breakMax) (halign : 16 ∣ h.lim)
    (htop : h.lim = h.top)
    (hi : Client.Inv mallocMagic (fun _ => True) (s.got { h with mem := m' } q size) bs) :
    Inv (s.got { h with mem := m' } q size) :=
  ⟨by rwa [Client.got_heap], by rwa [Client.got_heap], .inr ⟨by rwa [Client.got_heap], bs, hi⟩⟩

/-- A heap that has blocks serves, or grows once and serves, or `brk` refuses. -/
theorem malloc_blocks (hi : Inv s) (hb : Client.Inv mallocMagic (fun _ => True) s bs)
    (hlt : s.heap.base < s.heap.top) (hlim : s.heap.lim = s.heap.top) (h0 : size ≠ 0)
    (hs : size ≤ 2 ^ 64 - 4112) (hw : growTo s.heap size < 2 ^ 64 ∨ Refused s.heap size allow)
    (hl : ∀ k w, allow k w = true → w ≤ breakMax) :
    ∃ h' ptr, (∀ allow' : Nat → Nat → Bool, allow' 0 = allow 0 → malloc allow' s.heap size = .ok (h', ptr)) ∧
      Served s allow size h' ptr := by
  obtain ⟨hn, hle, hmod, he16, hge, h4096⟩ := growth_spec hs
  have hbase := hb.tiled.base
  have hgrow : growTo s.heap size = s.heap.top + growth (16 + Pmm.alignUp size 16) := by
    unfold growTo
    rw [if_neg (by omega), hmod]
  have hmalloc : ∀ allow' : Nat → Nat → Bool, malloc allow' s.heap size = mallocLoop allow'
      (Pmm.alignUp size 16) (2 ^ 64 - 1 + 1) 0 s.heap :=
    fun allow' => by
      rw [show (2 ^ 64 - 1 + 1 : Nat) = 2 ^ 64 from rfl]
      unfold malloc
      rw [if_neg h0, if_neg (by omega)]
  by_cases hfit : ∃ b ∈ bs, b.Fits (Pmm.alignUp size 16)
  · obtain ⟨q, m', hserve, hsame, bs', hi'⟩ := serve hb hlt hn hle hfit
    exact ⟨_, _, fun allow' _ => (hmalloc allow').trans (hserve allow' (2 ^ 64 - 1) 0),
      served_inv hi.lim hi.aligned hlim hi', fun hz => by omega, bytes_of hb hsame, .inl rfl⟩
  · -- no block fits, and `grow` asks for a new break
    have hno : ∀ b ∈ bs, ¬b.Fits (Pmm.alignUp size 16) := fun b hb hf => hfit ⟨b, hb, hf⟩
    have hnone := hb.tiled.firstFit_skip (l := []) (n := (s.heap.top - s.heap.base) / 16 + 1) hno
      (by have := Block.length_le_span (w := 16) bs; have := hb.tiled.top; omega)
    simp only [Block.span, Nat.add_zero, hb.tiled.first hlt] at hnone
    have hround : ∀ (allow' : Nat → Nat → Bool), allow' 0 = allow 0 → malloc allow' s.heap size =
        match growBy (allow 0) s.heap (growth (16 + Pmm.alignUp size 16)) with
        | .error e => .error e
        | .ok (h, false) => .ok (h, 0)
        | .ok (h, true) => mallocLoop allow' (Pmm.alignUp size 16) (2 ^ 64 - 1) 1 h := by
      intro allow' ha
      rw [hmalloc, mallocLoop, hnone]
      simp only [hmod, grow, ha]
      rw [if_neg (by omega)]
    by_cases hr : Refused s.heap size allow
    · obtain ⟨hr0, hra⟩ := id hr
      rw [hgrow] at hr0 hra
      refine ⟨s.heap, 0, fun allow' ha => ?_, ⟨hi, fun _ => .inr (.inr hr), fun _ _ _ _ _ => rfl, .inl rfl⟩⟩
      rw [hround allow' ha, growBy_refused hr0 hra]
    · have hnw := hw.resolve_right hr
      have ha : allow 0 (s.heap.top + growth (16 + Pmm.alignUp size 16)) = true := by
        have := not_and.1 hr
        rw [hgrow] at this hnw
        rw [Nat.mod_eq_of_lt hnw] at this
        exact Bool.eq_true_of_not_eq_false (this (by omega))
      have hmax := hl 0 _ ha
      unfold breakMax at hmax
      obtain ⟨m1, hg, ht1, hsame1, hstay1⟩ := hb.tiled.growBy hlt hlim he16 (by omega) (by omega) ha
      have hb1 := grown hb ht1 hstay1
      obtain ⟨q, m', hserve, hsame, bs', hi'⟩ :=
        serve hb1 (by simp only; omega) hn hle (Block.fits_extend hge bs)
      refine ⟨_, _, fun allow' ha => ?_, served_inv (s := s) (h := ⟨m1, s.heap.base, _, _⟩) ?_ ?_
        rfl hi', fun hz => by omega, ?_, .inr ?_⟩
      · rw [hround allow' ha, hg]
        exact hserve allow' (2 ^ 64 - 2) 1
      · exact hl 0 _ ha
      · have := hi.aligned
        rw [hlim] at this
        exact Nat.dvd_add this he16
      · refine bytes_of hb fun x hx a h1 h2 => (hsame x ?_ a h1 h2).trans (hsame1 x hx a h1 h2)
        rwa [Block.used_extend]
      · rw [hgrow]

/-- Before anything is given out. -/
theorem none_held {h : Heap} (ht : Tiled mallocMagic h bs) (hu : Block.used 16 h.base bs = [])
    (h3 : s.live = []) (h4 : ∀ ptr ∈ s.freed, ptr = 0) :
    Client.Inv mallocMagic (fun _ => True) { s with heap := h } bs := by
  refine ⟨ht, ⟨fun x hx => ?_, fun x hx => ?_, ?_⟩, fun _ ptr hp _ => .inl (h4 ptr hp)⟩
  · simp only [h3] at hx
    cases hx
  · simp only [hu] at hx
    cases hx
  · simp only [h3]
    exact List.nodup_nil

/-- The first call. -/
theorem malloc_first (hi : Inv s) (h1 : s.heap.base = 0) (h3 : s.live = [])
    (h4 : ∀ ptr ∈ s.freed, ptr = 0) (h0 : size ≠ 0) (hs : size ≤ 2 ^ 64 - 4112)
    (hw : growTo s.heap size < 2 ^ 64 ∨ Refused s.heap size allow)
    (hl : ∀ k w, allow k w = true → w ≤ breakMax) :
    ∃ h' ptr, (∀ allow' : Nat → Nat → Bool, allow' 0 = allow 0 → malloc allow' s.heap size = .ok (h', ptr)) ∧
      Served s allow size h' ptr := by
  obtain ⟨hn, hle, hmod, he16, hge, h4096⟩ := growth_spec hs
  have hgrow : growTo s.heap size = s.heap.lim + growth (16 + Pmm.alignUp size 16) := by
    unfold growTo
    rw [if_pos h1, hmod]
  have hlim := hi.lim
  have halign := hi.aligned
  unfold breakMax at hlim
  have hnone : ∀ m' : Mem, ∀ x ∈ s.live, ∀ a, x.1 ≤ a → a < x.1 + s.blockSize x.1 → m' a = s.heap.mem a := by
    intro m' x hx
    rw [h3] at hx
    cases hx
  have hmalloc : ∀ allow' : Nat → Nat → Bool, malloc allow' s.heap size =
      match grow (allow' 0) s.heap (16 + Pmm.alignUp size 16) with
      | .error e => .error e
      | .ok (h, false) => .ok (h, 0)
      | .ok (h, true) => mallocLoop allow' (Pmm.alignUp size 16) (2 ^ 64) 1 h := by
    intro allow'
    unfold malloc
    rw [if_neg h0, if_pos h1, hmod]
  by_cases hz : s.heap.lim = 0
  · refine ⟨s.heap, 0, fun allow' _ => ?_, ⟨hi, fun _ => .inr (.inl hz), hnone _, .inl rfl⟩⟩
    rw [hmalloc, grow, if_pos h1]
    simp only [brk, if_true]
    rw [if_pos (.inl hz)]
  · have hround : ∀ allow' : Nat → Nat → Bool, malloc allow' s.heap size =
        match growBy (allow' 0) { s.heap with base := s.heap.lim, top := s.heap.lim }
          (growth (16 + Pmm.alignUp size 16)) with
        | .error e => .error e
        | .ok (h, false) => .ok (h, 0)
        | .ok (h, true) => mallocLoop allow' (Pmm.alignUp size 16) (2 ^ 64 - 1 + 1) 1 h := by
      intro allow'
      rw [hmalloc, grow, if_pos h1, show (2 ^ 64 - 1 + 1 : Nat) = 2 ^ 64 from rfl]
      simp only [brk, if_true]
      rw [if_neg (by unfold brkFailed; omega)]
    by_cases hr : Refused s.heap size allow
    · obtain ⟨hr0, hra⟩ := id hr
      rw [hgrow] at hr0 hra
      refine ⟨{ s.heap with base := s.heap.lim, top := s.heap.lim }, 0, fun allow' ha => ?_,
        ⟨?_, fun _ => .inr (.inr hr), fun x hx => hnone _ x hx, .inl rfl⟩⟩
      · rw [hround, ha, growBy_refused hr0 hra]
      · -- `heap_base` is set, and there is no block
        refine ⟨hi.lim, hi.aligned,
          .inr ⟨rfl, [], none_held ⟨trivial, rfl, nofun, nofun, ?_, halign, le_rfl, ?_⟩ rfl h3 h4⟩⟩
        · simp only
          omega
        · simp only
          omega
    · have hnw := hw.resolve_right hr
      have ha : allow 0 (s.heap.lim + growth (16 + Pmm.alignUp size 16)) = true := by
        have := not_and.1 hr
        rw [hgrow] at this hnw
        rw [Nat.mod_eq_of_lt hnw] at this
        exact Bool.eq_true_of_not_eq_false (this (by omega))
      have hmax := hl 0 _ ha
      unfold breakMax at hmax
      obtain ⟨m1, hg, ht1, -, -⟩ :=
        growBy_first (h := { s.heap with base := s.heap.lim, top := s.heap.lim }) (c := s.heap.lim)
          rfl rfl (by omega) halign he16 (by omega) (by omega) ha
      have hb1 := none_held (s := s) ht1 (by simp [Block.used]) h3 h4
      obtain ⟨q, m', hserve, -, bs', hi'⟩ := serve hb1 (by simp only; omega) hn hle
        ⟨_, List.mem_singleton_self _, rfl, by simp only; omega⟩
      refine ⟨_, _, fun allow' ha => ?_, served_inv (s := s) (h := ⟨m1, s.heap.lim, _, _⟩) ?_ ?_
        rfl hi', fun hz => by omega, fun x hx => hnone _ x hx, .inr ?_⟩
      · rw [hround, ha, hg]
        exact hserve allow' (2 ^ 64 - 1) 1
      · exact hl 0 _ ‹_›
      · exact Nat.dvd_add halign he16
      · rw [hgrow]

/-- **`malloc`**, when the sums do not wrap and the heap is not left empty by a refused growth. -/
theorem malloc_spec (hi : Inv s) (he : size ≠ 0 → ¬Empty s.heap) (hs : size ≤ 2 ^ 64 - 4112)
    (hw : growTo s.heap size < 2 ^ 64 ∨ Refused s.heap size allow)
    (hl : ∀ k w, allow k w = true → w ≤ breakMax) :
    ∃ h' ptr, (∀ allow' : Nat → Nat → Bool, allow' 0 = allow 0 → malloc allow' s.heap size = .ok (h', ptr)) ∧
      Served s allow size h' ptr := by
  by_cases h0 : size = 0
  · refine ⟨s.heap, 0, fun allow' _ => ?_, ⟨hi, fun _ => .inl h0, fun _ _ _ _ _ => rfl, .inl rfl⟩⟩
    unfold malloc
    rw [if_pos h0]
  · rcases hi.blocks with ⟨h1, -, h3, h4⟩ | ⟨hlim, bs, hb⟩
    · exact malloc_first hi h1 h3 h4 h0 hs hw hl
    · have hbase := hb.tiled.base
      have htop := hb.tiled.top
      exact malloc_blocks hi hb (by have := he h0; unfold Empty at this; omega) hlim h0 hs hw hl

/-! ## Every run -/

/-- The sums of `malloc` do not wrap. -/
def NoWrap (s : Client) : MallocOp → Prop
  | .malloc size allow => size.toNat ≤ 2 ^ 64 - 4112 ∧
      (growTo s.heap size.toNat < 2 ^ 64 ∨ Refused s.heap size.toNat allow)
  | _ => True

/-- `malloc` is not called when the first growth was refused. -/
def Filled (s : Client) : MallocOp → Prop
  | .malloc size _ => size.toNat ≠ 0 → ¬Empty s.heap
  | _ => True

/-- Sizes below 2^63. -/
def Small : MallocOp → Prop
  | .malloc size _ => size.toNat < 2 ^ 63
  | _ => True

theorem start_inv (mem : Mem) {c : Nat} (h16 : 16 ∣ c) (hc : c ≤ breakMax) : Inv (start mem c) :=
  ⟨hc, h16, .inl ⟨rfl, rfl, rfl, nofun⟩⟩

theorem noWrap_of_small (hi : Inv s) {op : MallocOp} (hs : Small op) : NoWrap s op := by
  cases op with
  | malloc size allow =>
    have hlt : size.toNat < 2 ^ 63 := hs
    obtain ⟨-, -, hmod, -, -, -⟩ := growth_spec (show size.toNat ≤ 2 ^ 64 - 4112 by omega)
    refine ⟨by omega, .inl ?_⟩
    have hlim := hi.lim
    have htop : s.heap.top ≤ breakMax := by
      rcases hi.blocks with ⟨-, h2, -⟩ | ⟨h2, -⟩
      · omega
      · omega
    unfold breakMax at hlim htop
    unfold growTo
    rw [hmod]
    have hg : growth (16 + Pmm.alignUp size.toNat 16) < 2 ^ 63 + 8192 := by
      unfold growth Pmm.alignUp heapGrow
      split <;> omega
    split <;> omega
  | free ptr => trivial
  | store a b => trivial

theorem free_spec (hi : Inv s) {ptr : Nat} (hl : s.MayFree ptr) :
    ∃ m', free s.heap ptr = .ok { s.heap with mem := m' } ∧
    Inv (s.gave { s.heap with mem := m' } ptr) ∧ ∀ x ∈ s.live, ∀ a, x.1 ≤ a →
    a < x.1 + s.blockSize x.1 → m' a = s.heap.mem a := by
  rcases hi.blocks with ⟨h1, h2, h3, h4⟩ | ⟨hlim, bs, hb⟩
  · have hz : ptr = 0 := by
      rcases hl with rfl | hl | ⟨hl, -⟩
      · rfl
      · rw [h3] at hl
        cases hl
      · exact h4 ptr hl
    subst hz
    refine ⟨s.heap.mem, ?_,
      ⟨hi.lim, hi.aligned, .inl ⟨h1, h2, by simp [Client.gave, h3], fun p hp => ?_⟩⟩,
      fun _ _ _ _ _ => rfl⟩
    · unfold free Heap.freeBlock
      rw [if_pos (.inl rfl)]
    · rcases List.mem_cons.1 hp with rfl | hp
      · rfl
      · exact h4 p hp
  · obtain ⟨m', hok, hsame, -, hi'⟩ := hb.gave hl
    exact ⟨m', hok, ⟨hi.lim, hi.aligned, .inr ⟨hlim, _, hi'⟩⟩, bytes_of hb hsame⟩

theorem step_inv (hi : Inv s) {op : MallocOp} (hl : Legal s op) (hn : NoWrap s op)
    (hf : Filled s op) : ∃ s', step s op = .ok s' ∧ Inv s' := by
  cases op with
  | malloc size allow =>
    obtain ⟨h', ptr, e, hs⟩ := malloc_spec hi hf hn.1 hn.2 hl
    exact ⟨s.got h' ptr size.toNat, by simp only [step, e allow rfl]; rfl, hs.inv⟩
  | free ptr =>
    obtain ⟨m', e, hi', -⟩ := free_spec hi hl
    exact ⟨s.gave { s.heap with mem := m' } ptr, by simp only [step, e]; rfl, hi'⟩
  | store a b =>
    refine ⟨s.store a b, rfl, hi.lim, hi.aligned, ?_⟩
    rcases hi.blocks with ⟨h1, h2, h3, h4⟩ | ⟨hlim, bs, hb⟩
    · exact .inl ⟨h1, h2, h3, h4⟩
    · exact .inr ⟨hlim, bs, hb.store hl b⟩

theorem Reach.inv {ok : Client → MallocOp → Prop}
    (hok : ∀ s op, Inv s → ok s op → Legal s op ∧ NoWrap s op ∧ Filled s op) {s₀ : Client}
    (h0 : Inv s₀) (h : Reach ok s₀ s) : Inv s := by
  induction h with
  | start => exact h0
  | step op _ hl e ih =>
    obtain ⟨h1, h2, h3⟩ := hok _ _ ih hl
    obtain ⟨s', e', hi⟩ := step_inv ih h1 h2 h3
    rw [e] at e'
    cases e'
    exact hi

/-- Sizes below 2^63 do not wrap. -/
theorem Reach.noWrap {s₀ : Client} (h0 : Inv s₀)
    (h : Reach (fun s op => Legal s op ∧ Small op ∧ Filled s op) s₀ s) :
    Reach (fun s op => Legal s op ∧ NoWrap s op ∧ Filled s op) s₀ s := by
  induction h with
  | start => exact .start
  | step op hr hl e ih =>
    have hi := ih.inv (fun _ _ _ hl => hl) h0
    exact .step op ih ⟨hl.1, noWrap_of_small hi hl.2.1, hl.2.2⟩ e

/-- A break above 0 stays above 0. -/
theorem Reach.lim_pos {ok : Client → MallocOp → Prop}
    (hok : ∀ s op, Inv s → ok s op → Legal s op ∧ NoWrap s op ∧ Filled s op) {s₀ : Client}
    (h0 : Inv s₀) (hpos : 0 < s₀.heap.lim) (h : Reach ok s₀ s) : 0 < s.heap.lim := by
  induction h with
  | start => exact hpos
  | @step s s' op hr hl e ih =>
    have hi := hr.inv hok h0
    obtain ⟨h1, h2, h3⟩ := hok _ _ hi hl
    cases op with
    | malloc size allow =>
      obtain ⟨h', ptr, e', hs⟩ := malloc_spec hi h3 h2.1 h2.2 h1
      simp only [Malloc.step, e' allow rfl] at e
      cases e
      rw [Client.got_heap]
      have hgrow : 0 < growTo s.heap size.toNat := by
        have := (growth_spec h2.1).2.2.2.2
        unfold growTo
        rw [(growth_spec h2.1).2.2.1]
        split <;> omega
      rcases hs.grew with e | e <;> rw [e] <;> assumption
    | free ptr =>
      obtain ⟨m', e', -⟩ := free_spec hi h1
      simp only [Malloc.step, e'] at e
      cases e
      exact ih
    | store a b =>
      cases e
      exact ih

/-- The heap ends at the break, and its blocks tile it. -/
structure Whole (s : Client) : Prop where
  top : s.heap.base ≠ 0 → s.heap.top = s.heap.lim
  blocks : (s.heap.top = s.heap.base ∧ s.live = []) ∨ ∃ l, Client.Sound mallocMagic (fun _ => True) s l

theorem Inv.whole (hi : Inv s) : Whole s := by
  rcases hi.blocks with ⟨h1, h2, h3, -⟩ | ⟨hlim, bs, hb⟩
  · exact ⟨fun hne => absurd h1 hne, .inl ⟨by omega, h3⟩⟩
  · refine ⟨fun _ => hlim.symm, ?_⟩
    have htop := hb.tiled.top
    by_cases hlt : s.heap.base < s.heap.top
    · exact .inr ⟨_, hb.sound hlt⟩
    · refine .inl ⟨by omega, List.eq_nil_iff_forall_not_mem.2 fun x hx => ?_⟩
      obtain ⟨h16, n, hn, -⟩ := hb.owns.block x hx
      obtain ⟨h1, h2⟩ := Block.used_bounds hn
      omega

/-- **`malloc` keeps live blocks intact**, in every run in which it is not called after a refused
first growth: the blocks tile the heap up to the break, what was returned lies apart in it, no call
changes a byte that is held, `malloc` returns after asking for one new break at most, and returns 0
for a positive size only when it does not get it. -/
theorem malloc_intact (mem : Mem) {c : Nat} (h0 : 0 < c) (h16 : 16 ∣ c) (hc : c ≤ breakMax)
    (h : Reach (fun s op => Legal s op ∧ Small op ∧ Filled s op) (start mem c) s) :
    Whole s ∧
      (∀ (size : UInt64) allow, Legal s (.malloc size allow) → size.toNat < 2 ^ 63 →
      Filled s (.malloc size allow) → ∃ h' ptr,
        (∀ allow' : Nat → Nat → Bool, allow' 0 = allow 0 → malloc allow' s.heap size.toNat = .ok (h', ptr)) ∧
          (ptr = 0 → size.toNat = 0 ∨ Refused s.heap size.toNat allow) ∧
          (∀ x ∈ s.live, ∀ a, x.1 ≤ a → a < x.1 + s.blockSize x.1 → h'.mem a = s.heap.mem a) ∧
          (h'.lim = s.heap.lim ∨ h'.lim = growTo s.heap size.toNat)) ∧
      ∀ ptr, s.MayFree ptr → ∃ h', free s.heap ptr = .ok h' ∧
        ∀ x ∈ s.live, ∀ a, x.1 ≤ a → a < x.1 + s.blockSize x.1 → h'.mem a = s.heap.mem a := by
  have hok : ∀ s op, Inv s → Legal s op ∧ Small op ∧ Filled s op → Legal s op ∧ NoWrap s op ∧ Filled s op :=
    fun s op hi hl => ⟨hl.1, noWrap_of_small hi hl.2.1, hl.2.2⟩
  have hi := h.inv hok (start_inv mem h16 hc)
  have hpos := h.lim_pos hok (start_inv mem h16 hc) h0
  refine ⟨hi.whole, fun size allow hl hs hf => ?_, fun ptr hl => ?_⟩
  · have hn := noWrap_of_small hi (show Small (.malloc size allow) from hs)
    obtain ⟨h', ptr, e, hs⟩ := malloc_spec hi hf hn.1 hn.2 hl
    refine ⟨h', ptr, e, fun hz => ?_, hs.bytes, hs.grew⟩
    rcases hs.zero hz with h | h | h
    · exact .inl h
    · omega
    · exact .inr h
  · obtain ⟨m', e, -, hbytes⟩ := free_spec hi hl
    exact ⟨_, e, hbytes⟩

/-- A program with its break at 0x401000, before its first call. -/
def fresh : Client := start (fun _ => 0) 0x401000

/-- The kernel's answer to any break below 0x411000. -/
def grants (_ w : Nat) : Bool := decide (w ≤ 0x411000)

theorem grants_user (s : Client) (size : UInt64) : Legal s (.malloc size grants) := by
  intro k w hw
  have := of_decide_eq_true hw
  unfold breakMax
  omega

/-- `brk` answers this call with user addresses. -/
def Granted : MallocOp → Prop
  | .malloc _ allow => ∀ k w, allow k w = true → w ≤ breakMax
  | _ => True

/-- What else a call has to meet. -/
def Sane (s : Client) : MallocOp → Prop
  | .malloc size _ => size.toNat < 2 ^ 63 ∧ (size.toNat ≠ 0 → ¬Empty s.heap)
  | .free ptr => s.MayFree ptr
  | .store a _ => s.MayStore a

instance (s : Client) : ∀ op, Decidable (Sane s op)
  | .malloc _ _ => inferInstanceAs (Decidable (_ ∧ _))
  | .free ptr => inferInstanceAs (Decidable (s.MayFree ptr))
  | .store a _ => inferInstanceAs (Decidable (s.MayStore a))

/-- The run of a list of calls; `none` when one of them is not sane or does not return. -/
def run : List MallocOp → Client → Option Client
  | [], s => some s
  | op :: ops, s =>
    if Sane s op then
      match step s op with
      | .ok s => run ops s
      | .error _ => none
    else none

theorem run_reach {s₀ : Client} : ∀ {ops : List MallocOp} {s s' : Client}, (∀ op ∈ ops, Granted op) →
    Reach (fun s op => Legal s op ∧ Small op ∧ Filled s op) s₀ s → run ops s = some s' →
    Reach (fun s op => Legal s op ∧ Small op ∧ Filled s op) s₀ s'
  | [], _, _, _, h, e => by
    cases e
    exact h
  | op :: ops, s, _, hg, h, e => by
    obtain ⟨hop, hops⟩ := List.forall_mem_cons.1 hg
    rw [run] at e
    split at e
    · rename_i hl
      have hok : Legal s op ∧ Small op ∧ Filled s op := by
        cases op with
        | malloc size allow => exact ⟨hop, hl.1, hl.2⟩
        | free ptr => exact ⟨hl, trivial, trivial⟩
        | store a b => exact ⟨hl, trivial, trivial⟩
      split at e
      · rename_i s1 e1
        exact run_reach hops (.step op h hok e1) e
      · cases e
    · cases e

/-- A block, one that makes the heap grow, a store into it, the first freed and a smaller one in its place. -/
def mixedCalls : List MallocOp :=
  [.malloc 100 grants, .malloc 5000 grants, .store 0x401090 7, .free 0x401010, .malloc 40 grants]

theorem mixedCalls_granted : ∀ op ∈ mixedCalls, Granted op := by
  simp only [mixedCalls, List.forall_mem_cons, List.not_mem_nil, false_imp_iff, implies_true, and_true]
  exact ⟨grants_user fresh 100, grants_user fresh 5000, trivial, trivial, grants_user fresh 40⟩

theorem mixedCalls_run : ((run mixedCalls fresh).map fun s =>
    (s.live, s.heap.base, s.heap.top, (malloc grants s.heap 0x20000).toOption.map Prod.snd,
      (malloc grants s.heap 0x8000).toOption.map Prod.snd)) =
      some ([(0x401010, 40), (0x401090, 5000)], 0x401000, 0x404000, some 0, some 0x402430) := by
  decide +kernel

/-- A call after these blocks finds the heap whole and not empty. -/
theorem mixedCalls_reach : ∃ s, Reach (fun s op => Legal s op ∧ Small op ∧ Filled s op) fresh s ∧
    s.live = [(0x401010, 40), (0x401090, 5000)] ∧ (∀ op, Filled s op) ∧
    (malloc grants s.heap 0x20000).toOption.map Prod.snd = some 0 ∧
    (malloc grants s.heap 0x8000).toOption.map Prod.snd = some 0x402430 := by
  obtain ⟨s, hrun, e⟩ := Option.map_eq_some_iff.1 mixedCalls_run
  simp only [Prod.mk.injEq] at e
  obtain ⟨hlive, hbase, htop, hno, hyes⟩ := e
  refine ⟨s, run_reach mixedCalls_granted .start hrun, hlive, fun op => ?_, hno, hyes⟩
  cases op with
  | malloc size allow =>
    intro _ hempty
    have := hempty.2
    rw [hbase, htop] at this
    cases this
  | free ptr => trivial
  | store a b => trivial

theorem malloc_intact_fresh :
    (0 : Nat) < 0x401000 ∧ (16 : Nat) ∣ 0x401000 ∧ (0x401000 : Nat) ≤ breakMax ∧
    ∃ s h', Reach (fun s op => Legal s op ∧ Small op ∧ Filled s op) fresh s ∧
    s.live = [(0x401010, 40), (0x401090, 5000)] ∧
      Whole s ∧ malloc grants s.heap 0x20000 = .ok (h', 0) ∧ Refused s.heap 0x20000 grants ∧
      ∀ x ∈ s.live, ∀ a, x.1 ≤ a → a < x.1 + s.blockSize x.1 → h'.mem a = s.heap.mem a := by
  obtain ⟨s, hreach, hlive, hfilled, hno, -⟩ := mixedCalls_reach
  obtain ⟨hwhole, hmalloc, -⟩ := malloc_intact (fun _ => 0) (by decide) (by decide) (by decide) hreach
  obtain ⟨h', ptr, hcall, hzero, hbytes, -⟩ := hmalloc 0x20000 grants (grants_user s 0x20000)
    (by decide) (hfilled _)
  have hcall := hcall grants rfl
  rw [show (0x20000 : UInt64).toNat = 0x20000 from rfl] at hcall hzero
  rw [hcall] at hno
  cases hno
  exact ⟨by decide, by decide, by decide, s, h', hreach, hlive, hwhole, hcall,
    (hzero rfl).resolve_left (by decide), hbytes⟩

theorem refused_run :
    (step fresh (.malloc 16 fun _ _ => false)).toOption.map
    (fun s => (malloc grants s.heap 16).toOption.isNone) =
    some true := by decide +kernel

/-- After a refused first growth the next `malloc` reads a header at the break, and never asks `brk`. -/
theorem refused_stuck :
    ¬∀ s, Reach (fun s op => Legal s op ∧ Small op) fresh s → ∀ (size : UInt64) allow,
    Legal s (.malloc size allow) → size.toNat < 2 ^ 63 → ∃ h' ptr, malloc allow s.heap size.toNat =
    .ok (h', ptr) := by
  intro h
  obtain ⟨s, hs, hnone⟩ := Option.map_eq_some_iff.1 refused_run
  have hstep : step fresh (.malloc 16 fun _ _ => false) = .ok s := by
    cases e : step fresh (.malloc 16 fun _ _ => false) with
    | error e' =>
      rw [e] at hs
      cases hs
    | ok s' =>
      rw [e] at hs
      cases hs
      rfl
  have hreach : Reach (fun s op => Legal s op ∧ Small op) fresh s :=
    .step (.malloc 16 fun _ _ => false) .start ⟨nofun, show (16 : UInt64).toNat < 2 ^ 63 by decide⟩ hstep
  obtain ⟨h', ptr, e⟩ := h s hreach 16 grants (grants_user s 16) (by decide)
  rw [show malloc grants s.heap 16 = .ok (h', ptr) from e] at hnone
  cases hnone

/-- **`malloc` at the limits**: in every run whose sums do not wrap it returns 0 or a block of the
heap that holds `size` bytes, and the heap is whole before and after. -/
theorem malloc_limits (mem : Mem) {c : Nat} (h16 : 16 ∣ c) (hc : c ≤ breakMax)
    (h : Reach (fun s op => Legal s op ∧ NoWrap s op ∧ Filled s op) (start mem c) s) :
    Whole s ∧ ∀ (size : UInt64) allow, Legal s (.malloc size allow) →
    NoWrap s (.malloc size allow) → Filled s (.malloc size allow) →
      ∃ h' ptr, malloc allow s.heap size.toNat = .ok (h', ptr) ∧ Whole (s.got h' ptr size.toNat) ∧
        (ptr = 0 ∨ (h'.base + 16 ≤ ptr ∧ size.toNat ≤ rd64 h'.mem (ptr - 16 + 8) ∧
        ptr + rd64 h'.mem (ptr - 16 + 8) ≤ h'.top)) := by
  have hi := h.inv (fun s op _ hl => hl) (start_inv mem h16 hc)
  refine ⟨hi.whole, fun size allow hl hn hf => ?_⟩
  obtain ⟨h', ptr, e, hs⟩ := malloc_spec hi hf hn.1 hn.2 hl
  refine ⟨h', ptr, e allow rfl, hs.inv.whole, ?_⟩
  by_cases h0 : ptr = 0
  · exact .inl h0
  · have hlive : (ptr, size.toNat) ∈ (s.got h' ptr size.toNat).live := by
      unfold Client.got
      rw [if_neg h0]
      exact List.mem_cons_self
    rcases hs.inv.whole.blocks with ⟨-, hnone⟩ | ⟨l, hsound⟩
    · rw [hnone] at hlive
      cases hlive
    · obtain ⟨-, -, h1, h2, h3⟩ := hsound.live _ hlive
      unfold Client.blockSize at h2 h3
      rw [Client.got_heap] at h1 h2 h3
      exact .inr ⟨h1, h3 trivial, h2⟩

theorem malloc_limits_fresh : (16 : Nat) ∣ 0x401000 ∧ (0x401000 : Nat) ≤ breakMax ∧
    ∃ s h', Reach (fun s op => Legal s op ∧ NoWrap s op ∧ Filled s op) fresh s ∧
      s.live = [(0x401010, 40), (0x401090, 5000)] ∧ malloc grants s.heap 0x8000 = .ok (h', 0x402430) ∧
      Whole (s.got h' 0x402430 0x8000) ∧ 0x8000 ≤ rd64 h'.mem 0x402428 ∧
      0x402430 + rd64 h'.mem 0x402428 ≤ h'.top := by
  obtain ⟨s, hreach, hlive, hfilled, -, hyes⟩ := mixedCalls_reach
  have h0 : Inv fresh := start_inv (fun _ => 0) (by decide) (by decide)
  have hreach := hreach.noWrap h0
  have hsmall : Small (.malloc 0x8000 grants) := show (0x8000 : UInt64).toNat < 2 ^ 63 by decide
  have hfits := noWrap_of_small (hreach.inv (fun _ _ _ hl => hl) h0) hsmall
  obtain ⟨-, hmalloc⟩ := malloc_limits (fun _ => 0) (by decide) (by decide) hreach
  obtain ⟨h', ptr, hcall, hwhole, hblock⟩ := hmalloc 0x8000 grants (grants_user s 0x8000) hfits (hfilled _)
  rw [show (0x8000 : UInt64).toNat = 0x8000 from rfl] at hcall hwhole hblock
  rw [hcall] at hyes
  cases hyes
  obtain ⟨-, hsize, hend⟩ := hblock.resolve_left (by decide)
  exact ⟨by decide, by decide, s, h', hreach, hlive, hcall, hwhole, hsize, hend⟩

theorem largest_run :
    (malloc grants fresh.heap (2 ^ 64 - 1)).toOption.map
    (fun r => (r.2, rd64 r.1.mem (r.2 - 16 + 8))) =
    some (0x401010, 0) := by decide +kernel

/-- `malloc(2^64 - 1)` is a block of no bytes. -/
theorem largest_wraps :
    ¬∀ s, Reach Legal fresh s → ∀ (size : UInt64) allow, Legal s (.malloc size allow) → ∃ h' ptr,
    malloc allow s.heap size.toNat = .ok (h', ptr) ∧
    (ptr = 0 ∨ size.toNat ≤ rd64 h'.mem (ptr - 16 + 8)) := by
  intro h
  obtain ⟨h', ptr, e, hp⟩ := h fresh .start 0xFFFFFFFFFFFFFFFF grants (grants_user _ _)
  have hsize : (0xFFFFFFFFFFFFFFFF : UInt64).toNat = 2 ^ 64 - 1 := rfl
  rw [hsize] at e hp
  have hrun := largest_run
  rw [e] at hrun
  obtain ⟨h1, h2⟩ := Prod.mk.inj (Option.some.inj hrun)
  simp only at h1 h2
  rw [h2, h1] at hp
  exact absurd hp (by decide)

end Malloc

end VampireOS
