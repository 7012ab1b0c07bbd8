import VampireOS.Memory.Clients
import VampireOS.Memory.Hhdm

/-!
# The kernel heap (heap.c)

| here | there |
| --- | --- |
| `kheapPages`, `kheapInit` | `kheap_init` |
| `kmalloc`, `kfree` | `kmalloc`, `kfree` |
| `Kheap` | the callers of `kmalloc` and `kfree`, from boot on |

Memory is indexed by the kernel's addresses here, so all of it is mapped. `kheap_print` only calls
`kmalloc` and `kfree`.
-/

namespace VampireOS

open Lib

/-- `HEAP_MAGIC` of heap.c. -/
def kheapMagic : Nat := 0x48454150

/-- `HEAP_MIN_PHYS`. -/
def heapMinPhys : Nat := 0x200000

/-- `phys_to_virt`. -/
def physToVirt (hhdmReady : Bool) (phys : Nat) : Nat := if hhdmReady then (hhdmBase + phys) % 2 ^ 64 else phys

/-- The loop of `kheap_init` from `i` on: `n`, `pages[0]` and the allocator afterwards. -/
def kheapPages : Nat → Nat → Nat → Pmm → Nat × Nat × Pmm
  | 0, i, first, p => (i, first, p)
  | k + 1, i, first, p =>
    match pmmAllocAbove p heapMinPhys with
    | (page, p) =>
      if page = 0 then (i, first, p)
      else if i > 0 ∧ page ≠ first + i * pageSize then (i, first, pmmFree p page)
      else kheapPages k (i + 1) (if i = 0 then page else first) p

def kheapInit (pmm : Pmm) (mem : Mem) (hhdmReady : Bool) : Pmm × Heap :=
  match kheapPages 2 0 0 pmm with
  | (n, first, pmm) =>
    if n = 0 then (pmm, ⟨mem, 0, 0, 2 ^ 64⟩)
    else
      let base := physToVirt hhdmReady first
      let top := base + n * pageSize
      (pmm, ⟨wr64 (wr32 (wr32 mem base kheapMagic) (base + 4) 1) (base + 8) (top - base - 16), base,
        top, 2 ^ 64⟩)

/-- The loop of `kmalloc` has fuel for every block that fits into the heap. -/
def kmalloc (h : Heap) (size : Nat) : Except Stop (Heap × Nat) :=
  if h.base = 0 ∨ size = 0 then .ok (h, 0)
  else
    match Heap.firstFit kheapMagic (Pmm.alignUp size 16) ((h.top - h.base) / 16 + 1) h h.base with
    | .error e => .error e
    | .ok (h, .block p) => .ok (h, p)
    | .ok (h, _) => .ok (h, 0)

def kfree (h : Heap) (ptr : Nat) : Except Stop Heap := Heap.freeBlock kheapMagic h ptr

/-! ## Runs -/

inductive KheapOp where
  | kmalloc (size : UInt64)
  | kfree (ptr : Nat)
  | store (a : Nat) (b : UInt8)

namespace Kheap

def start (pmm : Pmm) (mem : Mem) (hhdmReady : Bool) : Client :=
  ⟨(kheapInit pmm mem hhdmReady).2, [], [], false⟩

def step (s : Client) : KheapOp → Except Stop Client
  | .kmalloc size => (kmalloc s.heap size.toNat).map fun r => s.got r.1 r.2 size.toNat
  | .kfree ptr => (kfree s.heap ptr).map fun h => s.gave h ptr
  | .store a b => .ok (s.store a b)

/-- Callers free what they were given and store into what they hold. -/
def Legal (s : Client) : KheapOp → Prop
  | .kmalloc _ => True
  | .kfree ptr => s.MayFree ptr
  | .store a _ => s.MayStore a

/-- The states of a run whose steps are all `ok`. -/
inductive Reach (ok : Client → KheapOp → Prop) (s₀ : Client) : Client → Prop where
  | start : Reach ok s₀ s₀
  | step {s s' : Client} (op : KheapOp) (h : Reach ok s₀ s) (hl : ok s op)
      (e : step s op = .ok s') : Reach ok s₀ s'

instance (s : Client) : ∀ op, Decidable (Legal s op)
  | .kmalloc _ => .isTrue trivial
  | .kfree ptr => inferInstanceAs (Decidable (s.MayFree ptr))
  | .store a _ => inferInstanceAs (Decidable (s.MayStore a))

/-- The run of a list of calls; `none` when one of them is not `ok` or does not return. -/
def run (ok : Client → KheapOp → Prop) [∀ s op, Decidable (ok s op)] : List KheapOp → Client → Option Client
  | [], s => some s
  | op :: ops, s =>
    if ok s op then
      match step s op with
      | .ok s => run ok ops s
      | .error _ => none
    else none

theorem run_reach {ok : Client → KheapOp → Prop} [∀ s op, Decidable (ok s op)] {s₀ : Client} :
    ∀ {ops : List KheapOp} {s s' : Client}, Reach ok s₀ s → run ok ops s = some s' → Reach ok s₀ s'
  | [], _, _, h, e => by
    cases e
    exact h
  | op :: ops, s, _, h, e => by
    rw [run] at e
    split at e
    · rename_i hl
      split at e
      · rename_i s1 e1
        exact run_reach (.step op h hl e1) e
      · cases e
    · cases e

theorem Reach.mono {ok ok' : Client → KheapOp → Prop} (hok : ∀ s op, ok s op → ok' s op)
    {s₀ s : Client} (h : Reach ok s₀ s) :
    Reach ok' s₀ s := by
  induction h with
  | start => exact .start
  | step op _ hl e ih => exact .step op ih (hok _ _ hl) e

end Kheap

/-! ## The start -/

theorem kheapPages_spec {pmm : Pmm} (hp : pmm.Ok) : ∃ n first pmm', kheapPages 2 0 0 pmm = (n, first, pmm') ∧
    (n = 0 ∨ (0 < n ∧ n ≤ 2 ∧ 0 < first ∧ first % pageSize = 0 ∧ first < 2 ^ 39)) := by
  unfold kheapPages
  rcases hr : pmmAllocAbove pmm heapMinPhys with ⟨page, p⟩
  simp only
  have hspec := pmm.allocFrame_spec hp (Pmm.alignUp heapMinPhys pageSize / pageSize)
  rw [show pmm.allocFrame (Pmm.alignUp heapMinPhys pageSize / pageSize) = (page, p) from hr] at hspec
  by_cases h0 : page = 0
  · rw [if_pos h0]
    exact ⟨_, _, _, rfl, .inl rfl⟩
  · rw [if_neg h0, if_neg (by omega)]
    obtain ⟨-, ht⟩ := hspec.resolve_left fun e => h0 (congrArg Prod.fst e)
    have hpage := ht.page
    have hbelow := ht.below
    have hroom := hp.room
    have hfirst : 0 < page ∧ page % pageSize = 0 ∧ page < 2 ^ 39 := by
      unfold Page pageSize at *
      simp only at hpage hbelow
      omega
    simp only [if_true]
    unfold kheapPages
    rcases pmmAllocAbove p heapMinPhys with ⟨page2, p2⟩
    simp only
    split
    · exact ⟨_, _, _, rfl, .inr ⟨by omega, by omega, hfirst⟩⟩
    · split
      · exact ⟨_, _, _, rfl, .inr ⟨by omega, by omega, hfirst⟩⟩
      · exact ⟨_, _, _, rfl, .inr ⟨by omega, by omega, by simpa using hfirst⟩⟩

theorem physToVirt_spec (hhdmReady : Bool) {phys : Nat} (h0 : 0 < phys) (ha : phys % pageSize = 0)
    (hlt : phys < 2 ^ 39) :
    0 < physToVirt hhdmReady phys ∧ 16 ∣ physToVirt hhdmReady phys ∧ physToVirt hhdmReady phys + 2 *
    pageSize + 16 < 2 ^ 64 := by
  unfold physToVirt pageSize at *
  split
  · unfold hhdmBase
    omega
  · omega

/-- After `kheap_init` the heap is empty, or one free block. -/
theorem kheapInit_spec {pmm : Pmm} (hp : pmm.Ok) (mem : Mem) (hhdmReady : Bool) :
    ((kheapInit pmm mem hhdmReady).2.base = 0 ∧ (kheapInit pmm mem hhdmReady).2.top = 0) ∨
      ∃ size, Tiled kheapMagic (kheapInit pmm mem hhdmReady).2 [⟨size, true⟩] := by
  obtain ⟨n, first, pmm', e, hn⟩ := kheapPages_spec hp
  unfold kheapInit
  rw [e]
  simp only
  by_cases h0 : n = 0
  · rw [if_pos h0]
    exact .inl ⟨rfl, rfl⟩
  · rw [if_neg h0]
    obtain ⟨h1, h2, hf1, hf2, hf3⟩ := hn.resolve_left h0
    obtain ⟨hb1, hb2, hb3⟩ := physToVirt_spec hhdmReady hf1 hf2 hf3
    generalize physToVirt hhdmReady first = base at hb1 hb2 hb3
    have hsize : base + n * pageSize - base - 16 = n * pageSize - 16 := by omega
    unfold pageSize at *
    refine .inr ⟨n * 0x1000 - 16, ⟨?_, ?_, ?_, ?_, hb1, hb2, ?_, ?_⟩⟩
    · simp only [hsize]
      exact ⟨headerIs_new mem base _ (by decide) (by omega), trivial⟩
    · simp only [Block.span]
      omega
    · intro b hb
      rw [List.mem_singleton.1 hb]
      simp only
      omega
    · rw [Block.tail_singleton]
      simp only
      omega
    · simp only
      omega
    · simp only
      omega

/-! ## Calls -/

theorem alignUp_spec {size : Nat} (hs : size < 2 ^ 64) :
    16 ∣ Pmm.alignUp size 16 ∧ Pmm.alignUp size 16 < 2 ^ 64 ∧
    (size ≤ 2 ^ 64 - 16 → size ≤ Pmm.alignUp size 16 ∧ Pmm.alignUp size 16 < size + 16) := by
  unfold Pmm.alignUp
  omega

namespace Kheap

/-- What fits into the heap. -/
def InHeap (h : Heap) (size : Nat) : Prop := size ≤ h.top - h.base

variable {s s' : Client} {bs : List Block}

/-- `kmalloc` returns 0 and changes nothing, or it gives out the first block that fits. -/
theorem kmalloc_spec (hi : Client.Inv kheapMagic (InHeap s.heap) s bs)
    (hlt : s.heap.base < s.heap.top) {size : Nat} (hs : size < 2 ^ 64) :
    (kmalloc s.heap size = .ok (s.heap, 0) ∧
    (size = 0 ∨ Block.take 16 32 (Pmm.alignUp size 16) s.heap.base bs = none)) ∨
      ∃ q bs' m', size ≠ 0 ∧ Block.take 16 32 (Pmm.alignUp size 16) s.heap.base bs = some (q, bs') ∧
        kmalloc s.heap size = .ok ({ s.heap with mem := m' }, q + 16) ∧
        SameBytes s.heap.base bs s.heap.mem m' ∧
        Client.Inv kheapMagic (InHeap s.heap) (s.got { s.heap with mem := m' } (q + 16) size) bs' := by
  obtain ⟨halign, -, hup⟩ := alignUp_spec hs
  have hbase := hi.tiled.base
  have htop := hi.tiled.top
  have hbound := hi.tiled.bounded
  have hlen := Block.length_le_span (w := 16) bs
  unfold kmalloc
  by_cases h0 : size = 0
  · rw [if_pos (.inr h0)]
    exact .inl ⟨rfl, .inl h0⟩
  · rw [if_neg (by omega)]
    have hfit := hi.tiled.firstFit (by decide) halign ((s.heap.top - s.heap.base) / 16 + 1) (by omega)
    rw [hi.tiled.first hlt] at hfit
    rcases hfit with ⟨e, hf⟩ | ⟨q, bs', m', e, hf, ht, -, hsame, hstay⟩
    · rw [hf]
      exact .inl ⟨rfl, .inr e⟩
    · rw [hf]
      refine .inr ⟨q, bs', m', h0, e, rfl, hsame, hi.got e ht hstay fun hP => (hup ?_).1⟩
      unfold InHeap at hP
      omega

/-- In every state of a run: there was no memory, or the headers say blocks. -/
def Inv (s : Client) : Prop :=
  (s.heap.base = 0 ∧ s.heap.top = 0 ∧ s.live = [] ∧ ∀ ptr ∈ s.freed, ptr = 0) ∨
    (s.heap.base < s.heap.top ∧ ∃ bs, Client.Inv kheapMagic (InHeap s.heap) s bs)

theorem start_inv {pmm : Pmm} (hp : pmm.Ok) (mem : Mem) (hhdmReady : Bool) :
    Inv (start pmm mem hhdmReady) := by
  rcases kheapInit_spec hp mem hhdmReady with ⟨h1, h2⟩ | ⟨size, ht⟩
  · exact .inl ⟨h1, h2, rfl, nofun⟩
  · refine .inr ⟨?_, _, ht, ⟨nofun, fun x hx => ?_, List.nodup_nil⟩, fun _ => nofun⟩
    · have htop := ht.top
      simp only [Block.span] at htop
      simp only [start]
      omega
    · simp [Block.used] at hx

/-- The call does not free a block behind a free one. -/
def BeforeUsed (s : Client) : KheapOp → Prop
  | .kfree ptr => ptr ∈ s.live.map Prod.fst → ∀ l, Visits s.heap s.heap.base l → ∀ b ∈ l,
      s.heap.nextBlock b (rd64 s.heap.mem (b + 8)) = ptr - 16 → rd32 s.heap.mem (b + 4) = 0
  | _ => True

theorem BeforeUsed.block (hi : Client.Inv kheapMagic (InHeap s.heap) s bs)
    (hlt : s.heap.base < s.heap.top) {ptr n : Nat}
    (hn : (ptr - 16, n) ∈ Block.used 16 s.heap.base bs) (hu : BeforeUsed s (.kfree ptr)) :
    ∀ l b r, bs = l ++ b :: r → ptr - 16 = s.heap.base + Block.span 16 (l ++ [b]) →
    b.free = false := by
  rintro l b r rfl hq
  have hle := (Block.used_bounds hn).1
  have hptr : ptr ∈ s.live.map Prod.fst := by
    have := hi.owns.held _ hn
    have hbase := hi.tiled.base
    rwa [show ptr - 16 + 16 = ptr by simp only at hle; omega] at this
  obtain ⟨hv, -, -⟩ := hi.tiled.visits
  rw [hi.tiled.first hlt] at hv
  have hroom := hi.tiled.room
  have hend := (Block.used_bounds hn).2
  have htop := hi.tiled.top
  rw [Block.span_append, Block.span, Block.span] at hq
  have hfree := hu hptr _ hv _ (mem_addrs.2 ⟨l, b, r, rfl, rfl⟩)
  rw [hi.tiled.header.size, hi.tiled.header.free, hi.tiled.nextBlock] at hfree
  cases r with
  | nil =>
    simp only [Block.span] at hroom
    simp only at hend
    omega
  | cons c r =>
    rw [firstPtr_cons] at hfree
    have := hfree (by omega)
    cases hf : b.free with
    | false => rfl
    | true => simp [hf] at this

/-- Every legal call returns, and keeps the blocks. -/
theorem step_blocks (hi : Client.Inv kheapMagic (InHeap s.heap) s bs)
    (hlt : s.heap.base < s.heap.top) {op : KheapOp} (hl : Legal s op) :
    ∃ s' bs', step s op = .ok s' ∧ s'.heap.base = s.heap.base ∧ s'.heap.top = s.heap.top ∧
      Client.Inv kheapMagic (InHeap s'.heap) s' bs' ∧
      (Block.Separate bs → BeforeUsed s op → Block.Separate bs') := by
  cases op with
  | kmalloc size =>
    rcases kmalloc_spec hi hlt size.toNat_lt with ⟨e, -⟩ | ⟨q, bs', m', -, htake, hok, -, hi'⟩
    · exact ⟨s, bs, by simp only [step, e]; rfl, rfl, rfl, hi, fun h _ => h⟩
    · refine ⟨s.got { s.heap with mem := m' } (q + 16) size.toNat, bs', by simp only [step, hok]; rfl, ?_⟩
      rw [Client.got_heap]
      exact ⟨rfl, rfl, hi', fun h _ => h.take htake⟩
  | kfree ptr =>
    obtain ⟨m', hok, -, -, hi'⟩ := hi.gave hl
    refine ⟨s.gave { s.heap with mem := m' } ptr, _, by simp only [step, kfree, hok]; rfl, rfl, rfl,
      hi', fun h hu => ?_⟩
    by_cases hn : ∃ n, (ptr - 16, n) ∈ Block.used 16 s.heap.base bs
    · obtain ⟨n, hn⟩ := hn
      exact h.release (by omega) (hu.block hi hlt hn)
    · rwa [Block.release_eq_self (not_exists.1 hn)]
  | store a b => exact ⟨s.store a b, bs, rfl, rfl, rfl, hi.store hl b, fun h _ => h⟩

/-- Without memory nothing is ever returned. -/
theorem step_empty (h1 : s.heap.base = 0) (h3 : s.live = []) (h4 : ∀ ptr ∈ s.freed, ptr = 0)
    {op : KheapOp} (hl : Legal s op) :
    ∃ s', step s op = .ok s' ∧ s'.heap = s.heap ∧ s'.live = [] ∧ ∀ ptr ∈ s'.freed, ptr = 0 := by
  cases op with
  | kmalloc size =>
    refine ⟨s, ?_, rfl, h3, h4⟩
    simp only [step, kmalloc, h1, true_or, if_true]
    rfl
  | kfree ptr =>
    have hz : ptr = 0 := by
      rcases hl with rfl | hl | ⟨hl, -⟩
      · rfl
      · rw [h3] at hl
        cases hl
      · exact h4 ptr hl
    subst hz
    refine ⟨s.gave s.heap 0, ?_, rfl, by simp [Client.gave, h3], fun ptr hp => ?_⟩
    · simp only [step, kfree, Heap.freeBlock, true_or, if_true]
      rfl
    · rcases List.mem_cons.1 hp with rfl | hp
      · rfl
      · exact h4 ptr hp
  | store a b =>
    obtain ⟨x, hx, -⟩ := hl
    rw [h3] at hx
    cases hx

theorem step_inv (hi : Inv s) {op : KheapOp} (hl : Legal s op) : ∃ s', step s op = .ok s' ∧ Inv s' := by
  rcases hi with ⟨h1, h2, h3, h4⟩ | ⟨hlt, bs, hi⟩
  · obtain ⟨s', e, hh, g3, g4⟩ := step_empty h1 h3 h4 hl
    exact ⟨s', e, .inl ⟨by rw [hh, h1], by rw [hh, h2], g3, g4⟩⟩
  · obtain ⟨s', bs', e, hb, ht, hi', -⟩ := step_blocks hi hlt hl
    exact ⟨s', e, .inr ⟨by omega, bs', hi'⟩⟩

theorem Reach.inv {ok : Client → KheapOp → Prop} (hok : ∀ s op, ok s op → Legal s op) {s₀ : Client}
    (h0 : Inv s₀) (h : Reach ok s₀ s) : Inv s := by
  induction h with
  | start => exact h0
  | step op _ hl e ih =>
    obtain ⟨s', e', hi⟩ := step_inv ih (hok _ _ hl)
    rw [e] at e'
    cases e'
    exact hi

/-! ## The heap is a tiling -/

/-- **The kernel heap is always a tiling**: in every state of a run the walk ends at `heap_end`,
what was returned lies apart in the heap, every call returns, `kmalloc(0)` is 0, and `kmalloc` fails
for a positive size that the heap could hold only when no free block is large enough. -/
theorem kheap_tiles {pmm : Pmm} (hp : pmm.Ok) (mem : Mem) (hhdmReady : Bool)
    (h : Reach Legal (start pmm mem hhdmReady) s) :
    ∃ l, Client.Sound kheapMagic (InHeap s.heap) s l ∧ (∀ op, Legal s op → ∃ s', step s op = .ok s') ∧
      kmalloc s.heap 0 = .ok (s.heap, 0) ∧ ∀ size : UInt64, size ≠ 0 → InHeap s.heap size.toNat →
      ∀ h', kmalloc s.heap size.toNat = .ok (h', 0) →
        ∀ b ∈ l, rd32 s.heap.mem (b + 4) ≠ 0 → rd64 s.heap.mem (b + 8) < size.toNat := by
  have hinv := h.inv (fun _ _ hl => hl) (start_inv hp mem hhdmReady)
  have hreturns : ∀ op, Legal s op → ∃ s', step s op = .ok s' :=
    fun op hl => (step_inv hinv hl).imp fun _ h => h.1
  have hzero : kmalloc s.heap 0 = .ok (s.heap, 0) := if_pos (.inr rfl)
  rcases hinv with ⟨h1, h2, h3, -⟩ | ⟨hlt, bs, hi⟩
  · refine ⟨[], ⟨?_, nofun, ?_, ?_, ?_⟩, hreturns, hzero, fun _ _ _ _ _ => nofun⟩
    · rw [h1]
      exact .nil
    · rw [h1, h2]
      rfl
    · rw [h3]
      exact nofun
    · rw [h3]
      exact .nil
  · refine ⟨_, hi.sound hlt, hreturns, hzero, fun size hpos hfits h' e a ha hfree => ?_⟩
    obtain ⟨b, hb, hbf, hbs⟩ := hi.block_at ha
    obtain ⟨halign, -, hup⟩ := alignUp_spec size.toNat_lt
    have hbound := hi.tiled.bounded
    have hdvd := hi.tiled.sizes b hb
    rcases kmalloc_spec hi hlt size.toNat_lt with ⟨-, hz | hnone⟩ | ⟨q, bs', m', -, -, hok, -⟩
    · exact absurd (UInt64.toNat_inj.1 hz) hpos
    · have hno := Block.take_eq_none.1 hnone b hb
      have hbfree : b.free = true := by
        cases hf : b.free with
        | true => rfl
        | false => simp [hbf, hf] at hfree
      have hlow : ¬Pmm.alignUp size.toNat 16 ≤ b.size := fun hc => hno ⟨hbfree, hc⟩
      obtain ⟨hup1, hup2⟩ := hup (by unfold InHeap at hfits; omega)
      rw [hbs]
      omega
    · rw [hok] at e
      cases e

/-- Frames above 2 MiB are free. -/
def smallPmm : Pmm := ⟨fun f => decide (f < 0x200), 0x210, 0x10, 0x200000, 0x126000⟩

theorem smallPmm_ok : smallPmm.Ok where
  reserved f _ h := by
    simp only [smallPmm, pageSize] at h ⊢
    exact decide_eq_true (by omega)
  low _ := by decide
  room := by decide
  bitmap _ := by decide

/-- Three blocks, a store into the second, the first freed, and a smaller block in its place. -/
def mixedCalls : List KheapOp :=
  [.kmalloc 100, .kmalloc 16, .kmalloc 3000, .store 0xFFFF800000200090 7, .kfree 0xFFFF800000200010,
    .kmalloc 40]

theorem mixedCalls_run : ((run Legal mixedCalls (start smallPmm (fun _ => 0) true)).map fun s =>
    (s.live, s.heap.top - s.heap.base, (kmalloc s.heap 6000).toOption.map Prod.snd)) =
      some ([(0xFFFF800000200010, 40), (0xFFFF8000002000B0, 3000), (0xFFFF800000200090, 16)], 8192,
      some 0) := by decide +kernel

theorem kheap_tiles_small : smallPmm.Ok ∧ ∃ s l h', Reach Legal (start smallPmm (fun _ => 0) true) s ∧
    s.live = [(0xFFFF800000200010, 40), (0xFFFF8000002000B0, 3000), (0xFFFF800000200090, 16)] ∧
    Client.Sound kheapMagic (InHeap s.heap) s l ∧ kmalloc s.heap 6000 = .ok (h', 0) ∧
    ∀ b ∈ l, rd32 s.heap.mem (b + 4) ≠ 0 → rd64 s.heap.mem (b + 8) < 6000 := by
  obtain ⟨s, hrun, e⟩ := Option.map_eq_some_iff.1 mixedCalls_run
  obtain ⟨hlive, hsize, hno⟩ := by simpa only [Prod.mk.injEq] using e
  have hreach := run_reach .start hrun
  obtain ⟨l, hsound, -, -, hfull⟩ := kheap_tiles smallPmm_ok (fun _ => 0) true hreach
  have hin : InHeap s.heap (6000 : UInt64).toNat := by
    rw [InHeap, hsize]
    decide
  cases hk : kmalloc s.heap 6000 with
  | error e' =>
    rw [hk] at hno
    cases hno
  | ok r =>
    obtain ⟨h', ptr⟩ := r
    rw [hk] at hno
    cases hno
    exact ⟨smallPmm_ok, s, l, h', hreach, hlive, hsound, hk, hfull 6000 (by decide) hin h' hk⟩

/-- On the new heap `kmalloc(0)` is 0, and `kmalloc(8176)` is the whole of it. -/
theorem start_returns :
    (kheapInit smallPmm (fun _ => 0) true).2.base ≠ 0 ∧
    (kmalloc (start smallPmm (fun _ => 0) true).heap 0).toOption.map Prod.snd = some 0 ∧
    (kmalloc (start smallPmm (fun _ => 0) true).heap 8176).toOption.map Prod.snd =
      some 0xFFFF800000200010 := by
  decide +kernel

/-- `kmalloc(0)` is 0 whatever is free. -/
theorem zero_fits :
    ¬∀ s, Reach Legal (start smallPmm (fun _ => 0) true) s → ∀ size : UInt64,
    InHeap s.heap size.toNat → ∀ h',
    kmalloc s.heap size.toNat = .ok (h', 0) → ∀ l, Visits s.heap s.heap.base l → ∀ b ∈ l,
    rd32 s.heap.mem (b + 4) ≠ 0 →
      rd64 s.heap.mem (b + 8) < size.toNat := by
  intro h
  obtain ⟨hbase, hz, -⟩ := start_returns
  rcases kheapInit_spec smallPmm_ok (fun _ => 0) true with ⟨h0, -⟩ | ⟨n, ht⟩
  · exact absurd h0 hbase
  · have hfree := ht.header (l := []) (r := [])
    cases e : kmalloc (start smallPmm (fun _ => 0) true).heap 0 with
    | error e' =>
      rw [e] at hz
      cases hz
    | ok r =>
      obtain ⟨h', ptr⟩ := r
      rw [e] at hz
      cases hz
      refine absurd (h _ .start 0 (Nat.zero_le _) h' e _ ht.visits.1 _ List.mem_cons_self ?_)
        (Nat.not_lt_zero _)
      rw [show (start smallPmm (fun _ => 0) true).heap = (kheapInit smallPmm (fun _ => 0) true).2 from rfl]
      have := hfree.free
      simp only [Block.span, Nat.add_zero, if_true] at this
      rw [this]
      omega

/-! ## A fully freed heap -/

/-- `kmalloc` does not return 0. -/
def Serves (h : Heap) (size : Nat) : Prop := ∃ h' ptr, kmalloc h size = .ok (h', ptr) ∧ ptr ≠ 0

theorem serves_iff (hi : Client.Inv kheapMagic (InHeap s.heap) s bs)
    (hlt : s.heap.base < s.heap.top) {size : Nat} (hs : size < 2 ^ 64) :
    Serves s.heap size ↔ size ≠ 0 ∧ Block.take 16 32 (Pmm.alignUp size 16) s.heap.base bs ≠ none := by
  unfold Serves
  rcases kmalloc_spec hi hlt hs with ⟨e, hno⟩ | ⟨q, bs', m', h0, htake, e, -⟩
  · constructor
    · rintro ⟨h', ptr, e', hne⟩
      rw [e] at e'
      cases e'
      exact absurd rfl hne
    · rintro ⟨h0, hsome⟩
      rcases hno with hz | hn
      · exact absurd hz h0
      · exact absurd hn hsome
  · refine ⟨fun _ => ⟨h0, by simp [htake]⟩, fun _ => ⟨_, _, e, by omega⟩⟩

/-- Along a run that frees no block behind a free one, no two free blocks lie side by side. -/
theorem Reach.separate {s₀ : Client} (hlt : s₀.heap.base < s₀.heap.top) {bs₀ : List Block}
    (hi : Client.Inv kheapMagic (InHeap s₀.heap) s₀ bs₀) (hsep : Block.Separate bs₀)
    (h : Reach (fun s op => Legal s op ∧ BeforeUsed s op) s₀ s) :
    s.heap.base = s₀.heap.base ∧ s.heap.top = s₀.heap.top ∧ ∃ bs,
    Client.Inv kheapMagic (InHeap s.heap) s bs ∧ Block.Separate bs := by
  induction h with
  | start => exact ⟨rfl, rfl, bs₀, hi, hsep⟩
  | @step s s' op _ hl e ih =>
    obtain ⟨hb, ht, bs, hi, hsep⟩ := ih
    obtain ⟨s1, bs1, e1, hb1, ht1, hi1, hsep1⟩ := step_blocks hi (by omega) hl.1
    rw [e] at e1
    cases e1
    exact ⟨hb1.trans hb, ht1.trans ht, bs1, hi1, hsep1 hsep hl.2⟩

/-- **A fully freed heap is whole again**, when no block was freed behind a free one. -/
theorem freed_whole {pmm : Pmm} (hp : pmm.Ok) (mem : Mem) (hhdmReady : Bool)
    (h : Reach (fun s op => Legal s op ∧ BeforeUsed s op) (start pmm mem hhdmReady) s)
    (hfreed : s.live = []) (size : UInt64)
    (hserves : Serves (start pmm mem hhdmReady).heap size.toNat) : Serves s.heap size.toNat := by
  rcases kheapInit_spec hp mem hhdmReady with ⟨h1, -⟩ | ⟨n, ht⟩
  · obtain ⟨h', ptr, e, hne⟩ := hserves
    have hbase : (start pmm mem hhdmReady).heap.base = 0 := h1
    unfold kmalloc at e
    rw [if_pos (.inl hbase)] at e
    cases e
    exact absurd rfl hne
  · have htop := ht.top
    have hi0 : Client.Inv kheapMagic (InHeap (start pmm mem hhdmReady).heap)
        (start pmm mem hhdmReady) [⟨n, true⟩] :=
      ⟨ht, ⟨nofun, fun x hx => by simp [Block.used] at hx, List.nodup_nil⟩, fun _ => nofun⟩
    have hlt : (start pmm mem hhdmReady).heap.base < (start pmm mem hhdmReady).heap.top := by
      simp only [Block.span] at htop
      simp only [start]
      omega
    obtain ⟨hb, htop', bs, hi, hsep⟩ := Reach.separate hlt hi0 (List.isChain_singleton _) h
    have hnone : Block.used 16 s.heap.base bs = [] := by
      refine List.eq_nil_iff_forall_not_mem.2 fun x hx => ?_
      have := hi.owns.held x hx
      rw [hfreed] at this
      cases this
    have hne : bs ≠ [] := by
      rintro rfl
      have := hi.tiled.top
      rw [Block.span] at this
      omega
    -- nothing is given out, so the one free block is that of the start
    have hwhole := hsep.whole hne hnone
    have hspan := hi.tiled.top
    simp only [Block.span] at htop
    rw [hwhole] at hi hspan
    have hsame : Block.span 16 bs - 16 = n := by
      simp only [Block.span] at hspan
      simp only [start] at hb htop'
      omega
    rw [hsame] at hi
    rw [serves_iff hi (by omega) size.toNat_lt, hb]
    exact (serves_iff hi0 hlt size.toNat_lt).1 hserves

theorem serves_of {h : Heap} {size ptr : Nat}
    (e : (kmalloc h size).toOption.map Prod.snd = some ptr) : Serves h size ↔ ptr ≠ 0 := by
  unfold Serves
  cases hk : kmalloc h size with
  | error e' =>
    rw [hk] at e
    cases e
  | ok r =>
    rw [hk] at e
    cases e
    constructor
    · rintro ⟨h', ptr, e, hne⟩
      cases e
      exact hne
    · exact fun hne => ⟨r.1, r.2, rfl, hne⟩

theorem start_serves : Serves (start smallPmm (fun _ => 0) true).heap (8176 : UInt64).toNat :=
  (serves_of start_returns.2.2).2 (by decide)

/-- The blocks from `b` on, if there are fewer than `n`. -/
def walk (h : Heap) : Nat → Nat → Option (List Nat)
  | 0, _ => none
  | n + 1, b => if b = 0 then some [] else (walk h n (h.nextBlock b (rd64 h.mem (b + 8)))).map (b :: ·)

theorem walk_visits {h : Heap} : ∀ {n b : Nat} {l l' : List Nat}, walk h n b = some l → Visits h b l' → l' = l
  | 0, _, _, _, e, _ => by cases e
  | n + 1, b, l, l', e, hv => by
    cases hv with
    | nil =>
      cases e
      rfl
    | @cons _ l' hb ht =>
      rw [walk, if_neg hb, Option.map_eq_some_iff] at e
      obtain ⟨r, hr, rfl⟩ := e
      rw [walk_visits hr ht]

/-- `BeforeUsed`, found by a walk of at most 512 blocks. -/
def beforeUsed (s : Client) : KheapOp → Bool
  | .kfree ptr => (walk s.heap 513 s.heap.base).any fun l =>
      l.all fun b => s.heap.nextBlock b (rd64 s.heap.mem (b + 8)) ≠ ptr - 16 || rd32 s.heap.mem (b + 4) = 0
  | _ => true

theorem beforeUsed_sound {op : KheapOp} (h : beforeUsed s op = true) : BeforeUsed s op := by
  cases op with
  | kmalloc size => trivial
  | store a b => trivial
  | kfree ptr =>
    intro _ l hv b hb hnext
    obtain ⟨l', hl', hall⟩ := (Option.any_eq_true _ _).1 h
    rw [walk_visits hl' hv] at hb
    simpa [hnext] using List.all_eq_true.1 hall b hb

/-- Three blocks, freed from the last to the first. -/
def freedBackwards : List KheapOp :=
  [.kmalloc 16, .kmalloc 3000, .kmalloc 40, .kfree 0xFFFF800000200C00, .kfree 0xFFFF800000200030,
    .kfree 0xFFFF800000200010]

/-- `kmalloc(16)` twice, and the blocks freed in this order. -/
def twoBlocks : List KheapOp :=
  [.kmalloc 16, .kmalloc 16, .kfree 0xFFFF800000200010, .kfree 0xFFFF800000200030]

/-- Both free all their blocks; after the second, `kmalloc(8176)` is 0. -/
theorem freed_runs :
    ((run (fun s op => Legal s op ∧ beforeUsed s op = true) freedBackwards
      (start smallPmm (fun _ => 0) true)).map fun s => (s.live, s.freed.length)) = some ([], 3) ∧
    ((run Legal twoBlocks (start smallPmm (fun _ => 0) true)).map fun s =>
      (s.live, (kmalloc s.heap 8176).toOption.map Prod.snd)) = some ([], some 0) := by
  decide +kernel

theorem freed_whole_start :
    smallPmm.Ok ∧
      ∃ s, Reach (fun s op => Legal s op ∧ BeforeUsed s op) (start smallPmm (fun _ => 0) true) s ∧
    s.live = [] ∧ s.freed.length = 3 ∧ Serves (start smallPmm (fun _ => 0) true).heap (8176 : UInt64).toNat ∧
    Serves s.heap (8176 : UInt64).toNat := by
  obtain ⟨s, hrun, e⟩ := Option.map_eq_some_iff.1 freed_runs.1
  obtain ⟨hlive, hfreed⟩ := Prod.mk.inj e
  have hreach : Reach (fun s op => Legal s op ∧ BeforeUsed s op) (start smallPmm (fun _ => 0) true) s :=
    (run_reach .start hrun).mono fun _ _ h => ⟨h.1, beforeUsed_sound h.2⟩
  exact ⟨smallPmm_ok, s, hreach, hlive, hfreed, start_serves, freed_whole smallPmm_ok (fun _ => 0) true hreach
    hlive 8176 start_serves⟩

/-- The first block was freed alone and stays so: no 8176 bytes are left. -/
theorem not_whole : ¬∀ s, Reach Legal (start smallPmm (fun _ => 0) true) s → s.live = [] → ∀ size : UInt64,
    Serves (start smallPmm (fun _ => 0) true).heap size.toNat → Serves s.heap size.toNat := by
  intro h
  obtain ⟨s, hrun, e⟩ := Option.map_eq_some_iff.1 freed_runs.2
  obtain ⟨hlive, hno⟩ := Prod.mk.inj e
  exact (serves_of hno).1 (h s (run_reach .start hrun) hlive 8176 start_serves) rfl

end Kheap

end VampireOS
