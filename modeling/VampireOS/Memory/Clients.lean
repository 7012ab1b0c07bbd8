import VampireOS.Memory.Headers

/-!
# Clients of a heap

A run of a heap's clients: `live` are the pointers they hold, each with the size they asked for,
`freed` those they gave back. Clients also store into their blocks; a pointer that was given back
already may be freed once more as long as nothing was stored (`Legal`). `Inv` is what every call
keeps, `Sound` what it means for the memory.
-/

namespace VampireOS

open Lib

structure Client where
  heap : Heap
  live : List (Nat × Nat)
  freed : List Nat
  stored : Bool

namespace Client

/-- The block of a pointer, as its header says. -/
def blockSize (s : Client) (ptr : Nat) : Nat := rd64 s.heap.mem (ptr - 16 + 8)

/-- `ptr` may be freed. -/
def MayFree (s : Client) (ptr : Nat) : Prop :=
  ptr = 0 ∨ ptr ∈ s.live.map Prod.fst ∨ (ptr ∈ s.freed ∧ s.stored = false)

/-- `a` is a byte of a block that is held. -/
def MayStore (s : Client) (a : Nat) : Prop := ∃ x ∈ s.live, x.1 ≤ a ∧ a < x.1 + s.blockSize x.1

instance (s : Client) (ptr : Nat) : Decidable (s.MayFree ptr) := inferInstanceAs (Decidable (_ ∨ _ ∨ _))

instance (s : Client) (a : Nat) : Decidable (s.MayStore a) :=
  inferInstanceAs (Decidable (∃ x ∈ s.live, _ ∧ _))

/-- After a call that returned `ptr` for `size` bytes. -/
def got (s : Client) (h : Heap) (ptr size : Nat) : Client :=
  if ptr = 0 then { s with heap := h } else { s with heap := h, live := (ptr, size) :: s.live }

@[simp] theorem got_heap (s : Client) (h : Heap) (ptr size : Nat) : (s.got h ptr size).heap = h := by
  unfold got
  split <;> rfl

/-- After `ptr` was freed. -/
def gave (s : Client) (h : Heap) (ptr : Nat) : Client :=
  { s with heap := h, live := s.live.filter fun x => x.1 ≠ ptr, freed := ptr :: s.freed }

def store (s : Client) (a : Nat) (b : UInt8) : Client :=
  { s with heap := { s.heap with mem := setByte s.heap.mem a b }, stored := true }

/-- What is held is what is given out; a block for `x.2` bytes holds them when `P x.2`. -/
structure Owns (P : Nat → Prop) (p : Nat) (bs : List Block) (live : List (Nat × Nat)) : Prop where
  block : ∀ x ∈ live, 16 ≤ x.1 ∧ ∃ n, (x.1 - 16, n) ∈ Block.used 16 p bs ∧ (P x.2 → x.2 ≤ n)
  held : ∀ x ∈ Block.used 16 p bs, x.1 + 16 ∈ live.map Prod.fst
  nodup : (live.map Prod.fst).Nodup

structure Inv (magic : Nat) (P : Nat → Prop) (s : Client) (bs : List Block) : Prop where
  tiled : Tiled magic s.heap bs
  owns : Owns P s.heap.base bs s.live
  /-- A pointer that was given back is at a header that says free, unless it is held again. -/
  stale : s.stored = false → ∀ ptr ∈ s.freed, ptr ∉ s.live.map Prod.fst →
    ptr = 0 ∨ 16 ∣ ptr ∧ 16 ≤ ptr ∧ rd32 s.heap.mem (ptr - 16 + 4) ≠ 0

variable {magic need size : Nat} {P : Nat → Prop} {s : Client} {h : Heap} {bs bs' : List Block}

/-! ## Calls keep it -/

theorem Inv.got (hi : Inv magic P s bs) {q : Nat} {m' : Mem}
    (e : Block.take 16 32 need s.heap.base bs = some (q, bs'))
    (ht : Tiled magic { s.heap with mem := m' } bs') (hs : StaysFree q s.heap.mem m')
    (hsize : P size → size ≤ need) :
    Inv magic P (s.got { s.heap with mem := m' } (q + 16) size) bs' := by
  obtain ⟨n, hn, hmem, hnew⟩ := Block.mem_used_take (by omega) (by omega) e
  have hfresh : q + 16 ∉ s.live.map Prod.fst := by
    intro hc
    obtain ⟨x, hx, hxq⟩ := List.mem_map.1 hc
    obtain ⟨-, n', hn', -⟩ := hi.owns.block x hx
    rw [hxq, Nat.add_sub_cancel] at hn'
    exact hnew n' hn'
  unfold Client.got
  rw [if_neg (by omega)]
  refine ⟨ht, ⟨fun x hx => ?_, fun x hx => ?_, List.nodup_cons.2 ⟨hfresh, hi.owns.nodup⟩⟩,
    fun hst ptr hp hl => ?_⟩
  · rcases List.mem_cons.1 hx with rfl | hx
    · exact ⟨by simp only; omega, n, (hmem _).2 (.inl rfl), fun hP => (hsize hP).trans hn⟩
    · obtain ⟨h1, n', h2, h3⟩ := hi.owns.block x hx
      exact ⟨h1, n', (hmem _).2 (.inr h2), h3⟩
  · rw [List.map_cons, List.mem_cons]
    rcases (hmem x).1 hx with rfl | hx
    · exact .inl rfl
    · exact .inr (hi.owns.held x hx)
  · rw [List.map_cons, List.mem_cons, not_or] at hl
    rcases hi.stale hst ptr hp hl.2 with h0 | ⟨h1, h2, h3⟩
    · exact .inl h0
    · have := hl.1
      exact .inr ⟨h1, h2, hs _ (Nat.dvd_sub h1 (Nat.dvd_refl 16)) (by simp only at this; omega) h3⟩

/-- Freeing a pointer never faults. -/
theorem Inv.gave (hi : Inv magic P s bs) {ptr : Nat} (hl : s.MayFree ptr) :
    ∃ m', Heap.freeBlock magic s.heap ptr = .ok { s.heap with mem := m' } ∧
    SameBytes s.heap.base bs s.heap.mem m' ∧
      Within s.heap.base s.heap.top s.heap.mem m' ∧
      Inv magic P (s.gave { s.heap with mem := m' } ptr)
        (Block.release 16 (ptr - 16) s.heap.base bs) := by
  by_cases hheld : ptr ∈ s.live.map Prod.fst
  · obtain ⟨x, hx, rfl⟩ := List.mem_map.1 hheld
    obtain ⟨h16, n, hn, -⟩ := hi.owns.block x hx
    obtain ⟨m', hok, ht, hw, hsame, hstay, hnz⟩ := hi.tiled.freeBlock hn
    have hmem := Block.mem_used_release (by omega) hn
    rw [Nat.sub_add_cancel h16] at hok
    refine ⟨m', hok, hsame, hw, ht, ⟨fun y hy => ?_, fun y hy => ?_, ?_⟩, fun hst ptr hp hl => ?_⟩
    · obtain ⟨hy, hne⟩ := List.mem_filter.1 hy
      obtain ⟨h1, n', h2, h3⟩ := hi.owns.block y hy
      exact ⟨h1, n', (hmem _).2 ⟨h2, by simp only; have := of_decide_eq_true hne; omega⟩, h3⟩
    · obtain ⟨hy, hne⟩ := (hmem y).1 hy
      obtain ⟨z, hz, hzy⟩ := List.mem_map.1 (hi.owns.held y hy)
      exact List.mem_map.2 ⟨z, List.mem_filter.2 ⟨hz, decide_eq_true (by omega)⟩, hzy⟩
    · exact hi.owns.nodup.sublist ((List.filter_sublist ..).map _)
    · by_cases hpx : ptr = x.1
      · have halign : 16 ∣ x.1 - 16 := by
          obtain ⟨l, r, e, eq⟩ := Block.mem_used.1 hn
          rw [eq]
          exact Tiled.aligned_at (r := ⟨n, false⟩ :: r) (by rw [← e]; exact hi.tiled)
        subst hpx
        exact .inr ⟨by omega, h16, hnz⟩
      · have hold : ptr ∈ s.freed := (List.mem_cons.1 hp).resolve_left hpx
        have hnot : ptr ∉ s.live.map Prod.fst := by
          intro hc
          obtain ⟨z, hz, hzp⟩ := List.mem_map.1 hc
          exact hl (List.mem_map.2 ⟨z, List.mem_filter.2 ⟨hz, decide_eq_true (by omega)⟩, hzp⟩)
        rcases hi.stale hst ptr hold hnot with h0 | ⟨h1, h2, h3⟩
        · exact .inl h0
        · exact .inr ⟨h1, h2, hstay ptr _ (Nat.dvd_sub h1 (Nat.dvd_refl 16)) (by omega) h3⟩
  · -- nothing is given out there
    have hnone : ∀ n, (ptr - 16, n) ∉ Block.used 16 s.heap.base bs := by
      intro n hn
      have hle := (Block.used_bounds hn).1
      have hbase := hi.tiled.base
      have := hi.owns.held _ hn
      rw [show ptr - 16 + 16 = ptr by simp only at hle; omega] at this
      exact hheld this
    have hfilter : (s.live.filter fun x => x.1 ≠ ptr) = s.live :=
      List.filter_eq_self.2 fun x hx => decide_eq_true fun e => hheld (e ▸ List.mem_map_of_mem hx)
    have hok : Heap.freeBlock magic s.heap ptr = .ok s.heap := by
      rcases hl with rfl | hl | ⟨hl, hst⟩
      · unfold Heap.freeBlock
        rw [if_pos (.inl rfl)]
      · exact absurd hl hheld
      · rcases hi.stale hst ptr hl hheld with rfl | ⟨-, -, hf⟩
        · unfold Heap.freeBlock
          rw [if_pos (.inl rfl)]
        · exact hi.tiled.freeBlock_stale hf
    rw [Block.release_eq_self hnone]
    refine ⟨s.heap.mem, hok, fun _ _ _ _ _ => rfl, .refl _ _ _, hi.tiled, ?_, fun hst p hp hl => ?_⟩
    · unfold Client.gave
      simp only [hfilter]
      exact hi.owns
    · unfold Client.gave at hp hl hst ⊢
      simp only [hfilter] at hl
      rcases List.mem_cons.1 hp with rfl | hp
      · rcases hl' : (show s.MayFree p from ‹_›) with h0 | h0 | ⟨h0, -⟩
        · exact .inl h0
        · exact absurd h0 hheld
        · exact hi.stale hst p h0 hheld
      · exact hi.stale hst p hp hl

/-- Storing into a block that is held. -/
theorem Inv.store (hi : Inv magic P s bs) {a : Nat} (ha : s.MayStore a) (b : UInt8) :
    Inv magic P (s.store a b) bs := by
  obtain ⟨x, hx, h1, h2⟩ := ha
  obtain ⟨h16, n, hn, -⟩ := hi.owns.block x hx
  obtain ⟨l, r, rfl, hq⟩ := Block.mem_used.1 hn
  have hsize : rd64 s.heap.mem (s.heap.base + Block.span 16 l + 8) = n := hi.tiled.header.size
  rw [← hq] at hsize
  unfold blockSize at h2
  rw [hsize] at h2
  have hw : Within a (a + 1) s.heap.mem (setByte s.heap.mem a b) :=
    fun y hy => if_neg fun e => hy ⟨by omega, by omega⟩
  have hreads : Reads magic (setByte s.heap.mem a b) s.heap.base (l ++ ⟨n, false⟩ :: r) := by
    obtain ⟨r1, r2, r3⟩ := reads_append.1 hi.tiled.reads
    rw [← hq] at r2 r3
    refine reads_append.2 ⟨r1.congr hw (.inl (by omega)), ?_⟩
    rw [← hq]
    exact ⟨r2.congr hw (.inl (by omega)), r3.congr hw (.inr (by simp only; omega))⟩
  exact ⟨⟨hreads, hi.tiled.top, hi.tiled.sizes, hi.tiled.tail, hi.tiled.base, hi.tiled.aligned,
    hi.tiled.mapped, hi.tiled.bounded⟩, hi.owns, nofun⟩

/-! ## What it means for the memory -/

structure Sound (magic : Nat) (P : Nat → Prop) (s : Client) (l : List Nat) : Prop where
  walk : Visits s.heap s.heap.base l
  magic : ∀ b ∈ l, rd32 s.heap.mem b = magic
  tiles : Tiles s.heap.mem l s.heap.base s.heap.top
  live : ∀ x ∈ s.live, 16 ∣ x.1 ∧ x.1 - 16 ∈ l ∧ s.heap.base + 16 ≤ x.1 ∧ x.1 + s.blockSize x.1 ≤ s.heap.top ∧
    (P x.2 → x.2 ≤ s.blockSize x.1)
  apart : s.live.Pairwise fun x y => x.1 + s.blockSize x.1 ≤ y.1 - 16 ∨ y.1 + s.blockSize y.1 ≤ x.1 - 16

theorem Inv.blockSize (hi : Inv magic P s bs) {ptr n : Nat}
    (hn : (ptr - 16, n) ∈ Block.used 16 s.heap.base bs) :
    s.blockSize ptr = n := by
  obtain ⟨l, r, rfl, hq⟩ := Block.mem_used.1 hn
  unfold Client.blockSize
  rw [hq]
  exact hi.tiled.header.size

theorem Inv.sound (hi : Inv magic P s bs) (hlt : s.heap.base < s.heap.top) :
    Sound magic P s (addrs s.heap.base bs) := by
  obtain ⟨hv, ht, hm⟩ := hi.tiled.visits
  rw [hi.tiled.first hlt] at hv
  refine ⟨hv, hm, ht, fun x hx => ?_, ?_⟩
  · obtain ⟨h16, n, hn, hP⟩ := hi.owns.block x hx
    obtain ⟨h1, h2⟩ := Block.used_bounds hn
    have htop := hi.tiled.top
    rw [hi.blockSize hn]
    obtain ⟨l, r, e, hq⟩ := Block.mem_used.1 hn
    have halign := Tiled.aligned_at (l := l) (r := ⟨n, false⟩ :: r) (e ▸ hi.tiled)
    simp only at h1 h2
    exact ⟨by omega, mem_addrs.2 ⟨l, _, r, e, hq⟩, by omega, by omega, hP⟩
  · refine (List.pairwise_map.1 hi.owns.nodup).imp_of_mem fun {x y} hx hy hne => ?_
    obtain ⟨hx16, n, hn, -⟩ := hi.owns.block x hx
    obtain ⟨hy16, k, hk, -⟩ := hi.owns.block y hy
    rw [hi.blockSize hn, hi.blockSize hk]
    rcases Block.used_disjoint hn hk (by simp only; omega) with h | h
    · exact .inl (by simp only at h; omega)
    · exact .inr (by simp only at h; omega)

/-- The block at an address of the walk. -/
theorem Inv.block_at (hi : Inv magic P s bs) {a : Nat} (ha : a ∈ addrs s.heap.base bs) :
    ∃ b ∈ bs, rd32 s.heap.mem (a + 4) = (if b.free then 1 else 0) ∧ rd64 s.heap.mem (a + 8) = b.size := by
  obtain ⟨l, b, r, rfl, rfl⟩ := mem_addrs.1 ha
  exact ⟨b, by simp, hi.tiled.header.free, hi.tiled.header.size⟩

end Client

end VampireOS
