import VampireOS.Fs.Edit
import VampireOS.Fs.LongName

/-!
# Changes of a directory page (kernel/fs.c:541-728)

An entry is put, rewritten, renamed or wiped: a few slots in a row are new, and no run of long names
goes on behind the last of them (`Block`). The other slots are as before then, and so are their
names.
-/

namespace VampireOS.Fs

open Lib

variable {v v' u s : Fs} {b b' : Bytes} {d n m a i j k cl len off : Nat} {own ext l : List Nat}

/-! ## Numbers in a buffer -/

theorem putBytes_in {dst src : Bytes} (hk : k < n) : putBytes dst off src n (off + k) = src k := by
  unfold putBytes
  rw [if_pos (by omega), Nat.add_sub_cancel_left]

theorem putBytes_out {dst src : Bytes} (hk : k < off ∨ off + n ≤ k) : putBytes dst off src n k = dst k := by
  unfold putBytes
  rw [if_neg (by omega)]

theorem rdU16_wrU16 (b : Bytes) (o : Nat) {x : Nat} (hx : x < 2 ^ 16) : rdU16 (wrU16 b o x) o = x := by
  have h (k : Nat) (hk : k < 2) : wrU16 b o x (o + k) = UInt8.ofNat (x / 0x100 ^ k) := putBytes_in hk
  have h0 := h 0 (by decide)
  rw [Nat.add_zero] at h0
  unfold rdU16
  rw [h0, h 1 (by decide)]
  simp only [UInt8.toNat_ofNat']
  omega

theorem rdU32_wrU32 (b : Bytes) (o : Nat) {x : Nat} (hx : x < 2 ^ 32) : rdU32 (wrU32 b o x) o = x := by
  have h (k : Nat) (hk : k < 4) : wrU32 b o x (o + k) = UInt8.ofNat (x / 0x100 ^ k) := putBytes_in hk
  have h0 := h 0 (by decide)
  rw [Nat.add_zero] at h0
  unfold rdU32
  rw [h0, h 1 (by decide), h 2 (by decide), h 3 (by decide)]
  simp only [UInt8.toNat_ofNat']
  omega

/-! ## Slots in a row -/

/-- No run of long names passes slot `j`. -/
def Breaks (b : Bytes) (j : Nat) : Prop :=
  b (32 * j) = 0 ∨ skipMark (b (32 * j)) = true ∨ b (32 * j + 11) ≠ 0x0F

/-- The slots from `a` to `j` may be new; only `j` among them may own a chain. -/
structure Block (b b' : Bytes) (n a j : Nat) : Prop where
  le : a ≤ j
  same : ∀ k < n, k < a ∨ j < k → SameSlot b b' k
  hidden : ∀ k, a ≤ k → k < j → ownsChain b k = false ∧ ownsChain b' k = false
  old : Breaks b j
  new : Breaks b' j

theorem SameSlot.mark (h : SameSlot b b' k) : b' (32 * k) = b (32 * k) := by
  simpa using h 0 (by decide)

theorem SameSlot.attr (h : SameSlot b b' k) : b' (32 * k + 11) = b (32 * k + 11) := h 11 (by decide)

theorem SameSlot.owns (h : SameSlot b b' k) : ownsChain b' k = ownsChain b k := by
  unfold ownsChain
  rw [h.mark, h.attr]

/-- Attribute, first cluster and size of a slot are as before. -/
structure SameTail (b b' : Bytes) (k : Nat) : Prop where
  attr : b' (32 * k + 11) = b (32 * k + 11)
  last : ∀ i, 26 ≤ i → i < 32 → b' (32 * k + i) = b (32 * k + i)

theorem SameSlot.tail (h : SameSlot b b' k) : SameTail b b' k := ⟨h.attr, fun i _ hi => h i hi⟩

/-- The slots other than `j` own what they owned. -/
def SlotsKept (b b' : Bytes) (n j : Nat) : Prop :=
  ∀ k < n, k ≠ j → ownsChain b' k = ownsChain b k ∧ (ownsChain b k = true → SameTail b b' k)

theorem owns_mark (h : ownsChain b k = true) : b (32 * k) ≠ 0 := by
  intro e
  unfold ownsChain freeMark at h
  simp [e] at h

theorem owns_used (h : ownsChain b k = true) : freeMark (b (32 * k)) = false := by
  unfold ownsChain at h
  simp only [Bool.not_eq_true', Bool.or_eq_false_iff] at h
  exact h.1.1

theorem owns_breaks (h : ownsChain b k = true) : b (32 * k + 11) ≠ 0x0F := by
  intro e
  unfold ownsChain skippedAttr at h
  simp [e] at h

theorem Tidy.before (h : Tidy b n) (hk : k < n) (h0 : b (32 * k) ≠ 0) : ∀ m ≤ k, b (32 * m) ≠ 0 :=
  fun m hm e => h0 (h.zero m k hm hk e)

namespace Block

/-- A slot that owned a chain and is not `j` is outside of the row. -/
theorem outside (h : Block b b' n a j) (hk : k < n) (hne : k ≠ j) (ho : ownsChain b k = true) :
    SameSlot b b' k := by
  apply h.same k hk
  by_contra hin
  have := (h.hidden k (by omega) (by omega)).1
  rw [ho] at this
  cases this

theorem slots (h : Block b b' n a j) : SlotsKept b b' n j := by
  intro k hk hne
  refine ⟨?_, fun ho => (h.outside hk hne ho).tail⟩
  by_cases hin : a ≤ k ∧ k < j
  · rw [(h.hidden k hin.1 hin.2).1, (h.hidden k hin.1 hin.2).2]
  · exact (h.same k hk (by omega)).owns

theorem run_low (h : Block b b' n a j) (hi : i ≤ a) (hn : i ≤ n) : lfnRunAt b' i = lfnRunAt b i :=
  lfnRunAt_congr fun k hk => ⟨(h.same k (by omega) (by omega)).mark, (h.same k (by omega) (by omega)).attr⟩

theorem run_none {b : Bytes} (h : Breaks b j) (h0 : b (32 * j) ≠ 0) : lfnRunAt b (j + 1) = none := by
  rw [lfnRunAt_succ]
  rcases h with h | h | h
  · exact absurd h h0
  · rw [if_pos h]
  · rw [if_neg h]
    split <;> rfl

/-- A run behind `j` starts behind `j`. -/
theorem run_after {b : Bytes} (h : Breaks b j) (h0 : b (32 * j) ≠ 0) (i : Nat) :
    ∀ r, lfnRunAt b (j + 1 + i) = some r → j < r.1 := by
  induction i with
  | zero =>
    intro r hr
    rw [Nat.add_zero, run_none h h0] at hr
    cases hr
  | succ i ih =>
    intro r hr
    rw [← Nat.add_assoc, lfnRunAt_succ] at hr
    split at hr
    · cases hr
    · split at hr
      · unfold nextRun at hr
        split at hr
        · obtain rfl := Option.some.inj hr
          dsimp only
          omega
        · obtain ⟨r', hr', hx⟩ := Option.bind_eq_some_iff.1 hr
          split at hx
          · obtain rfl := Option.some.inj hx
            exact ih r' hr'
          · cases hx
      · cases hr

theorem run_high (h : Block b b' n a j) (h0 : b (32 * j) ≠ 0) (h0' : b' (32 * j) ≠ 0) (i : Nat)
    (hn : j + 1 + i ≤ n) :
    lfnRunAt b' (j + 1 + i) = lfnRunAt b (j + 1 + i) := by
  induction i with
  | zero => rw [Nat.add_zero, run_none h.old h0, run_none h.new h0']
  | succ i ih =>
    have hs := h.same (j + 1 + i) (by omega) (by omega)
    have hnext : ∀ run, nextRun b' (j + 1 + i) run = nextRun b (j + 1 + i) run := fun run => by
      unfold nextRun
      rw [hs.mark]
    rw [← Nat.add_assoc, lfnRunAt_succ, lfnRunAt_succ, hs.mark, hs.attr, ih (by omega), hnext]

/-- The slots in front of `k` from which its long name comes are outside of the row too. -/
theorem name (h : Block b b' n a j) (he : Tidy b n) (he' : Tidy b' n) (hk : k < n) (hne : k ≠ j)
    (ho : ownsChain b k = true) :
    entryName b' k (lfnRunAt b' k) = entryName b k (lfnRunAt b k) := by
  have hs := h.outside hk hne ho
  have hreach := he.before hk (owns_mark ho)
  have hreach' := he'.before hk (hs.mark ▸ owns_mark ho)
  have hout : k < a ∨ j < k := by
    by_contra hin
    have := (h.hidden k (by omega) (by omega)).1
    rw [ho] at this
    cases this
  have hrun : lfnRunAt b' k = lfnRunAt b k := by
    rcases hout with hlt | hgt
    · exact h.run_low (Nat.le_of_lt hlt) (Nat.le_of_lt hk)
    · obtain ⟨i, rfl⟩ := Nat.exists_eq_add_of_le (show j + 1 ≤ k from hgt)
      exact h.run_high (hreach j (by omega)) (hreach' j (by omega)) i (by omega)
  rw [hrun]
  apply entryName_congr
  · intro r hr x h1 h2
    have hx := (lfnRunAt_run (fun m hm => hreach m (Nat.le_of_lt hm)) r hr).before
    apply h.same x (by omega)
    rcases hout with hlt | hgt
    · exact .inl (by omega)
    · obtain ⟨i, rfl⟩ := Nat.exists_eq_add_of_le (show j + 1 ≤ k from hgt)
      have := run_after h.old (hreach j (by omega)) i r hr
      exact .inr (by omega)
  · exact fun i hi => hs i (by omega)

/-- The dots at the beginning are in front of the row. -/
theorem dots (h : Block b b' n a j) (ha : 2 ≤ a) (hn : 2 ≤ n) : ∀ i < 64, b' i = b i := by
  intro i hi
  rcases Nat.lt_or_ge i 32 with hlt | hge
  · simpa using h.same 0 (by omega) (by omega) i hlt
  · have := h.same 1 (by omega) (by omega) (i - 32) (by omega)
    rwa [show 32 * 1 + (i - 32) = i by omega] at this

end Block

/-! ## A new size and first cluster -/

/-- The page after `putSize`. -/
def resized (b : Bytes) (j cl len : Nat) : Bytes := wrU16 (wrU32 b (32 * j + 28) len) (32 * j + 26) cl

theorem resized_resize (b : Bytes) (j cl len : Nat) : Resize b (resized b j cl len) j := by
  intro k hk
  unfold resized wrU16 wrU32
  rw [putBytes_out (by omega), putBytes_out (by omega)]

theorem resized_start (b : Bytes) (j len : Nat) (hcl : cl < 2 ^ 16) :
    rdU16 (resized b j cl len) (32 * j + 26) = cl := rdU16_wrU16 _ _ hcl

theorem resized_size (b : Bytes) (j cl : Nat) (hlen : len < 2 ^ 32) :
    rdU32 (resized b j cl len) (32 * j + 28) = len := by
  have hout : ∀ k, 32 * j + 28 ≤ k → resized b j cl len k = wrU32 b (32 * j + 28) len k := by
    intro k hk
    unfold resized wrU16
    exact putBytes_out (by omega)
  have hread := rdU32_wrU32 b (32 * j + 28) hlen
  unfold rdU32 at hread ⊢
  rw [hout _ (by omega), hout _ (by omega), hout _ (by omega), hout _ (by omega)]
  exact hread

theorem Resize.block (h : Resize b b' j) (ho : ownsChain b j = true) (n : Nat) : Block b b' n j j where
  le := Nat.le_refl j
  same := fun k _ hk => h.slot (by omega)
  hidden := fun k h1 h2 => by omega
  old := .inr (.inr (owns_breaks ho))
  new := .inr (.inr ((h.mark j).2 ▸ owns_breaks ho))

/-- The marks and attributes decide. -/
theorem Tidy.marks (he : Tidy b n)
    (h : ∀ k, b' (32 * k) = b (32 * k) ∧ b' (32 * k + 11) = b (32 * k + 11)) : Tidy b' n := by
  constructor
  · intro k m hkm hm h0
    rw [(h m).1]
    rw [(h k).1] at h0
    exact he.zero k m hkm hm h0
  · intro k hk hf h11
    rw [(h k).1] at hf
    rw [(h k).2] at h11
    rw [(h (k + 1)).1]
    exact he.long k hk hf h11

theorem Resize.tidy (h : Resize b b' j) (he : Tidy b n) : Tidy b' n := he.marks h.mark

/-! ## A new 8.3 name in place -/

/-- The page after the 11 bytes of a rename. -/
def renamed (b : Bytes) (j : Nat) (n83 : Name) : Bytes := putBytes b (32 * j) (ofList n83) 11

theorem renamed_out {n83 : Name} (hk : k < 32 * j ∨ 32 * j + 11 ≤ k) : renamed b j n83 k = b k :=
  putBytes_out hk

theorem renamed_mark {n83 : Name} : renamed b j n83 (32 * j) = ofList n83 0 :=
  putBytes_in (k := 0) (by decide)

theorem renamed_slot {n83 : Name} (hk : k ≠ j) : SameSlot b (renamed b j n83) k :=
  fun i hi => renamed_out (by omega)

theorem renamed_tail {n83 : Name} : SameTail b (renamed b j n83) k := by
  constructor
  · exact renamed_out (by omega)
  · exact fun i h1 h2 => renamed_out (by omega)

/-- The name's first character is that of a slot in use. -/
def NameStart (n83 : Name) : Prop := ofList n83 0 ≠ 0 ∧ skipMark (ofList n83 0) = false

theorem NameStart.not_free {n83 : Name} (h : NameStart n83) :
    freeMark (ofList n83 0) = false ∧ ofList n83 0 ≠ dot := by
  obtain ⟨h0, hs⟩ := h
  unfold skipMark at hs
  simp only [Bool.or_eq_false_iff, decide_eq_false_iff_not] at hs
  exact ⟨by simp [freeMark, h0, hs.1.1], hs.2⟩

theorem renamed_owns {n83 : Name} (h : NameStart n83) (ho : ownsChain b j = true) :
    ownsChain (renamed b j n83) k = ownsChain b k := by
  by_cases hk : k = j
  · subst hk
    rw [ho]
    obtain ⟨h1, h2⟩ := h.not_free
    unfold ownsChain at ho ⊢
    rw [renamed_mark, renamed_tail.attr, h1]
    simp only [h2, decide_false, Bool.false_or, Bool.or_false]
    simp only [Bool.not_eq_true', Bool.or_eq_false_iff] at ho
    rw [ho.2]
    rfl
  · exact (renamed_slot hk).owns

theorem renamed_block {n83 : Name} (ho : ownsChain b j = true) (n : Nat) :
    Block b (renamed b j n83) n j j where
  le := Nat.le_refl j
  same := fun k _ hk => renamed_slot (by omega)
  hidden := fun k h1 h2 => by omega
  old := .inr (.inr (owns_breaks ho))
  new := .inr (.inr (by rw [renamed_tail.attr]; exact owns_breaks ho))

theorem renamed_tidy {n83 : Name} (h : NameStart n83) (ho : ownsChain b j = true) (he : Tidy b n) :
    Tidy (renamed b j n83) n := by
  have hmark : ∀ k, renamed b j n83 (32 * k) = 0 ↔ b (32 * k) = 0 := by
    intro k
    by_cases hk : k = j
    · subst hk
      rw [renamed_mark]
      exact ⟨fun e => absurd e h.1, fun e => absurd e (owns_mark ho)⟩
    · rw [(renamed_slot hk).mark]
  have hfree : ∀ k, freeMark (renamed b j n83 (32 * k)) = freeMark (b (32 * k)) := by
    intro k
    by_cases hk : k = j
    · subst hk
      rw [renamed_mark, h.not_free.1, owns_used ho]
    · rw [(renamed_slot hk).mark]
  constructor
  · intro k m hkm hm h0
    rw [hmark] at h0 ⊢
    exact he.zero k m hkm hm h0
  · intro k hk hf h11
    rw [hfree] at hf
    rw [renamed_tail.attr] at h11
    rw [hfree]
    exact he.long k hk hf h11

/-! ## Wiping -/

/-- The page after `dir_wipe`. -/
def wiped (b : Bytes) (j : Nat) : Bytes := wipeBack (Function.update b (32 * j) 0xE5) j

/-- Long-name entries in a row before slot `j` get the mark of a deleted one. -/
theorem wipeBack_spec (j : Nat) :
    ∀ b : Bytes, ∃ a ≤ j, (∀ k, a ≤ k → k < j → b (32 * k) ≠ 0 ∧ b (32 * k + 11) = 0x0F ∧
    wipeBack b j (32 * k) = 0xE5) ∧
    (∀ i, (∀ k, a ≤ k → k < j → i ≠ 32 * k) → wipeBack b j i = b i) ∧
    ∀ k, k + 1 = a → freeMark (b (32 * k)) = true ∨ b (32 * k + 11) ≠ 0x0F := by
  induction j with
  | zero => exact fun b => ⟨0, Nat.le_refl 0, fun k _ h => by omega, fun _ _ => rfl, fun k hk => by omega⟩
  | succ j ih =>
    intro b
    unfold wipeBack
    split
    · next hstop =>
      refine ⟨j + 1, Nat.le_refl _, fun k h1 h2 => by omega, fun _ _ => rfl, fun k hk => ?_⟩
      obtain rfl : k = j := by omega
      simpa using hstop
    · next hgo =>
      rw [Bool.or_eq_true, not_or] at hgo
      obtain ⟨hfree, hattr⟩ := hgo
      have hattr : b (32 * j + 11) = 0x0F := by simpa using hattr
      have h0 : b (32 * j) ≠ 0 := fun e => hfree (by simp [freeMark, e])
      obtain ⟨a, ha, h1, h2, hstop⟩ := ih (Function.update b (32 * j) 0xE5)
      refine ⟨a, by omega, fun k hk hlt => ?_, fun i hi => ?_, fun k hk => ?_⟩
      · rcases Nat.lt_or_ge k j with hkj | hkj
        · obtain ⟨h3, h4, h5⟩ := h1 k hk hkj
          rw [Function.update_of_ne (by omega)] at h3 h4
          exact ⟨h3, h4, h5⟩
        · obtain rfl : k = j := by omega
          refine ⟨h0, hattr, ?_⟩
          rw [h2 _ fun m _ hm => by omega, Function.update_self]
      · rw [h2 i fun k hk hlt => hi k hk (by omega), Function.update_of_ne (hi j (by omega) (by omega))]
      · have := hstop k hk
        rwa [Function.update_of_ne (by omega), Function.update_of_ne (by omega)] at this

theorem wiped_spec (b : Bytes) (j : Nat) :
    ∃ a ≤ j, (∀ k, a ≤ k → k < j → b (32 * k) ≠ 0 ∧ b (32 * k + 11) = 0x0F) ∧
    (∀ k, a ≤ k → k ≤ j → wiped b j (32 * k) = 0xE5) ∧ (∀ i, (∀ k, a ≤ k → k ≤ j → i ≠ 32 * k) →
    wiped b j i = b i) ∧
    ∀ k, k + 1 = a → freeMark (b (32 * k)) = true ∨ b (32 * k + 11) ≠ 0x0F := by
  obtain ⟨a, ha, h1, h2, hstop⟩ := wipeBack_spec j (Function.update b (32 * j) 0xE5)
  refine ⟨a, ha, fun k hk hlt => ?_, fun k hk hle => ?_, fun i hi => ?_, fun k hk => ?_⟩
  · obtain ⟨h3, h4, -⟩ := h1 k hk hlt
    rw [Function.update_of_ne (by omega)] at h3 h4
    exact ⟨h3, h4⟩
  · rcases Nat.eq_or_lt_of_le hle with rfl | hlt
    · exact (h2 _ fun m _ hm => by omega).trans (Function.update_self ..)
    · exact (h1 k hk hlt).2.2
  · exact (h2 i fun k hk hlt => hi k hk (Nat.le_of_lt hlt)).trans
      (Function.update_of_ne (hi j ha (Nat.le_refl j)) ..)
  · have := hstop k hk
    rwa [Function.update_of_ne (by omega), Function.update_of_ne (by omega)] at this

theorem wiped_block (ho : ownsChain b j = true) (n : Nat) : ∃ a, Block b (wiped b j) n a j ∧
    (∀ k, a ≤ k → k < j → b (32 * k + 11) = 0x0F) ∧ ownsChain (wiped b j) j = false ∧
    (Tidy b n → Tidy (wiped b j) n) := by
  obtain ⟨a, ha, h1, h2, h3, hstop⟩ := wiped_spec b j
  have hfree : ∀ k, a ≤ k → k ≤ j → ownsChain (wiped b j) k = false := fun k hk hle => by
    unfold ownsChain freeMark
    simp [h2 k hk hle]
  refine ⟨a, ⟨ha, fun k hk hout i hi => h3 _ fun m h4 h5 => by omega,
    fun k hk hlt => ⟨?_, hfree k hk (Nat.le_of_lt hlt)⟩, .inr (.inr (owns_breaks ho)),
    .inr (.inl ?_)⟩, fun k hk hlt => (h1 k hk hlt).2, hfree j ha (Nat.le_refl j),
    fun he => ⟨fun k m hkm hm h0 => ?_, fun k hk hf h11 => ?_⟩⟩
  · unfold ownsChain skippedAttr
    simp [(h1 k hk hlt).2]
  · rw [h2 j ha (Nat.le_refl j)]
    rfl
  · have hmark : ∀ k, wiped b j (32 * k) = 0 → b (32 * k) = 0 := by
      intro k hk
      by_cases hin : a ≤ k ∧ k ≤ j
      · rw [h2 k hin.1 hin.2] at hk
        cases hk
      · rwa [h3 _ fun m h4 h5 => by omega] at hk
    have hzero := he.zero k m hkm hm (hmark k h0)
    by_cases hin : a ≤ m ∧ m ≤ j
    · rcases Nat.eq_or_lt_of_le hin.2 with rfl | hlt
      · exact absurd hzero (owns_mark ho)
      · exact absurd hzero (h1 m hin.1 hlt).1
    · rw [h3 _ fun k h4 h5 => by omega]
      exact hzero
  · -- a long-name entry that is left has an entry behind it that is left
    have hin : ¬ (a ≤ k ∧ k ≤ j) := by
      rintro ⟨h4, h5⟩
      rw [h2 k h4 h5] at hf
      cases hf
    rw [h3 _ fun m h4 h5 => by omega] at hf h11
    obtain ⟨h4, h5⟩ := he.long k hk hf h11
    refine ⟨h4, ?_⟩
    rw [h3 _ fun m h6 h7 e => ?_]
    · exact h5
    · rcases hstop k (by omega) with h | h
      · rw [hf] at h
        cases h
      · exact h h11

/-! ## New entries in free slots -/

def freeSlot (b : Bytes) (k : Nat) : Bool := freeMark (b (32 * k))

/-- The first `count` free slots in a row among the first `n`. -/
structure FirstRun (b : Bytes) (n count p : Nat) : Prop where
  inside : p + count ≤ n
  free : ∀ k, p ≤ k → k < p + count → freeSlot b k = true
  first : ∀ q < p, ∃ k, q ≤ k ∧ k < q + count ∧ freeSlot b k = false

theorem findRunFrom_spec (b : Bytes) {count : Nat} (left : Nat) : ∀ i run, run ≤ i → run < count →
    (∀ k, i - run ≤ k → k < i → freeSlot b k = true) → (∀ q < i - run, ∃ k, q ≤ k ∧ k < q + count ∧
    k < i ∧ freeSlot b k = false) →
    (∀ off, findRunFrom b count left i run = some off → ∃ p, off = 32 * p ∧ FirstRun b (i + left) count p) ∧
      (findRunFrom b count left i run = none → ∀ q, q + count ≤ i + left → ∃ k, q ≤ k ∧
      k < q + count ∧ freeSlot b k = false) := by
  induction left with
  | zero =>
    intro i run hle hlt _ hno
    refine ⟨fun off h => (by cases h), fun _ q hq => ?_⟩
    obtain ⟨k, h1, h2, -, h3⟩ := hno q (by omega)
    exact ⟨k, h1, h2, h3⟩
  | succ left ih =>
    intro i run hle hlt hfree hno
    unfold findRunFrom
    split
    · next hi =>
      have hi : freeSlot b i = true := hi
      have hfree' : ∀ k, i - run ≤ k → k < i + 1 → freeSlot b k = true := by
        intro k h1 h2
        rcases Nat.lt_succ_iff_lt_or_eq.1 h2 with h | rfl
        · exact hfree k h1 h
        · exact hi
      split
      · next hge =>
        refine ⟨fun off hoff => ⟨i - run, (Option.some.inj hoff).symm, by omega,
          fun k h1 h2 => hfree' k h1 (by omega), fun q hq => ?_⟩,
          fun h => by cases h⟩
        obtain ⟨k, h1, h2, -, h3⟩ := hno q hq
        exact ⟨k, h1, h2, h3⟩
      · next hge =>
        have hrec := ih (i + 1) (run + 1) (by omega) (by omega)
          (fun k h1 h2 => hfree' k (by omega) h2) fun q hq => by
          obtain ⟨k, h1, h2, h3, h4⟩ := hno q (by omega)
          exact ⟨k, h1, h2, by omega, h4⟩
        rwa [show i + 1 + left = i + (left + 1) by omega] at hrec
    · next hi =>
      have hi : freeSlot b i = false := by simpa [freeSlot] using hi
      have hrec := ih (i + 1) 0 (by omega) (by omega) (fun k h1 h2 => by omega) fun q hq => by
        rcases Nat.lt_or_ge q (i - run) with hlt' | hge
        · obtain ⟨k, h1, h2, h3, h4⟩ := hno q hlt'
          exact ⟨k, h1, h2, by omega, h4⟩
        · exact ⟨i, by omega, by omega, by omega, hi⟩
      rwa [show i + 1 + left = i + (left + 1) by omega] at hrec

theorem dirFindRun_some {count : Nat} (h : s.dirFindRun count = some off) :
    ∃ p, off = 32 * p ∧ FirstRun s.dir s.dirEnts count p := by
  unfold dirFindRun at h
  split at h
  · cases h
  · next h0 =>
    have := (findRunFrom_spec s.dir s.dirEnts 0 0 (Nat.le_refl 0) (Nat.pos_of_ne_zero h0)
      (fun k _ h2 => by omega) fun q hq => by omega).1 off h
    rwa [Nat.zero_add] at this

theorem dirFindRun_none {count q : Nat} (h : s.dirFindRun count = none) (h0 : count ≠ 0)
    (hq : q + count ≤ s.dirEnts) :
    ∃ k, q ≤ k ∧ k < q + count ∧ freeSlot s.dir k = false := by
  unfold dirFindRun at h
  rw [if_neg h0] at h
  exact (findRunFrom_spec s.dir s.dirEnts 0 0 (Nat.le_refl 0) (Nat.pos_of_ne_zero h0)
    (fun k _ h2 => by omega) fun q hq => by omega).2 h q (by omega)

theorem FirstRun.congr (h : FirstRun b n m i) (ha : Agree b' b (32 * n)) : FirstRun b' n m i := by
  have hslot : ∀ k < n, freeSlot b' k = freeSlot b k := fun k hk => by
    unfold freeSlot
    rw [ha _ (by omega)]
  refine ⟨h.inside, fun k h1 h2 => ?_, fun q hq => ?_⟩
  · rw [hslot k (by have := h.inside; omega)]
    exact h.free k h1 h2
  · obtain ⟨k, h1, h2, h3⟩ := h.first q hq
    exact ⟨k, h1, h2, by rwa [hslot k (by have := h.inside; omega)]⟩

/-- Entries are put into the slots from `p` on: `c` long-name entries, and one that owns the chain. -/
structure Placed (b b' : Bytes) (p c : Nat) : Prop where
  out : ∀ k, k < p ∨ p + c < k → SameSlot b b' k
  long : ∀ k, p ≤ k → k < p + c → freeMark (b' (32 * k)) = false ∧ b' (32 * k + 11) = 0x0F
  owns : ownsChain b' (p + c) = true

theorem Placed.block {p c : Nat} (h : Placed b b' p c) (hr : FirstRun b n (c + 1) p) :
    Block b b' n p (p + c) := by
  refine ⟨Nat.le_add_right p c, fun k _ hk => h.out k hk, fun k h1 h2 => ⟨?_, ?_⟩, ?_,
    .inr (.inr (owns_breaks h.owns))⟩
  · have := hr.free k h1 (by omega)
    unfold freeSlot at this
    simp [ownsChain, this]
  · unfold ownsChain skippedAttr
    simp [(h.long k h1 h2).2]
  · have hfree := hr.free (p + c) (by omega) (by omega)
    unfold freeSlot freeMark at hfree
    rw [Bool.or_eq_true] at hfree
    rcases hfree with h0 | h5
    · exact .inl (by simpa using h0)
    · exact .inr (.inl (by simp [skipMark, of_decide_eq_true h5]))

theorem Placed.tidy {p c : Nat} (h : Placed b b' p c) (hr : FirstRun b n (c + 1) p)
      (he : Tidy b n) : Tidy b' n := by
  have hinside := hr.inside
  have hrow : ∀ k, p ≤ k → k ≤ p + c → freeMark (b' (32 * k)) = false := by
    intro k h1 h2
    rcases Nat.eq_or_lt_of_le h2 with rfl | hlt
    · exact owns_used h.owns
    · exact (h.long k h1 hlt).1
  have hmark : ∀ k, freeMark (b' (32 * k)) = false → b' (32 * k) ≠ 0 := by
    intro k hk e
    rw [e] at hk
    cases hk
  constructor
  · intro k m hkm hm h0
    have hk : k < p ∨ p + c < k := by
      by_contra hin
      exact hmark k (hrow k (by omega) (by omega)) h0
    rw [(h.out k hk).mark] at h0
    have hm' : m < p ∨ p + c < m := by
      by_contra hin
      -- the slots from `k` on were free, and came first
      obtain ⟨x, h1, h2, h3⟩ := hr.first k (by omega)
      have := he.zero k x h1 (by omega) h0
      unfold freeSlot freeMark at h3
      simp [this] at h3
    rw [(h.out m hm').mark]
    exact he.zero k m hkm hm h0
  · intro k hk hf h11
    by_cases hin : p ≤ k + 1 ∧ k + 1 ≤ p + c
    · exact ⟨by omega, hrow _ hin.1 hin.2⟩
    · by_cases hlast : k = p + c
      · subst hlast
        exact absurd h11 (owns_breaks h.owns)
      · have hout := h.out k (by omega)
        rw [hout.mark] at hf
        rw [hout.attr] at h11
        rw [(h.out (k + 1) (by omega)).mark]
        exact he.long k hk hf h11

end VampireOS.Fs
