import VampireOS.Memory.Runs

/-!
# Reading user memory

What the processor or the kernel reads at an address of a task is the byte of its abstract memory,
and bytes that `copy_to_user_pml4` has stored are read back.
-/

namespace VampireOS

/-- The byte at `va`, when its page is there. -/
def readByte (A : TaskMem) (va : Nat) : Option UInt8 := (A (vpn va)).map fun pg => pg.bytes (offset va)

theorem readByte_storeByte {A A' : TaskMem} {va w : Nat} {b : UInt8} (h : storeByte A va b = some A') :
    readByte A' w = if vpn w = vpn va ∧ offset w = offset va then some b else readByte A w := by
  unfold storeByte at h
  cases hpg : A (vpn va) with
  | none => rw [hpg] at h; cases h
  | some pg =>
    rw [hpg] at h
    simp only at h
    split at h
    · cases h
      unfold readByte
      by_cases hn : vpn w = vpn va
      · rw [hn, Function.update_self]
        by_cases ho : offset w = offset va
        · simp [ho, UserPage.setByte]
        · simp [ho, hpg, UserPage.setByte]
      · simp [hn]
    · cases h

theorem succ_in_page {va n : Nat} (hva : va < 2 ^ 64) (hp : va % pageSize + (n + 1) ≤ pageSize) (hn : n ≠ 0) :
    (va + 1) % 2 ^ 64 = va + 1 ∧ (va + 1) % pageSize = va % pageSize + 1 := by
  unfold pageSize at *
  omega

/-- Bytes stored within a page leave what lies below them in it. -/
theorem readByte_storeBytes_below {bs : List UInt8} {A A' : TaskMem} {va w : Nat}
    (hva : va < 2 ^ 64) (hp : va % pageSize + bs.length ≤ pageSize)
    (h : storeBytes A va bs = some A') (hw : w % pageSize < va % pageSize) :
    readByte A' w = readByte A w := by
  induction bs generalizing A va with
  | nil =>
    cases h
    rfl
  | cons b bs ih =>
    unfold storeBytes at h
    cases hb : storeByte A va b with
    | none => rw [hb] at h; cases h
    | some A1 =>
      rw [hb] at h
      simp only at h
      have hfirst : readByte A1 w = readByte A w := by
        rw [readByte_storeByte hb, if_neg]
        rintro ⟨-, ho⟩
        exact absurd (congrArg Fin.val ho) (Nat.ne_of_lt hw)
      rw [← hfirst]
      cases bs with
      | nil =>
        cases h
        rfl
      | cons c bs =>
        obtain ⟨e1, e2⟩ := succ_in_page hva hp (Nat.succ_ne_zero _)
        rw [e1] at h
        simp only [List.length_cons] at hp
        exact ih (by omega) (by simp only [List.length_cons]; omega) h (by omega)

/-- They are read back. -/
theorem readByte_storeBytes {bs : List UInt8} {A A' : TaskMem} {va : Nat} (hva : va < 2 ^ 64)
    (hp : va % pageSize + bs.length ≤ pageSize) (h : storeBytes A va bs = some A') {i : Nat}
    (hi : i < bs.length) :
    readByte A' (va + i) = some bs[i] := by
  induction bs generalizing A va i with
  | nil => cases hi
  | cons b bs ih =>
    unfold storeBytes at h
    cases hb : storeByte A va b with
    | none => rw [hb] at h; cases h
    | some A1 =>
      rw [hb] at h
      simp only at h
      have hfirst : readByte A1 va = some b := by rw [readByte_storeByte hb, if_pos ⟨rfl, rfl⟩]
      cases bs with
      | nil =>
        cases h
        obtain rfl : i = 0 := by simpa using hi
        exact hfirst
      | cons c bs =>
        obtain ⟨e1, e2⟩ := succ_in_page hva hp (Nat.succ_ne_zero _)
        rw [e1] at h
        simp only [List.length_cons] at hp hi
        have hlt : va + 1 < 2 ^ 64 := by omega
        have hp' : (va + 1) % pageSize + (c :: bs).length ≤ pageSize := by simp only [List.length_cons]; omega
        cases i with
        | zero =>
          rw [Nat.add_zero, readByte_storeBytes_below hlt hp' h (by omega)]
          exact hfirst
        | succ i =>
          have := ih hlt hp' h (i := i) (by simp only [List.length_cons]; omega)
          rwa [show va + 1 + i = va + (i + 1) by omega] at this

namespace Space

/-- What `MemSys.peek` reads. -/
def peekByte (s : Space) (r va : Nat) : Option UInt8 := (vmmTranslateUser s.vm r va).map s.vm.mem

theorem peekByte_eq {s : Space} (h : s.Inv) {r : Nat} (hr : r ∈ s.roots) (va : Nat) :
    s.peekByte r va = readByte (s.mems r) va := by
  unfold peekByte readByte mems taskMem
  cases ht : vmmTranslateUser s.vm r va with
  | none =>
    split
    · rename_i hv
      rw [absMem, (VmInv.vmmTranslateUser_none h hr hv).1 ht]
      rfl
    · rfl
  | some phys =>
    obtain ⟨hv, l, hl, rfl⟩ := VmInv.vmmTranslateUser_some h hr ht
    rw [if_pos hv, absMem, hl]
    rfl

/-- Bytes that the kernel has stored within a page are read back. -/
theorem peekByte_copyTo {s : Space} (h : s.Inv) {r va : Nat} {bs : List UInt8} (hva : va < 2 ^ 64)
    (hp : va % pageSize + bs.length ≤ pageSize) (hok : (s.step (.copyTo r va bs)).2.isSome = true) {i : Nat}
    (hi : i < bs.length) : (s.step (.copyTo r va bs)).1.peekByte r (va + i) = some bs[i] := by
  obtain ⟨a, ha⟩ := Option.isSome_iff_exists.1 hok
  obtain ⟨hinv, hsucc, -⟩ := step_ok h (.copyTo r va bs)
  obtain ⟨A, hA, hmems⟩ := hsucc a ha
  have hr : r ∈ (s.step (.copyTo r va bs)).1.roots := by
    simp only [step, onTask] at ha ⊢
    split at ha
    · rename_i hr
      rw [if_pos hr]
      exact hr
    · cases ha
  simp only [eager] at hA
  obtain ⟨B, hB, rfl⟩ := Option.map_eq_some_iff.1 hA
  rw [peekByte_eq hinv hr, hmems r hr, Function.update_self]
  exact readByte_storeBytes hva hp hB hi

end Space

end VampireOS
