import VampireOS.Sched.Reach

/-!
# What a failed read consumes (kernel/user.c:1336-1436)

`readTakes` are the bytes at hand for the read: of a pipe the first ones in its ring, of the console the
line that is pending. Both are taken out before they are copied to the user; a file's offset is moved after.
-/

namespace VampireOS

open Lib

namespace Kernel

variable {M : Type} {k k' : Kernel M}

/-- The rings, the pending line and the file offsets of the current task are as they were. -/
structure ReadKept (k k' : Kernel M) : Prop where
  head : ∀ p, (k'.pipes p).head = (k.pipes p).head
  len : ∀ p, (k'.pipes p).len = (k.pipes p).len
  data : ∀ p, (k'.pipes p).data = (k.pipes p).data
  stdin : k'.stdin = k.stdin
  offset : ∀ j, ((k'.tasks k.current).fds j).offset = ((k.tasks k.current).fds j).offset

/-- The descriptor reads the console; an unused descriptor 0 does too. -/
def readsConsole (k : Kernel M) : Bool :=
  k.schedFdKind (toInt k.frame.rdi) = .consoleR ||
    (k.schedFdKind (toInt k.frame.rdi) = .none && toInt k.frame.rdi = 0)

/-- The call waits: it has not returned. -/
def ReadWaits (k : Kernel M) : Prop :=
  wantOf k.frame.rdx ≠ 0 ∧
    ((k.schedFdKind (toInt k.frame.rdi) = .pipeR ∧
        (k.schedPipeRead (toInt k.frame.rdi) (wantOf k.frame.rdx)).2 = .block) ∨
      (k.readsConsole = true ∧ k.stdin = none))

def readTakes (k : Kernel M) : List UInt8 :=
  if k.schedFdKind (toInt k.frame.rdi) = .pipeR then
    (k.pipeEnd (toInt k.frame.rdi) .pipeR).elim [] fun p =>
      (List.range (min (wantOf k.frame.rdx) (k.pipes p).len)).map fun i =>
        (k.pipes p).data (((k.pipes p).head + i) &&& pipeMask)
  else if k.readsConsole then (k.stdin.getD []).take (wantOf k.frame.rdx)
  else []

theorem ReadKept.of_eq (hp : k'.pipes = k.pipes) (hs : k'.stdin = k.stdin)
      (ht : k'.tasks = k.tasks) : ReadKept k k' :=
  ⟨fun _ => by rw [hp], fun _ => by rw [hp], fun _ => by rw [hp], hs, fun _ => by rw [ht]⟩

theorem wantOf_le (x : UInt64) : wantOf x ≤ fileMax := Nat.min_le_right _ _

/-- A count is not -1. -/
theorem count_ne_minusOne {n : Nat} (h : n ≤ fileMax) : UInt64.ofNat n ≠ minusOne := by
  intro he
  have hn := congrArg UInt64.toNat he
  rw [UInt64.toNat_ofNat', Nat.mod_eq_of_lt (by simp only [fileMax] at h; omega)] at hn
  rw [hn] at h
  exact absurd h (by decide)

variable [MemSys M]

theorem copyToUser_ok (k' : Kernel M) (h : k'.mem = k.mem) (hc : k'.currentCr3 = k.currentCr3)
    (dst : UInt64) (src : List UInt8) :
    (k'.copyToUser dst src).2 = (k.copyToUser dst src).2 := by
  unfold copyToUser
  split
  · rfl
  · rw [memAsk, memAsk, h, hc]

/-- Once the bytes are out of their place, only the copy decides. -/
theorem answerBytes_rax {dst : UInt64} {src : List UInt8} (h : src.length ≤ fileMax) :
    (k.answerBytes dst src).frame.rax = minusOne ↔ (k.copyToUser dst src).2 = false := by
  unfold answerBytes setAnswer setRax
  dsimp only
  cases (k.copyToUser dst src).2 with
  | false => simp
  | true => simpa using count_ne_minusOne h

theorem answerBytes_same (dst : UInt64) (src : List UInt8) : (k.answerBytes dst src).pipes = k.pipes ∧
    (k.answerBytes dst src).stdin = k.stdin := by
  have hmem := (copyToUser_mem (k := k) dst src).eq
  unfold answerBytes setAnswer setRax
  dsimp only
  rw [hmem]
  exact ⟨rfl, rfl⟩

omit [MemSys M] in
theorem wakePipeWaiters_cr3 (k : Kernel M) (p : Nat) : (k.wakePipeWaiters p).currentCr3 = k.currentCr3 := by
  unfold currentCr3 wakePipeWaiters
  dsimp only
  split
  · unfold wakeWaiter
    split <;> rfl
  · rfl

/-! ## The three sources -/

/-- A pipe: the bytes are gone before they are copied. -/
theorem readPipe_keeps {fd : Int} {want : Nat} (hle : want ≤ fileMax)
    (hw : want ≠ 0 → (k.schedPipeRead fd want).2 ≠ .block) :
    ((k.readPipe fd want).frame.rax = minusOne → ReadKept k (k.readPipe fd want)) ↔
      (k.copyToUser k.frame.rsi ((k.pipeEnd fd .pipeR).elim [] fun p =>
        (List.range (min want (k.pipes p).len)).map fun i => (k.pipes p).data
        (((k.pipes p).head + i) &&& pipeMask))).2 =
        true := by
  unfold readPipe
  by_cases h0 : want = 0
  · subst h0
    rw [if_pos rfl]
    refine iff_of_true (fun h => absurd (show (0 : UInt64) = minusOne from h) (by decide)) ?_
    cases k.pipeEnd fd .pipeR <;> simp [copyToUser]
  · rw [if_neg h0]
    have hw := hw h0
    unfold schedPipeRead at hw ⊢
    rw [if_neg h0] at hw ⊢
    cases hp : k.pipeEnd fd .pipeR with
    | none => exact iff_of_true (fun _ => .of_eq rfl rfl rfl) (by simp [copyToUser])
    | some p =>
      rw [hp] at hw
      dsimp only [Option.elim] at hw ⊢
      by_cases hl : (k.pipes p).len = 0
      · rw [if_pos hl] at hw ⊢
        by_cases hr : (k.pipes p).wrefs = 0
        · rw [if_pos hr, hl]
          refine iff_of_true (fun h => ?_) (by simp [copyToUser])
          exact .of_eq rfl rfl rfl
        · exact absurd (if_neg hr) hw
      · rw [if_neg hl]
        dsimp only
        set out := (List.range (min want (k.pipes p).len)).map fun i =>
          (k.pipes p).data (((k.pipes p).head + i) &&& pipeMask) with hout
        have hlen : out.length ≤ fileMax := by
          rw [hout, List.length_map, List.length_range]
          exact (Nat.min_le_left _ _).trans hle
        set k1 := (k.modPipe p fun q => { q with
          head := (q.head + min want (k.pipes p).len) &&& pipeMask, len := q.len - min want (k.pipes p).len,
          returned := q.returned ++ out }).wakePipeWaiters p with hk1
        have hok := copyToUser_ok (k := k) k1 rfl (wakePipeWaiters_cr3 _ p) k.frame.rsi out
        have hgone : ¬ReadKept k (k1.answerBytes k.frame.rsi out) := by
          intro h
          have hlp := h.len p
          rw [(answerBytes_same _ _).1] at hlp
          simp only [hk1, wakePipeWaiters, modPipe, Function.update_self] at hlp
          omega
        rw [show k1.frame.rsi = k.frame.rsi from rfl, answerBytes_rax hlen, hok]
        cases (k.copyToUser k.frame.rsi out).2 with
        | true => simp
        | false => simpa using hgone

/-- The console: the line is gone before it is copied. -/
theorem readConsole_keeps {want : Nat} (hle : want ≤ fileMax) (hw : want ≠ 0 → k.stdin ≠ none) :
    ((k.readConsole want).frame.rax = minusOne → ReadKept k (k.readConsole want)) ↔
      (k.copyToUser k.frame.rsi ((k.stdin.getD []).take want)).2 = true := by
  unfold readConsole
  by_cases h0 : want = 0
  · subst h0
    rw [if_pos rfl]
    exact iff_of_true (fun h => absurd (show (0 : UInt64) = minusOne from h) (by decide))
      (by simp [copyToUser])
  · rw [if_neg h0]
    cases hs : k.stdin with
    | none => exact absurd hs (hw h0)
    | some line =>
      dsimp only [Option.getD]
      have hlen : (line.take want).length ≤ fileMax := by
        rw [List.length_take]
        exact (Nat.min_le_left _ _).trans hle
      have hok := copyToUser_ok (k := k) { k with stdin := none } rfl rfl k.frame.rsi (line.take want)
      have hgone : ¬ReadKept k ({ k with stdin := none }.answerBytes k.frame.rsi (line.take want)) := by
        intro h
        have h1 := h.stdin
        rw [(answerBytes_same _ _).2, hs] at h1
        cases h1
      rw [answerBytes_rax hlen, hok]
      cases (k.copyToUser k.frame.rsi (line.take want)).2 with
      | true => simp
      | false => simpa using hgone

/-- A file: the offset moves after the copy. -/
theorem readFile_keeps {fd : Int} {path : Name} {want : Nat} (hle : want ≤ fileMax)
    (h : (k.readFile fd path want).frame.rax = minusOne) : ReadKept k (k.readFile fd path want) := by
  unfold readFile answering at h ⊢
  dsimp only at h ⊢
  cases hm : (k.setCr3 pml4Phys).fsAsk ((k.setCr3 pml4Phys).inCwd (Fs.fsLookup path)) with
  | none => exact .of_eq rfl rfl rfl
  | some r =>
    obtain ⟨data, len⟩ := r
    rw [hm] at h
    dsimp only at h ⊢
    set k1 := (((k.setCr3 pml4Phys).fsDo ((k.setCr3 pml4Phys).inCwd (Fs.fsLookup path))).restoreCr3) with hk1
    generalize hoff : (k.setCr3 pml4Phys).schedFdOffset fd = off at h ⊢
    set got := (if off ≥ min len fileMax then 0 else min want (min len fileMax - off)) with hgot
    unfold readDone at h ⊢
    dsimp only at h ⊢
    have hmem := (copyToUser_mem (k := k1) k1.frame.rsi ((List.range got).map fun i => data (off + i))).eq
    cases hc : (k1.copyToUser k1.frame.rsi ((List.range got).map fun i => data (off + i))).2 with
    | false =>
      rw [if_neg (by decide), hmem]
      exact .of_eq rfl rfl rfl
    | true =>
      rw [hc, if_pos rfl] at h
      have hle' : got ≤ fileMax := by
        rw [hgot]
        split
        · exact Nat.zero_le _
        · exact (Nat.min_le_left _ _).trans hle
      exact absurd h (count_ne_minusOne hle')

/-! ## SYS_READ -/

/-- A read with -1 for an answer has consumed nothing. -/
def ReadKeeps (k : Kernel M) : Prop := ¬k.ReadWaits → k.sysRead.frame.rax = minusOne → ReadKept k k.sysRead

omit [MemSys M] in
/-- A read that waits has nothing at hand. -/
theorem readTakes_waits (hw : k.ReadWaits) : k.readTakes = [] := by
  obtain ⟨h0, ⟨hkind, hb⟩ | ⟨hc, hs⟩⟩ := hw
  · unfold readTakes
    rw [if_pos hkind]
    unfold schedPipeRead at hb
    rw [if_neg h0] at hb
    cases hp : k.pipeEnd (toInt k.frame.rdi) .pipeR with
    | none => rfl
    | some p =>
      rw [hp] at hb
      dsimp only [Option.elim] at hb ⊢
      by_cases hl : (k.pipes p).len = 0
      · rw [hl, Nat.min_zero]
        rfl
      · rw [if_neg hl] at hb
        cases hb
  · unfold readTakes
    split
    · rename_i hkind
      simp [readsConsole, hkind] at hc
    · rw [hs]
      exact List.take_nil

/-- **A read that returns -1 has consumed nothing** exactly when the bytes at hand fit the user's buffer. -/
theorem read_keeps (k : Kernel M) : k.ReadKeeps ↔ (k.copyToUser k.frame.rsi k.readTakes).2 = true := by
  have hempty : (k.copyToUser k.frame.rsi []).2 = true := by simp [copyToUser]
  unfold ReadKeeps
  by_cases hw : k.ReadWaits
  · rw [readTakes_waits hw]
    exact iff_of_true (fun h => absurd hw h) hempty
  simp only [hw, not_false_eq_true, forall_const]
  have hle := wantOf_le k.frame.rdx
  unfold ReadWaits at hw
  unfold sysRead readTakes readsConsole
  unfold readsConsole at hw
  dsimp only
  generalize toInt k.frame.rdi = fd at hw ⊢
  generalize wantOf k.frame.rdx = want at hw hle ⊢
  cases hkind : k.schedFdKind fd with
  | pipeR =>
    rw [if_pos rfl]
    exact readPipe_keeps hle fun h0 hb => hw ⟨h0, .inl ⟨hkind, hb⟩⟩
  | consoleR =>
    simp only [reduceCtorEq, if_false, decide_true, Bool.true_or, if_true]
    exact readConsole_keeps hle fun h0 hs => hw ⟨h0, .inr ⟨by simp [hkind], hs⟩⟩
  | none =>
    by_cases h0 : fd = 0
    · simp only [reduceCtorEq, if_false, h0, decide_true, Bool.and_true, Bool.or_true, if_true]
      exact readConsole_keeps hle fun hn hs => hw ⟨hn, .inr ⟨by rw [hkind]; simp [h0], hs⟩⟩
    · simp only [reduceCtorEq, if_false, h0, decide_false, Bool.and_false, Bool.or_false, Bool.false_eq_true]
      exact iff_of_true (fun _ => .of_eq rfl rfl rfl) hempty
  | file =>
    simp only [reduceCtorEq, if_false, decide_false, Bool.false_and, Bool.or_false, Bool.false_eq_true]
    refine iff_of_true (fun h => ?_) hempty
    cases hp : k.schedFdPath fd with
    | none => exact .of_eq rfl rfl rfl
    | some path =>
      rw [hp] at h
      exact readFile_keeps hle h
  | pipeW => exact iff_of_true (fun _ => .of_eq rfl rfl rfl) (by simpa using hempty)
  | consoleW => exact iff_of_true (fun _ => .of_eq rfl rfl rfl) (by simpa using hempty)

/-- The first task waits for a line; one is typed while the second runs, which asks for it with a
bad buffer. -/
def badReader : Kernel Space :=
  ((twoTasks smallSpace).run [.syscall { callFrame 8 0 0x401000 with rdx := 39 } smallIo,
    .irq (.start 0 0) 100 [] [.line [65, 10]]]).trap { callFrame 8 0 0x500000 with rdx := 39 }

theorem bad_read_loses_line : badReader.mode = .user ∧ ¬badReader.ReadKeeps := by
  have hstate : badReader.mode = .user ∧ badReader.schedFdKind (toInt badReader.frame.rdi) = .consoleR ∧
      badReader.stdin = some [65, 10] ∧ badReader.sysRead.frame.rax = minusOne ∧
        badReader.sysRead.stdin = none := by
    decide +kernel
  obtain ⟨hm, hkind, hs, hrax, hgone⟩ := hstate
  refine ⟨hm, fun h => ?_⟩
  have hw : ¬badReader.ReadWaits := by
    rintro ⟨-, ⟨h1, -⟩ | ⟨-, h1⟩⟩
    · rw [hkind] at h1
      cases h1
    · rw [hs] at h1
      cases h1
  have hkept := (h hw hrax).stdin
  rw [hgone, hs] at hkept
  cases hkept

end Kernel

end VampireOS
