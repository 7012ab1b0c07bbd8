import VampireOS.Fs.Init

/-!
# What the primitive steps do when nothing fails (kernel/fs.c, kernel/bio.c)

A driver without errors answers every transfer that is not past the end of the device.
-/

namespace VampireOS

open Lib

namespace Fs

variable {s : Fs} {lba n : Nat}

theorem exec_driver (he : s.errs = []) : exec driver s = (some (), s) := by
  have hs : { s with errs := s.errs.tail } = s := by rw [he, List.tail_nil, ← he]
  unfold driver
  simp only [exec_bind, exec_gets, exec_upd, exec_need, Option.elim_some, hs]
  rw [he]
  rfl

theorem exec_fetch (he : s.errs = []) (hp : pastEnd s.dev lba n = false) :
    exec (fetch lba n) s = (some (), s) := by
  unfold fetch
  simp only [exec_bind, exec_gets, id, Option.elim_some, exec_need, hp]
  exact exec_driver he

theorem exec_bread (he : s.errs = []) (hp : pastEnd s.dev lba 1 = false) :
    exec (bread lba) s = (some (s.disk lba), s) := by
  unfold bread
  rw [exec_bind_of (exec_fetch he hp)]
  rfl

/-- The log of a write. -/
def logged (s : Fs) (lba n : Nat) : Fs := { s with sent := s.sent ++ [((lba + s.dev.part) % 2 ^ 32, n)] }

theorem exec_send (he : s.errs = []) (hp : pastEnd s.dev lba n = false) :
    exec (send lba n) s = (some (), s.logged lba n) := by
  unfold send
  simp only [exec_bind, exec_gets, id, Option.elim_some, exec_need, hp]
  exact exec_driver (s := s.logged lba n) he

theorem exec_bwrite (he : s.errs = []) (hp : pastEnd s.dev lba 1 = false) (b : Bytes) :
    exec (bwrite lba b) s = (some (), { s.logged lba 1 with disk := Function.update s.disk lba b }) := by
  unfold bwrite
  rw [exec_bind_of (exec_send he hp)]
  rfl

theorem exec_bwriteN (he : s.errs = []) (hp : pastEnd s.dev lba n = false) (b : Bytes) :
    exec (bwriteN lba n b) s = (some (), { s.logged lba n with
      disk := fun l => if lba ≤ l ∧ l < lba + n then fromByte b (secSize * (l - lba)) else s.disk l }) := by
  unfold bwriteN
  rw [exec_bind_of (exec_send he hp)]
  rfl

theorem exec_pageBuf (hp : s.pages ≠ 0) :
    exec pageBuf s = (some s.junk, { s with pages := s.pages - 1 }) := by
  unfold pageBuf
  simp only [exec_bind, exec_gets, id, Option.elim_some, exec_need, decide_eq_true hp, if_true,
    exec_upd, exec_pure]

theorem exec_fatFlush (he : s.errs = []) (h1 : pastEnd s.dev s.geo.rsvd s.geo.fatsz = false)
    (h2 : pastEnd s.dev (s.geo.rsvd + s.geo.fatsz) s.geo.fatsz = false) :
    ∃ d l, exec fatFlush s = (some (), { s with disk := d, sent := s.sent ++ l }) := by
  unfold fatFlush
  rw [exec_bind_of (exec_gets _ _)]
  simp only [id]
  rw [exec_bind_of (exec_bwriteN he h1 s.fat), exec_bwriteN (by exact he) (by exact h2)]
  exact ⟨_, _, by simp only [logged, List.append_assoc]; rfl⟩

theorem exec_dirLoad_one {s : Fs} {lba : Nat} (he : s.errs = []) (hp : pastEnd s.dev lba 1 = false)
    (hs : s.dirSectors = [lba]) : exec dirLoad s =
      (some (), { s with dir := putBytes s.dir 0 (s.disk lba) secSize, dirBytes := secSize }) := by
  have hload : exec (dirLoadFrom 0 [lba]) s =
      (some (), { s with dir := putBytes s.dir 0 (s.disk lba) secSize, dirBytes := secSize }) := by
    unfold dirLoadFrom
    rw [exec_bind_of (exec_bread he hp), exec_bind_of (exec_upd _ _)]
    rfl
  unfold dirLoad
  rw [exec_bind_of (exec_gets _ _)]
  simp only [id, hs]
  rw [exec_bind_of hload]
  simp

/-- A FAT of zeros. -/
theorem fat12Ent_zero (g : Geo) (cl : Nat) :
    fat12Ent g (fun _ => 0) cl = 0 ∨ fat12Ent g (fun _ => 0) cl = fat12Eof := by
  unfold fat12Ent
  simp only
  split
  · exact .inr rfl
  · refine .inl ?_
    split <;> simp

theorem chain_zero (g : Geo) (n cl : Nat) (h : isCluster cl = true) :
    chain g (fun _ => 0) (n + 1) cl = [cl] := by
  unfold chain
  rw [if_pos h]
  cases n with
  | zero => rfl
  | succ n =>
    unfold chain
    rcases fat12Ent_zero g cl with e | e <;> rw [e] <;> rfl

theorem exec_loadFile_zero (dst : Bytes) (start : Nat) (s : Fs) :
    exec (loadFile dst start 0) s = (some (dst, true), s) := by
  unfold loadFile
  rw [exec_bind_of (exec_gets _ _)]
  cases chain (id s).geo (id s).fat chainMax start <;> rfl

theorem exec_loadFat {s : Fs} {g : Geo} (he : s.errs = []) (hp : pastEnd s.dev g.rsvd g.fatsz = false) :
    exec (loadFat g) s = (some (), { s with
      fat := putBytes s.fat 0 (fun i => s.disk (g.rsvd + i / secSize) (i % secSize)) (fatBytes g) }) := by
  unfold loadFat
  rw [exec_bind_of (exec_fetch he hp)]
  rfl

end Fs

end VampireOS
