import VampireOS.Lib.Loop
import Mathlib.Data.BitVec

/-!
# The virtio block device and its driver (kernel/virtio.c:460-733, 862-893)

| here | there |
| --- | --- |
| `Header`, `data`, `status` | the request header, the data buffer and the status byte |
| `avail`, `usedSeen` | `avail_idx`, stored to the available ring by `vq_kick`; `used_seen` |
| `used` | `*vq_used_idx()`, written by the device |
| `begin`, `reset`, `load`, `kick` | the stores of `vq_read_one` and `vq_write_one`, and `vq_kick` |
| `poll`, `note` | one turn of `wait_used` |
| `check`, `finish` | the test of `*st`, and the copy to the caller |

`virtio_read` and `virtio_write` are such requests one after another, ended by the first that fails.
Every entry of the available ring names descriptor chain 0, so an entry is its number. The device
takes entries in order and reads the header then; it moves the data, answers and counts the entry as
used when it likes. It may also answer with an error, and leave any bytes where it was to move the
data. `good` is what the writes that returned 0 left, and `answers` what the callers got.
-/

namespace VampireOS.Virtio

open Lib

/-- `WAIT_MAX`. -/
def waitMax : Nat := 1000000

/-- `VIRTIO_BLK_S_IOERR`. -/
def ioErr : UInt8 := 1

abbrev Sector := Fin 512 → UInt8

inductive Req where
  | read (lba : Nat)
  | write (lba : Nat) (src : Sector)

structure Header where
  isWrite : Bool
  sector : Nat
deriving DecidableEq, Repr

def Req.header : Req → Header
  | .read lba => ⟨false, lba⟩
  | .write lba _ => ⟨true, lba⟩

/-- What the driver puts into the data buffer. -/
def Req.out : Req → Sector
  | .read _ => fun _ => 0
  | .write _ src => src

def Req.isWrite (r : Req) : Bool := r.header.isWrite

inductive Stage where
  | started
  | moved
  | answered
deriving DecidableEq, Repr

/-- An entry the device works on, with the header it read. -/
structure Job where
  header : Header
  stage : Stage
deriving DecidableEq, Repr

/-- Where the driver is. -/
inductive Phase where
  | idle
  | headed (r : Req)
  | cleared (r : Req)
  | loaded (r : Req)
  | waiting (r : Req) (left : Nat)
  | seen (r : Req)
  | checking (r : Req)
  | copying (r : Req)

/-- What a request returned 0 with: the sector asked for, the bytes, and what `good` or the disk
held for it. -/
inductive Answer where
  | read (lba : Nat) (dst want : Sector)
  | wrote (lba : Nat) (src stored : Sector)

structure Sys where
  header : Header
  data : Sector
  status : UInt8
  avail : BitVec 16
  used : BitVec 16
  usedSeen : BitVec 16
  phase : Phase
  taken : BitVec 16
  jobs : List Job
  disk : Nat → Sector
  good : Nat → Sector
  answers : List Answer

inductive Ev where
  | begin (r : Req)
  | reset
  | load
  | kick
  | poll
  | note
  | check
  | finish
  | take
  | move (i : Nat)
  | answer (i : Nat)
  | fail (i : Nat) (b : Sector)
  | count (i : Nat)

/-- What the device does on its own. -/
def Ev.device : Ev → Bool
  | .take => true
  | .move _ => true
  | .answer _ => true
  | .fail _ _ => true
  | .count _ => true
  | _ => false

namespace Sys

/-! ## The driver -/

/-- `wait_used`: one look at the used index. -/
def pollUsed (s : Sys) (r : Req) (left : Nat) : Sys :=
  if s.used ≠ s.usedSeen then { s with phase := .seen r }
  else if left ≤ 1 then { s with phase := .idle }
  else { s with phase := .waiting r (left - 1) }

/-- The request returns 0. -/
def done (s : Sys) : Req → Sys
  | .read lba => { s with phase := .idle, answers := s.answers ++ [.read lba s.data (s.good lba)] }
  | .write lba src => { s with
      phase := .idle, good := Function.update s.good lba src, answers :=
        s.answers ++ [.wrote lba src (s.disk lba)] }

/-! ## The device -/

/-- The transfer of a job. -/
def transfer (s : Sys) (h : Header) : Sys :=
  if h.isWrite then { s with disk := Function.update s.disk h.sector s.data }
    else { s with data := s.disk h.sector }

/-- A transfer that fails: the bytes `b` are in its place. -/
def spoil (b : Sector) (s : Sys) (h : Header) : Sys :=
  if h.isWrite then { s with disk := Function.update s.disk h.sector b, status := ioErr }
    else { s with data := b, status := ioErr }

/-- Job `i` goes from one stage to the next. -/
def advance (s : Sys) (i : Nat) (stage : Stage) (act : Sys → Header → Sys) (next : Option Stage) : Sys :=
  match s.jobs[i]? with
  | none => s
  | some j =>
    if j.stage = stage then
      { act s j.header with
        jobs := next.elim (s.jobs.eraseIdx i) fun st => s.jobs.set i { j with stage := st } }
    else s

/-- An event that is not possible leaves everything as it is. -/
def step (s : Sys) : Ev → Sys
  | .begin r =>
    match s.phase with
    | .idle => { s with phase := .headed r, header := r.header }
    | _ => s
  | .reset =>
    match s.phase with
    | .headed r => { s with phase := .cleared r, status := 0xFF }
    | _ => s
  | .load =>
    match s.phase with
    | .cleared r => { s with phase := .loaded r, data := r.out }
    | _ => s
  | .kick =>
    match s.phase with
    | .loaded r => { s with phase := .waiting r waitMax, avail := s.avail + 1 }
    | _ => s
  | .poll =>
    match s.phase with
    | .waiting r left => s.pollUsed r left
    | _ => s
  | .note =>
    match s.phase with
    | .seen r => { s with phase := .checking r, usedSeen := s.used }
    | _ => s
  | .check =>
    match s.phase with
    | .checking r => { s with phase := if s.status = 0 then .copying r else .idle }
    | _ => s
  | .finish =>
    match s.phase with
    | .copying r => s.done r
    | _ => s
  | .take => if s.taken = s.avail then s
      else { s with taken := s.taken + 1, jobs := s.jobs ++ [⟨s.header, .started⟩] }
  | .move i => s.advance i .started transfer (some .moved)
  | .answer i => s.advance i .moved (fun s _ => { s with status := 0 }) (some .answered)
  | .fail i b => s.advance i .started (spoil b) (some .answered)
  | .count i => s.advance i .answered (fun s _ => { s with used := s.used + 1 }) none

def run (s : Sys) (es : List Ev) : Sys := es.foldl step s

/-- Nothing was asked for yet. -/
structure Boot (s : Sys) : Prop where
  phase : s.phase = .idle
  taken : s.taken = s.avail
  jobs : s.jobs = []
  good : s.good = s.disk
  answers : s.answers = []

/-! ## Runs without a late completion -/

/-- A request begins only when the device has done all there was to do, and no write is given up:
the driver does not run out of turns on one, and the status is 0 when it looks, so that the device
has not failed and the completion is no older one. -/
def Calm (s : Sys) : Ev → Prop
  | .begin _ => s.taken = s.avail ∧ s.jobs = []
  | .poll =>
    match s.phase with
    | .waiting r left => r.isWrite = true → left ≤ 1 → s.used ≠ s.usedSeen
    | _ => True
  | .check =>
    match s.phase with
    | .checking r => r.isWrite = true → s.status = 0
    | _ => True
  | _ => True

instance (s : Sys) (e : Ev) : Decidable (s.Calm e) := by
  unfold Calm
  split
  · infer_instance
  · split <;> infer_instance
  · split <;> infer_instance
  · infer_instance

def CalmRun (s : Sys) : List Ev → Prop
  | [] => True
  | e :: es => s.Calm e ∧ (s.step e).CalmRun es

instance decidableCalmRun : ∀ (s : Sys) (es : List Ev), Decidable (s.CalmRun es)
  | _, [] => isTrue trivial
  | s, e :: es => by
    have := decidableCalmRun (s.step e) es
    exact inferInstanceAs (Decidable (_ ∧ _))

end Sys

/-- The destination holds what the successful writes left; the data is on the disk. -/
def Answer.Right : Answer → Prop
  | .read _ dst want => dst = want
  | .wrote _ src stored => stored = src

/-! ## One request at a time -/

namespace Sys

variable {s : Sys} {r : Req}

/-- The device has not touched the request. -/
structure Fresh (s : Sys) (r : Req) : Prop where
  disk : s.disk = s.good
  data : s.data = r.out
  status : s.status = 0xFF

/-- The transfer has been done. -/
def Moved (s : Sys) : Req → Prop
  | .read lba => s.disk = s.good ∧ s.data = s.good lba
  | .write lba src => s.data = src ∧ s.disk = Function.update s.good lba src

/-- At most the count is left to do. -/
def Over (jobs : List Job) : Prop := jobs = [] ∨ ∃ h, jobs = [⟨h, .answered⟩]

/-- How far the device is with the only request there is. -/
inductive Work (s : Sys) (r : Req) : Prop where
  | queued (ht : s.taken + 1 = s.avail) (hj : s.jobs = []) (hh : s.header = r.header) (hf : s.Fresh r)
  | started (ht : s.taken = s.avail) (hj : s.jobs = [⟨r.header, .started⟩]) (hf : s.Fresh r)
  | moved (ht : s.taken = s.avail) (hj : s.jobs = [⟨r.header, .moved⟩]) (hs : s.status = 0xFF)
      (hm : s.Moved r)
  | ended (ht : s.taken = s.avail) (hj : Over s.jobs) (hm : s.Moved r)
  | failed (ht : s.taken = s.avail) (hj : Over s.jobs) (hs : s.status = ioErr)
      (hd : r.isWrite ≠ true → s.disk = s.good)

/-- The device has done everything. -/
structure Quiet (s : Sys) : Prop where
  taken : s.taken = s.avail
  jobs : s.jobs = []
  disk : s.disk = s.good

/-- What the phase of the driver says about the device. -/
def PhaseInv (s : Sys) : Phase → Prop
  | .idle => (∃ lba, s.Work (.read lba)) ∨ (s.taken = s.avail ∧ Over s.jobs ∧ s.disk = s.good)
  | .headed r => s.Quiet ∧ s.header = r.header
  | .cleared r => s.Quiet ∧ s.header = r.header ∧ s.status = 0xFF
  | .loaded r => s.Quiet ∧ s.header = r.header ∧ s.status = 0xFF ∧ s.data = r.out
  | .waiting r _ => s.Work r
  | .seen r => s.Work r
  | .checking r => s.Work r
  | .copying r => s.taken = s.avail ∧ Over s.jobs ∧ s.Moved r

structure Inv (s : Sys) : Prop where
  phase : s.PhaseInv s.phase
  answers : ∀ a ∈ s.answers, a.Right

theorem succ_ne (x : BitVec 16) : x + 1 ≠ x := by
  intro h
  bv_omega

/-! ### Steps of the device -/

theorem advance_none {i : Nat} {stage : Stage} {act : Sys → Header → Sys} {next : Option Stage}
    (h : s.jobs = []) :
    s.advance i stage act next = s := by
  unfold advance
  rw [h]
  rfl

theorem advance_other {i : Nat} {j : Job} {stage : Stage} {act : Sys → Header → Sys} {next : Option Stage}
    (h : s.jobs = [j]) (hne : j.stage ≠ stage) : s.advance i stage act next = s := by
  unfold advance
  rw [h]
  cases i with
  | zero =>
    simp only [List.getElem?_cons_zero]
    rw [if_neg hne]
  | succ i => rfl

theorem advance_cases {j : Job} {stage : Stage} (i : Nat) (act : Sys → Header → Sys)
    (next : Option Stage) (h : s.jobs = [j]) (hst : j.stage = stage) :
    s.advance i stage act next = s ∨
    s.advance i stage act next = { act s j.header with jobs := next.elim [] fun st =>
    [{ j with stage := st }] } := by
  unfold advance
  rw [h]
  cases i with
  | zero =>
    simp only [List.getElem?_cons_zero]
    rw [if_pos hst]
    right
    cases next <;> rfl
  | succ i => exact .inl rfl

theorem Fresh.transfer (h : s.Fresh r) (jobs : List Job) :
    ({ s.transfer r.header with jobs := jobs } : Sys).Moved r ∧ (s.transfer r.header).status = 0xFF := by
  cases r with
  | read lba => exact ⟨⟨h.disk, congrFun h.disk lba⟩, h.status⟩
  | write lba src =>
    refine ⟨⟨h.data, ?_⟩, h.status⟩
    simp only [Sys.transfer, Req.header, if_true]
    rw [h.disk, h.data]
    rfl

/-- When only the count is left, the device changes neither disk nor data. -/
theorem over_device (ht : s.taken = s.avail) (hj : Over s.jobs) {e : Ev} (he : Ev.device e = true) :
    (s.step e).taken = (s.step e).avail ∧ Over (s.step e).jobs ∧ (s.step e).disk = s.disk ∧
    (s.step e).data = s.data ∧
      (s.step e).good = s.good ∧ (s.step e).status = s.status := by
  have hstay : ∀ i stage act next, stage ≠ .answered → s.advance i stage act next = s :=
    fun i stage act next hne => by
    rcases hj with hj | ⟨h, hj⟩
    · exact advance_none hj
    · exact advance_other hj (Ne.symm hne)
  cases e with
  | take => rw [step, if_pos ht]; exact ⟨ht, hj, rfl, rfl, rfl, rfl⟩
  | move i => rw [step, hstay i .started _ _ (by decide)]; exact ⟨ht, hj, rfl, rfl, rfl, rfl⟩
  | answer i => rw [step, hstay i .moved _ _ (by decide)]; exact ⟨ht, hj, rfl, rfl, rfl, rfl⟩
  | fail i b => rw [step, hstay i .started _ _ (by decide)]; exact ⟨ht, hj, rfl, rfl, rfl, rfl⟩
  | count i =>
    rw [step]
    rcases hj with hj | ⟨h, hj⟩
    · rw [advance_none hj]; exact ⟨ht, .inl hj, rfl, rfl, rfl, rfl⟩
    · rcases advance_cases i (fun s _ => { s with used := s.used + 1 }) none hj rfl with e | e
      · rw [e]; exact ⟨ht, .inr ⟨h, hj⟩, rfl, rfl, rfl, rfl⟩
      · rw [e]; exact ⟨ht, .inl rfl, rfl, rfl, rfl, rfl⟩
  | begin | reset | load | kick | poll | note | check | finish => cases he

theorem Moved.congr {s' : Sys} (h : s.Moved r) (hd : s'.disk = s.disk) (hb : s'.data = s.data)
    (hg : s'.good = s.good) :
    s'.Moved r := by
  cases r with
  | read lba => exact ⟨by rw [hd, hg]; exact h.1, by rw [hb, hg]; exact h.2⟩
  | write lba src => exact ⟨hb.trans h.1, by rw [hd, hg]; exact h.2⟩

/-- A read that fails has changed nothing on the disk. -/
theorem Fresh.spoil (h : s.Fresh r) (ht : s.taken = s.avail) (b : Sector) :
    ({ spoil b s r.header with jobs := [⟨r.header, .answered⟩] } : Sys).Work r := by
  cases r with
  | read lba => exact .failed ht (.inr ⟨_, rfl⟩) rfl fun _ => h.disk
  | write lba src => exact .failed ht (.inr ⟨_, rfl⟩) rfl fun hr => absurd rfl hr

theorem Work.device (h : s.Work r) {e : Ev} (he : Ev.device e = true) : (s.step e).Work r := by
  cases h with
  | queued ht hj hh hf =>
    cases e with
    | take =>
      have hne : s.taken ≠ s.avail := fun e => succ_ne s.taken (ht.trans e.symm)
      rw [step, if_neg hne]
      exact .started ht (by rw [hj, hh]; rfl) ⟨hf.disk, hf.data, hf.status⟩
    | move i => rw [step, advance_none hj]; exact .queued ht hj hh hf
    | answer i => rw [step, advance_none hj]; exact .queued ht hj hh hf
    | fail i b => rw [step, advance_none hj]; exact .queued ht hj hh hf
    | count i => rw [step, advance_none hj]; exact .queued ht hj hh hf
    | begin | reset | load | kick | poll | note | check | finish => cases he
  | started ht hj hf =>
    cases e with
    | take => rw [step, if_pos ht]; exact .started ht hj hf
    | move i =>
      rw [step]
      rcases advance_cases i transfer (some .moved) hj rfl with e | e
      · rw [e]; exact .started ht hj hf
      · rw [e]
        obtain ⟨h1, h2⟩ := hf.transfer [⟨r.header, .moved⟩]
        have htr : (s.transfer r.header).taken = s.taken ∧ (s.transfer r.header).avail = s.avail := by
          unfold Sys.transfer
          split <;> exact ⟨rfl, rfl⟩
        exact .moved (htr.1.trans (ht.trans htr.2.symm)) rfl h2 h1
    | answer i => rw [step, advance_other hj (by simp)]; exact .started ht hj hf
    | fail i b =>
      rw [step]
      rcases advance_cases i (spoil b) (some .answered) hj rfl with e | e
      · rw [e]; exact .started ht hj hf
      · rw [e]; exact hf.spoil ht b
    | count i => rw [step, advance_other hj (by simp)]; exact .started ht hj hf
    | begin | reset | load | kick | poll | note | check | finish => cases he
  | moved ht hj hs hm =>
    cases e with
    | take => rw [step, if_pos ht]; exact .moved ht hj hs hm
    | move i => rw [step, advance_other hj (by simp)]; exact .moved ht hj hs hm
    | answer i =>
      rw [step]
      rcases advance_cases i (fun s _ => { s with status := 0 }) (some .answered) hj rfl with e | e
      · rw [e]; exact .moved ht hj hs hm
      · rw [e]; exact .ended ht (.inr ⟨r.header, rfl⟩) (hm.congr rfl rfl rfl)
    | fail i b => rw [step, advance_other hj (by simp)]; exact .moved ht hj hs hm
    | count i => rw [step, advance_other hj (by simp)]; exact .moved ht hj hs hm
    | begin | reset | load | kick | poll | note | check | finish => cases he
  | ended ht hj hm =>
    obtain ⟨h1, h2, h3, h4, h5, -⟩ := over_device ht hj he
    exact .ended h1 h2 (hm.congr h3 h4 h5)
  | failed ht hj hs hd =>
    obtain ⟨h1, h2, h3, -, h5, h6⟩ := over_device ht hj he
    exact .failed h1 h2 (h6.trans hs) fun hr => by rw [h3, h5]; exact hd hr

/-! ### Steps of the driver -/

theorem device_phase {e : Ev} (he : e.device = true) :
    (s.step e).phase = s.phase ∧ (s.step e).answers = s.answers := by
  have hadv : ∀ i stage (act : Sys → Header → Sys) next,
      (∀ h, (act s h).phase = s.phase ∧ (act s h).answers = s.answers) →
      (s.advance i stage act next).phase = s.phase ∧ (s.advance i stage act next).answers = s.answers := by
    intro i stage act next hact
    unfold advance
    split
    · exact ⟨rfl, rfl⟩
    · split
      · exact hact _
      · exact ⟨rfl, rfl⟩
  cases e with
  | take =>
    rw [step]
    split <;> exact ⟨rfl, rfl⟩
  | move i =>
    refine hadv _ _ _ _ fun h => ?_
    unfold transfer
    split <;> exact ⟨rfl, rfl⟩
  | answer i => exact hadv _ _ _ _ fun _ => ⟨rfl, rfl⟩
  | fail i b =>
    refine hadv _ _ _ _ fun h => ?_
    unfold spoil
    split <;> exact ⟨rfl, rfl⟩
  | count i => exact hadv _ _ _ _ fun _ => ⟨rfl, rfl⟩
  | begin | reset | load | kick | poll | note | check | finish => cases he

theorem Quiet.device (h : s.Quiet) {e : Ev} (he : e.device = true) : s.step e = s := by
  cases e with
  | take => rw [step, if_pos h.taken]
  | move i => rw [step, advance_none h.jobs]
  | answer i => rw [step, advance_none h.jobs]
  | fail i b => rw [step, advance_none h.jobs]
  | count i => rw [step, advance_none h.jobs]
  | begin | reset | load | kick | poll | note | check | finish => cases he

theorem Inv.device (h : s.Inv) {e : Ev} (he : e.device = true) : (s.step e).Inv := by
  obtain ⟨hp, ha⟩ := device_phase (s := s) he
  refine ⟨?_, by rw [ha]; exact h.answers⟩
  have hphase := h.phase
  rw [hp]
  cases hph : s.phase with
  | idle =>
    rw [hph] at hphase
    rcases hphase with ⟨lba, hw⟩ | ⟨ht, hj, hd⟩
    · exact .inl ⟨lba, hw.device he⟩
    · obtain ⟨h1, h2, h3, -, h5, -⟩ := over_device ht hj he
      exact .inr ⟨h1, h2, by rw [h3, h5]; exact hd⟩
  | headed r => rw [hph] at hphase; rw [hphase.1.device he]; exact hphase
  | cleared r => rw [hph] at hphase; rw [hphase.1.device he]; exact hphase
  | loaded r => rw [hph] at hphase; rw [hphase.1.device he]; exact hphase
  | waiting r left => rw [hph] at hphase; exact Work.device hphase he
  | seen r => rw [hph] at hphase; exact Work.device hphase he
  | checking r => rw [hph] at hphase; exact Work.device hphase he
  | copying r =>
    rw [hph] at hphase
    obtain ⟨ht, hj, hm⟩ := hphase
    obtain ⟨h1, h2, h3, h4, h5, -⟩ := over_device ht hj he
    exact ⟨h1, h2, hm.congr h3 h4 h5⟩

theorem Work.congr {s' : Sys} (h : s.Work r) (ht : s'.taken = s.taken) (ha : s'.avail = s.avail)
    (hj : s'.jobs = s.jobs) (hh : s'.header = s.header) (hs : s'.status = s.status)
    (hd : s'.disk = s.disk) (hb : s'.data = s.data) (hg : s'.good = s.good) : s'.Work r := by
  have hfresh : s.Fresh r → s'.Fresh r := fun hf =>
    ⟨hd.trans (hf.disk.trans hg.symm), hb.trans hf.data, hs.trans hf.status⟩
  cases h with
  | queued h1 h2 h3 h4 => exact .queued (by rw [ht, ha]; exact h1) (hj.trans h2) (hh.trans h3) (hfresh h4)
  | started h1 h2 h3 => exact .started (by rw [ht, ha]; exact h1) (hj.trans h2) (hfresh h3)
  | moved h1 h2 h3 h4 => exact .moved (by rw [ht, ha]; exact h1) (hj.trans h2) (hs.trans h3) (h4.congr hd hb hg)
  | ended h1 h2 h3 => exact .ended (by rw [ht, ha]; exact h1) (by rw [hj]; exact h2) (h3.congr hd hb hg)
  | failed h1 h2 h3 h4 =>
    exact .failed (by rw [ht, ha]; exact h1) (by rw [hj]; exact h2) (hs.trans h3) fun hr => by
      rw [hd, hg]
      exact h4 hr

/-- An answer means that the transfer is done. -/
theorem Work.answered (h : s.Work r) (hs : s.status = 0) : s.taken = s.avail ∧ Over s.jobs ∧ s.Moved r := by
  cases h with
  | queued _ _ _ hf => rw [hf.status] at hs; cases hs
  | started _ _ hf => rw [hf.status] at hs; cases hs
  | moved _ _ h _ => rw [h] at hs; cases hs
  | ended ht hj hm => exact ⟨ht, hj, hm⟩
  | failed _ _ h _ => rw [h] at hs; cases hs

/-- A request that is given up and is not a write. -/
theorem Work.given_up (h : s.Work r) (hr : r.isWrite ≠ true) : ∃ lba, s.Work (.read lba) := by
  cases r with
  | read lba => exact ⟨lba, h⟩
  | write lba src => exact absurd rfl hr

theorem Inv.finish (h : s.Inv) (hph : s.phase = .copying r) : (s.done r).Inv := by
  have hphase := h.phase
  rw [hph] at hphase
  obtain ⟨ht, hj, hm⟩ := hphase
  have hadd : ∀ a : Answer, a.Right → ∀ x ∈ s.answers ++ [a], x.Right := fun a ha x hx => by
    rcases List.mem_append.1 hx with hx | hx
    · exact h.answers x hx
    · exact List.mem_singleton.1 hx ▸ ha
  cases r with
  | read lba => exact ⟨.inr ⟨ht, hj, hm.1⟩, hadd _ hm.2⟩
  | write lba src =>
    refine ⟨.inr ⟨ht, hj, hm.2⟩, hadd _ ?_⟩
    change s.disk lba = src
    rw [hm.2, Function.update_self]

theorem Inv.begin (h : s.Inv) (hc : s.Calm (.begin r)) : (s.step (.begin r)).Inv := by
  have hphase := h.phase
  rw [Sys.step]
  cases hph : s.phase with
  | idle =>
    rw [hph] at hphase
    have hdisk : s.disk = s.good := by
      rcases hphase with ⟨lba, hw⟩ | ⟨-, -, hd⟩
      · cases hw with
        | queued _ _ _ hf => exact hf.disk
        | started _ _ hf => exact hf.disk
        | moved _ _ _ hm => exact hm.1
        | ended _ _ hm => exact hm.1
        | failed _ _ _ hd => exact hd nofun
      · exact hd
    exact ⟨⟨⟨hc.1, hc.2, hdisk⟩, rfl⟩, h.answers⟩
  | headed | cleared | loaded | waiting | seen | checking | copying => exact h

/-- The driver waits on, or the turns run out. -/
theorem Inv.poll (h : s.Inv) (hc : s.Calm .poll) : (s.step .poll).Inv := by
  have hphase := h.phase
  rw [Sys.step]
  cases hph : s.phase with
  | waiting r left =>
    rw [hph] at hphase
    have hwork : s.Work r := hphase
    simp only [pollUsed]
    split
    · exact ⟨hwork.congr rfl rfl rfl rfl rfl rfl rfl rfl, h.answers⟩
    · rename_i hsame
      split
      · rename_i hleft
        have hr : r.isWrite ≠ true := fun hw => hsame (by
          unfold Calm at hc
          rw [hph] at hc
          exact hc hw hleft)
        obtain ⟨lba, hw⟩ := hwork.given_up hr
        exact ⟨.inl ⟨lba, hw.congr rfl rfl rfl rfl rfl rfl rfl rfl⟩, h.answers⟩
      · exact ⟨hwork.congr rfl rfl rfl rfl rfl rfl rfl rfl, h.answers⟩
  | idle | headed | cleared | loaded | seen | checking | copying => exact h

/-- The request is answered, or a read has failed. -/
theorem Inv.check (h : s.Inv) (hc : s.Calm .check) : (s.step .check).Inv := by
  have hphase := h.phase
  rw [Sys.step]
  cases hph : s.phase with
  | checking r =>
    rw [hph] at hphase
    have hwork : s.Work r := hphase
    dsimp only
    by_cases hs : s.status = 0
    · rw [if_pos hs]
      obtain ⟨h1, h2, h3⟩ := hwork.answered hs
      exact ⟨⟨h1, h2, h3.congr rfl rfl rfl⟩, h.answers⟩
    · rw [if_neg hs]
      have hr : r.isWrite ≠ true := fun hw => hs (by
        unfold Calm at hc
        rw [hph] at hc
        exact hc hw)
      obtain ⟨lba, hw⟩ := hwork.given_up hr
      exact ⟨.inl ⟨lba, hw.congr rfl rfl rfl rfl rfl rfl rfl rfl⟩, h.answers⟩
  | idle | headed | cleared | loaded | waiting | seen | copying => exact h

theorem Inv.step (h : s.Inv) {e : Ev} (hc : s.Calm e) : (s.step e).Inv := by
  have hphase := h.phase
  cases e with
  | take => exact h.device rfl
  | move i => exact h.device rfl
  | answer i => exact h.device rfl
  | fail i b => exact h.device rfl
  | count i => exact h.device rfl
  | begin r => exact h.begin hc
  | reset =>
    rw [Sys.step]
    cases hph : s.phase with
    | headed r =>
      rw [hph] at hphase
      exact ⟨⟨⟨hphase.1.taken, hphase.1.jobs, hphase.1.disk⟩, hphase.2, rfl⟩, h.answers⟩
    | idle | cleared | loaded | waiting | seen | checking | copying => exact h
  | load =>
    rw [Sys.step]
    cases hph : s.phase with
    | cleared r =>
      rw [hph] at hphase
      exact ⟨⟨⟨hphase.1.taken, hphase.1.jobs, hphase.1.disk⟩, hphase.2.1, hphase.2.2, rfl⟩, h.answers⟩
    | idle | headed | loaded | waiting | seen | checking | copying => exact h
  | kick =>
    rw [Sys.step]
    cases hph : s.phase with
    | loaded r =>
      rw [hph] at hphase
      obtain ⟨hq, hh, hs, hd⟩ := hphase
      exact ⟨.queued (congrArg (· + 1) hq.taken) hq.jobs hh ⟨hq.disk, hd, hs⟩, h.answers⟩
    | idle | headed | cleared | waiting | seen | checking | copying => exact h
  | poll => exact h.poll hc
  | note =>
    rw [Sys.step]
    cases hph : s.phase with
    | seen r =>
      rw [hph] at hphase
      exact ⟨Work.congr hphase rfl rfl rfl rfl rfl rfl rfl rfl, h.answers⟩
    | idle | headed | cleared | loaded | waiting | checking | copying => exact h
  | check => exact h.check hc
  | finish =>
    rw [Sys.step]
    cases hph : s.phase with
    | copying r => exact h.finish hph
    | idle | headed | cleared | loaded | waiting | seen | checking => exact h

theorem Inv.run {es : List Ev} (h : s.Inv) (hc : s.CalmRun es) : (s.run es).Inv := by
  induction es generalizing s with
  | nil => exact h
  | cons e es ih => exact ih (h.step hc.1) hc.2

theorem Boot.inv (h : s.Boot) : s.Inv := by
  refine ⟨?_, by rw [h.answers]; nofun⟩
  rw [h.phase]
  exact .inr ⟨h.taken, .inl h.jobs, h.good.symm⟩

/-- **A request that succeeds got its own completion** in every run without late ones. -/
theorem own_completion {es : List Ev} (h : s.Boot) (hc : s.CalmRun es) : ∀ a ∈ (s.run es).answers, a.Right :=
  (h.inv.run hc).answers

/-- A device whose sectors hold their numbers, before any request. -/
def numbered : Sys where
  header := ⟨false, 0⟩
  data := fun _ => 0
  status := 0
  avail := 0
  used := 0
  usedSeen := 0
  phase := .idle
  taken := 0
  jobs := []
  disk := fun lba _ => UInt8.ofNat lba
  good := fun lba _ => UInt8.ofNat lba
  answers := []

theorem numbered_boot : numbered.Boot := ⟨rfl, rfl, rfl, rfl, rfl⟩

/-- A request up to the notification. -/
def ask (r : Req) : List Ev := [.begin r, .reset, .load, .kick]

/-- What the device does with the entry it has taken, and what the driver does then. -/
def serve : List Ev := [.move 0, .answer 0, .count 0, .poll, .note, .check, .finish]

/-- It fails instead, after it has written to the data buffer. -/
def refuse : List Ev := [.fail 0 fun _ => 9, .count 0, .poll, .note, .check]

theorem own_completion_write :
    let es :=
  ask (.write 7 fun _ => 1) ++ .take :: serve ++ ask (.read 7) ++ .take :: refuse ++
    ask (.read 7) ++ .take :: serve
    (numbered.run es).answers.length = 2 ∧ ∀ a ∈ (numbered.run es).answers, a.Right :=
  ⟨by decide, own_completion numbered_boot (by decide)⟩

theorem run_append (s : Sys) (es es' : List Ev) : s.run (es ++ es') = (s.run es).run es' := List.foldl_append

/-- The turns run out. -/
theorem run_polls (r : Req) (n : Nat) : ∀ {s : Sys}, s.phase = .waiting r (n + 1) → s.used = s.usedSeen →
    s.run (List.replicate (n + 1) .poll) = { s with phase := .idle } := by
  induction n with
  | zero =>
    intro s hp hu
    simp [run, step, hp, pollUsed, hu]
  | succ n ih =>
    intro s hp hu
    have hstep : s.step .poll = { s with phase := .waiting r (n + 1) } := by
      simp [step, hp, pollUsed, hu]
    rw [List.replicate_succ]
    change (s.step .poll).run _ = _
    rw [hstep]
    exact ih (s := { s with phase := .waiting r (n + 1) }) rfl hu

/-- A read that was given up is answered to the next one: sector 5 for sector 7. -/
theorem late_completion : ¬ ∀ es, ∀ a ∈ (numbered.run es).answers, a.Right := by
  intro h
  have hask : numbered.run (ask (.read 5) ++ [.take]) = { numbered with
      header := ⟨false, 5⟩, status := 0xFF, avail := 1, phase := .waiting (.read 5) (999999 + 1), taken := 1,
      jobs := [⟨⟨false, 5⟩, .started⟩] } := rfl
  have hlast :=
    h ((ask (.read 5) ++ [.take]) ++
    (List.replicate (999999 + 1) .poll ++ (ask (.read 7) ++ serve)))
  rw [run_append, hask, run_append, run_polls (.read 5) 999999 rfl rfl] at hlast
  have hright := hlast (.read 7 (fun _ => 5) fun _ => 7) (by
    refine List.mem_singleton.2 ?_
    rfl)
  exact absurd (congrFun hright 0) (by decide)

end Sys

end VampireOS.Virtio
