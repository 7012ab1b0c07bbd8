import Mathlib.Data.Nat.Digits.Defs
import VampireOS.Memory.Bytes
import VampireOS.Sched.Reach

/-!
# Kill and caught signals (sched.c:1357, 1658-1778)

A kill of another task runs the target next and only then writes its answer, so the answer lands in
the target's registers. A caught signal overwrites `rdi`, and there is no `sigreturn` that would put
it back.
-/

namespace VampireOS

open Lib

namespace Kernel

variable {M : Type} [MemSys M] {m : M} {k k' : Kernel M}

/-! ## Kill -/

/-- Nothing but what a signal changes. -/
def SignalOnly (t t' : Task) : Prop :=
  t' = { t with state := t'.state, pending := t'.pending, exitCode := t'.exitCode
                wakeTick := t'.wakeTick, pipeWait := t'.pipeWait }

/-- A kill from `k` to `k'`: the caller is answered `ok` and keeps its other registers, no other
register changes, and of the other tasks only the signal state of `pid`. -/
structure KillAnswers (k k' : Kernel M) (pid : Int) (ok : Bool) : Prop where
  caller : k'.regsOf k.current = { k.frame with rax := if ok then 0 else minusOne }
  regs : ∀ i, i ≠ k.current → k'.regsOf i = (k.tasks i).regs
  target : SignalOnly (k.tasks pid.toNat) (k'.tasks pid.toNat)
  others : ∀ i, i ≠ k.current → i ≠ pid.toNat → k'.tasks i = k.tasks i

/-- `pid` is a live task and not the caller. -/
def LiveOther (k : Kernel M) (pid : Int) : Prop :=
  0 ≤ pid ∧ pid.toNat < k.taskCount ∧ pid.toNat ≠ k.current ∧ (k.tasks pid.toNat).state ≠ .dead

instance (k : Kernel M) (pid : Int) : Decidable (k.LiveOther pid) :=
  inferInstanceAs (Decidable (_ ∧ _ ∧ _ ∧ _))

omit [MemSys M] in
/-- A live task is READY once it is awake. -/
theorem wakeBlocked_ready {t : Task} (h : t.state ≠ .dead) : (wakeBlocked t).state = .ready := by
  unfold wakeBlocked
  split
  · rfl
  · rename_i hn
    cases hs : t.state <;> simp_all

/-- A signal for another live task runs it next. -/
theorem signalAt_live (hs : Shape k) (hm : k.mode = .user) {pid : Int} (h : k.LiveOther pid) (code : UInt8) :
    k.signalAt pid sigTerm code =
      ((k.modTask pid.toNat fun t => wakeBlocked { t with
        pending := t.pending ||| sigBit sigTerm, exitCode := code }).saveTask.switchTo pid.toNat,
      true) := by
  obtain ⟨h0, hi, hn, hl⟩ := h
  set post : Task → Task := fun t =>
    wakeBlocked { t with pending := t.pending ||| sigBit sigTerm, exitCode := code }
  have hready : ((k.modTask pid.toNat post).tasks pid.toNat).state = .ready := by
    rw [modTask_tasks, if_pos rfl]
    exact wakeBlocked_ready hl
  unfold signalAt
  rw [if_neg (not_or.2 ⟨by decide, not_not.2 ⟨h0, by omega⟩⟩)]
  simp only
  rw [if_neg hl, if_neg (hs.live _ hl).1]
  exact if_pos ⟨hn, hm, hready⟩

/-- Any other one is refused or goes to the caller itself. -/
theorem signalAt_self (hs : Shape k) {pid : Int} (h : ¬ k.LiveOther pid) (code : UInt8) :
    k.signalAt pid sigTerm code = (k, false) ∨
    (pid.toNat = k.current ∧ k.signalAt pid sigTerm code = (k.modTask k.current fun t =>
      wakeBlocked { t with pending := t.pending ||| sigBit sigTerm, exitCode := code }, true)) := by
  rcases signalAt_cases hs pid sigTerm code with e | ⟨-, h0, hi, hl, hcase⟩
  · exact .inl e
  · have hcur : pid.toNat = k.current := by
      by_contra hn
      exact h ⟨h0, hi, hn, hl⟩
    refine .inr ⟨hcur, ?_⟩
    rcases hcase with e | ⟨hn, -⟩
    · rw [e, hcur]
    · exact absurd hcur hn

theorem schedKill_answers (hs : Shape k) (hm : k.mode = .user) (hrax : k.frame.rax = 17) :
    KillAnswers k k.schedKill (toInt k.frame.rdi)
      (k.signalAt (toInt k.frame.rdi) sigTerm k.frame.rsi.toUInt8).2 ↔
      ¬ k.LiveOther (toInt k.frame.rdi) := by
  unfold schedKill
  by_cases hlive : k.LiveOther (toInt k.frame.rdi)
  · rw [signalAt_live hs hm hlive]
    -- the caller is saved with the number of the call in rax
    refine iff_of_false (fun h => ?_) (not_not.2 hlive)
    have hcaller := congrArg Frame.rax h.caller
    obtain ⟨-, -, hn, -⟩ := hlive
    simp only [regsOf, setRax, switchTo, hn, and_false, if_false, saveTask, modTask_tasks,
      modTask_current, modTask_frame, if_true, hrax] at hcaller
    exact absurd hcaller (by decide)
  · refine iff_of_true ?_ hlive
    simp only
    rcases signalAt_self hs hlive k.frame.rsi.toUInt8 with e | ⟨hcur, e⟩ <;> rw [e]
    · refine ⟨by simp [regsOf, hm, setRax], fun i hi => ?_, rfl, fun _ _ _ => rfl⟩
      have : ¬ (k.mode = .user ∧ k.current = i) := fun h => hi h.2.symm
      simp [regsOf, setRax, this]
    · refine ⟨by simp [regsOf, hm, setRax], fun i hi => ?_, ?_, fun i hi _ => ?_⟩
      · have : ¬ (k.mode = .user ∧ k.current = i) := fun h => hi h.2.symm
        simp [regsOf, setRax, this, hi]
      · rw [hcur]
        simp only [setRax, modTask_tasks, if_true]
        unfold wakeBlocked SignalOnly
        split <;> rfl
      · simp [setRax, hi]

/-- **Kill answers its caller and touches only signals** exactly when the target is not another live task. -/
theorem kill_answers (h : Reachable m k) (hm : k.mode = .user) {f : Frame} (hf : f.rax = 17) (io : Io) :
    KillAnswers (k.enterCall f io) ((k.enterCall f io).userOnSyscall io) (toInt f.rdi)
        ((k.lateCall f io).signalAt (toInt f.rdi) sigTerm f.rsi.toUInt8).2 ↔
      ¬ k.LiveOther (toInt f.rdi) := by
  have hs : Shape (k.lateCall f io) := h.shape.same rfl rfl rfl rfl rfl
  have hcall : (k.enterCall f io).userOnSyscall io = (k.lateCall f io).schedKill.restoreCr3 := by
    have hrax : (k.enterCall f io).frame.rax.toNat = 17 := congrArg UInt64.toNat hf
    simp only [userOnSyscall, lateSyscall, lateCall, setCr3, hrax]
  have hkill : KillAnswers (k.lateCall f io) (k.lateCall f io).schedKill (toInt f.rdi) _ ↔ _ :=
    schedKill_answers hs hm hf
  rw [hcall]
  constructor
  · rintro ⟨h1, h2, h3, h4⟩
    exact hkill.1 ⟨h1, h2, h3, h4⟩
  · intro hl
    obtain ⟨h1, h2, h3, h4⟩ := hkill.2 hl
    exact ⟨h1, h2, h3, h4⟩

theorem kill_answers_self :
    KillAnswers ((twoTasks smallSpace).enterCall (callFrame 17 0 0) smallIo)
        (((twoTasks smallSpace).enterCall (callFrame 17 0 0) smallIo).userOnSyscall smallIo) (toInt 0)
        (((twoTasks smallSpace).lateCall (callFrame 17 0 0) smallIo).signalAt (toInt 0) sigTerm 0).2 ↔
      ¬ (twoTasks smallSpace).LiveOther (toInt 0) :=
  kill_answers (twoTasks_reachable smallSpace) twoTasks_user rfl smallIo

/-- The first task kills the second: the answer is the second one's `rax`, and the first keeps the
number of the call. -/
theorem kill_misses_caller :
    Reachable smallSpace (twoTasks smallSpace) ∧ (twoTasks smallSpace).LiveOther (toInt 1) ∧
    (((twoTasks smallSpace).lateCall (callFrame 17 1 0) smallIo).signalAt (toInt 1) sigTerm 0).2 = true ∧
    (((twoTasks smallSpace).enterCall (callFrame 17 1 0) smallIo).userOnSyscall smallIo).regsOf
      (twoTasks smallSpace).current ≠ { callFrame 17 1 0 with rax := 0 } := by
  refine ⟨twoTasks_reachable _, ?_⟩
  decide +kernel

/-! ## Caught signals -/

/-- The value of eight bytes, low byte first. -/
def word64 (bs : List UInt8) : UInt64 := UInt64.ofNat (Nat.ofDigits 256 (bs.map UInt8.toNat))

theorem ofDigits_bytes (n v : Nat) :
    Nat.ofDigits 256 ((List.range n).map fun i => v / 256 ^ i % 256) = v % 256 ^ n := by
  induction n generalizing v with
  | zero => simp [Nat.mod_one]
  | succ n ih =>
    have htail : (List.range n).map (fun i => v / 256 ^ (i + 1) % 256) =
        (List.range n).map fun i => v / 256 / 256 ^ i % 256 :=
      List.map_congr_left fun i _ => by rw [pow_succ', Nat.div_div_eq_div_mul]
    rw [List.range_succ_eq_map, List.map_cons, List.map_map, Nat.ofDigits_cons]
    simp only [Function.comp_def, Nat.succ_eq_add_one, htail, ih, pow_zero, Nat.div_one]
    rw [pow_succ', Nat.mod_mul]

theorem word64_bytes64 (v : UInt64) : word64 (bytes64 v) = v := by
  have hbytes : (bytes64 v).map UInt8.toNat = (List.range 8).map fun i => v.toNat / 256 ^ i % 256 := by
    unfold bytes64
    rw [List.map_map]
    refine List.map_congr_left fun i hi => ?_
    have hi : i < 8 := List.mem_range.1 hi
    have hmod : 8 * i % 2 ^ 64 % 64 = 8 * i := by omega
    simp only [Function.comp_apply, UInt64.toNat_toUInt8, UInt64.toNat_shiftRight, UInt64.toNat_ofNat', hmod,
      Nat.shiftRight_eq_div_pow, pow_mul]
    rfl
  unfold word64
  rw [hbytes, ofDigits_bytes]
  apply UInt64.toNat.inj
  rw [UInt64.toNat_ofNat']
  have := v.toNat_lt
  omega

/-- `ret` in ring 3: the word at `rsp` is popped into `rip`. -/
def userRet (k : Kernel M) : Option Frame :=
  ((List.range 8).mapM fun i => k.peekAt (k.frame.rsp.toNat + i)).map fun bs =>
    { k.frame with rip := word64 bs, rsp := k.frame.rsp + 8 }

/-- The running task has signal `sig` pending and `handler` installed for it, and its stack takes the return
address. -/
structure Catches (k : Kernel M) (sig : Int) (handler : UInt64) : Prop where
  runs : k.mode = .user ∧ k.taskCount ≠ 0
  pending : pendingSigno (k.tasks k.current) = sig
  signal : sig ≠ 0
  installed : sigHandler (k.tasks k.current) sig = some handler
  address : handler ≠ 0
  room : 8 ≤ k.frame.rsp
  pushed : (k.pushUserU64 (k.tasks k.current).cr3 (k.frame.rsp - 8) k.frame.rip).2 = true

theorem pushUserU64_true {cr3 : Nat} {va v : UInt64} (h : (k.pushUserU64 cr3 va v).2 = true) :
    cr3 ≠ 0 ∧ va &&& 0xFFF ≤ 0xFF8 ∧ (k.memAsk (.copyTo cr3 va.toNat (bytes64 v))).isSome = true ∧
      (k.pushUserU64 cr3 va v).1 = k.memDo (.copyTo cr3 va.toNat (bytes64 v)) := by
  unfold pushUserU64 at h ⊢
  split at h
  · cases h
  · rename_i hn
    obtain ⟨h0, hp⟩ := not_or.1 hn
    rw [if_neg hn]
    exact ⟨h0, UInt64.not_lt.1 hp, h, rfl⟩

/-- A handler whose return address fits is entered. -/
theorem enterHandler_pushed (sig : Int) (handler : UInt64) (hroom : 8 ≤ k.frame.rsp)
    (hpush : (k.pushUserU64 (k.tasks k.current).cr3 (k.frame.rsp - 8) k.frame.rip).2 = true) :
    (k.enterHandler sig handler).frame = { k.frame with
        rsp := k.frame.rsp - 8, rip := handler, rdi := UInt64.ofNat sig.toNat } ∧
      (k.enterHandler sig handler).mem = (k.memDo (.copyTo (k.tasks k.current).cr3 (k.frame.rsp - 8).toNat
        (bytes64 k.frame.rip))).mem ∧
      (k.enterHandler sig handler).currentCr3 = k.currentCr3 := by
  unfold enterHandler
  rw [if_neg (UInt64.not_lt.2 hroom)]
  simp only [hpush, if_true, (pushUserU64_true hpush).2.2.2]
  exact ⟨trivial, trivial, rfl⟩

/-- The task goes on at the handler with the return address on its stack. -/
theorem Catches.entered {sig : Int} {handler : UInt64} (h : Catches k sig handler) :
    k.deliverPending.frame = { k.frame with
        rsp := k.frame.rsp - 8, rip := handler, rdi := UInt64.ofNat sig.toNat } ∧
      k.deliverPending.mem = (k.memDo (.copyTo (k.tasks k.current).cr3 (k.frame.rsp - 8).toNat
        (bytes64 k.frame.rip))).mem ∧
      k.deliverPending.currentCr3 = (k.tasks k.current).cr3 := by
  obtain ⟨⟨hm, h0⟩, hp, hs, hi, ha, hroom, hpush⟩ := h
  obtain ⟨hcr3, hpage, hask, -⟩ := pushUserU64_true hpush
  -- the state in which the handler is entered
  set k1 : Kernel M :=
    (k.modTask k.current fun t => { t with pending := t.pending &&& ~~~ (sigBit sig) }).modTask
    k.current (setSigHandler sig 0) with hk1
  have hcur : (k1.tasks k.current).cr3 = (k.tasks k.current).cr3 := by
    rw [hk1, modTask_tasks, if_pos rfl, setSigHandler_eq, modTask_tasks, if_pos rfl]
  have hdeliver : k.deliverPending = k1.enterHandler sig handler := by
    unfold deliverPending
    simp only [hp, hi]
    rw [if_neg (not_or.2 ⟨h0, not_not.2 hm⟩), if_neg hs, Option.getD_some, if_neg ha]
    rfl
  have hpush' : (k1.pushUserU64 (k1.tasks k.current).cr3 (k.frame.rsp - 8) k.frame.rip).2 = true := by
    unfold pushUserU64
    rw [hcur, if_neg (not_or.2 ⟨hcr3, UInt64.not_lt.2 hpage⟩)]
    exact hask
  obtain ⟨e1, e2, e3⟩ := enterHandler_pushed (k := k1) sig handler hroom hpush'
  rw [hdeliver, e1, e2, e3]
  refine ⟨rfl, ?_, ?_⟩
  · change (k1.memDo (.copyTo (k1.tasks k.current).cr3 _ _)).mem = _
    rw [hcur]
    rfl
  · change (if k.taskCount = 0 ∨ (k1.tasks k.current).cr3 = 0 then pml4Phys else (k1.tasks k.current).cr3) = _
    rw [hcur, if_neg (not_or.2 ⟨h0, hcr3⟩)]

omit [MemSys M] in
theorem mapM_some {α β : Type} {f : α → Option β} {g : α → β} {l : List α} (h : ∀ a ∈ l, f a = some (g a)) :
    l.mapM f = some (l.map g) := by
  induction l with
  | nil => rfl
  | cons a l ih =>
    rw [List.mapM_cons, h a List.mem_cons_self, ih fun b hb => h b (List.mem_cons_of_mem _ hb)]
    rfl

/-- The `ret` of the handler goes back to the interrupted place. -/
theorem Catches.ret {m : Space} (hb : m.Boot) {k : Kernel Space} (hmem : MemFrom m k.mem)
    {sig : Int} {handler : UInt64} (h : Catches k sig handler) :
    k.deliverPending.userRet = some { k.frame with rdi := UInt64.ofNat sig.toNat } := by
  obtain ⟨hframe, hnew, hcr3⟩ := h.entered
  have hinv : Space.Inv k.mem := by
    obtain ⟨ops, e⟩ := hmem
    rw [e]
    exact Space.run_inv hb ops
  set va := (k.frame.rsp - 8).toNat with hva0
  obtain ⟨-, hpage, hpush, -⟩ := pushUserU64_true h.pushed
  have hlen : (bytes64 k.frame.rip).length = 8 := by simp [bytes64]
  have hva : va < 2 ^ 64 := UInt64.toNat_lt _
  have hroom : va % pageSize + (bytes64 k.frame.rip).length ≤ pageSize := by
    rw [UInt64.le_iff_toNat_le, UInt64.toNat_and] at hpage
    have hlow : va % pageSize ≤ 0xFF8 := le_of_eq_of_le (and_fff va).symm hpage
    unfold pageSize at hlow ⊢
    omega
  have hbyte : ∀ i ∈ List.range 8, k.deliverPending.peekAt (k.deliverPending.frame.rsp.toNat + i) =
      some ((bytes64 k.frame.rip).getD i 0) := by
    intro i hi
    have hi : i < (bytes64 k.frame.rip).length := by rw [hlen]; exact List.mem_range.1 hi
    have hwrap : (va + i) % 2 ^ 64 = va + i := by
      unfold pageSize at hroom
      omega
    have hread := Space.peekByte_copyTo hinv hva hroom hpush hi
    rw [hframe]
    unfold peekAt
    rw [hcr3, hnew, hwrap, List.getD_eq_getElem _ _ hi]
    exact hread
  have hpop : ((List.range 8).mapM fun i => k.deliverPending.peekAt (k.deliverPending.frame.rsp.toNat + i)) =
      some (bytes64 k.frame.rip) := by
    rw [mapM_some hbyte]
    refine congrArg some (List.ext_getElem (by simp [hlen]) fun i h1 h2 => ?_)
    simp [h2]
  unfold userRet
  rw [hpop, Option.map_some, word64_bytes64, hframe]
  simp

/-- **A caught signal is transparent** for a handler that keeps the registers it is entered with
exactly when the interrupted `rdi` was the signal number. -/
theorem caught_transparent {m : Space} (hb : m.Boot) {k : Kernel Space} (hmem : MemFrom m k.mem) {sig : Int}
    {handler : UInt64} (h : Catches k sig handler) :
    k.deliverPending.userRet = some k.frame ↔ k.frame.rdi = UInt64.ofNat sig.toNat := by
  rw [h.ret hb hmem]
  constructor
  · intro he
    exact (congrArg Frame.rdi (Option.some.inj he)).symm
  · intro he
    rw [← he]

theorem Reaches.mem {A : Label → Prop} {r : Ghost} (h : Reaches A r k k') (hs : Shape k) :
    MemFrom k.mem k'.mem := by
  obtain ⟨r', -, -, hmoves⟩ := h
  exact (hmoves hs).inv (I := fun c => MemFrom k.mem c.2.mem) (fun _ _ _ hc hm => hc.trans hm.mem)
    hs (.refl _)

omit [MemSys M] in
theorem trap_shape (hs : Shape k) (f : Frame) : Shape (k.trap f) := hs.same rfl rfl rfl rfl rfl

omit [MemSys M] in
theorem trap_mem (k : Kernel M) (f : Frame) : (k.trap f).mem = k.mem := rfl

/-- A task that catches SIGTERM. -/
def catcher : Kernel Space := (twoTasks smallSpace).run [callOf 27 15 0x400000]

theorem catcher_reachable : Reachable smallSpace catcher := (twoTasks_reachable _).run _

/-- It is interrupted in front of a console read, and killed from the keyboard. -/
def catcherKilled : Kernel Space := (catcher.trap (callFrame 8 0 0x401000)).act (.kill 0)

theorem catcherKilled_mem : MemFrom smallSpace catcherKilled.mem := by
  have hs : Shape (catcher.trap (callFrame 8 0 0x401000)) := trap_shape catcher_reachable.shape _
  have hact : Reaches (fun _ => True) ⟨none, none, ∅⟩ (catcher.trap (callFrame 8 0 0x401000)) catcherKilled :=
    act_reaches trivial trivial (fun _ => trivial) rfl (.kill 0)
  have hrun := hact.mem hs
  rw [trap_mem] at hrun
  exact catcher_reachable.mem.trans hrun

theorem catcherKilled_catches : Catches catcherKilled 15 0x400000 := by
  have h : catcherKilled.mode = .user ∧ catcherKilled.taskCount ≠ 0 ∧
      pendingSigno (catcherKilled.tasks catcherKilled.current) = 15 ∧
      sigHandler (catcherKilled.tasks catcherKilled.current) 15 = some 0x400000 ∧
        8 ≤ catcherKilled.frame.rsp ∧
      (catcherKilled.pushUserU64 (catcherKilled.tasks catcherKilled.current).cr3 (catcherKilled.frame.rsp - 8)
        catcherKilled.frame.rip).2 = true := by decide +kernel
  obtain ⟨h1, h2, h3, h4, h5, h6⟩ := h
  exact ⟨⟨h1, h2⟩, h3, by decide, h4, by decide, h5, h6⟩

theorem caught_transparent_catcher : catcherKilled.deliverPending.userRet = some catcherKilled.frame ↔
    catcherKilled.frame.rdi = UInt64.ofNat (15 : Int).toNat :=
  caught_transparent smallSpace_boot catcherKilled_mem catcherKilled_catches

/-- The read goes on with descriptor 15 in place of 0. -/
theorem caught_not_transparent : Catches catcherKilled 15 0x400000 ∧
    catcherKilled.deliverPending.userRet ≠ some catcherKilled.frame := by
  refine ⟨catcherKilled_catches, fun h => ?_⟩
  rw [catcherKilled_catches.ret smallSpace_boot catcherKilled_mem] at h
  have hrdi : catcherKilled.frame.rdi = 15 := (congrArg Frame.rdi (Option.some.inj h)).symm
  have h0 : catcherKilled.frame.rdi = 0 := by decide +kernel
  rw [h0] at hrdi
  exact absurd hrdi (by decide)

end Kernel

end VampireOS
