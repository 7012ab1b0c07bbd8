import Mathlib.Algebra.Group.Nat.Defs
import VampireOS.Lib.Calendar

/-!
# The wall clock (kernel/rtc.c)

| here | there |
| --- | --- |
| `Rtc` | `snap_y` .. `snap_sec`, `snap_ticks`, `have_snap` (rtc.c:24-31) |
| `fromBcd`, `latchCmos` | `from_bcd`, `latch_cmos` (rtc.c:39, 92-161) |
| `monthDays`, `addSeconds` | `month_days`, `add_seconds` (rtc.c:51-90) |
| `rtcInit`, `rtcFormat` | `rtc_init`, `rtc_format` (rtc.c:163-205) |
| `irqTimer` | the `ticks++` of `irq_handler` (idt.c:76) |

`unsigned` has 32 bits. `add_seconds` is written over the two ways to read its sums and differences:
`Word.wrapping` is the machine's, `Word.exact` gives up where the machine would wrap. The loop of
`add_seconds` has fuel; `none` also means that the fuel is used up.
-/

namespace VampireOS

open Lib

/-! ## `add_seconds` -/

structure Word where
  add : Nat → Nat → Option Nat
  sub : Nat → Nat → Option Nat

def Word.wrapping : Word where
  add a b := some ((a + b) % 2 ^ 32)
  sub a b := some ((a + 2 ^ 32 - b) % 2 ^ 32)

def Word.exact : Word where
  add a b := if a + b < 2 ^ 32 then some (a + b) else none
  sub a b := if b ≤ a ∧ a < 2 ^ 32 then some (a - b) else none

def monthDays (y m : Nat) : Nat :=
  if m = 2 then
    if y % 4 = 0 ∧ (y % 100 ≠ 0 ∨ y % 400 = 0) then 29 else 28
  else if m = 4 ∨ m = 6 ∨ m = 9 ∨ m = 11 then 30
  else 31

/-- The `for (;;)` of `add_seconds`. -/
def monthLoop (w : Word) : Nat → Nat → Nat → Nat → Option (Nat × Nat × Nat)
  | 0, _, _, _ => none
  | fuel + 1, y, mon, day =>
    let dim := monthDays y mon
    if day ≤ dim then some (y, mon, day)
    else do
      let day ← w.sub day dim
      let mon ← w.add mon 1
      if mon > 12 then do
        let y ← w.add y 1
        monthLoop w fuel y 1 day
      else monthLoop w fuel y mon day

def addSeconds (w : Word) (fuel : Nat) (t : DateTime) (add : Nat) : Option DateTime := do
  let s ← w.add t.second add
  let m ← w.add t.minute (s / 60)
  let h ← w.add t.hour (m / 60)
  let d ← w.add t.day (h / 24)
  let (y, mon, day) ← monthLoop w fuel t.year t.month d
  some ⟨y, mon, day, h % 24, m % 60, s % 60⟩

theorem exact_add {a b c : Nat} (h : Word.exact.add a b = some c) :
    c = a + b ∧ Word.wrapping.add a b = some c := by
  unfold Word.exact at h
  simp only [Option.ite_none_right_eq_some, Option.some.injEq] at h
  refine ⟨h.2.symm, ?_⟩
  rw [← h.2]
  exact congrArg some (Nat.mod_eq_of_lt h.1)

theorem exact_sub {a b c : Nat} (h : Word.exact.sub a b = some c) :
    c = a - b ∧ Word.wrapping.sub a b = some c := by
  unfold Word.exact at h
  simp only [Option.ite_none_right_eq_some, Option.some.injEq] at h
  refine ⟨h.2.symm, ?_⟩
  rw [← h.2]
  refine congrArg some ?_
  rw [show a + 2 ^ 32 - b = (a - b) + 2 ^ 32 by omega, Nat.add_mod_right]
  exact Nat.mod_eq_of_lt (by omega)

theorem add_exact {a b : Nat} (h : a + b < 2 ^ 32) : Word.exact.add a b = some (a + b) := if_pos h

theorem sub_exact {a b : Nat} (h : b ≤ a) (ha : a < 2 ^ 32) : Word.exact.sub a b = some (a - b) :=
  if_pos ⟨h, ha⟩

theorem monthDays_eq (y m : Nat) : monthDays y m = monthLength y m := by
  unfold monthDays monthLength leap
  refine if_congr Iff.rfl (if_congr ?_ rfl rfl) rfl
  omega

/-- What the exact loop finds the machine finds. -/
theorem monthLoop_wrapping {fuel y mon day : Nat} {r : Nat × Nat × Nat}
    (h : monthLoop .exact fuel y mon day = some r) :
    monthLoop .wrapping fuel y mon day = some r := by
  induction fuel generalizing y mon day with
  | zero => cases h
  | succ fuel ih =>
    unfold monthLoop at h ⊢
    simp only [Option.bind_eq_bind] at h ⊢
    split at h
    · rename_i hd
      rw [if_pos hd]
      exact h
    · rename_i hd
      rw [if_neg hd]
      obtain ⟨d, hsub, h⟩ := Option.bind_eq_some_iff.1 h
      obtain ⟨m, hadd, h⟩ := Option.bind_eq_some_iff.1 h
      rw [(exact_sub hsub).2, Option.bind_some, (exact_add hadd).2, Option.bind_some]
      split at h
      · rename_i hm
        obtain ⟨y', hyear, h⟩ := Option.bind_eq_some_iff.1 h
        rw [if_pos hm, (exact_add hyear).2, Option.bind_some]
        exact ih h
      · rename_i hm
        rw [if_neg hm]
        exact ih h

theorem addSeconds_wrapping {fuel add : Nat} {t r : DateTime} (h : addSeconds .exact fuel t add = some r) :
    addSeconds .wrapping fuel t add = some r := by
  unfold addSeconds at h ⊢
  simp only [Option.bind_eq_bind] at h ⊢
  obtain ⟨s, hs, h⟩ := Option.bind_eq_some_iff.1 h
  obtain ⟨m, hm, h⟩ := Option.bind_eq_some_iff.1 h
  obtain ⟨u, hu, h⟩ := Option.bind_eq_some_iff.1 h
  obtain ⟨d, hd, h⟩ := Option.bind_eq_some_iff.1 h
  obtain ⟨date, hdate, h⟩ := Option.bind_eq_some_iff.1 h
  rw [(exact_add hs).2, Option.bind_some, (exact_add hm).2, Option.bind_some, (exact_add hu).2,
    Option.bind_some, (exact_add hd).2, Option.bind_some, monthLoop_wrapping hdate,
    Option.bind_some]
  exact h

/-- **The month loop ends**, after fewer rounds than there are days, and on the day that the count of
days names. No step of it overflows. -/
theorem monthLoop_spec {y mon : Nat} (day : Nat) (h1 : 1 ≤ mon) (h2 : mon ≤ 12) (hday : 1 ≤ day)
    (hsum : y + day < 2 ^ 31) :
    ∃ y' m' d', (∀ fuel, day ≤ fuel → monthLoop .exact fuel y mon day = some (y', m', d')) ∧
    1 ≤ m' ∧ m' ≤ 12 ∧
      1 ≤ d' ∧ d' ≤ monthLength y' m' ∧ dayNumber y' m' d' = dayNumber y mon day := by
  induction day using Nat.strong_induction_on generalizing y mon with
  | _ day ih =>
    have hdim := monthDays_eq y mon
    have hge := monthLength_ge y mon
    by_cases hle : day ≤ monthDays y mon
    · refine ⟨y, mon, day, fun fuel hfuel => ?_, h1, h2, hday, hdim ▸ hle, rfl⟩
      obtain ⟨f, rfl⟩ : ∃ f, fuel = f + 1 := ⟨fuel - 1, by omega⟩
      exact if_pos hle
    · have hsub : Word.exact.sub day (monthDays y mon) = some (day - monthDays y mon) :=
        sub_exact (by omega) (by omega)
      have hadd : Word.exact.add mon 1 = some (mon + 1) := add_exact (by omega)
      have hrest : monthLength y mon + (day - monthDays y mon) = day := by omega
      by_cases hm : mon + 1 > 12
      · obtain rfl : mon = 12 := by omega
        have hyear : Word.exact.add y 1 = some (y + 1) := add_exact (by omega)
        obtain ⟨y', m', d', hrun, b1, b2, b3, b4, b5⟩ := @ih (day - monthDays y 12) (by omega) (y + 1) 1
          (by omega) (by omega) (by omega) (by omega)
        refine ⟨y', m', d', fun fuel hfuel => ?_, b1, b2, b3, b4, ?_⟩
        · obtain ⟨f, rfl⟩ : ∃ f, fuel = f + 1 := ⟨fuel - 1, by omega⟩
          unfold monthLoop
          simp only [if_neg hle, Option.bind_eq_bind, hsub, hadd, hyear, Option.bind_some, if_pos hm]
          exact hrun f (by omega)
        · rw [b5, dayNumber_nextYear, hrest]
      · obtain ⟨y', m', d', hrun, b1, b2, b3, b4, b5⟩ := @ih (day - monthDays y mon) (by omega) y (mon + 1)
          (by omega) (by omega) (by omega) (by omega)
        refine ⟨y', m', d', fun fuel hfuel => ?_, b1, b2, b3, b4, ?_⟩
        · obtain ⟨f, rfl⟩ : ∃ f, fuel = f + 1 := ⟨fuel - 1, by omega⟩
          unfold monthLoop
          simp only [if_neg hle, Option.bind_eq_bind, hsub, hadd, Option.bind_some, if_neg hm]
          exact hrun f (by omega)
        · rw [b5, dayNumber_nextMonth y h1, hrest]

/-- **The calendar arithmetic is exact**: with fuel enough the answer is the valid date and time whose
count of seconds is larger by `add`, and no sum or difference on the way leaves 32 bits. -/
theorem addSeconds_exact {t : DateTime} (ht : t.Valid) (hyear : t.year ≤ 9999) {add : Nat}
    (hadd : add < 2 ^ 32 - 60) :
    ∃ r, r.Valid ∧ r.seconds = t.seconds + add ∧ ∃ enough, ∀ fuel, enough ≤ fuel →
      addSeconds .wrapping fuel t add = some r ∧ addSeconds .exact fuel t add = some r := by
  have v1 := ht.hour_lt
  have v2 := ht.minute_lt
  have v3 := ht.second_lt
  have v4 := ht.day_pos
  have v5 := ht.day_le.trans (monthLength_le _ _)
  -- the four sums before the loop
  have hs : Word.exact.add t.second add = some (t.second + add) := add_exact (by omega)
  have hm : Word.exact.add t.minute ((t.second + add) / 60) =
      some (t.minute + (t.second + add) / 60) := add_exact (by omega)
  have hh : Word.exact.add t.hour ((t.minute + (t.second + add) / 60) / 60) =
      some (t.hour + (t.minute + (t.second + add) / 60) / 60) := add_exact (by omega)
  have hd : Word.exact.add t.day ((t.hour + (t.minute + (t.second + add) / 60) / 60) / 24) =
      some (t.day + (t.hour + (t.minute + (t.second + add) / 60) / 60) / 24) := add_exact (by omega)
  obtain ⟨y, mon, day, hrun, b1, b2, b3, b4, b5⟩ := monthLoop_spec (y := t.year)
    (t.day + (t.hour + (t.minute + (t.second + add) / 60) / 60) / 24) ht.month_pos ht.month_le
      (by omega) (by omega)
  refine ⟨⟨y, mon, day, (t.hour + (t.minute + (t.second + add) / 60) / 60) % 24,
    (t.minute + (t.second + add) / 60) % 60, (t.second + add) % 60⟩, ⟨b1, b2, b3, b4, ?_, ?_, ?_⟩,
    ?_, t.day + (t.hour + (t.minute + (t.second + add) / 60) / 60) / 24, fun fuel hfuel => ?_⟩
  · exact Nat.mod_lt _ (by decide)
  · exact Nat.mod_lt _ (by decide)
  · exact Nat.mod_lt _ (by decide)
  · unfold DateTime.seconds
    rw [b5]
    unfold dayNumber
    simp only
    omega
  · have hexact : addSeconds .exact fuel t add =
      some ⟨y, mon, day, (t.hour + (t.minute + (t.second + add) / 60) / 60) % 24,
        (t.minute + (t.second + add) / 60) % 60, (t.second + add) % 60⟩ := by
      unfold addSeconds
      simp only [Option.bind_eq_bind, hs, hm, hh, hd, Option.bind_some, hrun fuel hfuel]
    exact ⟨addSeconds_wrapping hexact, hexact⟩

theorem addSeconds_exact_leap : (⟨2028, 2, 28, 23, 59, 59⟩ : DateTime).Valid ∧ 86401 < 2 ^ 32 - 60 ∧
    ∃ r : DateTime, r.Valid ∧ r.seconds = (⟨2028, 2, 28, 23, 59, 59⟩ : DateTime).seconds + 86401 ∧
    ∃ enough, ∀ fuel, enough ≤ fuel →
      addSeconds .wrapping fuel ⟨2028, 2, 28, 23, 59, 59⟩ 86401 = some r ∧
        addSeconds .exact fuel ⟨2028, 2, 28, 23, 59, 59⟩ 86401 = some r := by
  have hv : (⟨2028, 2, 28, 23, 59, 59⟩ : DateTime).Valid :=
    ⟨by decide, by decide, by decide, by decide, by decide, by decide, by decide⟩
  exact ⟨hv, by decide, addSeconds_exact hv (by decide) (by decide)⟩

/-! ## `latch_cmos` and `rtc_format` -/

/-- One pass over the registers of the chip; `sec2` is the second reading of the seconds. -/
structure CmosRead where
  sec : UInt8
  min : UInt8
  hour : UInt8
  day : UInt8
  mon : UInt8
  year : UInt8
  cent : UInt8
  stb : UInt8
  sec2 : UInt8

def fromBcd (v : UInt8) : UInt8 := (v &&& (0x0F : UInt8)) + (10 : UInt8) * ((v >>> 4) &&& (0x0F : UInt8))

/-- The passes of the `do` loop; pass `i` is `chip i`, made while no update is in progress. -/
def readCmos (chip : Nat → CmosRead) : CmosRead :=
  if (chip 0).sec2 = (chip 0).sec then chip 0
  else if (chip 1).sec2 = (chip 1).sec then chip 1
  else if (chip 2).sec2 = (chip 2).sec then chip 2
  else chip 3

def latchCmos (chip : Nat → CmosRead) : DateTime :=
  let r := readCmos chip
  let half : Bool := (r.stb &&& 0x02) == 0
  let pm : Bool := half && ((r.hour &&& 0x80) != 0)
  let hour := if half then r.hour &&& 0x7F else r.hour
  let bin := fun v : UInt8 => if (r.stb &&& 0x04) == 0 then fromBcd v else v
  let h := (bin hour).toNat
  let h := if half then (if h = 12 then (if pm then 12 else 0) else if pm then h + 12 else h) else h
  let c := (bin r.cent).toNat
  let c := if c < 19 ∨ c > 99 then 20 else c
  ⟨(bin r.year).toNat + c * 100, (bin r.mon).toNat, (bin r.day).toNat, h, (bin r.min).toNat,
    (bin r.sec).toNat⟩

structure Rtc where
  snap : DateTime
  snapTicks : UInt32
  haveSnap : Bool

def rtcInit (chip : Nat → CmosRead) (ticks : UInt32) (r : Rtc) : Rtc :=
  if r.haveSnap then r else ⟨latchCmos chip, ticks, true⟩

/-- `PIT_HZ`. -/
def pitHz : Nat := 100

/-- The date and time that `rtc_format` prints. -/
def rtcNow (fuel : Nat) (r : Rtc) (ticks : UInt32) : Option DateTime :=
  addSeconds .wrapping fuel r.snap ((ticks - r.snapTicks).toNat / pitHz)

def put2 (v : Nat) : List UInt8 := [UInt8.ofNat (48 + v / 10 % 10), UInt8.ofNat (48 + v % 10)]

/-- The bytes of `buf`, without the closing `'\0'`. -/
def formatDate (t : DateTime) : List UInt8 :=
  [UInt8.ofNat (48 + t.year / 1000 % 10), UInt8.ofNat (48 + t.year / 100 % 10),
    UInt8.ofNat (48 + t.year / 10 % 10), UInt8.ofNat (48 + t.year % 10)] ++ 45 :: put2 t.month ++
    45 :: put2 t.day ++ 32 :: put2 t.hour ++ 58 :: put2 t.minute ++
    58 :: put2 t.second

def rtcFormat (chip : Nat → CmosRead) (fuel : Nat) (r : Rtc) (ticks : UInt32) : Option (List UInt8 × Rtc) :=
  let r := rtcInit chip ticks r
  (rtcNow fuel r ticks).map fun t => (formatDate t, r)

/-- One timer interrupt. -/
def irqTimer (ticks : UInt32) : UInt32 := ticks + 1

/-! ## The printed order -/

theorem digit_byte {i j : Nat} (hi : i < 10) (hj : j < 10) :
    (UInt8.ofNat (48 + i) < UInt8.ofNat (48 + j) ↔ i < j) ∧
    (UInt8.ofNat (48 + i) = UInt8.ofNat (48 + j) ↔ i = j) := by
  rw [UInt8.lt_iff_toNat_lt, ← UInt8.toNat_inj, UInt8.toNat_ofNat', UInt8.toNat_ofNat']
  omega

theorem put2_le {u v : Nat} (hu : u < 100) (hv : v < 100) (l l' : List UInt8) :
    put2 u ++ l ≤ put2 v ++ l' ↔ u < v ∨ u = v ∧ l ≤ l' := by
  have h1 := digit_byte (i := u / 10 % 10) (j := v / 10 % 10) (by omega) (by omega)
  have h2 := digit_byte (i := u % 10) (j := v % 10) (by omega) (by omega)
  unfold put2
  simp only [List.cons_append, List.nil_append, List.cons_le_cons_iff, h1, h2]
  by_cases hl : l ≤ l'
  · simp only [hl, and_true]
    omega
  · simp only [hl, and_false, or_false]
    omega

/-- Up to year 9999 the printed dates are in the order of the fields. -/
theorem formatDate_le {a b : DateTime} (ha : a.Valid) (hb : b.Valid) (hya : a.year ≤ 9999)
    (hyb : b.year ≤ 9999) :
    formatDate a ≤ formatDate b ↔ a.Le b := by
  have hyear : ∀ t : DateTime, [UInt8.ofNat (48 + t.year / 1000 % 10), UInt8.ofNat (48 + t.year / 100 % 10),
      UInt8.ofNat (48 + t.year / 10 % 10), UInt8.ofNat (48 + t.year % 10)] = put2 (t.year / 100) ++
        put2 (t.year % 100) := by
    intro t
    unfold put2
    rw [show t.year / 100 / 10 = t.year / 1000 by omega, show t.year % 100 / 10 % 10 = t.year /
      10 % 10 by omega, show t.year % 100 % 10 = t.year % 10 by omega]
    rfl
  have hfield : ∀ t : DateTime, t.Valid → t.month < 100 ∧ t.day < 100 ∧ t.hour < 100 ∧
      t.minute < 100 ∧ t.second < 100 := by
    intro t ht
    obtain ⟨-, v1, -, v2, v3, v4, v5⟩ := ht
    have := monthLength_le t.year t.month
    omega
  obtain ⟨a1, a2, a3, a4, a5⟩ := hfield a ha
  obtain ⟨b1, b2, b3, b4, b5⟩ := hfield b hb
  have hlast : put2 a.second ≤ put2 b.second ↔ a.second ≤ b.second := by
    have := put2_le a5 b5 [] []
    simp only [List.append_nil, Std.le_refl, and_true] at this
    rw [this]
    omega
  unfold formatDate DateTime.Le
  rw [hyear a, hyear b]
  simp only [List.append_assoc, List.cons_append]
  rw [put2_le (by omega) (by omega), put2_le (by omega) (by omega)]
  simp only [List.cons_le_cons_iff, Std.lt_irrefl, true_and, false_or]
  rw [put2_le a1 b1]
  simp only [List.cons_le_cons_iff, Std.lt_irrefl, true_and, false_or]
  rw [put2_le a2 b2]
  simp only [List.cons_le_cons_iff, Std.lt_irrefl, true_and, false_or]
  rw [put2_le a3 b3]
  simp only [List.cons_le_cons_iff, Std.lt_irrefl, true_and, false_or]
  rw [put2_le a4 b4]
  simp only [List.cons_le_cons_iff, Std.lt_irrefl, true_and, false_or]
  rw [hlast]
  omega

/-! ## The clock over the uptime -/

/-- The counter comes round after `2 ^ 32` interrupts. -/
theorem irqTimer_iterate (c : UInt32) (t : Nat) : (irqTimer^[t] c - c).toNat = t % 2 ^ 32 := by
  have h : irqTimer^[t] c = c + UInt32.ofNat t := by
    induction t with
    | zero => exact (UInt32.add_zero c).symm
    | succ t ih =>
      rw [Function.iterate_succ_apply', ih]
      unfold irqTimer
      rw [UInt32.add_assoc, UInt32.ofNat_add]
      rfl
  rw [h, UInt32.add_comm, UInt32.add_sub_cancel, UInt32.toNat_ofNat']

/-- A valid date has been latched. -/
structure Rtc.Snapped (r : Rtc) : Prop where
  have_snap : r.haveSnap = true
  valid : r.snap.Valid
  year : r.snap.year ≤ 9999

/-- The answer of `rtc_format` after `t` timer interrupts. -/
theorem rtcFormat_after (chip : Nat → CmosRead) {r : Rtc} (hr : r.Snapped) (t : Nat) :
    ∃ d, d.Valid ∧ d.seconds = r.snap.seconds + t % 2 ^ 32 / 100 ∧ ∃ enough, ∀ fuel, enough ≤ fuel →
      rtcFormat chip fuel r (irqTimer^[t] r.snapTicks) = some (formatDate d, r) := by
  have hsmall : t % 2 ^ 32 / 100 < 2 ^ 32 - 60 := by omega
  obtain ⟨d, hd, hsec, enough, hrun⟩ := addSeconds_exact hr.valid hr.year hsmall
  refine ⟨d, hd, hsec, enough, fun fuel hfuel => ?_⟩
  unfold rtcFormat rtcInit rtcNow pitHz
  simp only [if_pos hr.have_snap, irqTimer_iterate, (hrun fuel hfuel).1, Option.map_some]

/-- **When the wall clock goes backwards**: two calls print dates in order exactly when the seconds left
by the 32-bit counter are. -/
theorem rtcFormat_le_iff (chip : Nat → CmosRead) {r : Rtc} (hr : r.Snapped) (t1 t2 : Nat) :
    ∃ d1 d2 enough, (∀ fuel, enough ≤ fuel → rtcFormat chip fuel r (irqTimer^[t1] r.snapTicks) =
    some (formatDate d1, r) ∧
        rtcFormat chip fuel r (irqTimer^[t2] r.snapTicks) = some (formatDate d2, r)) ∧
      (d1.year ≤ 9999 → d2.year ≤ 9999 →
      (formatDate d1 ≤ formatDate d2 ↔ t1 % 2 ^ 32 / 100 ≤ t2 % 2 ^ 32 / 100)) := by
  obtain ⟨d1, hd1, hs1, n1, hrun1⟩ := rtcFormat_after chip hr t1
  obtain ⟨d2, hd2, hs2, n2, hrun2⟩ := rtcFormat_after chip hr t2
  refine ⟨d1, d2, max n1 n2, fun fuel hfuel => ?_, fun h1 h2 => ?_⟩
  · exact ⟨hrun1 fuel (by omega), hrun2 fuel (by omega)⟩
  · rw [formatDate_le hd1 hd2 h1 h2, ← DateTime.seconds_le_iff hd1 hd2, hs1, hs2]
    omega

/-- The chip's registers when nothing is read from them. -/
def noChip : Nat → CmosRead := fun _ => ⟨0, 0, 0, 0, 0, 0, 0, 0, 0⟩

/-- A snapshot made at the first interrupt. -/
def bootSnap : Rtc := ⟨⟨2026, 7, 22, 18, 50, 0⟩, 0, true⟩

theorem bootSnap_snapped : bootSnap.Snapped :=
  ⟨rfl, ⟨by decide, by decide, by decide, by decide, by decide, by decide, by decide⟩, by decide⟩

/-- One interrupt after 497 days the clock shows the boot time again. -/
theorem bootSnap_back :
    rtcFormat noChip 60 bootSnap (irqTimer^[2 ^ 32 - 1] bootSnap.snapTicks) =
    some (formatDate ⟨2027, 12, 1, 21, 17, 52⟩, bootSnap) ∧
      rtcFormat noChip 60 bootSnap (irqTimer^[2 ^ 32] bootSnap.snapTicks) =
      some (formatDate ⟨2026, 7, 22, 18, 50, 0⟩, bootSnap) ∧
      ¬formatDate ⟨2027, 12, 1, 21, 17, 52⟩ ≤ formatDate ⟨2026, 7, 22, 18, 50, 0⟩ := by
  have hfar : addSeconds .wrapping 60 bootSnap.snap ((2 ^ 32 - 1) % 2 ^ 32 / pitHz) =
      some ⟨2027, 12, 1, 21, 17, 52⟩ := by
    decide +kernel
  have hnear : addSeconds .wrapping 60 bootSnap.snap (2 ^ 32 % 2 ^ 32 / pitHz) =
      some ⟨2026, 7, 22, 18, 50, 0⟩ := by
    decide +kernel
  refine ⟨?_, ?_, by decide⟩
  · unfold rtcFormat rtcInit rtcNow
    simp only [if_pos (show bootSnap.haveSnap = true from rfl), irqTimer_iterate, hfar, Option.map_some]
  · unfold rtcFormat rtcInit rtcNow
    simp only [if_pos (show bootSnap.haveSnap = true from rfl), irqTimer_iterate, hnear, Option.map_some]

theorem rtcFormat_le_iff_boot :
    bootSnap.Snapped ∧ ∃ d1 d2 enough,
      (∀ fuel, enough ≤ fuel → rtcFormat noChip fuel bootSnap (irqTimer^[100] bootSnap.snapTicks) =
      some (formatDate d1, bootSnap) ∧
        rtcFormat noChip fuel bootSnap (irqTimer^[250] bootSnap.snapTicks) = some (formatDate d2, bootSnap)) ∧
      (d1.year ≤ 9999 → d2.year ≤ 9999 →
      (formatDate d1 ≤ formatDate d2 ↔ 100 % 2 ^ 32 / 100 ≤ 250 % 2 ^ 32 / 100)) :=
  ⟨bootSnap_snapped, rtcFormat_le_iff noChip bootSnap_snapped 100 250⟩

end VampireOS
