import Mathlib.Data.List.Basic
import Mathlib.Order.Lattice
import Mathlib.Tactic.Common

/-!
# The proleptic Gregorian calendar

Dates are counted from the first day of year 0. `dayNumber` adds up the lengths of the years and
months before a day, by the leap-year rule; `DateTime.seconds` counts the seconds of a date and time
from the same epoch. `DateTime.Le` compares two of them field by field, most significant first, and
`seconds_le_iff` says that this is the order of the counts.
-/

namespace VampireOS.Lib

/-- Every fourth year, but of the centuries only every fourth. -/
def leap (y : Nat) : Prop := 4 ∣ y ∧ (100 ∣ y → 400 ∣ y)

instance (y : Nat) : Decidable (leap y) := inferInstanceAs (Decidable (_ ∧ _))

def monthLength (y m : Nat) : Nat :=
  if m = 2 then (if leap y then 29 else 28) else if m = 4 ∨ m = 6 ∨ m = 9 ∨ m = 11 then 30 else 31

def yearLength (y : Nat) : Nat := if leap y then 366 else 365

/-- The days of the years before `y`. -/
def daysBeforeYear : Nat → Nat
  | 0 => 0
  | y + 1 => daysBeforeYear y + yearLength y

/-- The days of the months of year `y` before `m`; January is month 1. -/
def daysBeforeMonth (y : Nat) : Nat → Nat
  | 0 => 0
  | 1 => 0
  | m + 2 => daysBeforeMonth y (m + 1) + monthLength y (m + 1)

def dayNumber (y m d : Nat) : Nat := daysBeforeYear y + daysBeforeMonth y m + d

structure DateTime where
  year : Nat
  month : Nat
  day : Nat
  hour : Nat
  minute : Nat
  second : Nat
  deriving DecidableEq

namespace DateTime

/-- A date of the calendar and a time of the day. -/
structure Valid (t : DateTime) : Prop where
  month_pos : 1 ≤ t.month
  month_le : t.month ≤ 12
  day_pos : 1 ≤ t.day
  day_le : t.day ≤ monthLength t.year t.month
  hour_lt : t.hour < 24
  minute_lt : t.minute < 60
  second_lt : t.second < 60

/-- The seconds since the epoch. -/
def seconds (t : DateTime) : Nat :=
  ((dayNumber t.year t.month t.day * 24 + t.hour) * 60 + t.minute) * 60 + t.second

/-- Year first, second last. -/
def Le (a b : DateTime) : Prop :=
  a.year < b.year ∨ a.year = b.year ∧ (a.month < b.month ∨ a.month = b.month ∧
    (a.day < b.day ∨ a.day = b.day ∧
    (a.hour < b.hour ∨ a.hour = b.hour ∧ (a.minute < b.minute ∨ a.minute = b.minute ∧ a.second ≤ b.second))))

end DateTime

/-! ## Months and years -/

theorem monthLength_le (y m : Nat) : monthLength y m ≤ 31 := by
  unfold monthLength
  split
  · split <;> omega
  · split <;> omega

theorem monthLength_ge (y m : Nat) : 28 ≤ monthLength y m := by
  unfold monthLength
  split
  · split <;> omega
  · split <;> omega

theorem daysBeforeMonth_succ (y : Nat) {m : Nat} (h : 1 ≤ m) :
    daysBeforeMonth y (m + 1) = daysBeforeMonth y m + monthLength y m := by
  cases m with
  | zero => omega
  | succ m => rfl

/-- The twelve months make up the year. -/
theorem daysBeforeMonth_year (y : Nat) : daysBeforeMonth y 12 + monthLength y 12 = yearLength y := by
  by_cases h : leap y
  · simp [daysBeforeMonth, monthLength, yearLength, h]
  · simp [daysBeforeMonth, monthLength, yearLength, h]

theorem daysBeforeMonth_mono (y : Nat) {m n : Nat} (hm : 1 ≤ m) (h : m < n) :
    daysBeforeMonth y m + monthLength y m ≤ daysBeforeMonth y n := by
  induction n with
  | zero => omega
  | succ n ih =>
    rw [daysBeforeMonth_succ y (by omega)]
    rcases Nat.lt_or_ge m n with hlt | hge
    · have := ih hlt
      omega
    · rw [show m = n by omega]

theorem daysBeforeYear_mono {y z : Nat} (h : y < z) : daysBeforeYear y + yearLength y ≤ daysBeforeYear z := by
  induction z with
  | zero => omega
  | succ z ih =>
    rw [daysBeforeYear]
    rcases Nat.lt_or_ge y z with hlt | hge
    · have := ih hlt
      omega
    · rw [show y = z by omega]

/-- Past the end of a month comes the next one. -/
theorem dayNumber_nextMonth (y : Nat) {m : Nat} (h : 1 ≤ m) (d : Nat) :
    dayNumber y (m + 1) d = dayNumber y m (monthLength y m + d) := by
  unfold dayNumber
  rw [daysBeforeMonth_succ y h]
  omega

theorem dayNumber_nextYear (y d : Nat) : dayNumber (y + 1) 1 d = dayNumber y 12 (monthLength y 12 + d) := by
  have := daysBeforeMonth_year y
  unfold dayNumber
  rw [daysBeforeYear, daysBeforeMonth]
  omega

/-! ## The order -/

section
variable {y m d y' m' d' : Nat}

theorem day_in_year (h1 : 1 ≤ m) (h2 : m ≤ 12) (hd : d ≤ monthLength y m) :
    daysBeforeMonth y m + d ≤ yearLength y := by
  have htotal := daysBeforeMonth_year y
  rcases Nat.lt_or_ge m 12 with hlt | hge
  · have := daysBeforeMonth_mono y h1 hlt
    omega
  · obtain rfl : m = 12 := by omega
    omega

theorem dayNumber_lt_of_year (h1 : 1 ≤ m) (h2 : m ≤ 12) (hd : d ≤ monthLength y m) (m' : Nat)
    (hd' : 1 ≤ d') (h : y < y') :
    dayNumber y m d < dayNumber y' m' d' := by
  have h3 := day_in_year h1 h2 hd
  have h4 := daysBeforeYear_mono h
  unfold dayNumber
  omega

theorem dayNumber_lt_of_month (h1 : 1 ≤ m) (hd : d ≤ monthLength y m) (hd' : 1 ≤ d') (h : m < m') :
    dayNumber y m d < dayNumber y m' d' := by
  have h3 := daysBeforeMonth_mono y h1 h
  unfold dayNumber
  omega

end

namespace DateTime

variable {a b : DateTime}

/-- Days compare as their year, month and day do. -/
theorem day_then (ha : a.Valid) (hb : b.Valid) (P : Prop) :
    (dayNumber a.year a.month a.day < dayNumber b.year b.month b.day ∨
        dayNumber a.year a.month a.day = dayNumber b.year b.month b.day ∧ P) ↔
      a.year < b.year ∨ a.year = b.year ∧ (a.month < b.month ∨ a.month = b.month ∧
      (a.day < b.day ∨ a.day = b.day ∧ P)) := by
  rcases Nat.lt_trichotomy a.year b.year with h | h | h
  · have := dayNumber_lt_of_year ha.month_pos ha.month_le ha.day_le b.month hb.day_pos h
    exact ⟨fun _ => .inl h, fun _ => .inl this⟩
  · rcases Nat.lt_trichotomy a.month b.month with h' | h' | h'
    · have := dayNumber_lt_of_month ha.month_pos ha.day_le hb.day_pos h'
      rw [← h]
      exact ⟨fun _ => .inr ⟨rfl, .inl h'⟩, fun _ => .inl this⟩
    · rw [← h, ← h']
      simp [dayNumber]
    · have := dayNumber_lt_of_month hb.month_pos hb.day_le ha.day_pos h'
      rw [← h] at this ⊢
      simp only [Nat.lt_irrefl, false_or, true_and]
      constructor
      · intro h1
        omega
      · intro h1
        omega
  · have := dayNumber_lt_of_year hb.month_pos hb.month_le hb.day_le a.month ha.day_pos h
    constructor
    · intro h1
      omega
    · intro h1
      omega

/-- A number written with a last digit to base `n`. -/
theorem digit_then {n u v i j : Nat} (hi : i < n) (hj : j < n) :
    u * n + i ≤ v * n + j ↔ u < v ∨ u = v ∧ i ≤ j := by
  rcases Nat.lt_trichotomy u v with h | h | h
  · have := Nat.mul_le_mul_right n (show u + 1 ≤ v from h)
    rw [Nat.add_mul, Nat.one_mul] at this
    exact ⟨fun _ => .inl h, fun _ => by omega⟩
  · subst h
    constructor
    · intro h1
      exact .inr ⟨rfl, by omega⟩
    · intro h1
      omega
  · have := Nat.mul_le_mul_right n (show v + 1 ≤ u from h)
    rw [Nat.add_mul, Nat.one_mul] at this
    constructor
    · intro h1
      omega
    · intro h1
      omega

theorem digit_lt {n u v i j : Nat} (hi : i < n) (hj : j < n) :
    u * n + i < v * n + j ↔ u < v ∨ u = v ∧ i < j := by
  rw [← Nat.not_le, digit_then hj hi]
  omega

theorem digit_eq {n u v i j : Nat} (hi : i < n) (hj : j < n) : u * n + i = v * n + j ↔ u = v ∧ i = j := by
  have h1 := digit_then (u := u) (v := v) hi hj
  have h2 := digit_then (u := v) (v := u) hj hi
  omega

/-- **The order of the fields is the order of the seconds.** -/
theorem seconds_le_iff (ha : a.Valid) (hb : b.Valid) : a.seconds ≤ b.seconds ↔ a.Le b := by
  have h1 := ha.hour_lt
  have h2 := ha.minute_lt
  have h3 := ha.second_lt
  have h1' := hb.hour_lt
  have h2' := hb.minute_lt
  have h3' := hb.second_lt
  unfold seconds Le
  rw [← day_then ha hb, digit_then h3 h3', digit_lt h2 h2', digit_eq h2 h2', digit_lt h1 h1', digit_eq h1 h1']
  omega

end DateTime

end VampireOS.Lib
