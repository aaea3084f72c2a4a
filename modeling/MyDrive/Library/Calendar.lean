import Mathlib.Algebra.Ring.Nat

-- The days of the Gregorian calendar, counted from 1970-01-01, and their texts `YYYY-MM-DD`. A year
-- begins with March here, so that the leap day is its last.

namespace Calendar

structure Date where
  year  : Int
  month : Int
  day   : Int
  deriving DecidableEq

-- The day's place in its era of 400 years, as a century, a cycle of four years, a year and a rest.
def century (day : Int) : Int :=
  min 3 (day / 36524)

def cycle (day : Int) : Int :=
  (day - 36524 * century day) / 1461

def yearOfCycle (day : Int) : Int :=
  min 3 ((day - 36524 * century day - 1461 * cycle day) / 365)

def yearOfEra (day : Int) : Int :=
  100 * century day + 4 * cycle day + yearOfCycle day

def dayOfYear (day : Int) : Int :=
  day - 36524 * century day - 1461 * cycle day - 365 * yearOfCycle day

def civil (day : Int) : Date :=
  let z := day + 719468
  let doy := dayOfYear (z % 146097)
  let mp := (5 * doy + 2) / 153
  let month := if mp < 10 then mp + 3 else mp - 9
  { year  := 400 * (z / 146097) + yearOfEra (z % 146097) + if month ≤ 2 then 1 else 0
    month
    day   := doy - (153 * mp + 2) / 5 + 1 }

def number (date : Date) : Int :=
  let year := if date.month ≤ 2 then date.year - 1 else date.year
  let mp := if 2 < date.month then date.month - 3 else date.month + 9
  let doy := (153 * mp + 2) / 5 + date.day - 1
  146097 * (year / 400) + 36524 * (year % 400 / 100) + 1461 * (year % 100 / 4) + 365 * (year % 4) + doy - 719468

variable {day : Int}

theorem dayOfYear_range (_ : 0 ≤ day) (_ : day < 146097) : 0 ≤ dayOfYear day ∧ dayOfYear day ≤ 365 := by
  unfold dayOfYear yearOfCycle cycle century
  omega

theorem parts_range (_ : 0 ≤ day) (_ : day < 146097) :
    (0 ≤ century day ∧ century day ≤ 3) ∧ (0 ≤ cycle day ∧ cycle day ≤ 24) ∧
      0 ≤ yearOfCycle day ∧ yearOfCycle day ≤ 3 := by
  unfold yearOfCycle cycle century
  omega

-- The number of a date whose year and month are given from March on.
theorem number_eq {era century cycle year mp day : Int} (_ : 0 ≤ century ∧ century ≤ 3)
    (_ : 0 ≤ cycle ∧ cycle ≤ 24) (_ : 0 ≤ year ∧ year ≤ 3) (_ : 0 ≤ mp ∧ mp ≤ 11) :
    number {
      year  := 400 * era + (100 * century + 4 * cycle + year) +
        if (if mp < 10 then mp + 3 else mp - 9) ≤ 2 then 1 else 0
      month := if mp < 10 then mp + 3 else mp - 9
      day } =
      146097 * era + 36524 * century + 1461 * cycle + 365 * year + ((153 * mp + 2) / 5 + day - 1) - 719468 := by
  unfold number
  dsimp only
  split <;> split <;> omega

theorem number_civil (day : Int) : number (civil day) = day := by
  have era : 0 ≤ (day + 719468) % 146097 ∧ (day + 719468) % 146097 < 146097 := by omega
  have range := dayOfYear_range era.left era.right
  obtain ⟨hc, hq, hy⟩ := parts_range era.left era.right
  unfold civil yearOfEra
  dsimp only
  rw [number_eq hc hq hy (by omega)]
  unfold dayOfYear
  omega

theorem civil_range (day : Int) : 1 ≤ (civil day).month ∧ (civil day).month ≤ 12 ∧ 1 ≤ (civil day).day ∧
    (civil day).day ≤ 31 := by
  have range := @dayOfYear_range ((day + 719468) % 146097) (by omega) (by omega)
  unfold civil
  dsimp only
  split <;> omega

-- The days of the years from 0 to 9999.
def firstDay : Int := -719528

def lastDay : Int := 2932896

-- The last days of an era are January and February, whose year is the next one.
theorem end_of_era (_ : 146037 ≤ day) (_ : day < 146097) :
    yearOfEra day = 399 ∧ 306 ≤ dayOfYear day := by
  unfold yearOfEra dayOfYear yearOfCycle cycle century
  omega

theorem before_end_of_era (_ : 0 ≤ day) (_ : day < 146037) : yearOfEra day < 399 ∨ dayOfYear day < 306 := by
  unfold yearOfEra dayOfYear yearOfCycle cycle century
  omega

theorem year_range (h : firstDay ≤ day) (h' : day ≤ lastDay) : 0 ≤ (civil day).year ∧ (civil day).year ≤ 9999 := by
  have range := @dayOfYear_range ((day + 719468) % 146097) (by omega) (by omega)
  have parts := @parts_range ((day + 719468) % 146097) (by omega) (by omega)
  have years : 0 ≤ yearOfEra ((day + 719468) % 146097) ∧ yearOfEra ((day + 719468) % 146097) ≤ 399 := by
    unfold yearOfEra
    omega
  unfold firstDay at h
  unfold lastDay at h'
  unfold civil
  dsimp only
  by_cases late : 146037 ≤ (day + 719468) % 146097
  case pos =>
    obtain ⟨year, winter⟩ := end_of_era late (by omega)
    rw [year]
    split <;> omega
  case neg =>
    have early := @before_end_of_era ((day + 719468) % 146097) (by omega) (by omega)
    split <;> omega

def digit (n : Nat) : Char :=
  .ofNat (48 + n % 10)

-- The last `k` digits of a number.
def pad : Nat → Nat → List Char
  | 0,     _ => []
  | k + 1, n => pad k (n / 10) ++ [digit n]

def value (digits : List Char) : Nat :=
  digits.foldl (fun n c => 10 * n + (c.toNat - 48)) 0

theorem toNat_digit {n : Nat} : (digit n).toNat = 48 + n % 10 := by
  have small : ∀ n < 10, (Char.ofNat (48 + n)).toNat = 48 + n := by decide
  exact small _ (Nat.mod_lt _ (by decide))

theorem length_pad {k n : Nat} : (pad k n).length = k := by
  induction k generalizing n
  case zero      => rfl
  case succ k ih => simp [pad, ih]

theorem value_pad {k n : Nat} : value (pad k n) = n % 10 ^ k := by
  induction k generalizing n
  case zero => simp [pad, value, Nat.mod_one]
  case succ k ih =>
    have last : value (pad (k + 1) n) = 10 * value (pad k (n / 10)) + ((digit n).toNat - 48) := by
      simp [pad, value]
    rw [last, ih, toNat_digit, Nat.pow_succ, Nat.mul_comm (10 ^ k), Nat.mod_mul]
    omega

theorem mem_pad {k n : Nat} {c : Char} (h : c ∈ pad k n) : 48 ≤ c.toNat ∧ c.toNat ≤ 57 := by
  induction k generalizing n
  case zero => cases h
  case succ k ih =>
    rcases List.mem_append.mp h with h | h
    case inl => exact ih h
    case inr =>
      rw [List.mem_singleton.mp h, toNat_digit]
      omega

def dateText (day : Int) : List Char :=
  pad 4 (civil day).year.toNat ++ '-' :: (pad 2 (civil day).month.toNat ++ '-' :: pad 2 (civil day).day.toNat)

-- The day of a text that is written like that, if there is one.
def readDate (text : List Char) : Option Int :=
  let date : Date := {
    year := value (text.take 4), month := value ((text.drop 5).take 2), day := value (text.drop 8) }
  if dateText (number date) = text then some (number date) else none

theorem readDate_dateText (h : firstDay ≤ day) (h' : day ≤ lastDay) : readDate (dateText day) = some day := by
  have year := year_range h h'
  have range := civil_range day
  have back : (⟨value ((dateText day).take 4), value (((dateText day).drop 5).take 2), value ((dateText day).drop 8)⟩ :
      Date) = civil day := by
    have first : (dateText day).take 4 = pad 4 (civil day).year.toNat := by
      exact List.take_left' length_pad
    have rest : (dateText day).drop 5 = pad 2 (civil day).month.toNat ++ '-' :: pad 2 (civil day).day.toNat := by
      rw [dateText, ← List.singleton_append, ← List.append_assoc]
      exact List.drop_left' (by simp [length_pad])
    have second : ((dateText day).drop 5).take 2 = pad 2 (civil day).month.toNat := by
      rw [rest]
      exact List.take_left' length_pad
    have third : (dateText day).drop 8 = pad 2 (civil day).day.toNat := by
      have : (dateText day).drop 8 = ((dateText day).drop 5).drop 3 := by rw [List.drop_drop]
      rw [this, rest, ← List.singleton_append, ← List.append_assoc]
      exact List.drop_left' (by simp [length_pad])
    rw [first, second, third, value_pad, value_pad, value_pad, Nat.mod_eq_of_lt (by omega), Nat.mod_eq_of_lt (by omega),
      Nat.mod_eq_of_lt (by omega), Int.toNat_of_nonneg year.left, Int.toNat_of_nonneg (by omega),
      Int.toNat_of_nonneg (by omega)]
  unfold readDate
  dsimp only
  rw [back, number_civil, if_pos rfl]

theorem mem_dateText {c : Char} (h : c ∈ dateText day) : c = '-' ∨ 48 ≤ c.toNat ∧ c.toNat ≤ 57 := by
  simp only [dateText, List.mem_append, List.mem_cons] at h
  rcases h with h | rfl | h | rfl | h
  case inl                 => exact .inr (mem_pad h)
  case inr.inl             => exact .inl rfl
  case inr.inr.inl         => exact .inr (mem_pad h)
  case inr.inr.inr.inl     => exact .inl rfl
  case inr.inr.inr.inr     => exact .inr (mem_pad h)

example : dateText 19844 = "2024-05-01".toList := by decide +kernel

end Calendar
