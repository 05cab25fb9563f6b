import Mathlib.Tactic.IntervalCases
import Mathlib.Order.SuccPred.IntervalSucc
import Solta.DateFormatter
import Solta.Lib.FixedWidth

/-!
The order of event keys.

The fields of a rendered date stand from the year down to the millisecond, each in one
width. Days are placed in the Gregorian calendar by counting months from March, so that a
leap day ends a year; the day a month starts on grows with the month. So later local times
have later fields, through every carry, and later keys.
-/

namespace Solta

open Lib

/-! ### Months -/

/-- The days from 0000-03-01 to the first of March of a year. -/
def yearStart (y : ℤ) : ℤ := 365 * y + y / 4 - y / 100 + y / 400

/-- The days from 0000-03-01 to the first of a month, months counted from that March. -/
def monthStart (m : ℤ) : ℤ := yearStart (m / 12) + (153 * (m % 12) + 2) / 5

def isLeap (y : ℤ) : Prop := y % 4 = 0 ∧ (y % 100 ≠ 0 ∨ y % 400 = 0)

instance (y : ℤ) : Decidable (isLeap y) := inferInstanceAs (Decidable (_ ∧ _))

def monthLength (year : ℤ) (month : ℕ) : ℕ :=
  if month = 2 then (if isLeap year then 29 else 28)
  else if month = 4 ∨ month = 6 ∨ month = 9 ∨ month = 11 then 30
  else 31

lemma monthLength_pos (year : ℤ) (month : ℕ) : 0 < monthLength year month := by
  unfold monthLength
  split_ifs <;> decide

lemma monthLength_le (year : ℤ) (month : ℕ) : monthLength year month ≤ 31 := by
  unfold monthLength
  split_ifs <;> decide

lemma monthStart_eq {m y k : ℤ} (hm : m = 12 * y + k) (h0 : 0 ≤ k) (h12 : k < 12) :
    monthStart m = yearStart y + (153 * k + 2) / 5 := by
  have hdiv : m / 12 = y := by omega
  have hmod : m % 12 = k := by omega
  rw [monthStart, hdiv, hmod]

lemma yearStart_succ (y : ℤ) :
    yearStart (y + 1) = yearStart y + (if isLeap (y + 1) then 366 else 365) := by
  unfold yearStart
  split_ifs with h <;> unfold isLeap at h <;> omega

/-- **Months have their lengths**: each starts where the one before it ends. -/
lemma monthStart_succ (year : ℤ) (month : ℕ) (h1 : 1 ≤ month) (h12 : month ≤ 12) :
    monthStart (12 * year + month - 2) =
      monthStart (12 * year + month - 3) + monthLength year month := by
  by_cases h3 : 3 ≤ month
  · rw [monthStart_eq (y := year) (k := month - 2) (by ring) (by omega) (by omega),
      monthStart_eq (y := year) (k := month - 3) (by ring) (by omega) (by omega)]
    interval_cases month <;> simp [monthLength] <;> ring
  -- January and February belong to the year that began the March before
  · have hyear := yearStart_succ (year - 1)
    rw [sub_add_cancel] at hyear
    obtain rfl | rfl : month = 1 ∨ month = 2 := by omega
    · rw [monthStart_eq (y := year - 1) (k := 11) (by push_cast; ring) (by omega) (by omega),
        monthStart_eq (y := year - 1) (k := 10) (by push_cast; ring) (by omega) (by omega)]
      simp [monthLength]
      ring
    · rw [monthStart_eq (y := year) (k := 0) (by push_cast; ring) (by omega) (by omega),
        monthStart_eq (y := year - 1) (k := 11) (by push_cast; ring) (by omega) (by omega), hyear]
      unfold monthLength
      split_ifs <;> omega

lemma monthStart_mono {m n : ℤ} (h : m ≤ n) : monthStart m ≤ monthStart n := by
  refine monotone_int_of_le_succ (fun m => ?_) h
  -- the month `m` has number `m + 3`, counted from January 0
  have hsucc := monthStart_succ ((m + 2) / 12) (((m + 2) % 12).toNat + 1) (by omega) (by omega)
  have hindex : 12 * ((m + 2) / 12) + ((((m + 2) % 12).toNat + 1 : ℕ) : ℤ) = m + 3 := by omega
  have hpos := monthLength_pos ((m + 2) / 12) (((m + 2) % 12).toNat + 1)
  rw [hindex] at hsucc
  have h1 : m + 3 - 2 = m + 1 := by ring
  have h0 : m + 3 - 3 = m := by ring
  rw [h1, h0] at hsucc
  omega

/-! ### Days -/

/-- A day in a cycle of 400 years: its century, its four years, its year and the rest. -/
lemma exists_cycle {doe : ℕ} (h : doe < 146097) :
    ∃ c q y e, c ≤ 3 ∧ q ≤ 24 ∧ y ≤ 3 ∧ (e ≤ 364 ∨ (e = 365 ∧ y = 3 ∧ (q < 24 ∨ c = 3))) ∧
      doe = 36524 * c + 1461 * q + 365 * y + e := by
  obtain ⟨c, r, hc, hr, rfl⟩ : ∃ c r, c ≤ 3 ∧ (r < 36524 ∨ (r = 36524 ∧ c = 3)) ∧
      doe = 36524 * c + r :=
    ⟨min (doe / 36524) 3, doe - 36524 * min (doe / 36524) 3, by omega, by omega, by omega⟩
  obtain ⟨q, s, hq, hs, rfl⟩ : ∃ q s, q ≤ 24 ∧ s ≤ 1460 ∧ r = 1461 * q + s :=
    ⟨r / 1461, r % 1461, by omega, by omega, by omega⟩
  exact ⟨c, q, min (s / 365) 3, s - 365 * min (s / 365) 3, hc, hq, by omega, by omega, by omega⟩

/-- The year of a day in the cycle: the leap days before it are taken out first. -/
lemma yearOfCycle_eq {c q y e doe : ℕ} (hc : c ≤ 3) (hq : q ≤ 24) (hy : y ≤ 3)
    (he : e ≤ 364 ∨ (e = 365 ∧ y = 3 ∧ (q < 24 ∨ c = 3)))
    (h : doe = 36524 * c + 1461 * q + 365 * y + e) :
    (doe - doe / 1460 + doe / 36524 - doe / 146096) / 365 = 100 * c + 4 * q + y := by
  have hleap : doe / 1460 = 25 * c + q + (24 * c + q + 365 * y + e) / 1460 := by omega
  by_cases hlast : doe = 146096
  · rw [hlast]
    omega
  have hcentury : doe / 36524 = c := by omega
  have hcycle : doe / 146096 = 0 := by omega
  rw [hleap, hcentury, hcycle]
  by_cases hlt : 24 * c + q + 365 * y + e < 1460
  · rw [Nat.div_eq_of_lt hlt]
    omega
  · have hone : (24 * c + q + 365 * y + e) / 1460 = 1 := by omega
    rw [hone]
    omega

/-- What is left of a day in the cycle when its years are taken out. -/
lemma dayOfYear_eq {c q y e doe : ℕ} (hq : q ≤ 24) (hy : y ≤ 3)
    (h : doe = 36524 * c + 1461 * q + 365 * y + e) :
    doe - (365 * (100 * c + 4 * q + y) + (100 * c + 4 * q + y) / 4 - (100 * c + 4 * q + y) / 100) =
      e := by
  have h4 : (100 * c + 4 * q + y) / 4 = 25 * c + q := by omega
  have h100 : (100 * c + 4 * q + y) / 100 = c := by omega
  rw [h4, h100]
  omega

/-- The day counted `days` from 1970-01-01, the first 719468 from 0000-03-01, is a day of
that month. -/
structure IsDayOf (days year : ℤ) (month day : ℕ) : Prop where
  month_pos : 1 ≤ month
  month_le : month ≤ 12
  day_pos : 1 ≤ day
  day_le : day ≤ monthLength year month
  start : days + 719468 = monthStart (12 * year + month - 3) + day - 1

lemma yearStart_cycle (era : ℤ) {c q y : ℕ} (hc : c ≤ 3) (hq : q ≤ 24) (hy : y ≤ 3) :
    yearStart (era * 400 + (100 * c + 4 * q + y : ℕ)) =
      146097 * era + (36524 * c + 1461 * q + 365 * y : ℕ) := by
  have h4 : (era * 400 + (100 * c + 4 * q + y : ℕ)) / 4 = 100 * era + 25 * c + q := by omega
  have h100 : (era * 400 + (100 * c + 4 * q + y : ℕ)) / 100 = 4 * era + c := by omega
  have h400 : (era * 400 + (100 * c + 4 * q + y : ℕ)) / 400 = era := by omega
  rw [yearStart, h4, h100, h400]
  push_cast
  ring

/-- Only the last year of four may have a 366th day, and then the next year is a leap year. -/
lemma isLeap_cycle (era : ℤ) {c q : ℕ} (hq : q < 24 ∨ c = 3) (hq' : q ≤ 24) :
    isLeap (era * 400 + (100 * c + 4 * q + 3 : ℕ) + 1) := by
  unfold isLeap
  omega

/-- A day of the year lies in the month `(5 * e + 2) / 153`, counted from March. -/
lemma monthOfYear {e k : ℕ} (he : e ≤ 365) (hk : (5 * e + 2) / 153 = k) :
    k ≤ 11 ∧ (153 * k + 2) / 5 ≤ e ∧ (k < 11 → e < (153 * (k + 1) + 2) / 5) := by
  omega

/-- The day `e` of the year from March `y` on, in its month. -/
lemma isDayOf_of_year {days y : ℤ} {e k : ℕ} (hdays : days + 719468 = yearStart y + e)
    (he : e ≤ 364 ∨ (e = 365 ∧ isLeap (y + 1))) (hk : (5 * e + 2) / 153 = k) {year : ℤ}
    {month : ℕ} (hmonth : month = if k < 10 then k + 3 else k - 9)
    (hyear : year = y + if month ≤ 2 then 1 else 0) :
    IsDayOf days year month (e - (153 * k + 2) / 5 + 1) := by
  obtain ⟨hk11, hle, hlt⟩ := monthOfYear (by omega : e ≤ 365) hk
  have hindex : 12 * year + month - 3 = 12 * y + k := by
    rw [hyear, hmonth]
    split_ifs <;> omega
  have hstart : monthStart (12 * year + month - 3) = yearStart y + (153 * k + 2) / 5 :=
    monthStart_eq hindex (by omega) (by omega)
  have h1 : 1 ≤ month := by
    rw [hmonth]
    split_ifs <;> omega
  have h12 : month ≤ 12 := by
    rw [hmonth]
    split_ifs <;> omega
  -- the day is before the start of the next month
  have hnext : days + 719468 < monthStart (12 * year + month - 2) := by
    by_cases h11 : k < 11
    · rw [monthStart_eq (y := y) (k := k + 1) (by omega) (by omega) (by omega)]
      have := hlt h11
      omega
    · rw [monthStart_eq (y := y + 1) (k := 0) (by omega) (by omega) (by omega), yearStart_succ]
      split_ifs with hleap
      · omega
      · have : e ≤ 364 := he.resolve_right fun h => hleap h.2
        omega
  rw [monthStart_succ year month h1 h12] at hnext
  exact ⟨h1, h12, by omega, by omega, by omega⟩

/-- **The calendar is Gregorian**: `civil` finds the month of a day and the day in it. -/
theorem civil_isDayOf (days : ℤ) :
    IsDayOf days (civil days).1 (civil days).2.1 (civil days).2.2 := by
  obtain ⟨era, doe, hdoe, hdays⟩ : ∃ (era : ℤ) (doe : ℕ), doe < 146097 ∧
      days + 719468 = 146097 * era + doe :=
    ⟨(days + 719468) / 146097, ((days + 719468) % 146097).toNat, by omega, by omega⟩
  have hera : (days + 719468) / 146097 = era := by omega
  have hmod : ((days + 719468) % 146097).toNat = doe := by omega
  obtain ⟨c, q, y, e, hc, hq, hy, he, hcycle⟩ := exists_cycle hdoe
  unfold civil
  dsimp only
  rw [hera, hmod, yearOfCycle_eq hc hq hy he hcycle, dayOfYear_eq hq hy hcycle]
  refine isDayOf_of_year (y := era * 400 + (100 * c + 4 * q + y : ℕ)) ?_ ?_ rfl rfl rfl
  · rw [yearStart_cycle era hc hq hy]
    omega
  · refine he.imp_right fun ⟨he365, hy3, hlast⟩ => ⟨he365, ?_⟩
    rw [hy3]
    exact isLeap_cycle era hlast hq

example : civil 11016 = (2000, 2, 29) := by decide

/-- The month of a later day is not earlier. -/
lemma IsDayOf.month_mono {d₁ d₂ y₁ y₂ : ℤ} {m₁ m₂ k₁ k₂ : ℕ} (h₁ : IsDayOf d₁ y₁ m₁ k₁)
    (h₂ : IsDayOf d₂ y₂ m₂ k₂) (h : d₁ ≤ d₂) : 12 * y₁ + m₁ ≤ 12 * y₂ + m₂ := by
  by_contra hlt
  have hend := monthStart_succ y₂ m₂ h₂.month_pos h₂.month_le
  have hmono : monthStart (12 * y₂ + m₂ - 2) ≤ monthStart (12 * y₁ + m₁ - 3) :=
    monthStart_mono (by omega)
  have hs₁ := h₁.start
  have hs₂ := h₂.start
  have hle := h₂.day_le
  have hpos := h₁.day_pos
  omega

/-- A later day has a later year, a later month or a later number. -/
lemma IsDayOf.lt_of_lt {d₁ d₂ y₁ y₂ : ℤ} {m₁ m₂ k₁ k₂ : ℕ} (h₁ : IsDayOf d₁ y₁ m₁ k₁)
    (h₂ : IsDayOf d₂ y₂ m₂ k₂) (h : d₁ < d₂) :
    y₁ < y₂ ∨ (y₁ = y₂ ∧ (m₁ < m₂ ∨ (m₁ = m₂ ∧ k₁ < k₂))) := by
  have hmono := h₁.month_mono h₂ h.le
  have hle₁ := h₁.month_le
  have hle₂ := h₂.month_le
  have hpos₁ := h₁.month_pos
  have hpos₂ := h₂.month_pos
  rcases Int.lt_or_eq_of_le hmono with hlt | heq
  · omega
  · obtain ⟨rfl, rfl⟩ : y₁ = y₂ ∧ m₁ = m₂ := by omega
    have hs₁ := h₁.start
    have hs₂ := h₂.start
    exact .inr ⟨rfl, .inr ⟨rfl, by omega⟩⟩

/-! ### Local times -/

/-- The fields of a local time, the greatest unit first. -/
def DateComponents.parts (c : DateComponents) : List ℕ :=
  [c.yearOfEra, c.month, c.day, c.hour, c.minute, c.second, c.millisecond]

lemma components_isDayOf (timeZone : ℤ) (date : Date) :
    IsDayOf (localMillis timeZone date / 86400000) (components timeZone date).year
      (components timeZone date).month (components timeZone date).day :=
  civil_isDayOf _

/-- The fields of a later time of a day are later. -/
lemma lex_time {s t : ℕ} (h : s < t) :
    List.Lex (· < ·) [s / 3600000, s / 60000 % 60, s / 1000 % 60, s % 1000]
      [t / 3600000, t / 60000 % 60, t / 1000 % 60, t % 1000] := by
  simp only [List.cons_lex_cons_iff, List.not_lex_nil, and_false, or_false]
  omega

/-- **A later local time has later fields**, through every carry. -/
lemma lex_parts {timeZone : ℤ} {d₁ d₂ : Date}
    (h : localMillis timeZone d₁ < localMillis timeZone d₂)
    (hyear : 0 < (components timeZone d₁).year) :
    List.Lex (· < ·) (components timeZone d₁).parts (components timeZone d₂).parts := by
  have h₁ := components_isDayOf timeZone d₁
  have h₂ := components_isDayOf timeZone d₂
  rcases Int.lt_or_eq_of_le (Int.ediv_le_ediv (by decide : (0 : ℤ) < 86400000) h.le) with
    hday | hday
  · have hlex := h₁.lt_of_lt h₂ hday
    unfold DateComponents.parts DateComponents.yearOfEra
    rw [if_pos hyear, if_pos (by omega)]
    simp only [List.cons_lex_cons_iff]
    omega
  · have hdate : civil (localMillis timeZone d₁ / 86400000) =
        civil (localMillis timeZone d₂ / 86400000) := by rw [hday]
    have htime : (localMillis timeZone d₁ % 86400000).toNat <
        (localMillis timeZone d₂ % 86400000).toNat := by omega
    have hyear' : (components timeZone d₁).year = (components timeZone d₂).year :=
      congrArg Prod.fst hdate
    have hmonth : (components timeZone d₁).month = (components timeZone d₂).month :=
      congrArg (fun date => date.2.1) hdate
    have hday' : (components timeZone d₁).day = (components timeZone d₂).day :=
      congrArg (fun date => date.2.2) hdate
    unfold DateComponents.parts DateComponents.yearOfEra
    rw [hyear', hmonth, hday']
    exact List.Lex.append_left _ (lex_time htime) [_, _, _]

/-! ### Keys -/

lemma digitChar_lt : ∀ i j, i < j → j < 10 → Nat.digitChar i < Nat.digitChar j := by
  have hall : ∀ j : Fin 10, ∀ i : Fin 10, i < j → Nat.digitChar i < Nat.digitChar j := by decide
  exact fun i j hij hj => hall ⟨j, hj⟩ ⟨i, hij.trans hj⟩ hij

/-- A number that fits is rendered by its digits, with zeros in front. -/
lemma digits_eq_positional {w n : ℕ} (h : n < 10 ^ w) :
    digits w n = positional Nat.digitChar 10 w n := by
  induction w generalizing n with
  | zero =>
    obtain rfl : n = 0 := by simpa using h
    rfl
  | succ w ih =>
    have hdiv : n / 10 < 10 ^ w := by
      rw [Nat.div_lt_iff_lt_mul (by decide), ← Nat.pow_succ]
      exact h
    rw [digits, ih hdiv]
    rfl

/-- A field of `w` digits with what follows it. -/
def digitColumn (w : ℕ) (sep : Text) : Column Char :=
  (Column.numeral Nat.digitChar (by decide : 0 < 10) digitChar_lt w).followedBy sep

/-- The fields of the pattern, each with what follows it. -/
def clockColumns : List (Column Char) :=
  [digitColumn 4 ['-'], digitColumn 2 ['-'], digitColumn 2 [' '], digitColumn 2 [':'],
    digitColumn 2 [':'], digitColumn 2 [':'], digitColumn 3 []]

lemma splitBy_dateFormat :
    clockFormatter.dateFormat.splitBy (· == ·) =
      ["yyyy".toList, ['-'], "MM".toList, ['-'], "dd".toList, [' '], "HH".toList, [':'],
        "mm".toList, [':'], "ss".toList, [':'], "SSS".toList] := by
  decide

/-- An event key is the row of the fields of its local time. -/
lemma string_eq_row {date : Date}
    (h : Fits clockColumns (components clockFormatter.timeZone date).parts) :
    clockFormatter.string date =
      row clockColumns (components clockFormatter.timeZone date).parts := by
  unfold DateFormatter.string
  rw [splitBy_dateFormat]
  generalize components clockFormatter.timeZone date = c at h ⊢
  obtain ⟨hyear, hmonth, hday, hhour, hminute, hsecond, hmillisecond⟩ :
      c.yearOfEra < 10 ^ 4 ∧ c.month < 10 ^ 2 ∧ c.day < 10 ^ 2 ∧ c.hour < 10 ^ 2 ∧
        c.minute < 10 ^ 2 ∧ c.second < 10 ^ 2 ∧ c.millisecond < 10 ^ 3 := by
    simpa [Fits, clockColumns, DateComponents.parts, digitColumn, Column.followedBy,
      Column.numeral] using h
  have hfields : (["yyyy".toList, ['-'], "MM".toList, ['-'], "dd".toList, [' '], "HH".toList,
      [':'], "mm".toList, [':'], "ss".toList, [':'], "SSS".toList]).flatMap (field c) =
      digits 4 c.yearOfEra ++ (['-'] ++ (digits 2 c.month ++ (['-'] ++ (digits 2 c.day ++
        ([' '] ++ (digits 2 c.hour ++ ([':'] ++ (digits 2 c.minute ++ ([':'] ++
          (digits 2 c.second ++ ([':'] ++ digits 3 c.millisecond))))))))))) := by
    simp [field]
  rw [hfields, digits_eq_positional hyear, digits_eq_positional hmonth,
    digits_eq_positional hday, digits_eq_positional hhour, digits_eq_positional hminute,
    digits_eq_positional hsecond, digits_eq_positional hmillisecond]
  simp [row, clockColumns, DateComponents.parts, digitColumn, Column.followedBy, Column.numeral]

/-- The milliseconds of an instant, cut off. -/
def Date.millis (date : Date) : ℤ := ⌊date.timeIntervalSince1970 * 1000⌋

/-- The years 1970 to 9999, at Greenwich and in the zone of the keys. -/
structure InYears (date : Date) : Prop where
  first : 0 ≤ date.millis
  last : date.millis < 253402300800000 + 14400000

/-- In these years a local year has up to four digits. -/
lemma InYears.year {date : Date} (h : InYears date) :
    0 < (components clockFormatter.timeZone date).year ∧
      (components clockFormatter.timeZone date).year ≤ 9999 := by
  have hday := components_isDayOf clockFormatter.timeZone date
  have hlocal : localMillis clockFormatter.timeZone date = date.millis - 14400000 := by
    unfold localMillis Date.millis clockFormatter
    ring
  have hfirst := h.first
  have hlast := h.last
  -- from 0001-01-01 to 9999-12-31
  have hmin := (civil_isDayOf (-719162)).month_mono hday (by omega)
  have hmax := hday.month_mono (civil_isDayOf 2932896) (by omega)
  have hmin' : civil (-719162) = (1, 1, 1) := by decide
  have hmax' : civil 2932896 = (9999, 12, 31) := by decide
  rw [hmin', Nat.cast_one] at hmin
  rw [hmax'] at hmax
  dsimp only at hmax
  have hm := hday.month_le
  have hp := hday.month_pos
  omega

lemma InYears.fits {date : Date} (h : InYears date) :
    Fits clockColumns (components clockFormatter.timeZone date).parts := by
  obtain ⟨hpos, hle⟩ := h.year
  have hday := components_isDayOf clockFormatter.timeZone date
  have hdayle := hday.day_le.trans (monthLength_le _ _)
  have hmonth := hday.month_le
  have hyear : (components clockFormatter.timeZone date).yearOfEra < 10 ^ 4 := by
    unfold DateComponents.yearOfEra
    rw [if_pos hpos]
    omega
  have htime : (localMillis clockFormatter.timeZone date % 86400000).toNat < 86400000 := by omega
  refine .cons hyear (.cons ?_ (.cons ?_ (.cons ?_ (.cons ?_ (.cons ?_ (.cons ?_ .nil))))))
  · exact lt_of_le_of_lt hmonth (by decide)
  · exact lt_of_le_of_lt hdayle (by decide)
  · exact Nat.lt_of_lt_of_le (Nat.div_lt_of_lt_mul htime : _ < 24) (by decide)
  · exact Nat.lt_of_lt_of_le (Nat.mod_lt _ (by decide) : _ < 60) (by decide)
  · exact Nat.lt_of_lt_of_le (Nat.mod_lt _ (by decide) : _ < 60) (by decide)
  · exact Nat.mod_lt _ (by decide)

/-- **Later keys are greater**: the keys of two instants compare, character by character, as
the instants do. -/
theorem lex_string {d₁ d₂ : Date} (h₁ : InYears d₁) (h₂ : InYears d₂)
    (h : d₁.millis < d₂.millis) :
    List.Lex (· < ·) (clockFormatter.string d₁) (clockFormatter.string d₂) := by
  have hlocal : localMillis clockFormatter.timeZone d₁ < localMillis clockFormatter.timeZone d₂ :=
    Int.add_lt_add_right h _
  rw [string_eq_row h₁.fits, string_eq_row h₂.fits]
  exact lex_row h₁.fits h₂.fits (lex_parts hlocal h₁.year.1)

lemma length_string {date : Date} (h : InYears date) :
    (clockFormatter.string date).length = 23 := by
  rw [string_eq_row h.fits]
  simp [row, clockColumns, DateComponents.parts, digitColumn, Column.followedBy, Column.numeral]

end Solta
