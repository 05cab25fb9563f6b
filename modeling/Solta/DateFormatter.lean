import Mathlib.Data.List.SplitBy
import Mathlib.Data.Rat.Floor
import Mathlib.Tactic.Common
import Solta.Login

/-!
`DateFormatter`, as far as event keys need it.

A date is an instant, in seconds since 1970. A formatter renders it in its time zone, in
the proleptic Gregorian calendar and cut off at the millisecond, by replacing every field
of its pattern. A formatter without a pattern renders the empty text.
-/

namespace Solta

structure Date where
  timeIntervalSince1970 : ℚ
  deriving DecidableEq

/-- The parts of a local time. -/
structure DateComponents where
  year : ℤ
  month : ℕ
  day : ℕ
  hour : ℕ
  minute : ℕ
  second : ℕ
  millisecond : ℕ

/-- The year, the month and the day of a day counted from 1970-01-01. The day is placed in
a cycle of 400 years from the first of March, where a leap day comes last. -/
def civil (days : ℤ) : ℤ × ℕ × ℕ :=
  let z := days + 719468
  let doe := (z % 146097).toNat
  let yoe := (doe - doe / 1460 + doe / 36524 - doe / 146096) / 365
  let doy := doe - (365 * yoe + yoe / 4 - yoe / 100)
  let mp := (5 * doy + 2) / 153
  let month := if mp < 10 then mp + 3 else mp - 9
  (z / 146097 * 400 + yoe + (if month ≤ 2 then 1 else 0), month, doy - (153 * mp + 2) / 5 + 1)

/-- The milliseconds of a local time, `timeZone` seconds ahead of Greenwich. -/
def localMillis (timeZone : ℤ) (date : Date) : ℤ :=
  ⌊date.timeIntervalSince1970 * 1000⌋ + timeZone * 1000

def components (timeZone : ℤ) (date : Date) : DateComponents :=
  let ms := localMillis timeZone date
  let time := (ms % 86400000).toNat
  let (year, month, day) := civil (ms / 86400000)
  ⟨year, month, day, time / 3600000, time / 60000 % 60, time / 1000 % 60, time % 1000⟩

/-- The decimal digits of `n`, at least `w` of them. -/
def digits : ℕ → ℕ → Text
  | 0, n => if n = 0 then [] else Nat.toDigits 10 n
  | w + 1, n => digits w (n / 10) ++ [Nat.digitChar (n % 10)]

/-- The year of the era, which is what `yyyy` stands for. -/
def DateComponents.yearOfEra (c : DateComponents) : ℕ :=
  if 0 < c.year then c.year.toNat else (1 - c.year).toNat

/-- A run of one letter is a field, any other run stands for itself. The fields are those of
the one pattern the program has. -/
def field (c : DateComponents) (run : Text) : Text :=
  if run = "yyyy".toList then digits 4 c.yearOfEra
  else if run = "MM".toList then digits 2 c.month
  else if run = "dd".toList then digits 2 c.day
  else if run = "HH".toList then digits 2 c.hour
  else if run = "mm".toList then digits 2 c.minute
  else if run = "ss".toList then digits 2 c.second
  else if run = "SSS".toList then digits 3 c.millisecond
  else run

/-- The zone of a formatter that has none set is not observed, it has no pattern either. -/
structure DateFormatter where
  dateFormat : Text := []
  timeZone : ℤ := 0
  deriving DecidableEq

def DateFormatter.string (f : DateFormatter) (date : Date) : Text :=
  (f.dateFormat.splitBy (· == ·)).flatMap (field (components f.timeZone date))

/-- The pattern and the zone of the initializers that read the clock. -/
def clockFormatter : DateFormatter := ⟨"yyyy-MM-dd HH:mm:ss:SSS".toList, -14400⟩

example : clockFormatter.string ⟨1528300799.9995⟩ = "2018-06-06 11:59:59:999".toList := by
  decide +kernel

lemma isDigit_of_mem_digits {c : Char} {w n : ℕ} (h : c ∈ digits w n) : c.isDigit := by
  induction w generalizing n with
  | zero =>
    unfold digits at h
    split at h
    · simp at h
    · exact Nat.isDigit_of_mem_toDigits (by omega) (by omega) h
  | succ w ih =>
    rcases List.mem_append.mp h with h | h
    · exact ih h
    · obtain rfl : c = Nat.digitChar (n % 10) := by simpa using h
      rw [Nat.isDigit_digitChar]
      simp [Nat.mod_lt]

lemma mem_field {c : Char} {comps : DateComponents} {run : Text} (h : c ∈ field comps run) :
    c.isDigit ∨ c ∈ run := by
  unfold field at h
  split_ifs at h
  all_goals first
    | exact Or.inl (isDigit_of_mem_digits h)
    | exact Or.inr h

namespace DateFormatter

/-- A rendered date is made of digits and the characters of the pattern. -/
lemma mem_string {c : Char} {f : DateFormatter} {date : Date} (h : c ∈ f.string date) :
    c.isDigit ∨ c ∈ f.dateFormat := by
  obtain ⟨run, hrun, hc⟩ := List.mem_flatMap.mp h
  rcases mem_field hc with hd | hc
  · exact Or.inl hd
  · refine Or.inr ?_
    rw [← List.flatten_splitBy (· == ·) f.dateFormat]
    exact List.mem_flatten.mpr ⟨run, hrun, hc⟩

/-- Without a pattern nothing is rendered. -/
lemma string_of_dateFormat_eq_nil {f : DateFormatter} (h : f.dateFormat = []) (date : Date) :
    f.string date = [] := by
  simp [string, h, List.splitBy_nil]

end DateFormatter

lemma dash_mem_clockFormatter_string (date : Date) : '-' ∈ clockFormatter.string date := by
  refine List.mem_flatMap.mpr ⟨['-'], by decide, ?_⟩
  have : field (components clockFormatter.timeZone date) ['-'] = ['-'] := rfl
  rw [this]
  exact List.mem_singleton_self _

/-- **An event key is a valid key**, whatever the clock reads. -/
theorem clockFormatter_isValidKey (date : Date) :
    FValidation.isValidKey (clockFormatter.string date) := by
  have hpattern : clockFormatter.dateFormat.all fun c => c ∉ FValidation.kInvalidKeyCharacters := by
    decide
  have hdigit : FValidation.kInvalidKeyCharacters.all fun c => !c.isDigit := by decide
  rw [FValidation.isValidKey_iff]
  refine ⟨List.ne_nil_of_mem (dash_mem_clockFormatter_string date), fun c hc hbad => ?_⟩
  rcases DateFormatter.mem_string hc with hd | hp
  · simpa [hd] using List.all_eq_true.mp hdigit c hbad
  · exact of_decide_eq_true (List.all_eq_true.mp hpattern c hp) hbad

end Solta
