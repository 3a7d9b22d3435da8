import Mathlib

/-! Day numbers of calendar dates in the WAL decoder. -/
namespace Palimpsest.Postgres

def FitsI32 (n : ℤ) : Prop := -2 ^ 31 ≤ n ∧ n < 2 ^ 31

instance (n : ℤ) : Decidable (FitsI32 n) := inferInstanceAs (Decidable (_ ∧ _))

/-- `none` when a step leaves the 32-bit range. Division truncates towards zero. -/
def daysFromCivil (year : ℤ) (month day : ℕ) : Option ℤ :=
  let year := year - if month ≤ 2 then 1 else 0
  let lowered := if 0 ≤ year then year else year - 399
  let era := lowered.tdiv 400
  let yoe := year - era * 400
  let moved := (month : ℤ) + if 2 < month then -3 else 9
  let doy := (153 * moved + 2).tdiv 5 + day - 1
  let doe := yoe * 365 + yoe.tdiv 4 - yoe.tdiv 100 + doy
  let days := era * 146097 + doe - 719468
  let steps := [year, lowered, era * 400, yoe, (month : ℤ), (day : ℤ), moved, 153 * moved,
    153 * moved + 2, doy + 1, doy, yoe * 365, yoe * 365 + yoe.tdiv 4, doe - doy, doe,
    era * 146097, days + 719468, days]
  if steps.all fun n => FitsI32 n then some days else none

def IsLeap (year : ℤ) : Prop := year % 4 = 0 ∧ year % 100 ≠ 0 ∨ year % 400 = 0

instance (year : ℤ) : Decidable (IsLeap year) := inferInstanceAs (Decidable (_ ∨ _))

def daysInMonth (year : ℤ) : ℕ → ℕ
  | 2 => if IsLeap year then 29 else 28
  | 4 | 6 | 9 | 11 => 30
  | _ => 31

/-- A date of the proleptic Gregorian calendar; year 0 is 1 BC. -/
@[ext] structure CivilDate where
  year : ℤ
  month : ℕ
  day : ℕ
  month_mem : 1 ≤ month ∧ month ≤ 12
  day_mem : 1 ≤ day ∧ day ≤ daysInMonth year month

namespace CivilDate

def unixEpoch : CivilDate := ⟨1970, 1, 1, by decide, by decide⟩

theorem daysInMonth_mem (year : ℤ) (month : ℕ) :
    28 ≤ daysInMonth year month ∧ daysInMonth year month ≤ 31 := by
  unfold daysInMonth
  split
  · split <;> simp
  all_goals simp

def next (x : CivilDate) : CivilDate :=
  if hday : x.day < daysInMonth x.year x.month then
    ⟨x.year, x.month, x.day + 1, x.month_mem, by omega⟩
  else if hmonth : x.month < 12 then
    ⟨x.year, x.month + 1, 1, by omega, by have := daysInMonth_mem x.year (x.month + 1); omega⟩
  else ⟨x.year + 1, 1, 1, by omega, by simp [daysInMonth]⟩

def Before (x y : CivilDate) : Prop :=
  x.year < y.year ∨ x.year = y.year ∧ (x.month < y.month ∨ x.month = y.month ∧ x.day < y.day)

/-- The months in order, numbered from January of the year 0. -/
def index (x : CivilDate) : ℤ := 12 * x.year + (x.month - 1)

def monthStart (i : ℤ) : ℤ :=
  let march := i - 2
  let year := march / 12
  365 * year + year / 4 - year / 100 + year / 400 + (153 * (march % 12) + 2) / 5 - 719468

def days (x : CivilDate) : ℤ := monthStart x.index + (x.day - 1)

/-- Years whose day numbers are computed without leaving 32 bits. -/
def InRange (x : CivilDate) : Prop := -5877599 ≤ x.year ∧ x.year ≤ 5879599

theorem daysFromCivil_eq {x : CivilDate} (hx : x.InRange) :
    daysFromCivil x.year x.month x.day = some x.days := by
  obtain ⟨year, month, day, hmonth, hday⟩ := x
  have hlast := (daysInMonth_mem year month).2
  simp only [InRange, days, index, monthStart, daysFromCivil] at *
  -- the source's year, which starts in March, and the month in it
  obtain ⟨y, hy⟩ : ∃ y, y = year - if month ≤ 2 then 1 else 0 := ⟨_, rfl⟩
  obtain ⟨m, hm⟩ : ∃ m, m = (month : ℤ) + if 2 < month then -3 else 9 := ⟨_, rfl⟩
  have hera : (if 0 ≤ y then y else y - 399).tdiv 400 = y / 400 := by
    grind
  rw [← hy, ← hm, hera, Int.tdiv_eq_ediv_of_nonneg (a := 153 * m + 2) (by grind),
    Int.tdiv_eq_ediv_of_nonneg (a := y - y / 400 * 400) (by grind),
    Int.tdiv_eq_ediv_of_nonneg (a := y - y / 400 * 400) (by grind), if_pos]
  · grind
  · simp only [List.all_eq_true, decide_eq_true_eq, List.forall_mem_cons]
    simp only [FitsI32, List.not_mem_nil, false_implies, implies_true, and_true]
    split <;> omega

theorem monthStart_succ (x : CivilDate) :
    monthStart (x.index + 1) = monthStart x.index + daysInMonth x.year x.month := by
  obtain ⟨year, month, day, ⟨hlow, hhigh⟩, hday⟩ := x
  simp only [index, monthStart]
  interval_cases month <;> simp only [daysInMonth, IsLeap] <;> grind

theorem monthStart_strictMono : StrictMono monthStart := by
  refine strictMono_int_of_lt_succ fun i => ?_
  -- every number is that of a month
  have hmonth : 1 ≤ (i % 12 + 1).toNat ∧ (i % 12 + 1).toNat ≤ 12 := by omega
  let x : CivilDate := ⟨i / 12, (i % 12 + 1).toNat, 1, hmonth,
    le_rfl, (daysInMonth_mem ..).1.trans' (by decide)⟩
  have hidx : x.index = i := by
    simp only [x, index]
    omega
  have hsucc := monthStart_succ x
  have hpos := (daysInMonth_mem x.year x.month).1
  rw [hidx] at hsucc
  omega

theorem days_next (x : CivilDate) : x.next.days = x.days + 1 := by
  have hsucc := monthStart_succ x
  have hday := x.day_mem
  have hmonth := x.month_mem
  unfold next
  split
  case isTrue =>
    simp only [days, index]
    omega
  case isFalse hlast =>
    have hidx : ∀ y : CivilDate, y.index = x.index + 1 → y.day = 1 → y.days = x.days + 1 := by
      intro y hy hone
      rw [days, days, hy]
      omega
    split
    · exact hidx _ (by simp [index]; omega) rfl
    · exact hidx _ (by simp [index]; omega) rfl

theorem days_iterate (x) (n : ℕ) : (next^[n] x).days = x.days + n := by
  induction n with
  | zero => simp
  | succ =>
    rw [Function.iterate_succ_apply', days_next]
    omega

theorem Before.days_lt {x : CivilDate} (h : x.Before y) : x.days < y.days := by
  have hx := x.month_mem
  have hy := y.month_mem
  have hday := x.day_mem
  have hfirst := y.day_mem
  have hsucc := monthStart_succ x
  rcases lt_trichotomy x.index y.index with hlt | heq | hgt
  · have hle := monthStart_strictMono.monotone (Int.add_one_le_of_lt hlt)
    simp only [days]
    omega
  · simp only [days, heq]
    simp only [index] at heq
    unfold Before at h
    omega
  · simp only [index] at hgt
    unfold Before at h
    omega

theorem days_injective : Function.Injective days := by
  intro x y h
  by_contra hne
  have hor : x.Before y ∨ y.Before x := by
    unfold Before
    have : ¬(x.year = y.year ∧ x.month = y.month ∧ x.day = y.day) := fun ⟨hy, hm, hd⟩ =>
      hne (CivilDate.ext hy hm hd)
    omega
  rcases hor with hlt | hlt
  · exact hlt.days_lt.ne h
  · exact hlt.days_lt.ne' h

theorem days_unixEpoch : unixEpoch.days = 0 := by decide

/-- The decoder counts days: `n` steps of the calendar lead from the epoch to the date, or `-n`
from the date to the epoch. Its numbers follow calendar order. -/
theorem daysFromCivil_counts_days (x : CivilDate) (hx : x.InRange) :
    ∃ n, daysFromCivil x.year x.month x.day = some n ∧
      (next^[n.toNat] unixEpoch = x ∨ next^[(-n).toNat] x = unixEpoch) ∧
      ∀ y : CivilDate, y.InRange → x.Before y →
        ∃ m, daysFromCivil y.year y.month y.day = some m ∧ n < m := by
  refine ⟨x.days, daysFromCivil_eq hx, ?_, fun y hy hlt =>
    ⟨y.days, daysFromCivil_eq hy, hlt.days_lt⟩⟩
  rcases le_total 0 x.days with hsign | hsign
  · left
    apply days_injective
    rw [days_iterate, days_unixEpoch]
    omega
  · right
    apply days_injective
    rw [days_iterate, days_unixEpoch]
    omega

theorem day_before_unixEpoch_counted : let x : CivilDate := ⟨1969, 12, 31, by decide, by decide⟩
    ∃ n, daysFromCivil 1969 12 31 = some n ∧
      (next^[n.toNat] unixEpoch = x ∨ next^[(-n).toNat] x = unixEpoch) := by
  obtain ⟨n, hn, hcount, -⟩ := daysFromCivil_counts_days ⟨1969, 12, 31, by decide, by decide⟩
    ⟨by decide, by decide⟩
  exact ⟨n, hn, hcount⟩

end CivilDate
end Palimpsest.Postgres
