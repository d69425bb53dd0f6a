import Mathlib.Data.Int.Basic

/-! # The Gregorian calendar

Dates of every year, the day after one, and the days that lie between a date and the first of January 1970. -/
namespace Collocate.Calendar
set_option autoImplicit false

/-! ## Dates -/

/-- Every fourth year is a leap year, but of those that end a century only every fourth. -/
def IsLeap (y : ℤ) : Prop := y % 4 = 0 ∧ (y % 100 ≠ 0 ∨ y % 400 = 0)

instance (y : ℤ) : Decidable (IsLeap y) := inferInstanceAs (Decidable (_ ∧ _))

def monthLength (y : ℤ) : ℕ → ℕ
  | 2 => if IsLeap y then 29 else 28
  | 4 | 6 | 9 | 11 => 30
  | _ => 31

theorem monthLength_pos (y : ℤ) (m : ℕ) : 1 ≤ monthLength y m := by
  unfold monthLength
  split
  · split <;> decide
  all_goals decide

theorem monthLength_le (y : ℤ) (m : ℕ) : monthLength y m ≤ 31 := by
  unfold monthLength
  split
  · split <;> decide
  all_goals decide

structure Date where
  year : ℤ
  month : ℕ
  day : ℕ
  month_pos : 1 ≤ month
  month_le : month ≤ 12
  day_pos : 1 ≤ day
  day_le : day ≤ monthLength year month

def newYear (y : ℤ) : Date := ⟨y, 1, 1, Nat.le_refl _, by decide, Nat.le_refl _, monthLength_pos y 1⟩

/-- The day after. -/
def Date.next (d : Date) : Date :=
  if hday : d.day < monthLength d.year d.month then
    ⟨d.year, d.month, d.day + 1, d.month_pos, d.month_le, Nat.succ_pos _, hday⟩
  else if hmonth : d.month < 12 then
    ⟨d.year, d.month + 1, 1, Nat.succ_pos _, hmonth, Nat.le_refl _, monthLength_pos _ _⟩
  else newYear (d.year + 1)

/-! ## Days -/

/-- The days from the first day of 1970 to the first day of a year. -/
def yearStart (y : ℤ) : ℤ := 365 * (y - 1970) + (y - 1) / 4 - (y - 1) / 100 + (y - 1) / 400 - 477

/-- The days of a year before a month. -/
def monthStart (y : ℤ) : ℕ → ℕ
  | 0 => 0
  | 1 => 0
  | m + 2 => monthStart y (m + 1) + monthLength y (m + 1)

/-- The days from the first day of 1970. -/
def Date.number (d : Date) : ℤ := yearStart d.year + monthStart d.year d.month + d.day - 1

theorem yearStart_succ (y : ℤ) : yearStart (y + 1) = yearStart y + if IsLeap y then 366 else 365 := by
  unfold yearStart
  by_cases hleap : IsLeap y
  · rw [if_pos hleap]
    unfold IsLeap at hleap
    omega
  · rw [if_neg hleap]
    unfold IsLeap at hleap
    omega

theorem year_length (y : ℤ) :
    (monthStart y 12 + monthLength y 12 : ℤ) = if IsLeap y then 366 else 365 := by
  simp only [monthStart, monthLength]
  split <;> rfl

theorem number_newYear (y : ℤ) : (newYear y).number = yearStart y := by
  unfold Date.number newYear
  simp [monthStart]

/-- The day after has the next number. -/
theorem number_next (d : Date) : d.next.number = d.number + 1 := by
  obtain ⟨y, m, day, hpos, hle, hday, hlen⟩ := d
  unfold Date.next
  dsimp only
  split
  · unfold Date.number
    push_cast
    omega
  · rename_i hend
    have hlast : day = monthLength y m := by omega
    subst hlast
    split
    · obtain ⟨k, rfl⟩ := Nat.exists_eq_add_of_le' hpos
      unfold Date.number
      dsimp only
      rw [show monthStart y (k + 1 + 1) = monthStart y (k + 1) + monthLength y (k + 1) from rfl]
      push_cast
      omega
    · have hdecember : m = 12 := by omega
      subst hdecember
      have hyear := year_length y
      rw [number_newYear, yearStart_succ, ← hyear]
      unfold Date.number
      dsimp only
      omega

end Collocate.Calendar
