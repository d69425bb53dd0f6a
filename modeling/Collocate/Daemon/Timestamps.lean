import Collocate.Daemon.PebbleLogs
import Collocate.Lib.Calendar
import Mathlib.Algebra.Order.Floor.Ring
import Mathlib.Data.Rat.Floor
import Mathlib.Tactic.IntervalCases
import Mathlib.Tactic.Ring

/-! # Timestamps of Pebble's logs (`collocate-pebble/src/time.rs`)

The number of a day against the Gregorian calendar, and the nanoseconds of a timestamp against its instant. -/
namespace Collocate.Daemon
set_option autoImplicit false
open Calendar

/-! ## Days -/

/-- The code's number of a date. -/
def dayOf (d : Date) : Int64 := daysFromCivil (.ofInt d.year) (.ofInt d.month) (.ofInt d.day)

/-- Every month starts as many days into the year as the months before it last. -/
theorem monthStart_eq (y : ℤ) {m : ℕ} (hpos : 1 ≤ m) (hle : m ≤ 12) :
    (monthStart y m : ℤ) = (153 * (((m : ℤ) + 9) % 12) + 2) / 5 +
      if m ≤ 2 then -306 else if IsLeap y then 60 else 59 := by
  by_cases hearly : m ≤ 2
  · rw [if_pos hearly]
    have hcases : m = 1 ∨ m = 2 := by omega
    cases hcases with
    | inl h =>
      subst h
      rfl
    | inr h =>
      subst h
      rfl
  · rw [if_neg hearly]
    by_cases hleap : IsLeap y
    · interval_cases m <;> simp [monthStart, monthLength, hleap] at hearly ⊢
    · interval_cases m <;> simp [monthStart, monthLength, hleap] at hearly ⊢

/-- The year that begins in March. -/
def marchYear (d : Date) : ℤ := if d.month ≤ 2 then d.year - 1 else d.year

/-- Counted in eras of 400 years, from March on, a date has its number. -/
theorem number_eq (d : Date) :
    d.number = marchYear d / 400 * 146097 + ((marchYear d % 400) * 365 + marchYear d % 400 / 4 -
      marchYear d % 400 / 100 + ((153 * (((d.month : ℤ) + 9) % 12) + 2) / 5 + d.day - 1)) - 719468 := by
  have hmonth := monthStart_eq d.year d.month_pos d.month_le
  unfold Date.number marchYear yearStart
  rw [hmonth]
  by_cases hearly : d.month ≤ 2
  · rw [if_pos hearly, if_pos hearly]
    omega
  · rw [if_neg hearly, if_neg hearly]
    by_cases hleap : IsLeap d.year
    · rw [if_pos hleap]
      unfold IsLeap at hleap
      omega
    · rw [if_neg hleap]
      unfold IsLeap at hleap
      omega

/-- The integers whose sums and quotients with small numbers an `i64` holds. -/
def Small (n : ℤ) : Prop := -2 ^ 62 ≤ n ∧ n ≤ 2 ^ 62

theorem ofInt_le {a b : ℤ} (ha : Small a) (hb : Small b) : Int64.ofInt a ≤ Int64.ofInt b ↔ a ≤ b := by
  obtain ⟨halow, hahigh⟩ := ha
  obtain ⟨hblow, hbhigh⟩ := hb
  rw [Int64.le_iff_toInt_le, Int64.toInt_ofInt_of_le (by omega) (by omega),
    Int64.toInt_ofInt_of_le (by omega) (by omega)]

theorem i64_bounds {a : ℤ} (hlow : -2 ^ 63 ≤ a) (hhigh : a < 2 ^ 63) :
    Int64.minValue.toInt ≤ a ∧ a ≤ Int64.maxValue.toInt := by
  constructor
  · show -2 ^ 63 ≤ a
    exact hlow
  · show a ≤ 2 ^ 63 - 1
    omega

theorem ofInt_div {a : ℤ} (ha : 0 ≤ a) (hbound : a ≤ 2 ^ 62) {b : ℤ} (hb : 0 < b) (hsmall : b ≤ 2 ^ 62) :
    Int64.ofInt a / Int64.ofInt b = Int64.ofInt (a / b) := by
  obtain ⟨halow, hahigh⟩ := @i64_bounds a (by omega) (by omega)
  obtain ⟨hblow, hbhigh⟩ := @i64_bounds b (by omega) (by omega)
  rw [← Int.tdiv_eq_ediv_of_nonneg ha]
  exact (Int64.ofInt_tdiv halow hahigh hblow hbhigh).symm

theorem ofInt_mod {a : ℤ} (ha : 0 ≤ a) (hbound : a ≤ 2 ^ 62) {b : ℤ} (hb : 0 < b) (hsmall : b ≤ 2 ^ 62) :
    Int64.ofInt a % Int64.ofInt b = Int64.ofInt (a % b) := by
  obtain ⟨halow, hahigh⟩ := @i64_bounds a (by omega) (by omega)
  obtain ⟨hblow, hbhigh⟩ := @i64_bounds b (by omega) (by omega)
  rw [← Int.tmod_eq_emod_of_nonneg ha]
  exact (Int64.ofInt_tmod halow hahigh hblow hbhigh).symm

/-- The quotient that rounds down, before the first year too. -/
theorem era_eq {y : ℤ} (hy : Small y) :
    (if 0 ≤ Int64.ofInt y then Int64.ofInt y else Int64.ofInt y - 399) / 400 = Int64.ofInt (y / 400) := by
  have hsign : (0 ≤ Int64.ofInt y) ↔ 0 ≤ y := @ofInt_le 0 y ⟨by decide, by decide⟩ hy
  have hera : (400 : Int64) = Int64.ofInt 400 := rfl
  obtain ⟨hlow, hhigh⟩ := hy
  rw [hera]
  by_cases hpos : 0 ≤ y
  · rw [if_pos (hsign.mpr hpos)]
    exact ofInt_div hpos hhigh (by decide) (by decide)
  · have hfloor : (y - 399).tdiv 400 = y / 400 := by
      have hneg : y - 399 = -(399 - y) := by omega
      rw [hneg, Int.neg_tdiv, Int.tdiv_eq_ediv_of_nonneg (by omega)]
      omega
    have hsub : Int64.ofInt y - 399 = Int64.ofInt (y - 399) := (Int64.ofInt_sub y 399).symm
    obtain ⟨hylow, hyhigh⟩ := @i64_bounds (y - 399) (by omega) (by omega)
    rw [if_neg (fun h => hpos (hsign.mp h)), ← hfloor, hsub]
    exact (Int64.ofInt_tdiv hylow hyhigh (by decide) (by decide)).symm

theorem daysFromCivil_eq {y m d year era : Int64} (hyear : (if m ≤ 2 then y - 1 else y) = year)
    (hera : (if 0 ≤ year then year else year - 399) / 400 = era) :
    daysFromCivil y m d = era * 146097 + ((year - era * 400) * 365 + (year - era * 400) / 4 - (year - era * 400) / 100 +
      ((153 * ((m + 9) % 12) + 2) / 5 + d - 1)) - 719468 := by
  subst hyear hera
  rfl

/-- As long as the year is not near the ends of an `i64`, the number is that of the calendar, up to wrapping. -/
theorem dayOf_eq {d : Date} (hlow : -2 ^ 62 < d.year) (hhigh : d.year ≤ 2 ^ 62) : dayOf d = Int64.ofInt d.number := by
  have hpos := d.month_pos
  have hle := d.month_le
  have hearly : Int64.ofInt d.month ≤ 2 ↔ (d.month : ℤ) ≤ 2 :=
    @ofInt_le d.month 2 ⟨by omega, by omega⟩ ⟨by decide, by decide⟩
  have hmarch : (if Int64.ofInt d.month ≤ 2 then Int64.ofInt d.year - 1 else Int64.ofInt d.year) =
      Int64.ofInt (marchYear d) := by
    unfold marchYear
    by_cases hm : d.month ≤ 2
    · rw [if_pos (hearly.mpr (by omega)), if_pos hm]
      exact (Int64.ofInt_sub d.year 1).symm
    · have hlate : ¬(d.month : ℤ) ≤ 2 := by omega
      rw [if_neg (fun h => hlate (hearly.mp h)), if_neg hm]
  have hsmall : Small (marchYear d) := by
    unfold marchYear Small
    split
    · omega
    · omega
  have hyoe : Int64.ofInt (marchYear d) - Int64.ofInt (marchYear d / 400) * 400 = Int64.ofInt (marchYear d % 400) := by
    have hmod : marchYear d % 400 = marchYear d - marchYear d / 400 * 400 := by omega
    rw [hmod, Int64.ofInt_sub, Int64.ofInt_mul]
    rfl
  have hfour : Int64.ofInt (marchYear d % 400) / 4 = Int64.ofInt (marchYear d % 400 / 4) :=
    @ofInt_div _ (by omega) (by omega) 4 (by decide) (by decide)
  have hhundred : Int64.ofInt (marchYear d % 400) / 100 = Int64.ofInt (marchYear d % 400 / 100) :=
    @ofInt_div _ (by omega) (by omega) 100 (by decide) (by decide)
  have hmp : (Int64.ofInt d.month + 9) % 12 = Int64.ofInt (((d.month : ℤ) + 9) % 12) := by
    have hsum : Int64.ofInt d.month + 9 = Int64.ofInt (d.month + 9) := (Int64.ofInt_add d.month 9).symm
    rw [hsum]
    exact @ofInt_mod _ (by omega) (by omega) 12 (by decide) (by decide)
  have hdays : (153 * Int64.ofInt (((d.month : ℤ) + 9) % 12) + 2) / 5 =
      Int64.ofInt ((153 * (((d.month : ℤ) + 9) % 12) + 2) / 5) := by
    have hsum : 153 * Int64.ofInt (((d.month : ℤ) + 9) % 12) + 2 =
        Int64.ofInt (153 * (((d.month : ℤ) + 9) % 12) + 2) := by
      rw [Int64.ofInt_add, Int64.ofInt_mul]
      rfl
    rw [hsum]
    exact @ofInt_div _ (by omega) (by omega) 5 (by decide) (by decide)
  unfold dayOf
  rw [daysFromCivil_eq hmarch (era_eq hsmall), hyoe, hfour, hhundred, hmp, hdays, number_eq]
  simp only [Int64.ofInt_add, Int64.ofInt_sub, Int64.ofInt_mul]
  rfl

/-- Days whose numbers an `i64` holds have them. -/
theorem dayOf_toInt {d : Date} (hlow : -2 ^ 63 ≤ d.number) (hhigh : d.number < 2 ^ 63) :
    (dayOf d).toInt = d.number := by
  have hyear : -2 ^ 62 < d.year ∧ d.year ≤ 2 ^ 62 := by
    have hmonth := monthStart_eq d.year d.month_pos d.month_le
    have hday := Nat.le_trans d.day_le (monthLength_le d.year d.month)
    have hpos := d.day_pos
    have hstart : 0 ≤ (monthStart d.year d.month : ℤ) ∧ (monthStart d.year d.month : ℤ) ≤ 400 := by
      constructor
      · exact Int.natCast_nonneg _
      · rw [hmonth]
        split
        · omega
        · split
          · omega
          · omega
    unfold Date.number yearStart at hlow hhigh
    omega
  rw [dayOf_eq hyear.1 hyear.2]
  exact Int64.toInt_ofInt_of_le hlow hhigh

theorem dayOf_next {d : Date} (hlow : -2 ^ 63 ≤ d.number) (hhigh : d.next.number < 2 ^ 63) :
    (dayOf d.next).toInt = (dayOf d).toInt + 1 := by
  have hnext := number_next d
  rw [dayOf_toInt (by omega) hhigh, dayOf_toInt hlow (by omega), hnext]

/-- The last day whose number an `i64` holds. -/
def lastDay : Date := ⟨25252734927768524, 7, 27, by decide, by decide, by decide, by decide⟩

/-- The day after it has the least of all numbers. -/
theorem days_wrap : ¬∀ d : Date, -2 ^ 63 ≤ d.year → d.next.year < 2 ^ 63 →
    (dayOf d.next).toInt = (dayOf d).toInt + 1 := by
  intro h
  exact absurd (h lastDay (by decide +kernel) (by decide +kernel)) (by decide +kernel)

/-! ## Timestamps -/

inductive Zone
  | zulu
  | lowerZulu
  | east (hours : Fin 24) (minutes : Fin 60)
  | west (hours : Fin 24) (minutes : Fin 60)

structure Timestamp where
  date : Date
  year_nonneg : 0 ≤ date.year
  year_le : date.year ≤ 9999
  hour : Fin 24
  minute : Fin 60
  second : Fin 60
  fraction : List (Fin 10)
  zone : Zone

/-! ### Text -/

def digitChar (d : Fin 10) : Char := Nat.digitChar d.val

def digitsText (ds : List (Fin 10)) : List Char := ds.map digitChar

/-- The last digits of a number. -/
def lastDigits : ℕ → ℕ → List (Fin 10)
  | 0, _ => []
  | w + 1, n => lastDigits w (n / 10) ++ [Fin.ofNat 10 n]

def number (w n : ℕ) : String := String.ofList (digitsText (lastDigits w n))

def Zone.text : Zone → String
  | .zulu => "Z"
  | .lowerZulu => "z"
  | .east hours minutes => "+" ++ Text.joinWith ":" [number 2 hours, number 2 minutes]
  | .west hours minutes => "-" ++ Text.joinWith ":" [number 2 hours, number 2 minutes]

def fractionText : List (Fin 10) → String
  | [] => ""
  | ds => "." ++ String.ofList (digitsText ds)

namespace Timestamp

def dateText (t : Timestamp) : String :=
  Text.joinWith "-" [number 4 t.date.year.toNat, number 2 t.date.month, number 2 t.date.day]

def clockText (t : Timestamp) : String :=
  Text.joinWith ":" [number 2 t.hour, number 2 t.minute, number 2 t.second] ++ fractionText t.fraction

def text (t : Timestamp) : String := t.dateText ++ "T" ++ t.clockText ++ t.zone.text

end Timestamp

/-! ### Instants -/

def decimal : List (Fin 10) → ℕ
  | [] => 0
  | d :: ds => d * 10 ^ ds.length + decimal ds

/-- The seconds that local time is ahead. -/
def Zone.ahead : Zone → ℤ
  | .zulu => 0
  | .lowerZulu => 0
  | .east hours minutes => hours * 3600 + minutes * 60
  | .west hours minutes => -(hours * 3600 + minutes * 60)

/-- The whole seconds from the first of January 1970. -/
def Timestamp.seconds (t : Timestamp) : ℤ :=
  t.date.number * 86400 + t.hour * 3600 + t.minute * 60 + t.second - t.zone.ahead

/-- The seconds from the first of January 1970. -/
def Timestamp.instant (t : Timestamp) : ℚ := t.seconds + decimal t.fraction / 10 ^ t.fraction.length

/-! ### Digits -/

theorem digitVal_digitChar (d : Fin 10) : Text.digitVal (digitChar d) = some (d : ℕ) := by
  have hall : ∀ d : Fin 10, Text.digitVal (digitChar d) = some (d : ℕ) := by decide
  exact hall d

theorem not_mem_digitsText {c : Char} (hc : c.isDigit = false) (ds : List (Fin 10)) : c ∉ digitsText ds := by
  intro h
  obtain ⟨d, -, rfl⟩ := List.mem_map.mp h
  have hall : ∀ d : Fin 10, (digitChar d).isDigit = true := by decide
  exact absurd (hall d) (by rw [hc]; decide)

theorem digits_digitsText (ds : List (Fin 10)) (n : ℕ) :
    Text.digits (digitsText ds) n = some (n * 10 ^ ds.length + decimal ds) := by
  induction ds generalizing n with
  | nil => simp [digitsText, Text.digits, decimal]
  | cons d ds ih =>
    rw [digitsText, List.map_cons, ← digitsText]
    simp only [Text.digits, digitVal_digitChar]
    rw [ih, decimal, List.length_cons]
    congr 1
    ring

theorem decimal_append (a b : List (Fin 10)) : decimal (a ++ b) = decimal a * 10 ^ b.length + decimal b := by
  induction a with
  | nil => simp [decimal]
  | cons d a ih =>
    rw [List.cons_append, decimal, decimal, ih, List.length_append]
    ring

theorem length_lastDigits (w n : ℕ) : (lastDigits w n).length = w := by
  induction w generalizing n with
  | zero => rfl
  | succ w ih => rw [lastDigits, List.length_append, ih, List.length_singleton]

theorem decimal_lastDigits (w n : ℕ) : decimal (lastDigits w n) = n % 10 ^ w := by
  induction w generalizing n with
  | zero => simp [lastDigits, decimal, Nat.mod_one]
  | succ w ih =>
    have hlast : decimal [Fin.ofNat 10 n] = n % 10 := by simp [decimal]
    rw [lastDigits, decimal_append, ih, hlast, List.length_singleton, Nat.pow_succ 10 w, Nat.mul_comm (10 ^ w) 10,
      Nat.mod_mul]
    ring

/-- Digits are read as their number. -/
theorem parseI64_digits {ds : List (Fin 10)} (hne : ds ≠ []) (hlt : decimal ds < 2 ^ 63) :
    parseI64 (String.ofList (digitsText ds)) = some (Int64.ofNat (decimal ds)) := by
  have hparse : Text.parseDigits (2 ^ 63) (digitsText ds) = some (decimal ds) := by
    unfold Text.parseDigits
    rw [digits_digitsText, if_neg]
    · rw [Nat.zero_mul, Nat.zero_add]
      exact Option.filter_eq_some_iff.mpr ⟨rfl, decide_eq_true hlt⟩
    · simpa [digitsText] using hne
  unfold parseI64
  rw [String.toList_ofList]
  split
  · rename_i cs heq
    exact absurd (heq ▸ List.mem_cons_self) (@not_mem_digitsText '+' (by decide) ds)
  · rename_i cs heq
    exact absurd (heq ▸ List.mem_cons_self) (@not_mem_digitsText '-' (by decide) ds)
  · rw [hparse]
    rfl

theorem parseI64_number {w n : ℕ} (hw : 0 < w) (hn : n < 10 ^ w) (hlt : n < 2 ^ 63) :
    parseI64 (number w n) = some (Int64.ofNat n) := by
  have hvalue : decimal (lastDigits w n) = n := by
    rw [decimal_lastDigits, Nat.mod_eq_of_lt hn]
  have hne : lastDigits w n ≠ [] := by
    intro h
    have hlen := length_lastDigits w n
    rw [h] at hlen
    exact absurd hlen (Nat.ne_of_lt hw)
  rw [number, parseI64_digits hne (by rw [hvalue]; exact hlt), hvalue]

/-! ### Pieces -/

theorem not_mem_number {c : Char} (hc : c.isDigit = false) (w n : ℕ) : c ∉ (number w n).toList := by
  unfold number
  rw [String.toList_ofList]
  exact not_mem_digitsText hc _

theorem not_mem_joined {c : Char} (hc : c.isDigit = false) {sep : String} (hsep : c ∉ sep.toList)
    (parts : List (ℕ × ℕ)) : c ∉ (Text.joinWith sep (parts.map fun p => number p.1 p.2)).toList := by
  apply Text.joinWith_not_mem hsep
  intro p hp
  obtain ⟨q, -, rfl⟩ := List.mem_map.mp hp
  exact not_mem_number hc q.1 q.2

/-- Three numbers of few digits are read back. -/
theorem threeI64_joined {c : Char} (hc : c.isDigit = false) {sep : String} (hsep : sep.toList = [c]) {w x y z : ℕ}
    (hw : 0 < w) (hw' : w ≤ 4) (hx : x < 10 ^ w) (hy : y < 100) (hz : z < 100) :
    threeI64 c (Text.joinWith sep [number w x, number 2 y, number 2 z]) =
      some (Int64.ofNat x, Int64.ofNat y, Int64.ofNat z) := by
  have hsplit : Text.split c (Text.joinWith sep [number w x, number 2 y, number 2 z]) =
      [number w x, number 2 y, number 2 z] := by
    refine Text.split_joinWith hsep ?_ (List.cons_ne_nil _ _)
    intro p hp
    have hnumber : ∃ v n, p = number v n := by
      simp only [List.mem_cons, List.not_mem_nil, or_false] at hp
      rcases hp with rfl | rfl | rfl
      · exact ⟨w, x, rfl⟩
      · exact ⟨2, y, rfl⟩
      · exact ⟨2, z, rfl⟩
    obtain ⟨v, n, rfl⟩ := hnumber
    exact not_mem_number hc v n
  have hwide : 10 ^ w ≤ 10 ^ 4 := Nat.pow_le_pow_right (by decide) hw'
  unfold threeI64
  rw [hsplit]
  dsimp only
  rw [parseI64_number hw hx (by omega), parseI64_number (by decide) hy (by omega),
    parseI64_number (by decide) hz (by omega)]
  rfl

theorem decimal_lt (ds : List (Fin 10)) : decimal ds < 10 ^ ds.length := by
  induction ds with
  | nil => decide
  | cons d ds ih =>
    have hd : (d : ℕ) + 1 ≤ 10 := d.isLt
    have hfirst : ((d : ℕ) + 1) * 10 ^ ds.length ≤ 10 * 10 ^ ds.length := Nat.mul_le_mul_right _ hd
    rw [decimal, List.length_cons, Nat.pow_succ]
    linarith

/-- The first digits of a fraction, in units of the last place that counts. -/
theorem fractionNanos_digits (ds : List (Fin 10)) (left : ℕ) :
    fractionNanos (digitsText ds) left = some (Int64.ofNat (decimal ds * 10 ^ left / 10 ^ ds.length)) := by
  induction ds generalizing left with
  | nil => simp [digitsText, fractionNanos, decimal]
  | cons d ds ih =>
    cases left with
    | zero =>
      have hzero : decimal (d :: ds) * 10 ^ 0 / 10 ^ (d :: ds).length = 0 := by
        rw [Nat.pow_zero, Nat.mul_one]
        exact Nat.div_eq_of_lt (decimal_lt _)
      rw [hzero]
      rfl
    | succ left =>
      have hvalue : decimal (d :: ds) * 10 ^ (left + 1) / 10 ^ (d :: ds).length =
          d * 10 ^ left + decimal ds * 10 ^ left / 10 ^ ds.length := by
        have hpos : 0 < 10 ^ ds.length := Nat.pow_pos (by decide)
        have hscaled : decimal (d :: ds) * 10 ^ (left + 1) =
            (decimal ds * 10 ^ left + (d * 10 ^ left) * 10 ^ ds.length) * 10 := by
          rw [decimal]
          ring
        rw [hscaled, List.length_cons, Nat.pow_succ, Nat.mul_div_mul_right _ _ (by decide : 0 < 10),
          Nat.add_mul_div_right _ _ hpos, Nat.add_comm]
      show (Text.digitVal (digitChar d)).bind (fun digit => (fractionNanos (digitsText ds) left).bind fun rest =>
        some (Int64.ofNat (digit * 10 ^ left) + rest)) = _
      rw [digitVal_digitChar, ih, hvalue, Int64.ofNat_add]
      rfl

/-- Hours and minutes are read as seconds, whatever their sign makes of these. -/
theorem zoneSecs_signed {sign : Char} (hsign : sign ≠ 'Z' ∧ sign ≠ 'z') (h : Fin 24) (m : Fin 60) :
    zoneSecs (sign :: (Text.joinWith ":" [number 2 h, number 2 m]).toList) =
      some (if sign = '-' then -Int64.ofInt (h * 3600 + m * 60) else Int64.ofInt (h * 3600 + m * 60)) := by
  have hcut : Text.splitOnce ':' (Text.joinWith ":" [number 2 h, number 2 m]) = some (number 2 h, number 2 m) := by
    refine Text.splitOnce_eq_some.mpr ⟨?_, not_mem_number (by decide) 2 h⟩
    simp [Text.joinWith]
  have hhour := h.isLt
  have hminute := m.isLt
  unfold zoneSecs
  split
  · rename_i heq
    cases heq
  · rename_i heq
    exact absurd (List.cons.inj heq).1 hsign.1
  · rename_i heq
    exact absurd (List.cons.inj heq).1 hsign.2
  · rename_i heq
    obtain ⟨rfl, rfl⟩ := List.cons.inj heq
    rw [String.ofList_toList, hcut]
    simp only [Option.bind_eq_bind, Option.bind_some]
    rw [parseI64_number (by decide) (by omega) (by omega), parseI64_number (by decide) (by omega) (by omega),
      Int64.ofInt_add, Int64.ofInt_mul, Int64.ofInt_mul, Int64.ofInt_eq_ofNat, Int64.ofInt_eq_ofNat]
    rfl

theorem zoneSecs_text (z : Zone) : zoneSecs z.text.toList = some (Int64.ofInt z.ahead) := by
  cases z with
  | zulu => rfl
  | lowerZulu => rfl
  | east hours minutes =>
    rw [Zone.text, String.toList_append]
    exact zoneSecs_signed (by decide) hours minutes
  | west hours minutes =>
    rw [Zone.text, String.toList_append, Zone.ahead, Int64.ofInt_neg]
    exact zoneSecs_signed (by decide) hours minutes

/-! ### Reading -/

theorem not_mem_clockText {c : Char} (hc : c.isDigit = false) (hcolon : c ≠ ':') (hdot : c ≠ '.') (t : Timestamp) :
    c ∉ t.clockText.toList := by
  have hhms := @not_mem_joined c hc ":" (by simpa using hcolon) [(2, t.hour), (2, t.minute), (2, t.second)]
  have hfraction : c ∉ (fractionText t.fraction).toList := by
    cases t.fraction with
    | nil => exact List.not_mem_nil
    | cons d ds =>
      have hdigits : c ∉ (String.ofList (digitsText (d :: ds))).toList := by
        rw [String.toList_ofList]
        exact not_mem_digitsText hc _
      rw [fractionText, String.toList_append, List.mem_append]
      · exact not_or.mpr ⟨by simpa using hdot, hdigits⟩
      · exact List.cons_ne_nil _ _
  unfold Timestamp.clockText
  rw [String.toList_append, List.mem_append]
  exact not_or.mpr ⟨hhms, hfraction⟩

/-- A zone begins with one of four characters. -/
theorem zone_begins (z : Zone) : ∃ c cs, z.text.toList = c :: cs ∧ ['Z', 'z', '+', '-'].contains c = true := by
  cases z with
  | zulu => exact ⟨'Z', [], rfl, rfl⟩
  | lowerZulu => exact ⟨'z', [], rfl, rfl⟩
  | east hours minutes =>
    refine ⟨'+', (Text.joinWith ":" [number 2 hours, number 2 minutes]).toList, ?_, rfl⟩
    rw [Zone.text, String.toList_append]
    rfl
  | west hours minutes =>
    refine ⟨'-', (Text.joinWith ":" [number 2 hours, number 2 minutes]).toList, ?_, rfl⟩
    rw [Zone.text, String.toList_append]
    rfl

theorem clock_until_zone (t : Timestamp) :
    (t.clockText ++ t.zone.text).toList.takeWhile (fun c => !(['Z', 'z', '+', '-'].contains c)) = t.clockText.toList ∧
      (t.clockText ++ t.zone.text).toList.dropWhile (fun c => !(['Z', 'z', '+', '-'].contains c)) =
        t.zone.text.toList := by
  have hclock : ∀ c ∈ t.clockText.toList, (!(['Z', 'z', '+', '-'].contains c)) = true := by
    intro c hc
    rw [Bool.not_eq_true', List.contains_eq_mem, decide_eq_false_iff_not]
    intro hstop
    simp only [List.mem_cons, List.not_mem_nil, or_false] at hstop
    rcases hstop with rfl | rfl | rfl | rfl
    all_goals exact absurd hc (not_mem_clockText (by decide) (by decide) (by decide) t)
  obtain ⟨c, cs, hzone, hstop⟩ := zone_begins t.zone
  have hend : ¬(!(['Z', 'z', '+', '-'].contains c)) = true := by
    rw [hstop]
    decide
  rw [String.toList_append, hzone, List.takeWhile_append_of_pos hclock, List.dropWhile_append_of_pos hclock,
    List.takeWhile_cons, if_neg hend, List.dropWhile_cons, if_neg hend]
  exact ⟨List.append_nil _, rfl⟩

/-- The clock is cut at the dot, if there is one. -/
theorem clock_cut (t : Timestamp) :
    (Text.splitOnce '.' t.clockText).getD (t.clockText, "") =
      (Text.joinWith ":" [number 2 t.hour, number 2 t.minute, number 2 t.second],
        String.ofList (digitsText t.fraction)) := by
  have hhms := @not_mem_joined '.' (by decide) ":" (by decide) [(2, t.hour), (2, t.minute), (2, t.second)]
  unfold Timestamp.clockText
  cases t.fraction with
  | nil =>
    have hnone : Text.splitOnce '.'
        (Text.joinWith ":" [number 2 t.hour, number 2 t.minute, number 2 t.second] ++ fractionText []) = none := by
      rw [Text.splitOnce_eq_none, fractionText, String.append_empty]
      exact hhms
    rw [hnone, fractionText, String.append_empty]
    rfl
  | cons d ds =>
    have hsome : Text.splitOnce '.' (Text.joinWith ":" [number 2 t.hour, number 2 t.minute, number 2 t.second] ++
        fractionText (d :: ds)) = some (Text.joinWith ":" [number 2 t.hour, number 2 t.minute, number 2 t.second],
          String.ofList (digitsText (d :: ds))) := by
      refine Text.splitOnce_eq_some.mpr ⟨?_, hhms⟩
      rw [fractionText, String.toList_append, String.toList_append]
      · rfl
      · exact List.cons_ne_nil _ _
    rw [hsome]
    rfl

/-- The whole nanoseconds from the first of January 1970. -/
def Timestamp.nanos (t : Timestamp) : ℤ :=
  t.seconds * 1000000000 + (decimal t.fraction * 10 ^ 9 / 10 ^ t.fraction.length : ℕ)

theorem text_cut (t : Timestamp) : Text.splitOnce 'T' t.text = some (t.dateText, t.clockText ++ t.zone.text) := by
  refine Text.splitOnce_eq_some.mpr
    ⟨?_, not_mem_joined (by decide) (by decide) [(4, t.date.year.toNat), (2, t.date.month), (2, t.date.day)]⟩
  unfold Timestamp.text
  simp [String.toList_append]

/-- The text is read as the nanoseconds, wrapped. -/
theorem rfc3339Nanos_text (t : Timestamp) :
    rfc3339Nanos t.text = if Int64.ofInt t.nanos < 0 then none else some (Int64.ofInt t.nanos).toUInt64 := by
  have hyear := t.year_le
  have hpos := t.year_nonneg
  have hmonth := t.date.month_le
  have hday := Nat.le_trans t.date.day_le (monthLength_le t.date.year t.date.month)
  have hhour := t.hour.isLt
  have hminute := t.minute.isLt
  have hsecond := t.second.isLt
  obtain ⟨htake, hdrop⟩ := clock_until_zone t
  have hdate : threeI64 '-' t.dateText =
      some (Int64.ofNat t.date.year.toNat, Int64.ofNat t.date.month, Int64.ofNat t.date.day) :=
    threeI64_joined (by decide) rfl (by decide) (by decide) (by omega) (by omega) (by omega)
  have hhms : threeI64 ':' (Text.joinWith ":" [number 2 t.hour, number 2 t.minute, number 2 t.second]) =
      some (Int64.ofNat t.hour, Int64.ofNat t.minute, Int64.ofNat t.second) :=
    threeI64_joined (by decide) rfl (by decide) (by decide) (by omega) (by omega) (by omega)
  have hdays : daysFromCivil (Int64.ofNat t.date.year.toNat) (Int64.ofNat t.date.month) (Int64.ofNat t.date.day) =
      Int64.ofInt t.date.number := by
    rw [← dayOf_eq (by omega) (by omega), dayOf, Int64.ofInt_eq_ofNat, Int64.ofInt_eq_ofNat, ← Int64.ofInt_eq_ofNat,
      Int.toNat_of_nonneg hpos]
  have hall : (Int64.ofInt t.date.number * 86400 + Int64.ofNat t.hour * 3600 + Int64.ofNat t.minute * 60 +
      Int64.ofNat t.second - Int64.ofInt t.zone.ahead) * 1000000000 +
        Int64.ofNat (decimal t.fraction * 10 ^ 9 / 10 ^ t.fraction.length) = Int64.ofInt t.nanos := by
    unfold Timestamp.nanos Timestamp.seconds
    simp only [Int64.ofInt_add, Int64.ofInt_sub, Int64.ofInt_mul, Int64.ofInt_eq_ofNat]
    rfl
  obtain ⟨c, cs, hzone, -⟩ := zone_begins t.zone
  have hnonempty : t.zone.text.toList.isEmpty = false := by
    rw [hzone]
    rfl
  unfold rfc3339Nanos
  rw [text_cut]
  simp only [Option.bind_eq_bind, Option.bind_some]
  rw [hdate]
  simp only [Option.bind_some, htake, hdrop, hnonempty, Bool.false_eq_true, if_false, String.ofList_toList]
  rw [clock_cut]
  dsimp only
  rw [hhms, Option.bind_some, String.toList_ofList, fractionNanos_digits, Option.bind_some, zoneSecs_text,
    Option.bind_some, hdays]
  dsimp only
  rw [hall]
  rfl

/-! ### Exactness -/

/-- From the start of 1970 to the start of 2262. -/
def InRange (t : Timestamp) : Prop :=
  ((newYear 1970).number * 86400 : ℤ) ≤ t.instant ∧ t.instant ≤ ((newYear 2262).number * 86400 : ℤ)

theorem floor_instant (t : Timestamp) : ⌊t.instant * 10 ^ 9⌋ = t.nanos := by
  have hscaled : t.instant * 10 ^ 9 =
      ((t.seconds * 1000000000 : ℤ) : ℚ) + ((decimal t.fraction * 10 ^ 9 : ℕ) : ℤ) /
        ((10 ^ t.fraction.length : ℕ) : ℚ) := by
    unfold Timestamp.instant
    push_cast
    ring
  rw [hscaled, Int.floor_intCast_add, Rat.floor_intCast_div_natCast]
  rfl

/-- Timestamps of this range have their nanoseconds, without any digit after the ninth. -/
theorem rfc3339Nanos_exact {t : Timestamp} (h : InRange t) :
    ∃ n, rfc3339Nanos t.text = some n ∧ (n.toNat : ℤ) = ⌊t.instant * 10 ^ 9⌋ := by
  obtain ⟨hlow, hhigh⟩ := h
  have hstart : ((newYear 1970).number * 86400 : ℤ) = 0 := by decide
  have hend : ((newYear 2262).number * 86400 : ℤ) = 9214646400 := by decide
  rw [hstart] at hlow
  rw [hend] at hhigh
  rw [floor_instant]
  have hpos : 0 ≤ t.nanos := by
    rw [← floor_instant]
    apply Int.floor_nonneg.mpr
    push_cast at hlow
    positivity
  have hbound : t.nanos < 2 ^ 63 := by
    have hfloor : (t.nanos : ℚ) ≤ t.instant * 10 ^ 9 := by
      rw [← floor_instant]
      exact Int.floor_le _
    have hmost : (t.nanos : ℚ) ≤ ((9214646400 * 10 ^ 9 : ℤ) : ℚ) := by
      push_cast at hhigh ⊢
      linarith
    have hint : t.nanos ≤ 9214646400 * 10 ^ 9 := Int.cast_le.mp hmost
    omega
  have hsign : ¬Int64.ofInt t.nanos < 0 := by
    rw [Int64.lt_iff_toInt_lt, Int64.toInt_ofInt_of_le (by omega) hbound]
    exact Int.not_lt.mpr hpos
  obtain ⟨k, hk⟩ := Int.eq_ofNat_of_zero_le hpos
  refine ⟨UInt64.ofNat k, ?_, ?_⟩
  · rw [rfc3339Nanos_text, if_neg hsign, hk, Int64.ofInt_eq_ofNat]
    rfl
  · have hword : k < 2 ^ 64 := by omega
    rw [hk, UInt64.toNat_ofNat_of_lt' hword]

/-- Two dates that follow each other have numbers that do, as far as an `i64` holds these, and the first day of 1970
has number 0. A timestamp from the start of 1970 to the start of 2262 is read as its nanoseconds, truncated to nine
digits of its fraction, so an earlier one is never read as a later one. -/
theorem timestamps_exact :
    (∀ d : Date, -2 ^ 63 ≤ d.number → d.next.number < 2 ^ 63 → (dayOf d.next).toInt = (dayOf d).toInt + 1) ∧
    dayOf (newYear 1970) = 0 ∧
    (∀ t : Timestamp, InRange t → ∃ n, rfc3339Nanos t.text = some n ∧ (n.toNat : ℤ) = ⌊t.instant * 10 ^ 9⌋) ∧
    ∀ t u : Timestamp, InRange t → InRange u → t.instant ≤ u.instant →
      ∃ m n, rfc3339Nanos t.text = some m ∧ rfc3339Nanos u.text = some n ∧ m ≤ n := by
  refine ⟨fun d hlow hhigh => dayOf_next hlow hhigh, by decide, fun t ht => rfc3339Nanos_exact ht, ?_⟩
  intro t u ht hu hle
  obtain ⟨m, hm, hmnanos⟩ := rfc3339Nanos_exact ht
  obtain ⟨n, hn, hnnanos⟩ := rfc3339Nanos_exact hu
  have hscaled : t.instant * 10 ^ 9 ≤ u.instant * 10 ^ 9 := mul_le_mul_of_nonneg_right hle (by positivity)
  have hnanos := Int.floor_le_floor hscaled
  rw [← hmnanos, ← hnnanos] at hnanos
  exact ⟨m, n, hm, hn, UInt64.le_iff_toNat_le.mpr (by omega)⟩

/-- A leap day, in a zone that is ahead. -/
def leapDay : Timestamp :=
  ⟨⟨2024, 2, 29, by decide, by decide, by decide, by decide⟩, by decide, by decide, 0, 30, 5,
    [1, 2, 3, 4, 5, 6, 7, 8, 9, 9], .east 1 30⟩

example : leapDay.text = "2024-02-29T00:30:05.1234567899+01:30" := by decide +kernel

theorem leapDay_read :
    (dayOf leapDay.date.next).toInt = (dayOf leapDay.date).toInt + 1 ∧
      ∃ n, rfc3339Nanos leapDay.text = some n ∧ (n.toNat : ℤ) = ⌊leapDay.instant * 10 ^ 9⌋ :=
  ⟨timestamps_exact.1 leapDay.date (by decide +kernel) (by decide +kernel),
    timestamps_exact.2.2.1 leapDay (by unfold InRange; decide +kernel)⟩

end Collocate.Daemon
