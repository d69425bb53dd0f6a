import Collocate.Core.Net

/-! # The grammars of sizes and durations (`collocate-core/src/size.rs`)

What `parse_size` and `parse_duration_secs` accept, as grammars of the trimmed text. The source works on bytes and
slices the text between them; read that way the parsers give the same results and never panic. -/
namespace Collocate
set_option autoImplicit false

/-! ## Numbers -/

namespace Text

theorem digits_eq_some {cs : List Char} {n m : ℕ} :
    digits cs n = some m ↔ (∀ c ∈ cs, c.isDigit) ∧ Nat.ofDigitChars 10 cs n = m := by
  constructor
  · intro h
    have hall : ∀ c ∈ cs, c.isDigit := by
      induction cs generalizing n with
      | nil => simp
      | cons c cs ih =>
        rw [digits, digitVal] at h
        by_cases hc : isDigit c = true
        · rw [if_pos hc] at h
          exact List.forall_mem_cons.mpr ⟨isDigit_eq c ▸ hc, ih h⟩
        · rw [if_neg hc] at h
          cases h
    rw [digits_eq_ofDigitChars hall] at h
    exact ⟨hall, Option.some.inj h⟩
  · intro h
    rw [digits_eq_ofDigitChars h.1, h.2]

/-- The text is a decimal number. -/
structure Decimal (cs : List Char) (n : ℕ) : Prop where
  some : cs ≠ []
  digits : ∀ c ∈ cs, c.isDigit
  value : Nat.ofDigitChars 10 cs 0 = n

theorem parseDigits_eq_some {bound n : ℕ} {cs : List Char} :
    parseDigits bound cs = some n ↔ Decimal cs n ∧ n < bound := by
  unfold parseDigits
  constructor
  · intro h
    split at h
    · cases h
    · rename_i hne
      obtain ⟨hdigits, hlt⟩ := Option.filter_eq_some_iff.mp h
      obtain ⟨hall, hvalue⟩ := digits_eq_some.mp hdigits
      exact ⟨⟨fun hnil => hne (by rw [hnil]; rfl), hall, hvalue⟩, of_decide_eq_true hlt⟩
  · intro h
    rw [if_neg fun hempty => h.1.some (List.isEmpty_iff.mp hempty)]
    exact Option.filter_eq_some_iff.mpr ⟨digits_eq_some.mpr ⟨h.1.digits, h.1.value⟩, decide_eq_true h.2⟩

end Text

/-! ## Grammars -/

/-- The letters of the units, in both cases, with the shift each stands for. -/
def sizeUnits : List (Char × Char × ℕ) := [('k', 'K', 10), ('m', 'M', 20), ('g', 'G', 30), ('t', 'T', 40)]

/-- A letter of a unit. -/
def UnitLetter (c : Char) (shift : ℕ) : Prop :=
  ∃ lower upper, (lower, upper, shift) ∈ sizeUnits ∧ (c = lower ∨ c = upper)

/-- The unit of a size: nothing, a letter, or a letter and `i`. -/
inductive SizeUnit : List Char → ℕ → Prop
  | none : SizeUnit [] 0
  | letter (c : Char) (shift : ℕ) (h : UnitLetter c shift) : SizeUnit [c] shift
  | binary (c i : Char) (shift : ℕ) (h : UnitLetter c shift) (hi : i = 'i' ∨ i = 'I') : SizeUnit [c, i] shift

/-- The end of a size: nothing, or `b`. -/
inductive ByteMark : List Char → Prop
  | none : ByteMark []
  | byte (b : Char) (h : b = 'b' ∨ b = 'B') : ByteMark [b]

/-- A size of `v` bytes: digits, a unit and the mark of bytes. -/
def SizeText (cs : List Char) (v : ℕ) : Prop :=
  ∃ ds unit mark n shift, cs = ds ++ unit ++ mark ∧ Text.Decimal ds n ∧ SizeUnit unit shift ∧ ByteMark mark ∧
    v = n * 2 ^ shift

theorem unitShift_eq_some {c : Char} {shift : ℕ} : unitShift c = some shift ↔ UnitLetter c shift := by
  unfold UnitLetter sizeUnits
  constructor
  · intro h
    unfold unitShift at h
    split at h <;> cases h <;> simp
  · rintro ⟨lower, upper, hmem, hc⟩
    simp only [List.mem_cons, Prod.mk.injEq, List.not_mem_nil, or_false] at hmem
    rcases hmem with ⟨rfl, rfl, rfl⟩ | ⟨rfl, rfl, rfl⟩ | ⟨rfl, rfl, rfl⟩ | ⟨rfl, rfl, rfl⟩ <;>
      rcases hc with rfl | rfl <;> rfl

/-! ## What the parser peels off -/

/-- What is no `b` is left. -/
theorem dropByte_spec (cs : List Char) : ∃ mark, ByteMark mark ∧ cs = mark ++ dropByte cs := by
  unfold dropByte
  split
  · exact ⟨['B'], .byte 'B' (.inr rfl), rfl⟩
  · exact ⟨['b'], .byte 'b' (.inl rfl), rfl⟩
  · exact ⟨[], .none, rfl⟩

theorem dropByte_of_ne {c : Char} {cs : List Char} (h : ¬(c = 'b' ∨ c = 'B')) : dropByte (c :: cs) = c :: cs := by
  unfold dropByte
  split
  · rename_i heq
    exact absurd (.inr (List.cons.inj heq).1) h
  · rename_i heq
    exact absurd (.inl (List.cons.inj heq).1) h
  · rfl

theorem dropByte_mark {mark : List Char} (hmark : ByteMark mark) {c : Char} (hc : ¬(c = 'b' ∨ c = 'B'))
    (cs : List Char) :
    dropByte (mark ++ c :: cs) = c :: cs := by
  cases hmark with
  | none => exact dropByte_of_ne hc
  | byte b h =>
    cases h with
    | inl h => rw [h]; rfl
    | inr h => rw [h]; rfl

theorem dropBinary_of_ne {c : Char} {cs : List Char} (h : ¬(c = 'i' ∨ c = 'I')) : dropBinary (c :: cs) = c :: cs := by
  unfold dropBinary
  split
  · rename_i heq
    cases heq
    rw [if_neg fun hand => h hand.1]
  · rfl

theorem dropBinary_unit {i c : Char} (hi : i = 'i' ∨ i = 'I') {shift : ℕ} (hc : UnitLetter c shift) (cs : List Char) :
    dropBinary (i :: c :: cs) = c :: cs := by
  have hunit : (unitShift c).isSome = true := by rw [unitShift_eq_some.mpr hc]; rfl
  exact if_pos ⟨hi, hunit⟩

theorem UnitLetter.plain {c : Char} {shift : ℕ} (h : UnitLetter c shift) :
    Text.isAlphabetic c = true ∧ ¬(c = 'b' ∨ c = 'B') ∧ ¬(c = 'i' ∨ c = 'I') := by
  obtain ⟨lower, upper, hmem, hc⟩ := h
  simp only [sizeUnits, List.mem_cons, Prod.mk.injEq, List.not_mem_nil, or_false] at hmem
  rcases hmem with ⟨rfl, rfl, -⟩ | ⟨rfl, rfl, -⟩ | ⟨rfl, rfl, -⟩ | ⟨rfl, rfl, -⟩ <;>
    rcases hc with rfl | rfl <;> decide

theorem digit_plain {c : Char} (h : c.isDigit) :
    Text.isAlphabetic c = false ∧ ¬(c = 'b' ∨ c = 'B') ∧ ¬(c = 'i' ∨ c = 'I') := by
  have hle : c.toNat ≤ 57 := by
    have hval : (48 : UInt32) ≤ c.val ∧ c.val ≤ 57 := by simpa [Char.isDigit] using h
    exact hval.2
  have hne (d : Char) (hd : 57 < d.toNat) : c ≠ d := fun heq => by
    rw [heq] at hle
    omega
  have halpha : Text.isAlphabetic c = false := by
    have hlower : ¬('a' ≤ c) := fun hac => by
      have : (97 : ℕ) ≤ c.toNat := hac
      omega
    have hupper : ¬('A' ≤ c) := fun hac => by
      have : (65 : ℕ) ≤ c.toNat := hac
      omega
    simp [Text.isAlphabetic, Text.isLower, Text.isUpper, hlower, hupper]
  exact ⟨halpha, fun hor => hor.elim (hne _ (by decide)) (hne _ (by decide)),
    fun hor => hor.elim (hne _ (by decide)) (hne _ (by decide))⟩

theorem sizeDigits_ok_iff {input : String} {shift : ℕ} {cs : List Char} {v : UInt64} :
    sizeDigits input shift cs = .ok v ↔ ∃ n, Text.Decimal cs n ∧ v.toNat = n * 2 ^ shift := by
  have hpow : 0 < 2 ^ shift := Nat.two_pow_pos shift
  unfold sizeDigits
  constructor
  · intro h
    split at h
    · cases h
    · rename_i n hn
      split at h <;> cases h
      rename_i hlt
      exact ⟨n, (Text.parseDigits_eq_some.mp hn).1, UInt64.toNat_ofNat_of_lt hlt⟩
  · rintro ⟨n, hdecimal, hv⟩
    have hlt : n * 2 ^ shift < 2 ^ 64 := hv ▸ v.toNat_lt
    have hn : n < 2 ^ 64 := (Nat.le_mul_of_pos_right n hpow).trans_lt hlt
    rw [Text.parseDigits_eq_some.mpr ⟨hdecimal, hn⟩]
    dsimp only
    rw [if_pos hlt, ← hv, UInt64.ofNat_toNat]

/-- What is left when the mark of bytes and the `i` are gone: digits, and perhaps a letter. -/
def Peeled (cs : List Char) (v : ℕ) : Prop :=
  (∃ ds n, cs = ds ∧ Text.Decimal ds n ∧ v = n) ∨
    ∃ ds c n shift, cs = ds ++ [c] ∧ Text.Decimal ds n ∧ UnitLetter c shift ∧ v = n * 2 ^ shift

/-- The last steps of `parse_size`, last character first. -/
def peeledSize (input : String) : List Char → Result UInt64
  | c :: cs =>
    if Text.isAlphabetic c then
      match unitShift c with
      | some shift => sizeDigits input shift cs.reverse
      | none => .error (.invalidSize input)
    else sizeDigits input 0 (c :: cs).reverse
  | [] => .error (.invalidSize input)

theorem peeledSize_ok_iff {input : String} {cs : List Char} {v : UInt64} :
    peeledSize input cs = .ok v ↔ Peeled cs.reverse v.toNat := by
  constructor
  · intro h
    cases cs with
    | nil => cases h
    | cons c cs =>
      rw [peeledSize] at h
      split at h
      · split at h
        · rename_i shift hshift
          obtain ⟨n, hdecimal, hv⟩ := sizeDigits_ok_iff.mp h
          exact .inr ⟨cs.reverse, c, n, shift, List.reverse_cons, hdecimal, unitShift_eq_some.mp hshift, hv⟩
        · cases h
      · obtain ⟨n, hdecimal, hv⟩ := sizeDigits_ok_iff.mp h
        exact .inl ⟨_, n, rfl, hdecimal, by rw [hv, pow_zero, Nat.mul_one]⟩
  · intro h
    cases h with
    | inl h =>
      obtain ⟨ds, n, hds, hdecimal, hv⟩ := h
      cases cs with
      | nil => exact absurd hds.symm hdecimal.some
      | cons c cs =>
        have hc : c.isDigit := hdecimal.digits c (hds ▸ List.mem_reverse.mpr List.mem_cons_self)
        rw [peeledSize, if_neg (by rw [(digit_plain hc).1]; exact Bool.false_ne_true)]
        exact sizeDigits_ok_iff.mpr ⟨n, hds ▸ hdecimal, by rw [hv, pow_zero, Nat.mul_one]⟩
    | inr h =>
      obtain ⟨ds, c, n, shift, hcs, hdecimal, hc, hv⟩ := h
      have hcs' : cs = c :: ds.reverse := by
        rw [← List.reverse_reverse cs, hcs, List.reverse_append, List.reverse_singleton, List.singleton_append]
      rw [hcs', peeledSize, if_pos hc.plain.1, unitShift_eq_some.mpr hc]
      exact sizeDigits_ok_iff.mpr ⟨n, by rwa [List.reverse_reverse], hv⟩

theorem ByteMark.reverse {mark : List Char} (h : ByteMark mark) : mark.reverse = mark := by
  cases h <;> rfl

/-- Taking the marks off the end leaves digits and perhaps a letter exactly when the whole is a size. -/
theorem peeled_iff {s : List Char} {v : ℕ} : Peeled (dropBinary (dropByte s.reverse)).reverse v ↔ SizeText s v := by
  constructor
  · intro h
    obtain ⟨mark, hmark, hs⟩ := dropByte_spec s.reverse
    have hwhole : s = (dropByte s.reverse).reverse ++ mark := by
      rw [← hmark.reverse, ← List.reverse_append, ← hs, List.reverse_reverse]
    revert h
    generalize dropByte s.reverse = rest at hwhole
    intro h
    have hkept (hrest : dropBinary rest = rest) : SizeText s v := by
      rw [hrest] at h
      cases h with
      | inl h =>
        obtain ⟨ds, n, hds, hdecimal, hv⟩ := h
        exact ⟨ds, [], mark, n, 0, by rw [hwhole, hds, List.append_nil], hdecimal, .none, hmark,
          by rw [hv, pow_zero, Nat.mul_one]⟩
      | inr h =>
        obtain ⟨ds, c, n, shift, hds, hdecimal, hc, hv⟩ := h
        exact ⟨ds, [c], mark, n, shift, by rw [hwhole, hds], hdecimal, .letter c shift hc, hmark, hv⟩
    match rest with
    | [] => exact hkept rfl
    | [c] => exact hkept rfl
    | i :: u :: rest =>
      by_cases hi : (i = 'i' ∨ i = 'I') ∧ (unitShift u).isSome = true
      · have hdrop : dropBinary (i :: u :: rest) = u :: rest := if_pos hi
        rw [hdrop] at h
        obtain ⟨shift, hshift⟩ := Option.isSome_iff_exists.mp hi.2
        have hu := unitShift_eq_some.mp hshift
        cases h with
        | inl h =>
          obtain ⟨ds, n, hds, hdecimal, -⟩ := h
          have hdigit := hdecimal.digits u (hds ▸ List.mem_reverse.mpr List.mem_cons_self)
          exact absurd hu.plain.1 (by rw [(digit_plain hdigit).1]; exact Bool.false_ne_true)
        | inr h =>
          obtain ⟨ds, c, n, shift', hds, hdecimal, hc, hv⟩ := h
          rw [List.reverse_cons] at hds
          obtain ⟨hds, hcu⟩ := List.append_inj' hds rfl
          cases hcu
          refine ⟨ds, [u, i], mark, n, shift', ?_, hdecimal, .binary u i shift' hc hi.1, hmark, hv⟩
          rw [hwhole, List.reverse_cons, List.reverse_cons, hds, List.append_assoc ds]
          rfl
      · exact hkept (if_neg hi)
  · rintro ⟨ds, unit, mark, n, shift, hs, hdecimal, hunit, hmark, hv⟩
    obtain ⟨front, d, hds⟩ := List.eq_nil_or_concat ds |>.resolve_left hdecimal.some
    have hd := digit_plain (hdecimal.digits d (by rw [hds]; simp))
    have hrev : s.reverse = mark ++ (unit.reverse ++ d :: front.reverse) := by
      rw [hs, hds, List.reverse_append, List.reverse_append, hmark.reverse, List.concat_eq_append, List.reverse_append]
      rfl
    have hback : (d :: front.reverse).reverse = ds := by
      rw [hds, List.reverse_cons, List.reverse_reverse, List.concat_eq_append]
    rw [hrev]
    cases hunit with
    | none =>
      rw [List.reverse_nil, List.nil_append, dropByte_mark hmark hd.2.1, dropBinary_of_ne hd.2.2, hback]
      exact .inl ⟨ds, n, rfl, hdecimal, by rw [hv, pow_zero, Nat.mul_one]⟩
    | letter c shift hc =>
      rw [List.reverse_singleton, List.singleton_append, dropByte_mark hmark hc.plain.2.1,
        dropBinary_of_ne hc.plain.2.2, List.reverse_cons, hback]
      exact .inr ⟨ds, c, n, shift, rfl, hdecimal, hc, hv⟩
    | binary c i shift hc hi =>
      have hib : ¬(i = 'b' ∨ i = 'B') := by
        cases hi with
        | inl hi => rw [hi]; decide
        | inr hi => rw [hi]; decide
      show Peeled (dropBinary (dropByte (mark ++ i :: c :: d :: front.reverse))).reverse v
      rw [dropByte_mark hmark hib, dropBinary_unit hi hc, List.reverse_cons, hback]
      exact .inr ⟨ds, c, n, shift, rfl, hdecimal, hc, hv⟩

theorem parseSize_eq (input : String) :
    parseSize input = peeledSize input (dropBinary (dropByte (Text.trim input).toList.reverse)) := by
  unfold parseSize
  generalize (Text.trim input).toList = s
  dsimp only
  split
  · rename_i hempty
    rw [List.isEmpty_iff.mp hempty]
    rfl
  · cases dropBinary (dropByte s.reverse) with
    | nil => rfl
    | cons c cs =>
      cases hshift : unitShift c <;> simp only [peeledSize, hshift]

theorem parseSize_ok_iff {input : String} {v : UInt64} :
    parseSize input = .ok v ↔ SizeText (Text.trim input).toList v.toNat := by
  rw [parseSize_eq, peeledSize_ok_iff, peeled_iff]

/-! ## Durations -/

/-- The letters of the units, with the seconds each stands for. -/
def durationUnits : List (Char × ℕ) := [('s', 1), ('m', 60), ('h', 3600), ('d', 86400)]

/-- The unit of a duration: nothing, or a letter. -/
inductive DurationUnit : List Char → ℕ → Prop
  | none : DurationUnit [] 1
  | letter (c : Char) (mult : ℕ) (h : (c, mult) ∈ durationUnits) : DurationUnit [c] mult

/-- A duration of `v` seconds: digits and a unit. -/
def DurationText (cs : List Char) (v : ℕ) : Prop :=
  ∃ ds unit n mult, cs = ds ++ unit ∧ Text.Decimal ds n ∧ DurationUnit unit mult ∧ v = n * mult

theorem unitSecs_eq_some {c : Char} {mult : ℕ} : unitSecs c = some mult ↔ (c, mult) ∈ durationUnits := by
  unfold durationUnits
  simp only [List.mem_cons, Prod.mk.injEq, List.not_mem_nil, or_false]
  constructor
  · intro h
    unfold unitSecs at h
    split at h <;> cases h <;> simp
  · rintro (⟨rfl, rfl⟩ | ⟨rfl, rfl⟩ | ⟨rfl, rfl⟩ | ⟨rfl, rfl⟩) <;> rfl

theorem unitSecs_digit {c : Char} (h : c.isDigit) : unitSecs c = none := by
  cases hunit : unitSecs c with
  | none => rfl
  | some mult =>
    have hmem := unitSecs_eq_some.mp hunit
    simp only [durationUnits, List.mem_cons, Prod.mk.injEq, List.not_mem_nil, or_false] at hmem
    rcases hmem with ⟨rfl, -⟩ | ⟨rfl, -⟩ | ⟨rfl, -⟩ | ⟨rfl, -⟩ <;> exact absurd h (by decide)

theorem unitSecs_pos {c : Char} {mult : ℕ} (h : unitSecs c = some mult) : 0 < mult := by
  unfold unitSecs at h
  split at h <;> cases h <;> decide

/-- The digits of a duration, and the seconds its unit stands for. -/
def durationParts (s : List Char) : List Char × ℕ :=
  match s.reverse with
  | c :: cs => match unitSecs c with
    | some m => (cs.reverse, m)
    | none => (s, 1)
  | [] => (s, 1)

theorem durationParts_iff {s : List Char} {v : ℕ} :
    (∃ n, Text.Decimal (durationParts s).1 n ∧ v = n * (durationParts s).2) ↔ DurationText s v := by
  constructor
  · rintro ⟨n, hdecimal, hv⟩
    unfold durationParts at hdecimal hv
    split at hdecimal
    · rename_i c cs hrev
      have hs : s = cs.reverse ++ [c] := by rw [← List.reverse_cons, ← hrev, List.reverse_reverse]
      rw [hrev] at hv
      cases hunit : unitSecs c with
      | some mult =>
        simp only [hunit] at hdecimal hv
        exact ⟨cs.reverse, [c], n, mult, hs, hdecimal, .letter c mult (unitSecs_eq_some.mp hunit), hv⟩
      | none =>
        simp only [hunit] at hdecimal hv
        exact ⟨s, [], n, 1, (List.append_nil s).symm, hdecimal, .none, hv⟩
    · rename_i hrev
      rw [hrev] at hv
      exact ⟨s, [], n, 1, (List.append_nil s).symm, hdecimal, .none, hv⟩
  · rintro ⟨ds, unit, n, mult, hs, hdecimal, hunit, hv⟩
    refine ⟨n, ?_⟩
    unfold durationParts
    cases hunit with
    | none =>
      obtain ⟨front, d, hds⟩ := List.eq_nil_or_concat ds |>.resolve_left hdecimal.some
      have hd : unitSecs d = none := unitSecs_digit (hdecimal.digits d (by rw [hds]; simp))
      have hrev : s.reverse = d :: front.reverse := by rw [hs, hds]; simp
      rw [hrev]
      simp only [hd]
      exact ⟨by rwa [hs, List.append_nil], hv⟩
    | letter c mult hc =>
      have hrev : s.reverse = c :: ds.reverse := by rw [hs]; simp
      rw [hrev]
      simp only [unitSecs_eq_some.mpr hc]
      exact ⟨by rwa [List.reverse_reverse], hv⟩

/-- The last steps of `parse_duration_secs`. -/
def scaled (bad : Error) (parts : List Char × ℕ) : Result UInt64 :=
  match Text.parseDigits (2 ^ 64) parts.1 with
  | none => .error bad
  | some n => if n * parts.2 < 2 ^ 64 then .ok (UInt64.ofNat (n * parts.2)) else .error bad

theorem scaled_ok_iff {bad : Error} {parts : List Char × ℕ} {v : UInt64} (hmult : 0 < parts.2) :
    scaled bad parts = .ok v ↔ ∃ n, Text.Decimal parts.1 n ∧ v.toNat = n * parts.2 := by
  unfold scaled
  constructor
  · intro h
    split at h
    · cases h
    · rename_i n hn
      split at h <;> cases h
      rename_i hlt
      exact ⟨n, (Text.parseDigits_eq_some.mp hn).1, UInt64.toNat_ofNat_of_lt hlt⟩
  · rintro ⟨n, hdecimal, hv⟩
    have hlt : n * parts.2 < 2 ^ 64 := hv ▸ v.toNat_lt
    have hn : n < 2 ^ 64 := (Nat.le_mul_of_pos_right n hmult).trans_lt hlt
    rw [Text.parseDigits_eq_some.mpr ⟨hdecimal, hn⟩]
    dsimp only
    rw [if_pos hlt, ← hv, UInt64.ofNat_toNat]

theorem parseDurationSecs_eq (input : String) : parseDurationSecs input =
    scaled (.invalid ("invalid duration " ++ Text.debugStr input)) (durationParts (Text.trim input).toList) := by
  unfold parseDurationSecs durationParts scaled
  generalize (Text.trim input).toList = s
  cases hrev : s.reverse with
  | nil => cases hdigits : Text.parseDigits (2 ^ 64) s <;> simp only [hrev, hdigits]
  | cons c cs =>
    cases hunit : unitSecs c with
    | none => cases hdigits : Text.parseDigits (2 ^ 64) s <;> simp only [hrev, hunit, hdigits]
    | some m => cases hdigits : Text.parseDigits (2 ^ 64) cs.reverse <;> simp only [hrev, hunit, hdigits]

theorem durationParts_pos (s : List Char) : 0 < (durationParts s).2 := by
  unfold durationParts
  split
  · split
    · exact unitSecs_pos (by assumption)
    · exact Nat.one_pos
  · exact Nat.one_pos

theorem parseDurationSecs_ok_iff {input : String} {v : UInt64} :
    parseDurationSecs input = .ok v ↔ DurationText (Text.trim input).toList v.toNat := by
  rw [parseDurationSecs_eq, scaled_ok_iff (durationParts_pos _), durationParts_iff]

/-! ## Byte by byte -/

namespace Text

/-- The bytes of a text. -/
def bytes (cs : List Char) : List UInt8 := cs.flatMap String.utf8EncodeChar

/-- `&s[..stop]`, which panics inside a character and beyond the end. -/
def sliceTo : List Char → ℕ → Option (List Char)
  | _, 0 => some []
  | [], _ + 1 => none
  | c :: cs, stop + 1 => if c.utf8Size ≤ stop + 1 then (sliceTo cs (stop + 1 - c.utf8Size)).map (c :: ·) else none

/-- A byte as the character it is, if it is one. -/
def byteChar (b : UInt8) : Char := Char.ofNat b.toNat

/-- The last byte of a character. -/
def lastByte (c : Char) : UInt8 := if c.toNat < 128 then UInt8.ofNat c.toNat else UInt8.ofNat (c.toNat % 64 + 128)

theorem utf8EncodeChar_eq (c : Char) : ∃ front, String.utf8EncodeChar c = front ++ [lastByte c] := by
  have hlast (h : ¬c.val.toNat ≤ 127) : lastByte c = UInt8.ofNat (c.val.toNat % 64 + 128) :=
    if_neg fun hlt => h (Nat.le_of_lt_succ hlt)
  unfold String.utf8EncodeChar
  dsimp only
  split
  · rename_i h
    have hsmall : c.toNat < 128 := Nat.lt_succ_of_le h
    exact ⟨[], by unfold lastByte; rw [if_pos hsmall]; rfl⟩
  · rename_i h
    rw [hlast h]
    split
    · exact ⟨[_], rfl⟩
    · split
      · exact ⟨[_, _], rfl⟩
      · exact ⟨[_, _, _], rfl⟩

theorem byteChar_ascii {c : Char} (h : c.toNat < 128) : byteChar (lastByte c) = c := by
  unfold lastByte byteChar
  rw [if_pos h, UInt8.toNat_ofNat', Nat.mod_eq_of_lt (by omega), Char.ofNat_toNat]

theorem byteChar_tail {c : Char} (h : ¬c.toNat < 128) : 128 ≤ (byteChar (lastByte c)).toNat := by
  unfold lastByte byteChar
  rw [if_neg h, UInt8.toNat_ofNat', Nat.mod_eq_of_lt (by omega)]
  have hvalid : (c.toNat % 64 + 128).isValidChar := .inl (by omega)
  have hcode : (Char.ofNat (c.toNat % 64 + 128)).toNat = c.toNat % 64 + 128 := by
    unfold Char.ofNat
    rw [dif_pos hvalid]
    rfl
  omega

/-- A test that only characters below 128 pass may be made on the last byte. -/
theorem byteChar_iff {P : Char → Prop} (hP : ∀ d : Char, 128 ≤ d.toNat → ¬P d) (c : Char) :
    P (byteChar (lastByte c)) ↔ P c := by
  by_cases h : c.toNat < 128
  · rw [byteChar_ascii h]
  · exact iff_of_false (hP _ (byteChar_tail h)) (hP _ (Nat.not_lt.mp h))

theorem bytes_append (p r : List Char) : bytes (p ++ r) = bytes p ++ bytes r := List.flatMap_append ..

theorem getElem_last (p r : List Char) (c : Char) :
    (bytes (p ++ c :: r))[(bytes (p ++ [c])).length - 1]? = some (lastByte c) := by
  obtain ⟨front, hc⟩ := utf8EncodeChar_eq c
  have hone : bytes [c] = front ++ [lastByte c] := by rw [← hc]; exact List.flatMap_singleton ..
  have hsplit : bytes (p ++ c :: r) = (bytes p ++ front) ++ lastByte c :: bytes r := by
    rw [← List.singleton_append, bytes_append, bytes_append, hone]
    simp
  have hlength : (bytes (p ++ [c])).length - 1 = (bytes p ++ front).length := by
    rw [bytes_append, hone]
    simp
  rw [hsplit, hlength, List.getElem?_append_right (Nat.le_refl _), Nat.sub_self]
  rfl

theorem sliceTo_eq (p r : List Char) : sliceTo (p ++ r) (bytes p).length = some p := by
  induction p with
  | nil => cases r <;> rfl
  | cons c p ih =>
    have hsize : (bytes (c :: p)).length = c.utf8Size + (bytes p).length := by
      show (String.utf8EncodeChar c ++ bytes p).length = _
      rw [List.length_append, String.length_utf8EncodeChar]
    have hpos : 0 < c.utf8Size := c.utf8Size_pos
    obtain ⟨stop, hstop⟩ := Nat.exists_eq_succ_of_ne_zero (n := (bytes (c :: p)).length) (by omega)
    rw [hstop, List.cons_append, sliceTo, if_pos (by omega), ← Nat.succ_eq_add_one, ← hstop, hsize,
      Nat.add_sub_cancel_left, ih]
    rfl

end Text

def dropByteAt (bs : List UInt8) (stop : ℕ) : Option ℕ :=
  if 0 < stop then bs[stop - 1]?.map fun b => if Text.byteChar b = 'b' ∨ Text.byteChar b = 'B' then stop - 1 else stop
  else some stop

def dropBinaryAt (bs : List UInt8) (stop : ℕ) : Option ℕ :=
  if 1 < stop then
    bs[stop - 1]?.bind fun i =>
      if Text.byteChar i = 'i' ∨ Text.byteChar i = 'I' then
        bs[stop - 2]?.map fun u => if (unitShift (Text.byteChar u)).isSome then stop - 1 else stop
      else some stop
  else some stop

/-- The digits before `stop`. -/
def digitsAt (input : String) (s : List Char) (stop shift : ℕ) : Option (Result UInt64) :=
  if stop = 0 then some (.error (.invalidSize input)) else (Text.sliceTo s stop).map (sizeDigits input shift)

/-- `parse_size` with every index and every slice that may panic. -/
def parseSizeBytes (input : String) : Option (Result UInt64) :=
  let s := (Text.trim input).toList
  let bs := Text.bytes s
  if s.isEmpty then some (.error (.invalidSize input))
  else do
    let stop ← dropByteAt bs bs.length
    let stop ← dropBinaryAt bs stop
    if 0 < stop then
      let b ← bs[stop - 1]?
      if Text.isAlphabetic (Text.byteChar b) then
        match unitShift (Text.byteChar b) with
        | some shift => digitsAt input s (stop - 1) shift
        | none => some (.error (.invalidSize input))
      else digitsAt input s stop 0
    else digitsAt input s stop 0

/-- `parse_duration_secs` with every slice that may panic. -/
def parseDurationBytes (input : String) : Option (Result UInt64) :=
  let s := (Text.trim input).toList
  let bad := Error.invalid ("invalid duration " ++ Text.debugStr input)
  match s.reverse with
  | c :: _ => match unitSecs c with
    | some m => (Text.sliceTo s ((Text.bytes s).length - 1)).map fun ds => scaled bad (ds, m)
    | none => some (scaled bad (s, 1))
  | [] => some (scaled bad (s, 1))

section Bytes
variable (p r : List Char) (c : Char)

theorem bytes_concat_pos : 0 < (Text.bytes (p ++ [c])).length := by
  obtain ⟨front, hc⟩ := Text.utf8EncodeChar_eq c
  rw [Text.bytes_append, List.length_append]
  show 0 < _ + (String.utf8EncodeChar c ++ []).length
  rw [hc]
  simp

theorem bytes_ascii {c : Char} (h : c.toNat < 128) : (Text.bytes (p ++ [c])).length - 1 = (Text.bytes p).length := by
  have hsize : c.utf8Size = 1 := Char.utf8Size_eq_one_iff.mpr (UInt32.le_iff_toNat_le.mpr (Nat.le_of_lt_succ h))
  rw [Text.bytes_append, List.length_append]
  show _ + (String.utf8EncodeChar c ++ []).length - 1 = _
  rw [List.append_nil, String.length_utf8EncodeChar, hsize, Nat.add_sub_cancel]

theorem dropByteAt_eq : dropByteAt (Text.bytes (p ++ r)) (Text.bytes p).length =
    some (Text.bytes (dropByte p.reverse).reverse).length := by
  cases List.eq_nil_or_concat' p with
  | inl hp => rw [hp]; rfl
  | inr hp =>
    obtain ⟨p, c, rfl⟩ := hp
    have hbyte : (Text.byteChar (Text.lastByte c) = 'b' ∨ Text.byteChar (Text.lastByte c) = 'B') ↔
        (c = 'b' ∨ c = 'B') :=
      Text.byteChar_iff (P := fun d => d = 'b' ∨ d = 'B') (fun d hd hor => by
        rcases hor with rfl | rfl <;> exact absurd hd (by decide)) c
    unfold dropByteAt
    rw [if_pos (bytes_concat_pos p c), List.append_assoc, List.singleton_append, Text.getElem_last, Option.map_some,
      List.reverse_append, List.reverse_singleton, List.singleton_append]
    by_cases hc : c = 'b' ∨ c = 'B'
    · have hascii : c.toNat < 128 := by rcases hc with rfl | rfl <;> decide
      have hdrop : dropByte (c :: p.reverse) = p.reverse := by rcases hc with rfl | rfl <;> rfl
      rw [if_pos (hbyte.mpr hc), bytes_ascii p hascii, hdrop, List.reverse_reverse]
    · rw [if_neg fun h => hc (hbyte.mp h), dropByte_of_ne hc, List.reverse_cons, List.reverse_reverse]

theorem alphabetic_ascii {c : Char} (h : Text.isAlphabetic c = true) : c.toNat < 128 := by
  unfold Text.isAlphabetic Text.isLower Text.isUpper at h
  rw [Bool.or_eq_true, decide_eq_true_eq, decide_eq_true_eq] at h
  cases h with
  | inl h =>
    have hle : c.toNat ≤ 122 := h.2
    omega
  | inr h =>
    have hle : c.toNat ≤ 90 := h.2
    omega

theorem unit_ascii {c : Char} (h : (unitShift c).isSome = true) : c.toNat < 128 := by
  unfold unitShift at h
  split at h <;> first | decide | cases h

theorem dropBinaryAt_eq : dropBinaryAt (Text.bytes (p ++ r)) (Text.bytes p).length =
    some (Text.bytes (dropBinary p.reverse).reverse).length := by
  cases List.eq_nil_or_concat' p with
  | inl hp => rw [hp]; rfl
  | inr hp =>
    obtain ⟨p, i, rfl⟩ := hp
    have hbyte : (Text.byteChar (Text.lastByte i) = 'i' ∨ Text.byteChar (Text.lastByte i) = 'I') ↔
        (i = 'i' ∨ i = 'I') :=
      Text.byteChar_iff (P := fun d => d = 'i' ∨ d = 'I') (fun d hd hor => by
        rcases hor with rfl | rfl <;> exact absurd hd (by decide)) i
    unfold dropBinaryAt
    rw [List.append_assoc, List.singleton_append, Text.getElem_last, Option.bind_some]
    by_cases hi : i = 'i' ∨ i = 'I'
    · have hascii : i.toNat < 128 := by rcases hi with rfl | rfl <;> decide
      rw [if_pos (hbyte.mpr hi)]
      cases List.eq_nil_or_concat' p with
      | inl hp =>
        rw [hp]
        rcases hi with rfl | rfl <;> rfl
      | inr hp =>
        obtain ⟨p, u, rfl⟩ := hp
        have hunit : (unitShift (Text.byteChar (Text.lastByte u))).isSome = true ↔ (unitShift u).isSome = true :=
          Text.byteChar_iff (P := fun d => (unitShift d).isSome = true) (fun d hd h => by
            have := unit_ascii h
            omega) u
        have hone := bytes_ascii (p ++ [u]) hascii
        have hpos := bytes_concat_pos p u
        have htwo : (Text.bytes (p ++ [u] ++ [i])).length - 2 = (Text.bytes (p ++ [u])).length - 1 := by omega
        have hwhole : p ++ [u] ++ i :: r = p ++ u :: i :: r := List.append_cons p u (i :: r) ▸ rfl
        rw [if_pos (by omega), htwo, hone, hwhole, Text.getElem_last, Option.map_some]
        have hrev : (p ++ [u] ++ [i]).reverse = i :: u :: p.reverse := by simp
        rw [hrev]
        by_cases hu : (unitShift u).isSome = true
        · have hdrop : dropBinary (i :: u :: p.reverse) = u :: p.reverse := if_pos ⟨hi, hu⟩
          rw [if_pos (hunit.mpr hu), hdrop, List.reverse_cons, List.reverse_reverse]
        · have hdrop : dropBinary (i :: u :: p.reverse) = i :: u :: p.reverse := if_neg fun h => hu h.2
          rw [if_neg fun h => hu (hunit.mp h), hdrop, ← hrev, List.reverse_reverse]
    · have hdrop : dropBinary (p ++ [i]).reverse = (p ++ [i]).reverse := by
        rw [List.reverse_append]
        exact dropBinary_of_ne hi
      rw [if_neg fun h => hi (hbyte.mp h), hdrop, List.reverse_reverse, ite_self]

theorem digitsAt_eq (input : String) (shift : ℕ) :
    digitsAt input (p ++ r) (Text.bytes p).length shift = some (sizeDigits input shift p) := by
  unfold digitsAt
  cases p with
  | nil => rfl
  | cons c p =>
    have hpos : (Text.bytes (c :: p)).length ≠ 0 := by
      show (String.utf8EncodeChar c ++ Text.bytes p).length ≠ 0
      rw [List.length_append, String.length_utf8EncodeChar]
      have := c.utf8Size_pos
      omega
    rw [if_neg hpos, Text.sliceTo_eq]
    rfl

end Bytes

/-- Taking marks off leaves the front of the text. -/
theorem dropped_front (s : List Char) : ∃ r, s = (dropBinary (dropByte s.reverse)).reverse ++ r := by
  obtain ⟨mark, hmark, hs⟩ := dropByte_spec s.reverse
  have hbinary (cs : List Char) : ∃ i, cs = i ++ dropBinary cs := by
    unfold dropBinary
    split
    · split
      · exact ⟨[_], rfl⟩
      · exact ⟨[], rfl⟩
    · exact ⟨[], rfl⟩
  obtain ⟨i, hi⟩ := hbinary (dropByte s.reverse)
  refine ⟨(mark ++ i).reverse, ?_⟩
  rw [← List.reverse_append, List.append_assoc, ← hi, ← hs, List.reverse_reverse]

theorem parseSizeBytes_eq (input : String) : parseSizeBytes input = some (parseSize input) := by
  rw [parseSize_eq]
  unfold parseSizeBytes
  generalize (Text.trim input).toList = s
  dsimp only
  split
  · rename_i hempty
    rw [List.isEmpty_iff.mp hempty]
    rfl
  · obtain ⟨mark, -, hmark⟩ := dropByte_spec s.reverse
    have hs : s = (dropByte s.reverse).reverse ++ mark.reverse := by
      rw [← List.reverse_append, ← hmark, List.reverse_reverse]
    have hbyte : dropByteAt (Text.bytes s) (Text.bytes s).length =
        some (Text.bytes (dropByte s.reverse).reverse).length := by
      have h := dropByteAt_eq s []
      rwa [List.append_nil] at h
    have hbinary : dropBinaryAt (Text.bytes s) (Text.bytes (dropByte s.reverse).reverse).length =
        some (Text.bytes (dropBinary (dropByte s.reverse)).reverse).length := by
      have h := dropBinaryAt_eq (dropByte s.reverse).reverse mark.reverse
      rwa [← hs, List.reverse_reverse] at h
    obtain ⟨r, hfront⟩ := dropped_front s
    simp only [hbyte, hbinary, Option.bind_eq_bind, Option.bind_some]
    clear hbyte hbinary hs hmark
    revert hfront
    generalize dropBinary (dropByte s.reverse) = cs
    intro hfront
    cases cs with
    | nil => rfl
    | cons c cs =>
      rw [List.reverse_cons] at hfront ⊢
      have hget : (Text.bytes s)[(Text.bytes (cs.reverse ++ [c])).length - 1]? = some (Text.lastByte c) := by
        rw [hfront, List.append_assoc]
        exact Text.getElem_last cs.reverse r c
      have hwhole : digitsAt input s (Text.bytes (cs.reverse ++ [c])).length 0 =
          some (sizeDigits input 0 (cs.reverse ++ [c])) := by
        rw [hfront]
        exact digitsAt_eq _ _ input 0
      rw [if_pos (bytes_concat_pos _ _), hget, Option.bind_some, peeledSize, List.reverse_cons]
      by_cases hc : Text.isAlphabetic c = true
      · have hascii := alphabetic_ascii hc
        rw [Text.byteChar_ascii hascii, if_pos hc, if_pos hc, bytes_ascii _ hascii]
        cases unitShift c with
        | none => rfl
        | some shift =>
          dsimp only
          rw [hfront, List.append_assoc]
          exact digitsAt_eq _ _ input shift
      · have hno : ¬Text.isAlphabetic (Text.byteChar (Text.lastByte c)) = true := fun h =>
          hc ((Text.byteChar_iff (P := fun d => Text.isAlphabetic d = true) (fun d hd h => by
            have := alphabetic_ascii h
            omega) c).mp h)
        rw [if_neg hno, if_neg hc, hwhole]

theorem parseDurationBytes_eq (input : String) : parseDurationBytes input = some (parseDurationSecs input) := by
  rw [parseDurationSecs_eq]
  unfold parseDurationBytes durationParts
  generalize (Text.trim input).toList = s
  dsimp only
  cases hrev : s.reverse with
  | nil => rfl
  | cons c cs =>
    dsimp only
    cases hunit : unitSecs c with
    | none => rfl
    | some m =>
      have hs : s = cs.reverse ++ [c] := by rw [← List.reverse_cons, ← hrev, List.reverse_reverse]
      have hascii : c.toNat < 128 := by
        unfold unitSecs at hunit
        split at hunit <;> first | decide | cases hunit
      dsimp only
      rw [hs, bytes_ascii _ hascii, Text.sliceTo_eq, Option.map_some]

/-! ## What the parsers accept -/

/-- Both parsers accept exactly their grammars, with the values the grammars give when they fit, and on no text
do they index or slice where that would panic. -/
theorem size_duration_grammars (input : String) :
    (∀ v, parseSize input = .ok v ↔ SizeText (Text.trim input).toList v.toNat) ∧
    (∀ v, parseDurationSecs input = .ok v ↔ DurationText (Text.trim input).toList v.toNat) ∧
    parseSizeBytes input = some (parseSize input) ∧ parseDurationBytes input = some (parseDurationSecs input) :=
  ⟨fun _ => parseSize_ok_iff, fun _ => parseDurationSecs_ok_iff, parseSizeBytes_eq input, parseDurationBytes_eq input⟩

end Collocate
