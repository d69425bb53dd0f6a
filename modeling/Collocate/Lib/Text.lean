import Mathlib.Data.String.Basic

/-! # Text as the standard library handles it

The `str` methods of the source, on the characters of a `String`: prefixes, splitting at a
character, trimming, number parsing and the hexadecimal and `Debug` forms. -/
namespace Collocate.Text
set_option autoImplicit false

/-! ## Prefixes and splitting -/

def dropPrefix : List Char → List Char → Option (List Char)
  | [], s => some s
  | _ :: _, [] => none
  | p :: ps, c :: cs => if p = c then dropPrefix ps cs else none

/-- `str::strip_prefix`. -/
def stripPrefix (p s : String) : Option String := (dropPrefix p.toList s.toList).map String.ofList

def startsWith (s p : String) : Bool := (stripPrefix p s).isSome

/-- The characters before the first `c`, and those after it. -/
def cutAt (c : Char) : List Char → Option (List Char × List Char)
  | [] => none
  | d :: ds => if d = c then some ([], ds) else (cutAt c ds).map fun (a, b) => (d :: a, b)

/-- `str::split_once`. -/
def splitOnce (c : Char) (s : String) : Option (String × String) :=
  (cutAt c s.toList).map fun (a, b) => (String.ofList a, String.ofList b)

/-- `str::rsplit_once`. -/
def rsplitOnce (c : Char) (s : String) : Option (String × String) :=
  (cutAt c s.toList.reverse).map fun (a, b) => (String.ofList b.reverse, String.ofList a.reverse)

/-- The pieces between the separators; always at least one. -/
def pieces (c : Char) : List Char → List (List Char)
  | [] => [[]]
  | d :: ds =>
    if d = c then [] :: pieces c ds
    else match pieces c ds with
      | [] => [[d]]
      | p :: ps => (d :: p) :: ps

/-- `str::split` with a character. -/
def split (c : Char) (s : String) : List String := (pieces c s.toList).map String.ofList

/-- `str::lines`: a line feed ends a line, with a carriage return before it. -/
def lines (s : String) : List String :=
  let ps := pieces '\n' s.toList
  let ended := ps.dropLast.map fun line => if line.getLast? = some '\r' then line.dropLast else line
  let last := ps.getLast?.filter fun line => !line.isEmpty
  (ended ++ last.toList).map String.ofList

def contains (s : String) (c : Char) : Bool := s.toList.contains c

/-- `char::is_whitespace`: the code points with the Unicode property `White_Space`. -/
def isWhitespace (c : Char) : Bool :=
  let n := c.toNat
  decide (9 ≤ n ∧ n ≤ 13) || n == 32 || n == 0x85 || n == 0xa0 || n == 0x1680 ||
    decide (0x2000 ≤ n ∧ n ≤ 0x200a) || n == 0x2028 || n == 0x2029 || n == 0x202f || n == 0x205f || n == 0x3000

/-- `trim_end_matches`. -/
def trimEndMatches (p : Char → Bool) (s : String) : String :=
  String.ofList (s.toList.reverse.dropWhile p).reverse

def endsWith (s p : String) : Bool := decide (p.toList <:+ s.toList)

/-- `str::trim`. -/
def trim (s : String) : String := trimEndMatches isWhitespace (String.ofList (s.toList.dropWhile isWhitespace))

/-- The pieces between white space; always at least one. -/
def gaps : List Char → List (List Char)
  | [] => [[]]
  | d :: ds =>
    if isWhitespace d then [] :: gaps ds
    else match gaps ds with
      | [] => [[d]]
      | p :: ps => (d :: p) :: ps

/-- `str::split_whitespace`. -/
def splitWhitespace (s : String) : List String :=
  ((gaps s.toList).filter fun word => !word.isEmpty).map String.ofList

example : splitWhitespace " HTTP/1.1  200 OK" = ["HTTP/1.1", "200", "OK"] := by decide +kernel

/-! ## ASCII classes -/

def isDigit (c : Char) : Bool := decide ('0' ≤ c ∧ c ≤ '9')
def isLower (c : Char) : Bool := decide ('a' ≤ c ∧ c ≤ 'z')
def isUpper (c : Char) : Bool := decide ('A' ≤ c ∧ c ≤ 'Z')
def isAlphabetic (c : Char) : Bool := isLower c || isUpper c
def isAlphanumeric (c : Char) : Bool := isAlphabetic c || isDigit c

/-- `str::to_ascii_uppercase`. -/
def toAsciiUppercase (s : String) : String :=
  String.ofList (s.toList.map fun c => if isLower c then Char.ofNat (c.toNat - 32) else c)

/-- `str::to_ascii_lowercase`. -/
def toAsciiLowercase (s : String) : String :=
  String.ofList (s.toList.map fun c => if isUpper c then Char.ofNat (c.toNat + 32) else c)

/-! ## Numbers -/

def digitVal (c : Char) : Option ℕ := if isDigit c then some (c.toNat - '0'.toNat) else none

def digits : List Char → ℕ → Option ℕ
  | [], n => some n
  | c :: cs, n => match digitVal c with
    | none => none
    | some d => digits cs (10 * n + d)

/-- Decimal digits, at least one, of a number below `bound`. -/
def parseDigits (bound : ℕ) (s : List Char) : Option ℕ :=
  if s.isEmpty then none else (digits s 0).filter (· < bound)

/-- `from_str` of an unsigned integer type with `bound` values: a leading `+` is accepted. -/
def parseUnsigned (bound : ℕ) (s : String) : Option ℕ :=
  match s.toList with
  | '+' :: cs => parseDigits bound cs
  | cs => parseDigits bound cs

def hexVal (c : Char) : Option ℕ :=
  if isDigit c then some (c.toNat - '0'.toNat)
  else if 'a' ≤ c ∧ c ≤ 'f' then some (c.toNat - 'a'.toNat + 10)
  else if 'A' ≤ c ∧ c ≤ 'F' then some (c.toNat - 'A'.toNat + 10)
  else none

def hexDigits : List Char → ℕ → Option ℕ
  | [], n => some n
  | c :: cs, n => match hexVal c with
    | none => none
    | some d => hexDigits cs (16 * n + d)

/-- Hexadecimal digits, at least one, of a number below `bound`. -/
def parseHexDigits (bound : ℕ) (s : List Char) : Option ℕ :=
  if s.isEmpty then none else (hexDigits s 0).filter (· < bound)

/-- `from_str_radix` with radix 16 of an unsigned integer type with `bound` values. -/
def parseHex (bound : ℕ) (s : String) : Option ℕ :=
  match s.toList with
  | '+' :: cs => parseHexDigits bound cs
  | cs => parseHexDigits bound cs

/-- `format!("{:x}")`. -/
def hexText (n : ℕ) : String := String.ofList (Nat.toDigits 16 n)

/-- `from_str` of `i32`. -/
def parseI32 (s : String) : Option ℤ :=
  match s.toList with
  | '+' :: cs => (parseDigits (2 ^ 31) cs).map Int.ofNat
  | '-' :: cs => (parseDigits (2 ^ 31 + 1) cs).map fun n => -Int.ofNat n
  | cs => (parseDigits (2 ^ 31) cs).map Int.ofNat

def parseU8 (s : String) : Option UInt8 := (parseUnsigned (2 ^ 8) s).map UInt8.ofNat
def parseU16 (s : String) : Option UInt16 := (parseUnsigned (2 ^ 16) s).map UInt16.ofNat
def parseU32 (s : String) : Option UInt32 := (parseUnsigned (2 ^ 32) s).map UInt32.ofNat
def parseU64 (s : String) : Option UInt64 := (parseUnsigned (2 ^ 64) s).map UInt64.ofNat

/-! ## Formatting -/

def hexDigit (n : ℕ) : Char := Nat.digitChar n

/-- `n` in hexadecimal with exactly `width` digits. -/
def hexPad : ℕ → ℕ → List Char
  | 0, _ => []
  | w + 1, n => hexPad w (n / 16) ++ [hexDigit (n % 16)]

/-- Every byte as two hexadecimal digits. -/
def hexBytes (bs : List UInt8) : String := String.ofList (bs.flatMap fun b => hexPad 2 b.toNat)

/-- `char::escape_debug` inside a string. Characters beyond ASCII print as they are; the tables
of unprintable ones are not modelled. -/
def escapeDebug (c : Char) : List Char :=
  if c = '"' then ['\\', '"']
  else if c = '\\' then ['\\', '\\']
  else if c = '\n' then ['\\', 'n']
  else if c = '\r' then ['\\', 'r']
  else if c = '\t' then ['\\', 't']
  else if c.toNat = 0 then ['\\', '0']
  else if c.toNat < 32 ∨ c.toNat = 127 then
    ['\\', 'u', '\x7b'] ++ Nat.toDigits 16 c.toNat ++ ['\x7d']
  else [c]

/-- The `Debug` form of a string. -/
def debugStr (s : String) : String := "\"" ++ String.ofList (s.toList.flatMap escapeDebug) ++ "\""

def joinWith (sep : String) : List String → String
  | [] => ""
  | [s] => s
  | s :: rest => s ++ sep ++ joinWith sep rest

/-- The `Debug` form of a list of strings. -/
def debugStrs (l : List String) : String := "[" ++ joinWith ", " (l.map debugStr) ++ "]"

/-! ## Facts -/

theorem dropPrefix_eq_some {p s rest : List Char} : dropPrefix p s = some rest ↔ s = p ++ rest := by
  induction p generalizing s with
  | nil => simp [dropPrefix, eq_comm]
  | cons c p ih =>
    cases s with
    | nil => simp [dropPrefix]
    | cons d s =>
      by_cases h : c = d
      · subst h
        simp [dropPrefix, ih]
      · simp only [dropPrefix, if_neg h, reduceCtorEq, false_iff, List.cons_append, List.cons.injEq, not_and]
        intro hd
        exact absurd hd.symm h

theorem stripPrefix_eq_some {p s rest : String} : stripPrefix p s = some rest ↔ s = p ++ rest := by
  constructor
  · intro h
    obtain ⟨cs, hcs, hrest⟩ := Option.map_eq_some_iff.mp h
    have hs := dropPrefix_eq_some.mp hcs
    apply String.toList_injective
    rw [hs, String.toList_append, ← hrest, String.toList_ofList]
  · rintro rfl
    refine Option.map_eq_some_iff.mpr ⟨rest.toList, ?_, String.ofList_toList⟩
    exact dropPrefix_eq_some.mpr String.toList_append

theorem cutAt_append {c : Char} {a b : List Char} (ha : c ∉ a) : cutAt c (a ++ c :: b) = some (a, b) := by
  induction a with
  | nil => simp [cutAt]
  | cons d a ih =>
    rw [List.mem_cons, not_or] at ha
    simp [cutAt, Ne.symm ha.1, ih ha.2]

/-! ### Cutting -/

theorem cutAt_eq_some {c : Char} {l a b : List Char} :
    cutAt c l = some (a, b) ↔ l = a ++ c :: b ∧ c ∉ a := by
  constructor
  · intro h
    induction l generalizing a b with
    | nil => cases h
    | cons d l ih =>
      unfold cutAt at h
      split at h
      · rename_i hd
        obtain ⟨rfl, rfl⟩ := Prod.mk.inj (Option.some.inj h)
        exact ⟨by rw [hd]; rfl, List.not_mem_nil⟩
      · rename_i hd
        obtain ⟨p, hp, heq⟩ := Option.map_eq_some_iff.mp h
        obtain ⟨rfl, rfl⟩ := Prod.mk.inj heq
        obtain ⟨hl, hno⟩ := ih hp
        refine ⟨by rw [hl]; rfl, ?_⟩
        rw [List.mem_cons, not_or]
        exact ⟨fun h => hd h.symm, hno⟩
  · intro h
    obtain ⟨rfl, hno⟩ := h
    exact cutAt_append hno

theorem cutAt_eq_none {c : Char} {l : List Char} : cutAt c l = none ↔ c ∉ l := by
  induction l with
  | nil => exact ⟨fun _ => List.not_mem_nil, fun _ => rfl⟩
  | cons d l ih =>
    unfold cutAt
    rw [List.mem_cons, not_or]
    by_cases hd : d = c
    · rw [if_pos hd]
      exact ⟨nofun, fun h => absurd hd.symm h.1⟩
    · rw [if_neg hd, Option.map_eq_none_iff, ih]
      exact ⟨fun h => ⟨fun h' => hd h'.symm, h⟩, fun h => h.2⟩

theorem splitOnce_eq_some {c : Char} {s a b : String} :
    splitOnce c s = some (a, b) ↔ s.toList = a.toList ++ c :: b.toList ∧ c ∉ a.toList := by
  unfold splitOnce
  rw [Option.map_eq_some_iff]
  constructor
  · intro h
    obtain ⟨p, hp, heq⟩ := h
    obtain ⟨rfl, rfl⟩ := Prod.mk.inj heq
    rw [String.toList_ofList, String.toList_ofList]
    exact cutAt_eq_some.mp hp
  · intro h
    exact ⟨(a.toList, b.toList), cutAt_eq_some.mpr h, by dsimp only; rw [String.ofList_toList, String.ofList_toList]⟩

theorem splitOnce_eq_none {c : Char} {s : String} : splitOnce c s = none ↔ c ∉ s.toList := by
  unfold splitOnce
  rw [Option.map_eq_none_iff]
  exact cutAt_eq_none

theorem rsplitOnce_eq_some {c : Char} {s a b : String} :
    rsplitOnce c s = some (a, b) ↔ s.toList = a.toList ++ c :: b.toList ∧ c ∉ b.toList := by
  unfold rsplitOnce
  rw [Option.map_eq_some_iff]
  constructor
  · intro h
    obtain ⟨p, hp, heq⟩ := h
    obtain ⟨rfl, rfl⟩ := Prod.mk.inj heq
    obtain ⟨hs, hno⟩ := cutAt_eq_some.mp hp
    have hrev := congrArg List.reverse hs
    rw [List.reverse_reverse, List.reverse_append, List.reverse_cons, List.append_assoc] at hrev
    rw [String.toList_ofList, String.toList_ofList, hrev]
    exact ⟨rfl, fun h => hno (List.mem_reverse.mp h)⟩
  · intro h
    obtain ⟨hs, hno⟩ := h
    refine ⟨(b.toList.reverse, a.toList.reverse), cutAt_eq_some.mpr ⟨?_, fun h => hno (List.mem_reverse.mp h)⟩, ?_⟩
    · rw [hs, List.reverse_append, List.reverse_cons, List.append_assoc]
      rfl
    · dsimp only
      rw [List.reverse_reverse, List.reverse_reverse, String.ofList_toList, String.ofList_toList]

theorem contains_iff {s : String} {c : Char} : contains s c = true ↔ c ∈ s.toList := List.contains_iff_mem

theorem pieces_of_not_mem {c : Char} {l : List Char} (h : c ∉ l) : pieces c l = [l] := by
  induction l with
  | nil => rfl
  | cons d l ih =>
    rw [List.mem_cons, not_or] at h
    rw [pieces, if_neg (Ne.symm h.1), ih h.2]

theorem pieces_append {c : Char} {p : List Char} (hp : c ∉ p) (rest : List Char) :
    ∃ q qs, pieces c rest = q :: qs ∧ pieces c (p ++ rest) = (p ++ q) :: qs := by
  induction p with
  | nil =>
    cases rest with
    | nil => exact ⟨[], [], rfl, rfl⟩
    | cons d rest =>
      rw [List.nil_append]
      unfold pieces
      split
      · exact ⟨[], pieces c rest, rfl, rfl⟩
      · split
        · exact ⟨[d], [], rfl, rfl⟩
        · exact ⟨_, _, rfl, rfl⟩
  | cons d p ih =>
    rw [List.mem_cons, not_or] at hp
    obtain ⟨q, qs, hrest, hpieces⟩ := ih hp.2
    refine ⟨q, qs, hrest, ?_⟩
    rw [List.cons_append, pieces, if_neg (Ne.symm hp.1), hpieces]
    rfl

theorem split_of_not_mem {c : Char} {s : String} (h : c ∉ s.toList) : split c s = [s] := by
  rw [split, pieces_of_not_mem h, List.map_singleton, String.ofList_toList]

/-! ### Joining -/

theorem split_joinWith {c : Char} {sep : String} (hsep : sep.toList = [c]) {parts : List String}
    (hparts : ∀ p ∈ parts, c ∉ p.toList) (hne : parts ≠ []) : split c (joinWith sep parts) = parts := by
  induction parts with
  | nil => exact absurd rfl hne
  | cons front rest ih =>
    have hfront := hparts front List.mem_cons_self
    cases rest with
    | nil => exact split_of_not_mem hfront
    | cons second rest =>
      have hrest := ih (fun p hp => hparts p (List.mem_cons_of_mem _ hp)) (List.cons_ne_nil _ _)
      obtain ⟨q, qs, hq, hall⟩ := pieces_append hfront (c :: (joinWith sep (second :: rest)).toList)
      have hpieces : pieces c (c :: (joinWith sep (second :: rest)).toList) =
          [] :: pieces c (joinWith sep (second :: rest)).toList := if_pos rfl
      rw [hpieces] at hq
      obtain ⟨rfl, rfl⟩ := List.cons.inj hq
      have hchars : (joinWith sep (front :: second :: rest)).toList =
          front.toList ++ c :: (joinWith sep (second :: rest)).toList := by
        rw [joinWith, String.toList_append, String.toList_append, List.append_assoc, hsep]
        · rfl
        · exact List.cons_ne_nil _ _
      rw [split, hchars, hall, List.map_cons, List.append_nil, String.ofList_toList]
      exact congrArg _ hrest

theorem joinWith_not_mem {c : Char} {sep : String} {parts : List String} (hsep : c ∉ sep.toList)
    (hparts : ∀ p ∈ parts, c ∉ p.toList) : c ∉ (joinWith sep parts).toList := by
  induction parts with
  | nil => exact List.not_mem_nil
  | cons front rest ih =>
    have hfront := hparts front List.mem_cons_self
    cases rest with
    | nil => exact hfront
    | cons second rest =>
      have hrest := ih fun p hp => hparts p (List.mem_cons_of_mem _ hp)
      rw [joinWith, String.toList_append, String.toList_append, List.mem_append, List.mem_append]
      · exact not_or.mpr ⟨not_or.mpr ⟨hfront, hsep⟩, hrest⟩
      · exact List.cons_ne_nil _ _

theorem startsWith_iff {s p : String} : startsWith s p = true ↔ ∃ rest, s = p ++ rest := by
  rw [startsWith, Option.isSome_iff_exists]
  exact exists_congr fun rest => stripPrefix_eq_some

/-! ### Decimal numbers -/

theorem isDigit_eq (c : Char) : isDigit c = c.isDigit := by
  unfold isDigit Char.isDigit
  rw [Bool.decide_and]
  rfl

theorem digits_eq_ofDigitChars {cs : List Char} (hcs : ∀ c ∈ cs, c.isDigit) (n : ℕ) :
    digits cs n = some (Nat.ofDigitChars 10 cs n) := by
  induction cs generalizing n with
  | nil => rfl
  | cons c cs ih =>
    have hc : isDigit c = true := isDigit_eq c ▸ hcs c (List.mem_cons_self ..)
    rw [digits, digitVal, if_pos hc, Nat.ofDigitChars_cons]
    exact ih (fun d hd => hcs d (List.mem_cons_of_mem _ hd)) _

theorem toString_digits {n : ℕ} {c : Char} (hc : c ∈ (toString n).toList) : c.isDigit := by
  rw [Nat.toString_eq_repr, Nat.toList_repr] at hc
  exact Nat.isDigit_of_mem_toDigits (by omega) (by omega) hc

theorem parseUnsigned_toString {bound n : ℕ} (hn : n < bound) : parseUnsigned bound (toString n) = some n := by
  have hparse : parseDigits bound (toString n).toList = some n := by
    unfold parseDigits
    rw [digits_eq_ofDigitChars fun c => toString_digits, if_neg, Nat.toString_eq_repr, Nat.toList_repr,
      Nat.ofDigitChars_toDigits (by omega) (by omega)]
    · simp [Option.filter, hn]
    · rw [Nat.toString_eq_repr, Nat.toList_repr]
      simp
  unfold parseUnsigned
  split
  · rename_i cs heq
    have hplus : '+' ∈ (toString n).toList := heq ▸ List.mem_cons_self ..
    exact absurd (toString_digits hplus) (by decide)
  · exact hparse

theorem dropWhile_isWhitespace {cs : List Char} (hcs : ∀ c ∈ cs, isWhitespace c = false) :
    cs.dropWhile isWhitespace = cs := by
  cases cs with
  | nil => rfl
  | cons c cs => exact List.dropWhile_cons_of_neg (by simp [hcs c (List.mem_cons_self ..)])

theorem trim_eq_self {s : String} (hs : ∀ c ∈ s.toList, isWhitespace c = false) : trim s = s := by
  unfold trim trimEndMatches
  rw [dropWhile_isWhitespace hs, String.ofList_toList, dropWhile_isWhitespace fun c hc => hs c (List.mem_reverse.mp hc),
    List.reverse_reverse, String.ofList_toList]

/-- The `\r` of a line's end is trimmed. -/
theorem trim_append_return {s : String} (hs : ∀ c ∈ s.toList, isWhitespace c = false) : trim (s ++ "\r") = s := by
  have hreturn : (s ++ "\r").toList = s.toList ++ ['\r'] := String.toList_append
  unfold trim trimEndMatches
  cases hcs : s.toList with
  | nil =>
    rw [hreturn, hcs, ← String.ofList_toList (s := s), hcs]
    decide
  | cons c cs =>
    have hc : isWhitespace c = false := hs c (by rw [hcs]; exact List.mem_cons_self ..)
    rw [hreturn, hcs, List.cons_append, List.dropWhile_cons_of_neg (by simp [hc]), String.toList_ofList,
      ← List.cons_append, ← hcs, List.reverse_append, List.reverse_singleton, List.singleton_append,
      List.dropWhile_cons_of_pos (by decide), dropWhile_isWhitespace fun c hc => hs c (List.mem_reverse.mp hc),
      List.reverse_reverse, String.ofList_toList]

theorem isWhitespace_of_isDigit {c : Char} (hc : c.isDigit) : isWhitespace c = false := by
  have hrange : 48 ≤ c.toNat ∧ c.toNat ≤ 57 := by
    have hval : (48 : UInt32) ≤ c.val ∧ c.val ≤ 57 := by simpa [Char.isDigit] using hc
    exact hval
  unfold isWhitespace
  simp only [Bool.or_eq_false_iff, decide_eq_false_iff_not, beq_eq_false_iff_ne]
  omega

/-- What is written as a number is read back, spaces or not. -/
theorem parseU64_trim_toString (n : UInt64) : parseU64 (trim (toString n)) = some n := by
  have htrim : trim (toString n.toNat) = toString n.toNat :=
    trim_eq_self fun c hc => isWhitespace_of_isDigit (toString_digits hc)
  show parseU64 (trim (toString n.toNat)) = some n
  rw [htrim, parseU64, parseUnsigned_toString n.toNat_lt, Option.map_some, UInt64.ofNat_toNat]

/-! ### Hexadecimal numbers -/

theorem hexVal_digitChar (d : ℕ) (h : d < 16) : hexVal (Nat.digitChar d) = some d := by
  have hall : ∀ i : Fin 16, hexVal (Nat.digitChar i) = some i.val := by decide
  exact hall ⟨d, h⟩

theorem hexDigits_append (a b : List Char) (n : ℕ) :
    hexDigits (a ++ b) n = (hexDigits a n).bind fun m => hexDigits b m := by
  induction a generalizing n with
  | nil => rfl
  | cons c a ih =>
    rw [List.cons_append, hexDigits, hexDigits]
    cases hexVal c with
    | none => rfl
    | some d => exact ih _

theorem hexDigits_toDigits (n : ℕ) : hexDigits (Nat.toDigits 16 n) 0 = some n := by
  induction n using Nat.strongRecOn with
  | ind n ih =>
    rcases Nat.lt_or_ge n 16 with hn | hn
    · rw [Nat.toDigits_of_lt_base hn, hexDigits, hexVal_digitChar n hn]
      show some (16 * 0 + n) = some n
      rw [Nat.mul_zero, Nat.zero_add]
    · have hdiv : n / 16 < n := Nat.div_lt_self (by omega) (by omega)
      rw [Nat.toDigits_of_base_le (by omega) hn, hexDigits_append, ih _ hdiv, Option.bind_some, hexDigits,
        hexVal_digitChar _ (Nat.mod_lt _ (by omega))]
      show some (16 * (n / 16) + n % 16) = some n
      rw [Nat.div_add_mod]

theorem mem_toDigits_hex {n : ℕ} {c : Char} (h : c ∈ Nat.toDigits 16 n) : ∃ d < 16, c = Nat.digitChar d := by
  induction n using Nat.strongRecOn with
  | ind n ih =>
    rcases Nat.lt_or_ge n 16 with hn | hn
    · rw [Nat.toDigits_of_lt_base hn, List.mem_singleton] at h
      exact ⟨n, hn, h⟩
    · rw [Nat.toDigits_of_base_le (by omega) hn, List.mem_append, List.mem_singleton] at h
      rcases h with h | h
      · exact ih _ (Nat.div_lt_self (by omega) (by omega)) h
      · exact ⟨n % 16, Nat.mod_lt _ (by omega), h⟩

/-- What is written in hexadecimal is read back. -/
theorem parseHex_hexText {bound n : ℕ} (hn : n < bound) : parseHex bound (hexText n) = some n := by
  have hparse : parseHexDigits bound (Nat.toDigits 16 n) = some n := by
    unfold parseHexDigits
    rw [hexDigits_toDigits, if_neg]
    · simp [Option.filter, hn]
    · simp
  unfold parseHex hexText
  rw [String.toList_ofList]
  split
  · rename_i cs heq
    have hplus : '+' ∈ Nat.toDigits 16 n := heq ▸ List.mem_cons_self ..
    obtain ⟨d, hd, hchar⟩ := mem_toDigits_hex hplus
    have hall : ∀ i : Fin 16, '+' ≠ Nat.digitChar i := by decide
    exact absurd hchar (hall ⟨d, hd⟩)
  · exact hparse

/-! ### Hexadecimal bytes -/

theorem hexPad_two (n : ℕ) : hexPad 2 n = [hexDigit (n / 16 % 16), hexDigit (n % 16)] := rfl

theorem hexDigit_inj {m n : ℕ} (hm : m < 16) (hn : n < 16) (h : hexDigit m = hexDigit n) : m = n := by
  have hall : ∀ i j : Fin 16, hexDigit i = hexDigit j → i = j := by decide
  exact Fin.mk.inj_iff.mp (hall ⟨m, hm⟩ ⟨n, hn⟩ h)

theorem length_hexPad (w n : ℕ) : (hexPad w n).length = w := by
  induction w generalizing n with
  | zero => rfl
  | succ w ih => rw [hexPad, List.length_append, ih, List.length_singleton]

theorem hexPad_inj {w m n : ℕ} (hm : m < 16 ^ w) (hn : n < 16 ^ w) (h : hexPad w m = hexPad w n) : m = n := by
  induction w generalizing m n with
  | zero => omega
  | succ w ih =>
    rw [pow_succ] at hm hn
    obtain ⟨hhigh, hlow⟩ := List.append_inj h (by rw [length_hexPad, length_hexPad])
    have hquot := ih (Nat.div_lt_of_lt_mul (Nat.mul_comm _ _ ▸ hm)) (Nat.div_lt_of_lt_mul (Nat.mul_comm _ _ ▸ hn)) hhigh
    have hrem := hexDigit_inj (Nat.mod_lt _ (by omega)) (Nat.mod_lt _ (by omega)) (List.singleton_inj.mp hlow)
    omega

/-- The first digits are those of the quotient. -/
theorem take_hexPad (w k n : ℕ) : (hexPad (w + k) n).take w = hexPad w (n / 16 ^ k) := by
  induction k generalizing n with
  | zero => rw [pow_zero, Nat.div_one, Nat.add_zero, List.take_of_length_le (length_hexPad w n).le]
  | succ k ih =>
    rw [← Nat.add_assoc, hexPad, List.take_append_of_le_length (by rw [length_hexPad]; omega), ih,
      Nat.div_div_eq_div_mul, pow_succ, Nat.mul_comm]

theorem not_mem_hexPad {c : Char} (hc : ∀ i : Fin 16, c ≠ hexDigit i) {w n : ℕ} : c ∉ hexPad w n := by
  induction w generalizing n with
  | zero => simp [hexPad]
  | succ w ih =>
    have hlast : c ≠ hexDigit (n % 16) := hc ⟨n % 16, Nat.mod_lt _ (by omega)⟩
    simpa [hexPad, hlast] using ih

theorem hexPad_ne_dot {w n : ℕ} : '.' ∉ hexPad w n := not_mem_hexPad (by decide)

theorem hexPad_two_inj {a b : UInt8} (h : hexPad 2 a.toNat = hexPad 2 b.toNat) : a = b := by
  rw [hexPad_two, hexPad_two, List.cons.injEq, List.cons.injEq] at h
  have hhigh := hexDigit_inj (Nat.mod_lt _ (by omega)) (Nat.mod_lt _ (by omega)) h.1
  have hlow := hexDigit_inj (Nat.mod_lt _ (by omega)) (Nat.mod_lt _ (by omega)) h.2.1
  have ha := a.toNat_lt
  have hb := b.toNat_lt
  apply UInt8.toNat_inj.mp
  omega

theorem hexBytes_injective : Function.Injective hexBytes := by
  intro as bs h
  replace h := congrArg String.toList h
  unfold hexBytes at h
  rw [String.toList_ofList, String.toList_ofList] at h
  induction as generalizing bs with
  | nil =>
    cases bs with
    | nil => rfl
    | cons b bs =>
      rw [List.flatMap_cons, hexPad_two] at h
      cases h
  | cons a as ih =>
    cases bs with
    | nil =>
      rw [List.flatMap_cons, hexPad_two] at h
      cases h
    | cons b bs =>
      rw [List.flatMap_cons, List.flatMap_cons] at h
      obtain ⟨hhead, htail⟩ := List.append_inj h rfl
      rw [hexPad_two_inj hhead, ih htail]

end Collocate.Text
