import Mathlib.Data.List.Basic

/-! # UTF-8 with replacement

`String::from_utf8_lossy` as a machine over the bytes. Between characters it expects a lead byte; inside one
it knows how many bytes are owed and what the next may be. What cannot be part of a character, up to the
byte that shows it, becomes one U+FFFD. -/
namespace Collocate.Utf8
set_option autoImplicit false

def replacement : Char := Char.ofNat 0xFFFD

/-- A character of which some bytes have been read: its code so far, how many bytes are owed after the next,
and between what the next must lie. -/
structure Partial where
  code : ℕ
  more : ℕ
  low : UInt8
  high : UInt8
  low_tail : 0x80 ≤ low
  high_tail : high ≤ 0xBF

/-- The first byte of a character. -/
def start (b : UInt8) : List Char × Option Partial :=
  if b < 0x80 then ([Char.ofNat b.toNat], none)
  else if b < 0xC2 then ([replacement], none)
  else if b < 0xE0 then ([], some ⟨b.toNat % 32, 0, 0x80, 0xBF, by decide, by decide⟩)
  else if b = 0xE0 then ([], some ⟨0, 1, 0xA0, 0xBF, by decide, by decide⟩)
  else if b = 0xED then ([], some ⟨13, 1, 0x80, 0x9F, by decide, by decide⟩)
  else if b < 0xF0 then ([], some ⟨b.toNat % 16, 1, 0x80, 0xBF, by decide, by decide⟩)
  else if b = 0xF0 then ([], some ⟨0, 2, 0x90, 0xBF, by decide, by decide⟩)
  else if b < 0xF4 then ([], some ⟨b.toNat % 8, 2, 0x80, 0xBF, by decide, by decide⟩)
  else if b = 0xF4 then ([], some ⟨4, 2, 0x80, 0x8F, by decide, by decide⟩)
  else ([replacement], none)

/-- Whether the byte goes on with the character. -/
def Partial.takes (p : Partial) (b : UInt8) : Bool := decide (p.low ≤ b ∧ b ≤ p.high)

def next : Option Partial → UInt8 → List Char × Option Partial
  | none, b => start b
  | some p, b =>
    if p.takes b then
      let code := p.code * 64 + b.toNat % 64
      match p.more with
      | 0 => ([Char.ofNat code], none)
      | more + 1 => ([], some ⟨code, more, 0x80, 0xBF, by decide, by decide⟩)
    else (replacement :: (start b).1, (start b).2)

def decode : Option Partial → List UInt8 → List Char × Option Partial
  | p, [] => ([], p)
  | p, b :: bytes => ((next p b).1 ++ (decode (next p b).2 bytes).1, (decode (next p b).2 bytes).2)

/-- What the end of the bytes makes of an unfinished character. -/
def finish : Option Partial → List Char
  | none => []
  | some _ => [replacement]

/-- The characters that the bytes give, from where the machine stands. -/
def text (p : Option Partial) (bytes : List UInt8) : List Char := (decode p bytes).1 ++ finish (decode p bytes).2

/-- `String::from_utf8_lossy`. -/
def lossy (bytes : List UInt8) : String := String.ofList (text none bytes)

-- A character, a sequence broken off by `A`, and a byte that is never part of one.
example : lossy [0xF0, 0x9F, 0x98, 0x80, 0xE2, 0x82, 0x41, 0xFF] = "😀\uFFFDA\uFFFD" := by decide

/-- `String::from_utf8`: the text whose bytes these are. -/
def strict (bytes : List UInt8) : Option String :=
  if (lossy bytes).toUTF8.data.toList = bytes then some (lossy bytes) else none

example : strict [0xEF, 0xBF, 0xBD, 0x41] = some "\uFFFDA" ∧ strict [0xE2, 0x82, 0x41] = none := by decide +kernel

/-- The bytes of a text of ASCII characters. -/
def ascii (text : String) : List UInt8 := text.toList.map fun c => UInt8.ofNat c.toNat

/-- The border between two parts lies inside a character: the second goes on with what the first left unfinished. -/
def splits (first second : List UInt8) : Bool :=
  match (decode none first).2, second with
  | some p, b :: _ => p.takes b
  | _, _ => false

/-! ## Parts -/

theorem decode_append (p : Option Partial) (first second : List UInt8) :
    decode p (first ++ second) =
      ((decode p first).1 ++ (decode (decode p first).2 second).1, (decode (decode p first).2 second).2) := by
  induction first generalizing p with
  | nil => rfl
  | cons b first ih => simp only [List.cons_append, decode, ih, List.append_assoc]

theorem text_cons (p : Option Partial) (b : UInt8) (bytes : List UInt8) :
    text p (b :: bytes) = (next p b).1 ++ text (next p b).2 bytes := by
  simp only [text, decode, List.append_assoc]

theorem text_append (p : Option Partial) (first second : List UInt8) :
    text p (first ++ second) = (decode p first).1 ++ text (decode p first).2 second := by
  simp only [text, decode_append, List.append_assoc]

/-- A byte that goes on with a character begins none. -/
theorem start_tail {p : Partial} {b : UInt8} (h : p.takes b = true) : start b = ([replacement], none) := by
  obtain ⟨hlow, hhigh⟩ := of_decide_eq_true h
  have hge : ¬b < 0x80 := UInt8.not_lt.mpr (UInt8.le_trans p.low_tail hlow)
  have hlt : b < 0xC2 := UInt8.lt_of_le_of_lt (UInt8.le_trans hhigh p.high_tail) (by decide)
  rw [start, if_neg hge, if_pos hlt]

/-- An unfinished character that the bytes do not go on with is replaced, and they are read from the start. -/
theorem text_abandoned {p : Partial} {bytes : List UInt8} (h : ∀ b, bytes.head? = some b → p.takes b = false) :
    text (some p) bytes = replacement :: text none bytes := by
  cases bytes with
  | nil => rfl
  | cons b bytes =>
    have hb := h b rfl
    have hnext : next (some p) b = (replacement :: (start b).1, (start b).2) := if_neg (by simp [hb])
    rw [text_cons, text_cons, hnext]
    rfl

theorem text_append_of_not_splits {first second : List UInt8} (h : splits first second = false) :
    text none (first ++ second) = text none first ++ text none second := by
  have hfirst : text none first = (decode none first).1 ++ finish (decode none first).2 := rfl
  rw [text_append, hfirst, List.append_assoc]
  congr 1
  unfold splits at h
  cases hp : (decode none first).2 with
  | none => rfl
  | some p =>
    rw [hp] at h
    apply text_abandoned
    intro b hb
    cases second with
    | nil => cases hb
    | cons c second =>
      cases hb
      exact h

theorem lossy_append_of_not_splits {first second : List UInt8} (h : splits first second = false) :
    lossy (first ++ second) = lossy first ++ lossy second := by
  rw [lossy, text_append_of_not_splits h, String.ofList_append]
  rfl

/-- Reading on with an unfinished character gives at most one character more than reading from the start. -/
theorem length_text_le (p : Option Partial) (bytes : List UInt8) :
    (text p bytes).length ≤ 1 + (text none bytes).length := by
  induction bytes generalizing p with
  | nil => cases p <;> simp [text, decode, finish]
  | cons b bytes ih =>
    cases p with
    | none => omega
    | some p =>
      by_cases hb : p.takes b = true
      · have hstart : (text none (b :: bytes)).length = 1 + (text none bytes).length := by
          rw [text_cons, next, start_tail hb, List.length_append]
          rfl
        rw [hstart, text_cons, next, if_pos hb]
        cases hmore : p.more with
        | zero => simp only [List.length_append, List.length_singleton]; omega
        | succ more =>
          have := ih (some ⟨p.code * 64 + b.toNat % 64, more, 0x80, 0xBF, by decide, by decide⟩)
          simp only [List.nil_append]
          omega
      · rw [text_abandoned fun c hc => by cases hc; exact Bool.eq_false_iff.mpr hb, List.length_cons]
        omega

/-- A character read across the border takes fewer characters than its two parts. -/
theorem length_text_append_lt {first second : List UInt8} (h : splits first second = true) :
    (text none (first ++ second)).length < (text none first).length + (text none second).length := by
  unfold splits at h
  cases hp : (decode none first).2 with
  | none => simp [hp] at h
  | some p =>
    cases second with
    | nil => simp [hp] at h
    | cons b bytes =>
      rw [hp] at h
      have hstart : (text none (b :: bytes)).length = 1 + (text none bytes).length := by
        rw [text_cons, next, start_tail h, List.length_append]
        rfl
      have hfirst : (text none first).length = (decode none first).1.length + 1 := by
        rw [text, hp, List.length_append]
        rfl
      have hsecond : (text (some p) (b :: bytes)).length ≤ 1 + (text none bytes).length := by
        rw [text_cons, next, if_pos h]
        cases hmore : p.more with
        | zero => simp only [List.length_append, List.length_singleton]; omega
        | succ more => exact length_text_le _ _
      rw [text_append, hp, List.length_append]
      omega

theorem length_text_append_le (first second : List UInt8) :
    (text none (first ++ second)).length ≤ (text none first).length + (text none second).length := by
  cases h : splits first second with
  | true => exact Nat.le_of_lt (length_text_append_lt h)
  | false =>
    have hlength := congrArg List.length (text_append_of_not_splits h)
    rw [List.length_append] at hlength
    exact Nat.le_of_eq hlength

/-! ## ASCII -/

theorem start_ascii {c : Char} (h : c.toNat < 128) : start (UInt8.ofNat c.toNat) = ([c], none) := by
  have hlt : UInt8.ofNat c.toNat < 0x80 := by
    rw [UInt8.lt_iff_toNat_lt, UInt8.toNat_ofNat']
    exact Nat.lt_of_le_of_lt (Nat.mod_le _ _) h
  have hnat : (UInt8.ofNat c.toNat).toNat = c.toNat := by
    rw [UInt8.toNat_ofNat']
    omega
  rw [start, if_pos hlt, hnat, Char.ofNat_toNat]

theorem text_ascii {cs : List Char} (h : ∀ c ∈ cs, c.toNat < 128) :
    text none (cs.map fun c => UInt8.ofNat c.toNat) = cs := by
  induction cs with
  | nil => rfl
  | cons c cs ih =>
    rw [List.map_cons, text_cons, next, start_ascii (h c (List.mem_cons_self ..)),
      ih fun d hd => h d (List.mem_cons_of_mem _ hd)]
    rfl

theorem lossy_ascii {s : String} (h : ∀ c ∈ s.toList, c.toNat < 128) : lossy (ascii s) = s := by
  rw [lossy, ascii, text_ascii h, String.ofList_toList]

/-! ## Encoded characters -/

theorem toNat_byte {n : ℕ} (h : n < 256) : (UInt8.ofNat n).toNat = n := by
  rw [UInt8.toNat_ofNat', Nat.mod_eq_of_lt h]

theorem byte_lt {n : ℕ} (hn : n < 256) (b : UInt8) : UInt8.ofNat n < b ↔ n < b.toNat := by
  rw [UInt8.lt_iff_toNat_lt, toNat_byte hn]

theorem byte_eq {n : ℕ} (hn : n < 256) (b : UInt8) : UInt8.ofNat n = b ↔ n = b.toNat := by
  rw [← UInt8.toNat_inj, toNat_byte hn]

/-- A byte within the bounds goes on with the character. -/
theorem next_tail {p : Partial} {n : ℕ} (hn : n < 256) (hlow : p.low.toNat ≤ n) (hhigh : n ≤ p.high.toNat) :
    (p.more = 0 → next (some p) (UInt8.ofNat n) = ([Char.ofNat (p.code * 64 + n % 64)], none)) ∧
      ∀ more, p.more = more + 1 → ∃ q, next (some p) (UInt8.ofNat n) = ([], some q) ∧
        q.code = p.code * 64 + n % 64 ∧ q.more = more ∧ q.low.toNat = 0x80 ∧ q.high.toNat = 0xBF := by
  have htakes : p.takes (UInt8.ofNat n) = true := by
    unfold Partial.takes
    rw [decide_eq_true_eq, UInt8.le_iff_toNat_le, UInt8.le_iff_toNat_le, toNat_byte hn]
    exact ⟨hlow, hhigh⟩
  rw [next, if_pos htakes, toNat_byte hn]
  constructor
  · intro hmore
    simp only [hmore]
  · intro more hmore
    simp only [hmore]
    exact ⟨_, rfl, rfl, rfl, rfl, rfl⟩

theorem next_none (b : UInt8) : next none b = start b := rfl

theorem start_two {n : ℕ} (hlow : 0xC2 ≤ n) (hhigh : n < 0xE0) : ∃ p, start (UInt8.ofNat n) = ([], some p) ∧
    p.code = n % 32 ∧ p.more = 0 ∧ p.low.toNat = 0x80 ∧ p.high.toNat = 0xBF := by
  have hn : n < 256 := by omega
  have h80 : ¬n < (0x80 : UInt8).toNat := Nat.not_lt.mpr (Nat.le_trans (by decide) hlow)
  have hC2 : ¬n < (0xC2 : UInt8).toNat := Nat.not_lt.mpr hlow
  have hE0 : n < (0xE0 : UInt8).toNat := hhigh
  unfold start
  simp only [byte_lt hn, toNat_byte hn]
  rw [if_neg h80, if_neg hC2, if_pos hE0]
  exact ⟨_, rfl, rfl, rfl, rfl, rfl⟩

theorem start_three {n : ℕ} (hlow : 0xE0 ≤ n) (hhigh : n < 0xF0) : ∃ p, start (UInt8.ofNat n) = ([], some p) ∧
    p.code = n % 16 ∧ p.more = 1 ∧ p.low.toNat = (if n = 0xE0 then 0xA0 else 0x80) ∧
      p.high.toNat = if n = 0xED then 0x9F else 0xBF := by
  have hn : n < 256 := by omega
  have h80 : ¬n < (0x80 : UInt8).toNat := Nat.not_lt.mpr (Nat.le_trans (by decide) hlow)
  have hC2 : ¬n < (0xC2 : UInt8).toNat := Nat.not_lt.mpr (Nat.le_trans (by decide) hlow)
  have hE0 : ¬n < (0xE0 : UInt8).toNat := Nat.not_lt.mpr hlow
  have hF0 : n < (0xF0 : UInt8).toNat := hhigh
  unfold start
  simp only [byte_lt hn, byte_eq hn, toNat_byte hn]
  rw [if_neg h80, if_neg hC2, if_neg hE0]
  by_cases hfirst : n = 0xE0
  · subst hfirst
    exact ⟨_, rfl, rfl, rfl, rfl, rfl⟩
  · by_cases hsurrogate : n = 0xED
    · subst hsurrogate
      exact ⟨_, rfl, rfl, rfl, rfl, rfl⟩
    · have hnfirst : ¬n = (0xE0 : UInt8).toNat := hfirst
      have hnsurrogate : ¬n = (0xED : UInt8).toNat := hsurrogate
      rw [if_neg hnfirst, if_neg hnsurrogate, if_pos hF0, if_neg hfirst, if_neg hsurrogate]
      exact ⟨_, rfl, rfl, rfl, rfl, rfl⟩

theorem start_four {n : ℕ} (hlow : 0xF0 ≤ n) (hhigh : n ≤ 0xF4) : ∃ p, start (UInt8.ofNat n) = ([], some p) ∧
    p.code = n % 8 ∧ p.more = 2 ∧ p.low.toNat = (if n = 0xF0 then 0x90 else 0x80) ∧
      p.high.toNat = if n = 0xF4 then 0x8F else 0xBF := by
  have hcases : n = 0xF0 ∨ n = 0xF1 ∨ n = 0xF2 ∨ n = 0xF3 ∨ n = 0xF4 := by omega
  rcases hcases with rfl | rfl | rfl | rfl | rfl <;> exact ⟨_, rfl, rfl, rfl, rfl, rfl⟩

/-- The bytes of a character are read as that character. -/
theorem text_char (c : Char) (rest : List UInt8) :
    text none (String.utf8EncodeChar c ++ rest) = c :: text none rest := by
  have hvalid : c.val.toNat < 0xD800 ∨ 0xDFFF < c.val.toNat ∧ c.val.toNat < 0x110000 := c.valid
  have hchar {k : ℕ} (hk : k = c.val.toNat) : Char.ofNat k = c := by rw [hk]; exact Char.ofNat_toNat c
  unfold String.utf8EncodeChar
  dsimp only
  split
  · rename_i h
    have hstart : next none (UInt8.ofNat c.val.toNat) = ([c], none) := start_ascii (Nat.lt_succ_of_le h)
    rw [List.singleton_append, text_cons, hstart]
    rfl
  split
  · rename_i hone htwo
    obtain ⟨p, hstart, hcode, hmore, hlow, hhigh⟩ :=
      start_two (n := c.val.toNat / 64 % 32 + 192) (by omega) (by omega)
    have hlast := (next_tail (p := p) (n := c.val.toNat % 64 + 128) (by omega) (by omega) (by omega)).1 hmore
    rw [hchar (by omega)] at hlast
    simp only [List.cons_append, List.nil_append, text_cons, next_none, hstart, hlast]
  split
  · rename_i hone htwo hthree
    obtain ⟨p, hstart, hcode, hmore, hlow, hhigh⟩ :=
      start_three (n := c.val.toNat / 4096 % 16 + 224) (by omega) (by omega)
    obtain ⟨q, hq, hqcode, hqmore, hqlow, hqhigh⟩ :=
      (next_tail (p := p) (n := c.val.toNat / 64 % 64 + 128) (by omega) (by rw [hlow]; split <;> omega)
        (by rw [hhigh]; split <;> omega)).2 0 hmore
    have hlast := (next_tail (p := q) (n := c.val.toNat % 64 + 128) (by omega) (by omega) (by omega)).1 hqmore
    rw [hchar (by omega)] at hlast
    simp only [List.cons_append, List.nil_append, text_cons, next_none, hstart, hq, hlast]
  · rename_i hone htwo hthree
    obtain ⟨p, hstart, hcode, hmore, hlow, hhigh⟩ :=
      start_four (n := c.val.toNat / 262144 % 8 + 240) (by omega) (by omega)
    obtain ⟨q, hq, hqcode, hqmore, hqlow, hqhigh⟩ :=
      (next_tail (p := p) (n := c.val.toNat / 4096 % 64 + 128) (by omega) (by rw [hlow]; split <;> omega)
        (by rw [hhigh]; split <;> omega)).2 1 hmore
    obtain ⟨r, hr, hrcode, hrmore, hrlow, hrhigh⟩ :=
      (next_tail (p := q) (n := c.val.toNat / 64 % 64 + 128) (by omega) (by omega) (by omega)).2 0 hqmore
    have hlast := (next_tail (p := r) (n := c.val.toNat % 64 + 128) (by omega) (by omega) (by omega)).1 hrmore
    rw [hchar (by omega)] at hlast
    simp only [List.cons_append, List.nil_append, text_cons, next_none, hstart, hq, hr, hlast]

theorem text_encoded (cs : List Char) : text none (cs.flatMap String.utf8EncodeChar) = cs := by
  induction cs with
  | nil => rfl
  | cons c cs ih => rw [List.flatMap_cons, text_char, ih]

theorem toUTF8_eq (s : String) : s.toUTF8.data.toList = s.toList.flatMap String.utf8EncodeChar := by
  have hs : s.toUTF8 = s.toList.utf8Encode := by
    conv_lhs => rw [← String.ofList_toList (s := s)]
    exact String.toByteArray_ofList
  rw [hs, List.utf8Encode, List.toList_data_toByteArray]

theorem lossy_toUTF8 (s : String) : lossy s.toUTF8.data.toList = s := by
  rw [toUTF8_eq, lossy, text_encoded, String.ofList_toList]

theorem strict_toUTF8 (s : String) : strict s.toUTF8.data.toList = some s := by
  unfold strict
  rw [lossy_toUTF8, if_pos rfl]

end Collocate.Utf8
