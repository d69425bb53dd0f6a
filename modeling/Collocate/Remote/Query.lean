import Collocate.Lib.Slicing
import Collocate.Lib.Text
import Collocate.Lib.Utf8

/-! # Queries (`collocate-remote/src/http.rs`)

`percent_encode` writes the bytes of a text, `percent_decode` reads them back by index, and `split_query` takes the
target of a request apart. -/
namespace Collocate.Remote
set_option autoImplicit false

/-! ## Coding -/

/-- The loop of `percent_decode` from an index on; an index or a slice out of range would end the program. -/
def percentDecodeFrom (bytes : List UInt8) (i : ℕ) : Option (List UInt8) :=
  if h : i < bytes.length then
    if bytes[i] = 0x2B then (percentDecodeFrom bytes (i + 1)).map (0x20 :: ·)
    else if bytes[i] = 0x25 ∧ i + 2 < bytes.length then
      match Slicing.slice bytes (i + 1) (i + 3) with
      | none => none
      | some pair => match Text.parseHex 256 ((Utf8.strict pair).getD "zz") with
        | some b => (percentDecodeFrom bytes (i + 3)).map (UInt8.ofNat b :: ·)
        | none => (percentDecodeFrom bytes (i + 1)).map (0x25 :: ·)
    else (percentDecodeFrom bytes (i + 1)).map (bytes[i] :: ·)
  else some []
termination_by bytes.length - i

def percentDecode (s : String) : Option String := (percentDecodeFrom s.toUTF8.data.toList 0).map Utf8.lossy

/-- A digit of `{:X}`. -/
def upperDigit (n : ℕ) : Char := (Text.hexDigit n).toUpper

def percentByte (b : UInt8) : List Char :=
  let c := Char.ofNat b.toNat
  if Text.isAlphanumeric c || ['-', '_', '.', '~'].contains c then [c]
  else ['%', upperDigit (b.toNat / 16), upperDigit (b.toNat % 16)]

def percentEncode (s : String) : String := String.ofList (s.toUTF8.data.toList.flatMap percentByte)

/-- One part of a query. -/
def decodePart (p : String) : Option (String × String) := do
  let (k, v) := (Text.splitOnce '=' p).getD (p, "")
  let k ← percentDecode k
  let v ← percentDecode v
  pure (k, v)

def splitQuery (target : String) : Option (String × List (String × String)) :=
  let (path, query) := (Text.splitOnce '?' target).getD (target, "")
  (((Text.split '&' query).filter fun p => !p.isEmpty).mapM decodePart).map fun pairs => (path, pairs)

/-! ## Totality -/

theorem map_total {α β : Type} {f : α → β} {o : Option α} (h : ∃ a, o = some a) : ∃ b, o.map f = some b := by
  obtain ⟨a, rfl⟩ := h
  exact ⟨f a, rfl⟩

theorem percentDecodeFrom_total (bytes : List UInt8) (i : ℕ) : ∃ out, percentDecodeFrom bytes i = some out := by
  fun_induction percentDecodeFrom bytes i with
  | case1 i hi hplus ih => exact map_total ih
  | case2 i hi hplus hpercent hslice =>
    -- The guard keeps the slice within the bytes.
    have hlen : i + 3 ≤ bytes.length := hpercent.2
    rw [Slicing.slice_eq_some (Nat.add_le_add_left (by decide) i) hlen] at hslice
    cases hslice
  | case3 i hi hplus hpercent pair hslice b hb ih => exact map_total ih
  | case4 i hi hplus hpercent pair hslice hb ih => exact map_total ih
  | case5 i hi hplus hpercent ih => exact map_total ih
  | case6 i hi => exact ⟨[], rfl⟩

theorem percentDecode_total (s : String) : ∃ t, percentDecode s = some t :=
  map_total (percentDecodeFrom_total s.toUTF8.data.toList 0)

/-! ## One byte -/

theorem hexVal_upperDigit {n : ℕ} (hn : n < 16) : Text.hexVal (upperDigit n) = some n := by
  have hall : ∀ n < 16, Text.hexVal (upperDigit n) = some n := by decide
  exact hall n hn

theorem upperDigit_plain {n : ℕ} (hn : n < 16) : Text.isAlphanumeric (upperDigit n) = true := by
  have hall : ∀ n < 16, Text.isAlphanumeric (upperDigit n) = true := by decide
  exact hall n hn

theorem parseHex_upperDigits (b : UInt8) :
    Text.parseHex 256 (String.ofList [upperDigit (b.toNat / 16), upperDigit (b.toNat % 16)]) = some b.toNat := by
  have hb := b.toNat_lt
  have hhigh := hexVal_upperDigit (n := b.toNat / 16) (by omega)
  have hlow := hexVal_upperDigit (n := b.toNat % 16) (by omega)
  have hplus : upperDigit (b.toNat / 16) ≠ '+' := by
    intro heq
    rw [heq] at hhigh
    cases hhigh
  have hdigits : Text.hexDigits [upperDigit (b.toNat / 16), upperDigit (b.toNat % 16)] 0 = some b.toNat := by
    simp only [Text.hexDigits, hhigh, hlow]
    congr 1
    omega
  unfold Text.parseHex
  rw [String.toList_ofList]
  split
  · rename_i cs heq
    exact absurd (List.cons.inj heq).1 hplus
  · have hlt : b.toNat < 256 := hb
    simp [Text.parseHexDigits, hdigits, hlt]

/-- The characters that a byte may be written with. -/
def Plain (c : Char) : Prop := Text.isAlphanumeric c = true ∨ c ∈ ['-', '_', '.', '~', '%']

theorem plain_percentByte {b : UInt8} {c : Char} (h : c ∈ percentByte b) : Plain c := by
  have hb := b.toNat_lt
  unfold percentByte at h
  dsimp only at h
  split at h
  · rename_i hkept
    obtain rfl := List.mem_singleton.mp h
    rw [Bool.or_eq_true, List.contains_iff_mem] at hkept
    exact hkept.imp id fun hmem => List.mem_append_left ['%'] hmem
  · rw [List.mem_cons, List.mem_cons, List.mem_singleton] at h
    obtain rfl | rfl | rfl := h
    · exact Or.inr (by decide)
    · exact Or.inl (upperDigit_plain (by omega))
    · exact Or.inl (upperDigit_plain (by omega))

theorem Plain.lt {c : Char} (h : Plain c) : c.toNat < 128 := by
  obtain hletter | hother := h
  · unfold Text.isAlphanumeric Text.isAlphabetic at hletter
    rw [Bool.or_eq_true, Bool.or_eq_true] at hletter
    obtain (hlower | hupper) | hdigit := hletter
    · have hle : c.toNat ≤ 122 := (of_decide_eq_true hlower).2
      omega
    · have hle : c.toNat ≤ 90 := (of_decide_eq_true hupper).2
      omega
    · have hle : c.toNat ≤ 57 := (of_decide_eq_true hdigit).2
      omega
  · have hall : (['-', '_', '.', '~', '%'].all fun d => decide (d.toNat < 128)) = true := by decide
    exact of_decide_eq_true (List.all_eq_true.mp hall c hother)

/-- The bytes that the characters of a byte are. -/
def percentBytes (b : UInt8) : List UInt8 := (percentByte b).map fun c => UInt8.ofNat c.toNat

theorem utf8_plain {cs : List Char} (h : ∀ c ∈ cs, c.toNat < 128) :
    cs.flatMap String.utf8EncodeChar = cs.map fun c => UInt8.ofNat c.toNat := by
  induction cs with
  | nil => rfl
  | cons c cs ih =>
    rw [List.flatMap_cons, Slicing.utf8EncodeChar_ascii (h c List.mem_cons_self),
      ih fun d hd => h d (List.mem_cons_of_mem _ hd), List.map_cons, List.singleton_append]

theorem percentEncode_bytes (s : String) :
    (percentEncode s).toUTF8.data.toList = s.toUTF8.data.toList.flatMap percentBytes := by
  have hplain : ∀ c ∈ s.toUTF8.data.toList.flatMap percentByte, c.toNat < 128 := by
    intro c hc
    obtain ⟨b, -, hb⟩ := List.mem_flatMap.mp hc
    exact (plain_percentByte hb).lt
  rw [Utf8.toUTF8_eq, percentEncode, String.toList_ofList, utf8_plain hplain, List.map_flatMap]
  rfl

/-- The digits of an escape. -/
def pairOf (b : UInt8) : List UInt8 :=
  (String.ofList [upperDigit (b.toNat / 16), upperDigit (b.toNat % 16)]).toUTF8.data.toList

theorem pairOf_parsed (b : UInt8) : Text.parseHex 256 ((Utf8.strict (pairOf b)).getD "zz") = some b.toNat := by
  rw [pairOf, Utf8.strict_toUTF8, Option.getD_some, parseHex_upperDigits]

theorem pairOf_eq (b : UInt8) : pairOf b =
    [UInt8.ofNat (upperDigit (b.toNat / 16)).toNat, UInt8.ofNat (upperDigit (b.toNat % 16)).toNat] := by
  have hb := b.toNat_lt
  have hplain : ∀ c ∈ [upperDigit (b.toNat / 16), upperDigit (b.toNat % 16)], c.toNat < 128 := by
    intro c hc
    rw [List.mem_cons, List.mem_singleton] at hc
    obtain rfl | rfl := hc
    · exact Plain.lt (Or.inl (upperDigit_plain (by omega)))
    · exact Plain.lt (Or.inl (upperDigit_plain (by omega)))
  rw [pairOf, Utf8.toUTF8_eq, String.toList_ofList, utf8_plain hplain]
  rfl

theorem toNat_ofByte (b : UInt8) : (Char.ofNat b.toNat).toNat = b.toNat := by
  have hvalid : b.toNat.isValidChar := Or.inl (Nat.lt_trans b.toNat_lt (by decide))
  unfold Char.ofNat
  rw [dif_pos hvalid]
  rfl

/-- A byte is kept, or written as an escape. -/
theorem percentBytes_cases (b : UInt8) :
    (percentBytes b = [b] ∧ b ≠ 0x2B ∧ b ≠ 0x25) ∨ percentBytes b = 0x25 :: pairOf b := by
  by_cases hkept :
      (Text.isAlphanumeric (Char.ofNat b.toNat) || ['-', '_', '.', '~'].contains (Char.ofNat b.toNat)) = true
  · have hbyte : percentByte b = [Char.ofNat b.toNat] := if_pos hkept
    refine Or.inl ⟨?_, ?_, ?_⟩
    · rw [percentBytes, hbyte, List.map_singleton, toNat_ofByte, UInt8.ofNat_toNat]
    · intro heq
      rw [heq] at hkept
      exact absurd hkept (by decide)
    · intro heq
      rw [heq] at hkept
      exact absurd hkept (by decide)
  · have hbyte : percentByte b = ['%', upperDigit (b.toNat / 16), upperDigit (b.toNat % 16)] := if_neg hkept
    exact Or.inr (by rw [percentBytes, hbyte, pairOf_eq]; rfl)

theorem percentDecodeFrom_other {front tail : List UInt8} {b : UInt8} (hplus : b ≠ 0x2B) (hpercent : b ≠ 0x25) :
    percentDecodeFrom (front ++ b :: tail) front.length =
      (percentDecodeFrom (front ++ b :: tail) (front.length + 1)).map (b :: ·) := by
  have hlt : front.length < (front ++ b :: tail).length := by
    rw [List.length_append, List.length_cons]
    omega
  have hget : (front ++ b :: tail)[front.length] = b := by simp
  conv_lhs => rw [percentDecodeFrom, dif_pos hlt]
  rw [hget, if_neg hplus, if_neg fun h => hpercent h.1]

theorem percentDecodeFrom_escape {front tail pair : List UInt8} {n : ℕ} (hlength : pair.length = 2)
    (hpair : Text.parseHex 256 ((Utf8.strict pair).getD "zz") = some n) :
    percentDecodeFrom (front ++ 0x25 :: (pair ++ tail)) front.length =
      (percentDecodeFrom (front ++ 0x25 :: (pair ++ tail)) (front.length + 3)).map (UInt8.ofNat n :: ·) := by
  have hlt : front.length < (front ++ 0x25 :: (pair ++ tail)).length := by
    rw [List.length_append, List.length_cons]
    omega
  have hget : (front ++ 0x25 :: (pair ++ tail))[front.length] = 0x25 := by simp
  have hroom : front.length + 2 < (front ++ 0x25 :: (pair ++ tail)).length := by
    rw [List.length_append, List.length_cons, List.length_append]
    omega
  have hslice : Slicing.slice (front ++ 0x25 :: (pair ++ tail)) (front.length + 1) (front.length + 3) = some pair :=
    @Slicing.slice_behind front pair tail 0x25 2 hlength
  have hplus : (0x25 : UInt8) ≠ 0x2B := by decide
  conv_lhs => rw [percentDecodeFrom, dif_pos hlt]
  rw [hget, if_neg hplus, if_pos ⟨rfl, hroom⟩, hslice]
  simp only [hpair]

/-- What stands for one byte is read as that byte. -/
theorem percentDecodeFrom_byte (front rest : List UInt8) (b : UInt8) :
    percentDecodeFrom (front ++ (percentBytes b ++ rest)) front.length =
      (percentDecodeFrom (front ++ (percentBytes b ++ rest))
        (front.length + (percentBytes b).length)).map (b :: ·) := by
  cases percentBytes_cases b with
  | inl hkept =>
    obtain ⟨heq, hplus, hpercent⟩ := hkept
    rw [heq]
    exact percentDecodeFrom_other hplus hpercent
  | inr hescaped =>
    have hlength : (pairOf b).length = 2 := by rw [pairOf_eq]; rfl
    have hone := @percentDecodeFrom_escape front rest (pairOf b) _ hlength (pairOf_parsed b)
    rw [UInt8.ofNat_toNat] at hone
    rw [hescaped, List.cons_append, List.length_cons, hlength]
    exact hone

theorem percentDecodeFrom_bytes (front bs rest : List UInt8) :
    percentDecodeFrom (front ++ (bs.flatMap percentBytes ++ rest)) front.length =
      (percentDecodeFrom (front ++ (bs.flatMap percentBytes ++ rest))
        (front.length + (bs.flatMap percentBytes).length)).map (bs ++ ·) := by
  induction bs generalizing front with
  | nil => simp
  | cons b bs ih =>
    have hrest := ih (front ++ percentBytes b)
    rw [List.flatMap_cons, List.append_assoc, percentDecodeFrom_byte]
    rw [List.append_assoc, List.length_append] at hrest
    rw [hrest, List.length_append, Nat.add_assoc, Option.map_map]
    rfl

theorem percentDecode_encode (s : String) : percentDecode (percentEncode s) = some s := by
  have hall := percentDecodeFrom_bytes [] s.toUTF8.data.toList []
  have hend : percentDecodeFrom (s.toUTF8.data.toList.flatMap percentBytes)
      (s.toUTF8.data.toList.flatMap percentBytes).length = some [] := by
    rw [percentDecodeFrom, dif_neg (Nat.lt_irrefl _)]
  rw [List.nil_append, List.append_nil, List.length_nil, Nat.zero_add, hend, Option.map_some, List.append_nil] at hall
  rw [percentDecode, percentEncode_bytes, hall, Option.map_some, Utf8.lossy_toUTF8]

/-! ## Targets -/

theorem not_mem_encode {c : Char} (hc : ¬Plain c) (s : String) : c ∉ (percentEncode s).toList := by
  rw [percentEncode, String.toList_ofList, List.mem_flatMap]
  intro hmem
  obtain ⟨b, -, hb⟩ := hmem
  exact hc (plain_percentByte hb)

theorem not_plain {c : Char} (hletter : Text.isAlphanumeric c = false) (hother : c ∉ ['-', '_', '.', '~', '%']) :
    ¬Plain c := by
  intro h
  cases h with
  | inl h =>
    rw [hletter] at h
    cases h
  | inr h => exact hother h

/-- A pair as the clients write it. -/
def pairText (p : String × String) : String := percentEncode p.1 ++ "=" ++ percentEncode p.2

def targetText (path : String) (pairs : List (String × String)) : String :=
  path ++ "?" ++ Text.joinWith "&" (pairs.map pairText)

theorem pairText_toList (p : String × String) :
    (pairText p).toList = (percentEncode p.1).toList ++ '=' :: (percentEncode p.2).toList := by
  rw [pairText, String.toList_append, String.toList_append, List.append_assoc]
  rfl

theorem pairText_undivided (p : String × String) : '&' ∉ (pairText p).toList := by
  have hplain : ¬Plain '&' := not_plain (by decide) (by decide)
  have hdiff : '&' ≠ '=' := by decide
  rw [pairText_toList, List.mem_append, List.mem_cons]
  intro h
  obtain h | h | h := h
  · exact not_mem_encode hplain p.1 h
  · exact hdiff h
  · exact not_mem_encode hplain p.2 h

theorem decodePart_pairText (p : String × String) : decodePart (pairText p) = some p := by
  have hplain : ¬Plain '=' := not_plain (by decide) (by decide)
  have hcut : Text.splitOnce '=' (pairText p) = some (percentEncode p.1, percentEncode p.2) :=
    Text.splitOnce_eq_some.mpr ⟨pairText_toList p, not_mem_encode hplain p.1⟩
  unfold decodePart
  rw [hcut]
  simp only [Option.getD_some, percentDecode_encode]
  rfl

theorem pairText_nonempty (p : String × String) : (!(pairText p).isEmpty) = true := by
  have hne : pairText p ≠ "" := by
    intro heq
    have hlist := congrArg String.toList heq
    rw [pairText_toList] at hlist
    exact List.append_ne_nil_of_right_ne_nil _ (List.cons_ne_nil _ _) hlist
  rw [Bool.not_eq_true', Bool.eq_false_iff, ne_eq, String.isEmpty_iff]
  exact hne

theorem parts_targetText (pairs : List (String × String)) :
    (Text.split '&' (Text.joinWith "&" (pairs.map pairText))).filter (fun p => !p.isEmpty) = pairs.map pairText := by
  cases pairs with
  | nil => decide
  | cons p pairs =>
    have hundivided : ∀ t ∈ (p :: pairs).map pairText, '&' ∉ t.toList := by
      intro t ht
      obtain ⟨q, -, rfl⟩ := List.mem_map.mp ht
      exact pairText_undivided q
    have hkept : ∀ t ∈ (p :: pairs).map pairText, (!t.isEmpty) = true := by
      intro t ht
      obtain ⟨q, -, rfl⟩ := List.mem_map.mp ht
      exact pairText_nonempty q
    rw [Text.split_joinWith rfl hundivided (List.cons_ne_nil _ _), List.filter_eq_self.mpr hkept]

theorem mapM_decodePart (pairs : List (String × String)) : (pairs.map pairText).mapM decodePart = some pairs := by
  induction pairs with
  | nil => rfl
  | cons p pairs ih =>
    rw [List.map_cons, List.mapM_cons, decodePart_pairText, ih]
    rfl

/-- Pairs of any text come back from a target, after any path without a question mark; and decoding always ends. -/
theorem query_round_trip :
    (∀ (path : String) (pairs : List (String × String)), '?' ∉ path.toList →
      splitQuery (targetText path pairs) = some (path, pairs)) ∧
    ∀ s : String, ∃ t, percentDecode s = some t := by
  refine ⟨fun path pairs hpath => ?_, percentDecode_total⟩
  have hcut : Text.splitOnce '?' (targetText path pairs) = some (path, Text.joinWith "&" (pairs.map pairText)) := by
    refine Text.splitOnce_eq_some.mpr ⟨?_, hpath⟩
    rw [targetText, String.toList_append, String.toList_append, List.append_assoc]
    rfl
  unfold splitQuery
  rw [hcut]
  simp only [Option.getD_some, parts_targetText, mapM_decodePart]
  rfl

/-- Delimiters in a value do not split a pair. -/
theorem delimiters_kept :
    splitQuery (targetText "/v1/logs" [("project", "a&b=c?"), ("q", "+ %é")]) =
      some ("/v1/logs", [("project", "a&b=c?"), ("q", "+ %é")]) :=
  query_round_trip.1 "/v1/logs" [("project", "a&b=c?"), ("q", "+ %é")] (by decide +kernel)

end Collocate.Remote
