import Mathlib.Data.List.Basic

/-! # Base64 with the standard alphabet and padding

Reading: four characters give three bytes, and the last four may be padded. Bits that padding cuts off must be zero,
so that every text that is read is the only one for its bytes. -/
namespace Collocate.Base64
set_option autoImplicit false

/-- The six bits a character stands for. -/
def value (c : Char) : Option ℕ :=
  if 'A' ≤ c ∧ c ≤ 'Z' then some (c.toNat - 'A'.toNat)
  else if 'a' ≤ c ∧ c ≤ 'z' then some (c.toNat - 'a'.toNat + 26)
  else if '0' ≤ c ∧ c ≤ '9' then some (c.toNat - '0'.toNat + 52)
  else if c = '+' then some 62
  else if c = '/' then some 63
  else none

/-- The bytes of four characters, which may be padded if they are the last ones. -/
def quantum (last : Bool) (a b c d : Char) : Option (List UInt8) :=
  match value a, value b with
  | some m, some n =>
    let first := UInt8.ofNat (m * 4 + n / 16)
    if last ∧ c = '=' ∧ d = '=' then if n % 16 = 0 then some [first] else none
    else match value c with
      | none => none
      | some o =>
        let second := UInt8.ofNat (n % 16 * 16 + o / 4)
        if last ∧ d = '=' then if o % 4 = 0 then some [first, second] else none
        else (value d).map fun p => [first, second, UInt8.ofNat (o % 4 * 64 + p)]
  | _, _ => none

def decode : List Char → Option (List UInt8)
  | [] => some []
  | a :: b :: c :: d :: rest =>
    match quantum rest.isEmpty a b c d, decode rest with
    | some bytes, some more => some (bytes ++ more)
    | _, _ => none
  | _ => none

example : decode "TWFuTWE=".toList = some [77, 97, 110, 77, 97] ∧ decode "TQ==".toList = some [77] ∧
    decode "TR==".toList = none := by
  decide +kernel

/-- The padding stands for no bits. -/
theorem ne_pad {c : Char} {n : ℕ} (h : value c = some n) : c ≠ '=' := by
  intro hc
  subst hc
  have hnone : value '=' = none := by decide
  rw [hnone] at h
  cases h

section Quantum
variable {a b c d : Char} {m n o p : ℕ}

theorem quantum_full (last : Bool) (ha : value a = some m) (hb : value b = some n) (hc : value c = some o)
    (hd : value d = some p) :
    quantum last a b c d =
      some [UInt8.ofNat (m * 4 + n / 16), UInt8.ofNat (n % 16 * 16 + o / 4), UInt8.ofNat (o % 4 * 64 + p)] := by
  have hc' := ne_pad hc
  have hd' := ne_pad hd
  simp [quantum, ha, hb, hc, hd, hc', hd']

theorem quantum_two (ha : value a = some m) (hb : value b = some n) (hc : value c = some o) (hrest : o % 4 = 0) :
    quantum true a b c '=' = some [UInt8.ofNat (m * 4 + n / 16), UInt8.ofNat (n % 16 * 16 + o / 4)] := by
  have hpad := ne_pad hc
  simp [quantum, ha, hb, hc, hpad, hrest]

theorem quantum_one (ha : value a = some m) (hb : value b = some n) (hrest : n % 16 = 0) :
    quantum true a b '=' '=' = some [UInt8.ofNat (m * 4 + n / 16)] := by
  simp [quantum, ha, hb, hrest]

end Quantum

theorem decode_quantum {a b c d : Char} {rest : List Char} {bytes more : List UInt8}
    (h : quantum rest.isEmpty a b c d = some bytes) (hrest : decode rest = some more) :
    decode (a :: b :: c :: d :: rest) = some (bytes ++ more) := by
  simp only [decode, h, hrest]

theorem decode_last {a b c d : Char} {bytes : List UInt8} (h : quantum true a b c d = some bytes) :
    decode [a, b, c, d] = some bytes := by
  have hall := @decode_quantum a b c d [] bytes [] h rfl
  rw [List.append_nil] at hall
  exact hall

end Collocate.Base64
