import Collocate.Lib.Utf8

/-! # Slices that may be out of range

A slice of bytes must lie within them, and a slice of text must moreover begin and end where a character does: the
bytes of the text are looked at, as `is_char_boundary` does. `none` is the end of the program. -/
namespace Collocate.Slicing
set_option autoImplicit false

/-- `&bytes[start..stop]`. -/
def slice (bytes : List UInt8) (start stop : ℕ) : Option (List UInt8) :=
  if start ≤ stop ∧ stop ≤ bytes.length then some ((bytes.drop start).take (stop - start)) else none

/-- A byte inside a character, after its first. -/
def continues (b : UInt8) : Bool := decide (0x80 ≤ b ∧ b < 0xC0)

def isCharBoundary (bytes : List UInt8) (i : ℕ) : Bool :=
  i == 0 || i == bytes.length || (bytes[i]?.map fun b => !continues b).getD false

/-- `&text[start..stop]`, on the bytes of the text. -/
def strSlice (bytes : List UInt8) (start stop : ℕ) : Option (List UInt8) :=
  if isCharBoundary bytes start ∧ isCharBoundary bytes stop then slice bytes start stop else none

theorem slice_eq_some {bytes : List UInt8} {start stop : ℕ} (hle : start ≤ stop) (hlen : stop ≤ bytes.length) :
    slice bytes start stop = some ((bytes.drop start).take (stop - start)) := if_pos ⟨hle, hlen⟩

theorem slice_append (front mid rest : List UInt8) :
    slice (front ++ (mid ++ rest)) front.length (front.length + mid.length) = some mid := by
  have hlen : front.length + mid.length ≤ (front ++ (mid ++ rest)).length := by
    rw [List.length_append, List.length_append]
    omega
  rw [slice_eq_some (Nat.le_add_right _ _) hlen, List.drop_left, Nat.add_sub_cancel_left, List.take_left]

/-- The piece behind one more byte. -/
theorem slice_behind {front piece tail : List UInt8} {b : UInt8} {k : ℕ} (hlength : piece.length = k) :
    slice (front ++ b :: (piece ++ tail)) (front.length + 1) (front.length + 1 + k) = some piece := by
  have hmid := slice_append (front ++ [b]) piece tail
  rw [List.length_append, List.length_singleton, hlength, List.append_assoc] at hmid
  exact hmid

theorem strSlice_of_boundary {bytes : List UInt8} {start stop : ℕ} (hstart : isCharBoundary bytes start = true)
    (hstop : isCharBoundary bytes stop = true) : strSlice bytes start stop = slice bytes start stop :=
  if_pos ⟨hstart, hstop⟩

theorem strSlice_eq_some {bytes part : List UInt8} {start stop : ℕ} (h : strSlice bytes start stop = some part) :
    isCharBoundary bytes stop = true ∧ part = (bytes.drop start).take (stop - start) := by
  unfold strSlice slice at h
  split at h
  · rename_i hboundary
    split at h
    · exact ⟨hboundary.2, (Option.some.inj h).symm⟩
    · cases h
  · cases h

/-! ## Where the characters of a text begin -/

theorem utf8EncodeChar_ascii {c : Char} (h : c.toNat < 128) : String.utf8EncodeChar c = [UInt8.ofNat c.toNat] := by
  have hle : c.val.toNat ≤ 127 := Nat.le_of_lt_succ h
  unfold String.utf8EncodeChar
  exact if_pos hle

/-- A character beyond ASCII has no byte below 128, and its first byte begins it. -/
theorem utf8EncodeChar_wide {c : Char} (h : ¬c.toNat < 128) :
    ∃ b tail, String.utf8EncodeChar c = b :: tail ∧ continues b = false ∧ ∀ d ∈ b :: tail, 128 ≤ d.toNat := by
  have hwide : ¬c.val.toNat ≤ 127 := fun hle => h (Nat.lt_succ_of_le hle)
  have hlead {n : ℕ} (hlow : 0xC0 ≤ n) (hn : n < 256) : continues (UInt8.ofNat n) = false := by
    unfold continues
    rw [decide_eq_false_iff_not, Utf8.byte_lt hn]
    exact fun hcont => absurd hcont.2 (Nat.not_lt.mpr hlow)
  have hbyte {n : ℕ} (hlow : 128 ≤ n) (hn : n < 256) : 128 ≤ (UInt8.ofNat n).toNat := by
    rw [Utf8.toNat_byte hn]
    exact hlow
  unfold String.utf8EncodeChar
  dsimp only
  rw [if_neg hwide]
  split
  · refine ⟨_, _, rfl, hlead (by omega) (by omega), ?_⟩
    simp only [List.forall_mem_cons, List.not_mem_nil, false_implies, implies_true, and_true]
    exact ⟨hbyte (by omega) (by omega), hbyte (by omega) (by omega)⟩
  split
  · refine ⟨_, _, rfl, hlead (by omega) (by omega), ?_⟩
    simp only [List.forall_mem_cons, List.not_mem_nil, false_implies, implies_true, and_true]
    exact ⟨hbyte (by omega) (by omega), hbyte (by omega) (by omega), hbyte (by omega) (by omega)⟩
  · refine ⟨_, _, rfl, hlead (by omega) (by omega), ?_⟩
    simp only [List.forall_mem_cons, List.not_mem_nil, false_implies, implies_true, and_true]
    exact ⟨hbyte (by omega) (by omega), hbyte (by omega) (by omega), hbyte (by omega) (by omega),
      hbyte (by omega) (by omega)⟩

theorem continues_ascii {b : UInt8} (h : b.toNat < 128) : continues b = false := by
  unfold continues
  rw [decide_eq_false_iff_not, UInt8.le_iff_toNat_le]
  exact fun hcont => absurd hcont.1 (Nat.not_le.mpr h)

/-- The bytes of a text begin with the first byte of a character. -/
theorem bytes_head {cs : List Char} {b : UInt8} {tail : List UInt8}
    (h : cs.flatMap String.utf8EncodeChar = b :: tail) : continues b = false := by
  cases cs with
  | nil => cases h
  | cons c cs =>
    rw [List.flatMap_cons] at h
    by_cases hc : c.toNat < 128
    · rw [utf8EncodeChar_ascii hc, List.singleton_append] at h
      rw [← (List.cons.inj h).1]
      exact continues_ascii (by rw [Utf8.toNat_byte (Nat.lt_trans hc (by decide))]; exact hc)
    · obtain ⟨first, rest, heq, hfirst, -⟩ := utf8EncodeChar_wide hc
      rw [heq, List.cons_append] at h
      rw [← (List.cons.inj h).1]
      exact hfirst

theorem isCharBoundary_append (front : List UInt8) (cs : List Char) :
    isCharBoundary (front ++ cs.flatMap String.utf8EncodeChar) front.length = true := by
  unfold isCharBoundary
  cases hcs : cs.flatMap String.utf8EncodeChar with
  | nil => simp
  | cons b tail => simp [bytes_head hcs]

/-- After an ASCII byte of a text a character begins, or the text ends. -/
theorem isCharBoundary_succ (cs : List Char) (front : List UInt8) {i : ℕ} {b : UInt8}
    (hget : (front ++ cs.flatMap String.utf8EncodeChar)[i]? = some b) (hi : front.length ≤ i) (hb : b.toNat < 128) :
    isCharBoundary (front ++ cs.flatMap String.utf8EncodeChar) (i + 1) = true := by
  induction cs generalizing front with
  | nil =>
    rw [List.flatMap_nil, List.append_nil, List.getElem?_eq_none hi] at hget
    cases hget
  | cons c cs ih =>
    rw [List.flatMap_cons, ← List.append_assoc] at hget ⊢
    by_cases hlast : (front ++ String.utf8EncodeChar c).length ≤ i
    · exact ih _ hget hlast
    · rw [List.length_append] at hlast
      rw [List.getElem?_append_left (by rw [List.length_append]; omega), List.getElem?_append_right hi] at hget
      by_cases hc : c.toNat < 128
      · rw [utf8EncodeChar_ascii hc] at hlast ⊢
        rw [List.length_singleton] at hlast
        have hend : i + 1 = (front ++ [UInt8.ofNat c.toNat]).length := by
          rw [List.length_append, List.length_singleton]
          omega
        rw [hend]
        exact isCharBoundary_append _ cs
      · obtain ⟨first, rest, heq, -, hall⟩ := utf8EncodeChar_wide hc
        rw [heq] at hget
        exact absurd hb (Nat.not_lt.mpr (hall b (List.mem_of_getElem? hget)))

end Collocate.Slicing
