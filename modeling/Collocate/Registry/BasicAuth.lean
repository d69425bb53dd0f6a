import Collocate.Lib.Base64
import Collocate.Registry.Client

/-! # Credentials in a header (`collocate-registry/src/client.rs`)

What `base64` writes is read back by a decoder of the standard alphabet. -/
namespace Collocate.Registry
set_option autoImplicit false

/-! ## Digits -/

theorem value_b64Digit {n : ℕ} (hn : n < 64) : Base64.value (b64Digit n) = some n := by
  have hall : ∀ n < 64, Base64.value (b64Digit n) = some n := by decide +kernel
  exact hall n hn

theorem b64Digit_ne_pad {n : ℕ} (hn : n < 64) : b64Digit n ≠ '=' := Base64.ne_pad (value_b64Digit hn)

theorem ofNat_eq {b : UInt8} {n : ℕ} (h : n = b.toNat) : UInt8.ofNat n = b := by
  rw [h, UInt8.ofNat_toNat]

/-! ## Groups of three bytes -/

theorem decode_base64Chars (input : List UInt8) : Base64.decode (base64Chars input) = some input := by
  fun_induction base64Chars input with
  | case1 => rfl
  | case2 b0 =>
    have h0 := b0.toNat_lt
    have hq := Base64.quantum_one (value_b64Digit (n := b0.toNat / 4) (by omega))
      (value_b64Digit (n := b0.toNat % 4 * 16) (by omega)) (by omega)
    rw [ofNat_eq (b := b0) (by omega)] at hq
    exact Base64.decode_last hq
  | case3 b0 b1 =>
    have h0 := b0.toNat_lt
    have h1 := b1.toNat_lt
    have hq := Base64.quantum_two (value_b64Digit (n := b0.toNat / 4) (by omega))
      (value_b64Digit (n := b0.toNat % 4 * 16 + b1.toNat / 16) (by omega))
      (value_b64Digit (n := b1.toNat % 16 * 4) (by omega)) (by omega)
    rw [ofNat_eq (b := b0) (by omega), ofNat_eq (b := b1) (by omega)] at hq
    exact Base64.decode_last hq
  | case4 b0 b1 b2 rest ih =>
    have h0 := b0.toNat_lt
    have h1 := b1.toNat_lt
    have h2 := b2.toNat_lt
    have hq := Base64.quantum_full (base64Chars rest).isEmpty
      (value_b64Digit (n := b0.toNat / 4) (by omega))
      (value_b64Digit (n := b0.toNat % 4 * 16 + b1.toNat / 16) (by omega))
      (value_b64Digit (n := b1.toNat % 16 * 4 + b2.toNat / 64) (by omega))
      (value_b64Digit (n := b2.toNat % 64) (by omega))
    rw [ofNat_eq (b := b0) (by omega), ofNat_eq (b := b1) (by omega), ofNat_eq (b := b2) (by omega)] at hq
    exact Base64.decode_quantum hq ih

theorem length_base64Chars (input : List UInt8) : (base64Chars input).length = 4 * ((input.length + 2) / 3) := by
  fun_induction base64Chars input with
  | case1 => rfl
  | case2 b0 => simp
  | case3 b0 b1 => simp
  | case4 b0 b1 b2 rest ih =>
    simp only [List.length_cons, ih]
    omega

/-- Padding stands at the end, and there are two characters of it at most. -/
theorem base64Chars_padded (input : List UInt8) :
    ∃ body, ∃ k ≤ 2, base64Chars input = body ++ List.replicate k '=' ∧ '=' ∉ body := by
  fun_induction base64Chars input with
  | case1 => exact ⟨[], 0, Nat.zero_le 2, rfl, List.not_mem_nil⟩
  | case2 b0 =>
    have h0 := b0.toNat_lt
    have hfirst := b64Digit_ne_pad (n := b0.toNat / 4) (by omega)
    have hsecond := b64Digit_ne_pad (n := b0.toNat % 4 * 16) (by omega)
    exact ⟨[_, _], 2, Nat.le_refl 2, rfl, by simp [hfirst.symm, hsecond.symm]⟩
  | case3 b0 b1 =>
    have h0 := b0.toNat_lt
    have h1 := b1.toNat_lt
    have hfirst := b64Digit_ne_pad (n := b0.toNat / 4) (by omega)
    have hsecond := b64Digit_ne_pad (n := b0.toNat % 4 * 16 + b1.toNat / 16) (by omega)
    have hthird := b64Digit_ne_pad (n := b1.toNat % 16 * 4) (by omega)
    exact ⟨[_, _, _], 1, Nat.le_succ 1, rfl, by simp [hfirst.symm, hsecond.symm, hthird.symm]⟩
  | case4 b0 b1 b2 rest ih =>
    obtain ⟨body, k, hk, heq, hbody⟩ := ih
    have h0 := b0.toNat_lt
    have h1 := b1.toNat_lt
    have h2 := b2.toNat_lt
    have hfirst := b64Digit_ne_pad (n := b0.toNat / 4) (by omega)
    have hsecond := b64Digit_ne_pad (n := b0.toNat % 4 * 16 + b1.toNat / 16) (by omega)
    have hthird := b64Digit_ne_pad (n := b1.toNat % 16 * 4 + b2.toNat / 64) (by omega)
    have hfourth := b64Digit_ne_pad (n := b2.toNat % 64) (by omega)
    rw [heq]
    exact ⟨_ :: _ :: _ :: _ :: body, k, hk, rfl,
      by simp [hfirst.symm, hsecond.symm, hthird.symm, hfourth.symm, hbody]⟩

/-- The encoder is correct, and so is what `basic_auth` makes of any user and password. -/
theorem base64_correct :
    (∀ input : List UInt8, Base64.decode (base64 input).toList = some input ∧
      (base64 input).toList.length = 4 * ((input.length + 2) / 3) ∧
      ∃ body, ∃ k ≤ 2, (base64 input).toList = body ++ List.replicate k '=' ∧ '=' ∉ body) ∧
    ∀ user pass : String, ∃ encoded : String, basicAuth user pass = "Basic " ++ encoded ∧
      Base64.decode encoded.toList = some (user ++ ":" ++ pass).toUTF8.data.toList := by
  have hchars (input : List UInt8) : (base64 input).toList = base64Chars input := String.toList_ofList
  constructor
  · intro input
    rw [hchars]
    exact ⟨decode_base64Chars input, length_base64Chars input, base64Chars_padded input⟩
  · intro user pass
    refine ⟨base64 (user ++ ":" ++ pass).toUTF8.data.toList, rfl, ?_⟩
    rw [hchars, decode_base64Chars]

end Collocate.Registry
