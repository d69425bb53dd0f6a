import Mathlib.Data.UInt

/-! # Saturating and bounded arithmetic on machine integers

The operations on `u32` and `u64` that Rust has and Lean does not, and what they are as natural
numbers. -/
namespace Collocate
set_option autoImplicit false

/-- `u32::saturating_add`. -/
def satAdd (a b : UInt32) : UInt32 := if a.toNat + b.toNat < 2 ^ 32 then a + b else 0xffffffff

/-- `u32::saturating_sub`. -/
def satSub (a b : UInt32) : UInt32 := if b ≤ a then a - b else 0

/-- `u64::saturating_sub`. -/
def satSub64 (a b : UInt64) : UInt64 := if b ≤ a then a - b else 0

/-- `clamp`, for `lo ≤ hi`. -/
def clamp (n lo hi : UInt32) : UInt32 := if n < lo then lo else if hi < n then hi else n

theorem satAdd_ge (a b : UInt32) : a.toNat ≤ (satAdd a b).toNat := by
  unfold satAdd
  split
  · rename_i h
    rw [UInt32.toNat_add, Nat.mod_eq_of_lt h]
    omega
  · have h := a.toNat_lt
    simp only [UInt32.reduceToNat]
    omega

@[simp] theorem satSub_toNat (a b : UInt32) : (satSub a b).toNat = a.toNat - b.toNat := by
  unfold satSub
  split
  · rename_i h
    exact UInt32.toNat_sub_of_le _ _ h
  · rename_i h
    rw [UInt32.le_iff_toNat_le] at h
    simp only [UInt32.toNat_zero]
    omega

theorem satAdd_le (a b : UInt32) : (satAdd a b).toNat ≤ a.toNat + b.toNat := by
  unfold satAdd
  split
  · rename_i h
    rw [UInt32.toNat_add, Nat.mod_eq_of_lt h]
  · simp only [UInt32.reduceToNat]
    omega

@[simp] theorem satSub64_toNat (a b : UInt64) : (satSub64 a b).toNat = a.toNat - b.toNat := by
  unfold satSub64
  split
  · rename_i h
    exact UInt64.toNat_sub_of_le _ _ h
  · rename_i h
    rw [UInt64.le_iff_toNat_le] at h
    simp only [UInt64.toNat_zero]
    omega

theorem min_toNat (a b : UInt32) : (min a b).toNat = min a.toNat b.toNat := by
  change (if a ≤ b then a else b).toNat = _
  split <;> rename_i h <;> rw [UInt32.le_iff_toNat_le] at h <;> omega

theorem max_toNat (a b : UInt32) : (max a b).toNat = max a.toNat b.toNat := by
  change (if a ≤ b then b else a).toNat = _
  split <;> rename_i h <;> rw [UInt32.le_iff_toNat_le] at h <;> omega

end Collocate
