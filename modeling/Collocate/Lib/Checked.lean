import Mathlib.Data.UInt
import Collocate.Lib.Effect

/-! # Checked arithmetic

`+` and `-` on `u32` as a build with overflow checks computes them: a sum or a difference that does not
fit ends the computation. -/
namespace Collocate
set_option autoImplicit false

/-- How a computation with checked arithmetic fails: an operation overflowed, or it was refused. -/
inductive Fault (ε : Type)
  | overflow
  | refused (e : ε)
  deriving DecidableEq, Repr

namespace Checked

variable {S ε : Type}

def add (a b : UInt32) : Eff S (Fault ε) UInt32 :=
  if a.toNat + b.toNat < 2 ^ 32 then pure (a + b) else Eff.throw .overflow

def sub (a b : UInt32) : Eff S (Fault ε) UInt32 := if b ≤ a then pure (a - b) else Eff.throw .overflow

def refuse {α : Type} (e : ε) : Eff S (Fault ε) α := Eff.throw (.refused e)

theorem add_ok {a b : UInt32} (h : a.toNat + b.toNat < 2 ^ 32) (s : S) :
    (add a b : Eff S (Fault ε) UInt32) s = (.ok (a + b), s) := by
  unfold add
  rw [if_pos h]
  rfl

theorem sub_ok {a b : UInt32} (h : b ≤ a) (s : S) : (sub a b : Eff S (Fault ε) UInt32) s = (.ok (a - b), s) := by
  unfold sub
  rw [if_pos h]
  rfl

theorem toNat_add_of_lt {a b : UInt32} (h : a.toNat + b.toNat < 2 ^ 32) : (a + b).toNat = a.toNat + b.toNat := by
  rw [UInt32.toNat_add, Nat.mod_eq_of_lt h]

end Checked

end Collocate
