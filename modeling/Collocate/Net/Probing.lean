import Collocate.Lib.Probing
import Collocate.Net.IpamSound

/-! # Which address is given out

`for_service` and `vip` probe a range from the hash of the name on: `pick`. A call serves its key, in the sense of
linear probing, from the addresses that owners have and the slots that are taken. -/
namespace Collocate.Ipam
set_option autoImplicit false
open Probing

/-- The address of a slot of a range. -/
def slotAddr (base : UInt32) (slot : ℕ) : Ipv4Addr := ⟨base + UInt32.ofNat slot⟩

/-- The slots of a range whose addresses are given out. -/
def taken (m : Ipam) (base len : UInt32) : Finset ℕ :=
  (Finset.range len.toNat).filter fun slot => (m.byAddr (slotAddr base slot)).isSome

/-- What `for_service` and `vip` do: the owner's address, or else the first free one from the hash on. -/
def pick (m : Ipam) (owner : String) (hash : UInt64) (base len : UInt32) : Result (Ipv4Addr × Ipam) :=
  match m.byOwner owner with
  | some a => .ok (a, m)
  | none => m.probe owner (hash % len.toUInt64).toUInt32 len base

def home (len : UInt32) (hash : UInt64) : ℕ := hash.toNat % len.toNat

section Range
variable {base len : UInt32}

theorem mem_taken {m : Ipam} {slot : ℕ} :
    slot ∈ m.taken base len ↔ slot < len.toNat ∧ (m.byAddr (slotAddr base slot)).isSome := by
  unfold taken
  rw [Finset.mem_filter, Finset.mem_range]

theorem taken_bound (m : Ipam) : ∀ slot ∈ m.taken base len, slot < len.toNat := fun _ hs => (mem_taken.mp hs).1

theorem slotAddr_inj {s t : ℕ} (hs : s < len.toNat) (ht : t < len.toNat) (h : slotAddr base s = slotAddr base t) :
    s = t := by
  have hbits : base + UInt32.ofNat s = base + UInt32.ofNat t := congrArg Ipv4Addr.bits h
  have hslot := congrArg UInt32.toNat ((UInt32.add_right_inj base).mp hbits)
  have hlen := len.toNat_lt
  rwa [UInt32.toNat_ofNat_of_lt' (hs.trans hlen), UInt32.toNat_ofNat_of_lt' (ht.trans hlen)] at hslot

theorem home_eq (hash : UInt64) (hlen : 0 < len.toNat) : (hash % len.toUInt64).toUInt32.toNat = home len hash := by
  have hbound := len.toNat_lt
  have hmod : hash.toNat % len.toNat < len.toNat := Nat.mod_lt _ hlen
  rw [UInt64.toNat_toUInt32, UInt64.toNat_mod, UInt32.toNat_toUInt64, Nat.mod_eq_of_lt (hmod.trans hbound)]
  rfl

theorem home_lt (hash : UInt64) (hlen : 0 < len.toNat) : home len hash < len.toNat := Nat.mod_lt _ hlen

/-- The probe ends at the slot the owner takes. -/
theorem probeFrom_takes {m m' : Ipam} {owner : String} {start step : UInt32} {left : ℕ} {a : Ipv4Addr}
    (hlen : len.toNat ≤ 2 ^ 24) (hstart : start.toNat < len.toNat) (hleft : step.toNat + left = len.toNat)
    (hby : ∀ j < step.toNat, (start.toNat + j) % len.toNat ∈ m.taken base len)
    (h : m.probeFrom owner start len base left step = .ok (a, m')) :
    ∃ slot, a = slotAddr base slot ∧ Takes len.toNat (m.taken base len) start.toNat slot ∧
      m.reserve a owner = .ok m' := by
  induction left generalizing step with
  | zero => cases h
  | succ left ih =>
    have hsum : (start + step).toNat = start.toNat + step.toNat := by
      rw [UInt32.toNat_add, Nat.mod_eq_of_lt (by omega)]
    have hslot : ((start + step) % len).toNat = (start.toNat + step.toNat) % len.toNat := by
      rw [UInt32.toNat_mod, hsum]
    have hlt : (start.toNat + step.toNat) % len.toNat < len.toNat := Nat.mod_lt _ (by omega)
    have haddr : (⟨base + (start + step) % len⟩ : Ipv4Addr) =
      slotAddr base ((start.toNat + step.toNat) % len.toNat) := by
      rw [slotAddr, ← hslot, UInt32.ofNat_toNat]
    unfold probeFrom at h
    dsimp only at h
    rw [haddr] at h
    split at h
    · rename_i hfree
      obtain ⟨m₁, hreserve, hok⟩ := Result.bind_ok h
      cases hok
      refine ⟨_, rfl, ⟨step.toNat, by omega, rfl, fun htaken => ?_, hby⟩, hreserve⟩
      rw [Option.isNone_iff_eq_none] at hfree
      have hsome := (mem_taken.mp htaken).2
      rw [hfree] at hsome
      cases hsome
    · rename_i hused
      have hnext : (step + 1).toNat = step.toNat + 1 := by
        rw [UInt32.toNat_add]
        exact Nat.mod_eq_of_lt (show step.toNat + 1 < 2 ^ 32 by omega)
      refine ih (by omega) (fun j hj => ?_) h
      rw [hnext] at hj
      rcases Nat.lt_succ_iff_lt_or_eq.mp hj with hj | rfl
      · exact hby j hj
      · exact mem_taken.mpr ⟨hlt, by simpa [Option.isSome_iff_ne_none] using hused⟩

/-- An owner keeps its address, or takes the slot that is the first free one from its home on. -/
theorem pick_ok {m m' : Ipam} {owner : String} {hash : UInt64} {a : Ipv4Addr} (hlen : len.toNat ≤ 2 ^ 24)
    (h : m.pick owner hash base len = .ok (a, m')) :
    m.byOwner owner = some a ∧ m' = m ∨
      m.byOwner owner = none ∧ ∃ slot, a = slotAddr base slot ∧
        Takes len.toNat (m.taken base len) (home len hash) slot ∧
        m'.byOwner = Function.update m.byOwner owner (some a) ∧
          m'.byAddr = Function.update m.byAddr a (some owner) := by
  unfold pick at h
  cases howner : m.byOwner owner with
  | some b =>
    simp only [howner] at h
    cases h
    exact .inl ⟨rfl, rfl⟩
  | none =>
    simp only [howner] at h
    unfold probe at h
    split at h
    · cases h
    rename_i hne
    have hpos : 0 < len.toNat := Nat.pos_of_ne_zero fun hzero => hne (UInt32.toNat_inj.mp hzero)
    have hstart := home_eq hash hpos
    have hby : ∀ j < (0 : UInt32).toNat, (home len hash + j) % len.toNat ∈ m.taken base len :=
      fun j hj => absurd hj (Nat.not_lt_zero j)
    rw [← hstart] at hby
    have hlt := home_lt hash hpos
    rw [← hstart] at hlt
    obtain ⟨slot, ha, ht, hreserve⟩ := probeFrom_takes hlen hlt (Nat.zero_add _) hby h
    rw [hstart] at ht
    obtain ⟨-, -, -, hbyOwner, hbyAddr⟩ := reserve_ok hreserve
    refine .inr ⟨rfl, slot, ha, ht, hbyOwner, hbyAddr.trans ?_⟩
    simp only [howner, reduceCtorEq, false_and, if_false]

theorem taken_update {m m' : Ipam} {slot : ℕ} {owner : String} (hslot : slot < len.toNat)
    (h : m'.byAddr = Function.update m.byAddr (slotAddr base slot) (some owner)) :
    m'.taken base len = insert slot (m.taken base len) := by
  ext s
  rw [Finset.mem_insert, mem_taken, mem_taken, h]
  by_cases hs : s = slot
  · subst hs
    simp [hslot]
  · constructor
    · rintro ⟨hlt, hsome⟩
      have hne : slotAddr base s ≠ slotAddr base slot := fun heq => hs (slotAddr_inj hlt hslot heq)
      rw [Function.update_of_ne hne] at hsome
      exact .inr ⟨hlt, hsome⟩
    · rintro (rfl | ⟨hlt, hsome⟩)
      · exact absurd rfl hs
      · have hne : slotAddr base s ≠ slotAddr base slot := fun heq => hs (slotAddr_inj hlt hslot heq)
        rw [Function.update_of_ne hne]
        exact ⟨hlt, hsome⟩

end Range

/-! ## A key -/

section Keys
variable {κ : Type}

/-- A call serves its key from what the owners have and what is taken. -/
theorem pick_serves [DecidableEq κ] {owner : κ → String} {base len : UInt32} {hash : κ → UInt64} {m m' : Ipam} {k : κ}
    {a : Ipv4Addr} (hinj : Function.Injective owner)
    (hlen : len.toNat ≤ 2 ^ 24) (h : m.pick (owner k) (hash k) base len = .ok (a, m')) :
    Serves len.toNat (fun k => home len (hash k)) (slotAddr base) (fun k => m.byOwner (owner k)) (m.taken base len)
      [k] [a] (fun k => m'.byOwner (owner k)) (m'.taken base len) := by
  rcases pick_ok hlen h with ⟨hhas, rfl⟩ | ⟨hnew, slot, rfl, htakes, hbyOwner, hbyAddr⟩
  · exact .kept hhas (.nil _ _)
  · refine .new hnew htakes ?_
    have hhas : Function.update (fun k => m.byOwner (owner k)) k (some (slotAddr base slot)) =
        fun k => m'.byOwner (owner k) := by
      rw [hbyOwner]
      exact (Function.update_comp_eq_of_injective m.byOwner hinj k _).symm
    rw [hhas, taken_update htakes.lt hbyAddr]
    exact .nil _ _

/-- A call for an owner that is none of the keys', on another range, changes nothing for them. -/
theorem pick_elsewhere (owner : κ → String) (base len : UInt32) {m m' : Ipam} {o : String} {hash : UInt64}
    {base' len' : UInt32} {a : Ipv4Addr}
    (hother : ∀ k, owner k ≠ o) (hapart : ∀ s < len.toNat, ∀ t < len'.toNat, slotAddr base s ≠ slotAddr base' t)
    (hlen : len'.toNat ≤ 2 ^ 24) (h : m.pick o hash base' len' = .ok (a, m')) :
    (fun k => m'.byOwner (owner k)) = (fun k => m.byOwner (owner k)) ∧ m'.taken base len = m.taken base len := by
  rcases pick_ok hlen h with ⟨-, rfl⟩ | ⟨-, slot, rfl, htakes, hbyOwner, hbyAddr⟩
  · exact ⟨rfl, rfl⟩
  · constructor
    · funext k
      rw [hbyOwner, Function.update_of_ne (hother k)]
    · ext s
      rw [mem_taken, mem_taken, hbyAddr]
      refine and_congr_right fun hs => ?_
      rw [Function.update_of_ne (hapart s hs slot htakes.lt)]

end Keys
end Collocate.Ipam
