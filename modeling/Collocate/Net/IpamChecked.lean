import Collocate.Lib.Checked
import Collocate.Lib.Saturating
import Collocate.Net.Ipam

/-! # Address management, statement by statement (`collocate-net/src/ipam.rs`)

The methods of `Ipam` with their effects on the two maps in the order of the source and with checked
arithmetic, as a debug build runs them. On a subnet that `Subnet::parse` accepts no operation overflows,
and each method does what its description in `Net/Ipam` says: a refused call changes nothing. -/
namespace Collocate
set_option autoImplicit false

/-! ## Subnets -/

namespace Subnet

/-- What `parse` accepts: a prefix from 8 to 30, and a block that ends within the address space. -/
structure Valid (n : Subnet) : Prop where
  prefix_ge : 8 ≤ n.prefixLen.toNat
  prefix_le : n.prefixLen.toNat ≤ 30
  fits : n.network.toNat + 2 ^ (32 - n.prefixLen.toNat) ≤ 2 ^ 32

theorem shift_toNat (len : UInt8) (hge : 8 ≤ len.toNat) (hle : len.toNat ≤ 30) :
    ((1 : UInt32) <<< (32 - len.toUInt32)).toNat = 2 ^ (32 - len.toNat) ∧
      ((0xffffffff : UInt32) <<< (32 - len.toUInt32)).toNat + 2 ^ (32 - len.toNat) = 2 ^ 32 := by
  have hall : ∀ v : Fin 256, 8 ≤ v.val → v.val ≤ 30 →
      ((1 : UInt32) <<< (32 - (UInt8.ofNat v).toUInt32)).toNat = 2 ^ (32 - v.val) ∧
        ((0xffffffff : UInt32) <<< (32 - (UInt8.ofNat v).toUInt32)).toNat + 2 ^ (32 - v.val) = 2 ^ 32 := by
    decide +kernel
  have hlen := hall ⟨len.toNat, len.toNat_lt⟩ hge hle
  rwa [UInt8.ofNat_toNat] at hlen

/-- The number of addresses. -/
def count (n : Subnet) : ℕ := 2 ^ (32 - n.prefixLen.toNat)

theorem parse_valid {s : String} {n : Subnet} (h : parse s = .ok n) : n.Valid := by
  unfold parse at h
  split at h
  · cases h
  split at h
  · rename_i addr len _ _
    split at h
    · rename_i hlen
      cases h
      rw [UInt8.le_iff_toNat_le, UInt8.le_iff_toNat_le] at hlen
      have hmask := (shift_toNat len hlen.1 hlen.2).2
      refine ⟨hlen.1, hlen.2, ?_⟩
      have hand := Nat.and_le_right (n := addr.bits.toNat) (m := ((0xffffffff : UInt32) <<< (32 - len.toUInt32)).toNat)
      simp only [UInt32.toNat_and]
      omega
    · cases h
  · cases h

variable {n : Subnet} (hn : n.Valid)
include hn

theorem count_bounds : 4 ≤ n.count ∧ n.count ≤ 2 ^ 24 := by
  have h₁ : 2 ^ 2 ≤ n.count := Nat.pow_le_pow_right (by decide) (by have := hn.prefix_le; omega)
  have h₂ : n.count ≤ 2 ^ 24 := Nat.pow_le_pow_right (by decide) (by have := hn.prefix_ge; omega)
  exact ⟨h₁, h₂⟩

theorem network_count : n.network.toNat + n.count ≤ 2 ^ 32 := hn.fits

theorem size_toNat : n.size.toNat = n.count := (shift_toNat n.prefixLen hn.prefix_ge hn.prefix_le).1

theorem size_pred_toNat : (n.size - 1).toNat = n.count - 1 := by
  have hsize := size_toNat hn
  have hcount := count_bounds hn
  rw [UInt32.toNat_sub_of_le _ _ (by rw [UInt32.le_iff_toNat_le, hsize]; show 1 ≤ _; omega), hsize]
  rfl

theorem broadcast_toNat : n.broadcast.toNat = n.network.toNat + n.count - 1 := by
  have hcount := count_bounds hn
  have hfits := network_count hn
  have hpred := size_pred_toNat hn
  rw [broadcast, Checked.toNat_add_of_lt (by omega), hpred]
  omega

end Subnet

namespace Ipam

/-- A method call: it works on the `Ipam` and may be refused. -/
abbrev Method (α : Type) := Eff Ipam (Fault Error) α

namespace Checked
open Collocate.Checked

/-! ## The methods -/

def broadcast (n : Subnet) : Method UInt32 := do
  let size ← sub n.size 1
  add n.network size

def gateway : Method Ipv4Addr := do
  let m ← Eff.get
  let a ← add m.subnet.network 1
  pure ⟨a⟩

def contains (addr : Ipv4Addr) : Method Bool := do
  let m ← Eff.get
  let last ← broadcast m.subnet
  pure (decide (m.subnet.network ≤ addr.bits ∧ addr.bits ≤ last))

def first : Method UInt32 := do
  let m ← Eff.get
  add m.subnet.network 2

def last : Method UInt32 := do
  let m ← Eff.get
  let b ← broadcast m.subnet
  sub b 1

def vipCount : Method UInt32 := do
  let l ← last
  let f ← first
  let span ← sub l f
  let usable ← add span 1
  pure (min (usable / 8) vipCap)

def poolEnd : Method UInt32 := do
  let l ← last
  let n ← vipCount
  sub l n

def isVip (addr : Ipv4Addr) : Method Bool := do
  let n ← vipCount
  let e ← poolEnd
  let l ← last
  pure (decide (0 < n ∧ e < addr.bits ∧ addr.bits ≤ l))

def reserve (addr : Ipv4Addr) (owner : String) : Method Unit := do
  let m ← Eff.get
  let inside ← contains addr
  let f ← first
  let l ← last
  if !inside || decide (addr.bits < f) || decide (l < addr.bits) then
    refuse (.invalid (addr.display ++ " is not assignable in " ++ m.subnet.display))
  else
    match (m.byAddr addr).filter (· ≠ owner) with
    | some existing => refuse (.conflict (addr.display ++ " is already assigned to " ++ existing))
    | none => do
      Eff.modify fun m => { m with byOwner := Function.update m.byOwner owner (some addr) }
      match (m.byOwner owner).filter (· ≠ addr) with
      | some old => Eff.modify fun m => { m with byAddr := Function.update m.byAddr old none }
      | none => pure ()
      Eff.modify fun m => { m with byAddr := Function.update m.byAddr addr (some owner) }

def rebuild (subnet : Subnet) (entries : List (String × Ipv4Addr)) : Except (Fault Error) Unit × Ipam :=
  entries.forM (fun e => reserve e.2 e.1) (new subnet)

def release (owner : String) : Method Unit := do
  let m ← Eff.get
  Eff.modify fun m => { m with byOwner := Function.update m.byOwner owner none }
  match m.byOwner owner with
  | some addr => Eff.modify fun m => { m with byAddr := Function.update m.byAddr addr none }
  | none => pure ()

/-- `while cur <= self.pool_end()`; `cur` grows, so there are fewer than 2³² turns. -/
def allocateLoop (owner : String) : ℕ → UInt32 → Method Ipv4Addr
  | 0, _ => do
    let m ← Eff.get
    refuse (.conflict ("subnet " ++ m.subnet.display ++ " is exhausted"))
  | turns + 1, cur => do
    let e ← poolEnd
    let m ← Eff.get
    if cur ≤ e then
      if (m.byAddr ⟨cur⟩).isNone then do
        reserve ⟨cur⟩ owner
        pure ⟨cur⟩
      else do
        let next ← add cur 1
        allocateLoop owner turns next
    else refuse (.conflict ("subnet " ++ m.subnet.display ++ " is exhausted"))

def allocate (owner : String) : Method Ipv4Addr := do
  let m ← Eff.get
  match m.byOwner owner with
  | some a => pure a
  | none => do
    let f ← first
    allocateLoop owner (2 ^ 32) f

def probeLoop (owner : String) (start len base : UInt32) : ℕ → UInt32 → Method Ipv4Addr
  | 0, _ => do
    let m ← Eff.get
    refuse (.conflict ("address range in " ++ m.subnet.display ++ " is exhausted"))
  | left + 1, step => do
    let m ← Eff.get
    let offset ← add start step
    let bits ← add base (offset % len)
    if (m.byAddr ⟨bits⟩).isNone then do
      reserve ⟨bits⟩ owner
      pure ⟨bits⟩
    else probeLoop owner start len base left (step + 1)

def probe (owner : String) (start len base : UInt32) : Method Ipv4Addr := do
  let m ← Eff.get
  if len = 0 then refuse (.conflict ("no address range available in " ++ m.subnet.display))
  else probeLoop owner start len base len.toNat 0

def forService (sha256 : List UInt8 → List UInt8) (project service : String) (index : UInt32) : Method Ipv4Addr := do
  let owner := s!"{project}/{service}/{index}"
  let m ← Eff.get
  match m.byOwner owner with
  | some a => pure a
  | none => do
    let e ← poolEnd
    let f ← first
    let span ← sub e f
    let len ← add span 1
    let start := (hashU64 sha256 [project, service, toString index] % len.toUInt64).toUInt32
    probe owner start len f

def vip (sha256 : List UInt8 → List UInt8) (project lb : String) : Method Ipv4Addr := do
  let owner := s!"vip:{project}/{lb}"
  let m ← Eff.get
  match m.byOwner owner with
  | some a => pure a
  | none => do
    let len ← vipCount
    if len = 0 then refuse (.conflict ("subnet " ++ m.subnet.display ++ " has no room for virtual addresses"))
    else do
      let start := (hashU64 sha256 [project, lb, "vip"] % len.toUInt64).toUInt32
      let e ← poolEnd
      let base ← add e 1
      probe owner start len base

end Checked

/-! ## Bounds -/

section Bounds
variable {m : Ipam} (hm : m.subnet.Valid)
include hm

theorem first_toNat : m.first.toNat = m.subnet.network.toNat + 2 := by
  have hcount := Subnet.count_bounds hm
  have hfits := Subnet.network_count hm
  rw [first, Checked.toNat_add_of_lt (by simp; omega)]
  rfl

theorem last_toNat : m.last.toNat = m.subnet.network.toNat + m.subnet.count - 2 := by
  have hcount := Subnet.count_bounds hm
  have hbroadcast := Subnet.broadcast_toNat hm
  rw [last, UInt32.toNat_sub_of_le _ _ (by rw [UInt32.le_iff_toNat_le, hbroadcast]; show 1 ≤ _; omega), hbroadcast]
  show _ - 1 - 1 = _
  omega

theorem first_le_last : m.first ≤ m.last := by
  have hcount := Subnet.count_bounds hm
  rw [UInt32.le_iff_toNat_le, first_toNat hm, last_toNat hm]
  omega

theorem span_toNat : (m.last - m.first).toNat = m.subnet.count - 4 := by
  rw [UInt32.toNat_sub_of_le _ _ (first_le_last hm), first_toNat hm, last_toNat hm]
  omega

theorem vipCount_toNat : m.vipCount.toNat = min ((m.subnet.count - 3) / 8) 255 := by
  have hcount := Subnet.count_bounds hm
  have hspan := span_toNat hm
  rw [vipCount, min_toNat, UInt32.toNat_div, Checked.toNat_add_of_lt (by simp; omega), hspan]
  show min ((m.subnet.count - 4 + 1) / 8) 255 = _
  rw [show m.subnet.count - 4 + 1 = m.subnet.count - 3 by omega]

theorem poolEnd_toNat :
    m.poolEnd.toNat = m.subnet.network.toNat + m.subnet.count - 2 - min ((m.subnet.count - 3) / 8) 255 := by
  have hcount := Subnet.count_bounds hm
  have hvip := vipCount_toNat hm
  have hlast := last_toNat hm
  rw [poolEnd, UInt32.toNat_sub_of_le _ _ (by rw [UInt32.le_iff_toNat_le]; omega), hvip, hlast]

theorem pool_bounds : m.first.toNat ≤ m.poolEnd.toNat ∧ m.poolEnd.toNat + m.vipCount.toNat = m.last.toNat ∧
    m.last.toNat + 1 < 2 ^ 32 := by
  have hcount := Subnet.count_bounds hm
  have hfits := Subnet.network_count hm
  rw [first_toNat hm, poolEnd_toNat hm, vipCount_toNat hm, last_toNat hm]
  omega

/-! ## No method overflows -/

namespace Checked
open Collocate.Checked

theorem broadcast_eq : broadcast m.subnet m = (.ok m.subnet.broadcast, m) := by
  have hcount := Subnet.count_bounds hm
  have hfits := Subnet.network_count hm
  have hsize := Subnet.size_toNat hm
  have hpred := Subnet.size_pred_toNat hm
  have hsub : (1 : UInt32) ≤ m.subnet.size := by
    rw [UInt32.le_iff_toNat_le, hsize]
    show 1 ≤ _
    omega
  rw [broadcast, Eff.bind_of_ok (sub_ok hsub m), add_ok (by omega)]
  rfl

theorem gateway_eq : gateway m = (.ok m.subnet.gateway, m) := by
  have hcount := Subnet.count_bounds hm
  have hfits := Subnet.network_count hm
  rw [gateway, Eff.get_bind_apply, Eff.bind_of_ok (add_ok (by simp; omega) m)]
  rfl

theorem contains_eq (addr : Ipv4Addr) : contains addr m = (.ok (m.subnet.contains addr), m) := by
  rw [contains, Eff.get_bind_apply, Eff.bind_of_ok (broadcast_eq hm)]
  rfl

theorem first_eq : first m = (.ok m.first, m) := by
  have hcount := Subnet.count_bounds hm
  have hfits := Subnet.network_count hm
  rw [first, Eff.get_bind_apply, add_ok (by simp; omega)]
  rfl

theorem last_eq : last m = (.ok m.last, m) := by
  have hcount := Subnet.count_bounds hm
  have hbroadcast := Subnet.broadcast_toNat hm
  rw [last, Eff.get_bind_apply, Eff.bind_of_ok (broadcast_eq hm), sub_ok]
  · rfl
  · rw [UInt32.le_iff_toNat_le, hbroadcast]
    show 1 ≤ _
    omega

theorem vipCount_eq : vipCount m = (.ok m.vipCount, m) := by
  have hcount := Subnet.count_bounds hm
  have hspan := span_toNat hm
  rw [vipCount, Eff.bind_of_ok (last_eq hm), Eff.bind_of_ok (first_eq hm), Eff.bind_of_ok (sub_ok (first_le_last hm) m),
    Eff.bind_of_ok (add_ok (by simp; omega) m)]
  rfl

theorem poolEnd_eq : poolEnd m = (.ok m.poolEnd, m) := by
  have hpool := pool_bounds hm
  rw [poolEnd, Eff.bind_of_ok (last_eq hm), Eff.bind_of_ok (vipCount_eq hm), sub_ok]
  · rfl
  · rw [UInt32.le_iff_toNat_le]
    omega

theorem isVip_eq (addr : Ipv4Addr) : isVip addr m = (.ok (m.isVip addr), m) := by
  rw [isVip, Eff.bind_of_ok (vipCount_eq hm), Eff.bind_of_ok (poolEnd_eq hm), Eff.bind_of_ok (last_eq hm)]
  rfl

/-- The outcome of a method that does what `r` says: a refused one leaves `m`. -/
def settle {α : Type} (m : Ipam) : Result (α × Ipam) → Except (Fault Error) α × Ipam
  | .ok (a, m') => (.ok a, m')
  | .error e => (.error (.refused e), m)

theorem reserve_eq (addr : Ipv4Addr) (owner : String) :
    reserve addr owner m = settle m ((m.reserve addr owner).map fun m' => ((), m')) := by
  rw [reserve, Eff.get_bind_apply, Eff.bind_of_ok (contains_eq hm addr), Eff.bind_of_ok (first_eq hm),
    Eff.bind_of_ok (last_eq hm), Ipam.reserve]
  split
  · rfl
  · cases (m.byAddr addr).filter (· ≠ owner) with
    | some existing => rfl
    | none => cases (m.byOwner owner).filter (· ≠ addr) <;> rfl

omit hm in
theorem release_eq (owner : String) : release owner m = (.ok (), m.release owner) := by
  rw [release, Eff.get_bind_apply, Ipam.release]
  cases h : m.byOwner owner with
  | some addr => rfl
  | none =>
    have hsame : Function.update m.byOwner owner none = m.byOwner := by rw [← h, Function.update_eq_self]
    show (Except.ok (), { m with byOwner := Function.update m.byOwner owner none }) = (Except.ok (), m)
    rw [hsame]

/-- `reserve` and the address it was for. -/
theorem reserve_pure_eq (addr : Ipv4Addr) (owner : String) :
    (reserve addr owner >>= fun _ => pure addr) m = settle m (do
      let m' ← m.reserve addr owner
      .ok (addr, m')) := by
  cases h : m.reserve addr owner with
  | ok m' =>
    have hok : reserve addr owner m = (.ok (), m') := by
      rw [reserve_eq hm, h]
      rfl
    rw [Eff.bind_of_ok hok]
    rfl
  | error e =>
    have herror : reserve addr owner m = (.error (.refused e), m) := by
      rw [reserve_eq hm, h]
      rfl
    rw [Eff.bind_of_error herror]
    rfl

theorem allocateLoop_eq (owner : String) (left : ℕ) (cur : UInt32) (turns : ℕ)
    (hleft : cur.toNat + left = m.poolEnd.toNat + 1) (hturns : left ≤ turns) :
    allocateLoop owner turns cur m = settle m (m.allocateFrom owner left cur) := by
  induction left generalizing cur turns with
  | zero =>
    cases turns with
    | zero => rfl
    | succ turns =>
      have hpast : ¬ cur ≤ m.poolEnd := by
        rw [UInt32.le_iff_toNat_le]
        omega
      rw [allocateLoop, Eff.bind_of_ok (poolEnd_eq hm), Eff.get_bind_apply, if_neg hpast]
      rfl
  | succ left ih =>
    obtain ⟨turns, rfl⟩ := Nat.exists_eq_add_of_lt (show 0 < turns by omega)
    have hhere : cur ≤ m.poolEnd := by
      rw [UInt32.le_iff_toNat_le]
      omega
    have hpool := pool_bounds hm
    have hnext : cur.toNat + (1 : UInt32).toNat < 2 ^ 32 := by
      show cur.toNat + 1 < 2 ^ 32
      omega
    rw [Nat.zero_add, allocateLoop, Eff.bind_of_ok (poolEnd_eq hm), Eff.get_bind_apply, if_pos hhere, allocateFrom]
    split
    · exact reserve_pure_eq hm _ owner
    · rw [Eff.bind_of_ok (add_ok hnext m)]
      refine ih (cur + 1) turns ?_ (by omega)
      rw [toNat_add_of_lt hnext]
      show cur.toNat + 1 + left = _
      omega

theorem allocate_eq (owner : String) : allocate owner m = settle m (m.allocate owner) := by
  rw [allocate, Eff.get_bind_apply, Ipam.allocate]
  cases m.byOwner owner with
  | some a => rfl
  | none =>
    have hpool := pool_bounds hm
    dsimp only
    rw [Eff.bind_of_ok (first_eq hm)]
    exact allocateLoop_eq hm owner _ _ _ (by omega) (by omega)

theorem probeLoop_eq (owner : String) {start len base : UInt32} (hstart : start.toNat < len.toNat)
    (hlen : len.toNat ≤ 2 ^ 24) (hbase : base.toNat + len.toNat ≤ 2 ^ 32) (left : ℕ) (step : UInt32)
    (hleft : step.toNat + left ≤ len.toNat) :
    probeLoop owner start len base left step m = settle m (m.probeFrom owner start len base left step) := by
  induction left generalizing step with
  | zero => rfl
  | succ left ih =>
    have hoffset : start.toNat + step.toNat < 2 ^ 32 := by omega
    have hmod : ((start + step) % len).toNat < len.toNat := by
      rw [UInt32.toNat_mod]
      exact Nat.mod_lt _ (by omega)
    have hbits : base.toNat + ((start + step) % len).toNat < 2 ^ 32 := by omega
    rw [probeLoop, Eff.get_bind_apply, Eff.bind_of_ok (add_ok hoffset m), Eff.bind_of_ok (add_ok hbits m), probeFrom]
    split
    · exact reserve_pure_eq hm _ owner
    · have hnext : step.toNat + (1 : UInt32).toNat < 2 ^ 32 := by
        show step.toNat + 1 < 2 ^ 32
        omega
      refine ih (step + 1) ?_
      rw [toNat_add_of_lt hnext]
      show step.toNat + 1 + left ≤ _
      omega

theorem probe_eq (owner : String) {start len base : UInt32} (hstart : len ≠ 0 → start.toNat < len.toNat)
    (hlen : len.toNat ≤ 2 ^ 24) (hbase : base.toNat + len.toNat ≤ 2 ^ 32) :
    probe owner start len base m = settle m (m.probe owner start len base) := by
  rw [probe, Eff.get_bind_apply, Ipam.probe]
  split
  · rfl
  · rename_i hne
    exact probeLoop_eq hm owner (hstart hne) hlen hbase _ _ (by simp)

omit hm in
/-- A hash taken modulo the length of a range is an offset in it. -/
theorem offset_lt (hash : UInt64) {len : UInt32} (hlen : len ≠ 0) :
    (hash % len.toUInt64).toUInt32.toNat < len.toNat := by
  have hpos : 0 < len.toNat := Nat.pos_of_ne_zero fun h => hlen (UInt32.toNat_inj.mp h)
  have hmod : hash.toNat % len.toNat < len.toNat := Nat.mod_lt _ hpos
  have hlt := len.toNat_lt
  simp only [UInt64.toNat_toUInt32, UInt64.toNat_mod, UInt32.toNat_toUInt64]
  rw [Nat.mod_eq_of_lt (by omega)]
  exact hmod

theorem forService_eq (sha256 : List UInt8 → List UInt8) (project service : String) (index : UInt32) :
    forService sha256 project service index m = settle m (m.forService sha256 project service index) := by
  rw [forService, Eff.get_bind_apply, Ipam.forService]
  cases m.byOwner s!"{project}/{service}/{index}" with
  | some a => rfl
  | none =>
    have hpool := pool_bounds hm
    have hcount := Subnet.count_bounds hm
    have hfirst := first_toNat hm
    have hlast := last_toNat hm
    have hle : m.first ≤ m.poolEnd := by
      rw [UInt32.le_iff_toNat_le]
      omega
    have hspan : (m.poolEnd - m.first).toNat = m.poolEnd.toNat - m.first.toNat := UInt32.toNat_sub_of_le _ _ hle
    have hadd : (m.poolEnd - m.first).toNat + (1 : UInt32).toNat < 2 ^ 32 := by
      show _ + 1 < 2 ^ 32
      omega
    have hlen : (m.poolEnd - m.first + 1).toNat = m.poolEnd.toNat - m.first.toNat + 1 := by
      rw [toNat_add_of_lt hadd, hspan]
      rfl
    dsimp only
    rw [Eff.bind_of_ok (poolEnd_eq hm), Eff.bind_of_ok (first_eq hm), Eff.bind_of_ok (sub_ok hle m),
      Eff.bind_of_ok (add_ok hadd m)]
    exact probe_eq hm _ (offset_lt _) (by omega) (by omega)

theorem vip_eq (sha256 : List UInt8 → List UInt8) (project lb : String) :
    vip sha256 project lb m = settle m (m.vip sha256 project lb) := by
  rw [vip, Eff.get_bind_apply, Ipam.vip]
  cases m.byOwner s!"vip:{project}/{lb}" with
  | some a => rfl
  | none =>
    have hpool := pool_bounds hm
    have hcount := Subnet.count_bounds hm
    have hvip := vipCount_toNat hm
    dsimp only
    rw [Eff.bind_of_ok (vipCount_eq hm)]
    split
    · rfl
    · have hadd : m.poolEnd.toNat + (1 : UInt32).toNat < 2 ^ 32 := by
        show _ + 1 < 2 ^ 32
        omega
      rw [Eff.bind_of_ok (poolEnd_eq hm), Eff.bind_of_ok (add_ok hadd m)]
      refine probe_eq hm _ (offset_lt _) (by omega) ?_
      rw [toNat_add_of_lt hadd]
      show _ + 1 + _ ≤ _
      omega

end Checked
end Bounds

end Ipam
end Collocate
