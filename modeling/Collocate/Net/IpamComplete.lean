import Mathlib.Data.Set.Card
import Collocate.Net.Probing

/-! # No free address is missed

The assignable addresses are two blocks, the pool and the virtual addresses behind it. `allocate` walks the
pool from its start, `for_service` and `vip` walk their block around from the hash; each fails only when all of
its block is given out. -/
namespace Collocate.Ipam
set_option autoImplicit false
open Probing

/-! ## The two blocks -/

def Assignable (m : Ipam) (a : Ipv4Addr) : Prop :=
  m.subnet.network.toNat + 2 ≤ a.bits.toNat ∧ a.bits.toNat ≤ m.subnet.broadcast.toNat - 1

def InPool (m : Ipam) (a : Ipv4Addr) : Prop := m.subnet.network.toNat + 2 ≤ a.bits.toNat ∧ a.bits ≤ m.poolEnd

def InVips (m : Ipam) (a : Ipv4Addr) : Prop := m.poolEnd < a.bits ∧ a.bits.toNat ≤ m.subnet.broadcast.toNat - 1

/-- Every address of the block is given out. -/
def Full (m : Ipam) (block : Ipv4Addr → Prop) : Prop := ∀ a, block a → m.byAddr a ≠ none

section Blocks
variable {n : Subnet} {m : Ipam} (hm : m.Sound n)
include hm

theorem last_eq : m.subnet.broadcast.toNat - 1 = m.last.toNat := by
  have hcount := Subnet.count_bounds hm.valid
  rw [last_toNat hm.valid, Subnet.broadcast_toNat hm.valid]
  omega

theorem inPool_iff {a : Ipv4Addr} : m.InPool a ↔ m.first.toNat ≤ a.bits.toNat ∧ a.bits.toNat ≤ m.poolEnd.toNat := by
  unfold InPool
  rw [first_toNat hm.valid, UInt32.le_iff_toNat_le]

theorem inVips_iff {a : Ipv4Addr} : m.InVips a ↔ m.poolEnd.toNat < a.bits.toNat ∧ a.bits.toNat ≤ m.last.toNat := by
  unfold InVips
  rw [last_eq hm, UInt32.lt_iff_toNat_lt]

theorem isVip_iff {a : Ipv4Addr} : m.isVip a = true ↔ m.InVips a := by
  have hbounds := pool_bounds hm.valid
  rw [inVips_iff hm]
  unfold isVip
  rw [decide_eq_true_eq, UInt32.lt_iff_toNat_lt, UInt32.lt_iff_toNat_lt, UInt32.le_iff_toNat_le]
  constructor
  · exact And.right
  · intro h
    exact ⟨by rw [UInt32.toNat_zero]; omega, h⟩

/-- The blocks have nothing in common and make up what can be assigned. -/
theorem blocks_partition (a : Ipv4Addr) : (m.Assignable a ↔ m.InPool a ∨ m.InVips a) ∧ ¬ (m.InPool a ∧ m.InVips a) := by
  have hbounds := pool_bounds hm.valid
  have hfirst := first_toNat hm.valid
  unfold Assignable
  rw [inPool_iff hm, inVips_iff hm, last_eq hm]
  omega

end Blocks

/-- As many addresses as their numbers. -/
theorem ncard_bits (lo hi : ℕ) (hhi : hi < 2 ^ 32) :
    {a : Ipv4Addr | lo < a.bits.toNat ∧ a.bits.toNat ≤ hi}.ncard = hi - lo := by
  have hinj : Set.InjOn (fun a : Ipv4Addr => a.bits.toNat) {a : Ipv4Addr | lo < a.bits.toNat ∧ a.bits.toNat ≤ hi} := by
    rintro ⟨x⟩ - ⟨y⟩ - heq
    exact congrArg Ipv4Addr.mk (UInt32.toNat_inj.mp heq)
  have himage : (fun a : Ipv4Addr => a.bits.toNat) '' {a : Ipv4Addr | lo < a.bits.toNat ∧ a.bits.toNat ≤ hi} =
      ↑(Finset.Ioc lo hi) := by
    ext k
    rw [Finset.coe_Ioc, Set.mem_Ioc]
    constructor
    · rintro ⟨a, ha, rfl⟩
      exact ha
    · intro hk
      refine ⟨⟨UInt32.ofNat k⟩, ?_, ?_⟩
      · show lo < (UInt32.ofNat k).toNat ∧ (UInt32.ofNat k).toNat ≤ hi
        rw [UInt32.toNat_ofNat_of_lt' (show k < 2 ^ 32 by omega)]
        exact hk
      · exact UInt32.toNat_ofNat_of_lt' (show k < 2 ^ 32 by omega)
  rw [← hinj.ncard_image, himage, Set.ncard_coe_finset, Nat.card_Ioc]

/-- An eighth of what can be assigned is for virtual addresses, but no more than 255 of them. -/
theorem vips_ncard {n : Subnet} {m : Ipam} (hm : m.Sound n) :
    {a | m.InVips a}.ncard = min ({a | m.Assignable a}.ncard / 8) 255 := by
  have hbounds := pool_bounds hm.valid
  have hcount := Subnet.count_bounds hm.valid
  have hfirst := first_toNat hm.valid
  have hlast := last_toNat hm.valid
  have hvip := vipCount_toNat hm.valid
  have hvips : {a | m.InVips a} = {a : Ipv4Addr | m.poolEnd.toNat < a.bits.toNat ∧ a.bits.toNat ≤ m.last.toNat} :=
    Set.ext fun a => inVips_iff hm
  have hall : {a | m.Assignable a} =
      {a : Ipv4Addr | m.subnet.network.toNat + 1 < a.bits.toNat ∧ a.bits.toNat ≤ m.last.toNat} := by
    refine Set.ext fun a => ?_
    show m.Assignable a ↔ _
    unfold Assignable
    rw [last_eq hm]
    exact Iff.rfl
  rw [hvips, hall, ncard_bits _ _ (by omega), ncard_bits _ _ (by omega)]
  omega

/-! ## Walking a block -/

section Walk
variable {n : Subnet} {m : Ipam} (hm : m.Sound n) (owner : String)
include hm

theorem reserve_free {a : Ipv4Addr} (hlo : m.first.toNat ≤ a.bits.toNat) (hhi : a.bits.toNat ≤ m.last.toNat)
    (hfree : m.byAddr a = none) : ∃ m', m.reserve a owner = .ok m' := by
  have hfirst := first_toNat hm.valid
  have hlast := last_eq hm
  have hcontains : m.subnet.contains a = true := by
    unfold Subnet.contains
    rw [decide_eq_true_eq, UInt32.le_iff_toNat_le, UInt32.le_iff_toNat_le]
    omega
  unfold reserve
  rw [hcontains, if_neg (by simp [UInt32.lt_iff_toNat_lt, hlo, hhi]), hfree]
  exact ⟨_, rfl⟩

/-- What a walk comes to: a free address of its block, or the news that there is none. -/
inductive Outcome (m : Ipam) (owner : String) (block : Ipv4Addr → Prop) : Result (Ipv4Addr × Ipam) → Prop
  | found {a : Ipv4Addr} {m' : Ipam} (hblock : block a) (hfree : m.byAddr a = none)
    (hreserve : m.reserve a owner = .ok m') :
    Outcome m owner block (.ok (a, m'))
  | full (e : Error) (hfull : m.Full block) : Outcome m owner block (.error e)

omit hm in
theorem Outcome.ok_iff {block : Ipv4Addr → Prop} {r : Result (Ipv4Addr × Ipam)} (h : Outcome m owner block r) :
    (∃ e, r = .error e) ↔ m.Full block := by
  cases h with
  | found hblock hfree _ => exact ⟨fun ⟨_, heq⟩ => (by cases heq), fun hfull => absurd hfree (hfull _ hblock)⟩
  | full e hfull => exact ⟨fun _ => hfull, fun _ => ⟨e, rfl⟩⟩

omit hm in
theorem Outcome.of_ok {block : Ipv4Addr → Prop} {a : Ipv4Addr} {m' : Ipam} (h : Outcome m owner block (.ok (a, m'))) :
    block a ∧ m.byAddr a = none := by
  cases h with
  | found hblock hfree _ => exact ⟨hblock, hfree⟩

/-- The walk of `allocate` ends at the first free address. -/
theorem allocateFrom_outcome (left : ℕ) (cur : UInt32) (hlo : m.first.toNat ≤ cur.toNat)
    (hspan : cur.toNat + left = m.poolEnd.toNat + 1) :
    Outcome m owner (fun a => (cur.toNat ≤ a.bits.toNat ∧ a.bits ≤ m.poolEnd)) (m.allocateFrom owner left cur) ∧
      ∀ a m', m.allocateFrom owner left cur = .ok (a, m') →
        ∀ b : Ipv4Addr, cur.toNat ≤ b.bits.toNat → b.bits < a.bits → m.byAddr b ≠ none := by
  have hbounds := pool_bounds hm.valid
  induction left generalizing cur with
  | zero =>
    refine ⟨.full _ fun a ha => ?_, fun a m' h => by cases h⟩
    rw [UInt32.le_iff_toNat_le] at ha
    omega
  | succ left ih =>
    unfold allocateFrom
    split
    · rename_i hfree
      rw [Option.isNone_iff_eq_none] at hfree
      obtain ⟨m', hreserve⟩ := reserve_free hm owner (a := ⟨cur⟩) hlo (show cur.toNat ≤ _ by omega) hfree
      rw [hreserve]
      refine ⟨.found ⟨Nat.le_refl _, ?_⟩ hfree hreserve, fun a m'' h b hb hlt => ?_⟩
      · show cur ≤ m.poolEnd
        rw [UInt32.le_iff_toNat_le]
        omega
      · cases h
        have hlt : b.bits < cur := hlt
        rw [UInt32.lt_iff_toNat_lt] at hlt
        omega
    · rename_i hused
      have hnext : (cur + 1).toNat = cur.toNat + 1 := by
        rw [UInt32.toNat_add]
        exact Nat.mod_eq_of_lt (show cur.toNat + 1 < 2 ^ 32 by omega)
      have htaken : ∀ b : Ipv4Addr, b.bits.toNat = cur.toNat → m.byAddr b ≠ none := by
        rintro ⟨bits⟩ hbits
        have heq : bits = cur := UInt32.toNat_inj.mp hbits
        subst heq
        simpa using hused
      obtain ⟨hout, hleast⟩ := ih (cur + 1) (by omega) (by omega)
      constructor
      · generalize m.allocateFrom owner left (cur + 1) = r at hout
        cases hout with
        | found hblock hfree hreserve => exact .found ⟨by omega, hblock.2⟩ hfree hreserve
        | full e hfull =>
          refine .full e fun a ha => ?_
          by_cases heq : a.bits.toNat = cur.toNat
          · exact htaken a heq
          · exact hfull a ⟨by omega, ha.2⟩
      · intro a m' h b hb hlt
        by_cases heq : b.bits.toNat = cur.toNat
        · exact htaken b heq
        · exact hleast a m' h b (by omega) hlt

/-- The walk of `probe` has been around the block when it gives up. -/
theorem probeFrom_outcome {base start len step : UInt32} {left : ℕ} (hbase : m.first.toNat ≤ base.toNat)
    (hend : base.toNat + len.toNat ≤ m.last.toNat + 1) (hlen : len.toNat ≤ 2 ^ 24) (hstart : start.toNat < len.toNat)
    (hleft : step.toNat + left = len.toNat)
    (hby : ∀ j < step.toNat, m.byAddr (slotAddr base ((start.toNat + j) % len.toNat)) ≠ none) :
    Outcome m owner (fun a => ∃ slot < len.toNat, a = slotAddr base slot)
      (m.probeFrom owner start len base left step) := by
  have hbounds := pool_bounds hm.valid
  induction left generalizing step with
  | zero =>
    refine .full _ ?_
    rintro a ⟨slot, hslot, rfl⟩
    have hround := hby (ahead len.toNat start.toNat slot) ((ahead_lt hstart hslot).trans_le (by omega))
    rwa [add_ahead hstart hslot] at hround
  | succ left ih =>
    have hsum : (start + step).toNat = start.toNat + step.toNat := by
      rw [UInt32.toNat_add, Nat.mod_eq_of_lt (by omega)]
    have hslot : ((start + step) % len).toNat = (start.toNat + step.toNat) % len.toNat := by
      rw [UInt32.toNat_mod, hsum]
    have hlt : (start.toNat + step.toNat) % len.toNat < len.toNat := Nat.mod_lt _ (by omega)
    have haddr : (⟨base + (start + step) % len⟩ : Ipv4Addr) =
      slotAddr base ((start.toNat + step.toNat) % len.toNat) := by
      rw [slotAddr, ← hslot, UInt32.ofNat_toNat]
    have hbits : (slotAddr base ((start.toNat + step.toNat) % len.toNat)).bits.toNat =
        base.toNat + (start.toNat + step.toNat) % len.toNat := by
      rw [← haddr]
      show (base + (start + step) % len).toNat = _
      rw [UInt32.toNat_add, hslot, Nat.mod_eq_of_lt (by omega)]
    unfold probeFrom
    dsimp only
    rw [haddr]
    split
    · rename_i hfree
      rw [Option.isNone_iff_eq_none] at hfree
      obtain ⟨m', hreserve⟩ := reserve_free hm owner (by rw [hbits]; omega) (by rw [hbits]; omega) hfree
      rw [hreserve]
      exact .found ⟨_, hlt, rfl⟩ hfree hreserve
    · rename_i hused
      have hnext : (step + 1).toNat = step.toNat + 1 := by
        rw [UInt32.toNat_add]
        exact Nat.mod_eq_of_lt (show step.toNat + 1 < 2 ^ 32 by omega)
      refine ih (by omega) fun j hj => ?_
      rw [hnext] at hj
      rcases Nat.lt_succ_iff_lt_or_eq.mp hj with hj | rfl
      · exact hby j hj
      · simpa using hused

omit hm in
theorem Outcome.congr {block block' : Ipv4Addr → Prop} {r : Result (Ipv4Addr × Ipam)} (h : Outcome m owner block r)
    (hsame : ∀ a, block a ↔ block' a) : Outcome m owner block' r := by
  have heq : block = block' := funext fun a => propext (hsame a)
  exact heq ▸ h

omit hm in
/-- The slots of a block that does not run over are the addresses from its base on. -/
theorem slots_iff {base len : UInt32} (hfits : base.toNat + len.toNat ≤ 2 ^ 32) (a : Ipv4Addr) :
    (∃ slot < len.toNat, a = slotAddr base slot) ↔ base.toNat ≤ a.bits.toNat ∧
      a.bits.toNat < base.toNat + len.toNat := by
  constructor
  · rintro ⟨slot, hslot, rfl⟩
    have hbits : (slotAddr base slot).bits.toNat = base.toNat + slot := by
      show (base + UInt32.ofNat slot).toNat = _
      rw [UInt32.toNat_add, UInt32.toNat_ofNat_of_lt' (show slot < 2 ^ 32 by omega), Nat.mod_eq_of_lt (by omega)]
    rw [hbits]
    omega
  · rintro ⟨hlo, hhi⟩
    refine ⟨a.bits.toNat - base.toNat, by omega, ?_⟩
    have hbits : a.bits = base + UInt32.ofNat (a.bits.toNat - base.toNat) := by
      rw [← UInt32.toNat_inj, UInt32.toNat_add,
        UInt32.toNat_ofNat_of_lt' (show a.bits.toNat - base.toNat < 2 ^ 32 by omega), Nat.mod_eq_of_lt (by omega)]
      omega
    exact congrArg Ipv4Addr.mk hbits

/-- A probe of a block within what can be assigned, from the hash of a name on. -/
theorem probe_outcome (base len : UInt32) (hash : UInt64) (hpos : 0 < len.toNat) (hbase : m.first.toNat ≤ base.toNat)
    (hend : base.toNat + len.toNat ≤ m.last.toNat + 1) :
    Outcome m owner (fun a => base.toNat ≤ a.bits.toNat ∧ a.bits.toNat < base.toNat + len.toNat)
      (m.probe owner (hash % len.toUInt64).toUInt32 len base) := by
  have hbounds := pool_bounds hm.valid
  have hspan := span_toNat hm.valid
  have hcount := Subnet.count_bounds hm.valid
  have hfirst := first_toNat hm.valid
  have hlast := last_toNat hm.valid
  have hne : len ≠ 0 := fun hzero => by
    rw [hzero] at hpos
    exact absurd hpos (Nat.lt_irrefl 0)
  have hhome : (hash % len.toUInt64).toUInt32.toNat < len.toNat := by
    rw [home_eq hash hpos]
    exact home_lt hash hpos
  unfold probe
  rw [if_neg hne]
  refine (probeFrom_outcome hm owner hbase hend (by omega) hhome (Nat.zero_add _) fun j hj => ?_).congr owner
    (slots_iff (by omega))
  exact absurd hj (Nat.not_lt_zero j)

end Walk

/-! ## What is given out -/

/-- An owner without an address gets the least free address of the pool, a free one of the pool, or a free
virtual one; only when their block is full, or there are no virtual addresses, does the method fail; and the two
blocks divide what can be assigned, whatever the hash. -/
theorem allocation_complete (sha256 : List UInt8 → List UInt8) {n : Subnet} {m : Ipam} (hm : m.Sound n) :
    (∀ owner, m.byOwner owner = none →
      (∀ a m', m.allocate owner = .ok (a, m') → m.InPool a ∧ m.byAddr a = none ∧ m.isVip a = false ∧
        ∀ b, m.InPool b → m.byAddr b = none → a.bits ≤ b.bits) ∧
      ((∃ e, m.allocate owner = .error e) ↔ m.Full m.InPool)) ∧
    (∀ (project service : String) (index : UInt32), m.byOwner s!"{project}/{service}/{index}" = none →
      (∀ a m', m.forService sha256 project service index = .ok (a, m') →
        m.InPool a ∧ m.byAddr a = none ∧ m.isVip a = false) ∧
      ((∃ e, m.forService sha256 project service index = .error e) ↔ m.Full m.InPool)) ∧
    (∀ project lb : String, m.byOwner s!"vip:{project}/{lb}" = none →
      (∀ a m', m.vip sha256 project lb = .ok (a, m') → m.InVips a ∧ m.byAddr a = none ∧ m.isVip a = true) ∧
      ((∃ e, m.vip sha256 project lb = .error e) ↔ m.Full m.InVips ∨ ∀ a, ¬ m.InVips a)) ∧
    (∀ a, (m.Assignable a ↔ m.InPool a ∨ m.InVips a) ∧ ¬ (m.InPool a ∧ m.InVips a)) ∧
    {a | m.InVips a}.ncard = min ({a | m.Assignable a}.ncard / 8) 255 := by
  have hbounds := pool_bounds hm.valid
  have hfirst := first_toNat hm.valid
  have hnotVip (a : Ipv4Addr) (ha : m.InPool a) : m.isVip a = false := by
    rw [← Bool.not_eq_true, isVip_iff hm]
    exact fun hvip => (blocks_partition hm a).2 ⟨ha, hvip⟩
  refine ⟨fun owner hnone => ?_, fun project service index hnone => ?_, fun project lb hnone => ?_, blocks_partition hm,
    vips_ncard hm⟩
  · obtain ⟨hout, hleast⟩ := allocateFrom_outcome hm owner (m.poolEnd.toNat + 1 - m.first.toNat) m.first
      (Nat.le_refl _) (by omega)
    have hout : Outcome m owner m.InPool (m.allocateFrom owner (m.poolEnd.toNat + 1 - m.first.toNat) m.first) :=
      hout.congr owner fun a => by rw [inPool_iff hm, UInt32.le_iff_toNat_le]
    have hallocate : m.allocate owner = m.allocateFrom owner (m.poolEnd.toNat + 1 - m.first.toNat) m.first := by
      unfold allocate
      rw [hnone]
    rw [hallocate]
    refine ⟨fun a m' h => ?_, hout.ok_iff⟩
    obtain ⟨hpool, hfree⟩ := (h ▸ hout).of_ok
    refine ⟨hpool, hfree, hnotVip a hpool, fun b hb hbfree => ?_⟩
    rw [← UInt32.not_lt]
    exact fun hlt => hleast a m' h b ((inPool_iff hm).mp hb).1 hlt hbfree
  · have hlen : (m.poolEnd - m.first + 1).toNat = m.poolEnd.toNat - m.first.toNat + 1 := by
      have hsub : (m.poolEnd - m.first).toNat = m.poolEnd.toNat - m.first.toNat :=
        UInt32.toNat_sub_of_le _ _ (UInt32.le_iff_toNat_le.mpr hbounds.1)
      rw [UInt32.toNat_add, hsub]
      exact Nat.mod_eq_of_lt (show m.poolEnd.toNat - m.first.toNat + 1 < 2 ^ 32 by omega)
    have hout := probe_outcome hm s!"{project}/{service}/{index}" m.first (m.poolEnd - m.first + 1)
      (hashU64 sha256 [project, service, toString index]) (by omega) (Nat.le_refl _) (by omega)
    have hout := hout.congr _ fun a => show _ ↔ m.InPool a by
      rw [inPool_iff hm, hlen]
      omega
    have hservice : m.forService sha256 project service index = m.probe s!"{project}/{service}/{index}"
        (hashU64 sha256 [project, service, toString index] % (m.poolEnd - m.first + 1).toUInt64).toUInt32
        (m.poolEnd - m.first + 1) m.first := by
      unfold forService
      dsimp only
      rw [hnone]
    rw [hservice]
    refine ⟨fun a m' h => ?_, hout.ok_iff⟩
    obtain ⟨hpool, hfree⟩ := (h ▸ hout).of_ok
    exact ⟨hpool, hfree, hnotVip a hpool⟩
  · by_cases hzero : m.vipCount = 0
    · have hempty (a : Ipv4Addr) : ¬ m.InVips a := by
        have hcount : m.vipCount.toNat = 0 := congrArg UInt32.toNat hzero
        rw [inVips_iff hm]
        omega
      have hvip : m.vip sha256 project lb =
          .error (.conflict ("subnet " ++ m.subnet.display ++ " has no room for virtual addresses")) := by
        unfold vip
        dsimp only
        rw [hnone, hzero]
        rfl
      rw [hvip]
      exact ⟨fun a m' h => (by cases h), fun _ => .inr hempty, fun _ => ⟨_, rfl⟩⟩
    · have hpos : 0 < m.vipCount.toNat := Nat.pos_of_ne_zero fun h => hzero (UInt32.toNat_inj.mp h)
      have hbase : (m.poolEnd + 1).toNat = m.poolEnd.toNat + 1 := by
        rw [UInt32.toNat_add]
        exact Nat.mod_eq_of_lt (show m.poolEnd.toNat + 1 < 2 ^ 32 by omega)
      have hout := probe_outcome hm s!"vip:{project}/{lb}" (m.poolEnd + 1) m.vipCount
        (hashU64 sha256 [project, lb, "vip"]) hpos (by omega) (by omega)
      have hout := hout.congr _ fun a => show _ ↔ m.InVips a by
        rw [inVips_iff hm, hbase]
        omega
      have hvip : m.vip sha256 project lb = m.probe s!"vip:{project}/{lb}"
          (hashU64 sha256 [project, lb, "vip"] % m.vipCount.toUInt64).toUInt32 m.vipCount (m.poolEnd + 1) := by
        unfold vip
        dsimp only
        rw [hnone]
        dsimp only
        rw [if_neg hzero]
      rw [hvip]
      refine ⟨fun a m' h => ?_, hout.ok_iff.trans ⟨.inl, fun h => h.elim id fun hnone a ha => absurd ha (hnone a)⟩⟩
      obtain ⟨hvips, hfree⟩ := (h ▸ hout).of_ok
      exact ⟨hvips, hfree, (isVip_iff hm).mpr hvips⟩

/-- A subnet of 29 assignable addresses, three of them virtual, where the first one, another one and a virtual one are
assigned. -/
def partlyAssigned : Ipam :=
  (Checked.rebuild ⟨0x0a000000, 27⟩
    [("db", ⟨0x0a000002⟩), ("cache", ⟨0x0a000004⟩), ("vip:shop/front", ⟨0x0a00001c⟩)]).2

/-- The next container gets the address between the assigned ones. -/
theorem allocation_complete_assigned :
    partlyAssigned.byAddr ⟨0x0a000002⟩ = some "db" ∧ partlyAssigned.byAddr ⟨0x0a00001c⟩ = some "vip:shop/front" ∧
      (∃ m', partlyAssigned.allocate "web" = .ok (⟨0x0a000003⟩, m')) ∧
      (∀ b, partlyAssigned.InPool b → partlyAssigned.byAddr b = none → 0x0a000003 ≤ b.bits) ∧
      {a | partlyAssigned.InVips a}.ncard = min ({a | partlyAssigned.Assignable a}.ncard / 8) 255 := by
  have hsubnet : Subnet.parse "10.0.0.0/27" = .ok ⟨0x0a000000, 27⟩ := by decide +kernel
  have hsound : partlyAssigned.Sound ⟨0x0a000000, 27⟩ := (rebuild_kept (Subnet.parse_valid hsubnet) _).2
  have hall := allocation_complete id hsound
  have hnext : (partlyAssigned.allocate "web").map Prod.fst = .ok ⟨0x0a000003⟩ := by decide +kernel
  have hnone : partlyAssigned.byOwner "web" = none := by decide +kernel
  obtain ⟨m', hm'⟩ : ∃ m', partlyAssigned.allocate "web" = .ok (⟨0x0a000003⟩, m') := by
    rcases hr : partlyAssigned.allocate "web" with e | ⟨a, m'⟩ <;> rw [hr] at hnext <;> cases hnext
    exact ⟨m', rfl⟩
  exact ⟨by decide +kernel, by decide +kernel, ⟨m', hm'⟩, ((hall.1 "web" hnone).1 _ _ hm').2.2.2, hall.2.2.2.2⟩

end Collocate.Ipam
