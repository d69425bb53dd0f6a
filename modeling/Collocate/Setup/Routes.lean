import Collocate.Net.IpamChecked

/-! # Routes that overlap a subnet (`collocated/src/setup.rs`)

Before a daemon is set up, its subnet is compared with the routes of the host, at the shorter of the two prefixes. -/
namespace Collocate.Setup
set_option autoImplicit false

/-! ## Overlaps -/

def mask (addr : Ipv4Addr) (prefixLen : UInt8) : UInt32 :=
  if prefixLen = 0 then 0 else addr.bits &&& (0xffffffff <<< (32 - prefixLen.toUInt32))

/-- The address of a CIDR and its prefix; a bare address is a block of its own. -/
def cidrParts (s : String) : Option (String × UInt8) :=
  match Text.splitOnce '/' s with
  | some (a, p) => ((Text.parseU8 p).filter fun p => p ≤ 32).map fun p => (a, p)
  | none => some (s, 32)

def parseCidr (s : String) : Option (Ipv4Addr × UInt8) := do
  let (addr, prefixLen) ← cidrParts s
  let addr ← Ipv4Addr.parse addr
  pure (addr, prefixLen)

def overlaps (a : Subnet) (b : String) : Bool :=
  match parseCidr b with
  | none => false
  | some (addr, prefixLen) =>
    let p := min a.prefixLen prefixLen
    mask ⟨a.network⟩ p == mask addr p

/-! ## Routes -/

/-- A JSON value, as far as the routes are read. -/
inductive Json
  | null
  | other
  | string (s : String)
  | object (fields : List (String × Json))

/-- `value[name]`, which is null where there is no such field. -/
def Json.field (name : String) : Json → Json
  | .object fields => (fields.lookup name).getD .null
  | _ => .null

def Json.asStr : Json → Option String
  | .string s => some s
  | _ => none

/-- The line for a route that is in the way. -/
def conflictOf (subnet : Subnet) (ownBridges : List String) (r : Json) : Option String := do
  let dst ← (r.field "dst").asStr
  let dev := ((r.field "dev").asStr).getD ""
  if dst = "default" ∨ dev ∈ ownBridges then none
  else if overlaps subnet dst then some s!"{dst} on {dev}" else none

/-- `route_conflicts`; text that is no list of values counts as none. -/
def routeConflicts (decode : String → Option (List Json)) (routesJson : String) (subnet : Subnet)
    (ownBridges : List String) : List String :=
  ((decode routesJson).getD []).filterMap (conflictOf subnet ownBridges)

/-! ## Blocks of addresses -/

/-- Two numbers in one block are in one block of every larger size. -/
theorem block_mono {x y j k : ℕ} (hjk : j ≤ k) (h : x / 2 ^ j = y / 2 ^ j) : x / 2 ^ k = y / 2 ^ k := by
  obtain ⟨d, rfl⟩ := Nat.exists_eq_add_of_le hjk
  rw [Nat.pow_add, ← Nat.div_div_eq_div_mul, ← Nat.div_div_eq_div_mul, h]

/-- Blocks of two sizes have a number in common exactly when their numbers are in one block of the larger size. -/
theorem blocks_meet {x y bound j k : ℕ} (hx : x < bound) (hy : y < bound) :
    (∃ z < bound, z / 2 ^ j = x / 2 ^ j ∧ z / 2 ^ k = y / 2 ^ k) ↔ x / 2 ^ max j k = y / 2 ^ max j k := by
  constructor
  · intro h
    obtain ⟨z, -, hzx, hzy⟩ := h
    exact (block_mono (Nat.le_max_left j k) hzx).symm.trans (block_mono (Nat.le_max_right j k) hzy)
  · intro h
    cases Nat.le_total j k with
    | inl hjk =>
      rw [Nat.max_eq_right hjk] at h
      exact ⟨x, hx, rfl, h⟩
    | inr hkj =>
      rw [Nat.max_eq_left hkj] at h
      exact ⟨y, hy, h.symm, rfl⟩

/-! ## Masks -/

/-- The bits from `k` on. -/
theorem and_high {x m k : ℕ} (hx : x < 2 ^ (m + k)) : x &&& (2 ^ (m + k) - 2 ^ k) = x / 2 ^ k * 2 ^ k := by
  have hones : 2 ^ (m + k) - 2 ^ k = (2 ^ m - 1) <<< k := by
    rw [Nat.shiftLeft_eq, Nat.sub_mul, Nat.one_mul, Nat.pow_add]
  have hblock : x / 2 ^ k * 2 ^ k = (x >>> k) <<< k := by
    rw [Nat.shiftLeft_eq, Nat.shiftRight_eq_div_pow]
  rw [hones, hblock]
  apply Nat.eq_of_testBit_eq
  intro i
  rw [Nat.testBit_and, Nat.testBit_shiftLeft, Nat.testBit_shiftLeft, Nat.testBit_shiftRight,
    Nat.testBit_two_pow_sub_one]
  by_cases hk : k ≤ i
  · have hi : k + (i - k) = i := Nat.add_sub_cancel' hk
    rw [hi]
    by_cases him : i < m + k
    · have hlow : i - k < m := by omega
      simp [hk, hlow]
    · have hsmall : x < 2 ^ i := Nat.lt_of_lt_of_le hx (Nat.pow_le_pow_right (by decide) (Nat.not_lt.mp him))
      have hzero : x.testBit i = false := Nat.testBit_lt_two_pow hsmall
      simp [hzero]
  · simp [hk]

theorem ones_shifted {p : UInt8} (hpos : 0 < p.toNat) (hp : p.toNat ≤ 32) :
    ((0xffffffff : UInt32) <<< (32 - p.toUInt32)).toNat = 2 ^ 32 - 2 ^ (32 - p.toNat) := by
  have hall : ∀ n < 33, 0 < n →
      ((0xffffffff : UInt32) <<< (32 - (UInt8.ofNat n).toUInt32)).toNat = 2 ^ 32 - 2 ^ (32 - n) := by
    decide +kernel
  have hlen := hall p.toNat (Nat.lt_succ_of_le hp) hpos
  rwa [UInt8.ofNat_toNat] at hlen

/-- Masking an address gives the first one of its block. -/
theorem mask_toNat (addr : Ipv4Addr) {p : UInt8} (hp : p.toNat ≤ 32) :
    (mask addr p).toNat = addr.bits.toNat / 2 ^ (32 - p.toNat) * 2 ^ (32 - p.toNat) := by
  have hbits := addr.bits.toNat_lt
  unfold mask
  by_cases hzero : p = 0
  · subst hzero
    rw [if_pos rfl]
    show 0 = addr.bits.toNat / 2 ^ 32 * 2 ^ 32
    rw [Nat.div_eq_of_lt hbits, Nat.zero_mul]
  · have hpos : 0 < p.toNat := Nat.pos_of_ne_zero fun h => hzero (UInt8.toNat_inj.mp h)
    have hsum : p.toNat + (32 - p.toNat) = 32 := Nat.add_sub_cancel' hp
    have hand := @and_high addr.bits.toNat p.toNat (32 - p.toNat) (by rw [hsum]; exact hbits)
    rw [hsum] at hand
    rw [if_neg hzero, UInt32.toNat_and, ones_shifted hpos hp, hand]

/-! ## Ranges -/

/-- The first address of a block. -/
def rangeFirst (addr : Ipv4Addr) (prefixLen : UInt8) : ℕ :=
  addr.bits.toNat / 2 ^ (32 - prefixLen.toNat) * 2 ^ (32 - prefixLen.toNat)

/-- The addresses of a CIDR, whatever its host bits are. -/
def InRange (addr : Ipv4Addr) (prefixLen : UInt8) (x : Ipv4Addr) : Prop :=
  rangeFirst addr prefixLen ≤ x.bits.toNat ∧ x.bits.toNat < rangeFirst addr prefixLen + 2 ^ (32 - prefixLen.toNat)

theorem inRange_iff {addr x : Ipv4Addr} {p : UInt8} :
    InRange addr p x ↔ x.bits.toNat / 2 ^ (32 - p.toNat) = addr.bits.toNat / 2 ^ (32 - p.toNat) := by
  have hpos : 0 < 2 ^ (32 - p.toNat) := Nat.two_pow_pos _
  unfold InRange rangeFirst
  rw [Nat.div_eq_iff hpos]
  constructor
  · intro h
    omega
  · intro h
    omega

theorem parseCidr_le {b : String} {addr : Ipv4Addr} {p : UInt8} (h : parseCidr b = some (addr, p)) : p.toNat ≤ 32 := by
  obtain ⟨⟨a, q⟩, hcut, h⟩ := Option.bind_eq_some_iff.mp h
  obtain ⟨x, -, h⟩ := Option.bind_eq_some_iff.mp h
  cases h
  unfold cidrParts at hcut
  split at hcut
  · obtain ⟨q', hq, heq⟩ := Option.map_eq_some_iff.mp hcut
    cases heq
    exact UInt8.le_iff_toNat_le.mp (of_decide_eq_true (Option.filter_eq_some_iff.mp hq).2)
  · cases hcut
    decide

theorem network_masked {s : String} {n : Subnet} (h : Subnet.parse s = .ok n) :
    ∃ addr, n.network = mask addr n.prefixLen := by
  unfold Subnet.parse at h
  split at h
  · cases h
  split at h
  · rename_i addr len _ _
    split at h
    · rename_i hlen
      cases h
      have hne : len ≠ 0 := by
        rintro rfl
        exact absurd hlen.1 (by decide)
      exact ⟨addr, (if_neg hne).symm⟩
    · cases h
  · cases h

/-- A subnet begins with a block, and holds just that block. -/
theorem contains_iff {s : String} {n : Subnet} (h : Subnet.parse s = .ok n) (x : Ipv4Addr) :
    n.contains x = true ↔
      x.bits.toNat / 2 ^ (32 - n.prefixLen.toNat) = n.network.toNat / 2 ^ (32 - n.prefixLen.toNat) := by
  have hvalid := Subnet.parse_valid h
  have hpos : 0 < 2 ^ (32 - n.prefixLen.toNat) := Nat.two_pow_pos _
  have hlast := Subnet.broadcast_toNat hvalid
  obtain ⟨addr, haddr⟩ := network_masked h
  have hfirst := mask_toNat addr (Nat.le_trans hvalid.prefix_le (by decide))
  rw [← haddr] at hfirst
  unfold Subnet.count at hlast
  unfold Subnet.contains
  rw [decide_eq_true_eq, UInt32.le_iff_toNat_le, UInt32.le_iff_toNat_le, hlast, Nat.div_eq_iff hpos, hfirst,
    Nat.mul_div_cancel _ hpos]

theorem toNat_min (a b : UInt8) : (min a b).toNat = min a.toNat b.toNat := by
  show (if a ≤ b then a else b).toNat = _
  by_cases h : a ≤ b
  · rw [if_pos h, Nat.min_eq_left (UInt8.le_iff_toNat_le.mp h)]
  · rw [if_neg h, Nat.min_eq_right (Nat.le_of_not_le fun hle => h (UInt8.le_iff_toNat_le.mpr hle))]

/-- The masks at the shorter prefix are equal exactly when the blocks have an address in common. -/
theorem overlaps_iff {s : String} {n : Subnet} (h : Subnet.parse s = .ok n) {b : String} {addr : Ipv4Addr} {p : UInt8}
    (hb : parseCidr b = some (addr, p)) :
    overlaps n b = true ↔ ∃ x, n.contains x = true ∧ InRange addr p x := by
  have hn := (Subnet.parse_valid h).prefix_le
  have hp := parseCidr_le hb
  have hle : (min n.prefixLen p).toNat ≤ 32 := by
    rw [toNat_min]
    omega
  have hmin : 32 - (min n.prefixLen p).toNat = max (32 - n.prefixLen.toNat) (32 - p.toNat) := by
    rw [toNat_min]
    omega
  have hmasks : overlaps n b = true ↔ n.network.toNat / 2 ^ max (32 - n.prefixLen.toNat) (32 - p.toNat) =
      addr.bits.toNat / 2 ^ max (32 - n.prefixLen.toNat) (32 - p.toNat) := by
    have hpos : 0 < 2 ^ max (32 - n.prefixLen.toNat) (32 - p.toNat) := Nat.two_pow_pos _
    unfold overlaps
    rw [hb]
    dsimp only
    rw [beq_iff_eq, ← UInt32.toNat_inj, mask_toNat _ hle, mask_toNat _ hle, hmin]
    exact Nat.mul_left_inj (Nat.ne_of_gt hpos)
  rw [hmasks, ← blocks_meet n.network.toNat_lt addr.bits.toNat_lt]
  constructor
  · intro hmeet
    obtain ⟨z, hz, hsubnet, hroute⟩ := hmeet
    rw [← UInt32.toNat_ofNat_of_lt hz] at hsubnet hroute
    exact ⟨⟨UInt32.ofNat z⟩, (contains_iff h _).mpr hsubnet, inRange_iff.mpr hroute⟩
  · intro hmeet
    obtain ⟨x, hsubnet, hroute⟩ := hmeet
    exact ⟨x.bits.toNat, x.bits.toNat_lt, (contains_iff h x).mp hsubnet, inRange_iff.mp hroute⟩

/-! ## Reports -/

def Json.dst (r : Json) : Option String := (r.field "dst").asStr

def Json.dev (r : Json) : String := ((r.field "dev").asStr).getD ""

/-- A route that is not the default one and not on an own bridge, and whose range meets the subnet. -/
def Conflicts (subnet : Subnet) (ownBridges : List String) (r : Json) : Prop :=
  ∃ dst, r.dst = some dst ∧ dst ≠ "default" ∧ r.dev ∉ ownBridges ∧
    ∃ addr p, parseCidr dst = some (addr, p) ∧ ∃ x, subnet.contains x = true ∧ InRange addr p x

def reportOf (r : Json) : String :=
  let dst := r.dst.getD ""
  s!"{dst} on {r.dev}"

theorem overlaps_parsed {n : Subnet} {b : String} (h : overlaps n b = true) :
    ∃ addr p, parseCidr b = some (addr, p) := by
  unfold overlaps at h
  cases hb : parseCidr b with
  | none =>
    rw [hb] at h
    cases h
  | some r => exact ⟨r.1, r.2, rfl⟩

theorem conflictOf_eq {s : String} {n : Subnet} (h : Subnet.parse s = .ok n) (own : List String) (r : Json)
    [Decidable (Conflicts n own r)] :
    conflictOf n own r = if Conflicts n own r then some (reportOf r) else none := by
  unfold conflictOf
  cases hdst : (r.field "dst").asStr with
  | none =>
    have hno : ¬Conflicts n own r := by
      intro hc
      obtain ⟨dst, hsome, -⟩ := hc
      cases hdst.symm.trans hsome
    rw [if_neg hno]
    rfl
  | some dst =>
    have hreport : reportOf r = s!"{dst} on {r.dev}" := by
      unfold reportOf Json.dst
      rw [hdst]
      rfl
    by_cases hskip : dst = "default" ∨ r.dev ∈ own
    · have hno : ¬Conflicts n own r := by
        intro hc
        obtain ⟨dst', hsome, hdefault, hown, -⟩ := hc
        cases hdst.symm.trans hsome
        exact hskip.elim hdefault hown
      rw [if_neg hno]
      exact if_pos hskip
    · obtain ⟨hdefault, hown⟩ := not_or.mp hskip
      refine (if_neg hskip).trans ?_
      by_cases hover : overlaps n dst = true
      · obtain ⟨addr, p, hp⟩ := overlaps_parsed hover
        have hyes : Conflicts n own r := ⟨dst, hdst, hdefault, hown, addr, p, hp, (overlaps_iff h hp).mp hover⟩
        rw [if_pos hover, if_pos hyes, hreport]
        rfl
      · have hno : ¬Conflicts n own r := by
          intro hc
          obtain ⟨dst', hsome, -, -, addr, p, hp, hmeet⟩ := hc
          cases hdst.symm.trans hsome
          exact hover ((overlaps_iff h hp).mpr hmeet)
        rw [if_neg hover, if_neg hno]

theorem filterMap_if {α β : Type} {f : α → Option β} {P : α → Prop} [DecidablePred P] {g : α → β}
    (h : ∀ a, f a = if P a then some (g a) else none) (xs : List α) : xs.filterMap f = (xs.filter (P ·)).map g := by
  induction xs with
  | nil => rfl
  | cons a xs ih =>
    by_cases hP : P a
    · have hf : f a = some (g a) := (h a).trans (if_pos hP)
      rw [List.filterMap_cons_some hf, @List.filter_cons_of_pos _ (P ·) _ _ (decide_eq_true hP), List.map_cons, ih]
    · have hf : f a = none := (h a).trans (if_neg hP)
      rw [List.filterMap_cons_none hf, @List.filter_cons_of_neg _ (P ·) _ _ (by simpa using hP), ih]

open Classical in
/-- A CIDR overlaps a subnet exactly when they have an address in common, and the lines reported are those of the
routes that are not the default one, not on an own bridge, and do. -/
theorem overlap_exact :
    (∀ s n, Subnet.parse s = .ok n → ∀ b addr p, parseCidr b = some (addr, p) →
      (overlaps n b = true ↔ ∃ x, n.contains x = true ∧ InRange addr p x)) ∧
    ∀ s n, Subnet.parse s = .ok n → ∀ decode text own,
      routeConflicts decode text n own = (((decode text).getD []).filter (Conflicts n own ·)).map reportOf := by
  constructor
  · intro s n h b addr p hb
    exact overlaps_iff h hb
  · intro s n h decode text own
    exact filterMap_if (fun r => conflictOf_eq h own r) _

/-- A bare address in the default subnet, whose own host bits are set. -/
theorem bare_address_overlaps :
    ∃ x, Subnet.contains ⟨0xac1e0000, 16⟩ x = true ∧ InRange ⟨0xac1e0101⟩ 32 x :=
  (overlap_exact.1 "172.30.0.0/16" ⟨0xac1e0000, 16⟩ (by decide +kernel) "172.30.1.1" ⟨0xac1e0101⟩ 32
    (by decide +kernel)).mp (by decide +kernel)

end Collocate.Setup
