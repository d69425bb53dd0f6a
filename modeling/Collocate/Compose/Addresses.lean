import Collocate.Compose.World
import Collocate.Daemon.State
import Collocate.Net.Probing

/-! # The addresses `BuildState` chooses

`BuildState` and the daemon each manage the addresses of the subnet. The daemon knows what every container and every
load balancer of the node has; `BuildState` knows what the listed containers of its project have. -/
namespace Collocate.Compose
set_option autoImplicit false
open Probing

/-- A service and an index. -/
abbrev Replica := String × UInt32

/-! ## Owners -/

def replicaOwner (project : String) (r : Replica) : String := s!"{project}/{r.1}/{r.2}"

def vipOwner (project lb : String) : String := s!"vip:{project}/{lb}"

theorem toString_no_slash (n : UInt32) : '/' ∉ (toString n).toList := by
  intro hmem
  have hdigit : Char.isDigit '/' := Text.toString_digits (n := n.toNat) hmem
  exact absurd hdigit (by decide)

theorem replicaOwner_toList (project : String) (r : Replica) :
    (replicaOwner project r).toList = project.toList ++ '/' :: (r.1.toList ++ '/' :: (toString r.2).toList) := by
  have howner : replicaOwner project r = project ++ "/" ++ r.1 ++ "/" ++ toString r.2 := rfl
  have hslash : "/".toList = ['/'] := rfl
  rw [howner]
  simp only [String.toList_append, hslash, List.append_assoc, List.singleton_append]
  rfl

theorem vipOwner_toList (project lb : String) :
    (vipOwner project lb).toList = "vip:".toList ++ (project.toList ++ '/' :: lb.toList) := by
  have howner : vipOwner project lb = "vip:" ++ project ++ "/" ++ lb := rfl
  have hslash : "/".toList = ['/'] := rfl
  rw [howner]
  simp only [String.toList_append, hslash, List.append_assoc, List.singleton_append]

theorem replicaOwner_injective (project : String) : Function.Injective (replicaOwner project) := by
  rintro ⟨svc, i⟩ ⟨svc', j⟩ h
  have hlist := congrArg String.toList h
  rw [replicaOwner_toList, replicaOwner_toList] at hlist
  have htail := (List.cons.inj (List.append_cancel_left hlist)).2
  -- Read from the end: the number has no slash, so the first slash ends it.
  have hcut := congrArg (fun l => Text.cutAt '/' l.reverse) htail
  have hno (n : UInt32) : '/' ∉ (toString n).toList.reverse := by
    rw [List.mem_reverse]
    exact toString_no_slash n
  simp only [List.reverse_append, List.reverse_cons, List.append_assoc, List.singleton_append,
    Text.cutAt_append (hno _), Option.some.injEq, Prod.mk.injEq, List.reverse_inj, String.toList_inj] at hcut
  have hnumber : toString i.toNat = toString j.toNat := hcut.1
  have hparse := Text.parseUnsigned_toString i.toNat_lt
  rw [hnumber, Text.parseUnsigned_toString j.toNat_lt] at hparse
  rw [hcut.2, UInt32.toNat_inj.mp (Option.some.inj hparse).symm]

theorem vipOwner_injective (project : String) : Function.Injective (vipOwner project) := by
  intro lb lb' h
  have hlist := congrArg String.toList h
  rw [vipOwner_toList, vipOwner_toList] at hlist
  have htail := List.append_cancel_left (List.append_cancel_left hlist)
  exact String.toList_inj.mp (List.cons.inj htail).2

/-- A word cannot be followed by `a` both where it stands and moved behind a word without `a`. -/
theorem append_shifted {α : Type} {a : α} {w : List α} (hw : w ≠ []) (ha : a ∉ w) (l x y : List α) :
    l ++ a :: x ≠ w ++ (l ++ a :: y) := by
  generalize hn : l.length = n
  induction n using Nat.strong_induction_on generalizing l with
  | _ n ih =>
    intro heq
    rcases List.append_eq_append_iff.mp heq with ⟨rest, hrest, htail⟩ | ⟨rest, hrest, htail⟩
    · -- The word ends inside `w`, where `a` then stands.
      cases rest with
      | nil =>
        rw [List.append_nil] at hrest
        rw [List.nil_append] at htail
        subst hrest
        cases w with
        | nil => exact hw rfl
        | cons b w =>
          rw [List.cons_append] at htail
          rw [(List.cons.inj htail).1] at ha
          exact ha List.mem_cons_self
      | cons b rest =>
        rw [List.cons_append] at htail
        rw [hrest, ← (List.cons.inj htail).1] at ha
        exact ha (List.mem_append_right _ List.mem_cons_self)
    · have hpos : 0 < w.length := List.length_pos_of_ne_nil hw
      have hlen := congrArg List.length hrest
      rw [List.length_append] at hlen
      refine ih rest.length (by omega) rest rfl ?_
      rw [← htail, hrest, List.append_assoc]

theorem replicaOwner_ne_vipOwner (project : String) (r : Replica) (lb : String) :
    replicaOwner project r ≠ vipOwner project lb := by
  intro h
  have hlist := congrArg String.toList h
  rw [replicaOwner_toList, vipOwner_toList] at hlist
  exact append_shifted (by decide) (by decide) _ _ _ hlist

/-! ## The two ranges -/

def poolLen (m : Ipam) : UInt32 := m.poolEnd - m.first + 1

def replicaHash (x : Extern) (project : String) (r : Replica) : UInt64 := hashU64 x.sha256 [project, r.1, toString r.2]

def vipHash (x : Extern) (project lb : String) : UInt64 := hashU64 x.sha256 [project, lb, "vip"]

section Ranges
variable {x : Extern} {project : String} {m m' : Ipam} {n : Subnet} {a : Ipv4Addr}

theorem forService_pick (r : Replica) : m.forService x.sha256 project r.1 r.2 =
    m.pick (replicaOwner project r) (replicaHash x project r) m.first (poolLen m) := rfl

theorem vip_pick {lb : String} (h : m.vip x.sha256 project lb = .ok (a, m')) :
    m.pick (vipOwner project lb) (vipHash x project lb) (m.poolEnd + 1) m.vipCount = .ok (a, m') := by
  unfold Ipam.pick
  cases hhas : m.byOwner (vipOwner project lb) with
  | some b =>
    rw [Ipam.vip_of_some hhas] at h
    exact h
  | none =>
    rw [Ipam.vip_of_none hhas] at h
    split at h
    · cases h
    · exact h

/-- The ranges depend on the subnet alone. -/
theorem ranges_eq (h : m.subnet = m'.subnet) : m.first = m'.first ∧ m.poolEnd = m'.poolEnd ∧
    m.vipCount = m'.vipCount := by
  have hfirst : m.first = m'.first := by rw [Ipam.first, h, Ipam.first]
  have hlast : m.last = m'.last := by rw [Ipam.last, h, Ipam.last]
  have hcount : m.vipCount = m'.vipCount := by rw [Ipam.vipCount, hfirst, hlast, Ipam.vipCount]
  exact ⟨hfirst, by rw [Ipam.poolEnd, hlast, hcount, Ipam.poolEnd], hcount⟩

theorem poolLen_toNat (hm : m.subnet.Valid) : (poolLen m).toNat = m.poolEnd.toNat - m.first.toNat + 1 := by
  have hpool := Ipam.pool_bounds hm
  have hle : m.first ≤ m.poolEnd := by
    rw [UInt32.le_iff_toNat_le]
    exact hpool.1
  rw [poolLen, UInt32.toNat_add, UInt32.toNat_sub_of_le _ _ hle]
  exact Nat.mod_eq_of_lt (show m.poolEnd.toNat - m.first.toNat + 1 < 2 ^ 32 by omega)

theorem range_lens (hm : m.subnet.Valid) : (poolLen m).toNat ≤ 2 ^ 24 ∧ m.vipCount.toNat ≤ 2 ^ 24 := by
  have hpool := Ipam.pool_bounds hm
  have hcount := Subnet.count_bounds hm
  have hfirst := Ipam.first_toNat hm
  have hlast := Ipam.last_toNat hm
  rw [poolLen_toNat hm]
  omega

/-- No slot of one range is one of the other. -/
theorem ranges_apart (hm : m.subnet.Valid) {s t : ℕ} (hs : s < (poolLen m).toNat) (ht : t < m.vipCount.toNat) :
    Ipam.slotAddr m.first s ≠ Ipam.slotAddr (m.poolEnd + 1) t := by
  intro h
  have hpool := Ipam.pool_bounds hm
  rw [poolLen_toNat hm] at hs
  have hbits := congrArg (fun a : Ipv4Addr => a.bits.toNat) h
  simp only [Ipam.slotAddr] at hbits
  have hs' : (UInt32.ofNat s).toNat = s := UInt32.toNat_ofNat_of_lt' (show s < 2 ^ 32 by omega)
  have ht' : (UInt32.ofNat t).toNat = t := UInt32.toNat_ofNat_of_lt' (show t < 2 ^ 32 by omega)
  have hnext : (m.poolEnd + 1).toNat = m.poolEnd.toNat + 1 := by
    rw [UInt32.toNat_add]
    exact Nat.mod_eq_of_lt (show m.poolEnd.toNat + 1 < 2 ^ 32 by omega)
  rw [UInt32.toNat_add, UInt32.toNat_add, hs', ht', hnext, Nat.mod_eq_of_lt (by omega),
    Nat.mod_eq_of_lt (by omega)] at hbits
  omega

end Ranges

/-! ## Serving replicas and load balancers -/

section Served
variable (x : Extern) (project : String) (n : Subnet)

/-- The calls of `for_service` for these replicas give out these addresses. -/
def ServesPool (m : Ipam) (rs : List Replica) (addrs : List Ipv4Addr) (m' : Ipam) : Prop :=
  Serves (poolLen (Ipam.new n)).toNat (fun r => Ipam.home (poolLen (Ipam.new n)) (replicaHash x project r))
    (Ipam.slotAddr (Ipam.new n).first) (fun r => m.byOwner (replicaOwner project r))
    (m.taken (Ipam.new n).first (poolLen (Ipam.new n))) rs addrs (fun r => m'.byOwner (replicaOwner project r))
    (m'.taken (Ipam.new n).first (poolLen (Ipam.new n)))

/-- The calls of `vip` for these load balancers give out these addresses. -/
def ServesVips (m : Ipam) (names : List String) (addrs : List Ipv4Addr) (m' : Ipam) : Prop :=
  Serves (Ipam.new n).vipCount.toNat (fun name => Ipam.home (Ipam.new n).vipCount (vipHash x project name))
    (Ipam.slotAddr ((Ipam.new n).poolEnd + 1)) (fun name => m.byOwner (vipOwner project name))
    (m.taken ((Ipam.new n).poolEnd + 1) (Ipam.new n).vipCount) names addrs
      (fun name => m'.byOwner (vipOwner project name))
    (m'.taken ((Ipam.new n).poolEnd + 1) (Ipam.new n).vipCount)

/-- What the two ranges are served from is the same. -/
structure SamePool (m m' : Ipam) : Prop where
  owners : (fun r => m'.byOwner (replicaOwner project r)) = fun r => m.byOwner (replicaOwner project r)
  taken : m'.taken (Ipam.new n).first (poolLen (Ipam.new n)) = m.taken (Ipam.new n).first (poolLen (Ipam.new n))

structure SameVips (m m' : Ipam) : Prop where
  owners : (fun name => m'.byOwner (vipOwner project name)) = fun name => m.byOwner (vipOwner project name)
  taken : m'.taken ((Ipam.new n).poolEnd + 1) (Ipam.new n).vipCount =
    m.taken ((Ipam.new n).poolEnd + 1) (Ipam.new n).vipCount

variable {x project n} {m m' m'' : Ipam} {a : Ipv4Addr}

theorem SamePool.trans (h : SamePool project n m m') (h' : SamePool project n m' m'') : SamePool project n m m'' :=
  ⟨h'.owners.trans h.owners, h'.taken.trans h.taken⟩

theorem SameVips.trans (h : SameVips project n m m') (h' : SameVips project n m' m'') : SameVips project n m m'' :=
  ⟨h'.owners.trans h.owners, h'.taken.trans h.taken⟩

theorem forService_serves (hm : m.Sound n) {r : Replica} (h : m.forService x.sha256 project r.1 r.2 = .ok (a, m')) :
    ServesPool x project n m [r] [a] m' ∧ SameVips project n m m' ∧ m'.Sound n := by
  have hsound := Ipam.forService_sound hm h
  have hranges : m.first = (Ipam.new n).first ∧ m.poolEnd = (Ipam.new n).poolEnd ∧ m.vipCount = (Ipam.new n).vipCount :=
    ranges_eq hm.subnet
  have hvalid : (Ipam.new n).subnet.Valid := hm.subnet ▸ hm.valid
  have hlen : poolLen m = poolLen (Ipam.new n) := by rw [poolLen, hranges.1, hranges.2.1, poolLen]
  rw [forService_pick, hranges.1, hlen] at h
  have hlens := range_lens hvalid
  have hvips := Ipam.pick_elsewhere (vipOwner project) ((Ipam.new n).poolEnd + 1) (Ipam.new n).vipCount
    (fun name => (replicaOwner_ne_vipOwner project r name).symm)
    (fun s hs t ht => (ranges_apart hvalid ht hs).symm) hlens.1 h
  exact ⟨Ipam.pick_serves (replicaOwner_injective project) hlens.1 h, ⟨hvips.1, hvips.2⟩, hsound⟩

theorem vip_serves (hm : m.Sound n) {lb : String} (h : m.vip x.sha256 project lb = .ok (a, m')) :
    ServesVips x project n m [lb] [a] m' ∧ SamePool project n m m' ∧ m'.Sound n := by
  have hsound := Ipam.vip_sound hm h
  have hranges : m.first = (Ipam.new n).first ∧ m.poolEnd = (Ipam.new n).poolEnd ∧ m.vipCount = (Ipam.new n).vipCount :=
    ranges_eq hm.subnet
  have hvalid : (Ipam.new n).subnet.Valid := hm.subnet ▸ hm.valid
  have hpick := vip_pick h
  rw [hranges.2.1, hranges.2.2] at hpick
  have hlens := range_lens hvalid
  have hpool := Ipam.pick_elsewhere (replicaOwner project) (Ipam.new n).first (poolLen (Ipam.new n))
    (fun r => replicaOwner_ne_vipOwner project r lb) (fun s hs t ht => ranges_apart hvalid hs ht) hlens.2 hpick
  exact ⟨Ipam.pick_serves (vipOwner_injective project) hlens.2 hpick, ⟨hpool.1, hpool.2⟩, hsound⟩

/-- The replicas of a service from index `i` on. -/
def indices (svc : String) (i k : ℕ) : List Replica := (List.range' i k).map fun j => (svc, UInt32.ofNat j)

/-- The replicas that the file has of these services. -/
def replicaKeys (file : ComposeFile) (order : List String) : List Replica :=
  order.flatMap fun svc => indices svc 0 (replicasOf file svc)

theorem serviceAddresses_serves {svc : String} {k i : ℕ} {list : List Ipv4Addr} (hm : m.Sound n)
    (h : serviceAddresses x project svc k (UInt32.ofNat i) m = .ok (list, m')) :
    ServesPool x project n m (indices svc i k) list m' ∧ SameVips project n m m' ∧ m'.Sound n := by
  induction k generalizing i m list with
  | zero =>
    cases h
    exact ⟨.nil _ _, ⟨rfl, rfl⟩, hm⟩
  | succ k ih =>
    obtain ⟨⟨a, m₁⟩, hfirst, h⟩ := Result.bind_ok h
    obtain ⟨⟨rest, m₂⟩, hrest, h⟩ := Result.bind_ok h
    cases h
    obtain ⟨hserve, hsame, hm₁⟩ := forService_serves (r := (svc, UInt32.ofNat i)) hm hfirst
    have hnext : UInt32.ofNat i + 1 = UInt32.ofNat (i + 1) := (UInt32.ofNat_add i 1).symm
    rw [hnext] at hrest
    obtain ⟨hserve', hsame', hm'⟩ := ih hm₁ hrest
    exact ⟨hserve.append hserve', hsame.trans hsame', hm'⟩

theorem allAddresses_serves {file : ComposeFile} {order : List String} {addresses : List (String × List Ipv4Addr)}
    (hm : m.Sound n) (h : allAddresses x file order m = .ok (addresses, m')) :
    addresses.map Prod.fst = order ∧ (∀ e ∈ addresses, e.2.length = replicasOf file e.1) ∧
      ServesPool x file.project n m (replicaKeys file order) (addresses.flatMap Prod.snd) m' ∧
      SameVips file.project n m m' ∧ m'.Sound n := by
  induction order generalizing m addresses with
  | nil =>
    cases h
    exact ⟨rfl, fun e he => (by cases he), .nil _ _, ⟨rfl, rfl⟩, hm⟩
  | cons svc order ih =>
    obtain ⟨⟨list, m₁⟩, hfirst, h⟩ := Result.bind_ok h
    obtain ⟨⟨others, m₂⟩, hrest, h⟩ := Result.bind_ok h
    cases h
    obtain ⟨hserve, hsame, hm₁⟩ := serviceAddresses_serves (i := 0) hm hfirst
    obtain ⟨hnames, hlengths, hserve', hsame', hm'⟩ := ih hm₁ hrest
    refine ⟨congrArg (svc :: ·) hnames, ?_, hserve.append hserve', hsame.trans hsame', hm'⟩
    rintro e he
    rcases List.mem_cons.mp he with rfl | he
    · have hlen := hserve.length
      rw [indices, List.length_map, List.length_range'] at hlen
      exact hlen
    · exact hlengths e he

theorem allVips_serves {names : List String} {vips : List (String × Ipv4Addr)} (hm : m.Sound n)
    (h : allVips x project names m = .ok (vips, m')) :
    vips.map Prod.fst = names ∧ ServesVips x project n m names (vips.map Prod.snd) m' ∧ SamePool project n m m' ∧
      m'.Sound n := by
  induction names generalizing m vips with
  | nil =>
    cases h
    exact ⟨rfl, .nil _ _, ⟨rfl, rfl⟩, hm⟩
  | cons name names ih =>
    obtain ⟨⟨a, m₁⟩, hfirst, h⟩ := Result.bind_ok h
    obtain ⟨⟨others, m₂⟩, hrest, h⟩ := Result.bind_ok h
    cases h
    obtain ⟨hserve, hsame, hm₁⟩ := vip_serves hm hfirst
    obtain ⟨hnames, hserve', hsame', hm'⟩ := ih hm₁ hrest
    exact ⟨congrArg (name :: ·) hnames, hserve.append hserve', hsame.trans hsame', hm'⟩

end Served

/-! ## What is known beforehand -/

/-- What reserving for replicas preserves holds of what is known of the listed containers. -/
theorem reserveExisting_rule {project : String} {P : Ipam → Prop}
    (hreserve : ∀ m r addr m', P m → m.reserve addr (replicaOwner project r) = .ok m' → P m') {m : Ipam} (hm : P m)
    (existing : List ContainerInfo) : P (reserveExisting project m existing) := by
  unfold reserveExisting
  induction existing generalizing m with
  | nil => exact hm
  | cons c existing ih =>
    rw [List.foldl_cons]
    refine ih ?_
    split
    · rename_i addr svc _ _
      split
      · rename_i i _
        split
        · rename_i m' hr
          exact hreserve m (svc, i) addr m' hm hr
        · exact hm
      · exact hm
    · exact hm

/-- What is known of the listed containers. -/
def listedIpam (project : String) (n : Subnet) (existing : List ContainerInfo) : Ipam :=
  reserveExisting project (Ipam.new n) existing

theorem listedIpam_sound {n : Subnet} (hn : n.Valid) (project : String) (existing : List ContainerInfo) :
    (listedIpam project n existing).Sound n :=
  reserveExisting_rule (P := fun m => m.Sound n) (fun _ _ _ _ hm hr => Ipam.reserve_sound hm hr)
    (Ipam.new_sound hn) existing

theorem listedIpam_vip (project : String) (n : Subnet) (existing : List ContainerInfo) (lb : String) :
    (listedIpam project n existing).byOwner (vipOwner project lb) = none := by
  refine reserveExisting_rule (P := fun m => m.byOwner (vipOwner project lb) = none) (fun m r addr m' hm hr =>
    ?_) rfl existing
  obtain ⟨-, -, -, howner, -⟩ := Ipam.reserve_ok hr
  rw [howner, Function.update_of_ne (replicaOwner_ne_vipOwner project r lb).symm]
  exact hm

end Collocate.Compose
