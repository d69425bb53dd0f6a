import Mathlib.Logic.Function.Basic
import Collocate.Core.Net

/-! # Address management (`collocate-net/src/ipam.rs`)

A subnet's addresses and who owns them. The two maps are only looked up and updated, so they are
functions. SHA-256 is a parameter. -/
namespace Collocate
set_option autoImplicit false

structure Subnet where
  network : UInt32
  prefixLen : UInt8
  deriving DecidableEq, Repr

namespace Subnet

def parse (s : String) : Result Subnet :=
  let bad := Error.invalid s!"invalid subnet {s}"
  match Text.splitOnce '/' s with
  | none => .error bad
  | some (addr, len) =>
    match Ipv4Addr.parse addr, Text.parseU8 len with
    | some addr, some len =>
      if 8 ≤ len ∧ len ≤ 30 then
        .ok { network := addr.bits &&& (0xffffffff <<< (32 - len.toUInt32)), prefixLen := len }
      else .error bad
    | _, _ => .error bad

def size (n : Subnet) : UInt32 := 1 <<< (32 - n.prefixLen.toUInt32)

def broadcast (n : Subnet) : UInt32 := n.network + (n.size - 1)

def gateway (n : Subnet) : Ipv4Addr := ⟨n.network + 1⟩

def contains (n : Subnet) (addr : Ipv4Addr) : Bool :=
  decide (n.network ≤ addr.bits ∧ addr.bits ≤ n.broadcast)

def display (n : Subnet) : String := (Ipv4Addr.mk n.network).display ++ "/" ++ toString n.prefixLen

end Subnet

structure Ipam where
  subnet : Subnet
  byOwner : String → Option Ipv4Addr
  byAddr : Ipv4Addr → Option String

/-- `hash_u64`: the first eight bytes of the digest of the parts, each closed by a zero byte. -/
def hashU64 (sha256 : List UInt8 → List UInt8) (parts : List String) : UInt64 :=
  let bytes := parts.flatMap fun p => p.toByteArray.data.toList ++ [0]
  UInt64.ofNat (((sha256 bytes).take 8).foldl (fun n b => 256 * n + b.toNat) 0)

namespace Ipam

def new (subnet : Subnet) : Ipam := { subnet, byOwner := fun _ => none, byAddr := fun _ => none }

def vipCap : UInt32 := 255

def first (m : Ipam) : UInt32 := m.subnet.network + 2

def last (m : Ipam) : UInt32 := m.subnet.broadcast - 1

def vipCount (m : Ipam) : UInt32 := min ((m.last - m.first + 1) / 8) vipCap

def poolEnd (m : Ipam) : UInt32 := m.last - m.vipCount

def isVip (m : Ipam) (addr : Ipv4Addr) : Bool :=
  decide (0 < m.vipCount ∧ m.poolEnd < addr.bits ∧ addr.bits ≤ m.last)

def reserve (m : Ipam) (addr : Ipv4Addr) (owner : String) : Result Ipam :=
  if !m.subnet.contains addr || decide (addr.bits < m.first) || decide (m.last < addr.bits) then
    .error (.invalid (addr.display ++ " is not assignable in " ++ m.subnet.display))
  else match (m.byAddr addr).filter (· ≠ owner) with
    | some existing => .error (.conflict (addr.display ++ " is already assigned to " ++ existing))
    | none =>
      let cleared := match (m.byOwner owner).filter (· ≠ addr) with
        | some old => Function.update m.byAddr old none
        | none => m.byAddr
      .ok { m with
        byOwner := Function.update m.byOwner owner (some addr)
        byAddr := Function.update cleared addr (some owner) }

def rebuild (subnet : Subnet) (entries : List (String × Ipv4Addr)) : Result Ipam :=
  entries.foldlM (fun m e => m.reserve e.2 e.1) (new subnet)

def release (m : Ipam) (owner : String) : Ipam :=
  match m.byOwner owner with
  | some addr =>
    { m with byOwner := Function.update m.byOwner owner none, byAddr := Function.update m.byAddr addr none }
  | none => m

/-- The loop of `allocate`, over the addresses `cur` can still take. -/
def allocateFrom (m : Ipam) (owner : String) : ℕ → UInt32 → Result (Ipv4Addr × Ipam)
  | 0, _ => .error (.conflict ("subnet " ++ m.subnet.display ++ " is exhausted"))
  | fuel + 1, cur =>
    if (m.byAddr ⟨cur⟩).isNone then do
      let m' ← m.reserve ⟨cur⟩ owner
      .ok (⟨cur⟩, m')
    else allocateFrom m owner fuel (cur + 1)

def allocate (m : Ipam) (owner : String) : Result (Ipv4Addr × Ipam) :=
  match m.byOwner owner with
  | some a => .ok (a, m)
  | none => allocateFrom m owner (m.poolEnd.toNat + 1 - m.first.toNat) m.first

/-- The loop of `probe`, with `left` of the `len` steps to go. -/
def probeFrom (m : Ipam) (owner : String) (start len base : UInt32) : ℕ → UInt32 → Result (Ipv4Addr × Ipam)
  | 0, _ => .error (.conflict ("address range in " ++ m.subnet.display ++ " is exhausted"))
  | left + 1, step =>
    let addr : Ipv4Addr := ⟨base + (start + step) % len⟩
    if (m.byAddr addr).isNone then do
      let m' ← m.reserve addr owner
      .ok (addr, m')
    else probeFrom m owner start len base left (step + 1)

def probe (m : Ipam) (owner : String) (start len base : UInt32) : Result (Ipv4Addr × Ipam) :=
  if len = 0 then .error (.conflict ("no address range available in " ++ m.subnet.display))
  else probeFrom m owner start len base len.toNat 0

def forService (sha256 : List UInt8 → List UInt8) (m : Ipam) (project service : String) (index : UInt32) :
    Result (Ipv4Addr × Ipam) :=
  let owner := s!"{project}/{service}/{index}"
  match m.byOwner owner with
  | some a => .ok (a, m)
  | none =>
    let len := m.poolEnd - m.first + 1
    let start := (hashU64 sha256 [project, service, toString index] % len.toUInt64).toUInt32
    m.probe owner start len m.first

def vip (sha256 : List UInt8 → List UInt8) (m : Ipam) (project lb : String) : Result (Ipv4Addr × Ipam) :=
  let owner := s!"vip:{project}/{lb}"
  match m.byOwner owner with
  | some a => .ok (a, m)
  | none =>
    let len := m.vipCount
    if len = 0 then .error (.conflict ("subnet " ++ m.subnet.display ++ " has no room for virtual addresses"))
    else
      let start := (hashU64 sha256 [project, lb, "vip"] % len.toUInt64).toUInt32
      m.probe owner start len (m.poolEnd + 1)

theorem vip_of_some {sha256 : List UInt8 → List UInt8} {m : Ipam} {project lb : String} {a : Ipv4Addr}
    (h : m.byOwner s!"vip:{project}/{lb}" = some a) : m.vip sha256 project lb = .ok (a, m) := by
  simp only [vip, h]

theorem vip_of_none {sha256 : List UInt8 → List UInt8} {m : Ipam} {project lb : String}
    (h : m.byOwner s!"vip:{project}/{lb}" = none) : m.vip sha256 project lb =
      if m.vipCount = 0 then .error (.conflict ("subnet " ++ m.subnet.display ++ " has no room for virtual addresses"))
      else
        m.probe s!"vip:{project}/{lb}" (hashU64 sha256 [project, lb, "vip"] % m.vipCount.toUInt64).toUInt32 m.vipCount
        (m.poolEnd + 1) := by
  simp only [vip, h]

end Ipam
end Collocate
