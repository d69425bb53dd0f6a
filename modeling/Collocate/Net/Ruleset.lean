import Collocate.Lib.OrdMap
import Collocate.Net.Ipam

/-! # The firewall script (`collocate-net/src/ruleset.rs`)

What the daemon hands to `nft`: one table, replaced as a whole, with the published ports of the live
containers and the load balancers. -/
namespace Collocate
set_option autoImplicit false

structure ContainerPorts where
  id : ContainerId
  addr : Ipv4Addr
  publish : List Publish
  deriving DecidableEq, Repr

structure Backend where
  addr : Ipv4Addr
  port : UInt16
  weight : UInt32
  deriving DecidableEq, Repr

structure LbRule where
  name : String
  vip : Ipv4Addr
  proto : Proto
  listen : UInt16
  publish : List UInt16
  algorithm : Algorithm
  backends : List Backend
  onNoBackends : NoBackends
  deriving DecidableEq, Repr

structure Ruleset where
  bridge : String
  subnet : Subnet
  containers : List ContainerPorts
  lbs : List LbRule
  deriving DecidableEq, Repr

namespace Ruleset

def maxWeight : UInt32 := 100

def expand (backends : List Backend) : List Backend :=
  backends.flatMap fun b => List.replicate (min b.weight maxWeight).toNat b

/-- Text in braces, with a blank on each side. -/
def braced (body : String) : String := "\x7b " ++ body ++ " \x7d"

def dnatExpr (lb : LbRule) (entries : List Backend) : String :=
  let n := entries.length
  let generator := match lb.algorithm with
    | .roundRobin => s!"numgen inc mod {n}"
    | .random => s!"numgen random mod {n}"
    | .sourceHash => s!"jhash ip saddr mod {n}"
  let map := entries.zipIdx.map fun (b, i) => s!"{i} : {b.addr.display} . {b.port}"
  s!"dnat ip addr . port to {generator} map " ++ braced (Text.joinWith ", " map)

/-- The rules of the four chains, in the order they are written. -/
structure Chains where
  pre : String := ""
  out : String := ""
  post : String := ""
  input : String := ""

def addPort (br : String) (c : ContainerPorts) (s : Chains) (p : Publish) : Chains :=
  let tag := nftTag c.id
  let target := s!"dnat ip to {c.addr.display}:{p.container}"
  let rule := s!"fib daddr type local {p.proto.display} dport {p.host} {target} comment \"{tag}\"\n"
  { s with
    pre := s.pre ++ s!"    iifname != \"{br}\" " ++ rule
    out := s.out ++ "    " ++ rule }

def addContainer (br : String) (s : Chains) (c : ContainerPorts) : Chains := c.publish.foldl (addPort br c) s

/-- What is done with a connection no backend can take. -/
def verdict : NoBackends → Proto → String
  | .drop, _ => "drop"
  | .reject, .tcp => "reject with tcp reset"
  | .reject, .udp => "reject with icmp type port-unreachable"

def addListen (br : String) (lb : LbRule) (expr tag : String) (s : Chains) (port : UInt16) : Chains :=
  let rule := s!"fib daddr type local {lb.proto.display} dport {port} {expr} comment \"{tag}\"\n"
  { s with
    pre := s.pre ++ s!"    iifname != \"{br}\" " ++ rule
    out := s.out ++ "    " ++ rule }

/-- The distinct addresses of the backends that have a weight, in order. -/
def addresses (backends : List Backend) : List Ipv4Addr :=
  (OrdMap.ofList ((backends.filter fun b => decide (0 < b.weight)).map fun b => (b.addr.bits.toNat, b.addr))).values

def addLb (rs : Ruleset) (s : Chains) (lb : LbRule) : Chains :=
  let entries := expand lb.backends
  let tag := s!"collocate-lb:{lb.name}"
  if entries.isEmpty then
    { s with input := s.input ++ s!"    ip daddr {lb.vip.display} {lb.proto.display} dport {lb.listen} " ++
        s!"{verdict lb.onNoBackends lb.proto} comment \"{tag}\"\n" }
  else
    let expr := dnatExpr lb entries
    let rule := s!"    ip daddr {lb.vip.display} {lb.proto.display} dport {lb.listen} {expr} comment \"{tag}\"\n"
    let s := lb.publish.foldl (addListen rs.bridge lb expr tag) { s with pre := s.pre ++ rule, out := s.out ++ rule }
    let list := (addresses lb.backends).map Ipv4Addr.display
    { s with post := s.post ++ s!"    ip saddr {rs.subnet.display} ip daddr " ++ braced (Text.joinWith ", " list) ++
        s!" oifname \"{rs.bridge}\" masquerade comment \"{tag}\"\n" }

def chain (name hook rules : String) : String :=
  s!"  chain {name} \x7b\n    type {hook}; policy accept;\n{rules}  \x7d\n"

def render (rs : Ruleset) : String :=
  let br := rs.bridge
  let s := rs.lbs.foldl (addLb rs) (rs.containers.foldl (addContainer br) {})
  "add table inet collocate\ndelete table inet collocate\ntable inet collocate \x7b\n" ++
    chain "prerouting" "nat hook prerouting priority dstnat" s.pre ++
    chain "output" "nat hook output priority -100" s.out ++
    chain "postrouting" "nat hook postrouting priority srcnat"
      (s!"    ip saddr {rs.subnet.display} oifname != \"{br}\" masquerade\n" ++
        s!"    ip saddr 127.0.0.0/8 oifname \"{br}\" masquerade\n" ++ s.post) ++
    chain "forward" "filter hook forward priority filter"
      ("    ct state established,related accept\n" ++
        s!"    iifname \"{br}\" accept\n    oifname \"{br}\" accept\n") ++
    chain "input" "filter hook input priority filter" s.input ++ "\x7d\n"

end Ruleset
end Collocate
