import Mathlib.Data.List.Infix
import Collocate.Lib.View
import Collocate.Net.Ipam

/-! # The interfaces of containers (`collocate-net/src/netcfg.rs`)

The commands that make, move and remove the pair of interfaces of a container, and what `ip` does to the pairs
there are. Commands name interfaces, and the names are made from a part of the id. -/
namespace Collocate.Netcfg
set_option autoImplicit false

/-! ## Commands -/

inductive Cmd
  | add (id : ContainerId)
  | master (id : ContainerId) (bridge : String)
  | up (id : ContainerId)
  | netns (id : ContainerId) (pid : ℤ)
  | inner (pid : ℤ) (args : List String)
  | del (id : ContainerId)
  deriving DecidableEq

/-- The words of the command line. -/
def Cmd.words : Cmd → List String
  | .add id => ["ip", "link", "add", (vethNames id).1, "type", "veth", "peer", "name", (vethNames id).2]
  | .master id bridge => ["ip", "link", "set", (vethNames id).1, "master", bridge]
  | .up id => ["ip", "link", "set", (vethNames id).1, "up"]
  | .netns id pid => ["ip", "link", "set", (vethNames id).2, "netns", toString pid]
  | .inner pid args => ["nsenter", "-t", toString pid, "-n", "--"] ++ args
  | .del id => ["ip", "link", "del", (vethNames id).1]

def vethSetup (id : ContainerId) (bridge : String) : List Cmd := [.add id, .master id bridge, .up id]

def moveToNs (id : ContainerId) (pid : ℤ) : Cmd := .netns id pid

def inNsConfig (pid : ℤ) (id : ContainerId) (addr : Ipv4Addr) (prefixLen : UInt8) (gateway : Ipv4Addr) : List Cmd :=
  [.inner pid ["ip", "link", "set", "lo", "up"],
    .inner pid ["ip", "link", "set", (vethNames id).2, "name", "eth0"],
    .inner pid ["ip", "addr", "add", addr.display ++ "/" ++ toString prefixLen, "dev", "eth0"],
    .inner pid ["ip", "link", "set", "eth0", "up"],
    .inner pid ["ip", "route", "add", "default", "via", gateway.display]]

def teardownVeth (id : ContainerId) : Cmd := .del id

/-! ## Pairs of interfaces -/

/-- A pair that was made for a container; once `moved`, its other end is in a container's network namespace. -/
structure Veth where
  owner : ContainerId
  moved : Bool
  deriving DecidableEq

namespace Veth

def host (v : Veth) : String := (vethNames v.owner).1

def peer (v : Veth) : String := (vethNames v.owner).2

/-- The host knows the other end by the name. -/
def loose (name : String) (v : Veth) : Bool := !v.moved && v.peer == name

def take (name : String) (v : Veth) : Veth := if v.loose name then { v with moved := true } else v

end Veth

def fileExists : String := "RTNETLINK answers: File exists"

def cannotFind (name : String) : String := "Cannot find device \"" ++ name ++ "\""

/-- What a command does to the pairs, or what it says when it cannot. -/
def kernel (links : List Veth) : Cmd → Except String (List Veth)
  | .add id =>
    if links.any fun v => v.host == (vethNames id).1 || v.loose (vethNames id).2 then .error fileExists
    else .ok (links ++ [⟨id, false⟩])
  | .master id _ | .up id =>
    if links.any fun v => v.host == (vethNames id).1 then .ok links else .error (cannotFind (vethNames id).1)
  | .netns id _ =>
    if links.any (Veth.loose (vethNames id).2) then .ok (links.map (Veth.take (vethNames id).2))
    else .error (cannotFind (vethNames id).2)
  | .inner .. => .ok links
  | .del id =>
    if links.any fun v => v.host == (vethNames id).1 then .ok (links.filter fun v => v.host != (vethNames id).1)
    else .error (cannotFind (vethNames id).1)

abbrev Net (α : Type) := Eff (List Veth) Error α

section Run
variable (fails : Cmd → Option String)

/-- What comes of a command; `fails` gives those that fail for reasons of their own, with what they say. -/
def outcome (links : List Veth) (c : Cmd) : Except String (List Veth) :=
  match fails c with
  | some stderr => .error stderr
  | none => kernel links c

/-- `run_allowing`. -/
def runAllowing (tolerated : Option String) (c : Cmd) : Net Unit := fun links =>
  match outcome fails links c with
  | .ok links' => (.ok (), links')
  | .error stderr =>
    if tolerated.any fun (t : String) => decide (t.toList <:+: stderr.toList) then (.ok (), links)
    else (.error (.internal (Text.joinWith " " c.words ++ " failed: " ++ stderr)), links)

def run (c : Cmd) : Net Unit := runAllowing fails none c

/-! ## Setting a container up (`collocate-runtime/src/launch.rs`) -/

structure NetSetup where
  bridge : String
  addr : Ipv4Addr
  prefixLen : UInt8
  gateway : Ipv4Addr

/-- Before the process is there. -/
def attach (id : ContainerId) (n : NetSetup) : Net Unit :=
  (vethSetup id n.bridge).forM (runAllowing fails (some "File exists"))

/-- When it is: the other end goes into its namespace, or the pair goes. -/
def setup (id : ContainerId) (pid : ℤ) (n : NetSetup) : Net Unit := do
  let moved ← Eff.attempt do
    run fails (moveToNs id pid)
    (inNsConfig pid id n.addr n.prefixLen n.gateway).forM (run fails)
  match moved with
  | .ok () => pure ()
  | .error e =>
    let _ ← Eff.attempt (run fails (teardownVeth id))
    Eff.throw e

end Run

/-! ## Pairs of another container -/

/-- The pairs that were made for a container. -/
def linksOf (id : ContainerId) (links : List Veth) : List Veth := links.filter fun v => v.owner = id

section Apart
variable {id other : ContainerId}

/-- The two go by different names, at either end. -/
def Distinct (id other : ContainerId) : Prop := (vethNames id).1 ≠ (vethNames other).1 ∧
    (vethNames id).2 ≠ (vethNames other).2

/-- The names say the first ten digits of the id, and nothing of the last two. -/
theorem veth_short {g : String → String} (hg : Function.Injective g) :
    g (String.ofList (id.display.toList.take 10)) = g (String.ofList (other.display.toList.take 10)) ↔
      id.val / 2 ^ 8 = other.val / 2 ^ 8 := by
  have hshort (i : ContainerId) : i.display.toList.take 10 = Text.hexPad 10 (i.val / 2 ^ 8) := by
    unfold ContainerId.display
    rw [String.toList_ofList]
    exact Text.take_hexPad 10 2 i.val
  have hbound (i : ContainerId) : i.val / 2 ^ 8 < 16 ^ 10 := by omega
  rw [hg.eq_iff, String.ofList_inj, hshort, hshort]
  exact ⟨Text.hexPad_inj (hbound id) (hbound other), fun h => by rw [h]⟩

theorem veth_host_iff : (vethNames id).1 = (vethNames other).1 ↔ id.val / 2 ^ 8 = other.val / 2 ^ 8 :=
  veth_short (g := ("vh" ++ ·)) fun _ _ h => by simpa using h

theorem veth_peer_iff : (vethNames id).2 = (vethNames other).2 ↔ id.val / 2 ^ 8 = other.val / 2 ^ 8 :=
  veth_short (g := ("vc" ++ ·)) fun _ _ h => by simpa using h

theorem distinct_iff : Distinct id other ↔ id.val / 2 ^ 8 ≠ other.val / 2 ^ 8 := by
  unfold Distinct
  rw [Ne, veth_host_iff, Ne, veth_peer_iff, and_self_iff]

theorem linksOf_append (a b : List Veth) : linksOf other (a ++ b) = linksOf other a ++ linksOf other b :=
  List.filter_append ..

theorem linksOf_add (hne : id ≠ other) (links : List Veth) :
    linksOf other (links ++ [⟨id, false⟩]) = linksOf other links := by
  have hnone : linksOf other [⟨id, false⟩] = [] := List.filter_eq_nil_iff.mpr fun v hv => by
    cases List.mem_singleton.mp hv
    simpa using hne
  rw [linksOf_append, hnone, List.append_nil]

theorem take_owner (name : String) (v : Veth) : (v.take name).owner = v.owner := by
  unfold Veth.take
  split <;> rfl

theorem linksOf_take (hpeer : (vethNames id).2 ≠ (vethNames other).2) (links : List Veth) :
    linksOf other (links.map (Veth.take (vethNames id).2)) = linksOf other links := by
  have hstays (v : Veth) (hv : v.owner = other) : v.take (vethNames id).2 = v := by
    have hloose : v.loose (vethNames id).2 = false := by
      unfold Veth.loose Veth.peer
      rw [hv, beq_eq_false_iff_ne.mpr hpeer.symm, Bool.and_false]
    unfold Veth.take
    rw [hloose]
    rfl
  unfold linksOf
  rw [List.filter_map]
  have howner : (fun v : Veth => decide (v.owner = other)) ∘ Veth.take (vethNames id).2 = fun v =>
    decide (v.owner = other) := by
    funext v
    show decide ((v.take _).owner = other) = _
    rw [take_owner]
  rw [howner]
  conv_rhs => rw [← List.map_id (List.filter _ links)]
  exact List.map_congr_left fun v hv => hstays v (by simpa using (List.mem_filter.mp hv).2)

theorem linksOf_del (hhost : (vethNames id).1 ≠ (vethNames other).1) (links : List Veth) :
    linksOf other (links.filter fun v => v.host != (vethNames id).1) = linksOf other links := by
  unfold linksOf
  rw [List.filter_filter]
  refine List.filter_congr fun v _ => ?_
  by_cases hv : v.owner = other
  · unfold Veth.host
    rw [hv, bne_iff_ne.mpr hhost.symm, Bool.and_true]
  · rw [decide_eq_false hv, Bool.false_and]

/-- A command that takes every pair there is, for they all have the name. -/
theorem kernel_del_all {links : List Veth} (h : ∀ v ∈ links, v.host = (vethNames id).1) :
    (kernel links (teardownVeth id)).toOption.getD links = [] := by
  have hfilter : links.filter (fun v => v.host != (vethNames id).1) = [] :=
    List.filter_eq_nil_iff.mpr fun v hv => by simp [h v hv]
  cases links with
  | nil => rfl
  | cons v links =>
    have hany : (v :: links).any (fun v => v.host == (vethNames id).1) = true :=
      List.any_eq_true.mpr ⟨v, List.mem_cons_self, beq_iff_eq.mpr (h v List.mem_cons_self)⟩
    simp only [teardownVeth, kernel, if_pos hany, hfilter]
    rfl

/-- The container the command is about. -/
def Cmd.For (id : ContainerId) : Cmd → Prop
  | .add id' | .master id' _ | .up id' | .netns id' _ | .del id' => id' = id
  | .inner .. => True

theorem kernel_apart (hne : id ≠ other) (hnames : Distinct id other) {c : Cmd} (hc : c.For id)
    {links links' : List Veth} (h : kernel links c = .ok links') : linksOf other links' = linksOf other links := by
  cases c with
  | add id' =>
    cases hc
    simp only [kernel] at h
    split at h <;> cases h
    exact linksOf_add hne links
  | netns id' pid =>
    cases hc
    simp only [kernel] at h
    split at h <;> cases h
    exact linksOf_take hnames.2 links
  | del id' =>
    cases hc
    simp only [kernel] at h
    split at h <;> cases h
    exact linksOf_del hnames.1 links
  | master | up =>
    simp only [kernel] at h
    split at h <;> cases h
    rfl
  | inner =>
    cases h
    rfl

/-! ## What is run for a container -/

section Quiet
variable (fails : Cmd → Option String) (hne : id ≠ other) (hnames : Distinct id other)
include hne hnames

theorem quiet_runAllowing (tolerated : Option String) {c : Cmd} (hc : c.For id) :
    Quiet (linksOf other) (runAllowing fails tolerated c) := by
  refine Quiet.of_eq fun links => ?_
  unfold runAllowing
  split
  · rename_i links' houtcome
    unfold outcome at houtcome
    split at houtcome
    · cases houtcome
    · exact kernel_apart hne hnames hc houtcome
  · split <;> rfl

theorem quiet_attach (n : NetSetup) : Quiet (linksOf other) (attach fails id n) := by
  have hadd := quiet_runAllowing fails hne hnames (some "File exists") (c := .add id) rfl
  have hmaster := quiet_runAllowing fails hne hnames (some "File exists") (c := .master id n.bridge) rfl
  have hup := quiet_runAllowing fails hne hnames (some "File exists") (c := .up id) rfl
  exact hadd.bind fun _ => hmaster.bind fun _ => hup.bind fun _ => Quiet.pure _

theorem quiet_setup (pid : ℤ) (n : NetSetup) : Quiet (linksOf other) (setup fails id pid n) := by
  have hrun {c : Cmd} (hc : c.For id) : Quiet (linksOf other) (run fails c) :=
    quiet_runAllowing fails hne hnames none hc
  have hinner (args : List String) : Quiet (linksOf other) (run fails (.inner pid args)) := hrun trivial
  have hmove : Quiet (linksOf other) (do
      run fails (moveToNs id pid)
      (inNsConfig pid id n.addr n.prefixLen n.gateway).forM (run fails)) := by
    refine (hrun (c := moveToNs id pid) rfl).bind fun _ => (hinner _).bind fun _ => (hinner _).bind fun _ =>
      (hinner _).bind fun _ => ?_
    exact (hinner _).bind fun _ => (hinner _).bind fun _ => Quiet.pure _
  refine hmove.attempt.then fun moved => ?_
  cases moved with
  | ok => exact Quiet.pure _
  | error e => exact (hrun (c := teardownVeth id) rfl).attempt.then fun _ => Quiet.throw e

end Quiet
end Apart
end Collocate.Netcfg
