import Mathlib.Algebra.GroupWithZero.Nat
import Mathlib.Order.Fin.Basic
import Collocate.Core.Error

/-! # Ids, addresses, ports and sizes

`collocate-core/src/id.rs`, `net.rs` and `size.rs`. A container id is six bytes, kept as the number
they spell (the derived order on the bytes is the order on the number). -/
namespace Collocate
set_option autoImplicit false

/-! ## Container ids -/

abbrev ContainerId := Fin (2 ^ 48)

namespace ContainerId

instance neZero : NeZero (2 ^ 48) := ⟨by decide⟩

instance lawfulBEq : LawfulBEq ContainerId := inferInstance

/-- Twelve lower-case hexadecimal digits. -/
def display (id : ContainerId) : String := String.ofList (Text.hexPad 12 id.val)

def hexVal (c : Char) : Option ℕ :=
  if Text.isDigit c then some (c.toNat - '0'.toNat)
  else if 'a' ≤ c ∧ c ≤ 'f' then some (c.toNat - 'a'.toNat + 10)
  else none

def hexNat : List Char → ℕ → Option ℕ
  | [], n => some n
  | c :: cs, n => (hexVal c).bind fun d => hexNat cs (16 * n + d)

def parse (s : String) : Result ContainerId :=
  if s.toList.length ≠ 12 then .error (.invalidId s)
  else match hexNat s.toList 0 with
    | none => .error (.invalidId s)
    | some n => .ok (Fin.ofNat (2 ^ 48) n)

end ContainerId

/-- A name wins over an id prefix. -/
def resolveRef (reference : String) (all : List (ContainerId × String)) : Result ContainerId :=
  match all.find? fun e => e.2 == reference with
  | some (id, _) => .ok id
  | none =>
    match (all.map Prod.fst).filter fun id =>
        !reference.isEmpty && Text.startsWith id.display reference with
    | [] => .error (.notFound reference)
    | [one] => .ok one
    | many => .error (.ambiguous (many.map ContainerId.display))

/-! ## IPv4 addresses -/

structure Ipv4Addr where
  bits : UInt32
  deriving DecidableEq, Repr

namespace Ipv4Addr

def octets (a : Ipv4Addr) : List ℕ :=
  let n := a.bits.toNat
  [n / 2 ^ 24, n / 2 ^ 16 % 256, n / 2 ^ 8 % 256, n % 256]

def display (a : Ipv4Addr) : String := Text.joinWith "." (a.octets.map toString)

/-- One decimal octet: one to three digits, no leading zero. -/
def parseOctet (s : String) : Option ℕ :=
  match s.toList with
  | '0' :: _ :: _ => none
  | cs => if 3 < cs.length then none else Text.parseDigits 256 cs

/-- `Ipv4Addr::from_str`. -/
def parse (s : String) : Option Ipv4Addr :=
  match (Text.split '.' s).map parseOctet with
  | [some a, some b, some c, some d] => some ⟨UInt32.ofNat (((a * 256 + b) * 256 + c) * 256 + d)⟩
  | _ => none

end Ipv4Addr

/-! ## Ports and volumes -/

inductive Proto
  | tcp
  | udp
  deriving DecidableEq, Repr

def Proto.display : Proto → String
  | .tcp => "tcp"
  | .udp => "udp"

structure Publish where
  host : UInt16
  container : UInt16
  proto : Proto
  deriving DecidableEq, Repr

namespace Publish

def port (s p : String) : Result UInt16 :=
  match (Text.parseU16 p).filter (· ≠ 0) with
  | some n => .ok n
  | none => .error (.invalidPublish s)

def parse (s : String) : Result Publish := do
  let (ports, proto) ← match Text.splitOnce '/' s with
    | none => .ok (s, Proto.tcp)
    | some (p, "tcp") => .ok (p, Proto.tcp)
    | some (p, "udp") => .ok (p, Proto.udp)
    | some _ => .error (.invalidPublish s)
  match Text.split ':' ports with
  | [host, container] =>
    let host ← port s host
    let container ← port s container
    .ok { host, container, proto }
  | _ => .error (.invalidPublish s)

def display (p : Publish) : String := s!"{p.host}:{p.container}/{p.proto.display}"

end Publish

structure Volume where
  src : String
  dst : String
  ro : Bool
  deriving DecidableEq, Repr

def validVolumeName (s : String) : Bool :=
  match s.toList with
  | [] => false
  | c :: cs => Text.isAlphanumeric c &&
      cs.all fun c => Text.isAlphanumeric c || c == '_' || c == '.' || c == '-'

namespace Volume

def check (s src dst : String) (ro : Bool) : Result Volume :=
  if src.isEmpty || !Text.startsWith dst "/" then .error (.invalidVolume s)
  else if !Text.startsWith src "/" && !validVolumeName src then .error (.invalidVolume s)
  else .ok { src, dst, ro }

def parse (s : String) : Result Volume :=
  match Text.split ':' s with
  | [src, dst] => check s src dst false
  | [src, dst, "ro"] => check s src dst true
  | [src, dst, "rw"] => check s src dst false
  | _ => .error (.invalidVolume s)

def isNamed (v : Volume) : Bool := !Text.startsWith v.src "/"

end Volume

def vethNames (id : ContainerId) : String × String :=
  let short := String.ofList (id.display.toList.take 10)
  ("vh" ++ short, "vc" ++ short)

def nftTag (id : ContainerId) : String := "collocate:" ++ id.display

inductive Algorithm
  | roundRobin
  | random
  | sourceHash
  deriving DecidableEq, Repr

inductive NoBackends
  | reject
  | drop
  deriving DecidableEq, Repr

/-! ## Sizes and durations -/

/-- The binary unit of a size suffix, as a shift. -/
def unitShift (c : Char) : Option ℕ :=
  match c with
  | 'k' | 'K' => some 10
  | 'm' | 'M' => some 20
  | 'g' | 'G' => some 30
  | 't' | 'T' => some 40
  | _ => none

/-- The digits of a size, read as a `u64` and shifted. -/
def sizeDigits (input : String) (shift : ℕ) (cs : List Char) : Result UInt64 :=
  match Text.parseDigits (2 ^ 64) cs with
  | none => .error (.invalidSize input)
  | some n => if n * 2 ^ shift < 2 ^ 64 then .ok (UInt64.ofNat (n * 2 ^ shift)) else .error (.invalidSize input)

/-- Drops one `B` or `b`, last character first. -/
def dropByte : List Char → List Char
  | 'B' :: cs => cs
  | 'b' :: cs => cs
  | cs => cs

/-- Drops the `i` of `Ki`, `Mi` and so on, last character first. -/
def dropBinary : List Char → List Char
  | c :: u :: cs => if (c = 'i' ∨ c = 'I') ∧ (unitShift u).isSome then u :: cs else c :: u :: cs
  | cs => cs

def parseSize (input : String) : Result UInt64 :=
  let s := (Text.trim input).toList
  if s.isEmpty then .error (.invalidSize input)
  else match dropBinary (dropByte s.reverse) with
    | c :: cs =>
      if Text.isAlphabetic c then
        match unitShift c with
        | some shift => sizeDigits input shift cs.reverse
        | none => .error (.invalidSize input)
      else sizeDigits input 0 (c :: cs).reverse
    | [] => .error (.invalidSize input)

/-- The unit of a duration suffix, in seconds. -/
def unitSecs (c : Char) : Option ℕ :=
  match c with
  | 's' => some 1
  | 'm' => some 60
  | 'h' => some 3600
  | 'd' => some 86400
  | _ => none

def parseDurationSecs (input : String) : Result UInt64 :=
  let bad := Error.invalid ("invalid duration " ++ Text.debugStr input)
  let s := (Text.trim input).toList
  let (digits, mult) := match s.reverse with
    | c :: cs => match unitSecs c with
      | some m => (cs.reverse, m)
      | none => (s, 1)
    | [] => (s, 1)
  match Text.parseDigits (2 ^ 64) digits with
  | none => .error bad
  | some n => if n * mult < 2 ^ 64 then .ok (UInt64.ofNat (n * mult)) else .error bad

end Collocate
