import Collocate.Lib.Faulty
import Collocate.Core.Auth

/-! # Trusted clients (`collocate-trust/src/lib.rs`)

The store behind remote access: the trusted certificates and the pending enrolment tokens, each a file
that is read and replaced as a whole. Files hold values and not their JSON; cryptography is a parameter,
and so is the randomness of a new secret. -/
namespace Collocate.Trust
set_option autoImplicit false

/-- SHA-256 of a secret and of a certificate, in hexadecimal, and the PEM form of certificates. -/
structure Crypto where
  hashSecret : String → String
  fromPem : String → Except String (List UInt8)
  fingerprintDer : List UInt8 → String
  derToPem : List UInt8 → String

namespace Crypto

def certificateDer (c : Crypto) (pem : String) : Result (List UInt8) :=
  match c.fromPem pem with
  | .ok der => .ok der
  | .error e => .error (.invalid s!"not a PEM certificate: {e}")

def fingerprintPem (c : Crypto) (pem : String) : Result String := (c.certificateDer pem).map c.fingerprintDer

end Crypto

structure TrustedCertificate where
  name : String
  fingerprint : String
  role : Role
  projects : List String
  certificate : String
  addedAt : UInt64
  deriving DecidableEq, Repr

def TrustedCertificate.caller (c : TrustedCertificate) : Caller := ⟨c.name, c.fingerprint, c.role, c.projects⟩

structure PendingToken where
  name : String
  secretHash : String
  role : Role
  projects : List String
  createdAt : UInt64
  expiresAt : Option UInt64
  deriving DecidableEq, Repr

def PendingToken.expired (t : PendingToken) (now : UInt64) : Bool := t.expiresAt.any fun e => decide (e ≤ now)

def xorBytes (acc : UInt8) : List UInt8 → List UInt8 → UInt8
  | x :: xs, y :: ys => xorBytes (acc ||| (x ^^^ y)) xs ys
  | _, _ => acc

/-- Looks at every byte, however soon two differ. -/
def constantTimeEq (a b : String) : Bool :=
  let as := a.toByteArray.data.toList
  let bs := b.toByteArray.data.toList
  decide (as.length = bs.length) && xorBytes 0 as bs == 0

def checkName (name : String) : Result Unit :=
  if name.isEmpty || decide (64 < name.utf8ByteSize) ||
      !(name.toList.all fun c => Text.isAlphanumeric c || c == '-' || c == '_' || c == '.' || c == '@') then
    .error (.invalid s!"trust name {Text.debugStr name} must be 1-64 letters, digits or '-', '_', '.', '@'")
  else .ok ()

/-! ## The files -/

structure Files where
  certificates : List TrustedCertificate := []
  tokens : List PendingToken := []
  deriving DecidableEq, Repr

abbrev Op (α : Type) := Eff (Faulty Files) Error α

def ioError : Error := .io "I/O error"

def certificates : Op (List TrustedCertificate) := Faulty.look ioError Files.certificates

def tokens : Op (List PendingToken) := Faulty.look ioError Files.tokens

/-- `write_private`: the directory, a temporary file and its mode, and then the rename that makes it the
file. -/
def writePrivate (put : Files → Files) : Op Unit := do
  Faulty.change ioError id
  Faulty.change ioError id
  Faulty.change ioError id
  Faulty.change ioError put

def writeCertificates (list : List TrustedCertificate) : Op Unit :=
  writePrivate fun f => { f with certificates := list }

def writeTokens (list : List PendingToken) : Op Unit := writePrivate fun f => { f with tokens := list }

/-! ## Operations -/

/-- `name_taken`: the tokens are read only if no certificate has the name. -/
def nameTaken (name : String) : Op Bool := do
  let certs ← certificates
  if certs.any fun c => c.name == name then pure true
  else do
    let list ← tokens
    pure (list.any fun t => t.name == name)

def takenError (name : String) : Error := .conflict s!"a trusted client or pending token is already named {name}"

variable (c : Crypto)

/-- `create_token`, with the secret that `random_hex` gives. -/
def createToken (name : String) (role : Role) (projects : List String) (expirySecs : Option UInt64) (now : UInt64)
    (secret : String) : Op PendingToken := do
  Eff.lift (checkName name)
  Eff.lift (validProjects projects)
  if ← nameTaken name then Eff.throw (takenError name)
  else do
    let pending := {
      name, role, projects
      secretHash := c.hashSecret secret
      createdAt := now
      expiresAt := (expirySecs.filter (0 < ·)).map fun s => now + s : PendingToken }
    let list ← tokens
    writeTokens (list ++ [pending])
    pure pending

def revokeToken (name : String) : Op Unit := do
  let list ← tokens
  let kept := list.filter fun t => t.name ≠ name
  if kept.length = list.length then Eff.throw (.notFound s!"pending token {name}")
  else writeTokens kept

def addCertificate (name pem : String) (role : Role) (projects : List String) (now : UInt64) :
    Op TrustedCertificate := do
  Eff.lift (checkName name)
  Eff.lift (validProjects projects)
  let fingerprint ← Eff.lift (c.fingerprintPem pem)
  let certs ← certificates
  if certs.any fun c => c.fingerprint == fingerprint then Eff.throw (.conflict "this certificate is already trusted")
  else do
    if ← nameTaken name then Eff.throw (takenError name)
    else do
      let der ← Eff.lift (c.certificateDer pem)
      let cert : TrustedCertificate :=
        { name, fingerprint, role, projects, certificate := c.derToPem der, addedAt := now }
      writeCertificates (certs ++ [cert])
      pure cert

/-- `position` of the first token with the hash, and `remove`. -/
def takeToken (hash : String) : List PendingToken → Option (PendingToken × List PendingToken)
  | [] => none
  | t :: rest =>
    if constantTimeEq t.secretHash hash then some (t, rest)
    else (takeToken hash rest).map fun (found, left) => (found, t :: left)

def expiredError : Error := .forbidden "the trust token has expired"

/-- The certificate that a token admits, or why not. -/
def grant (certs : List TrustedCertificate) (token : PendingToken) (pem fingerprint : String) (name : Option String)
    (now : UInt64) : Result TrustedCertificate := do
  if certs.any fun c => c.fingerprint == fingerprint then throw (.conflict "this certificate is already trusted")
  let name := (name.filter fun n => !n.isEmpty).getD token.name
  checkName name
  if certs.any fun c => c.name == name then throw (.conflict s!"a trusted client is already named {name}")
  let der ← c.certificateDer pem
  pure {
    name
    fingerprint
    role := token.role
    projects := token.projects
    certificate := c.derToPem der
    addedAt := now }

def enroll (secret pem : String) (name : Option String) (now : UInt64) : Op TrustedCertificate := do
  let list ← tokens
  match takeToken (c.hashSecret secret) list with
  | none => Eff.throw (.forbidden "the trust token is unknown or was already used")
  | some (token, rest) =>
    if token.expired now then do
      writeTokens rest
      Eff.throw expiredError
    else do
      let fingerprint ← Eff.lift (c.fingerprintPem pem)
      let certs ← certificates
      let cert ← Eff.lift (grant c certs token pem fingerprint name now)
      writeCertificates (certs ++ [cert])
      writeTokens rest
      pure cert

def lookup (fingerprint : String) : Op (Option TrustedCertificate) := do
  let certs ← certificates
  pure (certs.find? fun c => c.fingerprint == fingerprint)

/-- `str::to_ascii_lowercase`. -/
def toAsciiLowercase (s : String) : String :=
  String.ofList (s.toList.map fun c => if Text.isUpper c then Char.ofNat (c.toNat + 32) else c)

/-- The certificate goes by this name, or its fingerprint starts so. -/
def goesBy (key : String) (cert : TrustedCertificate) : Bool :=
  cert.name == key ||
    (decide (12 ≤ key.utf8ByteSize) && Text.startsWith cert.fingerprint (toAsciiLowercase key))

def remove (key : String) : Op TrustedCertificate := do
  let certs ← certificates
  match certs.filter (goesBy key) with
  | [] => Eff.throw (.notFound s!"trusted client {key}")
  | [cert] => do
    writeCertificates (certs.filter fun c => !goesBy key c)
    pure cert
  | found => Eff.throw (.ambiguous (found.map (·.name)))

end Collocate.Trust
