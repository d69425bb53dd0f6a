import Collocate.Lib.Job
import Collocate.Core.Auth
import Collocate.Remote.Http
import Collocate.Remote.Query

/-! # What a thread of the gateway does (`collocate-gateway/src/lib.rs`)

Every connection has a thread of its own. A thread is a job: its calls are what it does to the `Gateway` that all
threads share, to the daemon, to its client and to the clock, in the order of the source. The bytes that a client
sends belong to its connection. What the crates outside read is a `Codec`. -/
namespace Collocate.Gateway
set_option autoImplicit false
open Remote

def maxConnections : ℕ := 256
def enrollFailures : ℕ := 10

/-- Nanoseconds of the monotonic clock. -/
abbrev Instant := ℕ

def secs (n : ℕ) : Instant := n * 10 ^ 9
def trustTtl : Instant := secs 5
def enrollWindow : Instant := secs 60

/-- `http_status` of `collocate-remote`. -/
def httpStatus (code : ℤ) : ℕ :=
  if code = 2 then 400
  else if code = 3 then 404
  else if code = 4 then 502
  else if code = 5 then 409
  else if code = 6 then 504
  else if code = 7 then 503
  else if code = 8 ∨ code = 9 then 403
  else 500

inductive IpAddr
  | v4 (addr : Ipv4Addr)
  | v6 (addr : BitVec 128)
  deriving DecidableEq, Repr

structure Peer where
  fingerprint : Option String
  pem : Option String
  ip : Option IpAddr
  deriving DecidableEq

/-! ## What is read elsewhere -/

/-- A head as `httparse` gives it. -/
structure Parsed where
  method : Option String
  path : Option String
  headers : List (String × List UInt8)
  version : Option UInt8

/-- A head with its query. -/
structure Received where
  head : Head
  query : List (String × String)
  deriving DecidableEq

/-- `collocate_trust::Token`. -/
structure Token where
  addresses : List String
  fingerprint : String
  secret : String
  deriving DecidableEq

/-- `httparse`, `serde_json`, `base64` and `tungstenite`, whose `none` and errors are theirs; and the `Debug` text of a
response. -/
structure Codec where
  parse : List UInt8 → Option Parsed
  timedOut : String → Bool
  enrollment : List UInt8 → Except String (Option String × Option String)
  urlSafe : String → Option (List UInt8)
  standard : String → Option (List UInt8)
  token : List UInt8 → Option Token
  caller : String → Option Caller
  request : List UInt8 → Except String Request
  withoutCertificate : String → String
  acceptKey : String → String
  eofMark : List UInt8 → Bool
  debugResponse : Response → String

/-- `split_query` never runs out of range, so its default is not used. -/
def Received.of (p : Parsed) : Received :=
  let (path, query) := (splitQuery (p.path.getD "/")).getD (p.path.getD "/", [])
  { head := { method := p.method.getD "", path
              headers := p.headers.map fun h => (h.1, Text.trim (Utf8.lossy h.2))
              http10 := p.version == some 0 }
    query }

def Received.param (r : Received) (name : String) : Option String :=
  (r.query.find? fun kv => kv.1 == name).map Prod.snd

def readRequest (codec : Codec) : Prog Buffered (Option Received) := do
  match ← Buffered.readHeadBytes maxHead with
  | none => pure none
  | some bytes => match codec.parse bytes with
    | none => Eff.throw (.invalid "malformed HTTP request")
    | some parsed => pure (some (Received.of parsed))

/-- A body that is read from a connection. -/
def withBody {α : Type} (head : Head) (m : Prog Body α) : Prog Buffered α := fun conn =>
  match framing head true with
  | .error e => (.error e, conn)
  | .ok f => ((m ⟨conn, f⟩).1, (m ⟨conn, f⟩).2.conn)

/-- `Token::decode`. -/
def Token.decode (codec : Codec) (text : String) : Result Token :=
  let t := Text.trim text
  match (codec.urlSafe (Text.trimEndMatches (· == '=') t)).orElse fun _ => codec.standard t with
  | none => .error (.invalid "the trust token is not valid base64")
  | some bytes => match codec.token bytes with
    | none => .error (.invalid "the trust token is malformed")
    | some token =>
      if token.secret.isEmpty || token.fingerprint.utf8ByteSize != 64 || token.addresses.isEmpty then
        .error (.invalid "the trust token is incomplete")
      else .ok token

def constantTimeEq (a b : String) : Bool :=
  let a := a.toUTF8.data.toList
  let b := b.toUTF8.data.toList
  a.length == b.length && (a.zip b).foldl (fun acc xy => acc ||| (xy.1 ^^^ xy.2)) 0 == 0

/-! ## Calls -/

/-- A connection to the daemon. -/
abbrev Link := ℕ

/-- What `write_json` is given. -/
inductive Reply
  | response (r : Response)
  | value (json : String)
  | info (caller : Option Caller) (server : String) (client : Option String)
  deriving DecidableEq, Repr

/-- What a thread writes to its client. -/
inductive Output
  | reply (status : ℕ) (body : Reply) (keep : Bool)
  | switching (accept : String)
  | channel (channel : UInt8) (data : List UInt8)
  | exit (status : ℤ)
  | failed (e : Error)
  | chunkedHead (status : ℕ)
  | chunk (data : String)
  | finish
  deriving DecidableEq, Repr

/-- What comes over a WebSocket, within `POLL` once the stream has begun. -/
inductive Message
  | text (t : List UInt8)
  | binary (b : List UInt8)
  | close
  | other
  | timedOut (e : String)
  | failed (e : String)
  deriving DecidableEq, Repr

inductive Op
  | enter
  | leave
  | handshake
  | arrived (r : Received)
  | clock
  | cached (fingerprint : String)
  | store (fingerprint : String) (caller : Option Caller)
  | forget (fingerprint : String)
  | throttled (ip : IpAddr)
  | recordFailure (ip : IpAddr)
  | connect
  | call (link : Link) (request : Request)
  | sendWithFds (link : Link) (request : Request)
  | readResponse (link : Link)
  | pair
  | relay (data : List UInt8)
  | write (out : Output)
  | receive
  | stdin (data : List UInt8)
  | stdinEof
  | outputs
  | finished
  | hang
  deriving DecidableEq

abbrev Ans : Op → Type
  | .enter => ℕ
  | .leave | .arrived _ | .store .. | .forget _ | .recordFailure _ | .stdin _ | .stdinEof | .hang => Unit
  | .clock => Instant
  | .cached _ => Option (Option Caller)
  | .throttled _ | .relay _ => Bool
  | .connect => Result Link
  | .call .. | .readResponse _ => Result Response
  | .handshake | .sendWithFds .. | .pair | .write _ => Result Unit
  | .receive => Message
  | .outputs => List (UInt8 × List UInt8)
  | .finished => Option (Result Response)

/-- The program of a thread. -/
abbrev Thread (α : Type) := Job Op Ans Error α

def ask (op : Op) : Thread (Ans op) := Job.ask op

/-! ## Trust -/

def lookupUncached (codec : Codec) (fingerprint : String) : Thread (Option Caller) := do
  match ← ask .connect with
  | .error _ => pure none
  | .ok link => match ← ask (.call link (.trustLookup fingerprint)) with
    | .ok (.json value) => pure (codec.caller value)
    | _ => pure none

def lookup (codec : Codec) (fingerprint : String) : Thread (Option Caller) := do
  match ← ask (.cached fingerprint) with
  | some caller => pure caller
  | none =>
    let caller ← lookupUncached codec fingerprint
    ask (.store fingerprint caller)
    pure caller

/-- The caller of a request: none without a certificate. -/
def callerOf (codec : Codec) (peer : Peer) : Thread (Option Caller) :=
  match peer.fingerprint with
  | none => pure none
  | some f => lookup codec f

def stillTrusted (codec : Codec) (peer : Peer) : Thread Bool :=
  match peer.fingerprint with
  | none => pure false
  | some f => do
    ask (.forget f)
    let caller ← lookup codec f
    pure caller.isSome

def untrusted (peer : Peer) : Error :=
  match peer.fingerprint with
  | none => .forbidden "this endpoint needs a client certificate"
  | some _ => .forbidden "this client certificate is not trusted; enroll it with a trust token"

/-! ## Replies -/

def errorResponse (e : Error) : ℕ × Reply := (httpStatus e.exitCode, .response (.ofError e))

/-- A `write` with `?` behind it. -/
def put (out : Output) : Thread Unit := do
  let r ← ask (.write out)
  Job.lift r

def reply (status : ℕ) (body : Reply) (keep : Bool) : Thread Unit := put (.reply status body keep)

/-! ## Enrollment -/

def throttled (ip : Option IpAddr) : Thread Bool :=
  match ip with
  | none => pure false
  | some ip => ask (.throttled ip)

def recordFailure (ip : Option IpAddr) : Thread Unit :=
  match ip with
  | none => pure ()
  | some ip => ask (.recordFailure ip)

/-- The inner closure of `enroll`. -/
def trustEnroll (codec : Codec) (server : String) (peer : Peer) (body : List UInt8) : Thread String := do
  let (token, name) ← Job.lift ((codec.enrollment body).mapError fun e => .invalid s!"bad enrollment request: {e}")
  let token ← Job.lift (match token with
    | none => .error (.invalid "the enrollment request needs a token")
    | some token => Token.decode codec token)
  if !constantTimeEq token.fingerprint server then
    Job.throw (.invalid "this token was issued for a different server")
  else match peer.pem with
    | none => Job.throw (.invalid "enrollment needs a client certificate")
    | some pem =>
      let link ← ask .connect
      let link ← Job.lift link
      let response ← ask (.call link (.trustEnroll token.secret pem name))
      match ← Job.lift response with
      | .json value => pure (codec.withoutCertificate value)
      | other => Job.throw (.internal ("unexpected response " ++ codec.debugResponse other))

def enroll (codec : Codec) (server : String) (head : Head) (peer : Peer) (conn : Buffered) :
    Thread ((ℕ × Reply) × Buffered) := do
  match withBody head (Body.readAll (64 * 1024)) conn with
  | (.error e, conn) => pure (errorResponse e, conn)
  | (.ok body, conn) =>
    if ← throttled peer.ip then
      pure ((429, .response (.error 9 "too many failed enrollments; try again later")), conn)
    else match ← Job.attempt (trustEnroll codec server peer body) with
      | .ok value =>
        match peer.fingerprint with
        | none => pure ()
        | some f => ask (.forget f)
        pure ((201, .value value), conn)
      | .error e =>
        match e with
        | .forbidden _ | .invalid _ => recordFailure peer.ip
        | _ => pure ()
        pure (errorResponse e, conn)

/-! ## Calls of the daemon -/

/-- The attempts of `daemon_call` that are left, with the connection that is kept. -/
def attempts (request : Request) : List ℕ → Option Link → Thread (Result Response × Option Link)
  | [], daemon => pure (.error (.unreachable "the collocate daemon is not answering"), daemon)
  | n :: rest, daemon => do
    match ← (match daemon with
      | some link => pure (.ok link)
      | none => ask .connect) with
    | .error e => pure (.error e, none)
    | .ok link =>
      let result ← ask (.call link request)
      match result, n with
      | .error (.io _), 0 | .error .eof, 0 => attempts request rest none
      | other, _ => pure (other, some link)

def daemonCall (daemon : Option Link) (request : Request) : Thread (Result Response × Option Link) :=
  attempts request (List.range 2) daemon

def needsDescriptors : Request → Bool
  | .exec .. | .imageImport => true
  | _ => false

/-- The request that a body holds, if it may be called. -/
def callRequest (codec : Codec) (body : List UInt8) : Result Request :=
  match codec.request body with
  | .error e => .error (.invalid s!"bad request: {e}")
  | .ok request =>
    if needsDescriptors request then
      .error (.invalid s!"{request.verb} streams data; use the /1.0/exec or /1.0/images endpoint")
    else .ok request

def call (codec : Codec) (head : Head) (caller : Caller) (conn : Buffered) (daemon : Option Link) :
    Thread ((ℕ × Reply) × Buffered × Option Link) := do
  let (body, conn) := withBody head (Body.readAll maxFrame) conn
  let (result, daemon) ← match body.bind (callRequest codec) with
    | .error e => pure (.error e, daemon)
    | .ok request => daemonCall daemon (.as caller request)
  match result with
  | .ok r => pure ((200, .response r), conn, daemon)
  | .error (.frameTooLarge n) =>
    pure ((413, .response (.error 2 s!"request body of {n} bytes is too large")), conn, daemon)
  | .error e => pure (errorResponse e, conn, daemon)

end Collocate.Gateway
