import Mathlib.Data.Finset.Card
import Collocate.Gateway.Streams

/-! # The connections of the gateway (`collocate-gateway/src/lib.rs`)

`serve` is the loop over the requests of one connection, `connection` what `try_serve` makes of a connection. The
state that the threads share is a `World`, which also keeps what has happened, the latest first. -/
namespace Collocate.Gateway
set_option autoImplicit false
open Remote

/-! ## One connection -/

/-- What goes on after a request: the connection, unless it is to be closed. -/
def onward (keep : Bool) (conn : Buffered) (daemon : Option Link) : Option (Buffered × Option Link) :=
  if keep then some (conn, daemon) else none

def streaming : List String := ["/1.0/exec", "/1.0/images", "/1.0/logs"]

def endpoints : List String := ["/1.0", "/1.0/certificates", "/1.0/call"] ++ streaming

/-- The endpoints that need a caller, with their methods. -/
def guarded : List (String × String) :=
  [("POST", "/1.0/call"), ("GET", "/1.0/exec"), ("POST", "/1.0/images"), ("GET", "/1.0/logs")]

/-- The path that requests are told apart by. -/
def Received.endpoint (r : Received) : String := Text.trimEndMatches (· == '/') r.head.path

/-- The `match` on the route. -/
def route (codec : Codec) (rounds : ℕ) (server : String) (peer : Peer) (r : Received) (caller : Option Caller)
    (conn : Buffered) (daemon : Option Link) : Thread (Option (Buffered × Option Link)) := do
  let keep := r.head.keepAlive
  if r.head.method = "GET" ∧ r.endpoint = "/1.0" then
    let (drained, conn) := withBody r.head Body.drain conn
    Job.lift drained
    reply 200 (.info caller server peer.fingerprint) keep
    pure (onward keep conn daemon)
  else if r.head.method = "POST" ∧ r.endpoint = "/1.0/certificates" then
    let ((status, body), conn) ← enroll codec server r.head peer conn
    reply status body keep
    pure (onward keep conn daemon)
  else if (r.head.method, r.endpoint) ∈ guarded then
    match caller with
    | none =>
      let (status, body) := errorResponse (untrusted peer)
      reply status body false
      pure none
    | some caller =>
      if r.endpoint = "/1.0/call" then
        let ((status, body), conn, daemon) ← call codec r.head caller conn daemon
        reply status body keep
        pure (onward keep conn daemon)
      else if r.endpoint = "/1.0/exec" then
        exec codec rounds r.head caller peer
        pure none
      else if r.endpoint = "/1.0/images" then
        images r.head caller conn
        pure none
      else
        logs codec rounds r caller peer conn
        pure none
  else
    let (_, conn) := withBody r.head Body.drain conn
    if r.endpoint ∈ endpoints then
      reply 405 (.response (.error 2 s!"{r.head.method} is not allowed on {r.head.path}")) keep
    else reply 404 (.response (.error 3 s!"no such endpoint {r.head.path}")) keep
    pure (onward keep conn daemon)

/-- The end of a connection with a request that cannot be read. -/
def malformed (e : Error) : Thread (Option (Buffered × Option Link)) := do
  let (status, body) := errorResponse (.invalid e.payload)
  let _ ← ask (.write (.reply status body false))
  pure none

/-- One round of the loop of `serve`. -/
def turn (codec : Codec) (rounds : ℕ) (server : String) (peer : Peer) (conn : Buffered) (daemon : Option Link) :
    Thread (Option (Buffered × Option Link)) :=
  match readRequest codec conn with
  | (.ok none, _) => pure none
  | (.error .eof, _) => pure none
  | (.error (.io e), _) => if codec.timedOut e then pure none else malformed (.io e)
  | (.error e, _) => malformed e
  | (.ok (some r), conn) => do
    ask (.arrived r)
    let caller ← callerOf codec peer
    route codec rounds server peer r caller conn daemon

def serveFrom (codec : Codec) (rounds : ℕ) (server : String) (peer : Peer) : ℕ → Buffered → Option Link → Thread Unit
  | 0, _, _ => ask .hang
  | turns + 1, conn, daemon => do
    match ← turn codec rounds server peer conn daemon with
    | none => pure ()
    | some (conn, daemon) => serveFrom codec rounds server peer turns conn daemon

/-- A client: who it is and what it sends. -/
structure Client where
  peer : Peer
  sent : Source

/-- Every round that is not the last takes bytes, so the rounds are enough (`serveFrom_enough`). -/
def serve (codec : Codec) (rounds : ℕ) (server : String) (client : Client) : Thread Unit := do
  let shaken ← ask .handshake
  Job.lift shaken
  serveFrom codec rounds server client.peer (client.sent.bytes.length + 1) { inner := client.sent } none

/-- `try_serve`, and the thread it spawns. -/
def connection (codec : Codec) (rounds : ℕ) (server : String) (client : Client) : Thread Unit := do
  let before ← ask .enter
  if maxConnections ≤ before then ask .leave
  else
    let _ ← Job.attempt (serve codec rounds server client)
    ask .leave

/-! ## The threads together -/

inductive Event (ι : Type)
  | entered (i : ι) (before : ℕ)
  | left (i : ι)
  | arrived (i : ι) (r : Received) (at_ : Instant)
  | stored (i : ι) (fingerprint : String) (caller : Option Caller) (at_ : Instant)
  | checked (i : ι) (ip : IpAddr)
  | failed (i : ι) (ip : IpAddr) (at_ : Instant)
  | called (i : ι) (request : Request) (result : Result Response) (at_ : Instant)
  | sent (i : ι) (request : Request) (at_ : Instant)
  | wrote (i : ι) (out : Output) (at_ : Instant)
  deriving DecidableEq

/-- The fields of `Gateway`, the clock, and what has happened. -/
structure World (ι : Type) where
  now : Instant := 0
  cache : String → Option (Option Caller × Instant) := fun _ => none
  failures : IpAddr → List Instant := fun _ => []
  active : ℕ := 0
  trace : List (Event ι) := []

/-- How long a call takes, and what is answered from outside. -/
structure Choice where
  delay : ℕ := 0
  link : Result Link := .ok 0
  response : Result Response := .ok .ok
  outcome : Result Unit := .ok ()
  message : Message := .close
  outputs : List (UInt8 × List UInt8) := []
  exited : Option (Result Response) := none
  accepted : Bool := true

namespace World
variable {ι : Type}

def wait (w : Choice) (s : World ι) : World ι := { s with now := s.now + w.delay }

def note (e : Event ι) (s : World ι) : World ι := { s with trace := e :: s.trace }

/-- What of a list of failures is left by `retain`. -/
def recent (now : Instant) (times : List Instant) : List Instant := times.filter fun t => now - t < enrollWindow

/-- An entry of the cache that is not too old. -/
def fresh (s : World ι) (f : String) : Option (Option Caller) :=
  match s.cache f with
  | some (caller, kept) => if s.now - kept < trustTtl then some caller else none
  | none => none

theorem fresh_some {s : World ι} {f : String} {caller : Option Caller} (h : s.fresh f = some caller) :
    ∃ kept, s.cache f = some (caller, kept) ∧ s.now - kept < trustTtl := by
  unfold fresh at h
  split at h
  · rename_i caller' kept hget
    split at h
    · rename_i hyoung
      cases h
      exact ⟨kept, hget, hyoung⟩
    · cases h
  · cases h

/-- A call of the thread `i`, once its time has passed. -/
def answer (i : ι) (w : Choice) (s : World ι) : (op : Op) → Ans op × World ι
  | .enter => (s.active, note (.entered i s.active) { s with active := s.active + 1 })
  | .leave => ((), note (.left i) { s with active := s.active - 1 })
  | .handshake => (w.outcome, s)
  | .arrived r => ((), note (.arrived i r s.now) s)
  | .clock => (s.now, s)
  | .cached f => (s.fresh f, s)
  | .store f caller =>
      ((), note (.stored i f caller s.now) { s with cache := Function.update s.cache f (some (caller, s.now)) })
  | .forget f => ((), { s with cache := Function.update s.cache f none })
  | .throttled ip =>
    let times := recent s.now (s.failures ip)
    let s := { s with failures := Function.update s.failures ip times }
    if enrollFailures ≤ times.length then (true, s) else (false, note (.checked i ip) s)
  | .recordFailure ip =>
      ((), note (.failed i ip s.now) { s with failures := Function.update s.failures ip (s.failures ip ++ [s.now]) })
  | .connect => (w.link, s)
  | .call _ request => (w.response, note (.called i request w.response s.now) s)
  | .sendWithFds _ request => (w.outcome, note (.sent i request s.now) s)
  | .readResponse _ => (w.response, s)
  | .pair => (w.outcome, s)
  | .relay _ => (w.accepted, s)
  | .write out => (w.outcome, note (.wrote i out s.now) s)
  | .receive => (w.message, s)
  | .stdin _ => ((), s)
  | .stdinEof => ((), s)
  | .outputs => (w.outputs, s)
  | .finished => (w.exited, s)
  | .hang => ((), s)

def exec (i : ι) (op : Op) (w : Choice) (s : World ι) : Ans op × World ι := answer i w (wait w s) op

end World

/-- A thread that hangs does nothing more. -/
def Moves {ι : Type} (_ : ι) (op : Op) (_ : Choice) (_ : World ι) : Prop := op ≠ .hang

/-- What any number of connections do, call by call and in any order. -/
def Serving {ι : Type} [DecidableEq ι] (codec : Codec) (rounds : ℕ) (server : String) (clients : ι → Client)
    (threads : ι → Thread Unit) (s : World ι) : Prop :=
  Job.Runs World.exec Moves (fun i => connection codec rounds server (clients i)) {} threads s

end Collocate.Gateway
