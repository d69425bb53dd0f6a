import Collocate.Gateway.Calls

/-! # The streams of the gateway (`collocate-gateway/src/lib.rs`)

`exec`, `images` and `logs` take a connection over until it ends. A loop of theirs that may go on for ever is given a
number of rounds; a thread that has made them all hangs. -/
namespace Collocate.Gateway
set_option autoImplicit false
open Remote

/-- `LogSource::from_flags`. -/
def fromFlags (raw : Bool) (services : List String) : LogSource :=
  if raw then .captured else if services.isEmpty then .auto else .pebble

/-! ## Exec -/

def channelStdin : UInt8 := 0
def channelControl : UInt8 := 3

/-- The first message of an exec stream. -/
def firstRequest (codec : Codec) : Message → Result Request
  | .text b | .binary b => (codec.request b).mapError fun e => .invalid s!"bad exec request: {e}"
  | .close | .other => .error (.invalid "the first exec message must be the request")
  | .timedOut e | .failed e => .error (.unreachable e)

/-- A message from the client goes to the standard input of the process; `false` ends the stream. -/
def fromClient (codec : Codec) : Message → Thread Bool
  | .binary (channel :: data) => do
    if channel = channelStdin then ask (.stdin data)
    else if channel = channelControl then if codec.eofMark data then ask .stdinEof
    pure true
  | .close | .failed _ => pure false
  | _ => pure true

/-- What has come out of the process, up to a write that fails: how many outputs are open still, if all were sent. -/
def toClient : List (UInt8 × List UInt8) → ℤ → Thread (Option ℤ)
  | [], opened => pure (some opened)
  | (_, []) :: rest, opened => toClient rest (opened - 1)
  | (channel, b :: data) :: rest, opened => do
    match ← ask (.write (.channel channel (b :: data))) with
    | .error _ => pure none
    | .ok _ => toClient rest opened

/-- The variables of the loop of `exec`. -/
structure Session where
  opened : ℤ := 2
  result : Option (Result Response × Instant) := none
  lastTrust : Instant

/-- What an exec stream ends with. -/
def ending (codec : Codec) (r : Result Response) : Output :=
  match intoResult (match r with
    | .ok response => response
    | .error e => .ofError e) with
  | .ok (.exit status) => .exit status
  | .ok other => .failed (.internal ("unexpected response " ++ codec.debugResponse other))
  | .error e => .failed e

/-- Whether the time to ask for the trust again has come, and if so whether it is still there. -/
def recheck (codec : Codec) (peer : Peer) (lastTrust : Instant) : Thread (Instant × Bool) := do
  let now ← ask .clock
  if trustTtl < now - lastTrust then
    let lastTrust ← ask .clock
    let trusted ← stillTrusted codec peer
    pure (lastTrust, trusted)
  else pure (lastTrust, true)

def execLoop (codec : Codec) (peer : Peer) : ℕ → Session → Thread Unit
  | 0, _ => ask .hang
  | rounds + 1, s => do
    let message ← ask .receive
    if ← fromClient codec message then
      let out ← ask .outputs
      match ← toClient out s.opened with
      | none => pure ()
      | some opened =>
        let result ← (match s.result with
          | some result => pure (some result)
          | none => do
            match ← ask .finished with
            | none => pure none
            | some r =>
              let now ← ask .clock
              pure (some (r, now)))
        let ended ← (match result with
          | none => pure none
          | some (r, since) => do
            if opened = 0 then pure (some r)
            else
              let now ← ask .clock
              pure (if secs 2 < now - since then some r else none))
        match ended with
        | some r =>
          let _ ← ask (.write (ending codec r))
          pure ()
        | none =>
          let (lastTrust, trusted) ← recheck codec peer s.lastTrust
          if trusted then execLoop codec peer rounds { opened, result, lastTrust }
          else
            let _ ← ask (.write (.failed (.forbidden "this client certificate is no longer trusted")))
            pure ()

/-- The rest of `exec`, for a request that may be streamed. -/
def execStream (codec : Codec) (rounds : ℕ) (caller : Caller) (peer : Peer) (request : Request) : Thread Unit := do
  let pair ← ask .pair
  Job.lift pair
  match ← ask .connect with
  | .error e =>
    let _ ← ask (.write (.failed e))
    pure ()
  | .ok link =>
    match ← ask (.sendWithFds link (.as caller request)) with
    | .error e =>
      let _ ← ask (.write (.failed e))
      pure ()
    | .ok _ =>
      let lastTrust ← ask .clock
      execLoop codec peer rounds { lastTrust }

def exec (codec : Codec) (rounds : ℕ) (head : Head) (caller : Caller) (peer : Peer) : Thread Unit := do
  match (head.header "sec-websocket-key").filter fun _ => head.hasToken "upgrade" "websocket" with
  | none => reply 400 (.response (.error 2 "exec needs a WebSocket upgrade")) false
  | some key =>
    put (.switching (codec.acceptKey key))
    let message ← ask .receive
    match firstRequest codec message with
    | .error e =>
      let _ ← ask (.write (.failed e))
      pure ()
    | .ok (.exec target argv env user workdir tty timeoutSecs service) =>
      execStream codec rounds caller peer (.exec target argv env user workdir tty timeoutSecs service)
    | .ok other =>
      let _ ← ask (.write (.failed (.invalid s!"{other.verb} cannot be streamed")))
      pure ()

/-! ## Images -/

/-- The loop that hands an image on to the daemon, in reads of 256 KiB, until it ends or the daemon has hung up. -/
def relayBody : ℕ → Body → Thread (Result Unit)
  | 0, _ => do
    ask .hang
    pure (.ok ())
  | rounds + 1, body =>
    match Body.read (256 * 1024) body with
    | (.error e, _) => pure (.error e)
    | (.ok [], _) => pure (.ok ())
    | (.ok (b :: data), body) => do
      if ← ask (.relay (b :: data)) then relayBody rounds body else pure (.ok ())

def relayImage (head : Head) (caller : Caller) (conn : Buffered) : Thread Response := do
  let pair ← ask .pair
  Job.lift pair
  let link ← ask .connect
  let link ← Job.lift link
  let sent ← ask (.sendWithFds link (.as caller .imageImport))
  Job.lift sent
  let framing ← Job.lift (framing head true)
  let relayed ← relayBody (conn.unread.length + 1) ⟨conn, framing⟩
  Job.lift relayed
  let response ← ask (.readResponse link)
  Job.lift response

def images (head : Head) (caller : Caller) (conn : Buffered) : Thread Unit := do
  match ← Job.attempt (relayImage head caller conn) with
  | .ok r => reply 200 (.response r) false
  | .error e =>
    let (status, body) := errorResponse e
    reply status body false

/-! ## Logs -/

/-- `write_chunk`, which writes nothing for no data. -/
def writeChunk (data : String) : Thread (Result Unit) :=
  if data.isEmpty then pure (.ok ()) else ask (.write (.chunk data))

/-- What of a request for logs stays the same. -/
structure Following where
  target : String
  follow : Bool
  services : List String
  caller : Caller
  peer : Peer

/-- The variables of the loop of `logs`. -/
structure Cursor where
  tail : Option ℕ
  source : LogSource
  daemon : Option Link := none
  offset : Option UInt64 := none
  started : Bool := false
  finishing : Bool := false
  lastTrust : Instant

/-- Whether the container that is followed still runs, as far as the daemon says. -/
def stillRunning (f : Following) : Result Response → Bool
  | .ok (.containers list) => list.any fun c =>
      (c.name == f.target || Text.startsWith c.id.display f.target) && c.state == .running
  | _ => false

/-- The end of `logs` with an error. -/
def failLogs (started : Bool) (e : Error) : Thread Unit :=
  if started then do
    let _ ← writeChunk s!"\ncollocate: {e.payload}\n"
    put .finish
  else
    let (status, body) := errorResponse e
    reply status body false

def logsLoop (codec : Codec) (f : Following) : ℕ → Cursor → Thread Unit
  | 0, _ => ask .hang
  | rounds + 1, c => do
    let request := Request.logs f.target c.tail c.offset c.source f.services
    match ← daemonCall c.daemon (.as f.caller request) with
    | (.ok (.log data next source), daemon) =>
      if !c.started then put (.chunkedHead 200)
      match ← writeChunk data with
      | .error _ => pure ()
      | .ok _ =>
        if !f.follow || c.finishing then put .finish
        else
          let (finishing, daemon) ← (if data.isEmpty then do
              let (list, daemon) ← daemonCall daemon (.as f.caller (.ps true none))
              pure (!stillRunning f list, daemon)
            else pure (false, daemon))
          let (lastTrust, trusted) ← recheck codec f.peer c.lastTrust
          if trusted then
            logsLoop codec f rounds
              { tail := none, source, daemon, offset := some next, started := true, finishing, lastTrust }
          else
            let _ ← writeChunk "\ncollocate: this client certificate is no longer trusted\n"
            put .finish
    | (.ok other, _) =>
      if c.started then put .finish
      else reply 500 (.response (.ofError (.internal ("unexpected response " ++ codec.debugResponse other)))) false
    | (.error e, _) => failLogs c.started e

/-- A flag of the query. -/
def flag (v : Option String) : Bool := v == some "1" || v == some "true" || v == some "yes"

def logs (codec : Codec) (rounds : ℕ) (r : Received) (caller : Caller) (peer : Peer) (conn : Buffered) :
    Thread Unit := do
  Job.lift (withBody r.head Body.drain conn).1
  match r.param "target" with
  | none => reply 400 (.response (.error 2 "logs needs a target parameter")) false
  | some target =>
    let services := ((r.param "service").map fun s => (Text.split ',' s).filter fun x => !x.isEmpty).getD []
    let lastTrust ← ask .clock
    logsLoop codec { target, follow := flag (r.param "follow"), services, caller, peer } rounds
      { tail := (r.param "tail").bind (Text.parseUnsigned (2 ^ 64)), source := fromFlags (flag (r.param "raw")) services
        lastTrust }

end Collocate.Gateway
