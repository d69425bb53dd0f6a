import Collocate.Daemon.Handle

/-! # The event loop (`collocated/src/daemon.rs`)

Requests, ended processes and the timer, in batches as the kernel reports them; after each batch the
firewall is brought up to date. `boot` is `Daemon::new`. -/
namespace Collocate.Daemon
set_option autoImplicit false

def healthTick : ℕ := secs 1

section Programs
variable {σ : Type} (w : World σ)

/-! ## Health -/

def recordHealth (id : ContainerId) (ok : Bool) : Op σ Unit := do
  let d ← Eff.get
  match d.live.get? id with
  | none => pure ()
  | some l =>
    match l.tracker with
    | none => pure ()
    | some t =>
      let t' := t.record ok
      Eff.modify fun d => { d with live := d.live.insert id { l with
        tracker := some t', results := l.results ++ [ok] } }
      if t'.state ≠ t.state then
        tryAct w (.writeRuntime id (some t'.state))
        Eff.modify fun d => { d with fwDirty := true }

/-- The probe of a container is due. -/
def probeDue (inFlight : List ContainerId) (now : Instant) (id : ContainerId) (l : Live) : Bool :=
  match l.tracker, l.spec.healthcheck with
  | some _, some hc =>
    let addressless := l.spec.net.addr.isNone && match hc.kind with
      | .tcp _ | .http .. => true
      | _ => false
    let busy := (match hc.kind with
      | .exec _ => true
      | _ => false) && decide (id ∈ inFlight)
    !addressless && decide (secs (max hc.intervalSecs 1) ≤ now - l.lastCheck) && !busy
  | _, _ => false

def probe (now : Instant) (id : ContainerId) (hc : Healthcheck) (addr : Option Ipv4Addr) : Op σ Unit :=
  match hc.kind, addr with
  | .tcp port, some addr => do
    let ok ← ask (w.tcpCheck addr port)
    recordHealth w id ok
  | .http port path, some addr => do
    let ok ← ask (w.httpCheck addr port path)
    recordHealth w id ok
  | .tcp _, none | .http .., none => pure ()
  | .exec argv, _ => do
    let deadline ← addTo now (secs (max hc.timeoutSecs 1))
    let started ← spawnProbe w id argv deadline (.health id)
    if !started then recordHealth w id false
  | .pebble level, _ => do
    let problem ← ask (w.pebbleHealth id level)
    recordHealth w id problem.isNone

def healthOrigin : ProbeOrigin → Option ContainerId
  | .health id => some id
  | .client _ => none

/-- The containers whose probe is due, with what it needs; their `last_check` is set. -/
def checkHealth (now : Instant) : Op σ Unit := do
  let d ← Eff.get
  let inFlight := d.probes.values.filterMap fun p => healthOrigin p.origin
  let due := d.live.entries.filterMap fun (id, l) =>
    if probeDue inFlight now id l then l.spec.healthcheck.map fun hc => (id, hc, l.spec.net.addr) else none
  Eff.modify fun d => { d with
    live := d.live.mapValues fun id l => if probeDue inFlight now id l then { l with lastCheck := now } else l }
  due.forM fun (id, hc, addr) => probe w now id hc addr

/-! ## The timer -/

def runTask (now : Instant) : Task → Op σ Unit
  | .relaunch id => do
    match ← Eff.attempt (storeGet w id) with
    | .error _ => pure ()
    | .ok spec =>
      let d ← Eff.get
      if !d.live.contains id then
        let _ ← Eff.attempt (launch w spec)
        mark (.relaunched id)
  | .removeExited id => do
    let d ← Eff.get
    if !d.live.contains id then
      match ← Eff.attempt (storeGet w id) with
      | .error _ => pure ()
      | .ok spec =>
        if !spec.persistent then
          let _ ← Eff.attempt (purge w id)
  | .reapIdle id => do
    let d ← Eff.get
    let idle := (d.live.get? id).any fun l =>
      l.spec.idleTimeoutSecs.any fun t => decide (secs (max t 1) ≤ now - l.lastActivity)
    if idle then
      mark (.reaped id (((d.live.get? id).bind fun l => l.spec.idleTimeoutSecs).getD 0) now)
      reapIdle w id

/-- The loop over the due tasks; each stays in `due` until it is done. -/
def runDue (now : Instant) : List Task → Op σ Unit
  | [] => pure ()
  | task :: rest => do
    runTask w now task
    Eff.modify fun d => { d with due := rest }
    runDue now rest

/-- The signals of a container that is being stopped. -/
def pressStop (now : Instant) (id : ContainerId) : Op σ Unit := do
  let d ← Eff.get
  match d.live.get? id with
  | none => pure ()
  | some l =>
    let signal := l.signalAt.any fun t => decide (t ≤ now)
    let kill := l.killAt.any fun t => decide (t ≤ now)
    Eff.modify fun d => { d with live := d.live.insert id { l with
      signalAt := if signal then none else l.signalAt
      killAt := if kill then none else l.killAt } }
    if signal then tryAct w (.signal l.pid l.spec.process.stopSignal)
    if kill then tryAct w (.killCgroup id)

def onTimer : Op σ Unit := do
  tryAct w .reapWorkers
  let now ← instantNow w
  let d ← Eff.get
  let due := (d.schedule.filter fun e => decide (e.1 ≤ now)).map Prod.snd
  Eff.modify fun d => { d with schedule := d.schedule.filter fun e => !decide (e.1 ≤ now), due, timer := now }
  runDue w now due
  let d ← Eff.get
  d.live.keys.forM (pressStop w now)
  let d ← Eff.get
  (d.probes.entries.filter fun e => decide (e.2.deadline ≤ now)).forM fun e => tryAct w (.killProbe e.1)
  (d.execs.entries.filter fun e => e.2.deadline.any fun t => decide (t ≤ now)).forM fun e => tryAct w (.killExec e.1)
  if healthTick ≤ now - d.lastHealth then
    Eff.modify fun d => { d with lastHealth := now }
    checkHealth w now

/-! ## Ended processes -/

/-- What `wait` says of a container's process: nothing yet, or an end with or without a code. A
re-adopted process is no child and has no code. -/
def exitOf (tok : ℕ) (l : Live) : Op σ (Option (Option ℤ)) := do
  if l.child then
    match ← Eff.attempt (outside (w.wait tok)) with
    | .ok (some code) => pure (some (some code))
    | .ok none => pure none
    | .error _ => pure (some none)
  else pure (some none)

def onPidfd (tok : ℕ) : Op σ Unit := do
  let d ← Eff.get
  match d.pidTokens tok with
  | some id =>
    match d.live.get? id with
    | none => pure ()
    | some l =>
      match ← exitOf w tok l with
      | none => pure ()
      | some code => onExit w id code
  | none =>
    match d.execs.get? tok, d.probes.get? tok with
    | some ex, _ =>
      match ← Eff.attempt (outside (w.wait tok)) with
      | .ok (some code) =>
        tryAct w (.epollRemove tok)
        Eff.modify fun d => { d with execs := d.execs.erase tok }
        send w ex.conn (.exit code)
      | _ => pure ()
    | none, some p =>
      match ← Eff.attempt (outside (w.wait tok)) with
      | .ok (some code) =>
        tryAct w (.epollRemove tok)
        Eff.modify fun d => { d with probes := d.probes.erase tok }
        match p.origin with
        | .health id => recordHealth w id (code = 0)
        | .client conn => send w conn (.exit code)
      | _ => pure ()
    | none, none => pure ()

/-! ## Events -/

/-- What the kernel reports: a new connection, a request or an unreadable frame on one, its end, the
end of a process, the timer, or a signal to shut down. -/
inductive Event
  | connect
  | request (conn : ℕ) (request : Request)
  | garbled (conn : ℕ) (reason : String)
  | hangup (conn : ℕ)
  | pidfd (token : ℕ)
  | timer
  | terminate

def accept : Op σ Unit := do
  let tok ← token
  match ← Eff.attempt (act w (.epollAdd tok)) with
  | .ok _ => Eff.modify fun d => { d with conns := Function.update d.conns tok true }
  | .error _ => pure ()

def onRequest (conn : ℕ) (request : Request) : Op σ Unit := do
  match ← Eff.attempt (handle w conn request) with
  | .ok (some response) => send w conn response
  | .ok none => pure ()
  | .error e => send w conn (.ofError e)

/-- Someone will still answer on the connection. -/
def State.owes (d : State σ) (conn : ℕ) : Bool :=
  (d.live.values.any fun l => l.waiters.any fun v => v.conn == conn) ||
    (d.execs.values.any fun e => e.conn == conn) || d.probes.values.any fun p => p.origin == .client conn

def onEvent : Event → Op σ Unit
  | .connect => accept w
  | .request conn request => do
    let d ← Eff.get
    if d.conns conn then onRequest w conn request
  | .garbled conn reason => send w conn (.ofError (.invalid s!"bad request: {reason}"))
  | .hangup conn => do
    let d ← Eff.get
    if !d.owes conn then dropConn w conn
  | .pidfd tok => onPidfd w tok
  | .timer => onTimer w
  | .terminate => Eff.modify fun d => { d with shutdown := true }

def flushFirewall : Op σ Unit := do
  let d ← Eff.get
  if d.fwDirty then
    let script := d.ruleset.render
    Eff.modify fun d => { d with fwDirty := false, script := some script }
    tryAct w (.nft script)

/-- One turn of the loop of `run`. -/
def batch (events : List Event) : Op σ Unit := do
  let d ← Eff.get
  if !d.shutdown then
    events.forM (onEvent w)
    flushFirewall w

/-! ## Start -/

def loadLb (lb : LbSpec) : Op σ Unit := do
  match lb.vip with
  | some vip =>
    Eff.modify fun d => match d.ipam.reserve vip (vipOwner lb.project lb.name) with
      | .ok ipam => { d with ipam }
      | .error _ => d
    tryAct w (.vip "add" vip)
  | none => pure ()
  Eff.modify fun d => { d with lbs := d.lbs.insert (lbKey lb.project lb.name) lb }

def adopt (spec : Spec) : Op σ Unit := do
  let pid ← outside (w.adoptPid spec.id)
  let tok ← token
  act w (.epollAdd tok)
  Eff.modify fun d => { d with pidTokens := Function.update d.pidTokens tok (some spec.id) }
  enter w spec pid tok false
  scheduleIdleReap w spec.id spec.idleTimeoutSecs

def takeStock (specs : List Spec) : Store.Action → Op σ Unit
  | .adopt id =>
    match specs.find? fun s => s.id == id with
    | some spec => do
      let _ ← Eff.attempt (adopt w spec)
    | none => pure ()
  | .markStopped _ | .deleteNftTag _ => pure ()
  | .removeSpec id => do
    let _ ← Eff.attempt (storeRemove w id)
    Eff.modify fun d => { d with ipam := d.ipam.release id.display }
  | .cleanRuntime id => removeRuntimeDirs w id
  | .killCgroup id => tryAct w (.killCgroup id)
  | .removeCgroup id => tryAct w (.removeCgroup id)
  | .deleteVeth name => tryAct w (.deleteVeth name)

def reconcile : Op σ Unit := do
  let specs ← loadAll w
  let observed ← outside w.observe
  (Store.plan specs observed).forM (takeStock w specs)

/-- `Daemon::new`, on a state that has nothing but the configuration and the stored specs. -/
def boot : Op σ Unit := do
  let d ← Eff.get
  let subnet ← Eff.lift (Subnet.parse d.cfg.subnet)
  let specs ← loadAll w
  let owned := specs.filterMap fun s => s.net.addr.map fun a => (s.id.display, a)
  let ipam ← Eff.lift (Ipam.rebuild subnet owned)
  Eff.modify fun d => { d with ipam }
  let lbs ← ask w.savedLbs
  lbs.forM (loadLb w)
  reconcile w
  flushFirewall w

/-- The loop of `run`: whole batches, then the events of one that has not ended yet. -/
def lifetime (batches : List (List Event)) (events : List Event) : Op σ Unit := do
  batches.forM (batch w)
  events.forM (onEvent w)

end Programs

/-- The state before `boot`. -/
def blank {σ : Type} (outer : σ) (cfg : DaemonSettings) (store : SpecStore) (rootMode : RootMode) : State σ where
  outer := outer
  cfg := cfg
  store := store
  ipam := Ipam.new defaultSubnet
  rootMode := rootMode

/-- A world where everything works: a clock that goes a second ahead each time it is read, and processes
that end with status 1 as soon as they are asked. -/
def workingWorld : World ℕ where
  now t := (t, t + secs 1)
  act _ := pure ()
  write _ t := (.done, t)
  lowers _ := pure []
  spawn _ := pure 42
  wait _ := pure (some 1)
  tcpCheck _ _ t := (true, t)
  httpCheck _ _ _ t := (true, t)
  pebbleHealth _ _ t := (none, t)
  stats _ := pure ⟨0, 0, none, 0⟩
  adoptPid _ := pure 42
  savedLbs t := ([], t)
  observe := pure {}
  serve _ := pure none
  cpusMilli _ := 0
  sha256 bytes := bytes

/-- A web server that is to be restarted whenever it ends. -/
def webSpec : Spec where
  id := 7
  name := "web"
  root := .oci "sha256:web" []
  persistent := true
  process := { argv := ["httpd"] }
  hostname := "web"
  net := { publish := [⟨8080, 80, .tcp⟩] }
  restart := .always
  created := 0

end Collocate.Daemon
