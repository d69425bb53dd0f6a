import Mathlib.Algebra.Group.Int.Defs
import Collocate.Daemon.Launch
import Collocate.Daemon.Remote

/-! # Requests (`collocated/src/daemon.rs`, `config.rs`)

`handle` answers a request, or leaves it to be answered later (`none`). What a request does besides
changing the daemon's memory is the world's business; requests that change nothing there are the world's
to answer altogether (`serve`). -/
namespace Collocate.Daemon
set_option autoImplicit false

def Series.version : Series → String
  | .noble => "24.04"
  | .resolute => "26.04"

def defaultPidsMax : UInt64 := 4096

/-- `Config::apply_defaults`. -/
def applyDefaults (cpusMilli : F64 → UInt32) (defaults : Defaults) (limits : Limits) : Result Limits := do
  let memory ← match limits.memory, defaults.memory with
    | none, some m => (parseSize m).map some
    | memory, _ => .ok memory
  pure { limits with
    memory
    cpusMilli := limits.cpusMilli.orElse fun _ => defaults.cpus.map cpusMilli
    pidsMax := if limits.pidsMax = defaultPidsMax then defaults.pidsMax.getD limits.pidsMax else limits.pidsMax }

/-- The directory name of the build a base root was found in. -/
def buildOf (dirs : List String) : String :=
  match (Text.split '/' (dirs.headD "")).reverse with
  | _ :: build :: _ => build
  | _ => ""

def containerInfo (live : OrdMap ContainerId Live) (spec : Spec) : ContainerInfo :=
  let l := live.get? spec.id
  { id := spec.id
    name := spec.name
    state := match l with
      | some _ => .running
      | none => if spec.exitStatus.isSome then .exited else .stopped
    pid := l.map fun l => UInt32.ofNat (l.pid % 2 ^ 32).toNat
    address := spec.net.addr
    project := spec.labels.project
    service := spec.labels.service
    health := l.bind fun l => l.tracker.map (·.state)
    revision := spec.labels.revision
    series := match spec.root with
      | .base series _ => some (Series.version series)
      | .oci .. => none
    published := spec.net.publish.map Publish.display
    imageKind := match spec.root with
      | .base .. => none
      | .oci .. => some spec.imageKind }

def statsFrom (l : Live) : Result Usage → Option ContainerStats
  | .error _ => none
  | .ok u => some {
      id := l.spec.id
      name := l.spec.name
      project := l.spec.labels.project
      service := l.spec.labels.service
      cpuUsageUsec := u.cpuUsageUsec
      memoryCurrent := u.memoryCurrent
      memoryMax := u.memoryMax
      pids := u.pidsCurrent
      cpuLimitMilli := l.spec.limits.cpusMilli }

def lbStatus (live : OrdMap ContainerId Live) (lb : LbSpec) : LbStatus where
  spec := lb
  vip := lb.vip.getD ⟨0⟩
  backends := (backends live lb).map fun b => s!"{b.addr.display}:{b.port}"

/-- The derived `PartialEq` of `DaemonSettings`: CPU counts compare as floats. -/
def settingsEq (a b : DaemonSettings) : Bool :=
  let cpusEq := match a.defaults.cpus, b.defaults.cpus with
    | some x, some y => x.feq y
    | none, none => true
    | _, _ => false
  cpusEq && decide
    ({ a with defaults := { a.defaults with cpus := none } } = { b with defaults := { b.defaults with cpus := none } })

section Programs
variable {σ : Type} (w : World σ)

/-! ## Containers -/

/-- A spec without a name is named after its id. -/
def named (spec : Spec) : Spec :=
  let name := "c-" ++ String.ofList (spec.id.display.toList.take 8)
  if spec.name.isEmpty then { spec with name, hostname := name } else spec

/-- The build that `latest` stands for. -/
def pinned (root : RootSource) : Op σ RootSource :=
  match root with
  | .base series build =>
    if build = "latest" then do
      let dirs ← lowers w root
      pure (.base series (buildOf dirs))
    else pure root
  | .oci .. => pure root

def opRun (spec : Spec) : Op σ ContainerId := do
  note (.asked spec.id)
  let d ← Eff.get
  let limits ← Eff.lift (applyDefaults w.cpusMilli d.cfg.defaults spec.limits)
  let spec := { named spec with limits }
  Eff.lift spec.validate
  let root ← pinned w spec.root
  let spec := { spec with root }
  storeCreate w spec
  match ← Eff.attempt (launch w spec) with
  | .ok _ => pure spec.id
  | .error e =>
    let _ ← Eff.attempt (purge w spec.id)
    Eff.throw e

def opStart (target : String) : Op σ (Option Response) := do
  let id ← resolve w target
  let d ← Eff.get
  if d.live.contains id then Eff.throw (.conflict s!"{target} is already running")
  else do
    Eff.modify fun d => { d with userStopped := Function.update d.userStopped id false }
    note (.asked id)
    launch w (← storeGet w id)
    pure (some .ok)

def opRestart (target : String) : Op σ (Option Response) := do
  let id ← resolve w target
  let d ← Eff.get
  if d.live.contains id then Eff.throw (.invalid "restart is composed of stop and start by the client")
  else do
    note (.asked id)
    launch w (← storeGet w id)
    pure (some .ok)

/-- The longest drain among the load balancers of the container's service. -/
def drainFor (lbs : OrdMap String LbSpec) (spec : Spec) : ℕ :=
  let mine := lbs.values.filter fun lb =>
    spec.labels.project == some lb.project && spec.labels.service == some lb.backendService
  (mine.map fun lb => secs lb.drainSecs).foldl max 0

def opStop (conn : ℕ) (target : String) (timeout : Option UInt64) : Op σ (Option Response) := do
  let id ← resolve w target
  let d ← Eff.get
  match d.live.get? id with
  | none => do
    noteStopped id
    pure (some .ok)
  | some l =>
    let drain := drainFor d.lbs l.spec
    let waiting := { l with waiters := l.waiters ++ [⟨conn, .stop⟩] }
    if l.stopRequested then Eff.modify fun d => { d with live := d.live.insert id waiting }
    else do
      let now ← instantNow w
      let grace := secs (timeout.getD l.spec.process.stopTimeoutSecs)
      let signalAt ← addTo now drain
      let killAt ← addTo signalAt grace
      Eff.modify fun d => { d with
        live := d.live.insert id { waiting with
          stopRequested := true, signalAt := some signalAt, killAt := some killAt }
        userStopped := Function.update d.userStopped id true
        fwDirty := true }
    pure none

def sigkill : ℤ := 9

def opKill (target : String) (signal : ℤ) : Op σ (Option Response) := do
  let id ← resolve w target
  let d ← Eff.get
  match d.live.get? id with
  | none => Eff.throw (.conflict s!"{target} is not running")
  | some l =>
    if signal = sigkill then act w (.killCgroup id) else act w (.signal l.pid signal)
    pure (some .ok)

def opRm (target : String) (force : Bool) : Op σ (Option Response) := do
  let id ← resolve w target
  let d ← Eff.get
  if d.live.contains id then
    if !force then Eff.throw (.conflict s!"{target} is running; stop it or use force")
    act w (.killCgroup id)
    reapBlocking w id
  purge w id
  pure (some .ok)

def opWait (conn : ℕ) (target : String) : Op σ (Option Response) := do
  let id ← resolve w target
  let d ← Eff.get
  match d.live.get? id with
  | some l =>
    Eff.modify fun d => { d with live := d.live.insert id { l with waiters := l.waiters ++ [⟨conn, .wait⟩] } }
    pure none
  | none =>
    let spec ← storeGet w id
    pure (some (.exit (spec.exitStatus.getD 0)))

/-- The deadline of a command that may run for a time. -/
def execDeadline (now : Instant) : Option UInt64 → Op σ (Option Instant)
  | none => pure none
  | some t => do
    let deadline ← addTo now (secs (max t 1))
    pure (some deadline)

def opExec (conn : ℕ) (target : String) (argv : List String) (timeoutSecs : Option UInt64) (service : Option String) :
    Op σ (Option Response) := do
  let id ← resolve w target
  act w (.takeDescriptors conn 3)
  let d ← Eff.get
  match d.live.get? id with
  | none => Eff.throw (.conflict s!"{target} is not running")
  | some l =>
    if service.isSome ∧ l.spec.imageKind ≠ .pebble then
      Eff.throw (.invalid s!"{target} is not a rock; --service needs a Pebble container")
    act w (.spawnExec id argv)
    let now ← instantNow w
    Eff.modify fun d => { d with
      live := d.live.insert id { l with lastActivity := now }, marks := d.marks ++ [.active id now] }
    scheduleIdleReap w id l.spec.idleTimeoutSecs
    let tok ← token
    act w (.epollAdd tok)
    let now ← instantNow w
    let deadline ← execDeadline now timeoutSecs
    Eff.modify fun d => { d with execs := d.execs.insert tok { conn, deadline } }
    pure none

/-- A probe in a live container; whether it could be started. -/
def spawnProbe (id : ContainerId) (argv : List String) (deadline : Instant) (origin : ProbeOrigin) : Op σ Bool := do
  let d ← Eff.get
  if !d.live.contains id then pure false
  else
    match ← Eff.attempt (act w (.spawnExec id argv)) with
    | .error _ => pure false
    | .ok _ =>
      let tok ← token
      match ← Eff.attempt (act w (.epollAdd tok)) with
      | .error _ => pure false
      | .ok _ =>
        Eff.modify fun d => { d with probes := d.probes.insert tok { origin, deadline } }
        pure true

def opExecProbe (conn : ℕ) (target : String) (argv : List String) (timeoutSecs : UInt64) : Op σ (Option Response) := do
  let id ← resolve w target
  let now ← instantNow w
  let deadline ← addTo now (secs (max timeoutSecs 1))
  if ← spawnProbe w id argv deadline (.client conn) then pure none
  else Eff.throw (.internal s!"could not start probe in {target}")

def opPs (all : Bool) (project : Option String) : Op σ (Option Response) := do
  let specs ← loadAll w
  let d ← Eff.get
  let mine := specs.filter fun s => project.isNone || s.labels.project == project
  let list := (mine.map (containerInfo d.live)).filter fun c => all || c.state == .running
  pure (some (.containers list))

/-- The statistics of one live container, if its cgroup can be read. -/
def statsOf (l : Live) : Op σ (Option ContainerStats) := do
  let usage ← Eff.attempt (outside (w.stats l.spec.id))
  pure (statsFrom l usage)

def opStats (project : Option String) : Op σ (Option Response) := do
  let d ← Eff.get
  let mine := d.live.values.filter fun l => project.isNone || l.spec.labels.project == project
  let list ← Eff.collect (statsOf w) mine
  pure (some (.stats (list.filterMap id)))

/-! ## Load balancers -/

def vipOwner (project name : String) : String := s!"vip:{project}/{name}"

/-- The virtual address of a load balancer, reserved. -/
def assignVip (lb : LbSpec) : Op σ Ipv4Addr := do
  let d ← Eff.get
  match lb.vip with
  | none =>
    let (vip, ipam) ← Eff.lift (d.ipam.vip w.sha256 lb.project lb.name)
    Eff.modify fun d => { d with ipam }
    pure vip
  | some vip =>
    let ipam ← Eff.lift (d.ipam.reserve vip (vipOwner lb.project lb.name))
    Eff.modify fun d => { d with ipam }
    pure vip

def opLbSet (lb : LbSpec) : Op σ Unit := do
  let vip ← assignVip w lb
  let lb := { lb with vip := some vip }
  act w (.vip "add" vip)
  act w (.writeLb lb)
  Eff.modify fun d => { d with lbs := d.lbs.insert (lbKey lb.project lb.name) lb, fwDirty := true }

def opLbRemove (project name : String) : Op σ (Option Response) := do
  let key := lbKey project name
  let d ← Eff.get
  match d.lbs.get? key with
  | none => Eff.throw (.notFound s!"load balancer {project}/{name}")
  | some lb =>
    Eff.modify fun d => { d with lbs := d.lbs.erase key }
    tryAct w (.removeLb key)
    match lb.vip with
    | some vip => tryAct w (.vip "del" vip)
    | none => pure ()
    Eff.modify fun d => { d with ipam := d.ipam.release (vipOwner project name), fwDirty := true }
    pure (some .ok)

def opLbList : Op σ (Option Response) := do
  let d ← Eff.get
  pure (some (.lbs (d.lbs.values.map (lbStatus d.live))))

/-! ## Initialisation -/

def requireConn (conn : ℕ) : Op σ Unit := do
  let d ← Eff.get
  if d.conns conn then pure () else Eff.throw (.internal "connection vanished")

/-- Makes an end of a container for good, as a forced change of the network does. -/
def evict (id : ContainerId) : Op σ Unit := do
  let d ← Eff.get
  if d.live.contains id then
    act w (.killCgroup id)
    reapBlocking w id
  purge w id

def forgetLb (lb : LbSpec) : Op σ Unit := do
  let key := lbKey lb.project lb.name
  Eff.modify fun d => { d with lbs := d.lbs.erase key }
  tryAct w (.removeLb key)

/-- Clears the node for another network. -/
def clearNode (force : Bool) : Op σ Unit := do
  let specs ← loadAll w
  let d ← Eff.get
  let lbs := d.lbs.values
  if (!specs.isEmpty || !lbs.isEmpty) && !force then
    Eff.throw (.conflict (s!"{specs.length} containers and {lbs.length} load balancers exist; " ++
      "changing the subnet or bridge needs --force, which deletes them"))
  specs.forM fun s => evict w s.id
  lbs.forM (forgetLb w)

def opInit (conn : ℕ) (settings : DaemonSettings) (force : Bool) : Op σ (Option Response) := do
  requireConn conn
  act w (.requireRoot conn)
  act w .requireInterfaces
  let d ← Eff.get
  if settingsEq { settings with httpsAddress := d.cfg.httpsAddress } d.cfg then
    if settings.httpsAddress ≠ d.cfg.httpsAddress then
      act w (.validateSettings settings)
      act w (.writeConfig settings)
      Eff.modify fun d => { d with cfg := { d.cfg with httpsAddress := settings.httpsAddress } }
      if settings.httpsAddress.isSome then act w .ensureIdentity
    pure (some .ok)
  else do
    act w (.checkSettings settings)
    if settings.subnet ≠ d.cfg.subnet ∨ settings.bridge ≠ d.cfg.bridge then clearNode w force
    act w (.updateNode settings)
    act w (.writeConfig settings)
    Eff.modify fun d => { d with shutdown := true }
    pure (some .ok)

/-! ## Remote callers -/

/-- The project of the container a request is about. -/
def targetProject (target : String) : Op σ (Option String) := do
  let id ← resolve w target
  let spec ← storeGet w id
  pure spec.labels.project

/-- Only the gateway, which is root, may act for remote callers. -/
def requireGateway (conn : ℕ) : Op σ Unit := do
  requireConn conn
  match ← Eff.attempt (act w (.requireRoot conn)) with
  | .ok _ => pure ()
  | .error _ => Eff.throw (.denied "only the collocate gateway can act for remote callers")

/-! ## Dispatch -/

/-- Requests about one container that change nothing in memory. -/
def serveFor (target : String) (request : Request) : Op σ (Option Response) := do
  let id ← resolve w target
  let _ ← storeGet w id
  outside (w.serve request)

def handle (conn : ℕ) : Request → Op σ (Option Response)
  | .run spec => do
    let id ← opRun w spec
    pure (some (.id id))
  | .start target => opStart w target
  | .stop target timeoutSecs => opStop w conn target timeoutSecs
  | .restart target _ => opRestart w target
  | .kill target signal => opKill w target signal
  | .rm target force _ => opRm w target force
  | .wait target => opWait w conn target
  | .logs target tail offset source services => serveFor w target (.logs target tail offset source services)
  | .exec target argv _ _ _ _ timeoutSecs service => opExec w conn target argv timeoutSecs service
  | .execProbe target argv timeoutSecs => opExecProbe w conn target argv timeoutSecs
  | .commit target image => serveFor w target (.commit target image)
  | .ps all project => opPs w all project
  | .stats project => opStats w project
  | .lbSet lb => do
    opLbSet w lb
    pure (some .ok)
  | .lbRemove project name => opLbRemove w project name
  | .lbList => opLbList
  | .init settings force => opInit w conn settings force
  | .as caller request => do
    requireGateway w conn
    let filter ← authorize caller request.verb request.access (targetProject w)
    let response ← handle conn request
    pure (if filter then response.map (filterResponse caller) else response)
  | .shutdown => do
    Eff.modify fun d => { d with shutdown := true }
    pure (some .ok)
  | request => outside (w.serve request)

end Programs
end Collocate.Daemon
