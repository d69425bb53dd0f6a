import Collocate.Daemon.State

/-! # Launching and ending containers (`collocated/src/daemon.rs`)

`launch` prepares a container on the host and enters it among the live ones; `onExit` takes it out again,
answers those who waited and decides on a restart. -/
namespace Collocate.Daemon
set_option autoImplicit false

def exitedGrace : ℕ := secs 30

/-- A relaunch of the container is on the schedule or among the tasks the timer is at. -/
def State.relaunchPending {σ : Type} (d : State σ) (id : ContainerId) : Bool :=
  d.schedule.any (fun e => e.2 == .relaunch id) || d.due.any fun t => t == .relaunch id

section Programs
variable {σ : Type} (w : World σ)

/-! ## Answers -/

def dropConn (conn : ℕ) : Op σ Unit := do
  let d ← Eff.get
  if d.conns conn then
    Eff.modify fun d => { d with conns := Function.update d.conns conn false }
    tryAct w (.epollRemove conn)

def send (conn : ℕ) (response : Response) : Op σ Unit := do
  let d ← Eff.get
  if d.conns conn then
    match ← Eff.attempt (act w (.send conn response)) with
    | .ok _ => pure ()
    | .error _ => dropConn w conn

/-- The note that a `Stop` of the container is answered. -/
def noteStopped (id : ContainerId) : Op σ Unit :=
  Eff.modify fun d => { d with log := d.log ++ [.stopped id (d.relaunchPending id)] }

/-- The answer to one of those who waited for the container to end. -/
def answer (id : ContainerId) (code : ℤ) (waiter : Waiter) : Op σ Unit :=
  match waiter.kind with
  | .wait => send w waiter.conn (.exit code)
  | .stop => do
    noteStopped id
    send w waiter.conn .ok

/-! ## Clearing away -/

def removeRuntimeDirs (id : ContainerId) : Op σ Unit := do
  let d ← Eff.get
  if d.fuseProcs id then
    Eff.modify fun d => { d with fuseProcs := Function.update d.fuseProcs id false }
    tryAct w (.umountFuse id)
  tryAct w (.removeRuntimeDirs id)

def cleanupRuntime (id : ContainerId) : Op σ Unit := do
  tryAct w (.killCgroup id)
  tryAct w (.removeCgroup id)
  tryAct w (.teardownVeth id)
  removeRuntimeDirs w id

def purge (id : ContainerId) : Op σ Unit := do
  storeRemove w id
  tryAct w .purgeTrash
  Eff.modify fun d => { d with ipam := d.ipam.release id.display }
  removeRuntimeDirs w id

/-! ## Launching -/

def lowers (root : RootSource) : Op σ (List String) := do
  let d ← Eff.get
  match root with
  | .base .. => outside (w.lowers root)
  | .oci _ layers =>
    if d.rootMode = .bindRo ∧ 1 < layers.length then
      Eff.throw (.invalid "multi-layer images need overlayfs, which this host does not provide")
    else outside (w.lowers root)

/-- The container's address: the one its spec has, or a free one. -/
def assignAddress (spec : Spec) : Op σ Ipv4Addr := do
  let d ← Eff.get
  match spec.net.addr with
  | some a =>
    let ipam ← Eff.lift (d.ipam.reserve a spec.id.display)
    Eff.modify fun d => { d with ipam }
    pure a
  | none =>
    let (a, ipam) ← Eff.lift (d.ipam.allocate spec.id.display)
    Eff.modify fun d => { d with ipam }
    pure a

def prepareMount (id : ContainerId) (project : String) : Mount → Op σ Unit
  | .secret name _ => act w (.writeSecret id project name)
  | .volume name _ => act w (.createVolume name)
  | _ => pure ()

def prepareRoot (spec : Spec) : Op σ Unit := do
  let _ ← lowers w spec.root
  act w (.createDirs spec.id)
  let d ← Eff.get
  if d.rootMode = .fuseOverlay then
    act w (.fuseOverlay spec.id)
    Eff.modify fun d => { d with fuseProcs := Function.update d.fuseProcs spec.id true }

def placedAt (spec : Spec) (addr : Ipv4Addr) : Spec := { spec with net := { spec.net with addr := some addr } }

/-- The container's address, which the store learns if it is a new one. -/
def place (spec : Spec) : Op σ Ipv4Addr := do
  let addr ← assignAddress spec
  if spec.net.addr ≠ some addr then storeUpdate w (placedAt spec addr)
  act w (.writeHostFiles spec.id addr)
  pure addr

/-- Everything up to a running process. -/
def prepareLaunch (spec : Spec) : Op σ (Ipv4Addr × ℤ) := do
  prepareRoot w spec
  let addr ← place w spec
  spec.mounts.forM (prepareMount w spec.id (spec.labels.project.getD "default"))
  act w (.createCgroup spec.id spec.limits)
  let d ← Eff.get
  let _ ← Eff.lift (Subnet.parse d.cfg.subnet)
  match ← Eff.attempt (outside (w.spawn (placedAt spec addr))) with
  | .ok pid => pure (addr, pid)
  | .error e =>
    cleanupRuntime w spec.id
    Eff.throw e

def scheduleIdleReap (id : ContainerId) (idleTimeoutSecs : Option UInt64) : Op σ Unit :=
  match idleTimeoutSecs with
  | none => pure ()
  | some t => do
    let now ← instantNow w
    let time ← addTo now (secs (max t 1))
    Eff.modify fun d => { d with schedule := d.schedule ++ [(time, .reapIdle id)] }

/-- The entry of a container among the live ones. -/
def enter (spec : Spec) (pid : ℤ) (token : ℕ) (child : Bool) : Op σ Unit := do
  let started ← instantNow w
  let lastCheck ← instantNow w
  let lastActivity ← instantNow w
  let tracker := spec.healthcheck.map fun h => HealthTracker.new h.retries
  Eff.modify fun d => { d with
    live := d.live.insert spec.id { spec, pid, token, child, started, tracker, lastCheck, lastActivity }
    marks := d.marks ++ [.active spec.id lastActivity] }

def launch (spec : Spec) : Op σ Unit := do
  note (.launching spec.id)
  let (addr, pid) ← prepareLaunch w spec
  let tok ← token
  act w (.epollAdd tok)
  Eff.modify fun d => { d with pidTokens := Function.update d.pidTokens tok (some spec.id) }
  tryAct w (.writeRuntime spec.id (spec.healthcheck.map fun _ => .starting))
  let running := { placedAt spec addr with exitStatus := none }
  let _ ← Eff.attempt (storeUpdate w running)
  enter w running pid tok true
  scheduleIdleReap w spec.id spec.idleTimeoutSecs
  Eff.modify fun d => { d with fwDirty := true }

/-! ## Ending -/

/-- After an exit: a relaunch with back-off, or in time the removal of an ephemeral container. -/
def afterExit (id : ContainerId) (spec : Spec) (code : ℤ) : Op σ Unit := do
  let d ← Eff.get
  let attempts := (d.restarts id).getD 0
  Eff.modify fun d => { d with userStopped := Function.update d.userStopped id false }
  if shouldRestart spec.restart code attempts (d.userStopped id) then
    Eff.modify fun d => { d with restarts := Function.update d.restarts id (some (attempts + 1)) }
    let now ← instantNow w
    let time ← addTo now (restartDelay attempts)
    Eff.modify fun d => { d with
      schedule := d.schedule ++ [(time, .relaunch id)], marks := d.marks ++ [.scheduled id spec.restart] }
  else if !spec.persistent then
    let now ← instantNow w
    let time ← addTo now exitedGrace
    Eff.modify fun d => { d with schedule := d.schedule ++ [(time, .removeExited id)] }

def onExit (id : ContainerId) (code : Option ℤ) : Op σ Unit := do
  let d ← Eff.get
  match d.live.get? id with
  | none => pure ()
  | some l =>
    Eff.modify fun d => { d with
      live := d.live.erase id, pidTokens := Function.update d.pidTokens l.token none }
    tryAct w (.epollRemove l.token)
    let code := code.getD (-1)
    let _ ← Eff.attempt (storeUpdate w { l.spec with exitStatus := some code })
    cleanupRuntime w id
    let now ← instantNow w
    mark (.ended id l.spec.restart (decide (secs 10 < now - l.started)) l.stopRequested)
    if secs 10 < now - l.started then
      Eff.modify fun d => { d with restarts := Function.update d.restarts id none }
    l.waiters.forM (answer w id code)
    afterExit w id l.spec code
    Eff.modify fun d => { d with fwDirty := true }

/-- The polls of `reap_blocking`, 10 ms apart, so never more than 500. -/
def reapLoop (id : ContainerId) (deadline : Instant) : ℕ → Op σ Unit
  | 0 => onExit w id none
  | left + 1 => do
    let now ← instantNow w
    if now < deadline then
      let d ← Eff.get
      match d.live.get? id with
      | none => pure ()
      | some l =>
        match ← Eff.attempt (outside (w.wait l.token)) with
        | .ok (some code) => onExit w id (some code)
        | .ok none => reapLoop id deadline left
        | .error _ => onExit w id none
    else onExit w id none

def reapBlocking (id : ContainerId) : Op σ Unit := do
  let now ← instantNow w
  let deadline ← addTo now (secs 5)
  reapLoop w id deadline 500

def reapIdle (id : ContainerId) : Op σ Unit := do
  let d ← Eff.get
  if d.live.contains id then
    tryAct w (.killCgroup id)
    reapBlocking w id
  let _ ← Eff.attempt (purge w id)

end Programs
end Collocate.Daemon
