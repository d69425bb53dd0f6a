import Collocate.Core.Request
import Collocate.Net.Ruleset
import Collocate.Store.Reconcile

/-! # The daemon's state (`collocated/src/daemon.rs`, `restart.rs`, `health.rs`)

Everything the daemon keeps in memory, and the world it acts on. Files, processes, the kernel and the
clock are the world's: each action may fail and changes the world's state as it likes. The stored specs
are a map; a write of one may fail before or after it took effect. The ghost fields `script`, `sums`,
`timer`, `log` and `marks` hold the last script handed to `nft`, the deadlines that were computed, the time
of the last timer and what the statements are about; so does `results` of a live container. -/
namespace Collocate.Daemon
set_option autoImplicit false

/-- `Instant`, in nanoseconds. -/
abbrev Instant := ℕ

def secs (n : UInt64) : ℕ := n.toNat * 10 ^ 9

def millis (n : ℕ) : ℕ := n * 10 ^ 6

/-! ## Restarts and health -/

def restartCap : ℕ := secs 60

/-- The back-off doubles from 100 ms up to a minute. -/
def restartDelay (attempt : UInt32) : ℕ :=
  if 20 ≤ attempt then restartCap else min (millis (100 <<< attempt.toNat)) restartCap

def shouldRestart (policy : RestartPolicy) (exitCode : ℤ) (attempts : UInt32) (userStopped : Bool) : Bool :=
  if userStopped then false
  else match policy with
    | .no => false
    | .always => true
    | .onFailure max => decide (exitCode ≠ 0) && (decide (max = 0) || decide (attempts < max))

structure HealthTracker where
  state : HealthState
  consecutiveFailures : UInt32
  retries : UInt32
  deriving DecidableEq, Repr

def HealthTracker.new (retries : UInt32) : HealthTracker := ⟨.starting, 0, max retries 1⟩

/-- The tracker after a probe. -/
def HealthTracker.record (t : HealthTracker) (ok : Bool) : HealthTracker :=
  if ok then { t with consecutiveFailures := 0, state := .healthy }
  else
    let failures := t.consecutiveFailures + 1
    { t with consecutiveFailures := failures, state := if t.retries ≤ failures then .unhealthy else t.state }

/-! ## On disk -/

/-- The stored specs, each in the directory of its own id. -/
structure SpecStore where
  specs : OrdMap ContainerId Spec
  keyed : ∀ id spec, specs.get? id = some spec → spec.id = id

namespace SpecStore

def empty : SpecStore := ⟨.empty, fun _ _ h => by cases h⟩

def get? (s : SpecStore) (id : ContainerId) : Option Spec := s.specs.get? id

def contains (s : SpecStore) (id : ContainerId) : Bool := s.specs.contains id

def put (s : SpecStore) (spec : Spec) : SpecStore where
  specs := s.specs.insert spec.id spec
  keyed := by
    intro id spec' h
    rw [OrdMap.get?_insert] at h
    split at h
    · rename_i hid
      cases h
      exact hid.symm
    · exact s.keyed id spec' h

def erase (s : SpecStore) (id : ContainerId) : SpecStore where
  specs := s.specs.erase id
  keyed := by
    intro id' spec h
    have hmem := (List.mem_filter.mp (OrdMap.get?_eq_some.mp h)).1
    exact s.keyed id' spec (OrdMap.get?_eq_some.mpr hmem)

theorem get?_put (s : SpecStore) (t : Spec) (id : ContainerId) :
    (s.put t).get? id = if id = t.id then some t else s.get? id :=
  OrdMap.get?_insert ..

theorem get?_erase (s : SpecStore) (id' id : ContainerId) :
    (s.erase id').get? id = if id = id' then none else s.get? id :=
  OrdMap.get?_erase ..

theorem contains_eq_false {s : SpecStore} {id : ContainerId} : s.contains id = false ↔ s.get? id = none :=
  Option.isSome_eq_false_iff.trans Option.isNone_iff_eq_none

theorem mem_values (s : SpecStore) {spec : Spec} : spec ∈ s.specs.values ↔ s.get? spec.id = some spec := by
  unfold OrdMap.values
  rw [List.mem_map]
  constructor
  · rintro ⟨⟨id, spec⟩, hmem, rfl⟩
    have hget := OrdMap.get?_eq_some.mpr hmem
    show s.specs.get? spec.id = some spec
    rw [s.keyed id spec hget]
    exact hget
  · exact fun hget => ⟨(spec.id, spec), OrdMap.get?_eq_some.mp hget, rfl⟩

end SpecStore

/-! ## In memory -/

inductive WaitKind
  | wait
  | stop
  deriving DecidableEq, Repr

structure Waiter where
  conn : ℕ
  kind : WaitKind
  deriving DecidableEq, Repr

structure Live where
  spec : Spec
  pid : ℤ
  token : ℕ
  child : Bool
  started : Instant
  waiters : List Waiter := []
  stopRequested : Bool := false
  signalAt : Option Instant := none
  killAt : Option Instant := none
  tracker : Option HealthTracker
  lastCheck : Instant
  lastActivity : Instant
  results : List Bool := []
  deriving DecidableEq, Repr

structure ExecProc where
  conn : ℕ
  deadline : Option Instant
  deriving DecidableEq, Repr

inductive ProbeOrigin
  | health (id : ContainerId)
  | client (conn : ℕ)
  deriving DecidableEq, Repr

structure Probe where
  origin : ProbeOrigin
  deadline : Instant
  deriving DecidableEq, Repr

inductive Task
  | relaunch (id : ContainerId)
  | removeExited (id : ContainerId)
  | reapIdle (id : ContainerId)
  deriving DecidableEq, Repr

inductive RootMode
  | overlay
  | fuseOverlay
  | bindRo
  deriving DecidableEq, Repr

/-- What happened to a container that a client may tell: it was asked to run, its `Stop` was answered
(with whether a relaunch was pending then), and a launch of it began. -/
inductive Note
  | asked (id : ContainerId)
  | stopped (id : ContainerId) (pending : Bool)
  | launching (id : ContainerId)
  deriving DecidableEq, Repr

/-- What happened to a container in time: it was launched, adopted or entered by a command, it ended (with
whether it had run for more than ten seconds and had been asked to stop), a relaunch was put on the schedule
and taken up from there, and it was reaped for being idle. -/
inductive Mark
  | active (id : ContainerId) (at' : Instant)
  | ended (id : ContainerId) (policy : RestartPolicy) (long stopped : Bool)
  | scheduled (id : ContainerId) (policy : RestartPolicy)
  | relaunched (id : ContainerId)
  | reaped (id : ContainerId) (idleSecs : UInt64) (at' : Instant)
  deriving DecidableEq, Repr

/-- `Daemon`; of its configuration the settings, the rest being paths. `due` holds the tasks the timer
took off the schedule and has not finished with. -/
structure State (σ : Type) where
  outer : σ
  cfg : DaemonSettings
  store : SpecStore := .empty
  ipam : Ipam
  rootMode : RootMode := .overlay
  conns : ℕ → Bool := fun _ => false
  live : OrdMap ContainerId Live := .empty
  pidTokens : ℕ → Option ContainerId := fun _ => none
  execs : OrdMap ℕ ExecProc := .empty
  probes : OrdMap ℕ Probe := .empty
  fuseProcs : ContainerId → Bool := fun _ => false
  lbs : OrdMap String LbSpec := .empty
  schedule : List (Instant × Task) := []
  due : List Task := []
  restarts : ContainerId → Option UInt32 := fun _ => none
  userStopped : ContainerId → Bool := fun _ => false
  nextToken : ℕ := 100
  shutdown : Bool := false
  fwDirty : Bool := true
  lastHealth : Instant := 0
  script : Option String := none
  sums : List Instant := []
  timer : Instant := 0
  log : List Note := []
  marks : List Mark := []

/-! ## The world -/

/-- Actions on the host that give nothing back. -/
inductive Act
  | createDirs (id : ContainerId)
  | fuseOverlay (id : ContainerId)
  | umountFuse (id : ContainerId)
  | writeHostFiles (id : ContainerId) (addr : Ipv4Addr)
  | writeSecret (id : ContainerId) (project name : String)
  | createVolume (name : String)
  | createCgroup (id : ContainerId) (limits : Limits)
  | killCgroup (id : ContainerId)
  | removeCgroup (id : ContainerId)
  | epollAdd (token : ℕ)
  | epollRemove (token : ℕ)
  | teardownVeth (id : ContainerId)
  | removeRuntimeDirs (id : ContainerId)
  | writeRuntime (id : ContainerId) (health : Option HealthState)
  | purgeTrash
  | signal (pid signal : ℤ)
  | killExec (token : ℕ)
  | killProbe (token : ℕ)
  | vip (op : String) (addr : Ipv4Addr)
  | writeLb (lb : LbSpec)
  | removeLb (key : String)
  | readSpec (id : ContainerId)
  | readSpecs
  | requireRoot (conn : ℕ)
  | requireInterfaces
  | checkSettings (settings : DaemonSettings)
  | validateSettings (settings : DaemonSettings)
  | writeConfig (settings : DaemonSettings)
  | updateNode (settings : DaemonSettings)
  | ensureIdentity
  | takeDescriptors (conn count : ℕ)
  | spawnExec (id : ContainerId) (argv : List String)
  | send (conn : ℕ) (response : Response)
  | reapWorkers
  | nft (script : String)
  | deleteVeth (name : String)

/-- Changes of the stored specs. -/
inductive Write
  | create (spec : Spec)
  | update (spec : Spec)
  | remove (id : ContainerId)

/-- How a write ended; a failed one may have taken effect. -/
inductive Written
  | done
  | failed (e : Error) (applied : Bool)

structure Usage where
  cpuUsageUsec : UInt64
  memoryCurrent : UInt64
  memoryMax : Option UInt64
  pidsCurrent : UInt64

/-- What the daemon asks of the world. `lowers` gives the directories of a root, `spawn` a process that
confirmed its start, `wait` the exit status of a process that has ended, `tcpCheck`, `httpCheck` and
`pebbleHealth` the outcome of a probe, `adoptPid` the process to re-adopt, `serve` the answer to a request
that touches nothing the daemon has in memory; `cpusMilli` is `(c * 1000.0).round() as u32`. -/
structure World (σ : Type) where
  now : σ → Instant × σ
  act : Act → Prog σ Unit
  write : Write → σ → Written × σ
  lowers : RootSource → Prog σ (List String)
  spawn : Spec → Prog σ ℤ
  wait : ℕ → Prog σ (Option ℤ)
  tcpCheck : Ipv4Addr → UInt16 → σ → Bool × σ
  httpCheck : Ipv4Addr → UInt16 → String → σ → Bool × σ
  pebbleHealth : ContainerId → Option String → σ → Option String × σ
  stats : ContainerId → Prog σ Usage
  adoptPid : ContainerId → Prog σ ℤ
  savedLbs : σ → List LbSpec × σ
  observe : Prog σ Store.Observed
  serve : Request → Prog σ (Option Response)
  cpusMilli : F64 → UInt32
  sha256 : List UInt8 → List UInt8

/-- A question that is not about the first part of a world. -/
def beside {σ τ α : Type} (f : τ → α × τ) (p : σ × τ) : α × (σ × τ) := ((f p.2).1, p.1, (f p.2).2)

abbrev Op (σ α : Type) := Prog (State σ) α

section Programs
variable {σ : Type} (w : World σ)

/-- A program of the world. -/
def outside {α : Type} (m : Prog σ α) : Op σ α := Eff.zoom State.outer (fun s d => { d with outer := s }) m

/-- A question to the world that always has an answer. -/
def ask {α : Type} (f : σ → α × σ) : Op σ α := outside fun s => (.ok (f s).1, (f s).2)

def act (a : Act) : Op σ Unit := outside (w.act a)

/-- `let _ = ..`: whether it worked does not matter. -/
def tryAct (a : Act) : Op σ Unit := do
  let _ ← Eff.attempt (act w a)

def instantNow : Op σ Instant := ask w.now

/-- `Instant + Duration`. A sum that does not fit would end the daemon. -/
def addTo (now : Instant) (delay : ℕ) : Op σ Instant := do
  Eff.modify fun d => { d with sums := d.sums ++ [now + delay] }
  pure (now + delay)

def note (n : Note) : Op σ Unit := Eff.modify fun d => { d with log := d.log ++ [n] }

def mark (m : Mark) : Op σ Unit := Eff.modify fun d => { d with marks := d.marks ++ [m] }

/-! ## The stored specs -/

def storeWrite (change : Write) (f : SpecStore → SpecStore) : Op σ Unit := do
  match ← ask (w.write change) with
  | .done => Eff.modify fun d => { d with store := f d.store }
  | .failed e applied =>
    if applied then Eff.modify fun d => { d with store := f d.store }
    Eff.throw e

def earlier (a b : Spec) : Prop := a.created < b.created ∨ a.created = b.created ∧ a.id ≤ b.id

instance : DecidableRel earlier := fun a b =>
  inferInstanceAs (Decidable (a.created < b.created ∨ a.created = b.created ∧ a.id ≤ b.id))

def loadAll : Op σ (List Spec) := do
  act w .readSpecs
  let d ← Eff.get
  pure (d.store.specs.values.insertionSort earlier)

def storeGet (id : ContainerId) : Op σ Spec := do
  let d ← Eff.get
  match d.store.get? id with
  | none => Eff.throw (.notFound id.display)
  | some spec =>
    act w (.readSpec id)
    pure spec

def storeCreate (spec : Spec) : Op σ Unit := do
  let d ← Eff.get
  if d.store.contains spec.id then Eff.throw (.conflict s!"container {spec.id.display} already exists")
  else do
    let all ← if spec.name.isEmpty then pure [] else loadAll w
    if all.any fun s => s.name == spec.name then Eff.throw (.conflict s!"name {spec.name} is already in use")
    else storeWrite w (.create spec) fun s => s.put spec

def storeUpdate (spec : Spec) : Op σ Unit := do
  let d ← Eff.get
  if d.store.contains spec.id then storeWrite w (.update spec) fun s => s.put spec
  else Eff.throw (.notFound spec.id.display)

def storeRemove (id : ContainerId) : Op σ Unit := do
  let d ← Eff.get
  if d.store.contains id then storeWrite w (.remove id) fun s => s.erase id
  else Eff.throw (.notFound id.display)

def resolve (target : String) : Op σ ContainerId := do
  let all ← loadAll w
  Eff.lift (resolveRef target (all.map fun s => (s.id, s.name)))

/-- A new epoll token. -/
def token : Op σ ℕ := do
  Eff.modify fun d => { d with nextToken := d.nextToken + 1 }
  let d ← Eff.get
  pure d.nextToken

end Programs

/-! ## The firewall -/

def lbKey (project name : String) : String := project ++ "__" ++ name

/-- A live container of the service takes connections. -/
def takesTraffic (lb : LbSpec) (l : Live) : Bool :=
  l.spec.labels.project == some lb.project && l.spec.labels.service == some lb.backendService &&
    !l.stopRequested && l.tracker.all fun t => t.state == .healthy

/-- `live` is in the order of the ids, as the source sorts. -/
def backends (live : OrdMap ContainerId Live) (lb : LbSpec) : List Backend :=
  (live.values.filter (takesTraffic lb)).filterMap fun l =>
    l.spec.net.addr.map fun addr => { addr, port := lb.backendPort, weight := 1 }

def lbRule (live : OrdMap ContainerId Live) (lb : LbSpec) : Option LbRule :=
  lb.vip.map fun vip => {
    name := s!"{lb.project}/{lb.name}"
    vip
    proto := lb.proto
    listen := lb.listen
    publish := lb.publish
    algorithm := lb.algorithm
    backends := backends live lb
    onNoBackends := lb.onNoBackends }

def containerPorts (l : Live) : Option ContainerPorts :=
  if l.spec.net.publish.isEmpty then none
  else l.spec.net.addr.map fun addr => { id := l.spec.id, addr, publish := l.spec.net.publish }

def defaultSubnet : Subnet := ⟨0xac1e0000, 16⟩

def rulesetOf (cfg : DaemonSettings) (live : OrdMap ContainerId Live) (lbs : OrdMap String LbSpec) : Ruleset where
  bridge := cfg.bridge
  subnet := match Subnet.parse cfg.subnet with
    | .ok s => s
    | .error _ => defaultSubnet
  containers := live.values.filterMap containerPorts
  lbs := lbs.values.filterMap (lbRule live)

def State.ruleset {σ : Type} (d : State σ) : Ruleset := rulesetOf d.cfg d.live d.lbs

end Collocate.Daemon
