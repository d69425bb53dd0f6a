import Collocate.Compose.Up
import Collocate.Controller.Autoscaler
import Collocate.Controller.Rollout

/-! # The controller (`collocate-controller/src/controller.rs`)

`tick` looks at every service of the compose file in dependency order, updates the revision
bookkeeping, observes the replicas, asks the autoscaler and the planner and carries out the planner's
actions through the API. It runs on a `Machine`: whatever the API reaches, the controller, the local
`state` and `events` of the tick, and a log of what the tick did, kept for the statements about it.
-/
namespace Collocate.Control
open Compose Autoscaler Rollout
set_option autoImplicit false

def crashLimit : UInt32 := 3
def never : UInt64 := 0x10000000000

structure Applied where
  revision : String
  service : Service
  deriving DecidableEq

structure Controller where
  file : ComposeFile
  opts : UpOptions
  applied : String → Option Applied := fun _ => none
  previous : String → Option Applied := fun _ => none
  rejected : String → Option String := fun _ => none
  scalers : String → Option Scaler := fun _ => none
  desired : String → Option UInt32 := fun _ => none
  healthySince : String → Option UInt64 := fun _ => none
  rolloutStart : String → Option UInt64 := fun _ => none
  lastAction : String → Option UInt64 := fun _ => none
  prevCpu : ContainerId → Option (UInt64 × UInt64) := fun _ => none
  paused : String → Bool := fun _ => false
  crashes : String → Option UInt32 := fun _ => none

/-- What a tick did, in order. Only `call` is visible outside; the others note decisions. -/
inductive Event
  | call (turn : Option String) (req : Request) (res : Result Response)
  | prepared (res : Result Unit)
  | built (svc : String) (dfn : Option Service) (idx : UInt32) (res : Result Spec)
  | superseded (svc : String) (old new : String)
  | kept (svc : String) (dfn : Service) (fileRev : String) (cur : Applied)
  | decided (svc : String) (sc : Scaler) (now : UInt64)
  | planned (svc : String) (dfn : Service) (fileRev : String) (applied : Applied) (st : Rollout.State)
  | rolledBack (svc : String) (rejected restored : String)
  | completed (svc revision : String)
  deriving DecidableEq

structure Machine (σ : Type) where
  outer : σ
  ctl : Controller
  build : BuildState
  events : List String := []
  log : List Event := []

/-! ## Between ticks -/

namespace Controller

def new (file : ComposeFile) (opts : UpOptions) : Result Controller := do
  file.validate
  pure { file, opts }

/-- `old.autoscale != svc.autoscale`. -/
def autoscaleChanged (old new : Option Autoscale) : Bool :=
  match old, new with
  | none, none => false
  | some a, some b => !a.partialEq b
  | _, _ => true

/-- Whether `set_file` makes the controller forget the count it chose for a service. -/
def resets (c : Controller) (file : ComposeFile) (name : String) : Bool :=
  match file.services.get? name with
  | none => false
  | some svc => match c.file.services.get? name with
    | none => true
    | some old => autoscaleChanged old.autoscale svc.autoscale

def setFile (c : Controller) (file : ComposeFile) : Controller :=
  { c with
    scalers := fun name => if c.resets file name then none else c.scalers name
    desired := fun name => if c.resets file name then none else c.desired name
    file }

def pause (c : Controller) (service : String) : Controller :=
  { c with paused := Function.update c.paused service true }

def resume (c : Controller) (service : String) : Controller :=
  { c with paused := Function.update c.paused service false }

/-! The changes of a tick that decide what is run. -/

/-- The first definition of a service. -/
def adopt (c : Controller) (svc : String) (a : Applied) : Controller :=
  { c with applied := Function.update c.applied svc (some a) }

/-- A new definition replaces the current one. -/
def supersede (c : Controller) (now : UInt64) (svc : String) (cur a : Applied) : Controller :=
  { c with
    previous := Function.update c.previous svc (some cur)
    applied := Function.update c.applied svc (some a)
    rolloutStart := Function.update c.rolloutStart svc (some now)
    crashes := Function.update c.crashes svc none }

/-- A rollback: the previous definition is applied again and the revision is rejected. -/
def rollBack (c : Controller) (now : UInt64) (svc revision : String) (prev : Applied) : Controller :=
  { c with
    previous := Function.update c.previous svc none
    rejected := Function.update c.rejected svc (some revision)
    applied := Function.update c.applied svc (some prev)
    rolloutStart := Function.update c.rolloutStart svc (some now)
    crashes := Function.update c.crashes svc none }

/-- The autoscaler's choice. -/
def choose (c : Controller) (svc : String) (sc : Scaler) (count : UInt32) : Controller :=
  { c with
    scalers := Function.update c.scalers svc (some sc)
    desired := Function.update c.desired svc (some count) }

section Fields
variable (c : Controller) (now : UInt64) (svc svc' revision : String) (cur a : Applied) (sc : Scaler) (count : UInt32)

@[simp] theorem adopt_applied : (c.adopt svc a).applied svc' = if svc' = svc then some a else c.applied svc' :=
  Function.update_apply ..

@[simp] theorem supersede_applied :
    (c.supersede now svc cur a).applied svc' = if svc' = svc then some a else c.applied svc' :=
  Function.update_apply ..

@[simp] theorem supersede_previous :
    (c.supersede now svc cur a).previous svc' = if svc' = svc then some cur else c.previous svc' :=
  Function.update_apply ..

@[simp] theorem rollBack_applied :
    (c.rollBack now svc revision a).applied svc' = if svc' = svc then some a else c.applied svc' :=
  Function.update_apply ..

@[simp] theorem rollBack_previous :
    (c.rollBack now svc revision a).previous svc' = if svc' = svc then none else c.previous svc' :=
  Function.update_apply ..

@[simp] theorem rollBack_rejected :
    (c.rollBack now svc revision a).rejected svc' = if svc' = svc then some revision else c.rejected svc' :=
  Function.update_apply ..

@[simp] theorem choose_scalers :
    (c.choose svc sc count).scalers svc' = if svc' = svc then some sc else c.scalers svc' :=
  Function.update_apply ..

@[simp] theorem choose_desired :
    (c.choose svc sc count).desired svc' = if svc' = svc then some count else c.desired svc' :=
  Function.update_apply ..

end Fields

def effectiveFile (c : Controller) (service : String) : ComposeFile :=
  match c.applied service with
  | some a => { c.file with services := c.file.services.insert service a.service }
  | none => c.file

end Controller

section Machine
variable {σ : Type} (x : Extern) (fl : Floats) (o : Host σ)

abbrev Tick (σ α : Type) := Prog (Machine σ) α

def note (e : Event) : Tick σ Unit := Eff.modify fun m => { m with log := m.log ++ [e] }

def report (text : String) : Tick σ Unit := Eff.modify fun m => { m with events := m.events ++ [text] }

def reportWhen (p : Prop) [Decidable p] (text : String) : Tick σ Unit := if p then report text else pure ()

def update (f : Controller → Controller) : Tick σ Unit := Eff.modify fun m => { m with ctl := f m.ctl }

/-- A change of the controller together with its note. -/
def commit (f : Controller → Controller) (e : Event) : Tick σ Unit :=
  Eff.modify fun m => { m with ctl := f m.ctl, log := m.log ++ [e] }

/-- The API as the tick sees it: every call is logged, with the service whose turn it is. -/
def host (turn : Option String) : Host (Machine σ) where
  call r := do
    let res ← Eff.attempt (Eff.zoom Machine.outer (fun s m => { m with outer := s }) (o.call r))
    note (.call turn r res)
    Eff.lift res
  readToString p := Eff.zoom Machine.outer (fun s m => { m with outer := s }) (o.readToString p)
  newId := Eff.zoom Machine.outer (fun s m => { m with outer := s }) o.newId
  now := Eff.zoom Machine.outer (fun s m => { m with outer := s }) o.now

/-- `state.spec(api, file, &self.opts, svc, idx)`. -/
def build (file : ComposeFile) (svc : String) (idx : UInt32) : Tick σ Spec := do
  let m ← Eff.get
  let r ← Eff.attempt (m.build.spec x (host o (some svc)) file m.ctl.opts svc idx)
  note (.built svc (file.services.get? svc) idx (r.map Prod.fst))
  match r with
  | .error e => Eff.throw e
  | .ok (spec, st) =>
    Eff.modify fun m => { m with build := st }
    pure spec

/-! ## Observing -/

/-- The first time a replica was seen healthy since it last was not. -/
def sinceHealthy (c : Controller) (name : String) (now : UInt64) : UInt64 := (c.healthySince name).getD now

def observedHealth (c : Controller) (info : ContainerInfo) (now : UInt64) : Health :=
  match info.health with
  | none | some .healthy => .healthy (satSub64 now (sinceHealthy c info.name now))
  | some .starting => .starting
  | some .unhealthy => .unhealthy

/-- What observing a running replica leaves in `healthy_since`. -/
def trackHealth (c : Controller) (info : ContainerInfo) (now : UInt64) : Controller :=
  match info.health with
  | none | some .healthy =>
    { c with healthySince := Function.update c.healthySince info.name (some (sinceHealthy c info.name now)) }
  | _ => { c with healthySince := Function.update c.healthySince info.name none }

def observeOne (svc revision : String) (now : UInt64) (index : UInt32) (info : ContainerInfo) :
    Tick σ (Option Replica) := do
  let isTarget := info.revision == some revision
  if info.state ≠ .running then
    if isTarget then
      update fun c => { c with crashes := Function.update c.crashes svc (some ((c.crashes svc).getD 0 + 1)) }
      report s!"{svc}: replica {info.name} exited, replacing it"
    let _ ← (host o (some svc)).call (.rm info.name true false)
    update fun c => { c with healthySince := Function.update c.healthySince info.name none }
    pure none
  else
    let m ← Eff.get
    update fun c => trackHealth c info now
    pure (some {
      index
      revision := info.revision.getD ""
      health := observedHealth m.ctl info now
      lifecycle := .live
      failed := isTarget && info.health == some .unhealthy
      connections := 0 })

/-- The loop over the listed containers of the service. -/
def observeAll (project svc revision : String) (now : UInt64) : List ContainerInfo → Tick σ (List Replica)
  | [] => pure []
  | info :: rest =>
    match replicaIndex project svc info.name with
    | none => observeAll project svc revision now rest
    | some index => do
      let r ← observeOne o svc revision now index info
      let rs ← observeAll project svc revision now rest
      pure (r.toList ++ rs)

/-- The replica `observe` adds for a revision that keeps crashing. -/
def crashLoop (revision : String) : Replica where
  index := 0xffffffff
  revision := revision
  health := .unhealthy
  lifecycle := .live
  failed := true
  connections := 0

def observe (svc revision : String) (now : UInt64) : Tick σ (List Replica) := do
  let m ← Eff.get
  let project := m.ctl.file.project
  let list ← containers x (host o (some svc)) project
  let out ← observeAll o project svc revision now (list.filter fun c => c.service == some svc)
  let m ← Eff.get
  if decide (crashLimit ≤ (m.ctl.crashes svc).getD 0) && out.any fun r => r.revision != revision then
    pure (out ++ [crashLoop revision])
  else pure out

/-! ## Scaling -/

structure Samples where
  prevCpu : ContainerId → Option (UInt64 × UInt64)
  cpu : List (UInt64 × UInt64 × UInt32) := []
  memory : List (UInt64 × UInt64) := []

/-- One turn of the loop of `readings`. -/
def sample (now : UInt64) (acc : Samples) (s : ContainerStats) : Samples :=
  let cpu := match acc.prevCpu s.id with
    | some (usec, at') =>
      let dt := satSub64 now at'
      if 0 < dt then acc.cpu ++ [(satSub64 s.cpuUsageUsec usec, dt, s.cpuLimitMilli.getD 1000)] else acc.cpu
    | none => acc.cpu
  { prevCpu := Function.update acc.prevCpu s.id (some (s.cpuUsageUsec, now))
    cpu
    memory := match s.memoryMax with
      | some max => acc.memory ++ [(s.memoryCurrent, max)]
      | none => acc.memory }

def readings (stats : List ContainerStats) (svc : String) (now : UInt64) : Tick σ (List MetricReading) := do
  let m ← Eff.get
  let acc := (stats.filter fun s => s.service == some svc).foldl (sample now) { prevCpu := m.ctl.prevCpu }
  update fun c => { c with prevCpu := acc.prevCpu }
  pure ((if acc.cpu.isEmpty then [] else [⟨.cpu, fl.cpuMean acc.cpu⟩]) ++
    if acc.memory.isEmpty then [] else [⟨.memory, fl.memoryMean acc.memory⟩])

/-- The count the plan is made for; the autoscaler has a say while no rollout is going on. -/
def chooseDesired (stats : List ContainerStats) (svc : String) (dfn : Service) (rolling : Bool) (now : UInt64) :
    Tick σ UInt32 := do
  let m ← Eff.get
  let desired := (m.ctl.desired svc).getD dfn.replicas
  match dfn.autoscale, rolling with
  | some policy, false =>
    let rs ← readings fl stats svc now
    let sc := (m.ctl.scalers svc).getD (Scaler.new policy)
    let chosen := (sc.decide fl now desired rs).1.apply desired
    reportWhen (chosen ≠ desired) s!"{svc}: autoscaling {desired} -> {chosen}"
    commit (·.choose svc (sc.decide fl now desired rs).2 chosen) (.decided svc sc now)
    pure chosen
  | _, _ => pure desired

/-! ## One service -/

/-- The revision bookkeeping at the start of a service's turn. -/
def bookkeep (now : UInt64) (svc : String) (dfn : Service) (fileRev : String) : Tick σ Unit := do
  let m ← Eff.get
  match m.ctl.applied svc with
  | none => update (·.adopt svc ⟨fileRev, dfn⟩)
  | some cur =>
    if cur.revision ≠ fileRev ∧ m.ctl.rejected svc ≠ some fileRev then
      commit (·.supersede now svc cur ⟨fileRev, dfn⟩) (.superseded svc cur.revision fileRev)
      report s!"{svc}: rollout to revision {fileRev} started"
    else note (.kept svc dfn fileRev cur)

/-- The planner's input. -/
def planState (c : Controller) (now : UInt64) (svc : String) (applied : Applied) (desired : UInt32)
    (replicas : List Replica) : Rollout.State where
  desired := desired
  target := applied.revision
  previous := (c.previous svc).map (·.revision)
  policy := applied.service.updatePolicy
  drainSecs := 0
  replicas := replicas
  elapsedSecs := satSub64 now ((c.rolloutStart svc).getD now)
  sinceLastActionSecs := satSub64 now ((c.lastAction svc).getD (satSub64 now never))
  paused := false

def replicaName (c : Controller) (svc : String) (index : UInt32) : String := s!"{c.file.project}-{svc}-{index + 1}"

def start (now : UInt64) (svc : String) (index : UInt32) (revision : String) : Tick σ Unit := do
  let m ← Eff.get
  let spec ← build x o (m.ctl.effectiveFile svc) svc index
  if spec.labels.revision = some revision then
    match ← Eff.attempt ((host o (some svc)).call (.run spec)) with
    | .ok _ =>
      report s!"{svc}: started {spec.name}"
      update fun c => { c with lastAction := Function.update c.lastAction svc (some now) }
    | .error e => report s!"{svc}: cannot start {spec.name}: {e.display}"

def drain (now : UInt64) (svc : String) (index : UInt32) : Tick σ Unit := do
  let m ← Eff.get
  let name := replicaName m.ctl svc index
  let _ ← (host o (some svc)).call (.stop name none)
  let _ ← (host o (some svc)).call (.rm name true false)
  update fun c => { c with
    healthySince := Function.update c.healthySince name none
    lastAction := Function.update c.lastAction svc (some now) }
  report s!"{svc}: removed {name}"

def remove (svc : String) (index : UInt32) : Tick σ Unit := do
  let m ← Eff.get
  let _ ← (host o (some svc)).call (.rm (replicaName m.ctl svc index) true false)

def rollback (now : UInt64) (svc : String) (applied : Applied) (revision : String) : Tick σ Unit := do
  let m ← Eff.get
  match m.ctl.previous svc with
  | none => pure ()
  | some prev =>
    report s!"{svc}: rollback to revision {revision}"
    commit (·.rollBack now svc applied.revision prev) (.rolledBack svc applied.revision revision)

def act (now : UInt64) (svc : String) (applied : Applied) : Action → Tick σ Unit
  | .start index revision => start x o now svc index revision
  | .drain index => drain o now svc index
  | .remove index => remove o svc index
  | .rollback revision => rollback now svc applied revision
  | .pause reason => do
    report s!"{svc}: paused ({reason})"
    update fun c => { c with paused := Function.update c.paused svc true }
  | .complete => do
    let m ← Eff.get
    reportWhen ((m.ctl.rolloutStart svc).isSome = true) s!"{svc}: rollout complete"
    commit (fun c => { c with
      rolloutStart := Function.update c.rolloutStart svc none
      crashes := Function.update c.crashes svc none }) (.completed svc applied.revision)

/-- Planning and acting, for a service that is not paused. -/
def reconcile (stats : List ContainerStats) (now : UInt64) (svc : String) (dfn : Service) (fileRev : String)
    (applied : Applied) : Tick σ Unit := do
  let replicas ← observe x o svc applied.revision now
  let rolling := replicas.any fun r => r.revision != applied.revision
  let desired ← chooseDesired fl stats svc dfn rolling now
  let m ← Eff.get
  let st := planState m.ctl now svc applied desired replicas
  note (.planned svc dfn fileRev applied st)
  (nextStep st).forM (act x o now svc applied)

/-- A service's turn once its revision in the file is known. The source indexes `applied`, which the
bookkeeping has just filled. -/
def manage (stats : List ContainerStats) (now : UInt64) (svc : String) (dfn : Service) (fileRev : String) :
    Tick σ Unit := do
  bookkeep now svc dfn fileRev
  let m ← Eff.get
  match m.ctl.paused svc, m.ctl.applied svc with
  | false, some applied => reconcile x fl o stats now svc dfn fileRev applied
  | _, _ => pure ()

/-- One service's turn. The source indexes `services`, which has every service of the order. -/
def turn (stats : List ContainerStats) (now : UInt64) (svc : String) : Tick σ Unit := do
  let m ← Eff.get
  match m.ctl.file.services.get? svc with
  | none => pure ()
  | some dfn =>
    let spec ← build x o m.ctl.file svc 0
    manage x fl o stats now svc dfn (spec.labels.revision.getD "")

/-- `BuildState::new` into the tick's `state`. -/
def prepare : Tick σ Unit := do
  let m ← Eff.get
  let r ← Eff.attempt (BuildState.new x (host o none) m.ctl.file m.ctl.opts)
  note (.prepared (r.map fun _ => ()))
  match r with
  | .error e => Eff.throw e
  | .ok st => Eff.modify fun m => { m with build := st }

/-- The answer to `Stats`; anything else counts as no statistics. -/
def statsOf : Result Response → List ContainerStats
  | .ok (.stats s) => s
  | _ => []

def tick (now : UInt64) : Tick σ (List String) := do
  Eff.modify fun m => { m with events := [] }
  prepare x o
  let m ← Eff.get
  let order ← Eff.lift (topoOrder m.ctl.file.dependencyGraph)
  let stats ← Eff.attempt ((host o none).call (.stats (some m.ctl.file.project)))
  order.forM (turn x fl o (statsOf stats) now)
  let m ← Eff.get
  pure m.events

/-! ## Runs -/

inductive Command
  | setFile (file : ComposeFile)
  | pause (service : String)
  | resume (service : String)
  | tick (now : UInt64)

/-- What `state` stands for before `BuildState::new` has filled it; nothing reads it. -/
def blank : BuildState where
  order := []
  ipam := Ipam.new ⟨0, 8⟩
  secrets _ := none
  addresses _ := none
  lbVips _ := none
  forced := []
  images _ := none

/-- A controller over its lifetime: the machine, and for every tick so far its log and its result. -/
structure Run (σ : Type) where
  outer : σ
  ctl : Controller
  ticks : List (List Event) := []
  results : List (Result (List String)) := []

/-- The state a tick begins with. -/
def Run.machine (r : Run σ) : Machine σ := { outer := r.outer, ctl := r.ctl, build := blank }

def Run.step (r : Run σ) : Command → Run σ
  | .setFile file => { r with ctl := r.ctl.setFile file }
  | .pause service => { r with ctl := r.ctl.pause service }
  | .resume service => { r with ctl := r.ctl.resume service }
  | .tick now =>
    let (res, m) := tick x fl o now r.machine
    { outer := m.outer, ctl := m.ctl, ticks := r.ticks ++ [m.log], results := r.results ++ [res] }

def Run.exec (r : Run σ) (cmds : List Command) : Run σ := cmds.foldl (Run.step x fl o) r

end Machine
end Collocate.Control
