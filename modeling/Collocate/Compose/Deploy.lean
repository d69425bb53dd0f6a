import Collocate.Compose.Up

/-! # Bringing a project up and down (`collocate-compose/src/up.rs`, `plan.rs`)

`up` builds the specs that the file asks for, compares them with the containers there are, and goes through the
services in their order. How often `wait_ready` looks before its deadline has passed is decided outside: it is
given as a number of rounds for each service. -/
namespace Collocate.Compose
set_option autoImplicit false

/-! ## Plans -/

structure Item where
  name : String
  hash : String
  deriving DecidableEq, Repr

structure Actual where
  name : String
  hash : String
  running : Bool
  deriving DecidableEq, Repr

structure Plan where
  create : List String := []
  recreate : List String := []
  start : List String := []
  keep : List String := []
  remove : List String := []
  deriving DecidableEq, Repr

def Plan.isNoop (p : Plan) : Bool := p.create.isEmpty && p.recreate.isEmpty && p.start.isEmpty && p.remove.isEmpty

/-- The list of a plan that an item goes to. -/
inductive Verdict
  | create
  | recreate
  | start
  | keep
  deriving DecidableEq, Repr

/-- Of several containers of one name the last counts. -/
def actualOf (actual : List Actual) (name : String) : Option Actual := actual.reverse.find? fun a => a.name = name

def verdict (actual : List Actual) (item : Item) : Verdict :=
  match actualOf actual item.name with
  | none => .create
  | some a => if a.hash ≠ item.hash then .recreate else if !a.running then .start else .keep

def judged (desired : List Item) (actual : List Actual) (v : Verdict) : List String :=
  (desired.filter fun item => verdict actual item = v).map Item.name

def diff (desired : List Item) (actual : List Actual) : Plan where
  create := judged desired actual .create
  recreate := judged desired actual .recreate
  start := judged desired actual .start
  keep := judged desired actual .keep
  remove := ((actual.filter fun a => a.name ∉ desired.map Item.name).map Actual.name).insertionSort (· ≤ ·)

/-! ## Preparing -/

structure Prepared where
  order : List String
  specs : List (String × List Spec)
  lbVips : String → Option Ipv4Addr
  forced : List String

section Host
variable {S : Type} (x : Extern) (h : Host S)

/-- The specs of `n` replicas of a service, from index `i` on. -/
def replicaSpecs (file : ComposeFile) (opts : UpOptions) (svc : String) :
    ℕ → UInt32 → BuildState → Prog S (List Spec × BuildState)
  | 0, _, st => pure ([], st)
  | n + 1, i, st => do
    let (spec, st) ← st.spec x h file opts svc i
    let (specs, st) ← replicaSpecs file opts svc n (i + 1) st
    pure (spec :: specs, st)

def allSpecs (file : ComposeFile) (opts : UpOptions) :
    List String → BuildState → Prog S (List (String × List Spec) × BuildState)
  | [], st => pure ([], st)
  | svc :: rest, st => do
    let replicas := ((file.services.get? svc).map (·.replicas)).getD 0
    let (specs, st) ← replicaSpecs x h file opts svc replicas.toNat 0 st
    let (others, st) ← allSpecs file opts rest st
    pure ((svc, specs) :: others, st)

def prepare (file : ComposeFile) (opts : UpOptions) : Prog S Prepared := do
  let st ← BuildState.new x h file opts
  let (specs, st) ← allSpecs x h file opts st.order st
  pure { order := st.order, specs, lbVips := st.lbVips, forced := st.forced }

def desiredItems (prep : Prepared) : List Item :=
  prep.specs.flatMap fun (svc, specs) => specs.map fun s =>
    let hash := s.labels.revision.getD ""
    { name := s.name, hash := if svc ∈ prep.forced then hash ++ "+rotate" else hash }

def actualItems (existing : List ContainerInfo) : List Actual :=
  existing.map fun c => { name := c.name, hash := c.revision.getD "", running := decide (c.state = .running) }

def makePlan (prep : Prepared) (existing : List ContainerInfo) : Plan := diff (desiredItems prep) (actualItems existing)

def planOnly (file : ComposeFile) (opts : UpOptions) : Prog S Plan := do
  let prep ← prepare x h file { opts with dryRun := true }
  let existing ← containers x h file.project
  pure (makePlan prep existing)

/-! ## Readiness -/

/-- The probe that a dependency on a service brings, unless the service has a healthcheck of its own. -/
def dependencyHealthcheckOverride (file : ComposeFile) (service : String) : Option (List String) :=
  if ((file.services.get? service).bind (·.healthcheck)).isSome then none
  else (file.services.values.findSome? fun s =>
    s.dependsOn.find? fun d => d.service = service ∧ d.healthcheck ≠ []).map (·.healthcheck)

/-- Whether a listed container is healthy, by its probe or by what the list says. -/
def probeHealthy (probe : Option (List String)) (c : ContainerInfo) : Prog S Bool :=
  match probe with
  | some argv => do
    let answer ← Eff.attempt (h.call (.execProbe c.name argv 5))
    pure (decide (answer = .ok (.exit 0)))
  | none => pure (c.health.all fun health => health = .healthy)

/-- The check of one round: all names in turn, up to the first that is not ready. -/
def checkReady (probe : Option (List String)) (list : List ContainerInfo) : List String → Prog S Bool
  | [] => pure true
  | n :: names =>
    match list.find? fun c => c.name = n with
    | none => pure false
    | some c =>
      if c.state ≠ .running then pure false
      else do
        let healthy ← probeHealthy h probe c
        if healthy then checkReady probe list names else pure false

def waitReady (file : ComposeFile) (service : String) (names : List String) : ℕ → Prog S Unit
  | 0 => do
    let list ← containers x h file.project
    let ready ← checkReady h (dependencyHealthcheckOverride file service) list names
    if ready then pure () else Eff.throw (.timeout s!"service {service} did not become ready")
  | rounds + 1 => do
    let list ← containers x h file.project
    let ready ← checkReady h (dependencyHealthcheckOverride file service) list names
    if ready then pure () else waitReady file service names rounds

/-! ## Up -/

def lbSpec (project name : String) (lb : LbDef) (vip : Option Ipv4Addr) : LbSpec where
  project
  name
  proto := .tcp
  listen := lb.listen
  publish := lb.publish.filterMap fun p => (Publish.parse p).toOption.map (·.host)
  backendService := lb.backends.service
  backendPort := lb.backends.port
  algorithm := lb.algorithm
  onNoBackends := if lb.onNoBackends = some "drop" then .drop else .reject
  drainSecs := lb.drainSecs
  vip

def registerLb (file : ComposeFile) (prep : Prepared) (name : String) (lb : LbDef) : Prog S Unit := do
  let _ ← h.call (.lbSet (lbSpec file.project name lb (prep.lbVips name)))

/-- `Stop` and `Rm` of a container that is to go. -/
def removeContainer (name : String) : Prog S Unit := do
  let _ ← h.call (.stop name none)
  let _ ← h.call (.rm name true false)

/-- What the plan has for a replica; the name of one that was touched. -/
def applySpec (plan : Plan) (spec : Spec) : Prog S (Option String) := do
  if spec.name ∈ plan.recreate then do
    removeContainer h spec.name
    let _ ← h.call (.run spec)
    pure (some spec.name)
  else if spec.name ∈ plan.create then do
    let _ ← h.call (.run spec)
    pure (some spec.name)
  else if spec.name ∈ plan.start then do
    let _ ← h.call (.start spec.name)
    pure (some spec.name)
  else pure none

/-- One turn of the loop over the services. -/
def deployService (file : ComposeFile) (prep : Prepared) (plan : Plan) (rounds : String → ℕ)
    (e : String × List Spec) : Prog S Unit := do
  let touched ← Eff.collect (applySpec h plan) e.2
  if touched.reduceOption ≠ [] then waitReady x h file e.1 touched.reduceOption (rounds e.1)
  (file.loadbalancers.entries.filter fun l => l.2.backends.service = e.1).forM fun l => registerLb h file prep l.1 l.2

/-- `UpReport` has the lists of the plan. -/
def up (file : ComposeFile) (opts : UpOptions) (rounds : String → ℕ) : Prog S Plan := do
  Eff.lift file.validate
  let prep ← prepare x h file opts
  let existing ← containers x h file.project
  let plan := makePlan prep existing
  if opts.dryRun then pure plan
  else do
    prep.specs.forM (deployService x h file prep plan rounds)
    (shutdownOrder plan.remove).forM (removeContainer h)
    pure plan

/-! ## Down -/

/-- The containers of a service, by name. -/
def mine (existing : List ContainerInfo) (svc : String) : List String :=
  ((existing.filter fun c => c.service = some svc).map (·.name)).insertionSort (· ≤ ·)

def removeLb (project name : String) : Prog S Unit := do
  match ← Eff.attempt (h.call (.lbRemove project name)) with
  | .ok _ | .error (.notFound _) => pure ()
  | .error e => Eff.throw e

def down (file : ComposeFile) (opts : UpOptions) : Prog S (List String) := do
  let order ← Eff.lift (topoOrder file.dependencyGraph)
  let existing ← containers x h file.project
  let going := (shutdownOrder order).flatMap (mine existing)
  if opts.dryRun then pure going
  else do
    going.forM (removeContainer h)
    file.loadbalancers.keys.forM (removeLb h file.project)
    pure going

end Host

/-! ## What preparing gives -/

/-- The name of a replica, which `build_spec` gives it. -/
def replicaName (project svc : String) (i : UInt32) : String := s!"{project}-{svc}-{i + 1}"

section Prepared
variable {S : Type} {x : Extern} {h : Host S} {file : ComposeFile} {opts : UpOptions}

theorem replicaSpecs_named {svc : String} {n : ℕ} {i : UInt32} {st st' : BuildState} {s s' : S} {specs : List Spec}
    (hs : replicaSpecs x h file opts svc n i st s = (.ok (specs, st'), s')) :
    ∀ spec ∈ specs, ∃ j, spec.name = replicaName file.project svc j := by
  induction n generalizing i st s specs with
  | zero =>
    cases hs
    exact fun spec hspec => absurd hspec List.not_mem_nil
  | succ n ih =>
    obtain ⟨⟨spec, st₁⟩, s₁, hspec, hs⟩ := Eff.bind_ok hs
    obtain ⟨⟨rest, st₂⟩, s₂, hrest, hs⟩ := Eff.bind_ok hs
    cases hs
    intro spec' hmem
    cases hmem with
    | head => exact ⟨i, BuildState.spec_name hspec⟩
    | tail _ hmem => exact ih hrest spec' hmem

theorem allSpecs_named {svcs : List String} {st st' : BuildState} {s s' : S} {specs : List (String × List Spec)}
    (hs : allSpecs x h file opts svcs st s = (.ok (specs, st'), s')) :
    specs.map Prod.fst = svcs ∧ ∀ e ∈ specs, ∀ spec ∈ e.2, ∃ j, spec.name = replicaName file.project e.1 j := by
  induction svcs generalizing st s specs with
  | nil =>
    cases hs
    exact ⟨rfl, fun e he => absurd he List.not_mem_nil⟩
  | cons svc svcs ih =>
    obtain ⟨⟨mine, st₁⟩, s₁, hmine, hs⟩ := Eff.bind_ok hs
    obtain ⟨⟨rest, st₂⟩, s₂, hrest, hs⟩ := Eff.bind_ok hs
    cases hs
    obtain ⟨hkeys, hnamed⟩ := ih hrest
    refine ⟨by rw [List.map_cons, hkeys], ?_⟩
    intro e he
    cases he with
    | head => exact replicaSpecs_named hmine
    | tail _ hmem => exact hnamed e hmem

/-- The specs are prepared service by service in their order, each with the name of a replica. -/
theorem prepare_named {s s' : S} {prep : Prepared} (hs : prepare x h file opts s = (.ok prep, s')) :
    topoOrder file.dependencyGraph = .ok (prep.specs.map Prod.fst) ∧
      ∀ e ∈ prep.specs, ∀ spec ∈ e.2, ∃ j, spec.name = replicaName file.project e.1 j := by
  obtain ⟨st, s₁, hnew, hs⟩ := Eff.bind_ok hs
  obtain ⟨⟨specs, st'⟩, s₂, hall, hs⟩ := Eff.bind_ok hs
  cases hs
  obtain ⟨hkeys, hnamed⟩ := allSpecs_named hall
  exact ⟨by rw [hkeys]; exact BuildState.new_topo hnew, hnamed⟩

/-! ## What preparing leaves alone -/

variable {I : S → Prop}

theorem replicaSpecs_keeps (hh : h.KeepsOn Request.Fetching I) (svc : String) (n : ℕ) (i : UInt32) (st : BuildState) :
    Eff.Keeps I (replicaSpecs x h file opts svc n i st) := by
  induction n generalizing i st with
  | zero => exact Eff.Keeps.pure _
  | succ n ih =>
    apply Eff.Keeps.bind (BuildState.spec_keeps hh st file opts svc i)
    intro p
    exact Eff.Keeps.bind (ih _ _) fun _ => Eff.Keeps.pure _

theorem allSpecs_keeps (hh : h.KeepsOn Request.Fetching I) (svcs : List String) (st : BuildState) :
    Eff.Keeps I (allSpecs x h file opts svcs st) := by
  induction svcs generalizing st with
  | nil => exact Eff.Keeps.pure _
  | cons svc svcs ih =>
    apply Eff.Keeps.bind (replicaSpecs_keeps hh svc _ 0 st)
    intro p
    exact Eff.Keeps.bind (ih _) fun _ => Eff.Keeps.pure _

theorem prepare_keeps (hh : h.KeepsOn Request.Building I) : Eff.Keeps I (prepare x h file opts) := by
  apply Eff.Keeps.bind (BuildState.new_keeps hh file opts)
  intro st
  exact Eff.Keeps.bind (allSpecs_keeps (hh.mono fun _ hr => hr.building) _ _) fun _ => Eff.Keeps.pure _

/-! ## What deploying leaves alone -/

variable {Good : Spec → Prop}

theorem removeContainer_keepsOn (hh : h.KeepsOn (Request.Deploying Good) I) (name : String) :
    Eff.Keeps I (removeContainer h name) :=
  Eff.Keeps.bind (hh.call _ trivial) fun _ => Eff.Keeps.bind (hh.call _ trivial) fun _ => Eff.Keeps.pure _

theorem applySpec_keepsOn (hh : h.KeepsOn (Request.Deploying Good) I) {plan : Plan} {spec : Spec} (hspec : Good spec) :
    Eff.Keeps I (applySpec h plan spec) := by
  unfold applySpec
  split
  · apply Eff.Keeps.bind (removeContainer_keepsOn hh spec.name)
    intro _
    exact Eff.Keeps.bind (hh.call _ hspec) fun _ => Eff.Keeps.pure _
  · split
    · exact Eff.Keeps.bind (hh.call _ hspec) fun _ => Eff.Keeps.pure _
    · split
      · exact Eff.Keeps.bind (hh.call _ trivial) fun _ => Eff.Keeps.pure _
      · exact Eff.Keeps.pure _

theorem probeHealthy_keepsOn (hh : h.KeepsOn Request.Watching I) (probe : Option (List String)) (c : ContainerInfo) :
    Eff.Keeps I (probeHealthy h probe c) := by
  cases probe with
  | none => exact Eff.Keeps.pure _
  | some argv => exact Eff.Keeps.bind (Eff.Keeps.attempt (hh.call _ trivial)) fun _ => Eff.Keeps.pure _

theorem checkReady_keepsOn (hh : h.KeepsOn Request.Watching I) (probe : Option (List String))
    (list : List ContainerInfo) (names : List String) : Eff.Keeps I (checkReady h probe list names) := by
  induction names with
  | nil => exact Eff.Keeps.pure _
  | cons n names ih =>
    unfold checkReady
    split
    · exact Eff.Keeps.pure _
    · split
      · exact Eff.Keeps.pure _
      · apply Eff.Keeps.bind (probeHealthy_keepsOn hh probe _)
        intro healthy
        cases healthy with
        | false => exact Eff.Keeps.pure _
        | true => exact ih

theorem waitReady_keepsOn (hh : h.KeepsOn Request.Watching I) (service : String)
    (names : List String) (rounds : ℕ) : Eff.Keeps I (waitReady x h file service names rounds) := by
  have hlist : h.KeepsOn Request.Listing I := hh.mono fun _ hr => hr.watching
  induction rounds with
  | zero =>
    apply Eff.Keeps.bind (containers_keeps hlist _)
    intro list
    apply Eff.Keeps.bind (checkReady_keepsOn hh _ list names)
    intro ready
    cases ready with
    | true => exact Eff.Keeps.pure _
    | false => exact Eff.Keeps.throw _
  | succ rounds ih =>
    apply Eff.Keeps.bind (containers_keeps hlist _)
    intro list
    apply Eff.Keeps.bind (checkReady_keepsOn hh _ list names)
    intro ready
    cases ready with
    | true => exact Eff.Keeps.pure _
    | false => exact ih

theorem deployService_keepsOn (hh : h.KeepsOn (Request.Deploying Good) I) (prep : Prepared) (plan : Plan)
    {e : String × List Spec} (he : ∀ spec ∈ e.2, Good spec) (rounds : String → ℕ) :
    Eff.Keeps I (deployService x h file prep plan rounds e) := by
  apply Eff.Keeps.bind (Eff.Keeps.collect _ fun spec hspec => applySpec_keepsOn hh (he spec hspec))
  intro touched
  have hlbs : Eff.Keeps I ((file.loadbalancers.entries.filter fun l => l.2.backends.service = e.1).forM
      fun l => registerLb h file prep l.1 l.2) :=
    Eff.Keeps.forM _ fun l _ => Eff.Keeps.bind (hh.call _ trivial) fun _ => Eff.Keeps.pure _
  dsimp only
  split
  · exact Eff.Keeps.bind (waitReady_keepsOn (hh.mono fun _ hr => hr.deploying) _ _ _) fun _ => hlbs
  · exact hlbs

/-- All of `up` behind its plan. -/
theorem deploy_keepsOn (hh : h.KeepsOn (Request.Deploying Good) I) (prep : Prepared) (plan : Plan)
    (hspecs : ∀ e ∈ prep.specs, ∀ spec ∈ e.2, Good spec) (rounds : String → ℕ) :
    Eff.Keeps I (do
      prep.specs.forM (deployService x h file prep plan rounds)
      (shutdownOrder plan.remove).forM (removeContainer h)
      pure plan) := by
  apply Eff.Keeps.bind (Eff.Keeps.forM _ fun e he => deployService_keepsOn hh prep plan (hspecs e he) rounds)
  intro _
  apply Eff.Keeps.bind (Eff.Keeps.forM _ fun name _ => removeContainer_keepsOn hh name)
  exact fun _ => Eff.Keeps.pure _

end Prepared
end Collocate.Compose
