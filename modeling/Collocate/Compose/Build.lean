import Collocate.Compose.Model

/-! # Building a replica's spec (`collocate-compose/src/build.rs`)

`buildSpec` turns one replica of one service into the spec the daemon runs. The context gives the
values templates refer to and the three callbacks that reach outside: the base build, the image
and the path of a rendered config file. The revision label is a digest of the spec with everything
that differs between replicas taken out. -/
namespace Collocate.Compose
set_option autoImplicit false

structure BuildCtx (S : Type) where
  templates : Context
  baseBuild : Series → Prog S String
  oci : String → PullPolicy → Prog S ImageMeta
  configPath : String → Prog S String
  newId : Prog S ContainerId
  now : Prog S UInt64

def signalNumber (name : String) : Result ℤ :=
  match Text.parseI32 name with
  | some n => .ok n
  | none =>
    let upper := Text.toAsciiUppercase name
    match (Text.stripPrefix "SIG" upper).getD upper with
    | "HUP" => .ok 1
    | "INT" => .ok 2
    | "QUIT" => .ok 3
    | "KILL" => .ok 9
    | "USR1" => .ok 10
    | "USR2" => .ok 12
    | "TERM" => .ok 15
    | "CONT" => .ok 18
    | "STOP" => .ok 19
    | _ => .error (.invalid s!"unknown signal {name}")

def parseRestart (r : String) : RestartPolicy :=
  match r with
  | "always" => .always
  | "on-failure" => .onFailure 0
  | r => match (Text.stripPrefix "on-failure:" r).bind Text.parseU32 with
    | some max => .onFailure max
    | none => .no

def parseTmpfs (spec : String) : Result Mount := do
  let (dst, opts) := (Text.splitOnce ':' spec).getD (spec, "")
  let size ← ((Text.split ',' opts).filter (!·.isEmpty)).foldlM (fun size opt =>
    match Text.stripPrefix "size=" opt with
    | some v => (parseSize v).map some
    | none => pure size) none
  pure (.tmpfs dst size)

def resolveAll (args : List String) (ctx : Context) : Result (List String) := args.mapM (resolve · ctx)

def healthKind (h : HealthDef) (ctx : Context) : Result HealthKind :=
  match h.tcp, h.http, h.pebble with
  | some port, _, _ => .ok (.tcp port)
  | none, some c, _ => .ok (.http c.port c.path)
  | none, none, some level => .ok (.pebble (some level |>.filter (· ≠ "any")))
  | none, none, none => (resolveAll (h.exec.getD []) ctx).map .exec

def health (h : HealthDef) (ctx : Context) : Result Healthcheck := do
  let kind ← healthKind h ctx
  let intervalSecs ← parseDurationSecs h.interval
  let timeoutSecs ← parseDurationSecs h.timeout
  let startPeriodSecs ← parseDurationSecs h.startPeriod
  pure { kind, intervalSecs, timeoutSecs, retries := h.retries, startPeriodSecs }

def volumeMount (text : String) : Result Mount := do
  let v ← Volume.parse text
  pure (if v.isNamed then .volume v.src v.dst else .bind v.src v.dst v.ro)

section Build
variable {S : Type}

def pullPolicyOf (svc : Service) : Result PullPolicy :=
  match svc.pullPolicy with
  | some p => PullPolicy.parse p
  | none => .ok .missing

/-- The part of the image's command line a service replaces. -/
def imageOverrides (svc : Service) (ctx : Context) : Result RunOverrides := do
  let command ← resolveAll svc.command ctx
  let entrypoint ← if svc.entrypoint.isEmpty then pure none else (resolveAll svc.entrypoint ctx).map some
  pure { command, entrypoint }

/-- An error of `spec_from_image`, as `build_spec` passes it on. -/
def imageSpec (service name : String) (r : Result Spec) : Result Spec :=
  match r with
  | .ok spec => .ok { spec with name }
  | .error e => .error (.invalidSpec s!"service {service}: {e.display}")

/-- The spec before the service's own settings: a base system, or what the image says. -/
def rootSpec (ctx : BuildCtx S) (service name : String) (svc : Service) : Prog S Spec :=
  match svc.series, svc.image with
  | some series, _ => do
    let series ← Eff.lift (Series.parse series)
    let buildId ← ctx.baseBuild series
    let argv ← Eff.lift (resolveAll (svc.entrypoint ++ svc.command) ctx.templates)
    let id ← ctx.newId
    let created ← ctx.now
    pure (Spec.new id created name (.base series buildId) argv)
  | none, some image => do
    let policy ← Eff.lift (pullPolicyOf svc)
    let img ← ctx.oci image policy
    let ov ← Eff.lift (imageOverrides svc ctx.templates)
    let id ← ctx.newId
    let created ← ctx.now
    Eff.lift (imageSpec service name (specFromImage id created img ov))
  | none, none => Eff.throw (.invalidSpec s!"service {service} has no root")

/-- The process settings: environment, user, directory, host name and stop signal. -/
def applyProcess (ctx : Context) (svc : Service) (spec : Spec) : Result Spec := do
  let env ← svc.env.entries.foldlM (fun env e => do
    let v ← resolve e.2 ctx
    pure (setEnv env e.1 v)) spec.process.env
  let stopSignal ← match svc.stopSignal with
    | some sig => signalNumber sig
    | none => pure spec.process.stopSignal
  pure { spec with
    hostname := svc.hostname.getD spec.hostname
    process := { spec.process with
      env
      stopSignal
      user := svc.user.getD spec.process.user
      workdir := svc.workdir.getD spec.process.workdir
      stopTimeoutSecs := svc.stopTimeout.getD spec.process.stopTimeoutSecs } }

def applyLimits (x : Extern) (svc : Service) (spec : Spec) : Result Spec := do
  let memory ← match svc.memory with
    | some m => (parseSize m).map some
    | none => pure spec.limits.memory
  pure { spec with limits := { spec.limits with
    cpusMilli := (svc.cpus.map x.cpusMilli).orElse fun _ => spec.limits.cpusMilli
    memory
    ulimits := spec.limits.ulimits ++ svc.ulimits.entries.map fun e => ⟨e.1, e.2, e.2⟩ } }

def applyMounts (ctx : BuildCtx S) (svc : Service) (spec : Spec) : Prog S Spec := do
  let volumes ← Eff.lift ((svc.volume.toList ++ svc.volumes).mapM volumeMount)
  let tmpfs ← Eff.lift (svc.tmpfs.mapM parseTmpfs)
  let secrets := svc.secrets.map fun s => Mount.secret s ("/run/secrets/" ++ s)
  let configs ← Eff.collect (fun e => do
    let src ← ctx.configPath e.1
    pure (Mount.config src e.2)) svc.configs.entries
  pure { spec with mounts := spec.mounts ++ volumes ++ tmpfs ++ secrets ++ configs }

/-- Ports, restart policy, healthcheck and capabilities. -/
def applyRest (ctx : Context) (svc : Service) (spec : Spec) : Result Spec := do
  let publish ← svc.publish.mapM Publish.parse
  let healthcheck ← match svc.healthcheck with
    | some h => (health h ctx).map some
    | none => pure spec.healthcheck
  pure { spec with
    net := { spec.net with publish := spec.net.publish ++ publish }
    restart := (svc.restart.map parseRestart).getD spec.restart
    healthcheck
    caps := { add := svc.capAdd, drop := svc.capDrop }
    readOnlyRootfs := svc.readOnly }

/-- What the revision digests: the spec without what differs between replicas. -/
def normalised (spec : Spec) : Spec :=
  { spec with id := 0, name := "", hostname := "", labels := { spec.labels with replica := none } }

def revisionOf (x : Extern) (spec : Spec) : String :=
  String.ofList (((normalised spec).specHashHex x).toList.take 12)

def withLabels (x : Extern) (file : ComposeFile) (service : String) (svc : Service) (replica : UInt32)
    (spec : Spec) : Spec :=
  let spec := { spec with labels := { spec.labels with
    project := some file.project, service := some service, node := svc.node, replica := some replica } }
  { spec with labels := { spec.labels with revision := some (revisionOf x spec) } }

/-- The part of `build_spec` after its range check. -/
def buildReplica (x : Extern) (ctx : BuildCtx S) (file : ComposeFile) (service : String) (svc : Service)
    (replica : UInt32) : Prog S Spec := do
  let name := s!"{file.project}-{service}-{replica + 1}"
  let spec ← rootSpec ctx service name svc
  let spec := { spec with
    hostname := if svc.maxReplicas = 1 then service else s!"{service}-{replica + 1}"
    persistent := svc.persistent }
  let spec ← Eff.lift (applyProcess ctx.templates svc spec)
  let spec ← Eff.lift (applyLimits x svc spec)
  let spec ← applyMounts ctx svc spec
  let spec ← Eff.lift (applyRest ctx.templates svc spec)
  pure (withLabels x file service svc replica spec)

/-- The error `build_spec` gives for a replica the service cannot have. -/
def outOfRange (service : String) (replica : UInt32) : Error :=
  .invalid s!"replica {replica} is out of range for service {service}"

def buildSpec (x : Extern) (ctx : BuildCtx S) (file : ComposeFile) (service : String) (replica : UInt32) :
    Prog S Spec :=
  match file.services.get? service with
  | none => Eff.throw (.notFound s!"service {service}")
  | some svc =>
    if svc.indexBound ≤ replica then Eff.throw (outOfRange service replica)
    else buildReplica x ctx file service svc replica

/-! ## What building leaves alone -/

/-- `I` survives the callbacks of a context. -/
structure BuildCtx.Keeps (ctx : BuildCtx S) (I : S → Prop) : Prop where
  baseBuild : ∀ series, Eff.Keeps I (ctx.baseBuild series)
  oci : ∀ image policy, Eff.Keeps I (ctx.oci image policy)
  configPath : ∀ name, Eff.Keeps I (ctx.configPath name)
  newId : Eff.Keeps I ctx.newId
  now : Eff.Keeps I ctx.now

variable {x : Extern} {ctx : BuildCtx S} {I : S → Prop}

theorem rootSpec_keeps (hc : ctx.Keeps I) (service name : String) (svc : Service) :
    Eff.Keeps I (rootSpec ctx service name svc) := by
  unfold rootSpec
  split
  · refine Eff.Keeps.bind (Eff.Keeps.lift _) fun series => ?_
    refine Eff.Keeps.bind (hc.baseBuild _) fun buildId => ?_
    refine Eff.Keeps.bind (Eff.Keeps.lift _) fun argv => ?_
    refine Eff.Keeps.bind hc.newId fun id => ?_
    exact Eff.Keeps.bind hc.now fun created => Eff.Keeps.pure _
  · refine Eff.Keeps.bind (Eff.Keeps.lift _) fun policy => ?_
    refine Eff.Keeps.bind (hc.oci _ _) fun img => ?_
    refine Eff.Keeps.bind (Eff.Keeps.lift _) fun ov => ?_
    refine Eff.Keeps.bind hc.newId fun id => ?_
    exact Eff.Keeps.bind hc.now fun created => Eff.Keeps.lift _
  · exact Eff.Keeps.throw _

theorem applyMounts_keeps (hc : ctx.Keeps I) (svc : Service) (spec : Spec) :
    Eff.Keeps I (applyMounts ctx svc spec) := by
  refine Eff.Keeps.bind (Eff.Keeps.lift _) fun volumes => ?_
  refine Eff.Keeps.bind (Eff.Keeps.lift _) fun tmpfs => ?_
  refine Eff.Keeps.bind (Eff.Keeps.collect _ fun e _ => ?_) fun configs => Eff.Keeps.pure _
  exact Eff.Keeps.bind (hc.configPath _) fun src => Eff.Keeps.pure _

theorem buildSpec_keeps (hc : ctx.Keeps I) (file : ComposeFile) (service : String) (replica : UInt32) :
    Eff.Keeps I (buildSpec x ctx file service replica) := by
  unfold buildSpec
  split
  · exact Eff.Keeps.throw _
  · split
    · exact Eff.Keeps.throw _
    · refine Eff.Keeps.bind (rootSpec_keeps hc _ _ _) fun spec => ?_
      refine Eff.Keeps.bind (Eff.Keeps.lift _) fun spec => ?_
      refine Eff.Keeps.bind (Eff.Keeps.lift _) fun spec => ?_
      refine Eff.Keeps.bind (applyMounts_keeps hc _ _) fun spec => ?_
      exact Eff.Keeps.bind (Eff.Keeps.lift _) fun spec => Eff.Keeps.pure _

/-! ## What a spec is built from -/

/-- The specs between the steps of `build_spec`. -/
structure Steps (x : Extern) (ctx : BuildCtx S) (file : ComposeFile) (service : String) (svc : Service)
    (replica : UInt32)
    (s s' : S) (spec : Spec) where
  root : Spec
  processed : Spec
  limited : Spec
  mounted : Spec
  rest : Spec
  between : S
  hroot : rootSpec ctx service s!"{file.project}-{service}-{replica + 1}" svc s = (.ok root, between)
  hprocess : applyProcess ctx.templates svc { root with
    hostname := if svc.maxReplicas = 1 then service else s!"{service}-{replica + 1}"
    persistent := svc.persistent } = .ok processed
  hlimits : applyLimits x svc processed = .ok limited
  hmounts : applyMounts ctx svc limited between = (.ok mounted, s')
  hrest : applyRest ctx.templates svc mounted = .ok rest
  hlabels : spec = withLabels x file service svc replica rest

theorem buildReplica_ok {file : ComposeFile} {service : String} {svc : Service} {replica : UInt32} {s s' : S}
    {spec : Spec} (h : buildReplica x ctx file service svc replica s = (.ok spec, s')) :
    Nonempty (Steps x ctx file service svc replica s s' spec) := by
  unfold buildReplica at h
  obtain ⟨root, s₁, hroot, h⟩ := Eff.bind_ok h
  obtain ⟨processed, hprocess, h⟩ := Eff.lift_bind_ok h
  obtain ⟨limited, hlimits, h⟩ := Eff.lift_bind_ok h
  obtain ⟨mounted, s₂, hmounts, h⟩ := Eff.bind_ok h
  obtain ⟨rest, hrest, h⟩ := Eff.lift_bind_ok h
  cases h
  exact ⟨⟨root, processed, limited, mounted, rest, s₁, hroot, hprocess, hlimits, hmounts, hrest, rfl⟩⟩

theorem buildSpec_ok {file : ComposeFile} {service : String} {replica : UInt32} {s s' : S} {spec : Spec}
    (h : buildSpec x ctx file service replica s = (.ok spec, s')) :
    ∃ svc, file.services.get? service = some svc ∧ ¬svc.indexBound ≤ replica ∧
      Nonempty (Steps x ctx file service svc replica s s' spec) := by
  unfold buildSpec at h
  cases hg : file.services.get? service with
  | none =>
    rw [hg] at h
    cases h
  | some svc =>
    simp only [hg] at h
    by_cases hb : svc.indexBound ≤ replica
    · rw [if_pos hb] at h
      cases h
    · rw [if_neg hb] at h
      exact ⟨svc, rfl, hb, buildReplica_ok h⟩

/-- A built spec is labelled with its service. -/
theorem buildSpec_service {file : ComposeFile} {service : String} {replica : UInt32} {s s' : S} {spec : Spec}
    (h : buildSpec x ctx file service replica s = (.ok spec, s')) : spec.labels.service = some service := by
  obtain ⟨svc, -, -, ⟨steps⟩⟩ := buildSpec_ok h
  rw [steps.hlabels]
  rfl

theorem imageSpec_name {service name : String} {r : Result Spec} {spec : Spec}
    (h : imageSpec service name r = .ok spec) :
    spec.name = name := by
  unfold imageSpec at h
  split at h
  · cases h
    rfl
  · cases h

theorem rootSpec_name {service name : String} {svc : Service} {s s' : S} {spec : Spec}
    (h : rootSpec ctx service name svc s = (.ok spec, s')) : spec.name = name := by
  unfold rootSpec at h
  cases hseries : svc.series with
  | some series =>
    simp only [hseries] at h
    obtain ⟨series, h⟩ := Eff.lift_bind_ok h
    obtain ⟨buildId, s₁, -, h⟩ := Eff.bind_ok h.2
    obtain ⟨argv, -, h⟩ := Eff.lift_bind_ok h
    obtain ⟨id, s₂, -, h⟩ := Eff.bind_ok h
    obtain ⟨created, s₃, -, h⟩ := Eff.bind_ok h
    cases h
    rfl
  | none =>
    cases himage : svc.image with
    | none =>
      simp only [hseries, himage] at h
      cases h
    | some image =>
      simp only [hseries, himage] at h
      obtain ⟨policy, -, h⟩ := Eff.lift_bind_ok h
      obtain ⟨img, s₁, -, h⟩ := Eff.bind_ok h
      obtain ⟨ov, -, h⟩ := Eff.lift_bind_ok h
      obtain ⟨id, s₂, -, h⟩ := Eff.bind_ok h
      obtain ⟨created, s₃, -, h⟩ := Eff.bind_ok h
      exact imageSpec_name (Eff.lift_ok h).1

theorem applyProcess_ok {tctx : Context} {svc : Service} {spec spec' : Spec}
    (h : applyProcess tctx svc spec = .ok spec') :
    ∃ env stopSignal,
      svc.env.entries.foldlM (fun env e => do
        let v ← resolve e.2 tctx
        pure (setEnv env e.1 v)) spec.process.env = Except.ok env ∧
      svc.stopSignal.elim (.ok spec.process.stopSignal) signalNumber = .ok stopSignal ∧
      spec' = { spec with
        hostname := svc.hostname.getD spec.hostname
        process := { spec.process with
          env
          stopSignal
          user := svc.user.getD spec.process.user
          workdir := svc.workdir.getD spec.process.workdir
          stopTimeoutSecs := svc.stopTimeout.getD spec.process.stopTimeoutSecs } } := by
  obtain ⟨env, henv, h⟩ := Result.bind_ok h
  cases hs : svc.stopSignal with
  | none =>
    rw [hs] at h
    cases h
    exact ⟨env, _, henv, rfl, rfl⟩
  | some sig =>
    rw [hs] at h
    obtain ⟨stopSignal, hsignal, h⟩ := Result.bind_ok h
    cases h
    exact ⟨env, stopSignal, henv, hsignal, rfl⟩

theorem applyLimits_ok {svc : Service} {spec spec' : Spec} (h : applyLimits x svc spec = .ok spec') :
    ∃ memory,
      svc.memory.elim (.ok spec.limits.memory) (fun m => (parseSize m).map some) = .ok memory ∧
      spec' = { spec with limits := { spec.limits with
        cpusMilli := (svc.cpus.map x.cpusMilli).orElse fun _ => spec.limits.cpusMilli
        memory
        ulimits := spec.limits.ulimits ++ svc.ulimits.entries.map fun e => ⟨e.1, e.2, e.2⟩ } } := by
  unfold applyLimits at h
  cases hm : svc.memory with
  | none =>
    simp only [hm] at h
    exact ⟨spec.limits.memory, rfl, (Except.ok.inj h).symm⟩
  | some m =>
    simp only [hm] at h
    obtain ⟨memory, hmemory, h⟩ := Result.bind_ok h
    exact ⟨memory, by rw [Option.elim_some, hmemory], (Except.ok.inj h).symm⟩

theorem applyMounts_ok {svc : Service} {spec spec' : Spec} {s s' : S}
    (h : applyMounts ctx svc spec s = (.ok spec', s')) :
    ∃ volumes tmpfs configs,
      (svc.volume.toList ++ svc.volumes).mapM volumeMount = Except.ok volumes ∧
      svc.tmpfs.mapM parseTmpfs = Except.ok tmpfs ∧
      Eff.collect (fun e => do
        let src ← ctx.configPath e.1
        pure (Mount.config src e.2)) svc.configs.entries s = (.ok configs, s') ∧
      spec' = { spec with mounts := spec.mounts ++ volumes ++ tmpfs ++
        (svc.secrets.map fun s => Mount.secret s ("/run/secrets/" ++ s)) ++ configs } := by
  obtain ⟨volumes, hvolumes, h⟩ := Eff.lift_bind_ok h
  obtain ⟨tmpfs, htmpfs, h⟩ := Eff.lift_bind_ok h
  obtain ⟨configs, s₁, hconfigs, h⟩ := Eff.bind_ok h
  cases h
  exact ⟨volumes, tmpfs, configs, hvolumes, htmpfs, hconfigs, rfl⟩

theorem applyRest_ok {tctx : Context} {svc : Service} {spec spec' : Spec} (h : applyRest tctx svc spec = .ok spec') :
    ∃ publish healthcheck,
      svc.publish.mapM Publish.parse = Except.ok publish ∧
      svc.healthcheck.elim (.ok spec.healthcheck) (fun d => (health d tctx).map some) = .ok healthcheck ∧
      spec' = { spec with
        net := { spec.net with publish := spec.net.publish ++ publish }
        restart := (svc.restart.map parseRestart).getD spec.restart
        healthcheck
        caps := { add := svc.capAdd, drop := svc.capDrop }
        readOnlyRootfs := svc.readOnly } := by
  obtain ⟨publish, hpublish, h⟩ := Result.bind_ok h
  cases hd : svc.healthcheck with
  | none =>
    rw [hd] at h
    cases h
    exact ⟨publish, _, hpublish, rfl, rfl⟩
  | some d =>
    rw [hd] at h
    obtain ⟨healthcheck, hhealth, h⟩ := Result.bind_ok h
    cases h
    exact ⟨publish, healthcheck, hpublish, hhealth, rfl⟩

/-- A built spec has the name of its replica. -/
theorem buildSpec_name {file : ComposeFile} {service : String} {replica : UInt32} {s s' : S} {spec : Spec}
    (h : buildSpec x ctx file service replica s = (.ok spec, s')) :
    spec.name = s!"{file.project}-{service}-{replica + 1}" := by
  obtain ⟨svc, -, -, ⟨steps⟩⟩ := buildSpec_ok h
  obtain ⟨_, _, -, -, hprocess⟩ := applyProcess_ok steps.hprocess
  obtain ⟨_, -, hlimits⟩ := applyLimits_ok steps.hlimits
  obtain ⟨_, _, _, -, -, -, hmounts⟩ := applyMounts_ok steps.hmounts
  obtain ⟨_, _, -, -, hrest⟩ := applyRest_ok steps.hrest
  have hroot : steps.root.name = s!"{file.project}-{service}-{replica + 1}" := rootSpec_name steps.hroot
  calc spec.name = (withLabels x file service svc replica steps.rest).name := congrArg Spec.name steps.hlabels
    _ = steps.rest.name := rfl
    _ = steps.mounted.name := by rw [hrest]
    _ = steps.limited.name := by rw [hmounts]
    _ = steps.processed.name := by rw [hlimits]
    _ = steps.root.name := by rw [hprocess]
    _ = s!"{file.project}-{service}-{replica + 1}" := hroot

end Build
end Collocate.Compose
