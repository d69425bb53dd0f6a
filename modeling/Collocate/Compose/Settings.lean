import Collocate.Compose.Build

/-! # What a built spec says (`collocate-compose/src/build.rs`)

A spec that `build_spec` returns, field by field, in terms of the file, the context and what its callbacks answer. -/
namespace Collocate.Compose
set_option autoImplicit false

/-! ## Versions of a project -/

/-- A file and a context, with the state in which a replica is built. -/
structure Version (S : Type) where
  file : ComposeFile
  ctx : BuildCtx S
  start : S

namespace Version

variable {S : Type} (v : Version S) (service : String) (replica : UInt32) (svc : Service)

/-- What the callbacks for images and base systems make of a service, and the state after. -/
def root : Result Spec × S := rootSpec v.ctx service s!"{v.file.project}-{service}-{replica + 1}" svc v.start

def source : Result (RootSource × ImageKind × List String) :=
  (v.root service replica svc).1.map fun r => (r.root, r.imageKind, r.process.argv)

def env : Result (List (String × String)) := do
  let r ← (v.root service replica svc).1
  svc.env.entries.foldlM (fun env e => do
    let value ← resolve e.2 v.ctx.templates
    pure (setEnv env e.1 value)) r.process.env

def user : Result String := (v.root service replica svc).1.map fun r => svc.user.getD r.process.user

def workdir : Result String := (v.root service replica svc).1.map fun r => svc.workdir.getD r.process.workdir

def stopSignal : Result ℤ := do
  let r ← (v.root service replica svc).1
  svc.stopSignal.elim (.ok r.process.stopSignal) signalNumber

/-- The mounts of configs, at the paths that the callback answers. -/
def configs : Result (List Mount) :=
  (Eff.collect (fun e => do
    let src ← v.ctx.configPath e.1
    pure (Mount.config src e.2)) svc.configs.entries (v.root service replica svc).2).1

def mounts : Result (List Mount) := do
  let volumes ← (svc.volume.toList ++ svc.volumes).mapM volumeMount
  let tmpfs ← svc.tmpfs.mapM parseTmpfs
  let configs ← v.configs service replica svc
  pure (volumes ++ tmpfs ++ (svc.secrets.map fun s => Mount.secret s ("/run/secrets/" ++ s)) ++ configs)

def healthcheck : Result (Option Healthcheck) := do
  let r ← (v.root service replica svc).1
  svc.healthcheck.elim (.ok r.healthcheck) fun d => (health d v.ctx.templates).map some

end Version

/-- The host name of a replica, its service's own or a default. -/
def hostOf (service : String) (replica : UInt32) (svc : Service) : String :=
  svc.hostname.getD (if svc.maxReplicas = 1 then service else s!"{service}-{replica + 1}")

def memoryOf (svc : Service) : Result (Option UInt64) := svc.memory.elim (.ok none) fun m => (parseSize m).map some

/-! ## Roots -/

variable {S : Type} {x : Extern} {ctx : BuildCtx S}

/-- A root spec with the defaults of `Spec::new`, but for what an image sets. -/
structure Plain (name : String) (root : Spec) : Prop where
  schema : root.schema = 1
  name : root.name = name
  idle : root.idleTimeoutSecs = none
  stopTimeout : root.process.stopTimeoutSecs = 10
  limits : root.limits = {}
  mounts : root.mounts = []
  net : root.net = {}
  restart : root.restart = .no
  labels : root.labels = {}
  exitStatus : root.exitStatus = none

theorem plain_new (id : ContainerId) (created : UInt64) (name : String) (root : RootSource) (argv : List String) :
    Plain name (Spec.new id created name root argv) :=
  ⟨rfl, rfl, rfl, rfl, rfl, rfl, rfl, rfl, rfl, rfl⟩

theorem specFromImage_plain {id : ContainerId} {created : UInt64} {img : ImageMeta} {ov : RunOverrides} {spec : Spec}
    (hov : ov.publishExposed = false) (h : specFromImage id created img ov = .ok spec) : Plain "" spec := by
  unfold specFromImage at h
  by_cases hempty : (imageArgv img ov).isEmpty = true
  · rw [if_pos hempty] at h
    cases h
  · rw [if_neg hempty] at h
    simp only [hov, Bool.false_eq_true, if_false] at h
    obtain rfl := Except.ok.inj h
    exact ⟨rfl, rfl, rfl, rfl, rfl, rfl, rfl, rfl, rfl, rfl⟩

theorem imageOverrides_exposed {svc : Service} {tctx : Context} {ov : RunOverrides}
    (h : imageOverrides svc tctx = .ok ov) : ov.publishExposed = false := by
  obtain ⟨command, -, h⟩ := Result.bind_ok h
  split at h
  · cases h
    rfl
  · obtain ⟨entrypoint, -, h⟩ := Result.bind_ok h
    cases h
    rfl

theorem rootSpec_plain {service name : String} {svc : Service} {s s' : S} {root : Spec}
    (h : rootSpec ctx service name svc s = (.ok root, s')) : Plain name root := by
  unfold rootSpec at h
  cases hseries : svc.series with
  | some series =>
    simp only [hseries] at h
    obtain ⟨series, -, h⟩ := Eff.lift_bind_ok h
    obtain ⟨buildId, s₁, -, h⟩ := Eff.bind_ok h
    obtain ⟨argv, -, h⟩ := Eff.lift_bind_ok h
    obtain ⟨id, s₂, -, h⟩ := Eff.bind_ok h
    obtain ⟨created, s₃, -, h⟩ := Eff.bind_ok h
    cases h
    exact plain_new id created name _ argv
  | none =>
    cases himage : svc.image with
    | none =>
      simp only [hseries, himage] at h
      cases h
    | some image =>
      simp only [hseries, himage] at h
      obtain ⟨policy, -, h⟩ := Eff.lift_bind_ok h
      obtain ⟨img, s₁, -, h⟩ := Eff.bind_ok h
      obtain ⟨ov, hov, h⟩ := Eff.lift_bind_ok h
      obtain ⟨id, s₂, -, h⟩ := Eff.bind_ok h
      obtain ⟨created, s₃, -, h⟩ := Eff.bind_ok h
      have himg := (Eff.lift_ok h).1
      unfold imageSpec at himg
      cases hspec : specFromImage id created img ov with
      | error e =>
        rw [hspec] at himg
        cases himg
      | ok spec =>
        rw [hspec] at himg
        cases himg
        have hplain := specFromImage_plain (imageOverrides_exposed hov) hspec
        exact { hplain with name := rfl }

/-! ## Specs -/

/-- What a spec built for a replica says. -/
structure Built (x : Extern) (v : Version S) (service : String) (replica : UInt32) (svc : Service) (spec : Spec) :
    Prop where
  schema : spec.schema = 1
  name : spec.name = s!"{v.file.project}-{service}-{replica + 1}"
  source : v.source service replica svc = .ok (spec.root, spec.imageKind, spec.process.argv)
  persistent : spec.persistent = svc.persistent
  idle : spec.idleTimeoutSecs = none
  env : v.env service replica svc = .ok spec.process.env
  user : v.user service replica svc = .ok spec.process.user
  workdir : v.workdir service replica svc = .ok spec.process.workdir
  stopSignal : v.stopSignal service replica svc = .ok spec.process.stopSignal
  stopTimeout : spec.process.stopTimeoutSecs = svc.stopTimeout.getD 10
  hostname : spec.hostname = hostOf service replica svc
  cpus : spec.limits.cpusMilli = svc.cpus.map x.cpusMilli
  cpuWeight : spec.limits.cpuWeight = none
  memory : memoryOf svc = .ok spec.limits.memory
  swap : spec.limits.swap = none
  pids : spec.limits.pidsMax = 4096
  ulimits : spec.limits.ulimits = svc.ulimits.entries.map fun e => ⟨e.1, e.2, e.2⟩
  mounts : v.mounts service replica svc = .ok spec.mounts
  readOnly : spec.readOnlyRootfs = svc.readOnly
  caps : spec.caps = ⟨svc.capAdd, svc.capDrop⟩
  addr : spec.net.addr = none
  publish : svc.publish.mapM Publish.parse = .ok spec.net.publish
  pingGroup : spec.net.pingGroup = true
  restart : spec.restart = (svc.restart.map parseRestart).getD .no
  healthcheck : v.healthcheck service replica svc = .ok spec.healthcheck
  labels : spec.labels = {
    project := some v.file.project, service := some service, node := svc.node, replica := some replica
    revision := some (revisionOf x { spec with labels := { spec.labels with revision := none } }) }
  exitStatus : spec.exitStatus = none

theorem withLabels_labels {file : ComposeFile} {service : String} {svc : Service} {replica : UInt32} {spec : Spec}
    (h : spec.labels = {}) : (withLabels x file service svc replica spec).labels = {
      project := some file.project, service := some service, node := svc.node, replica := some replica
      revision := some (revisionOf x { spec with labels := {
        project := some file.project, service := some service, node := svc.node, replica := some replica } }) } := by
  unfold withLabels
  rw [h]

theorem buildReplica_built {v : Version S} {service : String} {replica : UInt32} {svc : Service} {spec : Spec} {s' : S}
    (h : buildReplica x v.ctx v.file service svc replica v.start = (.ok spec, s')) :
    Built x v service replica svc spec := by
  obtain ⟨⟨root, processed, limited, mounted, rest, between, hroot, hprocess, hlimits, hmounts, hrest, hspec⟩⟩ :=
    buildReplica_ok h
  obtain ⟨env, stopSignal, henv, hsignal, rfl⟩ := applyProcess_ok hprocess
  obtain ⟨memory, hmemory, rfl⟩ := applyLimits_ok hlimits
  obtain ⟨volumes, tmpfs, configs, hvolumes, htmpfs, hconfigs, rfl⟩ := applyMounts_ok hmounts
  obtain ⟨publish, healthcheck, hpublish, hhealth, hrest⟩ := applyRest_ok hrest
  have hplain := rootSpec_plain hroot
  have hempty : rest.labels = {} := by
    rw [hrest]
    exact hplain.labels
  obtain ⟨labels, hlabels⟩ : ∃ labels, labels = spec.labels := ⟨spec.labels, rfl⟩
  have hfinal : spec = { rest with labels } := by
    rw [hlabels, hspec]
    rfl
  have hset : labels = _ := (hlabels.trans (congrArg Spec.labels hspec)).trans (withLabels_labels hempty)
  replace hroot : v.root service replica svc = (.ok root, between) := hroot
  have hsource : v.source service replica svc = .ok (root.root, root.imageKind, root.process.argv) := by
    rw [Version.source, hroot]
    rfl
  have henv : v.env service replica svc = .ok env := by
    rw [Version.env, hroot]
    exact henv
  have huser : v.user service replica svc = .ok (svc.user.getD root.process.user) := by
    rw [Version.user, hroot]
    rfl
  have hworkdir : v.workdir service replica svc = .ok (svc.workdir.getD root.process.workdir) := by
    rw [Version.workdir, hroot]
    rfl
  have hsignal : v.stopSignal service replica svc = .ok stopSignal := by
    rw [Version.stopSignal, hroot]
    exact hsignal
  have hmemory : memoryOf svc = .ok memory := by
    change svc.memory.elim (Except.ok root.limits.memory) _ = _ at hmemory
    rw [hplain.limits] at hmemory
    exact hmemory
  have hmount : v.mounts service replica svc = .ok (root.mounts ++ volumes ++ tmpfs ++
      (svc.secrets.map fun s => Mount.secret s ("/run/secrets/" ++ s)) ++ configs) := by
    have hconfigs : v.configs service replica svc = .ok configs := by
      rw [Version.configs, hroot, hconfigs]
    rw [Version.mounts, hvolumes, htmpfs, hconfigs, hplain.mounts]
    rfl
  have hpublish : svc.publish.mapM Publish.parse = .ok (root.net.publish ++ publish) := by
    rw [hplain.net, hpublish]
    rfl
  have hhealth : v.healthcheck service replica svc = .ok healthcheck := by
    rw [Version.healthcheck, hroot]
    exact hhealth
  clear hspec hlabels h hprocess hlimits hmounts hroot hconfigs
  subst hfinal
  have hagain : labels = {
      project := some v.file.project, service := some service, node := svc.node, replica := some replica
      revision := some (revisionOf x { rest with labels := { labels with revision := none } }) } := by
    rw [hset]
  clear hset
  subst hrest
  exact {
    schema := hplain.schema
    name := hplain.name
    source := hsource
    persistent := rfl
    idle := hplain.idle
    env := henv
    user := huser
    workdir := hworkdir
    stopSignal := hsignal
    stopTimeout := congrArg svc.stopTimeout.getD hplain.stopTimeout
    hostname := rfl
    cpus := by
      show ((svc.cpus.map x.cpusMilli).orElse fun _ => root.limits.cpusMilli) = _
      rw [hplain.limits]
      cases svc.cpus.map x.cpusMilli with
      | none => rfl
      | some c => rfl
    cpuWeight := congrArg Limits.cpuWeight hplain.limits
    memory := hmemory
    swap := congrArg Limits.swap hplain.limits
    pids := congrArg Limits.pidsMax hplain.limits
    ulimits := by
      show root.limits.ulimits ++ _ = _
      rw [hplain.limits]
      rfl
    mounts := hmount
    readOnly := rfl
    caps := rfl
    addr := congrArg NetSpec.addr hplain.net
    publish := hpublish
    pingGroup := congrArg NetSpec.pingGroup hplain.net
    restart := congrArg (svc.restart.map parseRestart).getD hplain.restart
    healthcheck := hhealth
    labels := hagain
    exitStatus := hplain.exitStatus }

theorem buildSpec_built {v : Version S} {service : String} {replica : UInt32} {svc : Service}
    {spec : Spec} {s' : S}
    (hs : v.file.services.get? service = some svc)
    (h : buildSpec x v.ctx v.file service replica v.start = (.ok spec, s')) : Built x v service replica svc spec := by
  unfold buildSpec at h
  simp only [hs] at h
  by_cases hb : svc.indexBound ≤ replica
  · rw [if_pos hb] at h
    cases h
  · rw [if_neg hb] at h
    exact buildReplica_built h

end Collocate.Compose
