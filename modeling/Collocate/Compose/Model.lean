import Collocate.Core.Policy
import Collocate.Core.Spec
import Collocate.Image.Config
import Collocate.Compose.Plan
import Collocate.Compose.Template

/-! # Compose files (`collocate-compose/src/model.rs`)

The parsed file and `ComposeFile::validate`. The YAML text is gone by the time these records exist;
field defaults are those of the deserialiser. -/
namespace Collocate.Compose
set_option autoImplicit false

def supportedVersion : UInt32 := 1

structure NodeDef where
  image : Option String := none
  cpus : Option F64 := none
  memory : Option String := none
  target : Option String := none
  deriving DecidableEq, Repr

structure SecretDef where
  generate : Option String := none
  length : Option ℕ := none
  file : Option String := none
  perNode : Bool := false
  deriving DecidableEq, Repr

structure ConfigDef where
  template : String
  deriving DecidableEq, Repr

structure RegistryDef where
  username : String
  password : String
  deriving DecidableEq, Repr

structure HttpCheck where
  port : UInt16
  path : String := "/"
  deriving DecidableEq, Repr

structure HealthDef where
  tcp : Option UInt16 := none
  http : Option HttpCheck := none
  exec : Option (List String) := none
  pebble : Option String := none
  interval : String := "30s"
  timeout : String := "5s"
  retries : UInt32 := 3
  startPeriod : String := "0s"
  deriving DecidableEq, Repr

structure Dependency where
  service : String
  healthcheck : List String := []
  deriving DecidableEq, Repr

structure Service where
  node : Option String := none
  image : Option String := none
  pullPolicy : Option String := none
  series : Option String := none
  persistent : Bool := false
  cpus : Option F64 := none
  memory : Option String := none
  volume : Option String := none
  volumes : List String := []
  publish : List String := []
  command : List String := []
  entrypoint : List String := []
  env : OrdMap String String := OrdMap.empty
  secrets : List String := []
  configs : OrdMap String String := OrdMap.empty
  dependsOn : List Dependency := []
  replicas : UInt32 := 1
  healthcheck : Option HealthDef := none
  autoscale : Option Autoscale := none
  update : Option UpdatePolicy := none
  restart : Option String := none
  tmpfs : List String := []
  stopSignal : Option String := none
  stopTimeout : Option UInt64 := none
  ulimits : OrdMap String UInt64 := OrdMap.empty
  capAdd : List String := []
  capDrop : List String := []
  readOnly : Bool := false
  user : Option String := none
  workdir : Option String := none
  hostname : Option String := none
  deriving DecidableEq

namespace Service

def maxReplicas (s : Service) : UInt32 :=
  match s.autoscale with
  | none => s.replicas
  | some a => max a.max s.replicas

/-- `self.update.unwrap_or_default()`. -/
def updatePolicy (s : Service) : UpdatePolicy := s.update.getD {}

/-- The sum wraps, as in a release build. -/
def indexBound (s : Service) : UInt32 := s.maxReplicas + s.updatePolicy.maxSurge

end Service

structure BackendRef where
  service : String
  port : UInt16
  deriving DecidableEq, Repr

inductive LbType
  | l4
  | http
  deriving DecidableEq, Repr

structure LbDef where
  kind : LbType := .l4
  listen : UInt16
  publish : List String := []
  backends : BackendRef
  algorithm : Algorithm := .roundRobin
  health : Option String := none
  drainSecs : UInt64 := 30
  onNoBackends : Option String := none
  deriving DecidableEq, Repr

structure ComposeFile where
  version : UInt32 := 1
  project : String
  nodes : OrdMap String NodeDef := OrdMap.empty
  services : OrdMap String Service := OrdMap.empty
  secrets : OrdMap String SecretDef := OrdMap.empty
  configs : OrdMap String ConfigDef := OrdMap.empty
  registries : OrdMap String RegistryDef := OrdMap.empty
  loadbalancers : OrdMap String LbDef := OrdMap.empty
  deriving DecidableEq

/-! ## Validation -/

def invalid {α : Type} (msg : String) : Result α := .error (.invalidSpec msg)

/-- The check of an optional field. -/
def ifSome {α : Type} (field : Option α) (check : α → Result Unit) : Result Unit :=
  match field with
  | some a => check a
  | none => pure ()

/-- The host ports claimed so far, each with its node and protocol. -/
abbrev Published := List (Option String × UInt16 × String)

instance Published.lawfulBEq : LawfulBEq (Option String × UInt16 × String) := inferInstance

namespace ComposeFile

def dependencyGraph (f : ComposeFile) : Graph := f.services.mapValues fun _ s => s.dependsOn.map (·.service)

def checkRef (f : ComposeFile) (owner : String) : Reference → Result Unit
  | .secret n => if f.secrets.contains n then .ok () else invalid s!"{owner} references undeclared secret {n}"
  | .serviceAddress n | .serviceAddresses n =>
    if f.services.contains n then .ok () else invalid s!"{owner} references unknown service {n}"
  | .lbAddress n =>
    if f.loadbalancers.contains n then .ok () else invalid s!"{owner} references unknown load balancer {n}"

def checkRefs (f : ComposeFile) (owner text : String) : Result Unit := do
  let refs ← references text
  refs.forM (f.checkRef owner)

/-- Claims the host port of every mapping, for one node. -/
def claimPorts (node : Option String) (published : Published) (maps : List String) : Result Published :=
  maps.foldlM (fun published text => do
    let p ← Publish.parse text
    let key := (node, p.host, p.proto.display)
    if key ∈ published then invalid s!"host port {p.host} is published twice"
    else pure (key :: published)) published

def checkRoot (name : String) (s : Service) : Result Unit := do
  if s.image.isSome = s.series.isSome then invalid s!"service {name} needs exactly one of series or image"
  ifSome s.series fun series => do
    let _ ← Series.parse series
  ifSome s.pullPolicy fun p => do
    if s.image.isNone then invalid s!"service {name}: pull_policy only applies to image services"
    let _ ← PullPolicy.parse p
  if s.replicas = 0 then invalid s!"service {name}: replicas must be at least 1"

def checkLinks (f : ComposeFile) (name : String) (s : Service) : Result Unit := do
  ifSome s.node fun n =>
    if !f.nodes.isEmpty && !f.nodes.contains n then invalid s!"service {name} uses unknown node {n}" else pure ()
  s.dependsOn.forM fun d =>
    if f.services.contains d.service then .ok ()
    else invalid s!"service {name} depends on unknown service {d.service}"
  s.secrets.forM fun sec =>
    if f.secrets.contains sec then .ok () else invalid s!"service {name} uses undeclared secret {sec}"
  s.configs.keys.forM fun cfg =>
    if f.configs.contains cfg then .ok () else invalid s!"service {name} uses undeclared config {cfg}"
  (s.env.values ++ s.command ++ s.entrypoint).forM (f.checkRefs s!"service {name}")

def checkHealth (name : String) (s : Service) (h : HealthDef) : Result Unit := do
  [h.interval, h.timeout, h.startPeriod].forM fun d => do
    let _ ← parseDurationSecs d
  if ([h.tcp.isSome, h.http.isSome, h.exec.isSome, h.pebble.isSome].filter id).length ≠ 1 then
    invalid s!"service {name}: healthcheck needs exactly one of tcp, http, exec or pebble"
  ifSome h.pebble fun level => do
    if !(level == "alive" || level == "ready" || level == "any") then
      invalid s!"service {name}: pebble healthcheck level must be alive, ready or any"
    if s.image.isNone then invalid s!"service {name}: pebble healthchecks need an image service"

def restartOk (r : String) : Bool :=
  r == "no" || r == "always" || r == "on-failure" ||
    ((Text.stripPrefix "on-failure:" r).bind Text.parseU32).isSome

def checkAutoscale (name : String) (s : Service) (a : Autoscale) : Result Unit := do
  if s.persistent then invalid s!"service {name}: autoscale is not allowed on persistent services"
  if a.metrics.isEmpty then invalid s!"service {name}: autoscale needs metrics"
  if a.min = 0 ∨ a.max < a.min then invalid s!"service {name}: autoscale min must be within 1..=max"
  if s.memory.isNone then invalid s!"service {name}: autoscale requires a memory limit"

/-- One turn of the loop over the services, with the ports claimed so far. -/
def checkService (f : ComposeFile) (published : Published) (name : String) (s : Service) : Result Published := do
  checkRoot name s
  f.checkLinks name s
  ifSome s.memory fun m => do
    let _ ← parseSize m
  let published ← claimPorts s.node published s.publish
  ifSome s.healthcheck (checkHealth name s)
  ifSome s.restart fun r =>
    if !restartOk r then invalid s!"service {name}: invalid restart policy {r}" else pure ()
  ifSome s.autoscale (checkAutoscale name s)
  pure published

def checkLb (f : ComposeFile) (seen : Published × List UInt16) (name : String) (lb : LbDef) :
    Result (Published × List UInt16) := do
  if !f.services.contains lb.backends.service then
    invalid s!"load balancer {name} targets unknown service {lb.backends.service}"
  if lb.listen ∈ seen.2 then invalid s!"duplicate listen port {lb.listen} across load balancers"
  let published ← claimPorts none seen.1 lb.publish
  pure (published, lb.listen :: seen.2)

def validate (f : ComposeFile) : Result Unit := do
  if f.version ≠ supportedVersion then invalid s!"unsupported version {f.version}"
  let published ← f.services.entries.foldlM (fun published e => f.checkService published e.1 e.2) []
  let _ ← f.loadbalancers.entries.foldlM (fun seen e => f.checkLb seen e.1 e.2) (published, [])
  f.registries.entries.forM fun e => do
    f.checkRefs s!"registry {e.1}" e.2.username
    f.checkRefs s!"registry {e.1}" e.2.password
  let _ ← topoOrder f.dependencyGraph

/-! ## What validation promises -/

theorem invalid_bind {α β : Type} (text : String) (f : α → Result β) :
    (invalid text : Result α) >>= f = .error (.invalidSpec text) := rfl

theorem checkAutoscale_bounds {name : String} {s : Service} {a : Autoscale} (h : checkAutoscale name s a = .ok ()) :
    a.min ≠ 0 ∧ a.min ≤ a.max := by
  by_contra hbad
  rw [← UInt32.not_lt, ← not_or, not_not] at hbad
  simp only [checkAutoscale, invalid_bind, if_pos hbad] at h
  split at h
  · cases h
  · split at h <;> cases h

theorem checkRoot_replicas {name : String} {s : Service} (h : checkRoot name s = .ok ()) : s.replicas ≠ 0 := by
  intro h0
  simp only [checkRoot, invalid_bind, if_pos h0] at h
  split at h
  · cases h
  · obtain ⟨_, -, h⟩ := Result.bind_ok h
    obtain ⟨_, -, h⟩ := Result.bind_ok h
    cases h

theorem forM_ok {α : Type} {f : α → Result Unit} {l : List α} (h : l.forM f = .ok ()) : ∀ a ∈ l, f a = .ok () := by
  induction l with
  | nil => exact fun a ha => absurd ha List.not_mem_nil
  | cons first l ih =>
    obtain ⟨_, hfirst, h⟩ := Result.bind_ok h
    intro a ha
    cases ha with
    | head => exact hfirst
    | tail _ hmem => exact ih h a hmem

theorem ifSome_ok {α : Type} {field : Option α} {check : α → Result Unit} (h : ifSome field check = .ok ()) :
    ∀ a, field = some a → check a = .ok () := by
  rintro a rfl
  exact h

/-- What a check of a service finds in order. -/
structure ServiceChecked (f : ComposeFile) (name : String) (s : Service) : Prop where
  oneRoot : s.image.isSome ≠ s.series.isSome
  series : ∀ t, s.series = some t → ∃ v, Series.parse t = .ok v
  pullPolicy : ∀ p, s.pullPolicy = some p → ∃ v, PullPolicy.parse p = .ok v
  replicas : s.replicas ≠ 0
  secrets : ∀ sec ∈ s.secrets, f.secrets.contains sec = true
  configs : ∀ cfg ∈ s.configs.keys, f.configs.contains cfg = true
  texts : ∀ t ∈ s.env.values ++ s.command ++ s.entrypoint, f.checkRefs s!"service {name}" t = .ok ()
  memory : ∀ m, s.memory = some m → ∃ v, parseSize m = .ok v
  publish : ∃ before after, claimPorts s.node before s.publish = .ok after
  durations : ∀ h, s.healthcheck = some h → ∀ d ∈ [h.interval, h.timeout, h.startPeriod], ∃ v,
    parseDurationSecs d = .ok v
  autoscale : ∀ a, s.autoscale = some a → a.min ≠ 0 ∧ a.min ≤ a.max

theorem checkRoot_ok {name : String} {s : Service} (h : checkRoot name s = .ok ()) :
    s.image.isSome ≠ s.series.isSome ∧ (∀ t, s.series = some t → ∃ v, Series.parse t = .ok v) ∧
      ∀ p, s.pullPolicy = some p → ∃ v, PullPolicy.parse p = .ok v := by
  simp only [checkRoot, invalid_bind] at h
  split at h
  · cases h
  · rename_i hroot
    obtain ⟨_, hseries, h⟩ := Result.bind_ok h
    obtain ⟨_, hpolicy, -⟩ := Result.bind_ok h
    refine ⟨hroot, ?_, ?_⟩
    · intro t ht
      obtain ⟨v, hv, -⟩ := Result.bind_ok (ifSome_ok hseries t ht)
      exact ⟨v, hv⟩
    · intro p hp
      have hcheck := ifSome_ok hpolicy p hp
      split at hcheck
      · cases hcheck
      · obtain ⟨v, hv, -⟩ := Result.bind_ok hcheck
        exact ⟨v, hv⟩

theorem checkLinks_ok {f : ComposeFile} {name : String} {s : Service} (h : f.checkLinks name s = .ok ()) :
    (∀ sec ∈ s.secrets, f.secrets.contains sec = true) ∧ (∀ cfg ∈ s.configs.keys, f.configs.contains cfg = true) ∧
      ∀ t ∈ s.env.values ++ s.command ++ s.entrypoint, f.checkRefs s!"service {name}" t = .ok () := by
  obtain ⟨_, -, h⟩ := Result.bind_ok h
  obtain ⟨_, -, h⟩ := Result.bind_ok h
  obtain ⟨_, hsecrets, h⟩ := Result.bind_ok h
  obtain ⟨_, hconfigs, h⟩ := Result.bind_ok h
  refine ⟨?_, ?_, forM_ok h⟩
  · intro sec hsec
    have hcheck := forM_ok hsecrets sec hsec
    by_contra hno
    rw [if_neg hno] at hcheck
    cases hcheck
  · intro cfg hcfg
    have hcheck := forM_ok hconfigs cfg hcfg
    by_contra hno
    rw [if_neg hno] at hcheck
    cases hcheck

theorem checkHealth_ok {name : String} {s : Service} {d : HealthDef} (h : checkHealth name s d = .ok ()) :
    ∀ t ∈ [d.interval, d.timeout, d.startPeriod], ∃ v, parseDurationSecs t = .ok v := by
  obtain ⟨_, hdurations, -⟩ := Result.bind_ok h
  intro t ht
  obtain ⟨v, hv, -⟩ := Result.bind_ok (forM_ok hdurations t ht)
  exact ⟨v, hv⟩

/-- Every service of a valid file has been checked. -/
theorem validate_checked {f : ComposeFile} (h : f.validate = .ok ()) {name : String} {s : Service}
    (hs : f.services.get? name = some s) : ServiceChecked f name s := by
  simp only [validate, invalid_bind] at h
  split at h
  · cases h
  obtain ⟨published, hp, -⟩ := Result.bind_ok h
  obtain ⟨c, c', hc⟩ := Result.foldlM_ok hp _ (OrdMap.get?_eq_some.mp hs)
  obtain ⟨_, hroot, hc⟩ := Result.bind_ok hc
  obtain ⟨_, hlinks, hc⟩ := Result.bind_ok hc
  obtain ⟨_, hmemory, hc⟩ := Result.bind_ok hc
  obtain ⟨after, hpublish, hc⟩ := Result.bind_ok hc
  obtain ⟨_, hhealth, hc⟩ := Result.bind_ok hc
  obtain ⟨_, -, hc⟩ := Result.bind_ok hc
  obtain ⟨_, hscale, -⟩ := Result.bind_ok hc
  obtain ⟨honeRoot, hseries, hpolicy⟩ := checkRoot_ok hroot
  obtain ⟨hsecrets, hconfigs, htexts⟩ := checkLinks_ok hlinks
  exact {
    oneRoot := honeRoot
    series := hseries
    pullPolicy := hpolicy
    replicas := checkRoot_replicas hroot
    secrets := hsecrets
    configs := hconfigs
    texts := htexts
    memory := fun m hm => by
      obtain ⟨v, hv, -⟩ := Result.bind_ok (ifSome_ok hmemory m hm)
      exact ⟨v, hv⟩
    publish := ⟨_, after, hpublish⟩
    durations := fun d hd => checkHealth_ok (ifSome_ok hhealth d hd)
    autoscale := fun a ha => checkAutoscale_bounds (ifSome_ok hscale a ha) }

/-- A service of a valid file has replicas, and its autoscaler a range to choose from. -/
theorem validate_service {f : ComposeFile} (h : f.validate = .ok ()) {name : String} {s : Service}
    (hs : f.services.get? name = some s) :
    s.replicas ≠ 0 ∧ ∀ a, s.autoscale = some a → a.min ≠ 0 ∧ a.min ≤ a.max :=
  ⟨(validate_checked h hs).replicas, (validate_checked h hs).autoscale⟩

end ComposeFile
end Collocate.Compose
