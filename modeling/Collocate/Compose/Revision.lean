import Collocate.Compose.Buildable
import Collocate.Compose.Settings
import Collocate.Compose.Up

/-! # What a revision sees (`collocate-compose/src/build.rs`, `collocate-core/src/spec.rs`)

The revision digests a copy of the spec with the host name blanked, and a mounted config is a path in it. So two
versions of a service have different revisions exactly when one of their other settings differs. -/
namespace Collocate.Compose
set_option autoImplicit false

variable {S : Type} {x : Extern} {v₁ v₂ : Version S} {service : String} {replica : UInt32} {svc₁ svc₂ : Service}
  {spec₁ spec₂ : Spec}

/-! ## Digests -/

/-- The first twelve hexadecimal digits of a digest. -/
def shortHash (x : Extern) (bytes : List UInt8) : String :=
  String.ofList (((x.sha256 bytes).flatMap fun b => Text.hexPad 2 b.toNat).take 12)

theorem revisionOf_eq (x : Extern) (spec : Spec) :
    revisionOf x spec = shortHash x (x.specJson (normalised spec).canonical) := by
  unfold revisionOf Spec.specHashHex shortHash
  rw [String.toList_ofList]

/-- The codec and the truncated digest tell two specs apart. -/
structure Separates (x : Extern) (a b : Spec) : Prop where
  json : x.specJson a = x.specJson b → a = b
  hash : shortHash x (x.specJson a) = shortHash x (x.specJson b) → x.specJson a = x.specJson b

/-- What a revision is a digest of. -/
def hashed (spec : Spec) : Spec := (normalised spec).canonical

/-- The part of a spec that reaches the running container, as far as `build_spec` decides it. -/
def effective (spec : Spec) : Spec :=
  { spec with
    id := 0
    name := ""
    created := 0
    net := { spec.net with addr := none }
    labels := { spec.labels with replica := none, revision := none } }

/-! ## Settings -/

/-- Two versions of a service come to the same settings, but for the host name and what configs contain. -/
structure SameSettings (x : Extern) (v₁ v₂ : Version S) (service : String) (replica : UInt32) (svc₁ svc₂ : Service) :
    Prop where
  project : v₁.file.project = v₂.file.project
  node : svc₁.node = svc₂.node
  source : v₁.source service replica svc₁ = v₂.source service replica svc₂
  persistent : svc₁.persistent = svc₂.persistent
  env : v₁.env service replica svc₁ = v₂.env service replica svc₂
  user : v₁.user service replica svc₁ = v₂.user service replica svc₂
  workdir : v₁.workdir service replica svc₁ = v₂.workdir service replica svc₂
  stopSignal : v₁.stopSignal service replica svc₁ = v₂.stopSignal service replica svc₂
  stopTimeout : svc₁.stopTimeout.getD 10 = svc₂.stopTimeout.getD 10
  cpus : svc₁.cpus.map x.cpusMilli = svc₂.cpus.map x.cpusMilli
  memory : memoryOf svc₁ = memoryOf svc₂
  ulimits : svc₁.ulimits.entries = svc₂.ulimits.entries
  mounts : v₁.mounts service replica svc₁ = v₂.mounts service replica svc₂
  readOnly : svc₁.readOnly = svc₂.readOnly
  capAdd : svc₁.capAdd = svc₂.capAdd
  capDrop : svc₁.capDrop = svc₂.capDrop
  publish : svc₁.publish.mapM Publish.parse = svc₂.publish.mapM Publish.parse
  restart : (svc₁.restart.map parseRestart).getD .no = (svc₂.restart.map parseRestart).getD .no
  healthcheck : v₁.healthcheck service replica svc₁ = v₂.healthcheck service replica svc₂

/-- What the mounted configs of a service contain, by destination. -/
def contents (rendered : String → String) (svc : Service) : List (String × String) :=
  svc.configs.entries.map fun e => (e.2, rendered e.1)

theorem ulimits_inj {l₁ l₂ : List (String × UInt64)}
    (h : (l₁.map fun e => (⟨e.1, e.2, e.2⟩ : Ulimit)) = l₂.map fun e => ⟨e.1, e.2, e.2⟩) : l₁ = l₂ := by
  have hinj : Function.Injective fun e : String × UInt64 => (⟨e.1, e.2, e.2⟩ : Ulimit) := by
    intro a b hab
    obtain ⟨hname, hsoft, -⟩ := Ulimit.mk.inj hab
    exact Prod.ext hname hsoft
  exact hinj.list_map h

theorem hashed_of_same (b₁ : Built x v₁ service replica svc₁ spec₁) (b₂ : Built x v₂ service replica svc₂ spec₂)
    (h : SameSettings x v₁ v₂ service replica svc₁ svc₂) : hashed spec₁ = hashed spec₂ := by
  have hsource := (b₁.source.symm.trans h.source).trans b₂.source
  obtain ⟨hroot, hsource⟩ := Prod.mk.inj (Except.ok.inj hsource)
  obtain ⟨hkind, hargv⟩ := Prod.mk.inj hsource
  have hprocess : spec₁.process = spec₂.process := by
    have heta : ∀ p : Process, p = ⟨p.argv, p.env, p.user, p.workdir, p.stopSignal, p.stopTimeoutSecs⟩ := fun _ => rfl
    rw [heta spec₁.process, heta spec₂.process, hargv,
      Except.ok.inj ((b₁.env.symm.trans h.env).trans b₂.env),
      Except.ok.inj ((b₁.user.symm.trans h.user).trans b₂.user),
      Except.ok.inj ((b₁.workdir.symm.trans h.workdir).trans b₂.workdir),
      Except.ok.inj ((b₁.stopSignal.symm.trans h.stopSignal).trans b₂.stopSignal),
      b₁.stopTimeout, b₂.stopTimeout, h.stopTimeout]
  have hlimits : spec₁.limits = spec₂.limits := by
    have heta : ∀ l : Limits, l = ⟨l.cpusMilli, l.cpuWeight, l.memory, l.swap, l.pidsMax, l.ulimits⟩ := fun _ => rfl
    rw [heta spec₁.limits, heta spec₂.limits, b₁.cpus, b₂.cpus, h.cpus, b₁.cpuWeight, b₂.cpuWeight,
      Except.ok.inj ((b₁.memory.symm.trans h.memory).trans b₂.memory), b₁.swap, b₂.swap, b₁.pids, b₂.pids,
      b₁.ulimits, b₂.ulimits, h.ulimits]
  have hnet : spec₁.net = spec₂.net := by
    have heta : ∀ n : NetSpec, n = ⟨n.addr, n.publish, n.pingGroup⟩ := fun _ => rfl
    rw [heta spec₁.net, heta spec₂.net, b₁.addr, b₂.addr, b₁.pingGroup, b₂.pingGroup,
      Except.ok.inj ((b₁.publish.symm.trans h.publish).trans b₂.publish)]
  have hcaps : spec₁.caps = spec₂.caps := by rw [b₁.caps, b₂.caps, h.capAdd, h.capDrop]
  have hmounts := Except.ok.inj ((b₁.mounts.symm.trans h.mounts).trans b₂.mounts)
  have hhealth := Except.ok.inj ((b₁.healthcheck.symm.trans h.healthcheck).trans b₂.healthcheck)
  have hlabels : (hashed spec₁).labels = (hashed spec₂).labels := by
    show { { spec₁.labels with replica := none } with revision := none } =
      ({ { spec₂.labels with replica := none } with revision := none } : Labels)
    rw [b₁.labels, b₂.labels, h.project, h.node]
  have heta : ∀ s : Spec, hashed s = ⟨s.schema, 0, "", s.root, s.imageKind, s.persistent, s.idleTimeoutSecs,
    s.process, "",
      s.limits, s.mounts, s.readOnlyRootfs, s.caps, s.net, s.restart, s.healthcheck, (hashed s).labels, 0, none⟩ :=
    fun _ => rfl
  rw [heta spec₁, heta spec₂, b₁.schema, b₂.schema, hroot, hkind, b₁.persistent, b₂.persistent, h.persistent, b₁.idle,
    b₂.idle, hprocess, hlimits, hmounts, b₁.readOnly, b₂.readOnly, h.readOnly, hcaps, hnet, b₁.restart, b₂.restart,
    h.restart, hhealth, hlabels]

theorem same_of_hashed (b₁ : Built x v₁ service replica svc₁ spec₁) (b₂ : Built x v₂ service replica svc₂ spec₂)
    (h : hashed spec₁ = hashed spec₂) : SameSettings x v₁ v₂ service replica svc₁ svc₂ := by
  -- `hread` is for the fields that digesting leaves alone.
  have hread : ∀ {α : Type} (f : Spec → α), (∀ s, f (hashed s) = f s) → f spec₁ = f spec₂ := by
    intro α f hf
    rw [← hf spec₁, h, hf]
  have hproject := hread (fun s => s.labels.project) fun _ => rfl
  have hnode := hread (fun s => s.labels.node) fun _ => rfl
  rw [b₁.labels, b₂.labels] at hproject hnode
  have hroot := hread Spec.root fun _ => rfl
  have hkind := hread Spec.imageKind fun _ => rfl
  have hpersistent := hread Spec.persistent fun _ => rfl
  have hprocess := hread Spec.process fun _ => rfl
  have hlimits := hread Spec.limits fun _ => rfl
  have hmounts := hread Spec.mounts fun _ => rfl
  have hreadOnly := hread Spec.readOnlyRootfs fun _ => rfl
  have hcaps := hread Spec.caps fun _ => rfl
  have hnet := hread Spec.net fun _ => rfl
  have hrestart := hread Spec.restart fun _ => rfl
  have hhealth := hread Spec.healthcheck fun _ => rfl
  rw [b₁.caps, b₂.caps] at hcaps
  exact {
    project := Option.some.inj hproject
    node := hnode
    source := by rw [b₁.source, b₂.source, hroot, hkind, hprocess]
    persistent := by rw [← b₁.persistent, ← b₂.persistent, hpersistent]
    env := by rw [b₁.env, b₂.env, hprocess]
    user := by rw [b₁.user, b₂.user, hprocess]
    workdir := by rw [b₁.workdir, b₂.workdir, hprocess]
    stopSignal := by rw [b₁.stopSignal, b₂.stopSignal, hprocess]
    stopTimeout := by rw [← b₁.stopTimeout, ← b₂.stopTimeout, hprocess]
    cpus := by rw [← b₁.cpus, ← b₂.cpus, hlimits]
    memory := by rw [b₁.memory, b₂.memory, hlimits]
    ulimits := ulimits_inj (by rw [← b₁.ulimits, ← b₂.ulimits, hlimits])
    mounts := by rw [b₁.mounts, b₂.mounts, hmounts]
    readOnly := by rw [← b₁.readOnly, ← b₂.readOnly, hreadOnly]
    capAdd := congrArg CapPolicy.add hcaps
    capDrop := congrArg CapPolicy.drop hcaps
    publish := by rw [b₁.publish, b₂.publish, hnet]
    restart := by rw [← b₁.restart, ← b₂.restart, hrestart]
    healthcheck := by rw [b₁.healthcheck, b₂.healthcheck, hhealth] }

/-- A spec is known from what is digested and the host name. -/
theorem effective_eq_iff (b₁ : Built x v₁ service replica svc₁ spec₁) (b₂ : Built x v₂ service replica svc₂ spec₂) :
    effective spec₁ = effective spec₂ ↔ hashed spec₁ = hashed spec₂ ∧ spec₁.hostname = spec₂.hostname := by
  have hback : ∀ s : Spec, hashed (effective s) = { hashed s with net := { s.net with addr := none } } := fun _ => rfl
  have hforth : ∀ s : Spec, s.net.addr = none → s.exitStatus = none →
      effective s = { hashed s with hostname := s.hostname } := by
    intro s haddr hexit
    have hnet : ({ s.net with addr := none } : NetSpec) = s.net := by rw [← haddr]
    unfold effective hashed normalised Spec.canonical
    rw [hnet, hexit]
  constructor
  · intro h
    have hhash : hashed (effective spec₁) = hashed (effective spec₂) := by rw [h]
    have hnet₁ : ({ spec₁.net with addr := none } : NetSpec) = spec₁.net := by rw [← b₁.addr]
    have hnet₂ : ({ spec₂.net with addr := none } : NetSpec) = spec₂.net := by rw [← b₂.addr]
    rw [hback, hback, hnet₁, hnet₂] at hhash
    have hhost : (effective spec₁).hostname = (effective spec₂).hostname := by rw [h]
    exact ⟨hhash, hhost⟩
  · rintro ⟨hhash, hhost⟩
    rw [hforth spec₁ b₁.addr b₁.exitStatus, hforth spec₂ b₂.addr b₂.exitStatus, hhash, hhost]

/-! ## Revisions -/

theorem revision_eq (b : Built x v₁ service replica svc₁ spec₁) :
    spec₁.labels.revision = some (shortHash x (x.specJson (hashed spec₁))) := by
  rw [b.labels]
  show some (revisionOf x _) = _
  rw [revisionOf_eq]
  rfl

/-- Two versions of a service have one revision when their settings are the same. -/
theorem revision_eq_iff (b₁ : Built x v₁ service replica svc₁ spec₁) (b₂ : Built x v₂ service replica svc₂ spec₂)
    (hsep : Separates x (hashed spec₁) (hashed spec₂)) :
    spec₁.labels.revision = spec₂.labels.revision ↔ SameSettings x v₁ v₂ service replica svc₁ svc₂ := by
  rw [revision_eq b₁, revision_eq b₂]
  constructor
  · intro h
    exact same_of_hashed b₁ b₂ (hsep.json (hsep.hash (Option.some.inj h)))
  · intro h
    rw [hashed_of_same b₁ b₂ h]

/-- A change of what the container gets, or of what its configs contain, changes the revision when the host names and
the contents agree, or another setting differs. -/
theorem change_rolled_out_iff {s₁ s₂ : S} (rendered₁ rendered₂ : String → String)
    (hs₁ : v₁.file.services.get? service = some svc₁) (hs₂ : v₂.file.services.get? service = some svc₂)
    (h₁ : buildSpec x v₁.ctx v₁.file service replica v₁.start = (.ok spec₁, s₁))
    (h₂ : buildSpec x v₂.ctx v₂.file service replica v₂.start = (.ok spec₂, s₂))
    (hsep : Separates x (hashed spec₁) (hashed spec₂)) :
    (effective spec₁ ≠ effective spec₂ ∨ contents rendered₁ svc₁ ≠ contents rendered₂ svc₂ →
        spec₁.labels.revision ≠ spec₂.labels.revision) ↔
      hostOf service replica svc₁ = hostOf service replica svc₂ ∧ contents rendered₁ svc₁ = contents rendered₂ svc₂ ∨
        ¬SameSettings x v₁ v₂ service replica svc₁ svc₂ := by
  have b₁ := buildSpec_built hs₁ h₁
  have b₂ := buildSpec_built hs₂ h₂
  have heffective : effective spec₁ = effective spec₂ ↔
      SameSettings x v₁ v₂ service replica svc₁ svc₂ ∧ hostOf service replica svc₁ = hostOf service replica svc₂ := by
    rw [effective_eq_iff b₁ b₂, b₁.hostname, b₂.hostname]
    exact and_congr_left' ⟨same_of_hashed b₁ b₂, hashed_of_same b₁ b₂⟩
  rw [ne_eq, ne_eq, ne_eq, revision_eq_iff b₁ b₂ hsep, heffective]
  by_cases hsame : SameSettings x v₁ v₂ service replica svc₁ svc₂
  · simp only [hsame, true_and, not_true_eq_false, or_false, imp_false, not_or, not_not]
  · exact ⟨fun _ => Or.inr hsame, fun _ _ => hsame⟩

/-! ## Changes that are not seen -/

/-- A service that runs `command` under a host name of its own. -/
def namedService (host command : String) : Service :=
  { series := some "noble", hostname := some host, command := [command] }

def namedFile (host command : String) : ComposeFile where
  project := "p"
  services := OrdMap.empty.insert "web" (namedService host command)

def namedVersion (host command : String) : Version Unit := ⟨namedFile host command, anyCtx, ()⟩

/-- The spec of a run that built one. -/
def specOr (default : Spec) (r : Result Spec) : Spec := r.toOption.getD default

def namedSpec (host command : String) : Spec :=
  specOr (Spec.new 0 0 "" (.oci "" []) []) (buildSpec argvExtern anyCtx (namedFile host command) "web" 0 ()).1

theorem command_change_rolled_out :
    (effective (namedSpec "a" "serve") ≠ effective (namedSpec "a" "listen") ∨
        contents id (namedService "a" "serve") ≠ contents id (namedService "a" "listen") →
      (namedSpec "a" "serve").labels.revision ≠ (namedSpec "a" "listen").labels.revision) ↔
    hostOf "web" 0 (namedService "a" "serve") = hostOf "web" 0 (namedService "a" "listen") ∧
        contents id (namedService "a" "serve") = contents id (namedService "a" "listen") ∨
      ¬SameSettings argvExtern (namedVersion "a" "serve") (namedVersion "a" "listen") "web" 0 (namedService "a" "serve")
        (namedService "a" "listen") := by
  have h₁ : buildSpec argvExtern anyCtx (namedFile "a" "serve") "web" 0 () = (.ok (namedSpec "a" "serve"), ()) := by
    decide +kernel
  have h₂ : buildSpec argvExtern anyCtx (namedFile "a" "listen") "web" 0 () = (.ok (namedSpec "a" "listen"), ()) := by
    decide +kernel
  exact change_rolled_out_iff id id (by decide +kernel) (by decide +kernel) h₁ h₂
    ⟨by decide +kernel, by decide +kernel⟩

/-- Reads a template from the first part of the state, and keeps rendered configs in the second. -/
def templateHost : Host (String × List String) where
  call req p := match req with
    | .configPut _ name content => (.ok (.text ("/var/lib/collocate/configs/p/" ++ name)), p.1, p.2 ++ [content])
    | _ => (.ok .ok, p)
  readToString _ p := (.ok p.1, p)
  newId := pure 0
  now := pure 0

def configFile : ComposeFile where
  project := "p"
  services := OrdMap.empty.insert "web"
    { series := some "noble", command := ["serve"], configs := OrdMap.empty.insert "app" "/etc/app.conf" }
  configs := OrdMap.empty.insert "app" ⟨"app.conf"⟩

def emptyState : BuildState where
  order := ["web"]
  ipam := Ipam.new ⟨0x0a000000, 24⟩
  secrets := fun _ => none
  addresses := fun _ => none
  lbVips := fun _ => none
  forced := []
  images := fun _ => none

/-- A build of the one service of `configFile` with a text of its template. -/
def builtWith (text : String) : Result Spec × List String :=
  let r := buildSpec argvExtern (emptyState.ctx argvExtern templateHost configFile ⟨"10.0.0.0/24", "", none, false⟩)
    configFile "web" 0 ((text, []), fun _ => none)
  (r.1, r.2.1.2)

/-- A new host name and a new text of a config leave the revision as it was. -/
theorem unseen_changes :
    (effective (namedSpec "a" "serve") ≠ effective (namedSpec "b" "serve") ∧
      (namedSpec "a" "serve").labels.revision = (namedSpec "b" "serve").labels.revision ∧
      (namedFile "a" "serve").validate = .ok () ∧ (namedFile "b" "serve").validate = .ok () ∧
      (buildSpec argvExtern anyCtx (namedFile "a" "serve") "web" 0 ()).1 = .ok (namedSpec "a" "serve") ∧
      (buildSpec argvExtern anyCtx (namedFile "b" "serve") "web" 0 ()).1 = .ok (namedSpec "b" "serve") ∧
      Separates argvExtern (hashed (namedSpec "a" "serve")) (hashed (namedSpec "b" "serve"))) ∧
    (configFile.validate = .ok () ∧ (builtWith "old").1.isOk = true ∧ (builtWith "old").1 = (builtWith "new").1 ∧
      (builtWith "old").2 = ["old"] ∧ (builtWith "new").2 = ["new"]) :=
  ⟨⟨by decide +kernel, by decide +kernel, by decide +kernel, by decide +kernel, by decide +kernel, by decide +kernel,
      ⟨by decide +kernel, by decide +kernel⟩⟩,
    by decide +kernel, by decide +kernel, by decide +kernel, by decide +kernel, by decide +kernel⟩

end Collocate.Compose
