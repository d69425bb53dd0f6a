import Collocate.Net.Ipam
import Collocate.Registry.Reference
import Collocate.Compose.Build

/-! # The build state (`collocate-compose/src/up.rs`)

`BuildState::new` and `BuildState::spec`: what `up` and the controller share. They take the host as
an argument, as the source takes `&mut dyn Api`. Maps that are only looked up are functions. -/
namespace Collocate.Compose
set_option autoImplicit false

structure UpOptions where
  subnet : String
  baseDir : String
  regenerateSecrets : Option (List String) := none
  dryRun : Bool := false
  deriving DecidableEq, Repr

/-- `PathBuf::join`. -/
def joinPath (base p : String) : String :=
  if Text.startsWith p "/" then p
  else if base.isEmpty || base.toList.getLast? = some '/' then base ++ p
  else base ++ "/" ++ p

/-- `replica_index`: the number at the end of the name, less one. -/
def replicaIndex (project service name : String) : Option UInt32 :=
  ((Text.stripPrefix s!"{project}-{service}-" name).bind Text.parseU32).bind fun n =>
    if n = 0 then none else some (n - 1)

def registryCredentials (registries : OrdMap String RegistryDef) (tctx : Context) : List RegistryCredential :=
  registries.entries.filterMap fun (host, reg) =>
    match resolve reg.username tctx, resolve reg.password tctx with
    | .ok username, .ok password => some { registry := host, username, password }
    | _, _ => none

structure BuildState where
  order : List String
  ipam : Ipam
  secrets : String → Option String
  addresses : String → Option (List Ipv4Addr)
  lbVips : String → Option Ipv4Addr
  forced : List String
  images : String → Option ImageMeta

section Host
variable {S : Type} (x : Extern) (h : Host S)

def unexpected {α : Type} (r : Response) : Prog S α :=
  Eff.throw (.internal ("unexpected response " ++ x.debugResponse r))

def containers (project : String) : Prog S (List ContainerInfo) := do
  match ← h.call (.ps true (some project)) with
  | .containers c => pure c
  | other => unexpected x other

def pullImage (image : String) (policy : PullPolicy) (credentials : List RegistryCredential) :
    Prog S ImageMeta :=
  match Registry.Reference.parse image with
  | .error e => Eff.throw (.invalid s!"image {image}: {e}")
  | .ok _ => do
    match ← h.call (.imagePull image policy.label credentials) with
    | .json value => Eff.lift (x.decodeMeta value)
    | other => unexpected x other

/-! ## Secrets -/

def secretValueFromFile (name : String) (sec : SecretDef) (opts : UpOptions) : Prog S String := do
  match sec.file with
  | none => Eff.throw (.invalidSpec s!"secret {name} has neither generate nor file")
  | some path =>
    let text ← h.readToString (joinPath opts.baseDir path)
    pure (Text.trimEndMatches (fun c => c == '\n' || c == '\r') text)

/-- The value the daemon has for a secret, if any. -/
def currentSecret (project name : String) : Prog S (Option String) := do
  match ← Eff.attempt (h.call (.secretReveal project name)) with
  | .ok (.text text) => pure (some text)
  | .ok _ | .error (.notFound _) => pure none
  | .error e => Eff.throw e

def removeSecret (project name : String) : Prog S Unit := do
  match ← Eff.attempt (h.call (.secretRemove project name)) with
  | .ok _ | .error (.notFound _) => pure ()
  | .error e => Eff.throw e

/-- Generates a secret the daemon does not have, or sets it to the content of its file. -/
def provideSecret (project name : String) (sec : SecretDef) (opts : UpOptions) : Prog S Unit := do
  match sec.generate with
  | some gen => let _ ← h.call (.secretEnsure project name gen (sec.length.getD 24))
  | none =>
    let wanted ← secretValueFromFile h name sec opts
    let current ← currentSecret h project name
    if current ≠ some wanted then
      let _ ← h.call (.secretSet project name wanted)

def regenerated (file : ComposeFile) (opts : UpOptions) : List String :=
  match opts.regenerateSecrets with
  | none => []
  | some [] => (file.secrets.entries.filter fun e => e.2.generate.isSome).map Prod.fst
  | some list => file.secrets.keys.filter (· ∈ list)

def ensureSecret (file : ComposeFile) (opts : UpOptions) (name : String) (sec : SecretDef) :
    Prog S (String × String) := do
  if name ∈ regenerated file opts then removeSecret h file.project name
  provideSecret h file.project name sec opts
  match ← h.call (.secretReveal file.project name) with
  | .text text => pure (name, text)
  | other => unexpected x other

def ensureSecrets (file : ComposeFile) (opts : UpOptions) : Prog S (List (String × String)) :=
  if opts.dryRun then
    Eff.collect (fun name => do
      let value ← currentSecret h file.project name
      pure (name, value.getD "<secret>")) file.secrets.keys
  else Eff.collect (fun e => ensureSecret x h file opts e.1 e.2) file.secrets.entries

def serviceReferencesSecret (svc : Service) (secret : String) : Bool :=
  decide (secret ∈ svc.secrets) ||
    (svc.env.values ++ svc.command ++ svc.entrypoint).any fun t =>
      match references t with
      | .ok refs => decide (Reference.secret secret ∈ refs)
      | .error _ => false

/-- The services a rotation of secrets makes `up` recreate. -/
def forcedServices (file : ComposeFile) (opts : UpOptions) : List String :=
  match opts.regenerateSecrets with
  | none => []
  | some list =>
    let chosen := file.secrets.entries.filter fun e => list.isEmpty && e.2.generate.isSome || decide (e.1 ∈ list)
    (file.services.entries.filter fun e => chosen.any fun c => serviceReferencesSecret e.2 c.1).map Prod.fst

/-! ## Building -/

/-- Reserves the addresses that listed containers hold; what cannot be reserved is skipped. -/
def reserveExisting (project : String) (ipam : Ipam) (existing : List ContainerInfo) : Ipam :=
  existing.foldl (fun ipam c =>
    match c.address, c.service with
    | some addr, some svc =>
      match replicaIndex project svc c.name with
      | some idx => match ipam.reserve addr s!"{project}/{svc}/{idx}" with
        | .ok ipam' => ipam'
        | .error _ => ipam
      | none => ipam
    | _, _ => ipam) ipam

/-- The addresses of the first `n` replicas of a service, from index `i` on. -/
def serviceAddresses (project svc : String) : ℕ → UInt32 → Ipam → Result (List Ipv4Addr × Ipam)
  | 0, _, ipam => .ok ([], ipam)
  | n + 1, i, ipam => do
    let (a, ipam) ← ipam.forService x.sha256 project svc i
    let (rest, ipam) ← serviceAddresses project svc n (i + 1) ipam
    .ok (a :: rest, ipam)

def allAddresses (file : ComposeFile) : List String → Ipam → Result (List (String × List Ipv4Addr) × Ipam)
  | [], ipam => .ok ([], ipam)
  | svc :: rest, ipam => do
    let replicas := ((file.services.get? svc).map (·.replicas)).getD 0
    let (list, ipam) ← serviceAddresses x file.project svc replicas.toNat 0 ipam
    let (others, ipam) ← allAddresses file rest ipam
    .ok ((svc, list) :: others, ipam)

def allVips (project : String) : List String → Ipam → Result (List (String × Ipv4Addr) × Ipam)
  | [], ipam => .ok ([], ipam)
  | name :: rest, ipam => do
    let (a, ipam) ← ipam.vip x.sha256 project name
    let (others, ipam) ← allVips project rest ipam
    .ok ((name, a) :: others, ipam)

/-- A list of pairs as a map. -/
def assoc {V : Type} (l : List (String × V)) (k : String) : Option V := OrdMap.lookup k l

def BuildState.new (file : ComposeFile) (opts : UpOptions) : Prog S BuildState := do
  let order ← Eff.lift (topoOrder file.dependencyGraph)
  let existing ← containers x h file.project
  let subnet ← Eff.lift (Subnet.parse opts.subnet)
  let ipam := reserveExisting file.project (Ipam.new subnet) existing
  let secrets ← ensureSecrets x h file opts
  let (addresses, ipam) ← Eff.lift (allAddresses x file order ipam)
  let (vips, ipam) ← Eff.lift (allVips x file.project file.loadbalancers.keys ipam)
  pure {
    order
    ipam
    secrets := assoc secrets
    addresses := assoc (addresses.filter fun e => !e.2.isEmpty)
    lbVips := assoc vips
    forced := forcedServices file opts
    images := fun _ => none }

abbrev Images := String → Option ImageMeta

def BuildState.templates (st : BuildState) : Context := ⟨st.secrets, st.addresses, st.lbVips⟩

/-- The image callback: an image resolved before is not pulled again. -/
def resolveImage (st : BuildState) (file : ComposeFile) (opts : UpOptions) (image : String)
    (policy : PullPolicy) : Prog (S × Images) ImageMeta := do
  let (_, images) ← Eff.get
  match images image with
  | some img => pure img
  | none =>
    let policy := if opts.dryRun then .never else policy
    let img ← pullImage x (h.zoom Prod.fst fun s p => (s, p.2)) image policy
      (registryCredentials file.registries st.templates)
    Eff.modify fun p => (p.1, Function.update p.2 image (some img))
    pure img

/-- The config callback: renders the template and hands it to the daemon. -/
def configPath (st : BuildState) (file : ComposeFile) (opts : UpOptions) (name : String) :
    Prog (S × Images) String := do
  let h' := h.zoom Prod.fst fun s (p : S × Images) => (s, p.2)
  match file.configs.get? name with
  | none => Eff.throw (.notFound s!"config {name}")
  | some cfg =>
    let text ← h'.readToString (joinPath opts.baseDir cfg.template)
    let rendered ← Eff.lift (resolve text st.templates)
    if opts.dryRun then pure s!"configs/{file.project}/{name}"
    else match ← h'.call (.configPut file.project name rendered) with
      | .text text => pure text
      | other => unexpected x other

def BuildState.ctx (st : BuildState) (file : ComposeFile) (opts : UpOptions) : BuildCtx (S × Images) where
  templates := st.templates
  baseBuild _ := pure "latest"
  oci := resolveImage x h st file opts
  configPath := configPath x h st file opts
  newId := (h.zoom Prod.fst fun s p => (s, p.2)).newId
  now := (h.zoom Prod.fst fun s p => (s, p.2)).now

def BuildState.spec (st : BuildState) (file : ComposeFile) (opts : UpOptions) (service : String)
    (idx : UInt32) : Prog S (Spec × BuildState) := do
  let (spec, images) ← Eff.withLocal st.images (buildSpec x (st.ctx x h file opts) file service idx)
  let (addr, ipam) ← Eff.lift (st.ipam.forService x.sha256 file.project service idx)
  pure ({ spec with net := { spec.net with addr := some addr } }, { st with images, ipam })

end Host

/-! ## What building leaves alone

`BuildState::new` and `BuildState::spec` only make quiet requests. -/

section Keeps
variable {S : Type} {x : Extern} {h : Host S} {I : S → Prop}

theorem unexpected_keeps {α : Type} (r : Response) : Eff.Keeps I (unexpected x r : Prog S α) := Eff.Keeps.throw _

theorem containers_keeps (hh : h.KeepsOn Request.Listing I) (project : String) :
    Eff.Keeps I (containers x h project) := by
  refine Eff.Keeps.bind (hh.call _ trivial) fun r => ?_
  split
  · exact Eff.Keeps.pure _
  · exact unexpected_keeps _

theorem pullImage_keeps (hh : h.KeepsOn Request.Fetching I) (image : String) (policy : PullPolicy)
    (credentials : List RegistryCredential) : Eff.Keeps I (pullImage x h image policy credentials) := by
  unfold pullImage
  split
  · exact Eff.Keeps.throw _
  · refine Eff.Keeps.bind (hh.call _ trivial) fun r => ?_
    split
    · exact Eff.Keeps.lift _
    · exact unexpected_keeps _

theorem secretValueFromFile_keeps {kind : Request → Prop} (hh : h.KeepsOn kind I) (name : String) (sec : SecretDef)
    (opts : UpOptions) : Eff.Keeps I (secretValueFromFile h name sec opts) := by
  unfold secretValueFromFile
  split
  · exact Eff.Keeps.throw _
  · exact Eff.Keeps.bind (hh.readToString _) fun _ => Eff.Keeps.pure _

theorem currentSecret_keeps {project name : String} (hh : h.KeepsOn (Request.Providing project name) I) :
    Eff.Keeps I (currentSecret h project name) := by
  refine Eff.Keeps.bind (Eff.Keeps.attempt (hh.call _ ⟨rfl, rfl⟩)) fun r => ?_
  split
  · exact Eff.Keeps.pure _
  · exact Eff.Keeps.pure _
  · exact Eff.Keeps.pure _
  · exact Eff.Keeps.throw _

theorem removeSecret_keeps {project name : String} (hh : h.KeepsOn (Request.Providing project name) I) :
    Eff.Keeps I (removeSecret h project name) := by
  refine Eff.Keeps.bind (Eff.Keeps.attempt (hh.call _ ⟨rfl, rfl⟩)) fun r => ?_
  split
  · exact Eff.Keeps.pure _
  · exact Eff.Keeps.pure _
  · exact Eff.Keeps.throw _

theorem provideSecret_keeps {project name : String} (hh : h.KeepsOn (Request.Providing project name) I)
    (sec : SecretDef) (opts : UpOptions) : Eff.Keeps I (provideSecret h project name sec opts) := by
  unfold provideSecret
  split
  · exact Eff.Keeps.bind (hh.call _ ⟨rfl, rfl⟩) fun _ => Eff.Keeps.pure _
  · refine Eff.Keeps.bind (secretValueFromFile_keeps hh _ _ _) fun wanted => ?_
    refine Eff.Keeps.bind (currentSecret_keeps hh) fun current => ?_
    split
    · exact Eff.Keeps.bind (hh.call _ ⟨rfl, rfl⟩) fun _ => Eff.Keeps.pure _
    · exact Eff.Keeps.pure _

theorem ensureSecrets_keeps (hh : h.KeepsOn Request.Building I) (file : ComposeFile) (opts : UpOptions) :
    Eff.Keeps I (ensureSecrets x h file opts) := by
  have habout : ∀ name, h.KeepsOn (Request.Providing file.project name) I := fun name => hh.mono fun _ hr => hr.building
  unfold ensureSecrets
  split
  · refine Eff.Keeps.collect _ fun name _ => ?_
    exact Eff.Keeps.bind (currentSecret_keeps (habout name)) fun _ => Eff.Keeps.pure _
  · refine Eff.Keeps.collect _ fun e _ => ?_
    unfold ensureSecret
    have hrest : Eff.Keeps I (do
        provideSecret h file.project e.1 e.2 opts
        match ← h.call (.secretReveal file.project e.1) with
        | .text text => pure (e.1, text)
        | other => unexpected x other) := by
      refine Eff.Keeps.bind (provideSecret_keeps (habout e.1) _ _) fun _ => ?_
      refine Eff.Keeps.bind (hh.call _ trivial) fun r => ?_
      split
      · exact Eff.Keeps.pure _
      · exact unexpected_keeps _
    split
    · exact Eff.Keeps.bind (removeSecret_keeps (habout e.1)) fun _ => hrest
    · exact hrest

theorem BuildState.new_keeps (hh : h.KeepsOn Request.Building I) (file : ComposeFile) (opts : UpOptions) :
    Eff.Keeps I (BuildState.new x h file opts) := by
  refine Eff.Keeps.bind (Eff.Keeps.lift _) fun order => ?_
  have hlist : h.KeepsOn Request.Listing I := hh.mono fun _ hr => hr.fetching.building
  refine Eff.Keeps.bind (containers_keeps hlist _) fun existing => ?_
  refine Eff.Keeps.bind (Eff.Keeps.lift _) fun subnet => ?_
  refine Eff.Keeps.bind (ensureSecrets_keeps hh _ _) fun secrets => ?_
  refine Eff.Keeps.bind (Eff.Keeps.lift _) fun addresses => ?_
  refine Eff.Keeps.bind (Eff.Keeps.lift _) fun vips => ?_
  exact Eff.Keeps.pure _

theorem resolveImage_keeps (hh : h.KeepsOn Request.Fetching I) (st : BuildState) (file : ComposeFile) (opts : UpOptions)
    (image : String) (policy : PullPolicy) :
    Eff.Keeps (fun p => I p.1) (resolveImage x h st file opts image policy) := by
  refine Eff.Keeps.bind Eff.Keeps.get fun p => ?_
  obtain ⟨s, images⟩ := p
  dsimp only
  split
  · exact Eff.Keeps.pure _
  · refine Eff.Keeps.bind (pullImage_keeps hh.fst _ _ _) fun img => ?_
    exact Eff.Keeps.bind (Eff.Keeps.modify fun _ hs => hs) fun _ => Eff.Keeps.pure _

theorem configPath_keeps (hh : h.KeepsOn Request.Fetching I) (st : BuildState) (file : ComposeFile) (opts : UpOptions)
    (name : String) : Eff.Keeps (fun p => I p.1) (configPath x h st file opts name) := by
  unfold configPath
  split
  · exact Eff.Keeps.throw _
  · refine Eff.Keeps.bind (hh.fst.readToString _) fun text => ?_
    refine Eff.Keeps.bind (Eff.Keeps.lift _) fun rendered => ?_
    split
    · exact Eff.Keeps.pure _
    · refine Eff.Keeps.bind (hh.fst.call _ trivial) fun r => ?_
      split
      · exact Eff.Keeps.pure _
      · exact unexpected_keeps _

theorem BuildState.spec_keeps (hh : h.KeepsOn Request.Fetching I) (st : BuildState) (file : ComposeFile)
    (opts : UpOptions) (service : String) (idx : UInt32) : Eff.Keeps I (st.spec x h file opts service idx) := by
  have hb : Eff.Keeps (fun p => I p.1) (buildSpec x (st.ctx x h file opts) file service idx) :=
    buildSpec_keeps
      { baseBuild := fun _ => Eff.Keeps.pure _
        oci := resolveImage_keeps hh st file opts
        configPath := configPath_keeps hh st file opts
        newId := hh.fst.newId
        now := hh.fst.now } file service idx
  refine Eff.Keeps.bind (Eff.Keeps.withLocal hb) fun p => ?_
  exact Eff.Keeps.bind (Eff.Keeps.lift _) fun q => Eff.Keeps.pure _

end Keeps

/-! ## What a built spec carries -/

theorem BuildState.spec_service {S : Type} {x : Extern} {h : Host S} {st st' : BuildState} {file : ComposeFile}
    {opts : UpOptions} {service : String} {idx : UInt32} {s s' : S} {spec : Spec}
    (hs : st.spec x h file opts service idx s = (.ok (spec, st'), s')) :
    spec.labels.service = some service := by
  obtain ⟨⟨spec', images⟩, s₁, hb, hs⟩ := Eff.bind_ok hs
  obtain ⟨⟨addr, ipam⟩, s₂, -, hs⟩ := Eff.bind_ok hs
  have hl := buildSpec_service (Eff.withLocal_ok hb)
  cases hs
  exact hl

theorem BuildState.spec_name {S : Type} {x : Extern} {h : Host S} {st st' : BuildState} {file : ComposeFile}
    {opts : UpOptions} {service : String} {idx : UInt32} {s s' : S} {spec : Spec}
    (hs : st.spec x h file opts service idx s = (.ok (spec, st'), s')) :
    spec.name = s!"{file.project}-{service}-{idx + 1}" := by
  obtain ⟨⟨spec', images⟩, s₁, hb, hs⟩ := Eff.bind_ok hs
  obtain ⟨⟨addr, ipam⟩, s₂, -, hs⟩ := Eff.bind_ok hs
  have hn := buildSpec_name (Eff.withLocal_ok hb)
  cases hs
  exact hn

/-- The values between the steps of `BuildState::new`. -/
structure NewSteps {S : Type} (x : Extern) (h : Host S) (file : ComposeFile) (opts : UpOptions) (s s' : S)
    (st : BuildState) where
  order : List String
  existing : List ContainerInfo
  between : S
  subnet : Subnet
  secrets : List (String × String)
  addresses : List (String × List Ipv4Addr)
  addressed : Ipam
  vips : List (String × Ipv4Addr)
  ipam : Ipam
  htopo : topoOrder file.dependencyGraph = .ok order
  hlist : containers x h file.project s = (.ok existing, between)
  hsubnet : Subnet.parse opts.subnet = .ok subnet
  hsecrets : ensureSecrets x h file opts between = (.ok secrets, s')
  haddresses : allAddresses x file order (reserveExisting file.project (Ipam.new subnet) existing) =
    .ok (addresses, addressed)
  hvips : allVips x file.project file.loadbalancers.keys addressed = .ok (vips, ipam)
  hst : st = {
    order
    ipam
    secrets := assoc secrets
    addresses := assoc (addresses.filter fun e => !e.2.isEmpty)
    lbVips := assoc vips
    forced := forcedServices file opts
    images := fun _ => none }

section New
variable {S : Type} {x : Extern} {h : Host S} {file : ComposeFile} {opts : UpOptions} {s s' : S} {st : BuildState}

theorem BuildState.new_ok (hs : BuildState.new x h file opts s = (.ok st, s')) :
    Nonempty (NewSteps x h file opts s s' st) := by
  obtain ⟨order, htopo, hs⟩ := Eff.lift_bind_ok hs
  obtain ⟨existing, between, hlist, hs⟩ := Eff.bind_ok hs
  obtain ⟨subnet, hsubnet, hs⟩ := Eff.lift_bind_ok hs
  obtain ⟨secrets, s₁, hsecrets, hs⟩ := Eff.bind_ok hs
  obtain ⟨⟨addresses, addressed⟩, haddresses, hs⟩ := Eff.lift_bind_ok hs
  obtain ⟨⟨vips, ipam⟩, hvips, hs⟩ := Eff.lift_bind_ok hs
  cases hs
  exact ⟨⟨order, existing, between, subnet, secrets, addresses, addressed, vips, ipam, htopo, hlist, hsubnet, hsecrets,
    haddresses, hvips, rfl⟩⟩

theorem BuildState.new_topo (hs : BuildState.new x h file opts s = (.ok st, s')) :
    topoOrder file.dependencyGraph = .ok st.order := by
  obtain ⟨steps⟩ := BuildState.new_ok hs
  rw [steps.hst]
  exact steps.htopo

end New
end Collocate.Compose
