import Collocate.Compose.Validity
import Collocate.Cluster.Provision

/-! # Splitting a file over the nodes (`collocate-cluster/src/plan.rs`, `collocate/src/commands.rs`)

Each node gets a file of its own, with the services that are placed on it, and `up` runs on each. Before, every node
that is named must be there, and no service may refer to the address of a service on another node. -/
namespace Collocate.Cluster
open Compose
set_option autoImplicit false

/-! ## Placement -/

/-- The node that a service is placed on: the one it names, or the first. -/
def home (f : ComposeFile) (s : Service) : Option String := s.node.or f.nodes.keys.head?

def nodeOf (f : ComposeFile) (service : String) : Option String := (f.services.get? service).bind (home f)

/-- The texts in which validation looks for references. -/
def texts (s : Service) : List String := s.env.values ++ s.command ++ s.entrypoint

/-- `references(text).unwrap_or_default()`. -/
def referencesOr (text : String) : List Reference :=
  match references text with
  | .ok refs => refs
  | .error _ => []

/-- The complaint about a reference of a service. -/
def crossing (f : ComposeFile) (name : String) (r : Reference) : Option String :=
  match r with
  | .serviceAddress other | .serviceAddresses other =>
    let a := (nodeOf f name).getD ""
    let b := (nodeOf f other).getD ""
    if f.services.contains other && nodeOf f other != nodeOf f name then
      some s!"service {name} on {a} references {other} on {b}"
    else none
  | _ => none

def crossNodeReferences (f : ComposeFile) : List String :=
  if f.nodes.entries.length < 2 then []
  else sortedSet (f.services.entries.flatMap fun e =>
    (texts e.2).flatMap fun text => (referencesOr text).filterMap (crossing f e.1))

/-! ## Checks -/

/-- Without nodes of its own, a file is for those of the registry. -/
def withNodes (registry : OrdMap String NodeRecord) (f : ComposeFile) : Result ComposeFile :=
  if f.nodes.isEmpty then
    if registry.isEmpty then
      .error (.invalid
        "the compose file declares no nodes and the cluster registry is empty; run 'collocate init --mode lxd' first")
    else .ok { f with nodes := registry.mapValues fun _ _ => {} }
  else .ok f

def checkPlaced (f : ComposeFile) (e : String × Service) : Result Unit :=
  match e.2.node with
  | none => .ok ()
  | some n =>
    if f.nodes.contains n then .ok ()
    else .error (.invalid s!"service {e.1} uses node {n}, which is neither declared in the file nor registered")

/-- The file that is split, once it has passed the checks. -/
def clusterFile (registry : OrdMap String NodeRecord) (f : ComposeFile) : Result ComposeFile := do
  let f ← withNodes registry f
  f.services.entries.forM (checkPlaced f)
  let cross := crossNodeReferences f
  if !cross.isEmpty then
    .error (.invalid ("cross-node address references need a routable cluster network and are not supported yet: " ++
      Text.joinWith "; " cross))
  else pure f

/-! ## The files of the nodes -/

/-- A service, in the file of its node: dependencies on other nodes are dropped. -/
def settled (f : ComposeFile) (node : String) (s : Service) : Service :=
  { s with
    node := none
    dependsOn := s.dependsOn.filter fun d => f.services.contains d.service && nodeOf f d.service == some node }

def subFile (f : ComposeFile) (node : String) : ComposeFile :=
  let services := (f.services.retain fun name _ => nodeOf f name == some node).mapValues fun _ s => settled f node s
  { f with
    nodes := .empty
    services
    loadbalancers := f.loadbalancers.retain fun _ lb => services.contains lb.backends.service }

/-- The nodes that have services, each with its file. -/
def split (f : ComposeFile) : List (String × ComposeFile) :=
  (f.nodes.keys.map fun node => (node, subFile f node)).filter fun part => !part.2.services.isEmpty

/-! ## What a node has -/

section Sub
variable {f : ComposeFile} {node : String}

theorem get?_subServices (name : String) : (subFile f node).services.get? name =
    ((f.services.get? name).filter fun _ => nodeOf f name == some node).map (settled f node) := by
  show ((f.services.retain _).mapValues _).get? name = _
  rw [OrdMap.get?_mapValues, OrdMap.get?_retain]

theorem nodeOf_isSome {name : String} (h : nodeOf f name = some node) : f.services.contains name = true := by
  unfold nodeOf at h
  obtain ⟨s, hs, -⟩ := Option.bind_eq_some_iff.mp h
  unfold OrdMap.contains
  rw [hs]
  rfl

/-- A node has the services that are placed on it. -/
theorem subServices_contains {name : String} :
    (subFile f node).services.contains name = true ↔ nodeOf f name = some node := by
  constructor
  · intro h
    unfold OrdMap.contains at h
    rw [get?_subServices, Option.isSome_map] at h
    obtain ⟨s, hs⟩ := Option.isSome_iff_exists.mp h
    simpa using (Option.filter_eq_some_iff.mp hs).2
  · intro h
    obtain ⟨s, hs⟩ := Option.isSome_iff_exists.mp (nodeOf_isSome h)
    have hkept : (subFile f node).services.get? name = some (settled f node s) := by
      rw [get?_subServices]
      show ((f.services.get? name).filter _).map _ = _
      have hs : f.services.get? name = some s := hs
      rw [hs, Option.filter_some, if_pos (by simpa using h)]
      rfl
    unfold OrdMap.contains
    rw [hkept]
    rfl

theorem get?_subLbs (name : String) : (subFile f node).loadbalancers.get? name =
    (f.loadbalancers.get? name).filter fun lb => (subFile f node).services.contains lb.backends.service :=
  OrdMap.get?_retain _ _ _

theorem subLbs_contains {name : String} : (subFile f node).loadbalancers.contains name = true ↔
    ∃ lb, f.loadbalancers.get? name = some lb ∧ nodeOf f lb.backends.service = some node := by
  unfold OrdMap.contains
  rw [get?_subLbs, Option.isSome_iff_exists]
  refine exists_congr fun lb => ?_
  rw [Option.filter_eq_some_iff, subServices_contains]

/-- What a reference names is on the node. -/
def Here (f : ComposeFile) (node : String) : Reference → Prop
  | .secret _ => True
  | .serviceAddress n | .serviceAddresses n => nodeOf f n = some node
  | .lbAddress n => ∃ lb, f.loadbalancers.get? n = some lb ∧ nodeOf f lb.backends.service = some node

theorem subFile_declares {r : Reference} (h : f.Declares r) : (subFile f node).Declares r ↔ Here f node r := by
  cases r with
  | secret n => exact iff_of_true h trivial
  | serviceAddress n => exact subServices_contains
  | serviceAddresses n => exact subServices_contains
  | lbAddress n => exact subLbs_contains

theorem subFile_linked {text : String} (h : f.Linked text) :
    (subFile f node).Linked text ↔ ∀ r ∈ referencesOr text, Here f node r := by
  obtain ⟨refs, hrefs, hdeclared⟩ := h
  have hor : referencesOr text = refs := by
    unfold referencesOr
    rw [hrefs]
  unfold ComposeFile.Linked
  rw [hrefs, hor]
  simp only [Except.ok.injEq, exists_eq_left']
  exact forall₂_congr fun r hr => subFile_declares (hdeclared r hr)

/-- The host ports that are published on a node. -/
def portsOn (f : ComposeFile) (node : String) : Published :=
  ((f.services.entries.filter fun e => nodeOf f e.1 == some node).flatMap fun e =>
    e.2.publish.flatMap (ComposeFile.portKeys none)) ++
  (f.loadbalancers.entries.filter fun e => nodeOf f e.2.backends.service == some node).flatMap ComposeFile.lbPorts

theorem subFile_claimed : (subFile f node).claimed = portsOn f node := by
  have hservices : (subFile f node).services.entries =
      (f.services.entries.filter fun e => nodeOf f e.1 == some node).map fun e => (e.1, settled f node e.2) := rfl
  have hlbs : (subFile f node).loadbalancers.entries =
      f.loadbalancers.entries.filter fun e => nodeOf f e.2.backends.service == some node := by
    refine List.filter_congr fun e _ => ?_
    rw [Bool.eq_iff_iff, beq_iff_eq]
    exact subServices_contains
  unfold ComposeFile.claimed portsOn
  rw [hservices, hlbs, List.flatMap_map]
  rfl

/-- The whole file has passed the checks. -/
structure Placed (f : ComposeFile) : Prop where
  valid : f.Valid
  nodes : f.nodes.entries ≠ []
  declared : ∀ name s, f.services.get? name = some s → ∀ n, s.node = some n → f.nodes.contains n = true
  cross : crossNodeReferences f = []

theorem Placed.nodeOf (hf : Placed f) {name : String} (h : f.services.contains name = true) :
    ∃ node, nodeOf f name = some node ∧ node ∈ f.nodes.keys := by
  obtain ⟨s, hs⟩ := Option.isSome_iff_exists.mp h
  have hs : f.services.get? name = some s := hs
  have hhome : Cluster.nodeOf f name = home f s := by
    unfold Cluster.nodeOf
    rw [hs]
    rfl
  rw [hhome]
  unfold home
  cases hnode : s.node with
  | some n => exact ⟨n, rfl, OrdMap.mem_keys.mpr (Option.isSome_iff_exists.mp (hf.declared name s hs n hnode))⟩
  | none =>
    cases hentries : f.nodes.entries with
    | nil => exact absurd hentries hf.nodes
    | cons e rest =>
      have hkeys : f.nodes.keys = e.1 :: rest.map Prod.fst := by
        unfold OrdMap.keys
        rw [hentries]
        rfl
      rw [hkeys]
      exact ⟨e.1, rfl, List.mem_cons_self ..⟩

/-- References to services stay on the node. -/
theorem Placed.near (hf : Placed f) {name other : String} {s : Service} (hs : f.services.get? name = some s)
    {text : String} (htext : text ∈ texts s) (hother : f.services.contains other = true)
    (hr : Reference.serviceAddress other ∈ referencesOr text ∨ Reference.serviceAddresses other ∈ referencesOr text) :
    Cluster.nodeOf f other = Cluster.nodeOf f name := by
  have hname : f.services.contains name = true := by
    unfold OrdMap.contains
    rw [hs]
    rfl
  by_cases hfew : f.nodes.entries.length < 2
  · obtain ⟨n, hn, hmem⟩ := hf.nodeOf hother
    obtain ⟨n', hn', hmem'⟩ := hf.nodeOf hname
    rw [hn, hn']
    have hlength : f.nodes.keys.length < 2 := by
      unfold OrdMap.keys
      rw [List.length_map]
      exact hfew
    match hkeys : f.nodes.keys with
    | [] =>
      rw [hkeys] at hmem
      cases hmem
    | [k] =>
      rw [hkeys, List.mem_singleton] at hmem hmem'
      rw [hmem, hmem']
    | k :: k' :: rest =>
      rw [hkeys, List.length_cons, List.length_cons] at hlength
      omega
  · have hempty := hf.cross
    unfold crossNodeReferences at hempty
    rw [if_neg hfew] at hempty
    by_contra hne
    have hcrossing : ∀ r, (r = .serviceAddress other ∨ r = .serviceAddresses other) → r ∈ referencesOr text →
      False := by
      intro r hr hin
      have hsome : ∃ complaint, crossing f name r = some complaint := by
        obtain rfl | rfl := hr
        · exact ⟨_, if_pos (by simp [hother, hne])⟩
        · exact ⟨_, if_pos (by simp [hother, hne])⟩
      obtain ⟨complaint, hcomplaint⟩ := hsome
      have hmem : complaint ∈ f.services.entries.flatMap fun e =>
          (texts e.2).flatMap fun text => (referencesOr text).filterMap (crossing f e.1) := by
        rw [List.mem_flatMap]
        refine ⟨(name, s), OrdMap.get?_eq_some.mp hs, ?_⟩
        rw [List.mem_flatMap]
        exact ⟨text, htext, List.mem_filterMap.mpr ⟨r, hin, hcomplaint⟩⟩
      rw [← mem_sortedSet, hempty] at hmem
      cases hmem
    cases hr with
    | inl hin => exact hcrossing _ (Or.inl rfl) hin
    | inr hin => exact hcrossing _ (Or.inr rfl) hin

/-- What the checks leave to ask: references to load balancers stay on the node, those of the registries are of what
every node with services has, and no host port is published twice on a node. -/
structure Splittable (f : ComposeFile) : Prop where
  loadbalancers : ∀ name s node, f.services.get? name = some s → nodeOf f name = some node → ∀ text ∈ texts s, ∀ n,
    Reference.lbAddress n ∈ referencesOr text → Here f node (.lbAddress n)
  registries : ∀ name node, nodeOf f name = some node → ∀ host reg, f.registries.get? host = some reg →
    ∀ r ∈ referencesOr reg.username ++ referencesOr reg.password, Here f node r
  ports : ∀ name node, nodeOf f name = some node → (portsOn f node).Nodup

theorem mem_split {part : String × ComposeFile} : part ∈ split f ↔
    part.1 ∈ f.nodes.keys ∧ part.2 = subFile f part.1 ∧ ∃ name, nodeOf f name = some part.1 := by
  have hsome : ∀ node, (!(subFile f node).services.isEmpty) = true ↔ ∃ name, nodeOf f name = some node := by
    intro node
    constructor
    · intro h
      unfold OrdMap.isEmpty at h
      cases hentries : (subFile f node).services.entries with
      | nil =>
        rw [hentries] at h
        cases h
      | cons e rest =>
        have hget : (subFile f node).services.get? e.1 = some e.2 :=
          OrdMap.get?_eq_some.mpr (hentries ▸ List.mem_cons_self ..)
        exact ⟨e.1, subServices_contains.mp (Option.isSome_iff_exists.mpr ⟨e.2, hget⟩)⟩
    · intro h
      obtain ⟨name, hname⟩ := h
      obtain ⟨s, hs⟩ := Option.isSome_iff_exists.mp (subServices_contains.mpr hname)
      have hmem := OrdMap.get?_eq_some.mp hs
      unfold OrdMap.isEmpty
      cases hentries : (subFile f node).services.entries with
      | nil =>
        rw [hentries] at hmem
        cases hmem
      | cons e rest => rfl
  unfold split
  rw [List.mem_filter, List.mem_map]
  constructor
  · intro h
    obtain ⟨⟨node, hnode, rfl⟩, hne⟩ := h
    exact ⟨hnode, rfl, (hsome node).mp hne⟩
  · intro h
    obtain ⟨node, sub⟩ := part
    obtain ⟨hnode, hsub, hname⟩ := h
    obtain rfl : sub = subFile f node := hsub
    exact ⟨⟨node, hnode, rfl⟩, (hsome node).mpr hname⟩

theorem split_nodup : ((split f).map Prod.fst).Nodup := by
  have hkeys : ((f.nodes.keys.map fun node => (node, subFile f node)).map Prod.fst).Nodup := by
    rw [List.map_map]
    exact (List.map_id f.nodes.keys).symm ▸ f.nodes.keys_nodup
  exact hkeys.sublist (List.filter_sublist.map _)

/-- The part of a node that a service is placed on. -/
theorem Placed.part (hf : Placed f) {name : String} (h : f.services.contains name = true) :
    ∃ node, Cluster.nodeOf f name = some node ∧ (node, subFile f node) ∈ split f := by
  obtain ⟨node, hnode, hmem⟩ := hf.nodeOf h
  exact ⟨node, hnode, mem_split.mpr ⟨hmem, rfl, name, hnode⟩⟩

theorem parts_eq {part : String × ComposeFile} (h : part ∈ split f) (hnode : part.1 = node) :
    part = (node, subFile f node) := by
  obtain ⟨-, hsub, -⟩ := mem_split.mp h
  rw [← hnode, ← hsub]

/-- The checks say that the file is placed. -/
theorem clusterFile_placed {registry : OrdMap String NodeRecord} {f₀ : ComposeFile} (hvalid : f₀.validate = .ok ())
    (h : clusterFile registry f₀ = .ok f) : Placed f := by
  have hvalid := ComposeFile.validate_ok_iff.mp hvalid
  obtain ⟨f₁, hnodes, h⟩ := Result.bind_ok h
  rw [ComposeFile.bind_unit_ok_iff, ComposeFile.forM_ok_iff] at h
  obtain ⟨hchecked, h⟩ := h
  obtain ⟨hcross, rfl⟩ : crossNodeReferences f₁ = [] ∧ f₁ = f := by
    dsimp only at h
    cases hcross : crossNodeReferences f₁ with
    | nil =>
      rw [hcross] at h
      exact ⟨rfl, Except.ok.inj h⟩
    | cons complaint rest =>
      rw [hcross] at h
      cases h
  have hdeclared : ∀ name s, f₁.services.get? name = some s → ∀ n, s.node = some n → f₁.nodes.contains n = true := by
    intro name s hs n hn
    have hcheck := hchecked (name, s) (OrdMap.get?_eq_some.mp hs)
    unfold checkPlaced at hcheck
    rw [hn] at hcheck
    by_contra hno
    simp [hno] at hcheck
  unfold withNodes at hnodes
  cases hempty : f₀.nodes.isEmpty with
  | false =>
    rw [hempty] at hnodes
    obtain rfl := Except.ok.inj hnodes
    refine ⟨hvalid, ?_, hdeclared, hcross⟩
    intro hnil
    unfold OrdMap.isEmpty at hempty
    rw [hnil] at hempty
    cases hempty
  | true =>
    cases hregistry : registry.isEmpty with
    | true =>
      rw [hempty, hregistry] at hnodes
      cases hnodes
    | false =>
      rw [hempty, hregistry] at hnodes
      obtain rfl := Except.ok.inj hnodes
      refine ⟨⟨hvalid.version, ?_, hvalid.loadbalancers, hvalid.listens, hvalid.ports, hvalid.registries, hvalid.order⟩,
        ?_, hdeclared, hcross⟩
      · intro e he
        have hp := hvalid.services e he
        obtain ⟨-, hlinks⟩ := ComposeFile.checkLinks_ok_iff.mp hp.links
        refine ⟨hp.root, ComposeFile.checkLinks_ok_iff.mpr ⟨?_, hlinks⟩, hp.memory, hp.publish, hp.health, hp.restart,
          hp.autoscale⟩
        exact fun n hn => Or.inr (hdeclared e.1 e.2 (OrdMap.get?_eq_some.mpr he) n hn)
      · intro hnil
        have hnil : registry.entries = [] := List.map_eq_nil_iff.mp hnil
        unfold OrdMap.isEmpty at hregistry
        rw [hnil] at hregistry
        cases hregistry

/-! ## Sub-files that validate -/

/-- What a text of a service refers to is on the node of the service, if this holds of the load balancers. -/
theorem Placed.linked (hf : Placed f) {name : String} {s : Service} (hs : f.services.get? name = some s)
    (hnode : Cluster.nodeOf f name = some node) {text : String} (htext : text ∈ texts s) (h : f.Linked text) :
    (subFile f node).Linked text ↔ ∀ n, Reference.lbAddress n ∈ referencesOr text → Here f node (.lbAddress n) := by
  rw [subFile_linked h]
  refine ⟨fun hall n hn => hall _ hn, fun hlbs r hr => ?_⟩
  obtain ⟨refs, hrefs, hdeclared⟩ := h
  have hor : referencesOr text = refs := by
    unfold referencesOr
    rw [hrefs]
  cases r with
  | secret n => trivial
  | serviceAddress n =>
    exact (hf.near hs htext (hdeclared (.serviceAddress n) (hor ▸ hr)) (Or.inl hr)).trans hnode
  | serviceAddresses n =>
    exact (hf.near hs htext (hdeclared (.serviceAddresses n) (hor ▸ hr)) (Or.inr hr)).trans hnode
  | lbAddress n => exact hlbs n hr

/-- The service passes in the file of its node, if the load balancers that it refers to are there. -/
theorem Placed.passes (hf : Placed f) {name : String} {s : Service} (hs : f.services.get? name = some s)
    (hnode : Cluster.nodeOf f name = some node) : (subFile f node).Passes name (settled f node s) ↔
      ∀ text ∈ texts s, ∀ n, Reference.lbAddress n ∈ referencesOr text → Here f node (.lbAddress n) := by
  have hp := hf.valid.services (name, s) (OrdMap.get?_eq_some.mp hs)
  obtain ⟨-, hdeps, hsecrets, hconfigs, htexts⟩ := ComposeFile.checkLinks_ok_iff.mp hp.links
  have hlinks : (subFile f node).checkLinks name (settled f node s) = .ok () ↔ ∀ text ∈ texts s,
    (subFile f node).Linked text := by
    rw [ComposeFile.checkLinks_ok_iff]
    refine ⟨fun h => h.2.2.2.2, fun h => ⟨nofun, ?_, hsecrets, hconfigs, h⟩⟩
    intro d hd
    have hkept := (List.mem_filter.mp hd).2
    rw [Bool.and_eq_true, beq_iff_eq] at hkept
    exact subServices_contains.mpr hkept.2
  have hboth : (subFile f node).Passes name (settled f node s) ↔ ∀ text ∈ texts s, (subFile f node).Linked text := by
    rw [← hlinks]
    exact ⟨fun h => h.links, fun h => ⟨hp.root, h, hp.memory, hp.publish, hp.health, hp.restart, hp.autoscale⟩⟩
  rw [hboth]
  exact forall₂_congr fun text htext => hf.linked hs hnode htext (htexts text htext)

theorem subFile_order (hf : Placed f) : ∃ order, topoOrder (subFile f node).dependencyGraph = .ok order := by
  obtain ⟨-, rank, hranks⟩ := topoOrder_ok_iff.mp hf.valid.order
  have hget : ∀ svc ds, (subFile f node).dependencyGraph.get? svc = some ds → ∃ s, f.services.get? svc = some s ∧
      ds = (settled f node s).dependsOn.map fun d => d.service := by
    intro svc ds hds
    unfold ComposeFile.dependencyGraph at hds
    rw [OrdMap.get?_mapValues, get?_subServices, Option.map_map] at hds
    obtain ⟨s, hs, rfl⟩ := Option.map_eq_some_iff.mp hds
    exact ⟨s, (Option.filter_eq_some_iff.mp hs).1, rfl⟩
  have hmem : ∀ {s : Service} {d : String}, d ∈ (settled f node s).dependsOn.map (fun d => d.service) →
      d ∈ s.dependsOn.map (fun d => d.service) ∧ nodeOf f d = some node := by
    intro s d hd
    obtain ⟨dep, hdep, rfl⟩ := List.mem_map.mp hd
    obtain ⟨hin, hkept⟩ := List.mem_filter.mp hdep
    rw [Bool.and_eq_true, beq_iff_eq] at hkept
    exact ⟨List.mem_map.mpr ⟨dep, hin, rfl⟩, hkept.2⟩
  refine topoOrder_ok_iff.mpr ⟨?_, rank, ?_⟩
  · intro svc ds hds d hd
    obtain ⟨s, -, rfl⟩ := hget svc ds hds
    have hkept := subServices_contains.mpr (hmem hd).2
    unfold OrdMap.contains ComposeFile.dependencyGraph at *
    rw [OrdMap.get?_mapValues, Option.isSome_map]
    exact hkept
  · intro svc ds hds d hd
    obtain ⟨s, hs, rfl⟩ := hget svc ds hds
    refine hranks svc (s.dependsOn.map fun d => d.service) ?_ d (hmem hd).1
    unfold ComposeFile.dependencyGraph
    rw [OrdMap.get?_mapValues, hs]
    rfl

/-- When the file of a node is accepted. -/
theorem Placed.subFile_valid (hf : Placed f) : (subFile f node).Valid ↔
    (∀ name s, f.services.get? name = some s → Cluster.nodeOf f name = some node → ∀ text ∈ texts s, ∀ n,
      Reference.lbAddress n ∈ referencesOr text → Here f node (.lbAddress n)) ∧
    (∀ host reg, f.registries.get? host = some reg →
      ∀ r ∈ referencesOr reg.username ++ referencesOr reg.password, Here f node r) ∧
    (portsOn f node).Nodup := by
  have hkept : ∀ {name : String} {s : Service}, f.services.get? name = some s → Cluster.nodeOf f name = some node →
      (subFile f node).services.get? name = some (settled f node s) := by
    intro name s hs hnode
    rw [get?_subServices, hs, Option.filter_some, if_pos (by simpa using hnode)]
    rfl
  have hregistry : ∀ {host : String} {reg : RegistryDef}, f.registries.get? host = some reg →
      ((subFile f node).Linked reg.username ∧ (subFile f node).Linked reg.password ↔
        ∀ r ∈ referencesOr reg.username ++ referencesOr reg.password, Here f node r) := by
    intro host reg hreg
    obtain ⟨husername, hpassword⟩ := hf.valid.registries (host, reg) (OrdMap.get?_eq_some.mp hreg)
    rw [subFile_linked husername, subFile_linked hpassword]
    exact List.forall_mem_append.symm
  constructor
  · intro h
    refine ⟨?_, ?_, ?_⟩
    · intro name s hs hnode
      exact (hf.passes hs hnode).mp (h.services (name, settled f node s) (OrdMap.get?_eq_some.mp (hkept hs hnode)))
    · intro host reg hreg
      exact (hregistry hreg).mp (h.registries (host, reg) (OrdMap.get?_eq_some.mp hreg))
    · exact subFile_claimed (f := f) ▸ h.ports
  · intro h
    obtain ⟨hlbs, hregistries, hports⟩ := h
    refine ⟨hf.valid.version, ?_, ?_, ?_, ?_, ?_, subFile_order hf⟩
    · intro e he
      have hget := OrdMap.get?_eq_some.mpr he
      rw [get?_subServices] at hget
      obtain ⟨s, hs, heq⟩ := Option.map_eq_some_iff.mp hget
      obtain ⟨hs, hnode⟩ := Option.filter_eq_some_iff.mp hs
      rw [← heq]
      exact (hf.passes hs (by simpa using hnode)).mpr (hlbs e.1 s hs (by simpa using hnode))
    · intro e he
      obtain ⟨hin, hbackend⟩ := List.mem_filter.mp he
      exact ⟨hbackend, (hf.valid.loadbalancers e hin).2⟩
    · exact hf.valid.listens.sublist (List.filter_sublist.map _)
    · exact subFile_claimed (f := f) ▸ hports
    · intro e he
      exact (hregistry (OrdMap.get?_eq_some.mpr he)).mpr (hregistries e.1 e.2 (OrdMap.get?_eq_some.mpr he))

/-! ## The split -/

/-- The parts of a file: no node has two, every service is in one, as is every load balancer, with its backends, and
every part is accepted. -/
structure SplitSound (f : ComposeFile) : Prop where
  nodes : ((split f).map Prod.fst).Nodup
  services : ∀ name s, f.services.get? name = some s → ∃ part ∈ split f,
    part.2.services.get? name = some (settled f part.1 s) ∧
      ∀ part' ∈ split f, part'.2.services.contains name = true ↔ part' = part
  loadbalancers : ∀ name lb, f.loadbalancers.get? name = some lb → ∃ part ∈ split f,
    part.2.loadbalancers.get? name = some lb ∧ part.2.services.contains lb.backends.service = true ∧
      ∀ part' ∈ split f, part'.2.loadbalancers.contains name = true ↔ part' = part
  valid : ∀ part ∈ split f, part.2.validate = .ok ()

/-- The split is sound just when what the checks leave to ask holds. -/
theorem split_sound_iff {registry : OrdMap String NodeRecord} {f₀ f : ComposeFile} (hvalid : f₀.validate = .ok ())
    (hchecked : clusterFile registry f₀ = .ok f) : SplitSound f ↔ Splittable f := by
  have hf := clusterFile_placed hvalid hchecked
  constructor
  · intro h
    have hsub : ∀ {name node : String}, nodeOf f name = some node → (subFile f node).Valid := by
      intro name node hnode
      obtain ⟨node', hnode', hpart⟩ := hf.part (nodeOf_isSome hnode)
      obtain rfl := Option.some.inj (hnode'.symm.trans hnode)
      exact ComposeFile.validate_ok_iff.mp (h.valid _ hpart)
    refine ⟨?_, ?_, ?_⟩
    · intro name s node hs hnode
      exact (hf.subFile_valid.mp (hsub hnode)).1 name s hs hnode
    · intro name node hnode
      exact (hf.subFile_valid.mp (hsub hnode)).2.1
    · intro name node hnode
      exact (hf.subFile_valid.mp (hsub hnode)).2.2
  · intro h
    refine ⟨?_, ?_, ?_, ?_⟩
    · exact split_nodup
    · intro name s hs
      obtain ⟨node, hnode, hpart⟩ := hf.part (Option.isSome_iff_exists.mpr ⟨s, hs⟩)
      refine ⟨(node, subFile f node), hpart, ?_, ?_⟩
      · show (subFile f node).services.get? name = _
        rw [get?_subServices, hs, Option.filter_some, if_pos (by simpa using hnode)]
        rfl
      · intro part' hpart'
        obtain ⟨-, hsub, -⟩ := mem_split.mp hpart'
        rw [hsub, subServices_contains, hnode]
        exact ⟨fun heq => parts_eq hpart' (Option.some.inj heq).symm, fun heq => by rw [heq]⟩
    · intro name lb hlb
      have hbackend := (hf.valid.loadbalancers (name, lb) (OrdMap.get?_eq_some.mp hlb)).1
      obtain ⟨node, hnode, hpart⟩ := hf.part hbackend
      refine ⟨(node, subFile f node), hpart, ?_, subServices_contains.mpr hnode, ?_⟩
      · show (subFile f node).loadbalancers.get? name = _
        rw [get?_subLbs, hlb, Option.filter_some, if_pos (subServices_contains.mpr hnode)]
      · intro part' hpart'
        obtain ⟨-, hsub, -⟩ := mem_split.mp hpart'
        rw [hsub, subLbs_contains]
        constructor
        · intro hin
          obtain ⟨lb', hlb', hnode'⟩ := hin
          obtain rfl := Option.some.inj (hlb'.symm.trans hlb)
          exact parts_eq hpart' (Option.some.inj (hnode'.symm.trans hnode))
        · intro heq
          rw [heq]
          exact ⟨lb, hlb, hnode⟩
    · intro part hpart
      obtain ⟨-, hsub, name, hnode⟩ := mem_split.mp hpart
      rw [hsub]
      refine ComposeFile.validate_ok_iff.mpr (hf.subFile_valid.mpr ⟨?_, ?_, h.ports name part.1 hnode⟩)
      · exact fun name s hs hnode' => h.loadbalancers name s part.1 hs hnode'
      · exact h.registries name part.1 hnode

end Sub

/-- A load balancer in front of `api`, and `web`, which finds it by its address. -/
def frontFile (node : String) : ComposeFile where
  project := "shop"
  nodes := .ofList [("a", {}), ("b", {})]
  services := .ofList [
    ("api", { image := some "api:1", node := some "b" }),
    ("web", {
      image := some "web:1"
      node := some node
      env := .ofList [("API", quoteRef "loadbalancers.front.address")] })]
  loadbalancers := .ofList [("front", { listen := 80, backends := { service := "api", port := 8080 } })]

/-- Next to the load balancer, `web` can be split off. -/
theorem together_splits : SplitSound (frontFile "b") ↔ Splittable (frontFile "b") :=
  have hvalid : (frontFile "b").validate = .ok () := by decide +kernel
  have hchecked : clusterFile .empty (frontFile "b") = .ok (frontFile "b") := by decide +kernel
  split_sound_iff hvalid hchecked

/-- On another node, it passes all checks, and its file is refused there. -/
theorem apart_not_split : ¬∀ (registry : OrdMap String NodeRecord) (f₀ f : ComposeFile), f₀.validate = .ok () →
    clusterFile registry f₀ = .ok f → SplitSound f := by
  intro h
  have hsound := h .empty (frontFile "a") (frontFile "a") (by decide +kernel) (by decide +kernel)
  have hmem : ("a", subFile (frontFile "a") "a") ∈ split (frontFile "a") :=
    mem_split.mpr ⟨by decide +kernel, rfl, "web", by decide +kernel⟩
  have hrefused : (subFile (frontFile "a") "a").validate =
      .error (.invalidSpec "service web references unknown load balancer front") := by decide +kernel
  have haccepted := hsound.valid _ hmem
  rw [hrefused] at haccepted
  cases haccepted

end Collocate.Cluster
