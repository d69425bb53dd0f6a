import Collocate.Compose.Actions

/-! # What a daemon holds of its projects

The abstract daemon behind `up`: at most one container under a name, and at most one load balancer under a project and
a name. `Faithful` says of a host that it does what it is asked, and lists what it holds. -/
namespace Collocate.Compose
set_option autoImplicit false

structure Held where
  project : Option String
  service : Option String
  address : Option Ipv4Addr
  revision : Option String
  running : Bool
  deriving DecidableEq

/-- What is held for a spec that runs. -/
def Held.ofSpec (spec : Spec) : Held :=
  ⟨spec.labels.project, spec.labels.service, spec.net.addr, spec.labels.revision, true⟩

/-- What is listed of a container. -/
def Held.ofInfo (c : ContainerInfo) : Held := ⟨c.project, c.service, c.address, c.revision, decide (c.state = .running)⟩

@[ext]
structure World where
  containers : String → Option Held
  lbs : String × String → Option LbSpec

namespace World

/-- What a request does to the container under a name. -/
def touch (name : String) (c : Option Held) : Request → Option Held
  | .run spec => if spec.name = name then some (Held.ofSpec spec) else c
  | .start target => if target = name then c.map fun c => { c with running := true } else c
  | .stop target _ => if target = name then c.map fun c => { c with running := false } else c
  | .rm target _ _ => if target = name then none else c
  | _ => c

/-- What it does to the load balancer under a project and a name. -/
def touchLb (key : String × String) (lb : Option LbSpec) : Request → Option LbSpec
  | .lbSet spec => if (spec.project, spec.name) = key then some spec else lb
  | .lbRemove project name => if (project, name) = key then none else lb
  | _ => lb

def apply (w : World) (r : Request) : World where
  containers name := touch name (w.containers name) r
  lbs key := touchLb key (w.lbs key) r

theorem foldl_containers (acts : List Request) (w : World) (name : String) :
    (acts.foldl apply w).containers name = acts.foldl (touch name) (w.containers name) := by
  induction acts generalizing w with
  | nil => rfl
  | cons r acts ih =>
    rw [List.foldl_cons, ih, List.foldl_cons]
    rfl

theorem foldl_lbs (acts : List Request) (w : World) (key : String × String) :
    (acts.foldl apply w).lbs key = acts.foldl (touchLb key) (w.lbs key) := by
  induction acts generalizing w with
  | nil => rfl
  | cons r acts ih =>
    rw [List.foldl_cons, ih, List.foldl_cons]
    rfl

/-- A list of a project's containers: each as it is held, all of them, none twice. -/
structure Lists (w : World) (project : String) (list : List ContainerInfo) : Prop where
  held : ∀ c ∈ list, w.containers c.name = some (Held.ofInfo c) ∧ c.project = some project
  all : ∀ name c, w.containers name = some c → c.project = some project → ∃ i ∈ list, i.name = name

end World

/-- A host that does what it is asked to deploy, and lists what it holds. -/
structure Faithful {S : Type} (h : Host S) (view : S → World) : Prop where
  tracks : h.Tracks view World.apply
  lists : ∀ project s list s', h.call (.ps true (some project)) s = (.ok (.containers list), s') →
    (view s).Lists project list

/-! ## The daemon of the tests (`tests/fake.rs`) -/

/-- What it stores; the files are those of the client. -/
structure Fake where
  containers : OrdMap String ContainerInfo := OrdMap.empty
  lbs : List LbSpec := []
  secrets : OrdMap String String := OrdMap.empty
  configs : OrdMap String String := OrdMap.empty
  files : OrdMap String String := OrdMap.empty

def infoOf (spec : Spec) : ContainerInfo where
  id := spec.id
  name := spec.name
  state := .running
  pid := some 1
  address := spec.net.addr
  project := spec.labels.project
  service := spec.labels.service
  health := spec.healthcheck.map fun _ => .healthy
  revision := spec.labels.revision

/-- The containers that `Ps` lists, each under the name it is stored by. -/
def Fake.listed (st : Fake) (project : Option String) : List ContainerInfo :=
  (st.containers.entries.map fun e => { e.2 with name := e.1 }).filter fun c => project.isNone || c.project = project

def Fake.setState (st : Fake) (target : String) (state : RunState) : Fake :=
  { st with containers := match st.containers.get? target with
      | some c => st.containers.insert target { c with state }
      | none => st.containers }

def fakeHost : Host Fake where
  call req st := match req with
    | .ps _ project => (.ok (.containers (st.listed project)), st)
    | .run spec =>
      if st.containers.contains spec.name then (.error (.conflict s!"name {spec.name} in use"), st)
      else (.ok (.id spec.id), { st with containers := st.containers.insert spec.name (infoOf spec) })
    | .stop target _ => (.ok .ok, st.setState target .stopped)
    | .start target => (.ok .ok, st.setState target .running)
    | .rm target _ _ => (.ok .ok, { st with containers := st.containers.erase target })
    | .secretEnsure project name _ _ =>
      if st.secrets.contains s!"{project}/{name}" then (.ok .ok, st)
      else (.ok .ok, { st with secrets := st.secrets.insert s!"{project}/{name}" s!"generated-{name}" })
    | .secretSet project name value => (.ok .ok, { st with secrets := st.secrets.insert s!"{project}/{name}" value })
    | .secretRemove project name => (.ok .ok, { st with secrets := st.secrets.erase s!"{project}/{name}" })
    | .secretReveal project name => match st.secrets.get? s!"{project}/{name}" with
      | some value => (.ok (.text value), st)
      | none => (.error (.notFound name), st)
    | .configPut project name content =>
      (.ok (.text s!"/state/configs/{project}/{name}"),
        { st with configs := st.configs.insert s!"{project}/{name}" content })
    | .lbSet lb =>
      (.ok .ok, { st with
        lbs := st.lbs.filter (fun l => (l.project, l.name) ≠ (lb.project, lb.name)) ++ [lb] })
    | .lbRemove project name =>
      (.ok .ok, { st with lbs := st.lbs.filter fun l => (l.project, l.name) ≠ (project, name) })
    | .execProbe .. => (.ok (.exit 0), st)
    | _ => (.error (.internal "the fake daemon does not implement this"), st)
  readToString path st := match st.files.get? path with
    | some text => (.ok text, st)
    | none => (.error (.io s!"{path} not found"), st)
  newId := pure 0
  now := pure 0

def Fake.view (st : Fake) : World where
  containers name := (st.containers.get? name).map Held.ofInfo
  lbs key := st.lbs.find? fun l => (l.project, l.name) = key

theorem Fake.setState_view (st : Fake) (target : String) (state : RunState) :
    (st.setState target state).view.containers =
      fun name => if target = name then ((st.view.containers name).map fun c =>
        { c with running := decide (state = .running) })
        else st.view.containers name := by
  funext name
  unfold Fake.setState Fake.view
  by_cases heq : target = name
  · subst heq
    cases hg : st.containers.get? target with
    | none => simp [hg]
    | some c => simp [hg, Held.ofInfo]
  · cases hg : st.containers.get? target with
    | none => simp [heq]
    | some c => simp [heq, OrdMap.get?_insert, Ne.symm heq]

theorem find?_filter_key {α κ : Type} [DecidableEq κ] (f : α → κ) (k k' : κ) (l : List α) :
    (l.filter fun a => f a ≠ k).find? (fun a => f a = k') = if k = k' then none else l.find? fun a => f a = k' := by
  rw [List.find?_filter]
  by_cases heq : k = k'
  · rw [if_pos heq, List.find?_eq_none]
    intro a _
    simp [heq]
  · rw [if_neg heq]
    congr 1
    funext a
    by_cases ha : f a = k'
    · simp [ha, Ne.symm heq]
    · simp [ha]

theorem fake_call {r : Request} (hr : r.deploys = true) {st st' : Fake} {res : Response}
    (h : fakeHost.call r st = (.ok res, st')) : st'.view = st.view.apply r := by
  cases r with
  | run spec =>
    by_cases hin : st.containers.contains spec.name = true
    · simp [fakeHost, hin] at h
    · simp only [fakeHost, hin, Bool.false_eq_true, if_false] at h
      obtain rfl := (Prod.mk.inj h).2
      ext name c
      · by_cases heq : name = spec.name
        · subst heq
          simp [Fake.view, World.apply, World.touch, infoOf, Held.ofInfo, Held.ofSpec]
        · simp [Fake.view, World.apply, World.touch, heq, Ne.symm heq]
      · rfl
  | start target =>
    obtain rfl := (Prod.mk.inj h).2
    ext name c
    · rw [Fake.setState_view]
      simp [World.apply, World.touch]
    · rfl
  | stop target timeout =>
    obtain rfl := (Prod.mk.inj h).2
    ext name c
    · rw [Fake.setState_view]
      simp [World.apply, World.touch]
    · rfl
  | rm target force keep =>
    obtain rfl := (Prod.mk.inj h).2
    ext name c
    · by_cases heq : name = target
      · subst heq
        simp [Fake.view, World.apply, World.touch]
      · simp [Fake.view, World.apply, World.touch, heq, Ne.symm heq]
    · rfl
  | lbSet lb =>
    obtain rfl := (Prod.mk.inj h).2
    ext key c
    · rfl
    · have hfind := find?_filter_key (fun l : LbSpec => (l.project, l.name)) (lb.project, lb.name) key st.lbs
      by_cases heq : (lb.project, lb.name) = key
      · subst heq
        rw [if_pos rfl] at hfind
        simp only [Fake.view, World.apply, World.touchLb, List.find?_append, hfind, if_true, Option.none_or,
          List.find?_cons, decide_true]
      · rw [if_neg heq] at hfind
        simp only [Fake.view, World.apply, World.touchLb, List.find?_append, hfind, heq, if_false, List.find?_cons,
          decide_false, List.find?_nil, Option.or_none]
  | lbRemove project name =>
    obtain rfl := (Prod.mk.inj h).2
    ext key c
    · rfl
    · have hfind := find?_filter_key (fun l : LbSpec => (l.project, l.name)) (project, name) key st.lbs
      simp only [Fake.view, World.apply, World.touchLb, hfind]
  | _ => cases hr

theorem fake_building {r : Request} (hr : Request.Building r) (st : Fake) :
    (fakeHost.call r st).2.containers = st.containers ∧ (fakeHost.call r st).2.lbs = st.lbs := by
  cases r with
  | secretEnsure project name generate length =>
    simp only [fakeHost]
    split <;> exact ⟨rfl, rfl⟩
  | secretReveal project name =>
    simp only [fakeHost]
    split <;> exact ⟨rfl, rfl⟩
  | ps all project => exact ⟨rfl, rfl⟩
  | secretSet project name value => exact ⟨rfl, rfl⟩
  | secretRemove project name => exact ⟨rfl, rfl⟩
  | imagePull reference policy credentials => exact ⟨rfl, rfl⟩
  | configPut project name content => exact ⟨rfl, rfl⟩
  | _ => cases hr

theorem fake_building_view {r : Request} (hr : Request.Building r) (st : Fake) :
    (fakeHost.call r st).2.view = st.view := by
  obtain ⟨hcontainers, hlbs⟩ := fake_building hr st
  unfold Fake.view
  rw [hcontainers, hlbs]

theorem fake_file (path : String) (st : Fake) : (fakeHost.readToString path st).2 = st := by
  simp only [fakeHost]
  split <;> rfl

theorem fake_listed (project : String) (st : Fake) : st.view.Lists project (st.listed (some project)) where
  held := by
    intro c hc
    obtain ⟨hmem, hproject⟩ := List.mem_filter.mp hc
    obtain ⟨e, he, rfl⟩ := List.mem_map.mp hmem
    have hget : st.containers.get? e.1 = some e.2 := OrdMap.get?_eq_some.mpr he
    refine ⟨?_, by simpa using hproject⟩
    show (st.containers.get? e.1).map Held.ofInfo = _
    rw [hget]
    rfl
  all := by
    intro name c hc hproject
    obtain ⟨i, hi, rfl⟩ := Option.map_eq_some_iff.mp hc
    refine ⟨{ i with name }, List.mem_filter.mpr ⟨?_, ?_⟩, rfl⟩
    · exact List.mem_map.mpr ⟨(name, i), OrdMap.get?_eq_some.mp hi, rfl⟩
    · have hown : i.project = some project := hproject
      simp [hown]

/-- The daemon of the tests does what it is asked. -/
theorem fake_faithful : Faithful fakeHost Fake.view where
  tracks := {
    call := fun _ hr _ _ _ hcall => fake_call hr hcall
    building := fun w => {
      call := fun _ hr => Eff.Keeps.of_state fun st hst => (fake_building_view hr st).trans hst
      readToString := fun path => Eff.Keeps.of_state fun st hst => by rw [fake_file, hst]
      newId := Eff.Keeps.pure _
      now := Eff.Keeps.pure _ }
    watching := fun w => {
      call := fun r hr => Eff.Keeps.of_state fun st hst => by
        cases r with
        | ps all project => exact hst
        | execProbe target argv timeout => exact hst
        | _ => cases hr
      readToString := fun path => Eff.Keeps.of_state fun st hst => by rw [fake_file, hst]
      newId := Eff.Keeps.pure _
      now := Eff.Keeps.pure _ } }
  lists := by
    intro project st list st' hcall
    obtain rfl := Response.containers.inj (Except.ok.inj (Prod.mk.inj hcall).1)
    exact fake_listed project st

/-! ## Actions on one name -/

section Names
variable {name : String} {plan : Plan} {file : ComposeFile} {prep : Prepared}

theorem foldl_touch_skip {acts : List Request} (hskip : ∀ r ∈ acts, ∀ c, World.touch name c r = c) (c : Option Held) :
    acts.foldl (World.touch name) c = c := by
  induction acts with
  | nil => rfl
  | cons r acts ih =>
    rw [List.foldl_cons, hskip r (List.mem_cons_self ..), ih fun r' hr' => hskip r' (List.mem_cons_of_mem _ hr')]

theorem removeActions_other {target : String} (hne : target ≠ name) (c : Option Held) :
    (removeActions target).foldl (World.touch name) c = c := by
  unfold removeActions
  simp only [List.foldl_cons, List.foldl_nil, World.touch, if_neg hne]

theorem removeActions_self (c : Option Held) : (removeActions name).foldl (World.touch name) c = none := by
  unfold removeActions
  simp only [List.foldl_cons, List.foldl_nil, World.touch, if_true]

theorem specActions_other {spec : Spec} (hne : spec.name ≠ name) (c : Option Held) :
    (specActions plan spec).foldl (World.touch name) c = c := by
  have hrun : ∀ c, World.touch name c (.run spec) = c := fun c => if_neg hne
  unfold specActions
  split
  · rw [List.foldl_append, removeActions_other hne]
    exact hrun c
  · split
    · exact hrun c
    · split
      · exact if_neg hne
      · rfl

theorem lbActions_other (svc : String) (c : Option Held) :
    (lbActions file prep svc).foldl (World.touch name) c = c := by
  apply foldl_touch_skip
  intro r hr c
  obtain ⟨l, -, rfl⟩ := List.mem_map.mp hr
  rfl

theorem specs_skip {specs : List Spec} (hno : name ∉ specs.map Spec.name) (c : Option Held) :
    (specs.flatMap (specActions plan)).foldl (World.touch name) c = c := by
  induction specs generalizing c with
  | nil => rfl
  | cons spec specs ih =>
    rw [List.map_cons, List.mem_cons, not_or] at hno
    rw [List.flatMap_cons, List.foldl_append, specActions_other (Ne.symm hno.1), ih hno.2]

/-- Of specs with different names, one acts under its name. -/
theorem specs_touch {specs : List Spec} (hnodup : (specs.map Spec.name).Nodup) {spec : Spec} (hspec : spec ∈ specs)
    (c : Option Held) : (specs.flatMap (specActions plan)).foldl (World.touch spec.name) c =
      (specActions plan spec).foldl (World.touch spec.name) c := by
  induction specs generalizing c with
  | nil => cases hspec
  | cons first specs ih =>
    rw [List.map_cons, List.nodup_cons] at hnodup
    rw [List.flatMap_cons, List.foldl_append]
    cases hspec with
    | head => exact specs_skip hnodup.1 _
    | tail _ hmem =>
      have hne : first.name ≠ spec.name := fun heq => hnodup.1 (heq ▸ List.mem_map_of_mem hmem)
      rw [specActions_other hne, ih hnodup.2 hmem]

theorem services_touch (specs : List (String × List Spec)) (c : Option Held) :
    (specs.flatMap (serviceActions file prep plan)).foldl (World.touch name) c =
      ((specs.flatMap Prod.snd).flatMap (specActions plan)).foldl (World.touch name) c := by
  induction specs generalizing c with
  | nil => rfl
  | cons e specs ih =>
    rw [List.flatMap_cons, List.foldl_append, ih, List.flatMap_cons, List.flatMap_append, List.foldl_append]
    congr 1
    rw [serviceActions, List.foldl_append, lbActions_other]

theorem remove_skip {names : List String} (hno : name ∉ names) (c : Option Held) :
    (names.flatMap removeActions).foldl (World.touch name) c = c := by
  induction names generalizing c with
  | nil => rfl
  | cons first names ih =>
    rw [List.mem_cons, not_or] at hno
    rw [List.flatMap_cons, List.foldl_append, removeActions_other (Ne.symm hno.1), ih hno.2]

theorem remove_gone {names : List String} (hmem : name ∈ names) (c : Option Held) :
    (names.flatMap removeActions).foldl (World.touch name) c = none := by
  induction names generalizing c with
  | nil => cases hmem
  | cons first names ih =>
    rw [List.flatMap_cons, List.foldl_append]
    by_cases hrest : name ∈ names
    · exact ih hrest _
    · cases hmem with
      | head => rw [removeActions_self, remove_skip hrest]
      | tail _ hin => exact absurd hin hrest

/-- What `up` does under the name of a spec. -/
theorem upActions_spec (hnodup : (prep.all.map Spec.name).Nodup) {spec : Spec} (hspec : spec ∈ prep.all)
    (hkept : spec.name ∉ plan.remove) (c : Option Held) :
    (upActions file prep plan).foldl (World.touch spec.name) c =
      (specActions plan spec).foldl (World.touch spec.name) c := by
  rw [upActions, List.foldl_append, services_touch, remove_skip (by rwa [shutdownOrder, List.mem_reverse])]
  exact specs_touch hnodup hspec c

/-- What it does under any other name. -/
theorem upActions_other (hno : name ∉ prep.all.map Spec.name) (c : Option Held) :
    (upActions file prep plan).foldl (World.touch name) c = if name ∈ plan.remove then none else c := by
  have hskip : (prep.all.flatMap (specActions plan)).foldl (World.touch name) c = c := specs_skip hno c
  rw [Prepared.all] at hskip
  rw [upActions, List.foldl_append, services_touch, hskip]
  by_cases hremove : name ∈ plan.remove
  · rw [if_pos hremove, remove_gone (by rwa [shutdownOrder, List.mem_reverse])]
  · rw [if_neg hremove, remove_skip (by rwa [shutdownOrder, List.mem_reverse])]

end Names
end Collocate.Compose
