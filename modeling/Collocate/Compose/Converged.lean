import Mathlib.Data.List.Induction
import Collocate.Compose.Applied
import Collocate.Compose.Buildable
import Collocate.Compose.World

/-! # What a project is after `up` (`collocate-compose/src/up.rs`, `plan.rs`)

The plan is read against what the daemon holds: for a replica nothing may be held under its name, or a container of
another revision, or one of its own that runs or does not. Behind a successful `up` the containers of the project are
those of the file, each of its revision and running. Load balancers are set and never removed, so they are those of the
file when no other was set before. -/
namespace Collocate.Compose
set_option autoImplicit false

/-! ## Plans -/

/-- What is desired of a spec. -/
def itemOf (prep : Prepared) (svc : String) (spec : Spec) : Item where
  name := spec.name
  hash := if svc ∈ prep.forced then spec.labels.revision.getD "" ++ "+rotate" else spec.labels.revision.getD ""

section Plans
variable {S : Type} {file : ComposeFile} {opts : UpOptions} {prep : Prepared} {existing : List ContainerInfo}
  {w : World}

theorem desiredItems_names (prep : Prepared) : (desiredItems prep).map Item.name = prep.all.map Spec.name := by
  unfold desiredItems Prepared.all
  rw [List.map_flatMap, List.map_flatMap]
  congr 1
  funext e
  rw [List.map_map]
  rfl

theorem itemOf_mem {e : String × List Spec} (he : e ∈ prep.specs) {spec : Spec} (hspec : spec ∈ e.2) :
    itemOf prep e.1 spec ∈ desiredItems prep :=
  List.mem_flatMap.mpr ⟨e, he, List.mem_map_of_mem hspec⟩

theorem mem_all {e : String × List Spec} (he : e ∈ prep.specs) {spec : Spec} (hspec : spec ∈ e.2) : spec ∈ prep.all :=
  List.mem_flatMap.mpr ⟨e, he, hspec⟩

/-- What the plan has for a replica, by what is held under its name. -/
theorem actualOf_held {project : String} (hl : w.Lists project existing) (name : String) :
    (∃ a c, actualOf (actualItems existing) name = some a ∧ w.containers name = some c ∧ c.project = some project ∧
        a.hash = c.revision.getD "" ∧ a.running = c.running) ∨
      actualOf (actualItems existing) name = none ∧ ∀ c, w.containers name = some c → c.project ≠ some project := by
  unfold actualOf
  cases hfind : (actualItems existing).reverse.find? fun a => a.name = name with
  | none =>
    refine Or.inr ⟨rfl, ?_⟩
    intro c hc hproject
    obtain ⟨i, hi, hname⟩ := hl.all name c hc hproject
    have hno := List.find?_eq_none.mp hfind _ (List.mem_reverse.mpr (List.mem_map_of_mem hi))
    exact hno (decide_eq_true hname)
  | some a =>
    have hname : a.name = name := by simpa using List.find?_some hfind
    obtain ⟨c, hc, rfl⟩ := List.mem_map.mp (List.mem_reverse.mp (List.mem_of_find?_eq_some hfind))
    obtain ⟨hheld, hproject⟩ := hl.held c hc
    refine Or.inl ⟨_, Held.ofInfo c, rfl, ?_, hproject, rfl, rfl⟩
    rw [← hname]
    exact hheld

theorem mem_remove {project : String} (hl : w.Lists project existing) {name : String} :
    name ∈ (makePlan prep existing).remove ↔
      name ∉ prep.all.map Spec.name ∧ ∃ c, w.containers name = some c ∧ c.project = some project := by
  have hmem : name ∈ (makePlan prep existing).remove ↔
      ∃ a ∈ actualItems existing, a.name ∉ (desiredItems prep).map Item.name ∧ a.name = name := by
    show name ∈ List.insertionSort (· ≤ ·) (((actualItems existing).filter fun a =>
      a.name ∉ (desiredItems prep).map Item.name).map Actual.name) ↔ _
    rw [(List.perm_insertionSort _ _).mem_iff, List.mem_map]
    simp only [List.mem_filter, decide_eq_true_eq, and_assoc]
  rw [hmem, desiredItems_names]
  constructor
  · rintro ⟨a, ha, hno, rfl⟩
    obtain ⟨c, hc, rfl⟩ := List.mem_map.mp ha
    obtain ⟨hheld, hproject⟩ := hl.held c hc
    exact ⟨hno, Held.ofInfo c, hheld, hproject⟩
  · rintro ⟨hno, c, hc, hproject⟩
    obtain ⟨i, hi, rfl⟩ := hl.all name c hc hproject
    exact ⟨_, List.mem_map_of_mem hi, hno, rfl⟩

/-- The containers of a project have revisions that `up` may have given them, in hexadecimal. -/
def World.Plain (w : World) (project : String) : Prop :=
  ∀ name c, w.containers name = some c → c.project = some project → '+' ∉ (c.revision.getD "").toList

theorem specActions_of_verdict (hc : Covers file opts prep) {e : String × List Spec} (he : e ∈ prep.specs) {spec : Spec}
    (hspec : spec ∈ e.2) : specActions (makePlan prep existing) spec =
      match verdict (actualItems existing) (itemOf prep e.1 spec) with
      | .create => [.run spec]
      | .recreate => removeActions spec.name ++ [.run spec]
      | .start => [.start spec.name]
      | .keep => [] := by
  have hnodup : ((desiredItems prep).map Item.name).Nodup := by
    rw [desiredItems_names]
    exact hc.nodup
  have hmem : ∀ v, spec.name ∈ judged (desiredItems prep) (actualItems existing) v ↔
      verdict (actualItems existing) (itemOf prep e.1 spec) = v := fun v => mem_judged hnodup (itemOf_mem he hspec)
  have hplan : makePlan prep existing = diff (desiredItems prep) (actualItems existing) := rfl
  unfold specActions
  rw [hplan, diff]
  simp only [hmem]
  cases verdict (actualItems existing) (itemOf prep e.1 spec) <;> simp

/-- A replica is kept or started only when what is held has its revision and its service is not forced. -/
theorem hash_eq {c : Held} (hplain : w.Plain file.project) {name : String} (hheld : w.containers name = some c)
    (hproject : c.project = some file.project) {svc : String} {spec : Spec}
    (heq : c.revision.getD "" = (itemOf prep svc spec).hash) :
    c.revision.getD "" = spec.labels.revision.getD "" ∧ svc ∉ prep.forced := by
  unfold itemOf at heq
  by_cases hforced : svc ∈ prep.forced
  · simp only [if_pos hforced] at heq
    have hno := hplain name c hheld hproject
    rw [heq, String.toList_append] at hno
    exact absurd (List.mem_append_right _ (by decide)) hno
  · simp only [if_neg hforced] at heq
    exact ⟨heq, hforced⟩

/-- What is held under the name of a replica behind the actions of its plan. -/
theorem spec_outcome (hc : Covers file opts prep) (hl : w.Lists file.project existing) (hplain : w.Plain file.project)
    {e : String × List Spec} (he : e ∈ prep.specs) {spec : Spec} (hspec : spec ∈ e.2)
    (hproject : spec.labels.project = some file.project) :
    ∃ c, ((upActions file prep (makePlan prep existing)).foldl World.apply w).containers spec.name = some c ∧
      c.project = some file.project ∧ c.revision.getD "" = spec.labels.revision.getD "" ∧ c.running = true := by
  have hkept : spec.name ∉ (makePlan prep existing).remove := by
    intro hmem
    exact ((mem_remove hl).mp hmem).1 (List.mem_map_of_mem (mem_all he hspec))
  rw [World.foldl_containers, upActions_spec hc.nodup (mem_all he hspec) hkept, specActions_of_verdict hc he hspec]
  have hrun : ∀ c, World.touch spec.name c (.run spec) = some (Held.ofSpec spec) := fun c => if_pos rfl
  have hnew : ∃ c, some (Held.ofSpec spec) = some c ∧ c.project = some file.project ∧
      c.revision.getD "" = spec.labels.revision.getD "" ∧ c.running = true := ⟨_, rfl, hproject, rfl, rfl⟩
  unfold verdict
  have hitem : (itemOf prep e.1 spec).name = spec.name := rfl
  rw [hitem]
  cases actualOf_held hl spec.name with
  | inr hnone =>
    rw [hnone.1]
    simpa only [List.foldl_cons, List.foldl_nil, hrun] using hnew
  | inl hsome =>
    obtain ⟨a, c, ha, hheld, hown, hhash, hrunning⟩ := hsome
    rw [ha, hheld]
    dsimp only
    by_cases hdiffer : a.hash ≠ (itemOf prep e.1 spec).hash
    · rw [if_pos hdiffer]
      simpa only [List.foldl_append, List.foldl_cons, List.foldl_nil, hrun] using hnew
    · rw [if_neg hdiffer]
      have hsame := (hash_eq hplain hheld hown (hhash.symm.trans (not_not.mp hdiffer))).1
      cases hruns : a.running with
      | false =>
        have hstart : World.touch spec.name (some c) (.start spec.name) = some { c with running := true } := if_pos rfl
        simp only [Bool.not_false, if_true, List.foldl_cons, List.foldl_nil, hstart]
        exact ⟨_, rfl, hown, hsame, rfl⟩
      | true =>
        simp only [Bool.not_true, Bool.false_eq_true, if_false, List.foldl_nil]
        exact ⟨c, rfl, hown, hsame, by rw [← hrunning, hruns]⟩

/-- No other container of the project is held behind the actions. -/
theorem other_outcome (hl : w.Lists file.project existing) {name : String} (hno : name ∉ prep.all.map Spec.name)
    {c : Held} (hc : ((upActions file prep (makePlan prep existing)).foldl World.apply w).containers name = some c) :
    c.project ≠ some file.project := by
  rw [World.foldl_containers, upActions_other hno] at hc
  intro hproject
  by_cases hremove : name ∈ (makePlan prep existing).remove
  · rw [if_pos hremove] at hc
    cases hc
  · rw [if_neg hremove] at hc
    exact hremove ((mem_remove hl).mpr ⟨hno, c, hc, hproject⟩)

/-! ## Load balancers -/

theorem foldl_touchLb_skip {key : String × String} {acts : List Request}
    (hskip : ∀ r ∈ acts, ∀ lb, World.touchLb key lb r = lb) (lb : Option LbSpec) :
    acts.foldl (World.touchLb key) lb = lb := by
  induction acts with
  | nil => rfl
  | cons r acts ih =>
    rw [List.foldl_cons, hskip r (List.mem_cons_self ..), ih fun r' hr' => hskip r' (List.mem_cons_of_mem _ hr')]

/-- Requests that each leave a load balancer or set it to one value, and of which one sets it. -/
theorem foldl_touchLb_set {key : String × String} {acts : List Request} {spec : LbSpec}
    (hall : ∀ r ∈ acts, (∀ lb, World.touchLb key lb r = lb) ∨ ∀ lb, World.touchLb key lb r = some spec)
    (hset : ∃ r ∈ acts, ∀ lb, World.touchLb key lb r = some spec) (lb : Option LbSpec) :
    acts.foldl (World.touchLb key) lb = some spec := by
  induction acts using List.reverseRecOn with
  | nil =>
    obtain ⟨r, hr, -⟩ := hset
    cases hr
  | append_singleton acts last ih =>
    rw [List.foldl_append, List.foldl_cons, List.foldl_nil]
    cases hall last (List.mem_append_right _ (List.mem_singleton_self _)) with
    | inr hlast => exact hlast _
    | inl hlast =>
      rw [hlast]
      apply ih fun r hr => hall r (List.mem_append_left _ hr)
      obtain ⟨r, hr, hsets⟩ := hset
      rw [List.mem_append, List.mem_singleton] at hr
      cases hr with
      | inl hin => exact ⟨r, hin, hsets⟩
      | inr heq =>
        -- The last request would set what it leaves.
        rw [heq] at hsets
        have hnone := (hlast none).symm.trans (hsets none)
        cases hnone

theorem mem_specActions {plan : Plan} {spec : Spec} {r : Request} (hr : r ∈ specActions plan spec) :
    r ∈ removeActions spec.name ∨ r = .run spec ∨ r = .start spec.name := by
  unfold specActions at hr
  split at hr
  · rw [List.mem_append, List.mem_singleton] at hr
    exact hr.imp_right Or.inl
  · split at hr
    · exact Or.inr (Or.inl (List.mem_singleton.mp hr))
    · split at hr
      · exact Or.inr (Or.inr (List.mem_singleton.mp hr))
      · cases hr

/-- An action removes a container, sets a load balancer, or launches a replica. -/
theorem mem_upActions {plan : Plan} {r : Request} (hr : r ∈ upActions file prep plan) :
    (∃ name, r ∈ removeActions name) ∨
      (∃ e ∈ file.loadbalancers.entries, r = .lbSet (lbSpec file.project e.1 e.2 (prep.lbVips e.1))) ∨
      ∃ spec ∈ prep.all, r ∈ specActions plan spec ∧ (r = .run spec ∨ r = .start spec.name) := by
  rw [upActions, List.mem_append, List.mem_flatMap, List.mem_flatMap] at hr
  cases hr with
  | inr hgone =>
    obtain ⟨name, -, hin⟩ := hgone
    exact Or.inl ⟨name, hin⟩
  | inl hservice =>
    obtain ⟨e, he, hin⟩ := hservice
    rw [serviceActions, List.mem_append] at hin
    cases hin with
    | inr hlb =>
      obtain ⟨l, hl, rfl⟩ := List.mem_map.mp hlb
      exact Or.inr (Or.inl ⟨l, List.mem_of_mem_filter hl, rfl⟩)
    | inl hspecs =>
      obtain ⟨spec, hspec, hact⟩ := List.mem_flatMap.mp hspecs
      cases mem_specActions hact with
      | inl hremove => exact Or.inl ⟨spec.name, hremove⟩
      | inr hlaunch => exact Or.inr (Or.inr ⟨spec, mem_all he hspec, hact, hlaunch⟩)

theorem upActions_lb {plan : Plan} {r : Request} (hr : r ∈ upActions file prep plan) :
    (∀ key lb, World.touchLb key lb r = lb) ∨ ∃ e ∈ file.loadbalancers.entries,
      r = .lbSet (lbSpec file.project e.1 e.2 (prep.lbVips e.1)) := by
  obtain ⟨name, hremove⟩ | hlb | ⟨spec, -, -, hlaunch⟩ := mem_upActions hr
  · refine Or.inl fun key lb => ?_
    simp only [removeActions, List.mem_cons, List.not_mem_nil, or_false] at hremove
    cases hremove with
    | inl heq => rw [heq]; rfl
    | inr heq => rw [heq]; rfl
  · exact Or.inr hlb
  · refine Or.inl fun key lb => ?_
    cases hlaunch with
    | inl heq => rw [heq]; rfl
    | inr heq => rw [heq]; rfl

theorem validate_backend (hv : file.validate = .ok ()) {name : String} {lb : LbDef}
    (hlb : file.loadbalancers.get? name = some lb) : file.services.contains lb.backends.service = true := by
  simp only [ComposeFile.validate, ComposeFile.invalid_bind] at hv
  split at hv
  · cases hv
  obtain ⟨published, -, hv⟩ := Result.bind_ok hv
  obtain ⟨seen, hseen, -⟩ := Result.bind_ok hv
  obtain ⟨c, c', hc⟩ := Result.foldlM_ok hseen _ (OrdMap.get?_eq_some.mp hlb)
  simp only [ComposeFile.checkLb, ComposeFile.invalid_bind] at hc
  by_contra hno
  rw [if_pos (by simpa using hno)] at hc
  cases hc

/-- The load balancers of the file are set as it says, and no other of its project is touched. -/
theorem lb_outcome (hv : file.validate = .ok ()) (hc : Covers file opts prep) (plan : Plan) (name : String) :
    ((upActions file prep plan).foldl World.apply w).lbs (file.project, name) =
      ((file.loadbalancers.get? name).map fun lb => lbSpec file.project name lb (prep.lbVips name)).or
        (w.lbs (file.project, name)) := by
  have hkey : ∀ (l : String × LbDef) lb, World.touchLb (file.project, name) lb
      (.lbSet (lbSpec file.project l.1 l.2 (prep.lbVips l.1))) =
        if l.1 = name then some (lbSpec file.project l.1 l.2 (prep.lbVips l.1)) else lb := by
    intro l lb
    simp only [World.touchLb, lbSpec, Prod.mk.injEq, true_and]
  rw [World.foldl_lbs]
  cases hlb : file.loadbalancers.get? name with
  | none =>
    apply foldl_touchLb_skip
    intro r hr lb
    cases upActions_lb hr with
    | inl hleave => exact hleave _ lb
    | inr hset =>
      obtain ⟨l, hl, rfl⟩ := hset
      rw [hkey, if_neg]
      intro heq
      have hget : file.loadbalancers.get? l.1 = some l.2 := OrdMap.get?_eq_some.mpr hl
      rw [heq, hlb] at hget
      cases hget
  | some lb =>
    rw [Option.map_some, Option.some_or]
    apply foldl_touchLb_set
    · intro r hr
      cases upActions_lb hr with
      | inl hleave => exact Or.inl (hleave _)
      | inr hset =>
        obtain ⟨l, hl, rfl⟩ := hset
        by_cases heq : l.1 = name
        · refine Or.inr fun before => ?_
          have hget : file.loadbalancers.get? l.1 = some l.2 := OrdMap.get?_eq_some.mpr hl
          rw [heq, hlb] at hget
          rw [hkey, if_pos heq, heq, Option.some.inj hget]
        · exact Or.inl fun before => by rw [hkey, if_neg heq]
    · refine ⟨.lbSet (lbSpec file.project name lb (prep.lbVips name)), ?_, fun before =>
        by rw [hkey (name, lb), if_pos rfl]⟩
      have hservice : lb.backends.service ∈ prep.specs.map Prod.fst := by
        rw [(topoOrder_spec hc.topo).2, ComposeFile.dependencyGraph, OrdMap.keys_mapValues]
        exact OrdMap.mem_keys.mpr (Option.isSome_iff_exists.mp (validate_backend hv hlb))
      obtain ⟨e, he, hname⟩ := List.mem_map.mp hservice
      refine List.mem_append_left _ (List.mem_flatMap.mpr ⟨e, he, List.mem_append_right _ ?_⟩)
      refine List.mem_map.mpr ⟨(name, lb), List.mem_filter.mpr ⟨OrdMap.get?_eq_some.mp hlb, ?_⟩, rfl⟩
      exact decide_eq_true hname.symm

/-! ## Projects -/

/-- The project is what its file says: its replicas run at the revisions that were built, and its load balancers are set
as the file has them. -/
structure Converged (w : World) (file : ComposeFile) (prep : Prepared) : Prop where
  names : ∀ name, (∃ c, w.containers name = some c ∧ c.project = some file.project) ↔
    ∃ svc i, i.toNat < replicasOf file svc ∧ name = replicaName file.project svc i
  replicas : ∀ spec ∈ prep.all, ∃ c, w.containers spec.name = some c ∧ c.project = some file.project ∧
    c.revision.getD "" = spec.labels.revision.getD "" ∧ c.running = true
  lbs : ∀ name, w.lbs (file.project, name) =
    (file.loadbalancers.get? name).map fun lb => lbSpec file.project name lb (prep.lbVips name)

end Plans

theorem containers_lists {S : Type} {x : Extern} {h : Host S} {view : S → World} (hf : Faithful h view)
    {project : String} {s s' : S} {list : List ContainerInfo} (hs : containers x h project s = (.ok list, s')) :
    (view s).Lists project list := by
  obtain ⟨res, s₁, hcall, hs⟩ := Eff.bind_ok hs
  cases res with
  | containers answer =>
    cases hs
    exact hf.lists project s list s' hcall
  | _ => cases hs

theorem prepare_project {S : Type} {x : Extern} {h : Host S} {file : ComposeFile} {opts : UpOptions} {s s' : S}
    {prep : Prepared} (hs : prepare x h file opts s = (.ok prep, s')) :
    ∀ e ∈ prep.specs, ∀ spec ∈ e.2, spec.labels.project = some file.project := by
  refine prepare_each (P := fun _ spec => spec.labels.project = some file.project) ?_ hs
  intro st st' service idx spec s s' hspec
  obtain ⟨svc, built, addr, -, b, rfl⟩ := BuildState.spec_built hspec
  show built.labels.project = _
  rw [b.labels]

/-- Behind a successful `up` the project is what its file says, if no load balancer was there that the file has not. -/
theorem up_converges_iff {S : Type} {x : Extern} {h : Host S} {view : S → World} (hf : Faithful h view)
    {file : ComposeFile} {opts : UpOptions} {rounds : String → ℕ} {s s' : S} {plan : Plan} (hdry : opts.dryRun = false)
    (hplain : (view s).Plain file.project) (hup : up x h file opts rounds s = (.ok plan, s')) :
    ∃ prep s₁, prepare x h file opts s = (.ok prep, s₁) ∧
      (Converged (view s') file prep ↔
        ∀ name lb, (view s).lbs (file.project, name) = some lb → file.loadbalancers.contains name = true) := by
  obtain ⟨prep, existing, s₁, s₂, hv, hprep, hlist, rfl, hview, hdone⟩ := up_does hf.tracks hdry hup
  refine ⟨prep, s₁, hprep, ?_⟩
  have hc := prepare_covers hprep
  have hl : (view s).Lists file.project existing := by
    rw [← hview]
    exact containers_lists hf hlist
  have hreplicas : ∀ spec ∈ prep.all, ∃ c, (view s').containers spec.name = some c ∧ c.project = some file.project ∧
      c.revision.getD "" = spec.labels.revision.getD "" ∧ c.running = true := by
    intro spec hspec
    obtain ⟨e, he, hin⟩ := List.mem_flatMap.mp hspec
    rw [hdone]
    exact spec_outcome hc hl hplain he hin (prepare_project hprep e he spec hin)
  have hlbs : ∀ name, (view s').lbs (file.project, name) =
      ((file.loadbalancers.get? name).map fun lb => lbSpec file.project name lb (prep.lbVips name)).or
        ((view s).lbs (file.project, name)) := fun name => by
    rw [hdone]
    exact lb_outcome hv hc _ name
  constructor
  · intro hconverged name lb hlb
    have hfinal := (hlbs name).symm.trans (hconverged.lbs name)
    rw [hlb] at hfinal
    cases hget : file.loadbalancers.get? name with
    | none =>
      rw [hget] at hfinal
      cases hfinal
    | some def' =>
      unfold OrdMap.contains
      rw [hget]
      rfl
  · intro hold
    refine ⟨?_, hreplicas, ?_⟩
    · intro name
      rw [← hc.mem_names]
      constructor
      · rintro ⟨c, hheld, hproject⟩
        by_contra hno
        rw [hdone] at hheld
        exact other_outcome hl hno hheld hproject
      · intro hmem
        obtain ⟨spec, hspec, rfl⟩ := List.mem_map.mp hmem
        obtain ⟨c, hheld, hproject, -, -⟩ := hreplicas spec hspec
        exact ⟨c, hheld, hproject⟩
    · intro name
      rw [hlbs]
      cases hget : file.loadbalancers.get? name with
      | some lb => rfl
      | none =>
        cases hlb : (view s).lbs (file.project, name) with
        | none => rfl
        | some lb =>
          have hin := hold name lb hlb
          unfold OrdMap.contains at hin
          rw [hget] at hin
          cases hin

/-! ## A load balancer that stays -/

/-- A service with a load balancer in front of it. -/
def balancedFile : ComposeFile where
  project := "p"
  services := OrdMap.empty.insert "web" { series := some "noble", command := ["serve"] }
  loadbalancers := OrdMap.empty.insert "front" { listen := 80, backends := ⟨"web", 8080⟩ }

/-- The load balancer of an earlier file. -/
def oldLb : LbSpec := lbSpec "p" "old" { listen := 81, backends := ⟨"web", 8080⟩ } (some ⟨0x0a0000f0⟩)

def localOpts : UpOptions where
  subnet := "10.0.0.0/24"
  baseDir := ""

def balancedUp (st : Fake) : Result Plan × Fake := up argvExtern fakeHost balancedFile localOpts (fun _ => 0) st

/-- An earlier file of the project, with another command, a service that is gone since and another port in front. -/
def earlierFile : ComposeFile where
  project := "p"
  services := (OrdMap.empty.insert "web" { series := some "noble", command := ["old"] }).insert "db"
    { series := some "noble", command := ["store"] }
  loadbalancers := OrdMap.empty.insert "front" { listen := 81, backends := ⟨"web", 8080⟩ }

/-- A daemon with a container of another project. -/
def foreignFake : Fake where
  containers := OrdMap.empty.insert "q-web-1"
    ⟨5, "q-web-1", .running, none, none, some "q", none, none, none, none, [], none⟩

/-- The daemon when the earlier file is up as well. -/
def earlierFake : Fake := (up argvExtern fakeHost earlierFile localOpts (fun _ => 0) foreignFake).2

theorem fake_held {st : Fake} {name : String} {c : Held} (hc : st.view.containers name = some c) :
    ∃ i, (name, i) ∈ st.containers.entries ∧ Held.ofInfo i = c := by
  obtain ⟨i, hi, hofInfo⟩ := Option.map_eq_some_iff.mp hc
  exact ⟨i, OrdMap.get?_eq_some.mp hi, hofInfo⟩

theorem fake_lb {st : Fake} {project name : String} {lb : LbSpec} (hlb : st.view.lbs (project, name) = some lb) :
    lb ∈ st.lbs ∧ lb.name = name := by
  have hfind : st.lbs.find? (fun l => (l.project, l.name) = (project, name)) = some lb := hlb
  have hkey := List.find?_some hfind
  exact ⟨List.mem_of_find?_eq_some hfind, (Prod.mk.inj (of_decide_eq_true hkey)).2⟩

/-- Where every load balancer of before is declared, `up` converges: one container is made again and one removed. -/
theorem balanced_converges : earlierFake.containers.keys = ["p-db-1", "p-web-1", "q-web-1"] ∧
    (balancedUp earlierFake).1 = .ok { recreate := ["p-web-1"], remove := ["p-db-1"] } ∧
    ∃ prep s₁, prepare argvExtern fakeHost balancedFile localOpts earlierFake = (.ok prep, s₁) ∧
      Converged (balancedUp earlierFake).2.view balancedFile prep := by
  have hplan : (balancedUp earlierFake).1 = .ok { recreate := ["p-web-1"], remove := ["p-db-1"] } := by decide +kernel
  have hplain : earlierFake.view.Plain "p" := by
    have hall : ∀ e ∈ earlierFake.containers.entries, '+' ∉ (e.2.revision.getD "").toList := by decide +kernel
    intro name c hc _
    obtain ⟨i, hin, rfl⟩ := fake_held hc
    exact hall (name, i) hin
  have hlbs : ∀ name lb, earlierFake.view.lbs ("p", name) = some lb →
      balancedFile.loadbalancers.contains name = true := by
    have hall : ∀ lb ∈ earlierFake.lbs, balancedFile.loadbalancers.contains lb.name = true := by decide +kernel
    intro name lb hlb
    obtain ⟨hin, hkey⟩ := fake_lb hlb
    exact hkey ▸ hall lb hin
  have hup : balancedUp earlierFake =
      (.ok { recreate := ["p-web-1"], remove := ["p-db-1"] }, (balancedUp earlierFake).2) := by
    rw [← hplan]
  change up argvExtern fakeHost balancedFile localOpts (fun _ => 0) earlierFake = _ at hup
  obtain ⟨prep, s₁, hprep, hiff⟩ := up_converges_iff fake_faithful rfl hplain hup
  exact ⟨by decide +kernel, hplan, prep, s₁, hprep, hiff.mpr hlbs⟩

/-- `up` succeeds and leaves the load balancer of an earlier file. -/
theorem old_lb_stays : balancedFile.validate = .ok () ∧
    (balancedUp { lbs := [oldLb] }).1 = .ok { create := ["p-web-1"] } ∧
    (balancedUp { lbs := [oldLb] }).2.view.lbs ("p", "old") = some oldLb ∧
    balancedFile.loadbalancers.get? "old" = none :=
  ⟨by decide +kernel, by decide +kernel, by decide +kernel, by decide +kernel⟩

end Collocate.Compose
