import Mathlib.Logic.Relation
import Collocate.Controller.RolloutActions
import Collocate.Controller.Tick

/-! # What a tick can do, step by step

`Step` lists everything a tick may do to the controller and to its log, each with the condition under
which the code does it: quiet requests, the revision bookkeeping, the autoscaler's choice, a plan, and
the requests and the rollback that carry a plan out. `tick_steps` says that a tick is a sequence of
such steps, and that a failed tick names its cause in the log. The statements about whole runs follow
from this list, not from the code of `tick`. -/
namespace Collocate.Control
open Compose Autoscaler Rollout
set_option autoImplicit false

/-- The controller and the log of the tick so far. -/
structure View where
  ctl : Controller
  log : List Event

def Machine.view {σ : Type} (m : Machine σ) : View := ⟨m.ctl, m.log⟩

/-! ## Steps -/

/-- The two controllers agree on the file and on the revisions. -/
structure SameRevisions (c c' : Controller) : Prop where
  file : c'.file = c.file
  applied : c'.applied = c.applied
  previous : c'.previous = c.previous
  rejected : c'.rejected = c.rejected

/-- The two controllers agree on all that decides what is run. -/
structure SameCore (c c' : Controller) : Prop extends SameRevisions c c' where
  scalers : c'.scalers = c.scalers
  desired : c'.desired = c.desired

/-- The replica is a running container of the list that belongs to the service and whose name has an index. -/
def SeenIn (project svc : String) (list : List ContainerInfo) (r : Replica) : Prop :=
  ∃ info ∈ list, info.service = some svc ∧ info.state = .running ∧
    replicaIndex project svc info.name = some r.index ∧ r.lifecycle = .live

/-- What `observe` returns: listed containers, and the crash-loop replica only beside a listed one of
another revision. -/
def ObservedIn (project svc target : String) (list : List ContainerInfo) (replicas : List Replica) : Prop :=
  (∀ r ∈ replicas, SeenIn project svc list r) ∨
    ∃ seen, replicas = seen ++ [crashLoop target] ∧ (∀ r ∈ seen, SeenIn project svc list r) ∧
      ∃ r ∈ seen, r.revision ≠ target

def listing (svc project : String) (list : List ContainerInfo) : Event :=
  .call (some svc) (.ps true (some project)) (.ok (.containers list))

def Observed (v : View) (svc target : String) (replicas : List Replica) : Prop :=
  ∃ list, listing svc v.ctl.file.project list ∈ v.log ∧
    ObservedIn v.ctl.file.project svc target list replicas

/-- The facts a plan is made from. -/
structure CanPlan (v : View) (svc : String) (dfn : Service) (fileRev : String) (a : Applied)
    (st : Rollout.State) : Prop where
  file : v.ctl.file.services.get? svc = some dfn
  applied : v.ctl.applied svc = some a
  basis : a = ⟨fileRev, dfn⟩ ∨ .kept svc dfn fileRev a ∈ v.log
  target : st.target = a.revision
  previous : st.previous = (v.ctl.previous svc).map (·.revision)
  policy : st.policy = a.service.updatePolicy
  desired : st.desired = (v.ctl.desired svc).getD dfn.replicas
  running : st.paused = false
  observed : Observed v svc a.revision st.replicas

/-- A plan of this tick that is still being carried out. -/
structure Plan (v : View) (svc : String) (a : Applied) (st : Rollout.State) : Prop where
  planned : ∃ dfn fileRev, .planned svc dfn fileRev a st ∈ v.log
  applied : v.ctl.applied svc = some a
  target : st.target = a.revision
  previous : st.previous = (v.ctl.previous svc).map (·.revision)

def View.add (v : View) (e : Event) : View := ⟨v.ctl, v.log ++ [e]⟩

/-- The service has no plan in this tick yet. -/
def Fresh (v : View) (svc : String) : Prop := ∀ dfn fileRev a st, .planned svc dfn fileRev a st ∉ v.log

/-- One step of a tick; `who` is the service that may be planned for, if any. -/
inductive Step (fl : Floats) (now : UInt64) (who : Option String) (v : View) : View → Prop
  | call {turn : Option String} {req : Request} {res : Result Response} (hq : req.Quiet) :
      Step fl now who v (v.add (.call turn req res))
  | prepared {res : Result Unit} : Step fl now who v (v.add (.prepared res))
  | builtFile {svc : String} {res : Result Spec} :
      Step fl now who v (v.add (.built svc (v.ctl.file.services.get? svc) 0 res))
  | builtReplica {svc : String} {a : Applied} {st : Rollout.State} {idx : UInt32} {rev : String}
      {res : Result Spec} (hp : Plan v svc a st) (hs : .start idx rev ∈ nextStep st) :
      Step fl now who v (v.add (.built svc (some a.service) idx res))
  | tidy {c : Controller} (hc : SameCore v.ctl c) : Step fl now who v ⟨c, v.log⟩
  | adopt {svc : String} {dfn : Service} {rev : String} (hf : v.ctl.file.services.get? svc = some dfn)
      (ha : v.ctl.applied svc = none) :
      Step fl now who v ⟨v.ctl.adopt svc ⟨rev, dfn⟩, v.log⟩
  | supersede {svc : String} {dfn : Service} {cur : Applied} {rev : String}
      (hf : v.ctl.file.services.get? svc = some dfn) (ha : v.ctl.applied svc = some cur)
      (hne : cur.revision ≠ rev) (hr : v.ctl.rejected svc ≠ some rev) :
      Step fl now who v ⟨v.ctl.supersede now svc cur ⟨rev, dfn⟩, v.log ++ [.superseded svc cur.revision rev]⟩
  | kept {svc : String} {dfn : Service} {cur : Applied} {rev : String}
      (hf : v.ctl.file.services.get? svc = some dfn) (ha : v.ctl.applied svc = some cur)
      (hr : cur.revision = rev ∨ v.ctl.rejected svc = some rev) :
      Step fl now who v (v.add (.kept svc dfn rev cur))
  | sweep {svc : String} {list : List ContainerInfo} {info : ContainerInfo} {res : Result Response}
      (hl : listing svc v.ctl.file.project list ∈ v.log) (hi : info ∈ list) (hs : info.service = some svc) :
      Step fl now who v (v.add (.call (some svc) (.rm info.name true false) res))
  | decided {svc : String} {dfn : Service} {policy : Autoscale} {sc : Scaler} {current : UInt32}
      {rs : List MetricReading} (hf : v.ctl.file.services.get? svc = some dfn)
      (hp : dfn.autoscale = some policy) (hsc : sc = (v.ctl.scalers svc).getD (Scaler.new policy))
      (hcur : current = (v.ctl.desired svc).getD dfn.replicas) :
      Step fl now who v ⟨v.ctl.choose svc (sc.decide fl now current rs).2
        ((sc.decide fl now current rs).1.apply current), v.log ++ [.decided svc sc now]⟩
  | planned {svc : String} {dfn : Service} {fileRev : String} {a : Applied} {st : Rollout.State}
      (hw : who = some svc) (hfresh : Fresh v svc) (hp : CanPlan v svc dfn fileRev a st) :
      Step fl now who v (v.add (.planned svc dfn fileRev a st))
  | run {svc : String} {a : Applied} {st : Rollout.State} {idx : UInt32} {spec : Spec}
      {res : Result Response} (hp : Plan v svc a st) (hs : .start idx a.revision ∈ nextStep st)
      (hrev : spec.labels.revision = some a.revision) (hsvc : spec.labels.service = some svc) :
      Step fl now who v (v.add (.call (some svc) (.run spec) res))
  | stop {svc : String} {a : Applied} {st : Rollout.State} {idx : UInt32} {res : Result Response}
      (hp : Plan v svc a st) (hs : .drain idx ∈ nextStep st) :
      Step fl now who v (v.add (.call (some svc) (.stop (replicaName v.ctl svc idx) none) res))
  | rm {svc : String} {a : Applied} {st : Rollout.State} {idx : UInt32} {res : Result Response}
      (hp : Plan v svc a st) (hs : .drain idx ∈ nextStep st ∨ .remove idx ∈ nextStep st) :
      Step fl now who v (v.add (.call (some svc) (.rm (replicaName v.ctl svc idx) true false) res))
  | completed {svc : String} {a : Applied} {st : Rollout.State} {c : Controller} (hp : Plan v svc a st)
      (hs : .complete ∈ nextStep st) (hc : SameCore v.ctl c) :
      Step fl now who v ⟨c, v.log ++ [.completed svc a.revision]⟩
  | rollback {svc : String} {a prev : Applied} {st : Rollout.State} {revision : String}
      (hp : Plan v svc a st) (hs : .rollback revision ∈ nextStep st) (hprev : v.ctl.previous svc = some prev) :
      Step fl now who v ⟨v.ctl.rollBack now svc a.revision prev, v.log ++ [.rolledBack svc a.revision revision]⟩

/-- Any number of steps. -/
abbrev Steps (fl : Floats) (now : UInt64) (who : Option String) : View → View → Prop :=
  Relation.ReflTransGen (Step fl now who)

/-- Any number of steps, of any services in turn. -/
abbrev Path (fl : Floats) (now : UInt64) : View → View → Prop :=
  Relation.ReflTransGen fun v v' => ∃ who, Step fl now who v v'

/-- The log of a failed tick names the cause: a request, a build or the preparation that failed, or a
`Ps` that was not answered with a list. -/
def Blames (log : List Event) (e : Error) : Prop :=
  .prepared (.error e) ∈ log ∨ (∃ svc dfn idx, .built svc dfn idx (.error e) ∈ log) ∨
    (∃ turn req, .call turn req (.error e) ∈ log) ∨
      ∃ svc project r, .call (some svc) (.ps true (some project)) (.ok r) ∈ log ∧ ∀ l, r ≠ .containers l

theorem SameRevisions.refl (c : Controller) : SameRevisions c c := ⟨rfl, rfl, rfl, rfl⟩

theorem SameRevisions.trans {a b c : Controller} (h : SameRevisions a b) (h' : SameRevisions b c) :
    SameRevisions a c :=
  ⟨h'.file.trans h.file, h'.applied.trans h.applied, h'.previous.trans h.previous, h'.rejected.trans h.rejected⟩

theorem SameCore.refl (c : Controller) : SameCore c c := ⟨.refl c, rfl, rfl⟩

theorem SameCore.trans {a b c : Controller} (h : SameCore a b) (h' : SameCore b c) : SameCore a c :=
  ⟨h.toSameRevisions.trans h'.toSameRevisions, h'.scalers.trans h.scalers, h'.desired.trans h.desired⟩

theorem Plan.mono {v v' : View} {svc : String} {a : Applied} {st : Rollout.State} (h : Plan v svc a st)
    (hc : SameRevisions v.ctl v'.ctl) (hl : v.log ⊆ v'.log) : Plan v' svc a st where
  planned := by
    obtain ⟨dfn, fileRev, hp⟩ := h.planned
    exact ⟨dfn, fileRev, hl hp⟩
  applied := by rw [hc.applied, h.applied]
  target := h.target
  previous := by rw [hc.previous, h.previous]

theorem Plan.add {v : View} {svc : String} {a : Applied} {st : Rollout.State} (h : Plan v svc a st)
    (e : Event) : Plan (v.add e) svc a st :=
  h.mono (.refl _) (List.subset_append_left _ _)

section Steps
variable {fl : Floats} {now : UInt64} {who : Option String} {v v' : View}

theorem Step.file (h : Step fl now who v v') : v'.ctl.file = v.ctl.file := by
  cases h with
  | tidy hc => exact hc.file
  | completed _ _ hc => exact hc.file
  | _ => rfl

theorem Step.log_subset (h : Step fl now who v v') : v.log ⊆ v'.log := by
  cases h with
  | tidy _ => exact fun _ h => h
  | adopt _ _ => exact fun _ h => h
  | _ => exact List.subset_append_left _ _

/-- Only the service whose turn it is may get a plan. -/
theorem Step.fresh (h : Step fl now who v v') {svc : String} (hne : who ≠ some svc) (hf : Fresh v svc) :
    Fresh v' svc := by
  have hadd : ∀ e : Event, (∀ dfn fileRev a st, e ≠ .planned svc dfn fileRev a st) → Fresh (v.add e) svc := by
    intro e he dfn fileRev a st hm
    rcases List.mem_append.mp hm with hm | hm
    · exact hf dfn fileRev a st hm
    · exact he dfn fileRev a st (List.mem_singleton.mp hm).symm
  cases h with
  | tidy _ => exact hf
  | adopt _ _ => exact hf
  | planned hw _ _ =>
    refine hadd _ fun dfn fileRev a st heq => hne ?_
    cases heq
    exact hw
  | _ => exact hadd _ fun _ _ _ _ h => by cases h

/-- Without a plan a step could be anyone's. -/
theorem Step.anyone (h : Step fl now none v v') : Step fl now who v v' := by
  cases h with
  | call hq => exact .call hq
  | prepared => exact .prepared
  | builtFile => exact .builtFile
  | builtReplica hp hs => exact .builtReplica hp hs
  | tidy hc => exact .tidy hc
  | adopt hf ha => exact .adopt hf ha
  | supersede hf ha hne hr => exact .supersede hf ha hne hr
  | kept hf ha hr => exact .kept hf ha hr
  | sweep hl hi hs => exact .sweep hl hi hs
  | decided hf hp hsc hcur => exact .decided hf hp hsc hcur
  | planned hw _ _ => cases hw
  | run hp hs hrev hsvc => exact .run hp hs hrev hsvc
  | stop hp hs => exact .stop hp hs
  | rm hp hs => exact .rm hp hs
  | completed hp hs hc => exact .completed hp hs hc
  | rollback hp hs hprev => exact .rollback hp hs hprev

theorem Steps.file (h : Steps fl now who v v') : v'.ctl.file = v.ctl.file := by
  induction h with
  | refl => rfl
  | tail _ hs ih => rw [hs.file, ih]

theorem Steps.log_subset (h : Steps fl now who v v') : v.log ⊆ v'.log := by
  induction h with
  | refl => exact fun _ h => h
  | tail _ hs ih => exact fun _ h => hs.log_subset (ih h)

theorem Steps.fresh (h : Steps fl now who v v') {svc : String} (hne : who ≠ some svc) (hf : Fresh v svc) :
    Fresh v' svc := by
  induction h with
  | refl => exact hf
  | tail _ hs ih => exact hs.fresh hne ih

theorem Steps.anyone (h : Steps fl now none v v') : Steps fl now who v v' :=
  Relation.ReflTransGen.mono (fun _ _ hs => Step.anyone hs) _ _ h

theorem Steps.path (h : Steps fl now who v v') : Path fl now v v' :=
  Relation.ReflTransGen.mono (fun _ _ hs => ⟨who, hs⟩) _ _ h

end Steps
end Collocate.Control
