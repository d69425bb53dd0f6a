import Collocate.Controller.Protocol

/-! # A tick follows the protocol

The code of `tick`, function by function, against the steps of `Collocate.Controller.Protocol`. Every
statement is about the view of a machine; what the API reaches and the local variables of a tick do
not matter to it. -/
namespace Collocate.Control
open Compose Autoscaler Rollout
set_option autoImplicit false

variable {σ α β : Type} {x : Extern} {fl : Floats} {o : Host σ} {now : UInt64} {who : Option String}

/-! ## Triples on views -/

def Sat (R : View → Prop) (m : Tick σ α) (Q : α → View → Prop) (E : Error → View → Prop) : Prop :=
  Eff.Triple (fun s => R s.view) m (fun a s => Q a s.view) (fun e s => E e s.view)

variable {R R' : View → Prop} {Q : α → View → Prop} {E : Error → View → Prop}

theorem Sat.bind {m : Tick σ α} {f : α → Tick σ β} {Q' : β → View → Prop} (hm : Sat R m Q E)
    (hf : ∀ a, Sat (Q a) (f a) Q' E) : Sat R (m >>= f) Q' E :=
  Eff.Triple.bind hm hf

theorem Sat.pure {a : α} (h : ∀ v, R v → Q a v) : Sat R (pure a : Tick σ α) Q E :=
  Eff.Triple.pure fun _ hs => h _ hs

theorem Sat.throw {e : Error} (h : ∀ v, R v → E e v) : Sat R (Eff.throw e : Tick σ α) Q E :=
  Eff.Triple.throw fun _ hs => h _ hs

theorem Sat.pre {m : Tick σ α} (h : Sat R m Q E) (hR : ∀ v, R' v → R v) : Sat R' m Q E :=
  Eff.Triple.pre h fun _ hs => hR _ hs

theorem Sat.post {m : Tick σ α} {Q' : α → View → Prop} (h : Sat R m Q E) (hQ : ∀ a v, Q a v → Q' a v) :
    Sat R m Q' E :=
  Eff.Triple.post h fun _ _ hs => hQ _ _ hs

theorem Sat.fails {m : Tick σ α} {E' : Error → View → Prop} (h : Sat R m Q E) (hE : ∀ e v, E e v → E' e v) :
    Sat R m Q E' :=
  Eff.Triple.conseq h (fun _ hs => hs) (fun _ _ hs => hs) fun _ _ hs => hE _ _ hs

theorem Sat.get_bind {f : Machine σ → Tick σ α} (h : ∀ m, R m.view → Sat (fun v => v = m.view) (f m) Q E) :
    Sat R (Eff.get >>= f) Q E :=
  Eff.Triple.get_bind fun m hm => Eff.Triple.pre (h m hm) fun _ ht => by rw [ht]

/-- The view a program starts from may be fixed. -/
theorem Sat.fix {m : Tick σ α} (h : ∀ v, R v → Sat (fun w => w = v) m Q E) : Sat R m Q E :=
  fun s hs => h s.view hs s rfl

theorem Sat.attempt {m : Tick σ α} {Q : Result α → View → Prop}
    (h : Sat R m (fun a => Q (.ok a)) (fun e => Q (.error e))) : Sat R (Eff.attempt m) Q E :=
  Eff.Triple.attempt (R := fun r (s : Machine σ) => Q r s.view) h

theorem Sat.ite {p : Prop} [Decidable p] {m m' : Tick σ α} (hm : p → Sat R m Q E) (hm' : ¬ p → Sat R m' Q E) :
    Sat R (if p then m else m') Q E := by
  split
  · rename_i hp
    exact hm hp
  · rename_i hp
    exact hm' hp

theorem sat_note {e : Event} {Q : Unit → View → Prop} (h : ∀ v, R v → Q () (v.add e)) :
    Sat R (note e : Tick σ Unit) Q E :=
  Eff.Triple.modify fun _ hs => h _ hs

theorem sat_report {text : String} {Q : Unit → View → Prop} (h : ∀ v, R v → Q () v) :
    Sat R (report text : Tick σ Unit) Q E :=
  Eff.Triple.modify fun _ hs => h _ hs

theorem sat_update {f : Controller → Controller} {Q : Unit → View → Prop}
    (h : ∀ v, R v → Q () ⟨f v.ctl, v.log⟩) : Sat R (update f : Tick σ Unit) Q E :=
  Eff.Triple.modify fun _ hs => h _ hs

theorem sat_commit {f : Controller → Controller} {e : Event} {Q : Unit → View → Prop}
    (h : ∀ v, R v → Q () ⟨f v.ctl, v.log ++ [e]⟩) : Sat R (commit f e : Tick σ Unit) Q E :=
  Eff.Triple.modify fun _ hs => h _ hs

/-- Whatever the API reaches, the view stays. -/
theorem zoom_outer_keeps (m : Prog σ α) (I : View → Prop) :
    Eff.Keeps (fun s : Machine σ => I s.view) (Eff.zoom Machine.outer (fun t s => { s with outer := t }) m) := by
  refine Eff.Keeps.zoom (fun s => ?_) fun s hs => hs
  intro t ht
  rcases m t with ⟨e | a, t'⟩ <;> exact ht

theorem sat_call {turn : Option String} {req : Request} {Q : Response → View → Prop}
    (hok : ∀ v r, R v → Q r (v.add (.call turn req (.ok r))))
    (herr : ∀ v e, R v → E e (v.add (.call turn req (.error e)))) : Sat R ((host o turn).call req) Q E := by
  have hz : Eff.Triple (fun s : Machine σ => R s.view)
      (Eff.attempt (Eff.zoom Machine.outer (fun t s => { s with outer := t }) (o.call req)))
      (fun _ s => R s.view) (fun e s => E e s.view) :=
    Eff.Triple.attempt (zoom_outer_keeps (o.call req) R)
  refine Eff.Triple.bind hz fun res => ?_
  refine Eff.Triple.bind (Q := fun _ s => ∃ v, R v ∧ s.view = v.add (.call turn req res))
    (Eff.Triple.modify fun s hs => ⟨s.view, hs, rfl⟩) fun _ => ?_
  refine Eff.Triple.lift ?_ ?_
  · rintro r s ⟨v, hv, hs⟩ rfl
    rw [hs]
    exact hok v r hv
  · rintro e s ⟨v, hv, hs⟩ rfl
    rw [hs]
    exact herr v e hv

theorem host_keeps {I : View → Prop} (turn : Option String)
    (h : ∀ v req res, Request.Quiet req → I v → I (v.add (.call turn req res))) :
    (host o turn).Keeps fun s => I s.view where
  call req hq := sat_call (fun v _ hv => h v req _ hq hv) (fun v _ hv => h v req _ hq hv)
  readToString _ := zoom_outer_keeps _ I
  newId := zoom_outer_keeps _ I
  now := zoom_outer_keeps _ I

theorem sat_build {I : View → Prop} {file : ComposeFile} {svc : String} {idx : UInt32}
    (hcall : ∀ v turn req res, Request.Quiet req → I v → I (v.add (.call turn req res)))
    (hbuilt : ∀ v res, I v → I (v.add (.built svc (file.services.get? svc) idx res))) :
    Sat I (build x o file svc idx)
      (fun spec v => I v ∧ spec.labels.service = some svc ∧ .built svc (file.services.get? svc) idx (.ok spec) ∈ v.log)
      (fun e v => I v ∧ Blames v.log e) := by
  refine Sat.get_bind fun m hm => ?_
  have hk : Eff.Keeps (fun s : Machine σ => I s.view)
      (m.build.spec x (host o (some svc)) file m.ctl.opts svc idx) :=
    BuildState.spec_keeps
      ((host_keeps _ fun v req res hq hv => hcall v _ req res hq hv).building.mono fun _ hr => hr.building) _ _ _ _ _
  have ht := hk.with_result (F := fun r => r.1.labels.service = some svc) fun s r s' hr =>
    BuildState.spec_service hr
  refine Eff.Triple.bind (Q := fun r s => I s.view ∧ ∀ p, r = .ok p → p.1.labels.service = some svc) ?_ fun r => ?_
  · refine Eff.Triple.attempt (Eff.Triple.conseq ht ?_ ?_ ?_)
    · rintro s hs
      rw [hs]
      exact hm
    · rintro a s ⟨hs, ha⟩
      refine ⟨hs, ?_⟩
      rintro p hp
      cases hp
      exact ha
    · rintro e s hs
      exact ⟨hs, by rintro p hp; cases hp⟩
  refine Eff.Triple.bind (Q := fun _ s => ∃ v, (I v ∧ ∀ p, r = .ok p → p.1.labels.service = some svc) ∧
    s.view = v.add (.built svc (file.services.get? svc) idx (r.map Prod.fst)))
    (Eff.Triple.modify fun s hs => ⟨s.view, hs, rfl⟩) fun _ => ?_
  cases r with
  | error e =>
    refine Eff.Triple.throw ?_
    rintro s ⟨v, ⟨hv, -⟩, hs⟩
    rw [hs]
    exact ⟨hbuilt v _ hv, Or.inr (Or.inl ⟨svc, _, idx, List.mem_append_right _ (List.mem_singleton_self _)⟩)⟩
  | ok p =>
    obtain ⟨spec, st⟩ := p
    refine Eff.Triple.bind (Q := fun _ s => I s.view ∧ spec.labels.service = some svc ∧
        .built svc (file.services.get? svc) idx (.ok spec) ∈ s.view.log)
      (Eff.Triple.modify ?_) fun _ => Eff.Triple.pure fun s hs => hs
    rintro s ⟨v, ⟨hv, hl⟩, hs⟩
    show I s.view ∧ _ ∧ _ ∈ s.view.log
    rw [hs]
    exact ⟨hbuilt v _ hv, hl _ rfl, List.mem_append_right _ (List.mem_singleton_self _)⟩

/-! ## Observing -/

variable (fl now who) in
/-- What holds while a service is observed: the controller's core stands, and the listing is in the
log. -/
structure Watching (v₀ : View) (c : Controller) (svc : String) (list : List ContainerInfo) (v : View) :
    Prop where
  steps : Steps fl now who v₀ v
  core : SameCore c v.ctl
  listed : listing svc c.file.project list ∈ v.log

variable (fl now who) in
def Fails (v₀ : View) (e : Error) (v : View) : Prop := Steps fl now who v₀ v ∧ Blames v.log e

variable {v₀ v : View} {c : Controller} {svc : String} {list : List ContainerInfo}

theorem Watching.tidy (h : Watching fl now who v₀ c svc list v) {c' : Controller} (hc : SameCore v.ctl c') :
    Watching fl now who v₀ c svc list ⟨c', v.log⟩ where
  steps := h.steps.tail (.tidy hc)
  core := h.core.trans hc
  listed := h.listed

theorem Watching.add (h : Watching fl now who v₀ c svc list v) {e : Event} (hs : Step fl now who v (v.add e)) :
    Watching fl now who v₀ c svc list (v.add e) where
  steps := h.steps.tail hs
  core := h.core
  listed := List.mem_append_left _ h.listed

theorem blames_call (v : View) (turn : Option String) (req : Request) (e : Error) :
    Blames (v.add (.call turn req (.error e))).log e :=
  Or.inr (Or.inr (Or.inl ⟨turn, req, List.mem_append_right _ (List.mem_singleton_self _)⟩))

theorem sat_observeOne {info : ContainerInfo} (hi : info ∈ list) (hs : info.service = some svc)
    (revision : String) (index : UInt32) :
    Sat (Watching fl now who v₀ c svc list) (observeOne o svc revision now index info)
      (fun r v => Watching fl now who v₀ c svc list v ∧ ∀ r', r = some r' → info.state = .running ∧ r'.index = index ∧
        r'.lifecycle = .live)
      (Fails fl now who v₀) := by
  have htail : Sat (Watching fl now who v₀ c svc list) (do
      let _ ← (host o (some svc)).call (.rm info.name true false)
      update fun c => { c with healthySince := Function.update c.healthySince info.name none }
      pure none : Tick σ (Option Replica))
      (fun r v => Watching fl now who v₀ c svc list v ∧ ∀ r', r = some r' → info.state = .running ∧ r'.index = index ∧
        r'.lifecycle = .live)
      (Fails fl now who v₀) := by
    have hsweep : ∀ v res, Watching fl now who v₀ c svc list v →
        Step fl now who v (v.add (.call (some svc) (.rm info.name true false) res)) := by
      intro v res hv
      exact .sweep (by rw [hv.core.file]; exact hv.listed) hi hs
    refine Sat.bind (Q := fun _ => Watching fl now who v₀ c svc list)
      (sat_call (fun v r hv => hv.add (hsweep v _ hv)) fun v e hv => ?_) fun _ => ?_
    · exact ⟨(hv.add (hsweep v _ hv)).steps, blames_call _ _ _ _⟩
    · refine Sat.bind (Q := fun _ => Watching fl now who v₀ c svc list)
        (sat_update fun v hv => hv.tidy ⟨⟨rfl, rfl, rfl, rfl⟩, rfl, rfl⟩) fun _ => ?_
      exact Sat.pure fun v hv => ⟨hv, by simp⟩
  unfold observeOne
  refine Sat.ite (fun _ => ?_) fun hrun => ?_
  · refine Sat.ite (fun _ => ?_) fun _ => htail
    refine Sat.bind (Q := fun _ => Watching fl now who v₀ c svc list)
      (sat_update fun v hv => hv.tidy ⟨⟨rfl, rfl, rfl, rfl⟩, rfl, rfl⟩) fun _ => ?_
    exact Sat.bind (Q := fun _ => Watching fl now who v₀ c svc list) (sat_report fun v hv => hv) fun _ => htail
  · refine Sat.get_bind fun m hm => ?_
    refine Sat.bind (Q := fun _ => Watching fl now who v₀ c svc list) (sat_update fun v hv => ?_) fun _ => ?_
    · subst hv
      refine hm.tidy ?_
      unfold trackHealth
      split <;> exact ⟨⟨rfl, rfl, rfl, rfl⟩, rfl, rfl⟩
    · refine Sat.pure fun v hv => ⟨hv, ?_⟩
      rintro r' hr
      cases hr
      exact ⟨not_not.mp hrun, rfl, rfl⟩

theorem sat_observeAll (revision : String) (infos : List ContainerInfo)
    (hi : ∀ info ∈ infos, info ∈ list ∧ info.service = some svc) :
    Sat (Watching fl now who v₀ c svc list) (observeAll o c.file.project svc revision now infos)
      (fun rs v => Watching fl now who v₀ c svc list v ∧ ∀ r ∈ rs, SeenIn c.file.project svc list r)
      (Fails fl now who v₀) := by
  induction infos with
  | nil => exact Sat.pure fun v hv => ⟨hv, by simp⟩
  | cons info infos ih =>
    have ih := ih fun i hm => hi i (List.mem_cons_of_mem _ hm)
    obtain ⟨hmem, hsvc⟩ := hi info (List.mem_cons_self ..)
    unfold observeAll
    split
    · exact ih
    · rename_i index hidx
      refine Sat.bind (sat_observeOne hmem hsvc revision index) fun r => ?_
      refine Sat.bind (Q := fun rs v =>
        (Watching fl now who v₀ c svc list v ∧ ∀ r ∈ rs, SeenIn c.file.project svc list r) ∧
          ∀ r', r = some r' → info.state = .running ∧ r'.index = index ∧ r'.lifecycle = .live) ?_ fun rs => ?_
      · intro s hs
        have h := ih s hs.1
        rcases hr : observeAll o c.file.project svc revision now infos s with ⟨e | rs, s'⟩ <;> rw [hr] at h
        · exact h
        · exact ⟨h, hs.2⟩
      · refine Sat.pure ?_
        rintro v ⟨⟨hv, hrs⟩, hr⟩
        refine ⟨hv, fun r' hr' => ?_⟩
        rcases List.mem_append.mp hr' with hr' | hr'
        · obtain ⟨hrun, hix, hlive⟩ := hr r' (Option.mem_toList.mp hr')
          exact ⟨info, hmem, hsvc, hrun, by rw [hix]; exact hidx, hlive⟩
        · exact hrs r' hr'

theorem sat_containers {project : String} (hR : ∀ v, R v → Steps fl now who v₀ v) :
    Sat R (containers x (host o (some svc)) project)
      (fun list v => ∃ v', R v' ∧ v = v'.add (listing svc project list)) (Fails fl now who v₀) := by
  refine Sat.bind (Q := fun r v => ∃ v', R v' ∧ v = v'.add (.call (some svc) (.ps true (some project)) (.ok r)))
    (sat_call (fun v r hv => ⟨v, hv, rfl⟩) fun v e hv => ?_) fun r => ?_
  · exact ⟨(hR v hv).tail (.call trivial), blames_call _ _ _ _⟩
  cases r with
  | containers list => exact Sat.pure fun v hv => hv
  | _ =>
    refine Sat.throw ?_
    rintro v ⟨v', hv, rfl⟩
    refine ⟨(hR v' hv).tail (.call trivial), Or.inr (Or.inr (Or.inr ?_))⟩
    exact ⟨svc, project, _, List.mem_append_right _ (List.mem_singleton_self _), fun l h => by cases h⟩

theorem sat_observe (revision : String) :
    Sat (fun v => Steps fl now who v₀ v ∧ SameCore c v.ctl) (observe x o svc revision now)
      (fun rs v => Steps fl now who v₀ v ∧ SameCore c v.ctl ∧ Observed v svc revision rs) (Fails fl now who v₀) := by
  refine Sat.get_bind fun m hm => ?_
  refine Sat.bind (sat_containers ?_) fun list => ?_
  · rintro v rfl
    exact hm.1
  refine Sat.bind (Q := fun rs v => Watching fl now who v₀ m.ctl svc list v ∧
    ∀ r ∈ rs, SeenIn m.ctl.file.project svc list r) ?_ fun rs => ?_
  · refine (sat_observeAll revision _ fun info hinfo => ?_).pre ?_
    · simpa using hinfo
    · rintro v ⟨v', rfl, rfl⟩
      exact ⟨hm.1.tail (.call trivial), .refl _, List.mem_append_right _ (List.mem_singleton_self _)⟩
  refine Sat.get_bind fun m' hm' => ?_
  have hdone : ∀ rs', ObservedIn m.ctl.file.project svc revision list rs' →
      Steps fl now who v₀ m'.view ∧ SameCore c m'.ctl ∧ Observed m'.view svc revision rs' := by
    intro rs' hrs'
    refine ⟨hm'.1.steps, hm.2.trans hm'.1.core, list, ?_⟩
    have hfile : m'.view.ctl.file = m.ctl.file := hm'.1.core.file
    rw [hfile]
    exact ⟨hm'.1.listed, hrs'⟩
  refine Sat.ite (fun hcond => ?_) fun _ => ?_
  · refine Sat.pure ?_
    rintro v rfl
    simp only [Bool.and_eq_true, List.any_eq_true, bne_iff_ne] at hcond
    exact hdone _ (Or.inr ⟨rs, rfl, hm'.2, hcond.2⟩)
  · refine Sat.pure ?_
    rintro v rfl
    exact hdone _ (Or.inl hm'.2)

/-! ## Scaling and bookkeeping -/

theorem Observed.mono {v v' : View} {svc target : String} {rs : List Replica} (h : Observed v svc target rs)
    (hf : v'.ctl.file = v.ctl.file) (hl : v.log ⊆ v'.log) : Observed v' svc target rs := by
  obtain ⟨list, hlist, ho⟩ := h
  refine ⟨list, ?_, ?_⟩
  · rw [hf]
    exact hl hlist
  · rw [hf]
    exact ho

theorem sat_reportWhen {p : Prop} [Decidable p] {text : String} :
    Sat R (reportWhen p text : Tick σ Unit) (fun _ => R) E :=
  Sat.ite (fun _ => sat_report fun _ hv => hv) fun _ => Sat.pure fun _ hv => hv

theorem sat_readings {I : View → Prop} (stats : List ContainerStats)
    (h : ∀ v c', I v → SameCore v.ctl c' → I ⟨c', v.log⟩) :
    Sat I (readings fl stats svc now : Tick σ (List MetricReading)) (fun _ => I) E := by
  refine Sat.get_bind fun m hm => ?_
  refine Sat.bind (Q := fun _ => I) (sat_update fun v hv => ?_) fun _ => Sat.pure fun v hv => hv
  subst hv
  exact h _ _ hm ⟨⟨rfl, rfl, rfl, rfl⟩, rfl, rfl⟩

/-- The chosen count is the one the controller remembers, or the file's. -/
theorem sat_chooseDesired {dfn : Service} {target : String} {rs : List Replica} (stats : List ContainerStats)
    (rolling : Bool) (hf : c.file.services.get? svc = some dfn) :
    Sat (fun v => Steps fl now who v₀ v ∧ SameCore c v.ctl ∧ Observed v svc target rs)
      (chooseDesired fl stats svc dfn rolling now : Tick σ UInt32)
      (fun d v => Steps fl now who v₀ v ∧ SameRevisions c v.ctl ∧ Observed v svc target rs ∧
        d = (v.ctl.desired svc).getD dfn.replicas) (Fails fl now who v₀) := by
  refine Sat.get_bind fun m hm => ?_
  split
  · rename_i policy hp
    refine Sat.bind (Q := fun _ v => Steps fl now who v₀ v ∧ SameCore m.ctl v.ctl ∧ Observed v svc target rs)
      ((sat_readings stats fun v c' hv hc => ?_).pre ?_) fun readings => ?_
    · exact ⟨hv.1.tail (.tidy hc), hv.2.1.trans hc, hv.2.2.mono hc.file fun _ h => h⟩
    · rintro v rfl
      exact ⟨hm.1, .refl _, hm.2.2⟩
    refine Sat.bind sat_reportWhen fun _ => Sat.bind (sat_commit ?_) fun _ => Sat.pure fun v hv => hv
    rintro v ⟨hs, hcore, hobs⟩
    have hfile : v.ctl.file.services.get? svc = some dfn := by
      rw [hcore.file, show m.ctl.file = c.file from hm.2.1.file]
      exact hf
    refine ⟨hs.tail (.decided hfile hp (by rw [hcore.scalers]) (by rw [hcore.desired])), ?_, ?_, ?_⟩
    · exact hm.2.1.toSameRevisions.trans (hcore.toSameRevisions.trans ⟨rfl, rfl, rfl, rfl⟩)
    · exact hobs.mono rfl (List.subset_append_left _ _)
    · simp
  · refine Sat.pure ?_
    rintro v rfl
    exact ⟨hm.1, hm.2.1.toSameRevisions, hm.2.2, rfl⟩

/-- What the bookkeeping leaves: the service has an applied definition, the file's own or the one kept. -/
structure Basis (v : View) (svc : String) (dfn : Service) (fileRev : String) (a : Applied) : Prop where
  file : v.ctl.file.services.get? svc = some dfn
  applied : v.ctl.applied svc = some a
  basis : a = ⟨fileRev, dfn⟩ ∨ .kept svc dfn fileRev a ∈ v.log

theorem sat_bookkeep {dfn : Service} {fileRev : String} :
    Sat (fun v => Steps fl now who v₀ v ∧ v.ctl.file.services.get? svc = some dfn)
      (bookkeep now svc dfn fileRev : Tick σ Unit)
      (fun _ v => Steps fl now who v₀ v ∧ ∃ a, Basis v svc dfn fileRev a) (Fails fl now who v₀) := by
  refine Sat.get_bind fun m hm => ?_
  split
  · rename_i hnone
    refine sat_update ?_
    rintro v rfl
    exact ⟨hm.1.tail (.adopt hm.2 hnone), ⟨fileRev, dfn⟩, hm.2, by simp, Or.inl rfl⟩
  · rename_i cur hcur
    refine Sat.ite (fun hne => ?_) fun heq => ?_
    · refine Sat.bind (sat_commit ?_) fun _ => sat_report fun v hv => hv
      rintro v rfl
      exact ⟨hm.1.tail (.supersede hm.2 hcur hne.1 hne.2), ⟨fileRev, dfn⟩, hm.2, by simp, Or.inl rfl⟩
    · refine sat_note ?_
      rintro v rfl
      have hr : cur.revision = fileRev ∨ m.ctl.rejected svc = some fileRev := by
        by_contra hn
        push Not at hn
        exact heq hn
      exact ⟨hm.1.tail (.kept hm.2 hcur hr), cur, hm.2, hcur,
        Or.inr (List.mem_append_right _ (List.mem_singleton_self _))⟩

/-! ## Carrying out a plan -/

variable (fl now who) in
/-- What holds while a plan is carried out. -/
structure Executing (v₀ : View) (svc : String) (a : Applied) (st : Rollout.State) (v : View) : Prop where
  steps : Steps fl now who v₀ v
  plan : Plan v svc a st

variable {a : Applied} {st : Rollout.State}

theorem Executing.add (h : Executing fl now who v₀ svc a st v) {e : Event} (hs : Step fl now who v (v.add e)) :
    Executing fl now who v₀ svc a st (v.add e) :=
  ⟨h.steps.tail hs, h.plan.add e⟩

theorem Executing.tidy (h : Executing fl now who v₀ svc a st v) {c' : Controller} (hc : SameCore v.ctl c') :
    Executing fl now who v₀ svc a st ⟨c', v.log⟩ :=
  ⟨h.steps.tail (.tidy hc), h.plan.mono hc.toSameRevisions fun _ hx => hx⟩

/-- A request that the plan allows. -/
theorem sat_planned_call {req : Request}
    (hs : ∀ v res, Executing fl now who v₀ svc a st v → Step fl now who v (v.add (.call (some svc) req res))) :
    Sat (Executing fl now who v₀ svc a st) ((host o (some svc)).call req)
      (fun _ => Executing fl now who v₀ svc a st) (Fails fl now who v₀) :=
  sat_call (fun v _ hv => hv.add (hs v _ hv)) fun v _ hv => ⟨(hv.add (hs v _ hv)).steps, blames_call _ _ _ _⟩

theorem effectiveFile_get? {c : Controller} (h : c.applied svc = some a) :
    (c.effectiveFile svc).services.get? svc = some a.service := by
  simp [Controller.effectiveFile, h]

theorem sat_start {idx : UInt32} {revision : String} (hs : .start idx revision ∈ nextStep st) :
    Sat (Executing fl now who v₀ svc a st) (start x o now svc idx revision) (fun _ => Executing fl now who v₀ svc a st)
      (Fails fl now who v₀) := by
  refine Sat.get_bind fun m hm => ?_
  have hrev : revision = a.revision := (start_mem hs).1.trans hm.plan.target
  subst hrev
  have hb := sat_build (x := x) (o := o) (I := Executing fl now who v₀ svc a st)
   
    (fun v turn req res hq hv => hv.add (.call hq)) fun v res hv => by
      rw [effectiveFile_get? (show m.ctl.applied svc = some a from hm.plan.applied)]
      exact hv.add (.builtReplica hv.plan hs)
  refine Sat.bind (Q := fun spec v => Executing fl now who v₀ svc a st v ∧ spec.labels.service = some svc) ?_
    fun spec => ?_
  · refine Eff.Triple.conseq hb ?_ (fun _ _ h => ⟨h.1, h.2.1⟩) ?_
    · rintro s hs'
      rw [hs']
      exact hm
    · rintro e s ⟨hv, hbl⟩
      exact ⟨hv.steps, hbl⟩
  refine Sat.ite (fun hlab => ?_) fun _ => Sat.pure fun v hv => hv.1
  have hcall : Sat (fun v => Executing fl now who v₀ svc a st v ∧ spec.labels.service = some svc)
      (Eff.attempt ((host o (some svc)).call (.run spec)) : Tick σ (Result Response))
      (fun _ => Executing fl now who v₀ svc a st) (Fails fl now who v₀) := by
    have hrun : ∀ v res, (Executing fl now who v₀ svc a st v ∧ spec.labels.service = some svc) →
        Executing fl now who v₀ svc a st (v.add (.call (some svc) (.run spec) res)) :=
      fun v res hv => hv.1.add (.run hv.1.plan hs hlab hv.2)
    exact Sat.attempt (sat_call (fun v _ hv => hrun v _ hv) fun v _ hv => hrun v _ hv)
  refine Sat.bind hcall fun res => ?_
  split
  · refine Sat.bind (Q := fun _ => Executing fl now who v₀ svc a st) (sat_report fun v hv => hv) fun _ => ?_
    exact sat_update fun v hv => hv.tidy ⟨⟨rfl, rfl, rfl, rfl⟩, rfl, rfl⟩
  · exact sat_report fun v hv => hv

theorem Executing.name_eq (h : Executing fl now who v₀ svc a st v) (svc' : String) (idx : UInt32) :
    replicaName v.ctl svc' idx = replicaName v₀.ctl svc' idx := by
  rw [replicaName, replicaName, h.steps.file]

theorem sat_drain {idx : UInt32} (hs : .drain idx ∈ nextStep st) :
    Sat (Executing fl now who v₀ svc a st) (drain o now svc idx) (fun _ => Executing fl now who v₀ svc a st)
      (Fails fl now who v₀) := by
  refine Sat.get_bind fun m hm => ?_
  have hname : ∀ v, Executing fl now who v₀ svc a st v → replicaName m.ctl svc idx = replicaName v.ctl svc idx :=
    fun v hv => (hm.name_eq svc idx).trans (hv.name_eq svc idx).symm
  refine Sat.bind ((sat_planned_call fun v res hv => ?_).pre fun v hv => hv ▸ hm) fun _ => ?_
  · rw [hname v hv]
    exact .stop hv.plan hs
  refine Sat.bind (sat_planned_call fun v res hv => ?_) fun _ => ?_
  · rw [hname v hv]
    exact .rm hv.plan (Or.inl hs)
  refine Sat.bind (Q := fun _ => Executing fl now who v₀ svc a st) (sat_update fun v hv => ?_) fun _ =>
    sat_report fun v hv => hv
  exact hv.tidy ⟨⟨rfl, rfl, rfl, rfl⟩, rfl, rfl⟩

theorem sat_remove {idx : UInt32} (hs : .remove idx ∈ nextStep st) :
    Sat (Executing fl now who v₀ svc a st) (remove o svc idx) (fun _ => Executing fl now who v₀ svc a st)
      (Fails fl now who v₀) := by
  refine Sat.get_bind fun m hm => ?_
  refine Sat.bind ((sat_planned_call fun v res hv => ?_).pre fun v hv => hv ▸ hm) fun _ => Sat.pure fun v hv => hv
  rw [show replicaName m.ctl svc idx = replicaName v.ctl svc idx from
    (hm.name_eq svc idx).trans (hv.name_eq svc idx).symm]
  exact .rm hv.plan (Or.inr hs)

theorem sat_rollback {revision : String} (hs : .rollback revision ∈ nextStep st) :
    Sat (Executing fl now who v₀ svc a st) (rollback now svc a revision : Tick σ Unit)
      (fun _ v => Steps fl now who v₀ v) (Fails fl now who v₀) := by
  refine Sat.get_bind fun m hm => ?_
  split
  · exact Sat.pure fun v hv => hv ▸ hm.steps
  · rename_i prev hprev
    refine Sat.bind (Q := fun _ v => v = m.view) (sat_report fun v hv => hv) fun _ => sat_commit ?_
    rintro v rfl
    exact hm.steps.tail (.rollback hm.plan hs hprev)

/-- Every action but a rollback leaves the plan standing. -/
theorem sat_act {action : Action} (hs : action ∈ nextStep st) (hne : ∀ revision, action ≠ .rollback revision) :
    Sat (Executing fl now who v₀ svc a st) (act x o now svc a action) (fun _ => Executing fl now who v₀ svc a st)
      (Fails fl now who v₀) := by
  cases action with
  | start idx revision => exact sat_start hs
  | drain idx => exact sat_drain hs
  | remove idx => exact sat_remove hs
  | rollback revision => exact absurd rfl (hne revision)
  | pause reason =>
    refine Sat.bind (Q := fun _ => Executing fl now who v₀ svc a st) (sat_report fun v hv => hv) fun _ => ?_
    exact sat_update fun v hv => hv.tidy ⟨⟨rfl, rfl, rfl, rfl⟩, rfl, rfl⟩
  | complete =>
    refine Sat.get_bind fun m hm => Sat.bind sat_reportWhen fun _ => sat_commit ?_
    rintro v rfl
    exact ⟨hm.steps.tail (.completed hm.plan hs ⟨⟨rfl, rfl, rfl, rfl⟩, rfl, rfl⟩),
      hm.plan.mono ⟨rfl, rfl, rfl, rfl⟩ (List.subset_append_left _ _)⟩

theorem sat_actions :
    Sat (Executing fl now who v₀ svc a st) ((nextStep st).forM (act x o now svc a)) (fun _ v => Steps fl now who v₀ v)
      (Fails fl now who v₀) := by
  by_cases hroll : ∃ revision, .rollback revision ∈ nextStep st
  · obtain ⟨revision, hs⟩ := hroll
    rw [(rollback_mem hs).2]
    exact Sat.bind (sat_rollback hs) fun _ => Sat.pure fun v hv => hv
  · have hloop : ∀ as : List Action, (∀ action ∈ as, action ∈ nextStep st) →
        Sat (Executing fl now who v₀ svc a st) (as.forM (act x o now svc a)) (fun _ => Executing fl now who v₀ svc a st)
          (Fails fl now who v₀) := by
      intro as has
      induction as with
      | nil => exact Sat.pure fun v hv => hv
      | cons action as ih =>
        have hmem := has action (List.mem_cons_self ..)
        refine Sat.bind (sat_act hmem fun revision heq => hroll ⟨revision, heq ▸ hmem⟩) fun _ => ?_
        exact ih fun b hb => has b (List.mem_cons_of_mem _ hb)
    exact (hloop _ fun _ h => h).post fun _ v hv => hv.steps

/-! ## The whole tick -/

theorem Fails.extend {e : Error} (hst : Steps fl now who v₀ v) {w : View} (h : Fails fl now who v e w) :
    Fails fl now who v₀ e w :=
  ⟨hst.trans h.1, h.2⟩

theorem Fails.anyone {e : Error} {w : View} (h : Fails fl now none v e w) : Fails fl now who v e w :=
  ⟨h.1.anyone, h.2⟩

theorem sat_reconcile {dfn : Service} {fileRev : String} (stats : List ContainerStats)
    (hbasis : Basis v svc dfn fileRev a) (hfresh : Fresh v svc) :
    Sat (fun w => w = v) (reconcile x fl o stats now svc dfn fileRev a) (fun _ w => Steps fl now (some svc) v w)
      (Fails fl now (some svc) v) := by
  have hobserve : Sat (fun w => w = v) (observe x o svc a.revision now)
      (fun rs w => Steps fl now none v w ∧ SameCore v.ctl w.ctl ∧ Observed w svc a.revision rs) (Fails fl now none v) :=
    (sat_observe a.revision).pre fun w hw => by
      subst hw
      exact ⟨.refl, .refl _⟩
  refine Sat.bind (hobserve.fails fun _ _ h => h.anyone) fun rs => ?_
  refine Sat.bind ((sat_chooseDesired stats _ hbasis.file).fails fun _ _ h => h.anyone) fun d => ?_
  refine Sat.get_bind fun m hm => ?_
  obtain ⟨hst, hrev, hobs, hd⟩ := hm
  have happ : m.view.ctl.applied svc = some a := by
    rw [hrev.applied]
    exact hbasis.applied
  have hfile : m.view.ctl.file.services.get? svc = some dfn := by
    rw [hrev.file]
    exact hbasis.file
  have hcan : CanPlan m.view svc dfn fileRev a (planState m.ctl now svc a d rs) :=
    ⟨hfile, happ, hbasis.basis.imp id fun hk => hst.log_subset hk, rfl, rfl, rfl, hd, rfl, hobs⟩
  refine Sat.bind (Q := fun _ => Executing fl now (some svc) v svc a (planState m.ctl now svc a d rs))
    (sat_note ?_) fun _ => sat_actions
  rintro w rfl
  exact ⟨hst.anyone.tail (.planned rfl (hst.fresh (by simp) hfresh) hcan),
    ⟨dfn, fileRev, List.mem_append_right _ (List.mem_singleton_self _)⟩, happ, rfl, rfl⟩

theorem sat_manage {dfn : Service} {fileRev : String} (stats : List ContainerStats)
    (hf : v.ctl.file.services.get? svc = some dfn) (hfresh : Fresh v svc) :
    Sat (fun w => w = v) (manage x fl o stats now svc dfn fileRev) (fun _ w => Steps fl now (some svc) v w)
      (Fails fl now (some svc) v) := by
  have hbook : Sat (fun w => w = v) (bookkeep now svc dfn fileRev : Tick σ Unit)
      (fun _ w => Steps fl now none v w ∧ ∃ a, Basis w svc dfn fileRev a) (Fails fl now none v) :=
    sat_bookkeep.pre fun w hw => by
      subst hw
      exact ⟨.refl, hf⟩
  refine Sat.bind (hbook.fails fun _ _ h => h.anyone) fun _ => Sat.get_bind fun m hm => ?_
  obtain ⟨hst, a, ha⟩ := hm
  rw [show m.ctl.applied svc = some a from ha.applied]
  cases m.ctl.paused svc with
  | false =>
    refine Eff.Triple.conseq (sat_reconcile stats ha (hst.fresh (by simp) hfresh)) (fun _ h => h)
      (fun _ _ h => hst.anyone.trans h) ?_
    exact fun _ _ h => Fails.extend hst.anyone h
  | true => exact Sat.pure fun w hw => hw ▸ hst.anyone

/-- The service had its turn: its spec was built from the file. -/
def Visited (file : ComposeFile) (log : List Event) (svc : String) : Prop :=
  ∃ spec, .built svc (file.services.get? svc) 0 (.ok spec) ∈ log

theorem sat_turn (stats : List ContainerStats) (hsvc : (v.ctl.file.services.get? svc).isSome)
    (hfresh : Fresh v svc) :
    Sat (fun w => w = v) (turn x fl o stats now svc)
      (fun _ w => Steps fl now (some svc) v w ∧ Visited v.ctl.file w.log svc) (Fails fl now (some svc) v) := by
  refine Sat.get_bind fun m hm => ?_
  subst hm
  obtain ⟨dfn, hdfn⟩ := Option.isSome_iff_exists.mp hsvc
  rw [show m.ctl.file.services.get? svc = some dfn from hdfn]
  have hb : Sat (Steps fl now none m.view) (build x o m.ctl.file svc 0) _ _ :=
    sat_build (fun w turn req res hq hw => hw.tail (.call hq)) fun w res hw => by
      rw [show m.ctl.file = w.ctl.file from hw.file.symm]
      exact hw.tail .builtFile
  have hb' : Sat (fun w => w = m.view) (build x o m.ctl.file svc 0) _ _ := hb.pre fun w hw => by
    subst hw
    exact .refl
  refine Sat.bind (hb'.fails fun _ _ h => ⟨h.1.anyone, h.2⟩) fun spec => Sat.fix fun w hw => ?_
  obtain ⟨hst, -, hbuilt⟩ := hw
  have hf : w.ctl.file.services.get? svc = some dfn := by
    rw [hst.file]
    exact hdfn
  refine Eff.Triple.conseq (sat_manage stats hf (hst.fresh (by simp) hfresh)) (fun _ h => h) (fun _ _ h => ?_)
    fun _ _ h => Fails.extend hst.anyone h
  exact ⟨hst.anyone.trans h, spec, Steps.log_subset h hbuilt⟩

/-- A failed tick: a path, and a log that says why. -/
def Breaks (fl : Floats) (now : UInt64) (v : View) (e : Error) (w : View) : Prop := Path fl now v w ∧ Blames w.log e

theorem Path.file {w : View} (h : Path fl now v w) : w.ctl.file = v.ctl.file := by
  induction h with
  | refl => rfl
  | tail _ hs ih =>
    obtain ⟨_, hs⟩ := hs
    rw [hs.file, ih]

theorem Path.log_subset {w : View} (h : Path fl now v w) : v.log ⊆ w.log := by
  induction h with
  | refl => exact fun _ h => h
  | tail _ hs ih =>
    obtain ⟨_, hs⟩ := hs
    exact fun _ h => hs.log_subset (ih h)

theorem sat_turns (stats : List ContainerStats) (order : List String) (hnodup : order.Nodup)
    (horder : ∀ svc ∈ order, (v.ctl.file.services.get? svc).isSome) (hfresh : ∀ svc ∈ order, Fresh v svc) :
    Sat (fun w => w = v) (order.forM (turn x fl o stats now))
      (fun _ w => Path fl now v w ∧ ∀ svc ∈ order, Visited v.ctl.file w.log svc) (Breaks fl now v) := by
  induction order generalizing v with
  | nil => exact Sat.pure fun w hw => ⟨hw ▸ .refl, by simp⟩
  | cons svc order ih =>
    obtain ⟨hnot, hnodup⟩ := List.nodup_cons.mp hnodup
    refine Sat.bind ((sat_turn stats (horder svc (List.mem_cons_self ..)) (hfresh svc (List.mem_cons_self ..))).fails
      fun _ _ h => ⟨h.1.path, h.2⟩) fun _ => Sat.fix fun w hw => ?_
    obtain ⟨hst, hvis⟩ := hw
    have hrest := ih (v := w) hnodup
      (fun s hs => by
        rw [hst.file]
        exact horder s (List.mem_cons_of_mem _ hs))
      fun s hs => by
        refine hst.fresh ?_ (hfresh s (List.mem_cons_of_mem _ hs))
        rintro heq
        cases heq
        exact hnot hs
    refine Eff.Triple.conseq hrest (fun _ h => h) (fun _ u h => ?_) fun _ _ h => ⟨hst.path.trans h.1, h.2⟩
    refine ⟨hst.path.trans h.1, fun s hs => ?_⟩
    rcases List.mem_cons.mp hs with rfl | hs
    · obtain ⟨spec, hspec⟩ := hvis
      exact ⟨spec, Path.log_subset h.1 hspec⟩
    · rw [← hst.file]
      exact h.2 s hs

theorem order_services {file : ComposeFile} {order : List String}
    (h : topoOrder file.dependencyGraph = .ok order) (svc : String) :
    svc ∈ order ↔ (file.services.get? svc).isSome := by
  rw [(topoOrder_spec h).2, ComposeFile.dependencyGraph, OrdMap.keys_mapValues, OrdMap.mem_keys,
    Option.isSome_iff_exists]

theorem sat_prepare :
    Sat (fun w => w = v) (prepare x o)
      (fun _ w => Steps fl now none v w ∧ ∃ order, topoOrder v.ctl.file.dependencyGraph = .ok order)
      (Fails fl now none v) := by
  refine Sat.get_bind fun m hm => ?_
  subst hm
  have hnew : Eff.Keeps (fun s : Machine σ => Steps fl now none m.view s.view)
      (BuildState.new x (host o none) m.ctl.file m.ctl.opts) :=
    BuildState.new_keeps (host_keeps none fun w req res hq hw => hw.tail (.call hq)).building _ _
  refine Sat.bind (Q := fun r w => Steps fl now none m.view w ∧
      ∀ st, r = .ok st → ∃ order, topoOrder m.ctl.file.dependencyGraph = .ok order) ?_ fun r => ?_
  · refine Sat.attempt (Eff.Triple.conseq (hnew.with_result fun s st s' h => ⟨st.order, BuildState.new_topo h⟩)
      (fun s hs => ?_) (fun st s h => ⟨h.1, fun _ _ => h.2⟩) fun e s h => ⟨h, fun st h' => by cases h'⟩)
    rw [hs]
  refine Sat.bind (Q := fun _ w => (Steps fl now none m.view w ∧ .prepared (r.map fun _ => ()) ∈ w.log) ∧
    ∀ st, r = .ok st → ∃ order, topoOrder m.ctl.file.dependencyGraph = .ok order) (sat_note fun w hw => ?_) fun _ => ?_
  · exact ⟨⟨hw.1.tail .prepared, List.mem_append_right _ (List.mem_singleton_self _)⟩, hw.2⟩
  cases r with
  | error e => exact Sat.throw fun w hw => ⟨hw.1.1, Or.inl hw.1.2⟩
  | ok st => exact Eff.Triple.modify fun s hs => ⟨hs.1.1, hs.2 _ rfl⟩

/-- A tick that starts with an empty log is a path of steps. If it returns, every service of the file
had its turn; if it fails, the log says why. -/
theorem sat_tick (hempty : v.log = []) :
    Sat (fun w => w = v) (tick x fl o now)
      (fun _ w => Path fl now v w ∧ ∀ svc, (v.ctl.file.services.get? svc).isSome → Visited v.ctl.file w.log svc)
      (Breaks fl now v) := by
  refine Sat.bind (Q := fun _ w => w = v) (Eff.Triple.modify fun s hs => hs) fun _ => ?_
  refine Sat.bind (sat_prepare.fails fun _ _ h => ⟨h.1.path, h.2⟩) fun _ => Sat.get_bind fun m hm => ?_
  obtain ⟨hst, order, horder⟩ := hm
  have hfile : m.ctl.file = v.ctl.file := hst.file
  rw [hfile, horder]
  refine Sat.bind (Q := fun o' w => w = m.view ∧ o' = order) (Sat.pure fun w hw => ⟨hw, rfl⟩) fun order' => ?_
  refine Sat.fix fun w hw => ?_
  obtain ⟨rfl, rfl⟩ := hw
  refine Sat.bind (Q := fun _ w => Steps fl now none m.view w) (Sat.attempt (sat_call ?_ ?_)) fun stats => ?_
  · rintro w r rfl
    exact .single (.call trivial)
  · rintro w e rfl
    exact .single (.call trivial)
  refine Sat.fix fun w hw => ?_
  have hall : Steps fl now none v w := hst.trans hw
  have hsvc : ∀ svc, (w.ctl.file.services.get? svc).isSome ↔ svc ∈ order' := by
    intro svc
    rw [hall.file, order_services horder]
  have hfresh : ∀ svc, Fresh w svc := by
    intro svc
    refine hall.fresh (by simp) fun dfn fileRev a st hm => ?_
    rw [hempty] at hm
    cases hm
  have hturns : Sat (fun u => u = w) (order'.forM (turn x fl o (statsOf stats) now)) _ _ :=
    sat_turns (statsOf stats) order'
    (topoOrder_spec horder).1 (fun svc hs => (hsvc svc).mpr hs) fun svc _ => hfresh svc
  refine Sat.bind (Q := fun _ u => Path fl now v u ∧
    ∀ svc, (v.ctl.file.services.get? svc).isSome → Visited v.ctl.file u.log svc) ?_ fun _ => ?_
  · refine Eff.Triple.conseq hturns (fun _ h => h) (fun _ _ h => ⟨hall.path.trans h.1, fun svc hs => ?_⟩)
      fun _ _ h => ⟨hall.path.trans h.1, h.2⟩
    rw [← hall.file] at hs ⊢
    exact h.2 svc ((hsvc svc).mp hs)
  · exact Sat.get_bind fun m' hm' => Sat.pure fun u hu => hu ▸ hm'

section Tick
variable {m m' : Machine σ} (hempty : m.log = [])
include hempty

theorem tick_path : Path fl now m.view (tick x fl o now m).2.view := by
  have htick : Sat (fun w => w = m.view) (tick x fl o now) _ _ := sat_tick hempty
  have h := htick m rfl
  rcases hr : tick x fl o now m with ⟨e | u, s⟩ <;> rw [hr] at h <;> exact h.1

theorem tick_error {e : Error} (h : tick x fl o now m = (.error e, m')) : Blames m'.log e := by
  have htick : Sat (fun w => w = m.view) (tick x fl o now) _ _ := sat_tick hempty
  exact (Eff.Triple.error htick rfl h).2

theorem tick_ok {events : List String} (h : tick x fl o now m = (.ok events, m'))
    {svc : String} (hsvc : (m.ctl.file.services.get? svc).isSome) : Visited m.ctl.file m'.log svc := by
  have htick : Sat (fun w => w = m.view) (tick x fl o now) _ _ := sat_tick hempty
  exact (Eff.Triple.ok htick rfl h).2 svc hsvc

end Tick
end Collocate.Control
