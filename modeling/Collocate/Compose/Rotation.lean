import Collocate.Compose.Converged

/-! # Secrets that are replaced (`collocate-compose/src/up.rs`)

`up` replaces the secrets that it is told to regenerate, and those whose files have another content. What it builds then
has the last value of each, and what it runs comes after the last change. -/
namespace Collocate.Compose
set_option autoImplicit false

/-! ## What a log says of a secret -/

/-- The requests that may change a secret. -/
def Changes (project name : String) : Request → Prop
  | .secretEnsure p n .. | .secretSet p n _ | .secretRemove p n => p = project ∧ n = name
  | _ => False

/-- The last word on a secret: it is revealed with this value, if it is regenerated after it was removed, and not
changed from then on. -/
def Latest (project : String) (rotated : List String) (log : List Event) (name value : String) : Prop :=
  ∃ before after, log = before ++ ⟨.secretReveal project name, .ok (.text value)⟩ :: after ∧
    (name ∈ rotated → ∃ e ∈ before, e.request = .secretRemove project name) ∧
    ∀ e ∈ after, ¬Changes project name e.request

theorem Latest.append {project : String} {rotated : List String} {log more : List Event} {name value : String}
    (h : Latest project rotated log name value) (hmore : ∀ e ∈ more, ¬Changes project name e.request) :
    Latest project rotated (log ++ more) name value := by
  obtain ⟨before, after, rfl, hremoved, hafter⟩ := h
  refine ⟨before, after ++ more, by rw [List.append_assoc]; rfl, hremoved, ?_⟩
  intro e he
  cases List.mem_append.mp he with
  | inl hin => exact hafter e hin
  | inr hin => exact hmore e hin

theorem providing_other {project name other : String} (hne : other ≠ name) {r : Request}
    (hr : Request.Providing project name r) : ¬Changes project other r := by
  cases r with
  | secretEnsure p n generate length => exact fun hc => hne (hc.2.symm.trans hr.2)
  | secretSet p n value => exact fun hc => hne (hc.2.symm.trans hr.2)
  | secretRemove p n => exact fun hc => hne (hc.2.symm.trans hr.2)
  | secretReveal p n => exact id
  | _ => cases hr

theorem fetching_unchanged {project name : String} {r : Request} (hr : Request.Fetching r) :
    ¬Changes project name r := by
  cases r <;> first | exact id | cases hr

theorem deploying_unchanged {project name : String} {Good : Spec → Prop} {r : Request} (hr : Request.Deploying Good r) :
    ¬Changes project name r := by
  cases r <;> first | exact id | cases hr

/-! ## Logs that grow -/

/-- A log is continued by requests of a kind. -/
def Extends (kind : Request → Prop) (log log' : List Event) : Prop :=
  ∃ more, log' = log ++ more ∧ ∀ e ∈ more, kind e.request

namespace Extends

variable {kind kind' : Request → Prop} {log log₁ log₂ : List Event}

theorem refl : Extends kind log log := ⟨[], (List.append_nil log).symm, fun _ he => absurd he List.not_mem_nil⟩

theorem trans (h₁ : Extends kind log log₁) (h₂ : Extends kind log₁ log₂) : Extends kind log log₂ := by
  obtain ⟨more, rfl, hmore⟩ := h₁
  obtain ⟨rest, rfl, hrest⟩ := h₂
  refine ⟨more ++ rest, List.append_assoc .., ?_⟩
  intro e he
  cases List.mem_append.mp he with
  | inl hin => exact hmore e hin
  | inr hin => exact hrest e hin

theorem mono (h : Extends kind log log₁) (hkind : ∀ r, kind r → kind' r) : Extends kind' log log₁ := by
  obtain ⟨more, hlog, hmore⟩ := h
  exact ⟨more, hlog, fun e he => hkind _ (hmore e he)⟩

theorem concat (h : Extends kind log log₁) {e : Event} (he : kind e.request) : Extends kind log (log₁ ++ [e]) :=
  h.trans ⟨[e], rfl, fun _ he' => by rwa [List.mem_singleton.mp he']⟩

theorem latest {project : String} {rotated : List String} {name value : String} (h : Extends kind log log₁)
    (hkind : ∀ r, kind r → ¬Changes project name r) (hl : Latest project rotated log name value) :
    Latest project rotated log₁ name value := by
  obtain ⟨more, rfl, hmore⟩ := h
  exact hl.append fun e he => hkind _ (hmore e he)

end Extends

section Run
variable {S : Type} {x : Extern} {h : Host S} {file : ComposeFile} {opts : UpOptions} {s s' : S} {log log' : List Event}

theorem loggedHost_extends (h : Host S) (kind : Request → Prop) (start : List Event) :
    (loggedHost h).KeepsOn kind fun p => Extends kind start p.2 where
  call _ hr := logged_call (fun _ _ hlog => hlog.concat hr) fun _ _ hlog => hlog.concat hr
  readToString path := zoom_keeps_log (h.readToString path) (Extends kind start)
  newId := zoom_keeps_log h.newId (Extends kind start)
  now := zoom_keeps_log h.now (Extends kind start)

/-- A program of requests of a kind continues the log by such. -/
theorem extends_of_keeps {kind : Request → Prop} {α : Type} {m : Prog (S × List Event) α}
    (hm : ∀ I, (loggedHost h).KeepsOn kind I → Eff.Keeps I m) {r : Result α} (hs : m (s, log) = (r, (s', log'))) :
    Extends kind log log' := by
  have hkeeps := (hm _ (loggedHost_extends h kind log)).apply (s := (s, log)) Extends.refl
  rw [hs] at hkeeps
  exact hkeeps

/-! ## Values that are new -/

theorem removeSecret_logged {name : String} {u : Unit}
    (hs : removeSecret (loggedHost h) file.project name (s, log) = (.ok u, (s', log'))) :
    ∃ a, log' = log ++ [⟨.secretRemove file.project name, a⟩] := by
  obtain ⟨a, ⟨s₁, log₁⟩, hcall, hs⟩ := Eff.bind_ok hs
  obtain ⟨-, hstate⟩ := Prod.mk.inj hcall
  obtain ⟨-, hlog⟩ := Prod.mk.inj hstate
  have hend : log' = log₁ := by
    split at hs
    · exact (congrArg (fun p => p.2.2) hs).symm
    · exact (congrArg (fun p => p.2.2) hs).symm
    · cases hs
  exact ⟨_, hend.trans hlog.symm⟩

/-- Providing a secret and revealing it. -/
theorem revealed_latest {name name' value : String} {sec : SecretDef} {rotated : List String}
    (hremoved : name ∈ rotated → ∃ e ∈ log, e.request = .secretRemove file.project name)
    (hs : (do
      provideSecret (loggedHost h) file.project name sec opts
      match ← (loggedHost h).call (.secretReveal file.project name) with
      | .text text => pure (name, text)
      | other => unexpected x other : Prog (S × List Event) (String × String)) (s, log) =
        (.ok (name', value), (s', log'))) :
    name' = name ∧ Extends (Request.Providing file.project name) log log' ∧
      Latest file.project rotated log' name value := by
  obtain ⟨u, ⟨s₁, log₁⟩, hprovide, hs⟩ := Eff.bind_ok hs
  have hfirst : Extends (Request.Providing file.project name) log log₁ :=
    extends_of_keeps (fun I hI => provideSecret_keeps hI sec opts) hprovide
  obtain ⟨res, ⟨s₂, log₂⟩, hcall, hs⟩ := Eff.bind_ok hs
  obtain ⟨hanswer, hstate⟩ := Prod.mk.inj hcall
  obtain ⟨-, hlog⟩ := Prod.mk.inj hstate
  cases res with
  | text text =>
    cases hs
    rw [hanswer] at hlog
    subst hlog
    refine ⟨rfl, hfirst.concat ⟨rfl, rfl⟩, log₁, [], rfl, ?_, fun e he => absurd he List.not_mem_nil⟩
    intro hrot
    obtain ⟨e, he, hrequest⟩ := hremoved hrot
    obtain ⟨more, rfl, -⟩ := hfirst
    exact ⟨e, List.mem_append_left _ he, hrequest⟩
  | _ => cases hs

theorem ensureSecret_latest {name name' value : String} {sec : SecretDef}
    (hs : ensureSecret x (loggedHost h) file opts name sec (s, log) = (.ok (name', value), (s', log'))) :
    name' = name ∧ Extends (Request.Providing file.project name) log log' ∧
      Latest file.project (regenerated file opts) log' name value := by
  unfold ensureSecret at hs
  by_cases hrot : name ∈ regenerated file opts
  · simp only [if_pos hrot] at hs
    obtain ⟨u, ⟨s₁, log₁⟩, hremove, hs⟩ := Eff.bind_ok hs
    obtain ⟨a, rfl⟩ := removeSecret_logged hremove
    obtain ⟨hname, hext, hlatest⟩ := revealed_latest
      (fun _ => ⟨_, List.mem_append_right _ (List.mem_singleton_self _), rfl⟩) hs
    exact ⟨hname, (Extends.refl.concat ⟨rfl, rfl⟩).trans hext, hlatest⟩
  · simp only [if_neg hrot] at hs
    exact revealed_latest (fun hin => absurd hin hrot) hs

/-- The values that a run of `ensure_secrets` returns are the last words on all secrets. -/
theorem collect_latest {entries : List (String × SecretDef)} (hnodup : (entries.map Prod.fst).Nodup)
    {values : List (String × String)}
    (hs : Eff.collect (fun e => ensureSecret x (loggedHost h) file opts e.1 e.2) entries (s, log) =
      (.ok values, (s', log'))) :
    Extends (fun r => ∃ name ∈ entries.map Prod.fst, Request.Providing file.project name r) log log' ∧
      ∀ v ∈ values, Latest file.project (regenerated file opts) log' v.1 v.2 := by
  induction entries generalizing s log values with
  | nil =>
    cases hs
    exact ⟨Extends.refl, fun v hv => absurd hv List.not_mem_nil⟩
  | cons e entries ih =>
    rw [List.map_cons, List.nodup_cons] at hnodup
    obtain ⟨⟨name, value⟩, ⟨s₁, log₁⟩, hfirst, hs⟩ := Eff.bind_ok hs
    obtain ⟨rest, ⟨s₂, log₂⟩, hrest, hs⟩ := Eff.bind_ok hs
    cases hs
    obtain ⟨rfl, hext, hlatest⟩ := ensureSecret_latest hfirst
    obtain ⟨hmore, hall⟩ := ih hnodup.2 hrest
    refine ⟨?_, ?_⟩
    · apply Extends.trans (hext.mono fun r hr => ⟨e.1, List.mem_cons_self .., hr⟩)
      exact hmore.mono fun r ⟨n, hn, hr⟩ => ⟨n, List.mem_cons_of_mem _ hn, hr⟩
    · intro v hv
      cases hv with
      | head =>
        refine hmore.latest ?_ hlatest
        rintro r ⟨n, hn, hr⟩
        have hne : e.1 ≠ n := fun heq => hnodup.1 (by rwa [heq])
        exact providing_other hne hr
      | tail _ hmem => exact hall v hmem

theorem assoc_mem {V : Type} {l : List (String × V)} {k : String} {v : V} (hk : assoc l k = some v) : (k, v) ∈ l := by
  unfold assoc at hk
  induction l with
  | nil => cases hk
  | cons e l ih =>
    obtain ⟨k', v'⟩ := e
    rw [OrdMap.lookup] at hk
    by_cases heq : k = k'
    · rw [if_pos heq] at hk
      rw [heq, Option.some.inj hk]
      exact List.mem_cons_self ..
    · rw [if_neg heq] at hk
      exact List.mem_cons_of_mem _ (ih hk)

/-- The build state has the last word on each secret. -/
theorem BuildState.new_latest {st : BuildState} (hdry : opts.dryRun = false)
    (hs : BuildState.new x (loggedHost h) file opts (s, log) = (.ok st, (s', log'))) {name value : String}
    (hvalue : st.secrets name = some value) : Latest file.project (regenerated file opts) log' name value := by
  obtain ⟨steps⟩ := BuildState.new_ok hs
  have hsecrets := steps.hsecrets
  rw [ensureSecrets, hdry] at hsecrets
  rw [steps.hst] at hvalue
  exact (collect_latest file.secrets.keys_nodup hsecrets).2 _ (assoc_mem hvalue)

/-- A spec is built with these values of secrets in its templates. -/
def BuiltWith (x : Extern) (h : Host S) (file : ComposeFile) (opts : UpOptions) (secrets : String → Option String)
    (spec : Spec) : Prop :=
  ∃ (st : BuildState) (p : S × List Event) (service : String) (svc : Service) (replica : UInt32) (built : Spec)
    (addr : Ipv4Addr), st.secrets = secrets ∧
      Built x ⟨file, st.ctx x (loggedHost h) file opts, (p, st.images)⟩ service replica svc built ∧
      spec = { built with net := { built.net with addr := some addr } }

/-- What is prepared is built with the last words on all secrets, and the requests so far only build. -/
theorem prepare_latest {prep : Prepared} (hdry : opts.dryRun = false)
    (hs : prepare x (loggedHost h) file opts (s, log) = (.ok prep, (s', log'))) :
    Extends Request.Building log log' ∧ ∃ secrets,
      (∀ name value, secrets name = some value → Latest file.project (regenerated file opts) log' name value) ∧
      ∀ e ∈ prep.specs, ∀ spec ∈ e.2, BuiltWith x h file opts secrets spec := by
  refine ⟨extends_of_keeps (fun I hI => prepare_keeps hI) hs, ?_⟩
  obtain ⟨st, ⟨s₁, log₁⟩, last, hnew, hgrows, -, hspecs⟩ := prepare_specs (J := fun _ _ => True)
    (P := fun st _ spec => BuiltWith x h file opts st.templates.secrets spec)
    (fun _ _ _ _ hst hspec => by rwa [hst.templates])
    (fun service st idx s spec st' s' _ hspec => by
      obtain ⟨svc, built, addr, -, b, rfl⟩ := BuildState.spec_built hspec
      rw [(BuildState.spec_grows hspec).templates]
      exact ⟨trivial, st, s, service, svc, idx, built, addr, rfl, b, rfl⟩)
    (fun _ _ _ => trivial) hs
  rw [hgrows.templates] at hspecs
  refine ⟨st.secrets, ?_, hspecs⟩
  intro name value hvalue
  obtain ⟨st', s₂, hnew', hs⟩ := Eff.bind_ok hs
  obtain ⟨rfl, rfl⟩ : st' = st ∧ s₂ = (s₁, log₁) := by
    rw [hnew] at hnew'
    cases hnew'
    exact ⟨rfl, rfl⟩
  have hmore : Extends Request.Fetching log₁ log' :=
    extends_of_keeps (fun I hI => Eff.Keeps.bind (allSpecs_keeps hI _ _) fun _ => Eff.Keeps.pure _) hs
  exact hmore.latest (fun _ => fetching_unchanged) (BuildState.new_latest hdry hnew hvalue)

/-- Once `up` has prepared, it deploys. -/
theorem up_extends {rounds : String → ℕ} {plan : Plan}
    (hs : up x (loggedHost h) file opts rounds (s, log) = (.ok plan, (s', log'))) {prep : Prepared} {p : S × List Event}
    (hprep : prepare x (loggedHost h) file opts (s, log) = (.ok prep, p)) :
    Extends (Request.Deploying fun _ => True) p.2 log' := by
  obtain ⟨u, -, hs⟩ := Eff.lift_bind_ok hs
  rw [Eff.bind_of_ok hprep] at hs
  refine extends_of_keeps (h := h) (s := p.1) (fun I hI => ?_) hs
  have hlist : (loggedHost h).KeepsOn Request.Listing I := hI.mono fun _ hr => hr.watching.deploying
  apply Eff.Keeps.bind (containers_keeps hlist _)
  intro existing
  dsimp only
  split
  · exact Eff.Keeps.pure _
  · exact deploy_keepsOn hI prep _ (fun _ _ _ _ => trivial) rounds

/-! ## What a log deploys -/

/-- The requests of a log that deploy, where they are answered. -/
def deployed (log : List Event) : List Request :=
  log.filterMap fun e => if e.request.deploys && e.answer.isOk then some e.request else none

theorem mem_deployed {r : Request} (hr : r.deploys = true) :
    r ∈ deployed log ↔ ∃ res, (⟨r, .ok res⟩ : Event) ∈ log := by
  unfold deployed
  rw [List.mem_filterMap]
  constructor
  · rintro ⟨⟨request, answer⟩, he, hsome⟩
    cases answer with
    | error e => simp [Except.isOk, Except.toBool] at hsome
    | ok res =>
      by_cases hd : request.deploys = true
      · simp only [hd, Except.isOk, Except.toBool, Bool.and_self, if_true, Option.some.injEq] at hsome
        exact ⟨res, hsome ▸ he⟩
      · simp [hd] at hsome
  · rintro ⟨res, he⟩
    exact ⟨_, he, by simp [hr, Except.isOk, Except.toBool]⟩

theorem deployed_concat (log : List Event) (e : Event) :
    deployed (log ++ [e]) = deployed log ++ if e.request.deploys && e.answer.isOk then [e.request] else [] := by
  unfold deployed
  rw [List.filterMap_append]
  congr 1
  by_cases hd : (e.request.deploys && e.answer.isOk) = true
  · rw [List.filterMap_cons_some (by rw [if_pos hd]), if_pos hd]
    rfl
  · rw [List.filterMap_cons_none (by rw [if_neg hd]), if_neg hd]
    rfl

theorem loggedHost_deployed (h : Host S) {kind : Request → Prop} (hkind : ∀ r, kind r → r.deploys = false)
    (acts : List Request) : (loggedHost h).KeepsOn kind fun p => deployed p.2 = acts where
  call r hr := by
    have hsame : ∀ (log : List Event) a, deployed log = acts → deployed (log ++ [⟨r, a⟩]) = acts := by
      intro log a hlog
      rw [deployed_concat]
      simp only [hkind r hr, Bool.false_and, Bool.false_eq_true, if_false, List.append_nil]
      exact hlog
    exact logged_call (P := fun log => deployed log = acts) (Q := fun _ log => deployed log = acts)
      (E := fun log => deployed log = acts) (fun log res => hsame log (.ok res)) fun log e => hsame log (.error e)
  readToString path := zoom_keeps_log (h.readToString path) fun log => deployed log = acts
  newId := zoom_keeps_log h.newId fun log => deployed log = acts
  now := zoom_keeps_log h.now fun log => deployed log = acts

/-- The log follows what is deployed. -/
theorem loggedHost_tracks (h : Host S) : (loggedHost h).Tracks (fun p => deployed p.2) fun acts r => acts ++ [r] where
  call := by
    rintro r hr ⟨s, log⟩ res s' hcall
    obtain ⟨hanswer, rfl⟩ := Prod.mk.inj hcall
    show deployed (log ++ [_]) = _
    rw [deployed_concat]
    simp only [hanswer, hr, Except.isOk, Except.toBool, Bool.and_self, if_true]
  building := loggedHost_deployed h fun r hr => by cases r <;> first | rfl | cases hr
  watching := loggedHost_deployed h fun r hr => by cases r <;> first | rfl | cases hr

theorem loggedHost_keepsOn {kind : Request → Prop} {I : S → Prop} (hh : h.KeepsOn kind I) :
    (loggedHost h).KeepsOn kind fun p => I p.1 where
  call r hr := Eff.Keeps.of_state fun _ hp => (hh.call r hr).apply hp
  readToString path := (hh.readToString path).zoom_fst
  newId := hh.newId.zoom_fst
  now := hh.now.zoom_fst

theorem loggedHost_faithful {view : S → World} (hf : Faithful h view) : Faithful (loggedHost h) fun p => view p.1 where
  tracks := {
    call := by
      rintro r hr ⟨s, log⟩ res s' hcall
      obtain ⟨hanswer, rfl⟩ := Prod.mk.inj hcall
      exact hf.tracks.call r hr s res _ (Prod.ext hanswer rfl)
    building := fun w => loggedHost_keepsOn (hf.tracks.building w)
    watching := fun w => loggedHost_keepsOn (hf.tracks.watching w) }
  lists := by
    rintro project ⟨s, log⟩ list s' hcall
    obtain ⟨hanswer, -⟩ := Prod.mk.inj hcall
    exact hf.lists project s list _ (Prod.ext hanswer rfl)

theorem foldl_concat (acts start : List Request) : acts.foldl (fun acts r => acts ++ [r]) start = start ++ acts := by
  induction acts generalizing start with
  | nil => exact (List.append_nil start).symm
  | cons r acts ih => rw [List.foldl_cons, ih, List.append_assoc, List.singleton_append]

end Run

/-! ## Replicas that are run anew -/

section Replicas
variable {file : ComposeFile} {opts : UpOptions} {prep : Prepared} {existing : List ContainerInfo} {w : World}

/-- The revision of a container that `up` keeps for a replica. -/
def keptRevision (file : ComposeFile) (opts : UpOptions) (service : String) (spec : Spec) : String :=
  if service ∈ forcedServices file opts then spec.labels.revision.getD "" ++ "+rotate" else spec.labels.revision.getD ""

/-- What is held for a replica, if anything is, has another revision. -/
def Outdated (w : World) (file : ComposeFile) (opts : UpOptions) (service : String) (spec : Spec) : Prop :=
  ∀ c, w.containers spec.name = some c → c.project = some file.project →
    c.revision.getD "" ≠ keptRevision file opts service spec

/-- A container of the project is held under the name, and does not run. -/
def Halted (w : World) (project name : String) : Prop :=
  ∃ c, w.containers name = some c ∧ c.project = some project ∧ c.running = false

theorem keptRevision_eq (hc : Covers file opts prep) (service : String) (spec : Spec) :
    (itemOf prep service spec).hash = keptRevision file opts service spec := by
  unfold itemOf keptRevision
  rw [hc.forced]

/-- The verdict on a replica, by what is held for it. -/
theorem verdict_held (hc : Covers file opts prep) (hl : w.Lists file.project existing) (service : String)
    (spec : Spec) :
    ((verdict (actualItems existing) (itemOf prep service spec) = .create ∨
        verdict (actualItems existing) (itemOf prep service spec) = .recreate) ↔ Outdated w file opts service spec) ∧
      (verdict (actualItems existing) (itemOf prep service spec) = .start ↔
        ¬Outdated w file opts service spec ∧ Halted w file.project spec.name) := by
  unfold verdict
  rw [keptRevision_eq hc]
  have hitem : (itemOf prep service spec).name = spec.name := rfl
  rw [hitem]
  cases actualOf_held hl spec.name with
  | inr hnone =>
    have houtdated : Outdated w file opts service spec := fun c hheld hown => absurd hown (hnone.2 c hheld)
    rw [hnone.1]
    simp [houtdated]
  | inl hsome =>
    obtain ⟨a, c, ha, hheld, hown, hhash, hrunning⟩ := hsome
    have houtdated : Outdated w file opts service spec ↔ a.hash ≠ keptRevision file opts service spec := by
      rw [hhash]
      constructor
      · exact fun hout => hout c hheld hown
      · intro hne c' hheld' _
        rw [hheld] at hheld'
        rwa [← Option.some.inj hheld']
    have hhalted : Halted w file.project spec.name ↔ a.running = false := by
      rw [hrunning]
      constructor
      · rintro ⟨c', hheld', -, hstopped⟩
        rw [hheld] at hheld'
        rwa [Option.some.inj hheld']
      · exact fun hstopped => ⟨c, hheld, hown, hstopped⟩
    rw [ha, houtdated, hhalted]
    dsimp only
    by_cases hdiffer : a.hash ≠ keptRevision file opts service spec
    · simp [hdiffer]
    · cases a.running <;> simp [hdiffer]

theorem run_mem_upActions {plan : Plan} {spec : Spec} (hr : .run spec ∈ upActions file prep plan) :
    ∃ spec' ∈ prep.all, .run spec ∈ specActions plan spec' ∧ spec = spec' := by
  obtain ⟨name, hremove⟩ | ⟨l, -, heq⟩ | ⟨spec', hmem, hact, heq | heq⟩ := mem_upActions hr
  · simp [removeActions] at hremove
  · cases heq
  · exact ⟨spec', hmem, hact, Request.run.inj heq⟩
  · cases heq

theorem start_mem_upActions {plan : Plan} {name : String} (hr : .start name ∈ upActions file prep plan) :
    ∃ spec ∈ prep.all, .start name ∈ specActions plan spec ∧ name = spec.name := by
  obtain ⟨other, hremove⟩ | ⟨l, -, heq⟩ | ⟨spec, hmem, hact, heq | heq⟩ := mem_upActions hr
  · simp [removeActions] at hremove
  · cases heq
  · cases heq
  · exact ⟨spec, hmem, hact, Request.start.inj heq⟩

theorem specActions_mem {plan : Plan} {e : String × List Spec} (he : e ∈ prep.specs) {spec : Spec} (hspec : spec ∈ e.2)
    {r : Request} (hr : r ∈ specActions plan spec) : r ∈ upActions file prep plan := by
  refine List.mem_append_left _ (List.mem_flatMap.mpr ⟨e, he, List.mem_append_left _ ?_⟩)
  exact List.mem_flatMap.mpr ⟨spec, hspec, hr⟩

/-- A replica is run when what is held is outdated, and started when it is not and does not run. -/
theorem replica_deployed (hc : Covers file opts prep) (hl : w.Lists file.project existing) {e : String × List Spec}
    (he : e ∈ prep.specs) {spec : Spec} (hspec : spec ∈ e.2) :
    ((∃ other, .run other ∈ upActions file prep (makePlan prep existing) ∧ other.name = spec.name) ↔
        Outdated w file opts e.1 spec) ∧
      (Outdated w file opts e.1 spec → .run spec ∈ upActions file prep (makePlan prep existing)) ∧
      (.start spec.name ∈ upActions file prep (makePlan prep existing) ↔
        ¬Outdated w file opts e.1 spec ∧ Halted w file.project spec.name) := by
  obtain ⟨hrun, hstart⟩ := verdict_held hc hl e.1 spec
  have hacts : specActions (makePlan prep existing) spec = _ := specActions_of_verdict hc he hspec
  have hunique : ∀ other ∈ prep.all, other.name = spec.name → other = spec :=
    fun other hother hname => List.inj_on_of_nodup_map hc.nodup hother (mem_all he hspec) hname
  have hrunIff : .run spec ∈ specActions (makePlan prep existing) spec ↔ Outdated w file opts e.1 spec := by
    rw [← hrun, hacts]
    cases verdict (actualItems existing) (itemOf prep e.1 spec) <;> simp [removeActions]
  have hstartIff : .start spec.name ∈ specActions (makePlan prep existing) spec ↔
      ¬Outdated w file opts e.1 spec ∧ Halted w file.project spec.name := by
    rw [← hstart, hacts]
    cases verdict (actualItems existing) (itemOf prep e.1 spec) <;> simp [removeActions]
  refine ⟨⟨?_, fun hout => ⟨spec, specActions_mem he hspec (hrunIff.mpr hout), rfl⟩⟩,
    fun hout => specActions_mem he hspec (hrunIff.mpr hout), ?_, fun hhalt =>
      specActions_mem he hspec (hstartIff.mpr hhalt)⟩
  · rintro ⟨other, hother, hname⟩
    obtain ⟨other', hmem, hact, rfl⟩ := run_mem_upActions hother
    rw [hunique other hmem hname] at hact
    exact hrunIff.mp hact
  · intro hin
    obtain ⟨other, hmem, hact, hname⟩ := start_mem_upActions hin
    rw [hunique other hmem hname.symm] at hact
    exact hstartIff.mp hact

theorem replicasOf_eq {service : String} {svc : Service} (hsvc : file.services.get? service = some svc) :
    replicasOf file service = svc.replicas.toNat := by
  unfold replicasOf
  rw [hsvc]
  rfl

/-- Every replica of a service is prepared. -/
theorem Covers.replica (hc : Covers file opts prep) {service : String} {svc : Service}
    (hsvc : file.services.get? service = some svc) {i : UInt32} (hi : i.toNat < svc.replicas.toNat) :
    ∃ e ∈ prep.specs, e.1 = service ∧ ∃ spec ∈ e.2, spec.name = replicaName file.project service i := by
  have hservice : service ∈ prep.specs.map Prod.fst := by
    rw [(topoOrder_spec hc.topo).2, ComposeFile.dependencyGraph, OrdMap.keys_mapValues]
    exact OrdMap.mem_keys.mpr ⟨svc, hsvc⟩
  obtain ⟨e, he, rfl⟩ := List.mem_map.mp hservice
  have hname : replicaName file.project e.1 i ∈ e.2.map Spec.name := by
    rw [hc.names e he, mem_replicaNames, replicasOf_eq hsvc]
    exact hi
  obtain ⟨spec, hspec, hspecName⟩ := List.mem_map.mp hname
  exact ⟨e, he, rfl, spec, hspec, hspecName⟩

theorem Covers.index (hc : Covers file opts prep) {e : String × List Spec} (he : e ∈ prep.specs) {svc : Service}
    (hsvc : file.services.get? e.1 = some svc) {spec : Spec} (hspec : spec ∈ e.2) :
    ∃ i : UInt32, i.toNat < svc.replicas.toNat ∧ spec.name = replicaName file.project e.1 i := by
  have hmem : spec.name ∈ replicaNames file e.1 := by
    rw [← hc.names e he]
    exact List.mem_map_of_mem hspec
  obtain ⟨k, hk, hname⟩ := List.mem_map.mp hmem
  rw [List.mem_range, replicasOf_eq hsvc] at hk
  refine ⟨UInt32.ofNat k, ?_, hname.symm⟩
  rwa [UInt32.toNat_ofNat_of_lt' (Nat.lt_trans hk svc.replicas.toNat_lt)]

end Replicas
end Collocate.Compose
