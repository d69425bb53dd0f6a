import Collocate.Compose.Known

/-! # Consumers of secrets that are replaced (`collocate-compose/src/up.rs`)

`up` recreates the services whose mounts, environment or command line name a regenerated secret, and any replica whose
settings have changed; the templates of configs are not looked at for this. -/
namespace Collocate.Compose
set_option autoImplicit false

/-! ## Services that have a secret -/

/-- A text refers to a secret. -/
def Mentions (text name : String) : Prop := ∃ refs, references text = .ok refs ∧ Reference.secret name ∈ refs

/-- A secret is written into the specs of a service: its environment, its command line or its probe. -/
def Written (svc : Service) (name : String) : Prop :=
  (∃ t ∈ svc.env.values ++ svc.command ++ svc.entrypoint, Mentions t name) ∨
    ∃ d, svc.healthcheck = some d ∧ ∃ t ∈ d.exec.getD [], Mentions t name

/-- A secret is mounted, itself or in a config; `texts` are the templates of configs. -/
def Mounted (texts : String → String) (file : ComposeFile) (svc : Service) (name : String) : Prop :=
  name ∈ svc.secrets ∨ ∃ c ∈ svc.configs.keys, ∃ cfg, file.configs.get? c = some cfg ∧
    Mentions (texts cfg.template) name

def Consumes (texts : String → String) (file : ComposeFile) (svc : Service) (name : String) : Prop :=
  Written svc name ∨ Mounted texts file svc name

/-- Where `up` looks for a secret: in the mounts, the environment and the command line. -/
def Seen (svc : Service) (name : String) : Prop :=
  name ∈ svc.secrets ∨ ∃ t ∈ svc.env.values ++ svc.command ++ svc.entrypoint, Mentions t name

theorem serviceReferencesSecret_iff {svc : Service} {name : String} :
    serviceReferencesSecret svc name = true ↔ Seen svc name := by
  unfold serviceReferencesSecret Seen
  rw [Bool.or_eq_true, decide_eq_true_eq, List.any_eq_true]
  apply or_congr_right
  apply exists_congr
  intro t
  apply and_congr_right
  intro _
  unfold Mentions
  cases references t with
  | error e => simp
  | ok refs => simp

/-- The services that `up` recreates are those that have a regenerated secret, as far as it looks for them. -/
theorem mem_forcedServices {file : ComposeFile} {opts : UpOptions} {service : String} :
    service ∈ forcedServices file opts ↔ ∃ svc, file.services.get? service = some svc ∧
      ∃ name ∈ regenerated file opts, serviceReferencesSecret svc name = true := by
  have hchosen : ∀ list : List String, opts.regenerateSecrets = some list → ∀ name,
      (∃ d, (name, d) ∈ file.secrets.entries.filter fun e =>
        list.isEmpty && e.2.generate.isSome || decide (e.1 ∈ list)) ↔
        name ∈ regenerated file opts := by
    intro list hlist name
    unfold regenerated
    rw [hlist]
    cases list with
    | nil => simp
    | cons a l => simp [OrdMap.keys]
  cases hlist : opts.regenerateSecrets with
  | none => simp [forcedServices, regenerated, hlist]
  | some list =>
    have hmem := hchosen list hlist
    simp only [forcedServices, hlist, List.mem_map, List.mem_filter, List.any_eq_true]
    constructor
    · rintro ⟨e, ⟨he, c, hc, href⟩, rfl⟩
      exact ⟨e.2, OrdMap.get?_eq_some.mpr he, c.1, (hmem c.1).mp ⟨c.2, List.mem_filter.mpr hc⟩, href⟩
    · rintro ⟨svc, hsvc, name, hname, href⟩
      obtain ⟨d, hd⟩ := (hmem name).mpr hname
      exact ⟨(service, svc), ⟨OrdMap.get?_eq_some.mp hsvc, (name, d), List.mem_filter.mp hd, href⟩, rfl⟩

/-! ## Replicas of other settings -/

section Settings
variable {x : Extern} {v : Version Unit} {service : String} {i : UInt32} {svc : Service}

theorem SameSettings.refl (x : Extern) (v : Version Unit) (service : String) (i : UInt32) (svc : Service) :
    SameSettings x v v service i svc svc :=
  ⟨rfl, rfl, rfl, rfl, rfl, rfl, rfl, rfl, rfl, rfl, rfl, rfl, rfl, rfl, rfl, rfl, rfl, rfl, rfl⟩

/-- The revision is that of a version of the service which comes to the settings of this one. -/
def SettledAt (x : Extern) (v : Version Unit) (service : String) (i : UInt32) (svc : Service) (revision : String) :
    Prop :=
  ∃ v₀ svc₀ spec₀, Built x v₀ service i svc₀ spec₀ ∧ SameSettings x v₀ v service i svc₀ svc ∧
    spec₀.labels.revision = some revision

/-- What is held for a replica, if anything is, is of no version with its settings; where `up` sees a regenerated secret
in the service, it is enough that it is not marked as rotated from one. -/
def Stale (x : Extern) (w : World) (opts : UpOptions) (v : Version Unit) (service : String) (i : UInt32)
    (svc : Service) : Prop :=
  ∀ c, w.containers (replicaName v.file.project service i) = some c → c.project = some v.file.project →
    ∀ revision, SettledAt x v service i svc revision →
      ((∃ n ∈ regenerated v.file opts, Seen svc n) → c.revision.getD "" ≠ revision ++ "+rotate") ∧
      ((∀ n ∈ regenerated v.file opts, ¬Seen svc n) → c.revision.getD "" ≠ revision)

theorem settledAt_iff {built : Spec} (b : Built x v service i svc built) (revision : String) :
    SettledAt x v service i svc revision ↔ revision = shortHash x (x.specJson (hashed built)) := by
  constructor
  · rintro ⟨v₀, svc₀, spec₀, b₀, hsame, hrevision⟩
    rw [revision_eq b₀, hashed_of_same b₀ b hsame] at hrevision
    exact (Option.some.inj hrevision).symm
  · rintro rfl
    exact ⟨v, svc, built, b, SameSettings.refl x v service i svc, revision_eq b⟩

/-- What is held for a replica has another revision than the one that `up` keeps when it is stale. -/
theorem outdated_iff_stale {w : World} {opts : UpOptions} {spec : Spec} (hfrom : FromKnown x v service spec)
    (hsvc : v.file.services.get? service = some svc) (hname : spec.name = replicaName v.file.project service i) :
    Outdated w v.file opts service spec ↔ Stale x w opts v service i svc := by
  obtain ⟨svc', j, built, addr, hsvc', b, hspec⟩ := hfrom
  rw [hsvc] at hsvc'
  obtain rfl := Option.some.inj hsvc'
  have hbuilt : spec.name = replicaName v.file.project service j := by rw [hspec]; exact b.name
  obtain rfl := replicaName_index (hbuilt.symm.trans hname)
  have hrevision : spec.labels.revision = some (shortHash x (x.specJson (hashed built))) := by
    rw [hspec]
    exact revision_eq b
  have hforced : service ∈ forcedServices v.file opts ↔ ∃ n ∈ regenerated v.file opts, Seen svc n := by
    rw [mem_forcedServices]
    constructor
    · rintro ⟨svc', hsvc', n, hn, hsees⟩
      rw [hsvc] at hsvc'
      rw [← Option.some.inj hsvc'] at hsees
      exact ⟨n, hn, serviceReferencesSecret_iff.mp hsees⟩
    · rintro ⟨n, hn, hsees⟩
      exact ⟨svc, hsvc, n, hn, serviceReferencesSecret_iff.mpr hsees⟩
  unfold Outdated Stale keptRevision
  rw [hname, hrevision, Option.getD_some]
  refine forall_congr' fun c => imp_congr_right fun _ => imp_congr_right fun _ => ?_
  simp only [settledAt_iff b, forall_eq]
  by_cases hsees : service ∈ forcedServices v.file opts
  · rw [if_pos hsees]
    have hseen := hforced.mp hsees
    refine ⟨fun hne => ⟨fun _ => hne, fun hunseen => ?_⟩, fun hall => hall.1 hseen⟩
    obtain ⟨n, hn, hsees'⟩ := hseen
    exact absurd hsees' (hunseen n hn)
  · rw [if_neg hsees]
    have hunseen : ∀ n ∈ regenerated v.file opts, ¬Seen svc n := fun n hn hsees' => hsees (hforced.mpr ⟨n, hn, hsees'⟩)
    refine ⟨fun hne => ⟨fun hseen => absurd (hforced.mpr hseen) hsees, fun _ => hne⟩, fun hall => hall.2 hunseen⟩

end Settings

/-! ## Rotation -/

section Rotation
variable {S : Type} {x : Extern} {h : Host S} {view : S → World} {file : ComposeFile} {opts : UpOptions}
  {prep : Prepared}

/-- The log has a secret set to what its file contains. -/
def SetAnew (project : String) (log : List Event) (name : String) : Prop :=
  ∃ value a, (⟨.secretSet project name value, a⟩ : Event) ∈ log

/-- A container is run from a spec that is built with the last words on all secrets, and none is changed after. -/
def Relaunched (x : Extern) (h : Host S) (file : ComposeFile) (opts : UpOptions) (log : List Event) (name : String) :
    Prop :=
  ∃ before after spec res secrets, log = before ++ ⟨.run spec, .ok res⟩ :: after ∧ spec.name = name ∧
    BuiltWith x h file opts secrets spec ∧
    (∀ n value, secrets n = some value → Latest file.project (regenerated file opts) before n value) ∧
    ∀ e ∈ after, ∀ n, ¬Changes file.project n e.request

/-- A container is started, which mounts its secrets and configs again, and no secret is changed after. -/
def Restarted (project : String) (log : List Event) (name : String) : Prop :=
  ∃ before after res, log = before ++ ⟨.start name, .ok res⟩ :: after ∧ ∀ e ∈ after, ∀ n, ¬Changes project n e.request

/-- Replaced secrets reach all who have them: consumers of a regenerated secret are recreated, no consumer of a secret
that is set anew keeps its value, and no other container of the project is left. -/
structure Rotates (texts : String → String) (x : Extern) (h : Host S) (file : ComposeFile) (opts : UpOptions)
    (w : World) (log : List Event) : Prop where
  regenerated : ∀ service svc n i, file.services.get? service = some svc → n ∈ regenerated file opts →
    Consumes texts file svc n → i.toNat < svc.replicas.toNat →
      Relaunched x h file opts log (replicaName file.project service i)
  setAnew : ∀ service svc n i, file.services.get? service = some svc → SetAnew file.project log n →
    Consumes texts file svc n → i.toNat < svc.replicas.toNat →
      Relaunched x h file opts log (replicaName file.project service i) ∨
        ¬Written svc n ∧ Restarted file.project log (replicaName file.project service i)
  others : ∀ name c, w.containers name = some c → c.project = some file.project →
    ∃ service svc i, file.services.get? service = some svc ∧ i.toNat < svc.replicas.toNat ∧
      name = replicaName file.project service i

/-- What a run of `up` that ends has done: its log is what it built with, and then what it did with the containers. -/
structure Ran (x : Extern) (h : Host S) (file : ComposeFile) (opts : UpOptions) (w w' : World) (prep : Prepared)
    (existing : List ContainerInfo) (secrets : String → Option String) (built more : List Event) : Prop where
  covers : Covers file opts prep
  lists : w.Lists file.project existing
  deployed : deployed (built ++ more) = upActions file prep (makePlan prep existing)
  left : w' = (upActions file prep (makePlan prep existing)).foldl World.apply w
  builds : Extends Request.Building [] built
  deploys : ∀ e ∈ more, Request.Deploying (fun _ => True) e.request
  latest : ∀ n value, secrets n = some value → Latest file.project (regenerated file opts) built n value
  specs : ∀ e ∈ prep.specs, ∀ spec ∈ e.2, BuiltWith x h file opts secrets spec

theorem up_ran (hf : Faithful h view) {rounds : String → ℕ} {s s' : S} {log : List Event} {plan : Plan}
    (hdry : opts.dryRun = false) (hup : up x (loggedHost h) file opts rounds (s, []) = (.ok plan, (s', log))) :
    ∃ prep p existing secrets more, prepare x (loggedHost h) file opts (s, []) = (.ok prep, p) ∧ log = p.2 ++ more ∧
      Ran x h file opts (view s) (view s') prep existing secrets p.2 more := by
  obtain ⟨prep, existing, p, q, -, hprep, hlist, rfl, hview, hdone⟩ :=
    up_does (loggedHost_faithful hf).tracks hdry hup
  have hacts : Compose.deployed log = upActions file prep (makePlan prep existing) := by
    obtain ⟨prep', existing', p', q', -, hprep', hlist', hplan', -, hdone'⟩ := up_does (loggedHost_tracks h) hdry hup
    rw [hprep] at hprep'
    cases hprep'
    rw [hlist] at hlist'
    cases hlist'
    rw [foldl_concat] at hdone'
    exact hdone'
  have hl : (view s).Lists file.project existing := by
    rw [← show view p.1 = view s from hview]
    exact containers_lists (loggedHost_faithful hf) hlist
  obtain ⟨hbuilding, secrets, hlatest, hbuilt⟩ := prepare_latest hdry hprep
  obtain ⟨more, rfl, hmore⟩ := up_extends hup hprep
  exact ⟨prep, p, existing, secrets, more, hprep, rfl,
    prepare_covers hprep, hl, hacts, hdone, hbuilding, hmore, hlatest, hbuilt⟩

namespace Ran

variable {w w' : World} {existing : List ContainerInfo} {secrets : String → Option String} {built more : List Event}

/-- What does not build is asked for after all that does, so no secret is changed behind it. -/
theorem behind (hr : Ran x h file opts w w' prep existing secrets built more) {r : Request} {res : Response}
    (hnot : ¬Request.Building r) (hin : (⟨r, .ok res⟩ : Event) ∈ built ++ more) : ∃ before after,
      built ++ more = built ++ before ++ ⟨r, .ok res⟩ :: after ∧
        (∀ e ∈ before, Request.Deploying (fun _ => True) e.request) ∧
        ∀ e ∈ after, ∀ n, ¬Changes file.project n e.request := by
  obtain ⟨sofar, hsofar, hall⟩ := hr.builds
  rw [List.nil_append] at hsofar
  cases List.mem_append.mp hin with
  | inl hearly => exact absurd (hall _ (hsofar ▸ hearly)) hnot
  | inr hlate =>
    obtain ⟨before, after, rfl⟩ := List.append_of_mem hlate
    refine ⟨before, after, by rw [List.append_assoc], fun e he => hr.deploys e (List.mem_append_left _ he), ?_⟩
    exact fun e he n => deploying_unchanged (hr.deploys e (List.mem_append_right _ (List.mem_cons_of_mem _ he)))

theorem relaunched_iff (hr : Ran x h file opts w w' prep existing secrets built more) {e : String × List Spec}
    (he : e ∈ prep.specs) {spec : Spec} (hspec : spec ∈ e.2) :
    Relaunched x h file opts (built ++ more) spec.name ↔ Outdated w file opts e.1 spec := by
  obtain ⟨hrun, hself, -⟩ := replica_deployed hr.covers hr.lists he hspec
  rw [← hr.deployed] at hrun hself
  constructor
  · rintro ⟨before, after, other, res, -, hlog, hname, -⟩
    have hmem : (⟨.run other, .ok res⟩ : Event) ∈ built ++ more := by
      rw [hlog]
      simp
    exact hrun.mp ⟨other, (mem_deployed rfl).mpr ⟨res, hmem⟩, hname⟩
  · intro hout
    obtain ⟨res, hmem⟩ := (mem_deployed rfl).mp (hself hout)
    obtain ⟨before, after, hlog, hbefore, hafter⟩ := hr.behind id hmem
    refine ⟨built ++ before, after, spec, res, secrets, hlog, rfl, hr.specs e he spec hspec, ?_, hafter⟩
    intro n value hvalue
    exact (hr.latest n value hvalue).append fun e he => deploying_unchanged (hbefore e he)

theorem restarted_iff (hr : Ran x h file opts w w' prep existing secrets built more) {e : String × List Spec}
    (he : e ∈ prep.specs) {spec : Spec} (hspec : spec ∈ e.2) :
    Restarted file.project (built ++ more) spec.name ↔
      ¬Outdated w file opts e.1 spec ∧ Halted w file.project spec.name := by
  obtain ⟨-, -, hstart⟩ := replica_deployed hr.covers hr.lists he hspec
  rw [← hr.deployed, mem_deployed rfl] at hstart
  rw [← hstart]
  constructor
  · rintro ⟨before, after, res, hlog, -⟩
    refine ⟨res, ?_⟩
    rw [hlog]
    simp
  · rintro ⟨res, hmem⟩
    obtain ⟨before, after, hlog, -, hafter⟩ := hr.behind id hmem
    exact ⟨built ++ before, after, res, hlog, hafter⟩

/-- A container of the project that is left is a replica of the file. -/
theorem others (hr : Ran x h file opts w w' prep existing secrets built more) {name : String} {c : Held}
    (hheld : w'.containers name = some c) (hproject : c.project = some file.project) :
    ∃ service svc i, file.services.get? service = some svc ∧ i.toNat < svc.replicas.toNat ∧
      name = replicaName file.project service i := by
  have hmem : name ∈ prep.all.map Spec.name := by
    by_contra hno
    rw [hr.left] at hheld
    exact other_outcome hr.lists hno hheld hproject
  obtain ⟨service, i, hi, rfl⟩ := hr.covers.mem_names.mp hmem
  cases hsvc : file.services.get? service with
  | none =>
    rw [replicasOf, hsvc] at hi
    exact absurd hi (Nat.not_lt_zero _)
  | some svc =>
    rw [replicasOf_eq hsvc] at hi
    exact ⟨service, svc, i, hsvc, hi, rfl⟩

end Ran

end Rotation

/-! ## A config that is not looked at -/

/-- A service that mounts a config. -/
def keyedService : Service :=
  { series := some "noble", command := ["serve"], configs := OrdMap.empty.insert "app" "/etc/app.conf" }

def keyedFile : ComposeFile where
  project := "p"
  services := OrdMap.empty.insert "web" keyedService
  secrets := OrdMap.empty.insert "token" { generate := some "token" }
  configs := OrdMap.empty.insert "app" ⟨"app.conf"⟩

/-- The template of the config has the secret. -/
def keyTemplate : String := "key=$\x7bsecrets.token\x7d"

def regenerateAll : UpOptions := { localOpts with regenerateSecrets := some [] }

/-- A daemon with an older value of the secret. -/
def olderFake : Fake where
  secrets := OrdMap.empty.insert "p/token" "older"
  files := OrdMap.empty.insert "app.conf" keyTemplate

/-- The daemon after a first `up`. -/
def keyedFake : Fake := (up argvExtern fakeHost keyedFile localOpts (fun _ => 0) olderFake).2

def rotatingUp : Result Plan × Fake × List Event :=
  up argvExtern (loggedHost fakeHost) keyedFile regenerateAll (fun _ => 0) (keyedFake, [])

theorem rotating_plan : rotatingUp.1 = .ok { keep := ["p-web-1"] } := by decide +kernel

end Collocate.Compose
