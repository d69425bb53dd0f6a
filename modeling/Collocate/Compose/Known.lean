import Collocate.Compose.Rotation
import Collocate.Compose.Revision

/-! # What a build depends on (`collocate-compose/src/up.rs`, `build.rs`)

A spec comes from the file, the values for templates, the metadata of images and the paths of configs. So a build that
asks the daemon for the last two says what a build says that has them, but for the id and the time. -/
namespace Collocate.Compose
set_option autoImplicit false

/-! ## Builds that ask nobody -/

/-- A context that has the metadata of images and the paths of configs. -/
def knownCtx (tctx : Context) (images : Images) (paths : String → String) : BuildCtx Unit where
  templates := tctx
  baseBuild _ := pure "latest"
  oci image _ := match images image with
    | some m => pure m
    | none => Eff.throw (.notFound image)
  configPath name := pure (paths name)
  newId := pure 0
  now := pure 0

def known (file : ComposeFile) (tctx : Context) (images : Images) (paths : String → String) : Version Unit :=
  ⟨file, knownCtx tctx images paths, ()⟩

/-- Without its id and its time. -/
def Spec.undated (spec : Spec) : Spec := { spec with id := 0, created := 0 }

theorem specFromImage_undated {id : ContainerId} {created : UInt64} {img : ImageMeta} {ov : RunOverrides} {spec : Spec}
    (h : specFromImage id created img ov = .ok spec) : specFromImage 0 0 img ov = .ok (Spec.undated spec) := by
  unfold specFromImage at h ⊢
  by_cases hempty : (imageArgv img ov).isEmpty = true
  · rw [if_pos hempty] at h
    cases h
  · rw [if_neg hempty] at h ⊢
    cases h
    rfl

section Build
variable {S : Type} {x : Extern} {h : Host S} {file : ComposeFile} {opts : UpOptions} {s s' : S}

theorem zoom_images {α : Type} {m : Prog S α} {p p' : S × Images} {a : α}
    (hs : Eff.zoom Prod.fst (fun s (p : S × Images) => (s, p.2)) m p = (.ok a, p')) : p'.2 = p.2 :=
  (congrArg (fun r => r.2.2) hs).symm

/-- An image that is resolved is remembered. -/
theorem resolveImage_known {st : BuildState} {image : String} {policy : PullPolicy} {p p' : S × Images}
    {img : ImageMeta} (hs : resolveImage x h st file opts image policy p = (.ok img, p')) : p'.2 image = some img := by
  obtain ⟨s, images⟩ := p
  change (Eff.get >>= _) _ = _ at hs
  rw [Eff.get_bind_apply] at hs
  dsimp only at hs
  cases himage : images image with
  | some m =>
    rw [himage] at hs
    cases hs
    exact himage
  | none =>
    rw [himage] at hs
    obtain ⟨m, p₁, -, hs⟩ := Eff.bind_ok hs
    cases hs
    exact Function.update_self ..

/-- The root of a spec depends on the image's metadata. -/
theorem rootSpec_known {st : BuildState} {service name : String} {svc : Service} {p p' : S × Images} {root : Spec}
    {images : Images} {paths : String → String}
    (hs : rootSpec (st.ctx x h file opts) service name svc p = (.ok root, p'))
    (himages : Images.Extends p'.2 images) :
    (rootSpec (knownCtx st.templates images paths) service name svc ()).1 = .ok (Spec.undated root) := by
  unfold rootSpec at hs ⊢
  cases hseries : svc.series with
  | some series =>
    simp only [hseries] at hs ⊢
    obtain ⟨series, hparse, hs⟩ := Eff.lift_bind_ok hs
    obtain ⟨buildId, p₁, hbase, hs⟩ := Eff.bind_ok hs
    have hid : buildId = "latest" := (Except.ok.inj (congrArg Prod.fst hbase)).symm
    obtain ⟨argv, hargv, hs⟩ := Eff.lift_bind_ok hs
    obtain ⟨id, p₂, -, hs⟩ := Eff.bind_ok hs
    obtain ⟨created, p₃, -, hs⟩ := Eff.bind_ok hs
    cases hs
    subst hid
    have hargv' : resolveAll (svc.entrypoint ++ svc.command) (knownCtx st.templates images paths).templates =
      .ok argv :=
      hargv
    rw [hparse, Eff.lift_ok_bind, hargv']
    rfl
  | none =>
    cases himage : svc.image with
    | none =>
      simp only [hseries, himage] at hs
      cases hs
    | some image =>
      simp only [hseries, himage] at hs ⊢
      obtain ⟨policy, hpolicy, hs⟩ := Eff.lift_bind_ok hs
      obtain ⟨img, p₁, himg, hs⟩ := Eff.bind_ok hs
      obtain ⟨ov, hov, hs⟩ := Eff.lift_bind_ok hs
      obtain ⟨id, p₂, hid, hs⟩ := Eff.bind_ok hs
      obtain ⟨created, p₃, hcreated, hs⟩ := Eff.bind_ok hs
      obtain ⟨hspec, rfl⟩ := Eff.lift_ok hs
      have hknown : images image = some img := by
        apply himages
        rw [zoom_images hcreated, zoom_images hid]
        exact resolveImage_known himg
      have hoci : (knownCtx st.templates images paths).oci image policy = pure img := by
        show (match images image with
          | some m => pure m
          | none => Eff.throw (.notFound image) : Prog Unit ImageMeta) = _
        rw [hknown]
      have hov' : imageOverrides svc (knownCtx st.templates images paths).templates = .ok ov := hov
      have hroot : imageSpec service name (specFromImage 0 0 img ov) = .ok (Spec.undated root) := by
        unfold imageSpec at hspec ⊢
        cases hfrom : specFromImage id created img ov with
        | error e =>
          rw [hfrom] at hspec
          cases hspec
        | ok spec =>
          rw [hfrom] at hspec
          cases hspec
          rw [specFromImage_undated hfrom]
          rfl
      rw [hpolicy, Eff.lift_ok_bind, hoci, Eff.pure_bind_eq, hov', Eff.lift_ok_bind]
      show (Eff.lift (imageSpec service name (specFromImage 0 0 img ov)) ()).1 = _
      rw [hroot]
      rfl

/-- The daemon puts a config of the project at one path, whatever it contains. -/
def PutsAt (h : Host S) (project : String) (paths : String → String) : Prop :=
  ∀ name text s path s', h.call (.configPut project name text) s = (.ok (.text path), s') → path = paths name

/-- The paths that specs have: a dry run makes them up. -/
def pathsOf (file : ComposeFile) (opts : UpOptions) (paths : String → String) (name : String) : String :=
  if opts.dryRun then s!"configs/{file.project}/{name}" else paths name

theorem configPath_known {st : BuildState} {paths : String → String} (hput : PutsAt h file.project paths)
    {name path : String} {p p' : S × Images} (hs : configPath x h st file opts name p = (.ok path, p')) :
    path = pathsOf file opts paths name := by
  unfold configPath at hs
  cases hcfg : file.configs.get? name with
  | none =>
    rw [hcfg] at hs
    cases hs
  | some cfg =>
    rw [hcfg] at hs
    obtain ⟨text, p₁, -, hs⟩ := Eff.bind_ok hs
    obtain ⟨rendered, -, hs⟩ := Eff.lift_bind_ok hs
    unfold pathsOf
    by_cases hdry : opts.dryRun = true
    · rw [if_pos hdry] at hs ⊢
      cases hs
      rfl
    · rw [if_neg hdry] at hs ⊢
      obtain ⟨res, p₂, hcall, hs⟩ := Eff.bind_ok hs
      cases res with
      | text text =>
        cases hs
        have hanswer : (h.call (.configPut file.project name rendered) p₁.1).1 = .ok (.text path) :=
          congrArg Prod.fst hcall
        exact hput name rendered p₁.1 path _ (Prod.ext hanswer rfl)
      | _ => cases hs

theorem configs_known {st : BuildState} {paths : String → String} (hput : PutsAt h file.project paths)
    {entries : List (String × String)} {p p' : S × Images} {mounts : List Mount}
    (hs : Eff.collect (fun e => do
      let src ← configPath x h st file opts e.1
      pure (Mount.config src e.2)) entries p = (.ok mounts, p')) :
    mounts = entries.map fun e => Mount.config (pathsOf file opts paths e.1) e.2 := by
  induction entries generalizing p mounts with
  | nil =>
    cases hs
    rfl
  | cons e entries ih =>
    obtain ⟨mount, p₁, hmount, hs⟩ := Eff.bind_ok hs
    obtain ⟨rest, p₂, hrest, hs⟩ := Eff.bind_ok hs
    cases hs
    obtain ⟨src, p₃, hsrc, hmount⟩ := Eff.bind_ok hmount
    cases hmount
    rw [configPath_known hput hsrc, ih hrest]
    rfl

theorem known_configs {tctx : Context} {images : Images} {paths : String → String} {service : String}
    {replica : UInt32} {svc : Service} :
    (known file tctx images paths).configs service replica svc =
      .ok (svc.configs.entries.map fun e => Mount.config (paths e.1) e.2) := by
  have hcollect : ∀ entries : List (String × String), Eff.collect (fun e => do
      let src ← (knownCtx tctx images paths).configPath e.1
      pure (Mount.config src e.2)) entries () = (.ok (entries.map fun e => Mount.config (paths e.1) e.2), ()) := by
    intro entries
    induction entries with
    | nil => rfl
    | cons e entries ih =>
      have hfirst : (do
          let src ← (knownCtx tctx images paths).configPath e.1
          pure (Mount.config src e.2) : Prog Unit Mount) () = (.ok (Mount.config (paths e.1) e.2), ()) := rfl
      unfold Eff.collect
      rw [Eff.bind_of_ok hfirst, Eff.bind_of_ok ih]
      rfl
  exact congrArg Prod.fst (hcollect svc.configs.entries)

end Build

/-- A spec says the same of two versions whose answers are the same. -/
theorem Built.transfer {S T : Type} {x : Extern} {v : Version S} {v' : Version T} {service : String} {replica : UInt32}
    {svc : Service} {spec root : Spec} (hfile : v'.file = v.file) (htemplates : v'.ctx.templates = v.ctx.templates)
    (hroot : (v.root service replica svc).1 = .ok root)
    (hroot' : (v'.root service replica svc).1 = .ok (Spec.undated root))
    (hconfigs : v'.configs service replica svc = v.configs service replica svc)
    (b : Built x v service replica svc spec) :
    Built x v' service replica svc spec := by
  have hsource := b.source
  have henv := b.env
  have huser := b.user
  have hworkdir := b.workdir
  have hsignal := b.stopSignal
  have hmounts := b.mounts
  have hhealth := b.healthcheck
  unfold Version.source at hsource
  unfold Version.env at henv
  unfold Version.user at huser
  unfold Version.workdir at hworkdir
  unfold Version.stopSignal at hsignal
  unfold Version.mounts at hmounts
  unfold Version.healthcheck at hhealth
  rw [hroot] at hsource henv huser hworkdir hsignal hhealth
  rw [← htemplates] at henv hhealth
  rw [← hconfigs] at hmounts
  exact {
    schema := b.schema
    name := by rw [hfile]; exact b.name
    source := by unfold Version.source; rw [hroot']; exact hsource
    persistent := b.persistent
    idle := b.idle
    env := by unfold Version.env; rw [hroot']; exact henv
    user := by unfold Version.user; rw [hroot']; exact huser
    workdir := by unfold Version.workdir; rw [hroot']; exact hworkdir
    stopSignal := by unfold Version.stopSignal; rw [hroot']; exact hsignal
    stopTimeout := b.stopTimeout
    hostname := b.hostname
    cpus := b.cpus
    cpuWeight := b.cpuWeight
    memory := b.memory
    swap := b.swap
    pids := b.pids
    ulimits := b.ulimits
    mounts := hmounts
    readOnly := b.readOnly
    caps := b.caps
    addr := b.addr
    publish := b.publish
    pingGroup := b.pingGroup
    restart := b.restart
    healthcheck := by unfold Version.healthcheck; rw [hroot']; exact hhealth
    labels := by rw [hfile]; exact b.labels
    exitStatus := b.exitStatus }

/-- A spec is what a build makes of the answers it got. -/
theorem BuildState.spec_known {S : Type} {x : Extern} {h : Host S} {file : ComposeFile} {opts : UpOptions}
    {paths : String → String} (hput : PutsAt h file.project paths) {st st' : BuildState} {service : String}
    {idx : UInt32}
    {s s' : S} {spec : Spec} (hs : st.spec x h file opts service idx s = (.ok (spec, st'), s')) {images : Images}
    (himages : Images.Extends st'.images images) :
    ∃ svc built addr, file.services.get? service = some svc ∧
      Built x (known file st.templates images (pathsOf file opts paths)) service idx svc built ∧
      spec = { built with net := { built.net with addr := some addr } } := by
  obtain ⟨⟨built, images'⟩, s₁, hb, hs⟩ := Eff.bind_ok hs
  obtain ⟨⟨addr, ipam⟩, s₂, -, hs⟩ := Eff.bind_ok hs
  cases hs
  have hbuild := Eff.withLocal_ok hb
  obtain ⟨svc, hsvc, -, ⟨steps⟩⟩ := buildSpec_ok hbuild
  obtain ⟨volumes, tmpfs, configs, -, -, hconfigs, -⟩ := applyMounts_ok steps.hmounts
  refine ⟨svc, built, addr, hsvc, ?_, rfl⟩
  have hbetween : Images.Extends steps.between.2 images := by
    have hkeeps : Eff.Keeps (fun p : S × Images => Images.Extends steps.between.2 p.2)
        (applyMounts (st.ctx x h file opts) svc steps.limited) := by
      refine Eff.Keeps.bind (Eff.Keeps.lift _) fun volumes => ?_
      refine Eff.Keeps.bind (Eff.Keeps.lift _) fun tmpfs => ?_
      refine Eff.Keeps.bind (Eff.Keeps.collect _ fun e _ => ?_) fun configs => Eff.Keeps.pure _
      exact Eff.Keeps.bind (configPath_images st _ e.1) fun src => Eff.Keeps.pure _
    have hmore := hkeeps.apply (s := steps.between) fun _ _ hm => hm
    rw [steps.hmounts] at hmore
    exact fun image m hm => himages image m (hmore image m hm)
  have hroot : (Version.root ⟨file, st.ctx x h file opts, (s, st.images)⟩ service idx svc) =
    (.ok steps.root, steps.between) :=
    steps.hroot
  have b := buildSpec_built (v := ⟨file, st.ctx x h file opts, (s, st.images)⟩) hsvc hbuild
  refine Built.transfer (v := ⟨file, st.ctx x h file opts, (s, st.images)⟩) rfl rfl (congrArg Prod.fst hroot)
    (rootSpec_known steps.hroot hbetween) ?_ b
  have hmounts : Version.configs ⟨file, st.ctx x h file opts, (s, st.images)⟩ service idx svc = .ok configs := by
    unfold Version.configs
    rw [hroot]
    exact congrArg Prod.fst hconfigs
  rw [known_configs, hmounts, configs_known hput hconfigs]

/-! ## Answers in a log -/

/-- The log has metadata for an image; a dry run asks for no other than what is there. -/
def Answered (x : Extern) (dry : Bool) (log : List Event) (image : String) (m : ImageMeta) : Prop :=
  ∃ (policy : PullPolicy) (credentials : List RegistryCredential) (value : String), (dry = true → policy = .never) ∧
    (⟨.imagePull image policy.label credentials, .ok (.json value)⟩ : Event) ∈ log ∧ x.decodeMeta value = .ok m

/-- All images that are resolved are answers of the log. -/
def Sourced (x : Extern) (dry : Bool) (log : List Event) (images : Images) : Prop :=
  ∀ image m, images image = some m → Answered x dry log image m

theorem Sourced.mono {x : Extern} {dry : Bool} {log log' : List Event} {images : Images} (h : Sourced x dry log images)
    (hlog : ∀ e ∈ log, e ∈ log') : Sourced x dry log' images := by
  intro image m hm
  obtain ⟨policy, credentials, value, hdry, hin, hmeta⟩ := h image m hm
  exact ⟨policy, credentials, value, hdry, hlog _ hin, hmeta⟩

section Logged
variable {S : Type} {x : Extern} {h : Host S} {file : ComposeFile} {opts : UpOptions}

/-- Whatever is asked, the log only grows. -/
theorem zoomed_sourced {α : Type} {dry : Bool} {m : Prog (S × List Event) α}
    (hm : ∀ p, ∀ e ∈ p.2, e ∈ (m p).2.2) : Eff.Keeps (fun p : (S × List Event) × Images => Sourced x dry p.1.2 p.2)
      (Eff.zoom Prod.fst (fun s p => (s, p.2)) m) :=
  Eff.Keeps.of_state fun p hp => hp.mono (hm p.1)

theorem call_grows (r : Request) (p : S × List Event) : ∀ e ∈ p.2, e ∈ ((loggedHost h).call r p).2.2 :=
  fun _ he => List.mem_append_left _ he

theorem pullImage_sourced {dry : Bool} (image : String) (policy : PullPolicy) (hdry : dry = true → policy = .never)
    (credentials : List RegistryCredential) (images : Images) :
    Eff.Triple (fun p : (S × List Event) × Images => Sourced x dry p.1.2 p.2 ∧ p.2 = images)
      (pullImage x ((loggedHost h).zoom Prod.fst fun s p => (s, p.2)) image policy credentials)
      (fun img p => Sourced x dry p.1.2 p.2 ∧ p.2 = images ∧ Answered x dry p.1.2 image img)
      (fun _ p => Sourced x dry p.1.2 p.2) := by
  unfold pullImage
  split
  · exact Eff.Triple.throw fun _ hp => hp.1
  · have hcall : Eff.Triple (fun p : (S × List Event) × Images => Sourced x dry p.1.2 p.2 ∧ p.2 = images)
        (((loggedHost h).zoom Prod.fst fun s p => (s, p.2)).call (.imagePull image policy.label credentials))
        (fun res p => Sourced x dry p.1.2 p.2 ∧ p.2 = images ∧
          (⟨.imagePull image policy.label credentials, .ok res⟩ : Event) ∈ p.1.2)
        (fun _ p => Sourced x dry p.1.2 p.2) := by
      rintro ⟨⟨s, log⟩, images'⟩ ⟨hsourced, himages⟩
      have hrun : ((loggedHost h).zoom Prod.fst fun s (p : (S × List Event) × Images) => (s, p.2)).call
          (.imagePull image policy.label credentials) ((s, log), images') =
          ((h.call (.imagePull image policy.label credentials) s).1,
            ((h.call (.imagePull image policy.label credentials) s).2, log ++
              [⟨.imagePull image policy.label credentials,
              (h.call (.imagePull image policy.label credentials) s).1⟩]), images') := rfl
      have hmore : ∀ e : Event, Sourced x dry (log ++ [e]) images' :=
        fun e => hsourced.mono fun _ he => List.mem_append_left _ he
      rw [hrun]
      cases (h.call (.imagePull image policy.label credentials) s).1 with
      | error e => exact hmore _
      | ok res => exact ⟨hmore _, himages, List.mem_append_right _ (List.mem_singleton_self _)⟩
    apply Eff.Triple.bind hcall
    intro res
    cases res with
    | json value =>
      apply Eff.Triple.lift
      · intro img p hp hmeta
        exact ⟨hp.1, hp.2.1, policy, credentials, value, hdry, hp.2.2, hmeta⟩
      · exact fun _ _ hp _ => hp.1
    | _ => exact Eff.Triple.throw fun _ hp => hp.1

theorem resolveImage_sourced (st : BuildState) (image : String) (policy : PullPolicy) :
    Eff.Keeps (fun p : (S × List Event) × Images => Sourced x opts.dryRun p.1.2 p.2)
      (resolveImage x (loggedHost h) st file opts image policy) := by
  apply Eff.Triple.get_bind
  rintro ⟨p, now⟩ hnow
  dsimp only
  cases now image with
  | some img =>
    apply Eff.Triple.pure
    rintro p rfl
    exact hnow
  | none =>
    have hdry : opts.dryRun = true → (if opts.dryRun then PullPolicy.never else policy) = .never := fun h => if_pos h
    have hpull := pullImage_sourced (x := x) (h := h) image (if opts.dryRun then .never else policy) hdry
      (registryCredentials file.registries st.templates) now
    apply Eff.Triple.bind (hpull.pre fun q hq => by rw [hq]; exact ⟨hnow, rfl⟩)
    intro img
    refine Eff.Triple.bind (Q := fun _ q => Sourced x opts.dryRun q.1.2 q.2) (Eff.Triple.modify ?_)
      fun _ => Eff.Triple.pure fun _ hq => hq
    rintro q ⟨hsourced, himages, hanswered⟩ other m hm
    change Function.update q.2 image (some img) other = some m at hm
    by_cases heq : other = image
    · rw [heq, Function.update_self] at hm
      rw [heq, ← Option.some.inj hm]
      exact hanswered
    · rw [Function.update_of_ne heq] at hm
      exact hsourced other m hm

theorem configPath_sourced {dry : Bool} (st : BuildState) (name : String) :
    Eff.Keeps (fun p : (S × List Event) × Images => Sourced x dry p.1.2 p.2)
      (configPath x (loggedHost h) st file opts name) := by
  unfold configPath
  split
  · exact Eff.Keeps.throw _
  · apply Eff.Keeps.bind (zoomed_sourced fun _ _ he => he)
    intro text
    apply Eff.Keeps.bind (Eff.Keeps.lift _)
    intro rendered
    split
    · exact Eff.Keeps.pure _
    · apply Eff.Keeps.bind (zoomed_sourced fun p => call_grows _ p)
      intro r
      split
      · exact Eff.Keeps.pure _
      · exact unexpected_keeps _

theorem BuildState.spec_sourced {st st' : BuildState} {service : String} {idx : UInt32} {p p' : S × List Event}
    {spec : Spec} (hsourced : Sourced x opts.dryRun p.2 st.images)
    (hs : st.spec x (loggedHost h) file opts service idx p = (.ok (spec, st'), p')) :
    Sourced x opts.dryRun p'.2 st'.images := by
  obtain ⟨⟨built, images⟩, p₁, hb, hs⟩ := Eff.bind_ok hs
  obtain ⟨⟨addr, ipam⟩, -, hs⟩ := Eff.lift_bind_ok hs
  cases hs
  have hkeeps : Eff.Keeps (fun p : (S × List Event) × Images => Sourced x opts.dryRun p.1.2 p.2)
      (buildSpec x (st.ctx x (loggedHost h) file opts) file service idx) :=
    buildSpec_keeps
      { baseBuild := fun _ => Eff.Keeps.pure _
        oci := fun image policy => resolveImage_sourced st image policy
        configPath := fun name => configPath_sourced st name
        newId := zoomed_sourced fun _ _ he => he
        now := zoomed_sourced fun _ _ he => he } file service idx
  have hend := hkeeps.apply (s := (p, st.images)) hsourced
  rw [Eff.withLocal_ok hb] at hend
  exact hend

/-- A spec is built from what is known. -/
def FromKnown (x : Extern) (v : Version Unit) (service : String) (spec : Spec) : Prop :=
  ∃ svc replica built addr, v.file.services.get? service = some svc ∧ Built x v service replica svc built ∧
    spec = { built with net := { built.net with addr := some addr } }

/-- Preparing comes to what the file, the values for templates and the answers of the daemon say. -/
theorem prepare_known {paths : String → String} (hput : PutsAt h file.project paths) {p p' : S × List Event}
    {prep : Prepared} (hs : prepare x (loggedHost h) file opts p = (.ok prep, p')) :
    ∃ st p₁ images, BuildState.new x (loggedHost h) file opts p = (.ok st, p₁) ∧ Sourced x opts.dryRun p'.2 images ∧
      ∀ e ∈ prep.specs, ∀ spec ∈ e.2,
        FromKnown x (known file st.templates images (pathsOf file opts paths)) e.1 spec := by
  have hput' : PutsAt (loggedHost h) file.project paths := by
    rintro name text ⟨s, log⟩ path s' hcall
    have hanswer : (h.call (.configPut file.project name text) s).1 = .ok (.text path) := congrArg Prod.fst hcall
    exact hput name text s path _ (Prod.ext hanswer rfl)
  obtain ⟨st, p₁, last, hnew, hgrows, hsourced, hspecs⟩ := prepare_specs
    (J := fun st p => Sourced x opts.dryRun p.2 st.images)
    (P := fun st service spec => ∀ images, Images.Extends st.images images →
      FromKnown x (known file st.templates images (pathsOf file opts paths)) service spec)
    (fun st st' service spec hst hspec images himages => by
      rw [hst.templates]
      exact hspec images fun image m hm => himages image m (hst.images image m hm))
    (fun service st idx p spec st' p' hJ hspec => by
      refine ⟨BuildState.spec_sourced hJ hspec, fun images himages => ?_⟩
      obtain ⟨svc, built, addr, hsvc, b, rfl⟩ := BuildState.spec_known hput' hspec himages
      rw [(BuildState.spec_grows hspec).templates]
      exact ⟨svc, idx, built, addr, hsvc, b, rfl⟩)
    (fun st p₁ hnew image m hm => by
      obtain ⟨steps⟩ := BuildState.new_ok hnew
      rw [steps.hst] at hm
      cases hm) hs
  rw [hgrows.templates] at hspecs
  exact ⟨st, p₁, last.images, hnew, hsourced, fun e he spec hspec => hspecs e he spec hspec _ fun _ _ hm => hm⟩

/-- What a preparation from a state comes to, with its templates' values and the metadata that its log has for
images. -/
structure PreparedFrom (x : Extern) (h : Host S) (file : ComposeFile) (opts : UpOptions) (paths : String → String)
    (s : S) (log : List Event) (tctx : Context) (images : Images) (prep : Prepared) : Prop where
  prepared : ∃ p, prepare x (loggedHost h) file opts (s, []) = (.ok prep, p)
  templates : ∃ st p, BuildState.new x (loggedHost h) file opts (s, []) = (.ok st, p) ∧ st.templates = tctx
  sourced : Sourced x opts.dryRun log images
  specs : ∀ e ∈ prep.specs, ∀ spec ∈ e.2, FromKnown x (known file tctx images (pathsOf file opts paths)) e.1 spec

end Logged

theorem fakeHost_puts (project : String) :
    PutsAt fakeHost project fun name => s!"/state/configs/{project}/" ++ name := by
  intro name text s path s' hcall
  have hpath := Response.text.inj (Except.ok.inj (congrArg Prod.fst hcall))
  rw [← hpath]
  rfl

end Collocate.Compose
