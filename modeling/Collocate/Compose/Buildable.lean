import Collocate.Compose.Build

/-! # What validation promises to building (`collocate-compose/src/model.rs`, `build.rs`)

`build_spec` parses what `ComposeFile::validate` has parsed, and more: volumes, `tmpfs` mounts, the stop signal and
the command of a healthcheck. A replica of a valid file is built exactly when these parse. -/
namespace Collocate.Compose
set_option autoImplicit false

/-! ## Lists of results -/

theorem mapM_ok_iff {α β : Type} {f : α → Result β} {l : List α} :
    (∃ bs, l.mapM f = .ok bs) ↔ ∀ a ∈ l, ∃ b, f a = .ok b := by
  constructor
  · rintro ⟨bs, h⟩ a ha
    obtain ⟨b, -, hb⟩ := (Result.mapM_ok_mem h).2 a ha
    exact ⟨b, hb⟩
  · intro h
    induction l with
    | nil => exact ⟨[], rfl⟩
    | cons a l ih =>
      obtain ⟨b, hb⟩ := h a List.mem_cons_self
      obtain ⟨bs, hbs⟩ := ih fun a' ha' => h a' (List.mem_cons_of_mem _ ha')
      rw [List.mapM_cons, hb, hbs]
      exact ⟨b :: bs, rfl⟩

theorem foldlM_ok_iff {α β : Type} {f : β → α → Result β} {P : α → Prop}
    (hf : ∀ b a, (∃ b', f b a = .ok b') ↔ P a) {l : List α} {b : β} : (∃ b', l.foldlM f b = .ok b') ↔ ∀ a ∈ l, P a := by
  induction l generalizing b with
  | nil => exact ⟨fun _ a ha => absurd ha List.not_mem_nil, fun _ => ⟨b, rfl⟩⟩
  | cons a l ih =>
    rw [List.foldlM_cons]
    constructor
    · rintro ⟨b', h⟩
      obtain ⟨c, hc, h⟩ := Result.bind_ok h
      intro a' ha'
      cases ha' with
      | head => exact (hf b a).mp ⟨c, hc⟩
      | tail _ hmem => exact ih.mp ⟨b', h⟩ a' hmem
    · intro h
      obtain ⟨c, hc⟩ := (hf b a).mpr (h a (List.mem_cons_self ..))
      rw [hc]
      exact ih.mpr fun a' ha' => h a' (List.mem_cons_of_mem _ ha')

theorem map_ok_iff {α β : Type} {r : Result α} {g : α → β} : (∃ b, r.map g = .ok b) ↔ ∃ a, r = .ok a := by
  cases r with
  | error e =>
    constructor
    · rintro ⟨b, hb⟩
      cases hb
    · rintro ⟨a, ha⟩
      cases ha
  | ok a =>
    constructor
    · exact fun _ => ⟨a, rfl⟩
    · exact fun _ => ⟨g a, rfl⟩

/-! ## Contexts -/

variable {S : Type} {x : Extern} {ctx : BuildCtx S} {file : ComposeFile}

/-- A context with a value for all that the file declares, and callbacks that succeed, an image with a command. -/
structure Complete (file : ComposeFile) (ctx : BuildCtx S) : Prop where
  secrets : ∀ n, file.secrets.contains n = true → ∃ v, ctx.templates.secrets n = some v
  addresses : ∀ n, file.services.contains n = true → ∃ a rest, ctx.templates.addresses n = some (a :: rest)
  lbAddresses : ∀ n, file.loadbalancers.contains n = true → ∃ a, ctx.templates.lbAddresses n = some a
  baseBuild : ∀ series s, ∃ b s', ctx.baseBuild series s = (.ok b, s')
  oci : ∀ image policy s, ∃ img s', ctx.oci image policy s = (.ok img, s') ∧ img.config.entrypoint ++
    img.config.cmd ≠ []
  configPath : ∀ name s, ∃ path s', ctx.configPath name s = (.ok path, s')
  newId : ∀ s, ∃ id s', ctx.newId s = (.ok id, s')
  now : ∀ s, ∃ t s', ctx.now s = (.ok t, s')

/-- The references of a text are well formed and have values. -/
def Resolves (ctx : Context) (text : String) : Prop :=
  ∃ refs, references text = .ok refs ∧ ∀ r ∈ refs, ∃ v, lookupRef ctx r = .ok v

/-- The fields that validation does not look at parse. -/
structure Parses (ctx : Context) (svc : Service) : Prop where
  volumes : ∀ v ∈ svc.volume.toList ++ svc.volumes, ∃ w, Volume.parse v = .ok w
  tmpfs : ∀ t ∈ svc.tmpfs, ∃ m, parseTmpfs t = .ok m
  stopSignal : ∀ sig, svc.stopSignal = some sig → ∃ n, signalNumber sig = .ok n
  exec : ∀ d, svc.healthcheck = some d → d.tcp = none → d.http = none → d.pebble = none →
    ∀ a ∈ d.exec.getD [], Resolves ctx a

theorem resolves_of_checked (hc : Complete file ctx) {owner text : String} (h : file.checkRefs owner text = .ok ()) :
    Resolves ctx.templates text := by
  obtain ⟨refs, hrefs, h⟩ := Result.bind_ok h
  refine ⟨refs, hrefs, fun r hr => ?_⟩
  have hr := ComposeFile.forM_ok h r hr
  cases r with
  | secret n =>
    by_cases hn : file.secrets.contains n = true
    · obtain ⟨v, hv⟩ := hc.secrets n hn
      exact ⟨v, by simp [lookupRef, hv]⟩
    · simp only [ComposeFile.checkRef, if_neg hn] at hr
      cases hr
  | serviceAddress n =>
    by_cases hn : file.services.contains n = true
    · obtain ⟨a, rest, hv⟩ := hc.addresses n hn
      exact ⟨_, by simp [lookupRef, hv]; rfl⟩
    · simp only [ComposeFile.checkRef, if_neg hn] at hr
      cases hr
  | serviceAddresses n =>
    by_cases hn : file.services.contains n = true
    · obtain ⟨a, rest, hv⟩ := hc.addresses n hn
      exact ⟨_, by simp only [lookupRef, hv]; rfl⟩
    · simp only [ComposeFile.checkRef, if_neg hn] at hr
      cases hr
  | lbAddress n =>
    by_cases hn : file.loadbalancers.contains n = true
    · obtain ⟨a, hv⟩ := hc.lbAddresses n hn
      exact ⟨_, by simp only [lookupRef, hv]; rfl⟩
    · simp only [ComposeFile.checkRef, if_neg hn] at hr
      cases hr

theorem resolveAll_ok_iff {args : List String} {tctx : Context} :
    (∃ argv, resolveAll args tctx = .ok argv) ↔ ∀ a ∈ args, Resolves tctx a := by
  unfold resolveAll
  rw [mapM_ok_iff]
  exact forall₂_congr fun a _ => resolve_ok_iff

/-! ## The steps -/

theorem imageArgv_ne_nil {img : ImageMeta} {svc : Service} {ov : RunOverrides} {tctx : Context}
    (himg : img.config.entrypoint ++ img.config.cmd ≠ []) (hov : imageOverrides svc tctx = .ok ov) :
    imageArgv img ov ≠ [] := by
  obtain ⟨command, -, hov⟩ := Result.bind_ok hov
  unfold imageArgv
  by_cases hentry : svc.entrypoint = []
  · rw [hentry] at hov
    cases hov
    cases command with
    | nil => simpa using himg
    | cons c cs => simp
  · have hentry' : svc.entrypoint.isEmpty = false := by simpa using hentry
    simp only [hentry', Bool.false_eq_true, if_false] at hov
    obtain ⟨entrypoint, hresolved, hov⟩ := Result.bind_ok hov
    cases hov
    obtain ⟨argv, hargv, rfl⟩ : ∃ argv, resolveAll svc.entrypoint tctx = .ok argv ∧ some argv = entrypoint := by
      cases hr : resolveAll svc.entrypoint tctx with
      | error e => rw [hr] at hresolved; cases hresolved
      | ok argv => rw [hr] at hresolved; cases hresolved; exact ⟨argv, rfl, rfl⟩
    have hsome : argv ≠ [] := by
      intro hnil
      subst hnil
      cases he : svc.entrypoint with
      | nil => exact hentry he
      | cons a as =>
        rw [he, resolveAll] at hargv
        obtain ⟨_, _, -, -, hcons⟩ := Result.mapM_cons_ok hargv
        cases hcons
    simp [hsome]

theorem specFromImage_ok {id : ContainerId} {created : UInt64} {img : ImageMeta} {ov : RunOverrides}
    (h : imageArgv img ov ≠ []) : ∃ spec, specFromImage id created img ov = .ok spec := by
  unfold specFromImage
  rw [if_neg (by simpa using h)]
  exact ⟨_, rfl⟩

theorem imageOverrides_ok {svc : Service} {tctx : Context} (h : ∀ a ∈ svc.command ++ svc.entrypoint, Resolves tctx a) :
    ∃ ov, imageOverrides svc tctx = .ok ov := by
  obtain ⟨command, hcommand⟩ := resolveAll_ok_iff.mpr fun a ha => h a (List.mem_append_left _ ha)
  obtain ⟨entrypoint, hentry⟩ := resolveAll_ok_iff.mpr fun a ha => h a (List.mem_append_right _ ha)
  unfold imageOverrides
  rw [hcommand, hentry]
  by_cases he : svc.entrypoint.isEmpty = true
  · simp only [he, if_true]
    exact ⟨_, rfl⟩
  · simp only [if_neg he]
    exact ⟨_, rfl⟩

theorem rootSpec_succeeds (hc : Complete file ctx) {name : String} {svc : Service}
    (hs : ComposeFile.ServiceChecked file name svc) (service full : String) (s : S) :
    ∃ root s', rootSpec ctx service full svc s = (.ok root, s') := by
  have htext : ∀ a ∈ svc.command ++ svc.entrypoint, Resolves ctx.templates a := by
    intro a ha
    apply resolves_of_checked hc (hs.texts a _)
    rw [List.append_assoc]
    exact List.mem_append_right _ ha
  unfold rootSpec
  cases hseries : svc.series with
  | some t =>
    obtain ⟨series, hparse⟩ := hs.series t hseries
    obtain ⟨buildId, s₁, hbuild⟩ := hc.baseBuild series s
    obtain ⟨argv, hargv⟩ : ∃ argv, resolveAll (svc.entrypoint ++ svc.command) ctx.templates = .ok argv :=
      resolveAll_ok_iff.mpr fun a ha => htext a (List.mem_append.mpr (List.mem_append.mp ha).symm)
    obtain ⟨id, s₂, hid⟩ := hc.newId s₁
    obtain ⟨created, s₃, hnow⟩ := hc.now s₂
    refine ⟨Spec.new id created full (.base series buildId) argv, s₃, ?_⟩
    simp only [hparse, Eff.lift_ok_bind]
    rw [Eff.bind_of_ok hbuild, hargv, Eff.lift_ok_bind, Eff.bind_of_ok hid, Eff.bind_of_ok hnow]
    rfl
  | none =>
    cases himage : svc.image with
    | none => exact absurd (by rw [himage, hseries]) hs.oneRoot
    | some image =>
      have hpolicy : ∃ p, pullPolicyOf svc = .ok p := by
        unfold pullPolicyOf
        cases hp : svc.pullPolicy with
        | none => exact ⟨_, rfl⟩
        | some p => exact hs.pullPolicy p hp
      obtain ⟨policy, hpolicy⟩ := hpolicy
      obtain ⟨img, s₁, hoci, himg⟩ := hc.oci image policy s
      obtain ⟨ov, hov⟩ := imageOverrides_ok htext
      obtain ⟨id, s₂, hid⟩ := hc.newId s₁
      obtain ⟨created, s₃, hnow⟩ := hc.now s₂
      obtain ⟨spec, hspec⟩ : ∃ spec, specFromImage id created img ov = .ok spec :=
        specFromImage_ok (imageArgv_ne_nil himg hov)
      refine ⟨{ spec with name := full }, s₃, ?_⟩
      simp only [hpolicy, Eff.lift_ok_bind]
      rw [Eff.bind_of_ok hoci, hov, Eff.lift_ok_bind, Eff.bind_of_ok hid, Eff.bind_of_ok hnow, hspec]
      rfl

theorem bind_pure_ok_iff {α β : Type} {r : Result α} {g : α → β} :
    (∃ b, (do let a ← r; pure (g a)) = Except.ok b) ↔ ∃ a, r = .ok a := by
  constructor
  · rintro ⟨b, h⟩
    obtain ⟨a, ha, -⟩ := Result.bind_ok h
    exact ⟨a, ha⟩
  · rintro ⟨a, rfl⟩
    exact ⟨g a, rfl⟩

theorem applyProcess_succeeds {tctx : Context} {svc : Service} (henv : ∀ t ∈ svc.env.values, Resolves tctx t)
    (hsignal : ∀ sig, svc.stopSignal = some sig → ∃ n, signalNumber sig = .ok n) (spec : Spec) :
    ∃ spec', applyProcess tctx svc spec = .ok spec' := by
  obtain ⟨env, henv⟩ := (foldlM_ok_iff (P := fun e : String × String => Resolves tctx e.2)
    (f := fun env (e : String × String) => do
      let v ← resolve e.2 tctx
      pure (setEnv env e.1 v))
    (fun _ _ => bind_pure_ok_iff.trans resolve_ok_iff) (b := spec.process.env)).mpr
      fun e he => henv e.2 (List.mem_map_of_mem he)
  unfold applyProcess
  rw [henv]
  cases hs : svc.stopSignal with
  | none => exact ⟨_, rfl⟩
  | some sig =>
    obtain ⟨n, hn⟩ := hsignal sig hs
    simp only [hn]
    exact ⟨_, rfl⟩

theorem applyLimits_succeeds {svc : Service} (hmemory : ∀ m, svc.memory = some m → ∃ v, parseSize m = .ok v)
    (spec : Spec) : ∃ spec', applyLimits x svc spec = .ok spec' := by
  unfold applyLimits
  cases hm : svc.memory with
  | none => exact ⟨_, rfl⟩
  | some m =>
    obtain ⟨v, hv⟩ := hmemory m hm
    simp only [hv]
    exact ⟨_, rfl⟩

theorem collect_succeeds {ε α β : Type} {f : α → Eff S ε β} (hf : ∀ a s, ∃ b s', f a s = (.ok b, s')) (l : List α)
    (s : S) : ∃ bs s', Eff.collect f l s = (.ok bs, s') := by
  induction l generalizing s with
  | nil => exact ⟨[], s, rfl⟩
  | cons a l ih =>
    obtain ⟨b, s₁, hb⟩ := hf a s
    obtain ⟨bs, s₂, hbs⟩ := ih s₁
    refine ⟨b :: bs, s₂, ?_⟩
    rw [Eff.collect, Eff.bind_of_ok hb, Eff.bind_of_ok hbs]
    rfl

theorem applyMounts_succeeds (hc : Complete file ctx) {svc : Service}
    (hvolumes : ∀ v ∈ svc.volume.toList ++ svc.volumes, ∃ w, Volume.parse v = .ok w)
    (htmpfs : ∀ t ∈ svc.tmpfs, ∃ m, parseTmpfs t = .ok m) (spec : Spec) (s : S) :
    ∃ spec' s', applyMounts ctx svc spec s = (.ok spec', s') := by
  obtain ⟨volumes, hvolumes⟩ : ∃ vs, (svc.volume.toList ++ svc.volumes).mapM volumeMount = .ok vs :=
    mapM_ok_iff.mpr fun v hv => bind_pure_ok_iff.mpr (hvolumes v hv)
  obtain ⟨tmpfs, htmpfs⟩ := mapM_ok_iff.mpr htmpfs
  have hconfig : ∀ (e : String × String) (s : S), ∃ m s', (do
      let src ← ctx.configPath e.1
      pure (Mount.config src e.2) : Prog S Mount) s = (.ok m, s') := by
    intro e s
    obtain ⟨path, s', hpath⟩ := hc.configPath e.1 s
    refine ⟨.config path e.2, s', ?_⟩
    rw [Eff.bind_of_ok hpath]
    rfl
  obtain ⟨configs, s', hconfigs⟩ := collect_succeeds hconfig svc.configs.entries s
  unfold applyMounts
  rw [hvolumes, Eff.lift_ok_bind, htmpfs, Eff.lift_ok_bind, Eff.bind_of_ok hconfigs]
  exact ⟨_, s', rfl⟩

theorem health_ok_iff {d : HealthDef} {tctx : Context}
    (hdurations : ∀ t ∈ [d.interval, d.timeout, d.startPeriod], ∃ v, parseDurationSecs t = .ok v) :
    (∃ hc, health d tctx = .ok hc) ↔
      (d.tcp = none → d.http = none → d.pebble = none → ∀ a ∈ d.exec.getD [], Resolves tctx a) := by
  obtain ⟨interval, hinterval⟩ := hdurations d.interval (by simp)
  obtain ⟨timeout, htimeout⟩ := hdurations d.timeout (by simp)
  obtain ⟨startPeriod, hstart⟩ := hdurations d.startPeriod (by simp)
  have hkind : (∃ hc, health d tctx = .ok hc) ↔ ∃ k, healthKind d tctx = .ok k := by
    constructor
    · rintro ⟨hc, h⟩
      obtain ⟨k, hk, -⟩ := Result.bind_ok h
      exact ⟨k, hk⟩
    · rintro ⟨k, hk⟩
      unfold health
      rw [hk, hinterval, htimeout, hstart]
      exact ⟨_, rfl⟩
  rw [hkind]
  unfold healthKind
  cases htcp : d.tcp with
  | some port => simp
  | none =>
    cases hhttp : d.http with
    | some c => simp
    | none =>
      cases hpebble : d.pebble with
      | some level => simp
      | none =>
        rw [map_ok_iff, resolveAll_ok_iff]
        simp

/-- Ports that could be claimed can be published. -/
theorem publish_of_claimed {node : Option String} {maps : List String} {before after : Published}
    (h : ComposeFile.claimPorts node before maps = .ok after) : ∃ ps, maps.mapM Publish.parse = .ok ps := by
  rw [mapM_ok_iff]
  intro text htext
  obtain ⟨c, c', hc⟩ := Result.foldlM_ok h text htext
  obtain ⟨p, hp, -⟩ := Result.bind_ok hc
  exact ⟨p, hp⟩

theorem applyRest_succeeds {tctx : Context} {svc : Service} (hpublish : ∃ ps, svc.publish.mapM Publish.parse = .ok ps)
    (hhealth : ∀ d, svc.healthcheck = some d → ∃ hc, health d tctx = .ok hc) (spec : Spec) :
    ∃ spec', applyRest tctx svc spec = .ok spec' := by
  obtain ⟨ps, hps⟩ := hpublish
  unfold applyRest
  rw [hps]
  cases hd : svc.healthcheck with
  | none => exact ⟨_, rfl⟩
  | some d =>
    obtain ⟨hc, hhc⟩ := hhealth d hd
    simp only [hhc]
    exact ⟨_, rfl⟩

/-! ## When a replica is built -/

theorem buildReplica_succeeds (hc : Complete file ctx) {name : String} {svc : Service}
    (hs : ComposeFile.ServiceChecked file name svc) (hp : Parses ctx.templates svc) (service : String)
    (replica : UInt32) (s : S) : ∃ spec s', buildReplica x ctx file service svc replica s = (.ok spec, s') := by
  obtain ⟨root, s₁, hroot⟩ := rootSpec_succeeds hc hs service s!"{file.project}-{service}-{replica + 1}" s
  have henv : ∀ t ∈ svc.env.values, Resolves ctx.templates t := fun t ht =>
    resolves_of_checked hc (hs.texts t (by
      rw [List.append_assoc]
      exact List.mem_append_left _ ht))
  obtain ⟨processed, hprocess⟩ := applyProcess_succeeds henv hp.stopSignal { root with
    hostname := if svc.maxReplicas = 1 then service else s!"{service}-{replica + 1}"
    persistent := svc.persistent }
  obtain ⟨limited, hlimits⟩ := applyLimits_succeeds (x := x) hs.memory processed
  obtain ⟨mounted, s₂, hmounts⟩ := applyMounts_succeeds hc hp.volumes hp.tmpfs limited s₁
  obtain ⟨before, after, hclaimed⟩ := hs.publish
  have hhealth : ∀ d, svc.healthcheck = some d → ∃ hc, health d ctx.templates = .ok hc := fun d hd =>
    (health_ok_iff (hs.durations d hd)).mpr (hp.exec d hd)
  obtain ⟨rest, hrest⟩ := applyRest_succeeds (publish_of_claimed hclaimed) hhealth mounted
  unfold buildReplica
  rw [Eff.bind_of_ok hroot, hprocess, Eff.lift_ok_bind, hlimits, Eff.lift_ok_bind, Eff.bind_of_ok hmounts, hrest]
  exact ⟨_, s₂, rfl⟩

theorem parses_of_built {service name : String} {svc : Service} {replica : UInt32} {s s' : S} {spec : Spec}
    (hs : ComposeFile.ServiceChecked file name svc) (steps : Steps x ctx file service svc replica s s' spec) :
    Parses ctx.templates svc := by
  obtain ⟨env, stopSignal, -, hsignal, -⟩ := applyProcess_ok steps.hprocess
  obtain ⟨volumes, tmpfs, configs, hvolumes, htmpfs, -, -⟩ := applyMounts_ok steps.hmounts
  obtain ⟨publish, healthcheck, -, hhealth, -⟩ := applyRest_ok steps.hrest
  exact {
    volumes := fun v hv => bind_pure_ok_iff.mp (mapM_ok_iff.mp ⟨volumes, hvolumes⟩ v hv)
    tmpfs := mapM_ok_iff.mp ⟨tmpfs, htmpfs⟩
    stopSignal := fun sig hsig => by
      rw [hsig, Option.elim_some] at hsignal
      exact ⟨stopSignal, hsignal⟩
    exec := fun d hd => by
      rw [hd, Option.elim_some] at hhealth
      exact (health_ok_iff (hs.durations d hd)).mp (map_ok_iff.mp ⟨healthcheck, hhealth⟩) }

/-- A replica of a valid file is built when what validation does not look at parses as well. -/
theorem valid_builds_iff (hv : file.validate = .ok ()) (hc : Complete file ctx) {service : String} {svc : Service}
    (hs : file.services.get? service = some svc) {replica : UInt32} (hr : replica < svc.indexBound) (s : S) :
    (∃ spec s', buildSpec x ctx file service replica s = (.ok spec, s')) ↔ Parses ctx.templates svc := by
  have hchecked := ComposeFile.validate_checked hv hs
  have hin : ¬svc.indexBound ≤ replica := by simpa using hr
  have hbuild : buildSpec x ctx file service replica = buildReplica x ctx file service svc replica := by
    unfold buildSpec
    simp only [hs, if_neg hin]
  rw [hbuild]
  constructor
  · rintro ⟨spec, s', h⟩
    obtain ⟨steps⟩ := buildReplica_ok h
    exact parses_of_built hchecked steps
  · intro hp
    exact buildReplica_succeeds hc hchecked hp service replica s

/-! ## A valid file that is not built -/

/-- A codec that keeps the command of a spec, and a digest that keeps the first bytes. -/
def argvExtern : Extern where
  sha256 bytes := (bytes ++ List.replicate 32 0).take 32
  specJson s := s.process.argv.flatMap fun a => a.toByteArray.data.toList
  decodeMeta _ := .error (.json "not an image")
  debugResponse _ := ""
  cpusMilli _ := 0

def shellImage : ImageMeta where
  name := "shell"
  digest := "sha256:0"
  layers := []
  config := { cmd := ["/bin/sh"] }
  kind := .oci

/-- A context with a value for whatever a file may ask. -/
def anyCtx : BuildCtx Unit where
  templates := ⟨fun _ => some "value", fun _ => some [⟨0⟩], fun _ => some ⟨0⟩⟩
  baseBuild _ := pure "latest"
  oci _ _ := pure shellImage
  configPath name := pure name
  newId := pure 0
  now := pure 0

theorem anyCtx_complete (file : ComposeFile) : Complete file anyCtx where
  secrets _ _ := ⟨"value", rfl⟩
  addresses _ _ := ⟨⟨0⟩, [], rfl⟩
  lbAddresses _ _ := ⟨⟨0⟩, rfl⟩
  baseBuild _ s := ⟨"latest", s, rfl⟩
  oci _ _ s := ⟨shellImage, s, rfl, by decide⟩
  configPath name s := ⟨name, s, rfl⟩
  newId s := ⟨0, s, rfl⟩
  now s := ⟨0, s, rfl⟩

def stoppedService (signal : String) : Service := { image := some "httpd", stopSignal := some signal }

/-- One service, which is stopped by a signal of its own. -/
def stoppedBy (signal : String) : ComposeFile where
  project := "p"
  services := OrdMap.empty.insert "web" (stoppedService signal)

theorem sigterm_built : ∃ spec s', buildSpec argvExtern anyCtx (stoppedBy "SIGTERM") "web" 0 () = (.ok spec, s') := by
  have hp : Parses anyCtx.templates (stoppedService "SIGTERM") := {
    volumes := fun v hv => absurd hv List.not_mem_nil
    tmpfs := fun t ht => absurd ht List.not_mem_nil
    stopSignal := fun sig hsig => by
      cases hsig
      exact ⟨15, by decide +kernel⟩
    exec := nofun }
  exact (valid_builds_iff (by decide +kernel) (anyCtx_complete _) (by decide +kernel) (by decide +kernel) ()).mpr hp

/-- Apache's stop signal is one that images may name and services may not. -/
theorem sigwinch_not_built : (stoppedBy "SIGWINCH").validate = .ok () ∧ Complete (stoppedBy "SIGWINCH") anyCtx ∧
    (stoppedBy "SIGWINCH").services.get? "web" = some (stoppedService "SIGWINCH") ∧
    0 < (stoppedService "SIGWINCH").indexBound ∧
    (buildSpec argvExtern anyCtx (stoppedBy "SIGWINCH") "web" 0 ()).1 = .error (.invalid "unknown signal SIGWINCH") :=
  ⟨by decide +kernel, anyCtx_complete _, by decide +kernel, by decide +kernel, by decide +kernel⟩

end Collocate.Compose
