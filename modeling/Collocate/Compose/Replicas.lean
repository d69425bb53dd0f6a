import Collocate.Compose.Revision

/-! # Replicas of one revision (`collocate-compose/src/build.rs`, `collocate-core/src/spec.rs`)

Two builds of a service in one context differ in what is drawn for each container and in what the number of the replica
reaches: its name, its host name and its label. The revision digests none of these. -/
namespace Collocate.Compose
set_option autoImplicit false

/-- In states with `I` the callbacks of a context answer in one way, and leave them such. What is drawn for a container
may be anything. -/
structure BuildCtx.Answers {S : Type} (ctx : BuildCtx S) (I : S → Prop) : Prop where
  keeps : ctx.Keeps I
  baseBuild : ∀ series s s', I s → I s' → (ctx.baseBuild series s).1 = (ctx.baseBuild series s').1
  oci : ∀ image policy s s', I s → I s' → (ctx.oci image policy s).1 = (ctx.oci image policy s').1
  configPath : ∀ name s s', I s → I s' → (ctx.configPath name s).1 = (ctx.configPath name s').1

/-- One spec is the other, but for what is drawn for it and what its number reaches. -/
def Alike (a b : Spec) : Prop := ∃ id name hostname created, a = { b with id, name, hostname, created }

section Build
variable {S : Type} {x : Extern} {ctx : BuildCtx S} {I : S → Prop} {tctx : Context} {svc : Service}

/-- Two runs that answer in one way. -/
theorem answers_agree {α : Type} {m : Prog S α} {s₁ s₂ s₁' s₂' : S} {a b : α} (hsame : (m s₁).1 = (m s₂).1)
    (ha : m s₁ = (.ok a, s₁')) (hb : m s₂ = (.ok b, s₂')) : a = b := by
  rw [ha, hb] at hsame
  exact Except.ok.inj hsame

theorem keeps_after {α : Type} {m : Prog S α} (hm : Eff.Keeps I m) {s s' : S} {r : Result α} (hI : I s)
    (h : m s = (r, s')) : I s' := by
  have hend := hm.apply hI
  rwa [h] at hend

theorem rootSpec_alike (hc : ctx.Answers I) {service name₁ name₂ : String} {s₁ s₂ s₁' s₂' : S} {r₁ r₂ : Spec}
    (hI₁ : I s₁) (hI₂ : I s₂) (h₁ : rootSpec ctx service name₁ svc s₁ = (.ok r₁, s₁'))
    (h₂ : rootSpec ctx service name₂ svc s₂ = (.ok r₂, s₂')) : Alike r₁ r₂ := by
  unfold rootSpec at h₁ h₂
  cases hseries : svc.series with
  | some series =>
    simp only [hseries] at h₁ h₂
    obtain ⟨parsed, hparsed, h₁⟩ := Eff.lift_bind_ok h₁
    obtain ⟨parsed', hparsed', h₂⟩ := Eff.lift_bind_ok h₂
    obtain rfl := Except.ok.inj (hparsed.symm.trans hparsed')
    obtain ⟨buildId, t₁, hbuild, h₁⟩ := Eff.bind_ok h₁
    obtain ⟨buildId', t₂, hbuild', h₂⟩ := Eff.bind_ok h₂
    obtain rfl := answers_agree (hc.baseBuild parsed s₁ s₂ hI₁ hI₂) hbuild hbuild'
    obtain ⟨argv, hargv, h₁⟩ := Eff.lift_bind_ok h₁
    obtain ⟨argv', hargv', h₂⟩ := Eff.lift_bind_ok h₂
    obtain rfl := Except.ok.inj (hargv.symm.trans hargv')
    obtain ⟨id, u₁, -, h₁⟩ := Eff.bind_ok h₁
    obtain ⟨id', u₂, -, h₂⟩ := Eff.bind_ok h₂
    obtain ⟨created, v₁, -, h₁⟩ := Eff.bind_ok h₁
    obtain ⟨created', v₂, -, h₂⟩ := Eff.bind_ok h₂
    cases h₁
    cases h₂
    exact ⟨id, name₁, _, created, rfl⟩
  | none =>
    cases himage : svc.image with
    | none =>
      simp only [hseries, himage] at h₁
      cases h₁
    | some image =>
      simp only [hseries, himage] at h₁ h₂
      obtain ⟨policy, hpolicy, h₁⟩ := Eff.lift_bind_ok h₁
      obtain ⟨policy', hpolicy', h₂⟩ := Eff.lift_bind_ok h₂
      obtain rfl := Except.ok.inj (hpolicy.symm.trans hpolicy')
      obtain ⟨img, t₁, himg, h₁⟩ := Eff.bind_ok h₁
      obtain ⟨img', t₂, himg', h₂⟩ := Eff.bind_ok h₂
      obtain rfl := answers_agree (hc.oci image policy s₁ s₂ hI₁ hI₂) himg himg'
      obtain ⟨ov, hov, h₁⟩ := Eff.lift_bind_ok h₁
      obtain ⟨ov', hov', h₂⟩ := Eff.lift_bind_ok h₂
      obtain rfl := Except.ok.inj (hov.symm.trans hov')
      obtain ⟨id, u₁, -, h₁⟩ := Eff.bind_ok h₁
      obtain ⟨id', u₂, -, h₂⟩ := Eff.bind_ok h₂
      obtain ⟨created, v₁, -, h₁⟩ := Eff.bind_ok h₁
      obtain ⟨created', v₂, -, h₂⟩ := Eff.bind_ok h₂
      have hspec₁ := (Eff.lift_ok h₁).1
      have hspec₂ := (Eff.lift_ok h₂).1
      unfold imageSpec specFromImage at hspec₁ hspec₂
      by_cases hempty : (imageArgv img ov).isEmpty = true
      · simp only [hempty, if_true] at hspec₁
        cases hspec₁
      · simp only [hempty] at hspec₁ hspec₂
        cases hspec₁
        cases hspec₂
        exact ⟨id, name₁, _, created, rfl⟩

theorem applyProcess_alike {a b a' b' : Spec} (h : Alike a b) (ha : applyProcess tctx svc a = .ok a')
    (hb : applyProcess tctx svc b = .ok b') : Alike a' b' := by
  obtain ⟨id, name, hostname, created, rfl⟩ := h
  obtain ⟨env, stopSignal, henv, hsignal, rfl⟩ := applyProcess_ok ha
  obtain ⟨env', stopSignal', henv', hsignal', rfl⟩ := applyProcess_ok hb
  obtain rfl := Except.ok.inj (henv.symm.trans henv')
  obtain rfl := Except.ok.inj (hsignal.symm.trans hsignal')
  exact ⟨id, name, _, created, rfl⟩

theorem applyLimits_alike {a b a' b' : Spec} (h : Alike a b) (ha : applyLimits x svc a = .ok a')
    (hb : applyLimits x svc b = .ok b') : Alike a' b' := by
  obtain ⟨id, name, hostname, created, rfl⟩ := h
  obtain ⟨memory, hmemory, rfl⟩ := applyLimits_ok ha
  obtain ⟨memory', hmemory', rfl⟩ := applyLimits_ok hb
  obtain rfl := Except.ok.inj (hmemory.symm.trans hmemory')
  exact ⟨id, name, hostname, created, rfl⟩

/-- Configs are put at the same paths. -/
theorem configs_agree (hc : ctx.Answers I) (entries : List (String × String)) {s₁ s₂ s₁' s₂' : S} {a b : List Mount}
    (hI₁ : I s₁) (hI₂ : I s₂)
    (ha : Eff.collect (fun e => do
      let src ← ctx.configPath e.1
      pure (Mount.config src e.2)) entries s₁ = (.ok a, s₁'))
    (hb : Eff.collect (fun e => do
      let src ← ctx.configPath e.1
      pure (Mount.config src e.2)) entries s₂ = (.ok b, s₂')) : a = b := by
  induction entries generalizing s₁ s₂ a b with
  | nil =>
    cases ha
    cases hb
    rfl
  | cons e entries ih =>
    obtain ⟨mount, t₁, hmount, ha⟩ := Eff.bind_ok ha
    obtain ⟨mount', t₂, hmount', hb⟩ := Eff.bind_ok hb
    obtain ⟨src, u₁, hsrc, hmount⟩ := Eff.bind_ok hmount
    obtain ⟨src', u₂, hsrc', hmount'⟩ := Eff.bind_ok hmount'
    obtain rfl := answers_agree (hc.configPath e.1 s₁ s₂ hI₁ hI₂) hsrc hsrc'
    have hI₁' := keeps_after (hc.keeps.configPath e.1) hI₁ hsrc
    have hI₂' := keeps_after (hc.keeps.configPath e.1) hI₂ hsrc'
    cases hmount
    cases hmount'
    obtain ⟨rest, v₁, hrest, ha⟩ := Eff.bind_ok ha
    obtain ⟨rest', v₂, hrest', hb⟩ := Eff.bind_ok hb
    cases ha
    cases hb
    rw [ih hI₁' hI₂' hrest hrest']

theorem applyMounts_alike (hc : ctx.Answers I) {a b a' b' : Spec} {s₁ s₂ s₁' s₂' : S} (hI₁ : I s₁) (hI₂ : I s₂)
    (h : Alike a b) (ha : applyMounts ctx svc a s₁ = (.ok a', s₁')) (hb : applyMounts ctx svc b s₂ = (.ok b', s₂')) :
    Alike a' b' := by
  obtain ⟨id, name, hostname, created, rfl⟩ := h
  obtain ⟨volumes, tmpfs, configs, hvolumes, htmpfs, hconfigs, rfl⟩ := applyMounts_ok ha
  obtain ⟨volumes', tmpfs', configs', hvolumes', htmpfs', hconfigs', rfl⟩ := applyMounts_ok hb
  obtain rfl := Except.ok.inj (hvolumes.symm.trans hvolumes')
  obtain rfl := Except.ok.inj (htmpfs.symm.trans htmpfs')
  obtain rfl := configs_agree hc svc.configs.entries hI₁ hI₂ hconfigs hconfigs'
  exact ⟨id, name, hostname, created, rfl⟩

theorem applyRest_alike {a b a' b' : Spec} (h : Alike a b) (ha : applyRest tctx svc a = .ok a')
    (hb : applyRest tctx svc b = .ok b') : Alike a' b' := by
  obtain ⟨id, name, hostname, created, rfl⟩ := h
  obtain ⟨publish, healthcheck, hpublish, hhealth, rfl⟩ := applyRest_ok ha
  obtain ⟨publish', healthcheck', hpublish', hhealth', rfl⟩ := applyRest_ok hb
  obtain rfl := Except.ok.inj (hpublish.symm.trans hpublish')
  obtain rfl := Except.ok.inj (hhealth.symm.trans hhealth')
  exact ⟨id, name, hostname, created, rfl⟩

/-- What is digested of two that are alike is the same. -/
theorem Alike.revision {a b : Spec} (h : Alike a b) (file : ComposeFile) (service : String) (i j : UInt32) :
    (withLabels x file service svc i a).labels.revision = (withLabels x file service svc j b).labels.revision := by
  obtain ⟨id, name, hostname, created, rfl⟩ := h
  show some (revisionOf x _) = some (revisionOf x _)
  rw [revisionOf_eq, revisionOf_eq]
  rfl

/-- Whatever is drawn for them, the replicas of a service that one context builds have one revision. -/
theorem replicas_share_revision (x : Extern) {ctx : BuildCtx S} {I : S → Prop} (hc : ctx.Answers I)
    {file : ComposeFile} {service : String} {i j : UInt32} {s₁ s₂ s₁' s₂' : S} {spec₁ spec₂ : Spec} (hI₁ : I s₁)
    (hI₂ : I s₂) (h₁ : buildSpec x ctx file service i s₁ = (.ok spec₁, s₁'))
    (h₂ : buildSpec x ctx file service j s₂ = (.ok spec₂, s₂')) :
    ∃ revision, spec₁.labels.revision = some revision ∧ spec₂.labels.revision = some revision := by
  obtain ⟨svc, hsvc, -, ⟨steps₁⟩⟩ := buildSpec_ok h₁
  obtain ⟨svc', hsvc', -, ⟨steps₂⟩⟩ := buildSpec_ok h₂
  obtain rfl := Option.some.inj (hsvc.symm.trans hsvc')
  obtain ⟨id, name, hostname, created, hroot⟩ := rootSpec_alike hc hI₁ hI₂ steps₁.hroot steps₂.hroot
  have hhost : Alike { steps₁.root with
      hostname := if svc.maxReplicas = 1 then service else s!"{service}-{i + 1}", persistent := svc.persistent }
    { steps₂.root with
      hostname := if svc.maxReplicas = 1 then service else s!"{service}-{j + 1}", persistent := svc.persistent } := by
    rw [hroot]
    exact ⟨id, name, _, created, rfl⟩
  have hprocessed := applyProcess_alike hhost steps₁.hprocess steps₂.hprocess
  have hlimited := applyLimits_alike hprocessed steps₁.hlimits steps₂.hlimits
  have hbetween₁ := keeps_after (rootSpec_keeps hc.keeps _ _ _) hI₁ steps₁.hroot
  have hbetween₂ := keeps_after (rootSpec_keeps hc.keeps _ _ _) hI₂ steps₂.hroot
  have hmounted := applyMounts_alike hc hbetween₁ hbetween₂ hlimited steps₁.hmounts steps₂.hmounts
  have hrest := applyRest_alike hmounted steps₁.hrest steps₂.hrest
  have hrevision := @Alike.revision x svc _ _ hrest file service i j
  rw [← steps₁.hlabels, ← steps₂.hlabels] at hrevision
  obtain ⟨revision, hsome⟩ : ∃ revision, spec₂.labels.revision = some revision := by
    rw [steps₂.hlabels]
    exact ⟨_, rfl⟩
  exact ⟨revision, hrevision.trans hsome, hsome⟩

end Build

/-! ## Two replicas -/

/-- A context that draws a new number for each container, and counts on for the time. -/
def countingCtx : BuildCtx ℕ where
  templates := anyCtx.templates
  baseBuild _ := pure "latest"
  oci _ _ := pure shellImage
  configPath name := pure name
  newId := do
    let n ← Eff.get
    Eff.modify (· + 1)
    pure (Fin.ofNat _ n)
  now := do
    let n ← Eff.get
    pure (UInt64.ofNat n)

theorem countingCtx_answers : countingCtx.Answers fun _ => True where
  keeps := {
    baseBuild := fun _ => Eff.Keeps.pure _
    oci := fun _ _ => Eff.Keeps.pure _
    configPath := fun _ => Eff.Keeps.pure _
    newId := Eff.Keeps.of_state fun _ _ => trivial
    now := Eff.Keeps.of_state fun _ _ => trivial }
  baseBuild _ _ _ _ _ := rfl
  oci _ _ _ _ _ _ := rfl
  configPath _ _ _ _ _ := rfl

def twinFile : ComposeFile where
  project := "p"
  services := OrdMap.empty.insert "web" {
    image := some "shell"
    replicas := 2
    env := OrdMap.empty.insert "KEY" "value" }

def twinSpec (replica : UInt32) (drawn : ℕ) : Spec :=
  specOr (Spec.new 0 0 "" (.oci "" []) []) (buildSpec argvExtern countingCtx twinFile "web" replica drawn).1

/-- The first and the second replica of a service differ in what is drawn and in their host names. -/
theorem twins_share_revision :
    (twinSpec 0 7).id ≠ (twinSpec 1 9).id ∧ (twinSpec 0 7).created ≠ (twinSpec 1 9).created ∧
      (twinSpec 0 7).hostname ≠ (twinSpec 1 9).hostname ∧
      ∃ revision, (twinSpec 0 7).labels.revision = some revision ∧ (twinSpec 1 9).labels.revision = some revision := by
  have h₁ : buildSpec argvExtern countingCtx twinFile "web" 0 7 = (.ok (twinSpec 0 7), 8) := by decide +kernel
  have h₂ : buildSpec argvExtern countingCtx twinFile "web" 1 9 = (.ok (twinSpec 1 9), 10) := by decide +kernel
  refine ⟨by decide +kernel, by decide +kernel, by decide +kernel, ?_⟩
  exact replicas_share_revision argvExtern countingCtx_answers trivial trivial h₁ h₂

end Collocate.Compose
