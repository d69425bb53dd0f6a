import Collocate.Compose.Actions
import Collocate.Compose.Revision

/-! # Which replacements are accepted (`collocate-core/src/spec.rs`, `collocate-compose/src/model.rs`)

`Spec::validate` checks what `up` sends in `Run`, after it has stopped and removed what was there. The file alone
decides whether a spec passes, by fields that `ComposeFile::validate` does not look at. -/
namespace Collocate
set_option autoImplicit false

/-! ## The checks of a spec -/

theorem firstRepeat_eq_false_iff {α : Type} [DecidableEq α] {seen l : List α} :
    firstRepeat seen l = false ↔ (∀ a ∈ l, a ∉ seen) ∧ l.Nodup := by
  induction l generalizing seen with
  | nil => simp [firstRepeat]
  | cons a l ih =>
    rw [firstRepeat, Bool.or_eq_false_iff, decide_eq_false_iff_not, ih, List.nodup_cons]
    constructor
    · rintro ⟨hnew, hall, hnodup⟩
      refine ⟨?_, fun hmem => hall a hmem (List.mem_cons_self ..), hnodup⟩
      intro b hb
      cases hb with
      | head => exact hnew
      | tail _ hmem => exact fun hin => hall b hmem (List.mem_cons_of_mem _ hin)
    · rintro ⟨hall, hnew, hnodup⟩
      refine ⟨hall a (List.mem_cons_self ..), ?_, hnodup⟩
      intro b hb hin
      cases hin with
      | head => exact hnew hb
      | tail _ hmem => exact hall b (List.mem_cons_of_mem _ hb) hmem

theorem Limits.validate_ok_iff {l : Limits} (hweight : l.cpuWeight = none) (hpids : l.pidsMax ≠ 0) :
    l.validate = .ok () ↔ l.cpusMilli ≠ some 0 ∧ l.memory ≠ some 0 := by
  unfold Limits.validate
  rw [hweight, if_neg (by simp)]
  by_cases hcpus : l.cpusMilli = some 0
  · rw [if_pos hcpus]
    exact iff_of_false nofun fun h => h.1 hcpus
  · rw [if_neg hcpus, if_neg hpids]
    by_cases hmemory : l.memory = some 0
    · rw [if_pos hmemory]
      exact iff_of_false nofun fun h => h.2 hmemory
    · rw [if_neg hmemory]
      exact ⟨fun _ => ⟨hcpus, hmemory⟩, fun _ => rfl⟩

theorem Spec.validate_ok_iff {s : Spec} (hname : s.name.isEmpty = false) : s.validate = .ok () ↔
    validName s.name = true ∧ s.process.argv ≠ [] ∧ s.limits.validate = .ok () ∧
      (s.net.publish.map fun p => (p.host, p.proto)).Nodup ∧ Spec.checkMounts [] s.mounts = .ok () := by
  unfold Spec.validate
  simp only [hname, Bool.false_eq_true, if_false, Result.throw_ok_iff, Result.then_ok_iff, Bool.not_eq_true',
    Bool.not_eq_false, List.isEmpty_iff, Bool.not_eq_true, firstRepeat_eq_false_iff]
  simp only [List.not_mem_nil, not_false_eq_true, implies_true, true_and, ne_eq]

/-! ## Services -/

namespace Compose

/-- Where a service mounts things, in the order of the mounts of its specs. -/
def destinations (svc : Service) : List String :=
  ((svc.volume.toList ++ svc.volumes).filterMap fun v => (Volume.parse v).toOption.map (·.dst)) ++
    (svc.tmpfs.map fun t => ((Text.splitOnce ':' t).getD (t, "")).1) ++
    (svc.secrets.map fun s => "/run/secrets/" ++ s) ++ svc.configs.values

/-- What the file must say for the spec of a replica to pass its check. -/
structure Accepted (x : Extern) (file : ComposeFile) (service : String) (svc : Service) (replica : UInt32) : Prop where
  name : validName (replicaName file.project service replica) = true
  command : svc.series.isSome = true → svc.entrypoint ++ svc.command ≠ []
  cpus : svc.cpus.map x.cpusMilli ≠ some 0
  memory : ∀ m, svc.memory = some m → parseSize m ≠ .ok 0
  absolute : ∀ d ∈ destinations svc, Text.startsWith d "/" = true
  distinct : (destinations svc).Nodup

section Built
variable {S : Type} {x : Extern} {ctx : BuildCtx S} {v : Version S} {service : String} {replica : UInt32}
  {svc : Service}
  {spec : Spec}

theorem replicaName_isEmpty (project svc : String) (i : UInt32) : (replicaName project svc i).isEmpty = false := by
  rw [Bool.eq_false_iff, ne_eq, String.isEmpty_iff]
  intro h
  have hlist := congrArg String.toList h
  rw [replicaName_toList] at hlist
  simp at hlist

theorem volumes_dst {texts : List String} {ms : List Mount} (h : texts.mapM volumeMount = .ok ms) :
    ms.map Mount.dst = texts.filterMap fun v => (Volume.parse v).toOption.map (·.dst) := by
  induction texts generalizing ms with
  | nil =>
    cases h
    rfl
  | cons text texts ih =>
    obtain ⟨m, rest, hm, hrest, rfl⟩ := Result.mapM_cons_ok h
    obtain ⟨vol, hvol, hm⟩ := Result.bind_ok hm
    obtain rfl := Except.ok.inj hm
    have hdst : (if vol.isNamed then Mount.volume vol.src vol.dst else Mount.bind vol.src vol.dst vol.ro).dst =
      vol.dst := by
      cases vol.isNamed <;> rfl
    rw [List.map_cons, ih hrest, hdst]
    simp [hvol, Except.toOption]

theorem parseTmpfs_dst {text : String} {m : Mount} (h : parseTmpfs text = .ok m) :
    m.dst = ((Text.splitOnce ':' text).getD (text, "")).1 := by
  obtain ⟨size, -, h⟩ := Result.bind_ok h
  cases h
  rfl

theorem tmpfs_dst {texts : List String} {ms : List Mount} (h : texts.mapM parseTmpfs = .ok ms) :
    ms.map Mount.dst = texts.map fun t => ((Text.splitOnce ':' t).getD (t, "")).1 := by
  induction texts generalizing ms with
  | nil =>
    cases h
    rfl
  | cons text texts ih =>
    obtain ⟨m, rest, hm, hrest, rfl⟩ := Result.mapM_cons_ok h
    rw [List.map_cons, ih hrest, parseTmpfs_dst hm, List.map_cons]

theorem configs_dst {entries : List (String × String)} {ms : List Mount} {s s' : S}
    (h : Eff.collect (fun e : String × String => do
      let src ← ctx.configPath e.1
      pure (Mount.config src e.2)) entries s = (.ok ms, s')) : ms.map Mount.dst = entries.map Prod.snd := by
  induction entries generalizing ms s with
  | nil =>
    cases h
    rfl
  | cons e entries ih =>
    obtain ⟨m, s₁, hm, h⟩ := Eff.bind_ok h
    obtain ⟨rest, s₂, hrest, h⟩ := Eff.bind_ok h
    obtain ⟨src, s₃, -, hm⟩ := Eff.bind_ok hm
    cases hm
    cases h
    rw [List.map_cons, ih hrest]
    rfl

/-- The file says where a replica has its mounts. -/
theorem mounts_dst {ms : List Mount} (h : v.mounts service replica svc = .ok ms) :
    ms.map Mount.dst = destinations svc := by
  obtain ⟨volumes, hvolumes, h⟩ := Result.bind_ok h
  obtain ⟨tmpfs, htmpfs, h⟩ := Result.bind_ok h
  obtain ⟨configs, hconfigs, h⟩ := Result.bind_ok h
  cases h
  have hcollect : Eff.collect (fun e : String × String => do
      let src ← v.ctx.configPath e.1
      pure (Mount.config src e.2)) svc.configs.entries (v.root service replica svc).2 = (.ok configs, _) :=
    Prod.ext hconfigs rfl
  have hsecrets : (svc.secrets.map fun s => Mount.secret s ("/run/secrets/" ++ s)).map Mount.dst =
      svc.secrets.map fun s => "/run/secrets/" ++ s := by
    rw [List.map_map]
    rfl
  rw [List.map_append, List.map_append, List.map_append, volumes_dst hvolumes, tmpfs_dst htmpfs, hsecrets,
    configs_dst hcollect]
  rfl

/-- Ports that could be claimed together are distinct. -/
theorem claimed_nodup {node : Option String} {maps : List String} {before after : Published} {ps : List Publish}
    (h : ComposeFile.claimPorts node before maps = .ok after) (hps : maps.mapM Publish.parse = .ok ps) :
    (∀ p ∈ ps, (node, p.host, p.proto.display) ∉ before) ∧ (ps.map fun p => (p.host, p.proto)).Nodup := by
  induction maps generalizing before ps with
  | nil =>
    cases hps
    exact ⟨fun p hp => absurd hp List.not_mem_nil, List.nodup_nil⟩
  | cons text maps ih =>
    obtain ⟨p, rest, hp, hrest, rfl⟩ := Result.mapM_cons_ok hps
    unfold ComposeFile.claimPorts at h
    rw [List.foldlM_cons] at h
    obtain ⟨next, hnext, h⟩ := Result.bind_ok h
    obtain ⟨p', hp', hnext⟩ := Result.bind_ok hnext
    obtain rfl : p = p' := Except.ok.inj (hp.symm.trans hp')
    by_cases hin : (node, p.host, p.proto.display) ∈ before
    · rw [if_pos hin] at hnext
      cases hnext
    · rw [if_neg hin] at hnext
      cases hnext
      obtain ⟨hnew, hnodup⟩ := ih h hrest
      refine ⟨?_, ?_⟩
      · intro q hq
        cases hq with
        | head => exact hin
        | tail _ hmem => exact fun hold => hnew q hmem (List.mem_cons_of_mem _ hold)
      · rw [List.map_cons, List.nodup_cons]
        refine ⟨?_, hnodup⟩
        intro hmem
        obtain ⟨q, hq, heq⟩ := List.mem_map.mp hmem
        obtain ⟨hhost, hproto⟩ := Prod.mk.inj heq
        apply hnew q hq
        rw [hhost, hproto]
        exact List.mem_cons_self ..

theorem resolveAll_eq_nil {args argv : List String} {tctx : Context} (h : resolveAll args tctx = .ok argv) :
    argv = [] ↔ args = [] := by
  cases args with
  | nil =>
    cases h
    exact iff_of_true rfl rfl
  | cons a args =>
    obtain ⟨b, rest, -, -, rfl⟩ := Result.mapM_cons_ok h
    exact iff_of_false (List.cons_ne_nil _ _) (List.cons_ne_nil _ _)

/-- A spec has no command when it is of a base system and the service has none; an image must have one. -/
theorem rootSpec_argv {name : String} {s s' : S} {root : Spec} (h : rootSpec ctx service name svc s = (.ok root, s')) :
    root.process.argv ≠ [] ↔ (svc.series.isSome = true → svc.entrypoint ++ svc.command ≠ []) := by
  unfold rootSpec at h
  cases hseries : svc.series with
  | some series =>
    simp only [hseries] at h
    obtain ⟨series, -, h⟩ := Eff.lift_bind_ok h
    obtain ⟨buildId, s₁, -, h⟩ := Eff.bind_ok h
    obtain ⟨argv, hargv, h⟩ := Eff.lift_bind_ok h
    obtain ⟨id, s₂, -, h⟩ := Eff.bind_ok h
    obtain ⟨created, s₃, -, h⟩ := Eff.bind_ok h
    cases h
    have hnil : argv = [] ↔ svc.entrypoint ++ svc.command = [] := resolveAll_eq_nil hargv
    exact ⟨fun hne _ heq => hne (hnil.mpr heq), fun hne heq => hne rfl (hnil.mp heq)⟩
  | none =>
    cases himage : svc.image with
    | none =>
      simp only [hseries, himage] at h
      cases h
    | some image =>
      simp only [hseries, himage] at h
      obtain ⟨policy, -, h⟩ := Eff.lift_bind_ok h
      obtain ⟨img, s₁, -, h⟩ := Eff.bind_ok h
      obtain ⟨ov, -, h⟩ := Eff.lift_bind_ok h
      obtain ⟨id, s₂, -, h⟩ := Eff.bind_ok h
      obtain ⟨created, s₃, -, h⟩ := Eff.bind_ok h
      have himg := (Eff.lift_ok h).1
      refine iff_of_true ?_ nofun
      unfold imageSpec specFromImage at himg
      by_cases hempty : (imageArgv img ov).isEmpty = true
      · rw [if_pos hempty] at himg
        cases himg
      · rw [if_neg hempty] at himg
        obtain rfl := Except.ok.inj himg
        have hargv : imageArgv img ov ≠ [] := by simpa using hempty
        exact hargv

theorem built_argv (b : Built x v service replica svc spec) :
    spec.process.argv ≠ [] ↔ (svc.series.isSome = true → svc.entrypoint ++ svc.command ≠ []) := by
  have hsource := b.source
  unfold Version.source at hsource
  rcases hroot : v.root service replica svc with ⟨_ | root, s'⟩ <;> rw [hroot] at hsource
  · cases hsource
  · have hargv := (Prod.mk.inj (Prod.mk.inj (Except.ok.inj hsource)).2).2
    rw [← rootSpec_argv hroot, hargv]

theorem memory_ne_zero_iff (b : Built x v service replica svc spec) :
    spec.limits.memory ≠ some 0 ↔ ∀ m, svc.memory = some m → parseSize m ≠ .ok 0 := by
  have hmemory := b.memory
  unfold memoryOf at hmemory
  cases hm : svc.memory with
  | none =>
    rw [hm] at hmemory
    rw [← Except.ok.inj hmemory]
    exact iff_of_true nofun nofun
  | some text =>
    rw [hm, Option.elim_some] at hmemory
    cases hsize : parseSize text with
    | error e =>
      rw [hsize] at hmemory
      cases hmemory
    | ok size =>
      rw [hsize] at hmemory
      rw [← Except.ok.inj hmemory]
      constructor
      · intro hne m hsome hzero
        obtain rfl := Option.some.inj hsome
        rw [hsize] at hzero
        exact hne (congrArg some (Except.ok.inj hzero))
      · intro hne hzero
        rw [Option.some.inj hzero] at hsize
        exact hne text rfl hsize

/-- A spec built from a checked service passes its own check when the file says nothing that it refuses. -/
theorem built_accepted_iff (b : Built x v service replica svc spec)
    (hs : ComposeFile.ServiceChecked v.file service svc) :
    spec.validate = .ok () ↔ Accepted x v.file service svc replica := by
  have hname : spec.name = replicaName v.file.project service replica := b.name
  have hempty : spec.name.isEmpty = false := by
    rw [hname]
    exact replicaName_isEmpty _ _ _
  obtain ⟨before, after, hclaimed⟩ := hs.publish
  have hpublish := (claimed_nodup hclaimed b.publish).2
  have hlimits : spec.limits.validate = .ok () ↔ spec.limits.cpusMilli ≠ some 0 ∧ spec.limits.memory ≠ some 0 :=
    Limits.validate_ok_iff b.cpuWeight (by rw [b.pids]; decide)
  rw [Spec.validate_ok_iff hempty, hname, built_argv b, hlimits, b.cpus, memory_ne_zero_iff b, Spec.checkMounts_ok_iff,
    mounts_dst b.mounts]
  constructor
  · rintro ⟨hvalid, hcommand, ⟨hcpus, hmemory⟩, -, habs, hnodup⟩
    exact ⟨hvalid, hcommand, hcpus, hmemory, fun d hd => (habs d hd).1, hnodup⟩
  · intro ha
    exact ⟨ha.name, ha.command, ⟨ha.cpus, ha.memory⟩, hpublish,
      fun d hd => ⟨ha.absolute d hd, List.not_mem_nil⟩, ha.distinct⟩

end Built

/-! ## Runs of `up` -/

section Run
variable {S : Type} {x : Extern} {h : Host S} {file : ComposeFile} {opts : UpOptions} {I : S → Prop}

/-- What survives the requests that build, and those that deploy what can be built, survives `up`. -/
theorem up_keepsOn {Good : Spec → Prop} (hb : h.KeepsOn Request.Building I) (hh : h.KeepsOn (Request.Deploying Good) I)
    (hgood : file.validate = .ok () → ∀ st st' service idx spec s s',
      BuildState.spec x h st file opts service idx s = (.ok (spec, st'), s') → Good spec)
    (rounds : String → ℕ) : Eff.Keeps I (up x h file opts rounds) := by
  rcases hv : file.validate with e | u
  · have hup : up x h file opts rounds = Eff.throw e := by
      unfold up
      rw [hv, Eff.lift_error_bind]
    rw [hup]
    exact Eff.Keeps.throw _
  unfold up
  rw [hv, Eff.lift_ok_bind]
  have hprep : Eff.Triple I (prepare x h file opts) (fun prep s => I s ∧ ∀ e ∈ prep.specs, ∀ spec ∈ e.2, Good spec)
      (fun _ => I) :=
    (prepare_keeps hb).with_result fun s prep s' hs => prepare_each (P := fun _ => Good) (hgood hv) hs
  apply Eff.Triple.bind hprep
  rintro prep s ⟨hI, hspecs⟩
  have hrest : Eff.Keeps I (containers x h file.project >>= fun existing =>
      if opts.dryRun then pure (makePlan prep existing)
      else do
        prep.specs.forM (deployService x h file prep (makePlan prep existing) rounds)
        (shutdownOrder (makePlan prep existing).remove).forM (removeContainer h)
        pure (makePlan prep existing)) := by
    apply Eff.Keeps.bind (containers_keeps (hb.mono fun _ hr => hr.fetching.building) _)
    intro existing
    split
    · exact Eff.Keeps.pure _
    · exact deploy_keepsOn hh prep _ hspecs rounds
  exact hrest s hI

/-! ## Recreated containers -/

/-- The log has a container stopped, removed and run again from this spec. -/
def Recreates (log : List Event) (spec : Spec) : Prop :=
  ∃ before after stop rm run,
    log = before ++ [⟨.stop spec.name none, stop⟩, ⟨.rm spec.name true false, rm⟩, ⟨.run spec, run⟩] ++ after

/-- A spec that passes its check exactly when the file says what it must of its service. -/
def Judged (x : Extern) (file : ComposeFile) (spec : Spec) : Prop :=
  ∃ service svc replica, file.services.get? service = some svc ∧ spec.name = replicaName file.project service replica ∧
    (spec.validate = .ok () ↔ Accepted x file service svc replica)

theorem spec_judged {st st' : BuildState} {service : String} {idx : UInt32} {s s' : S} {spec : Spec}
    (hv : file.validate = .ok ()) (hs : st.spec x h file opts service idx s = (.ok (spec, st'), s')) :
    Judged x file spec := by
  obtain ⟨svc, built, addr, hsvc, b, rfl⟩ := BuildState.spec_built hs
  exact ⟨service, svc, idx, hsvc, b.name, built_accepted_iff b (ComposeFile.validate_checked hv hsvc)⟩

/-- All that the log runs is good. -/
def AllRun (Good : Spec → Prop) (log : List Event) : Prop := ∀ e ∈ log, ∀ spec, e.request = .run spec → Good spec

theorem loggedHost_runs {Good : Spec → Prop} {kind : Request → Prop}
    (hkind : ∀ r, kind r → ∀ spec, r = .run spec → Good spec) :
    (loggedHost h).KeepsOn kind fun p => AllRun Good p.2 where
  call r hr := by
    have hnext : ∀ (log : List Event) a, AllRun Good log → AllRun Good (log ++ [⟨r, a⟩]) :=
      fun log a hlog => forall_mem_concat hlog (hkind r hr)
    exact logged_call (fun log res => hnext log (.ok res)) fun log e => hnext log (.error e)
  readToString path := zoom_keeps_log (h.readToString path) (AllRun Good)
  newId := zoom_keeps_log h.newId (AllRun Good)
  now := zoom_keeps_log h.now (AllRun Good)

/-- All that `up` runs is judged by the file. -/
theorem up_judged (rounds : String → ℕ) (s : S) :
    AllRun (Judged x file) (requested (up x (loggedHost h) file opts rounds) s) := by
  have hbuild : (loggedHost h).KeepsOn Request.Building fun p => AllRun (Judged x file) p.2 := by
    apply loggedHost_runs
    rintro r hr spec rfl
    cases hr
  have hdeploy : (loggedHost h).KeepsOn (Request.Deploying (Judged x file)) fun p => AllRun (Judged x file) p.2 := by
    apply loggedHost_runs
    rintro r hr spec rfl
    exact hr
  have hup : Eff.Keeps (fun p => AllRun (Judged x file) p.2) (up x (loggedHost h) file opts rounds) :=
    up_keepsOn hbuild hdeploy (fun hv _ _ _ _ _ _ _ hs => spec_judged hv hs) rounds
  exact hup.apply (s := (s, [])) fun _ he => absurd he List.not_mem_nil

/-- Every replacement is accepted when the file says what it must of each replica that is recreated. -/
theorem replacements_accepted_iff (x : Extern) (h : Host S) (file : ComposeFile) (opts : UpOptions)
    (rounds : String → ℕ) (s : S) :
    (∀ spec, Recreates (requested (up x (loggedHost h) file opts rounds) s) spec → spec.validate = .ok ()) ↔
      ∀ service svc replica, file.services.get? service = some svc →
        (∃ spec, spec.name = replicaName file.project service replica ∧
          Recreates (requested (up x (loggedHost h) file opts rounds) s) spec) →
        Accepted x file service svc replica := by
  have hjudged : ∀ spec, Recreates (requested (up x (loggedHost h) file opts rounds) s) spec → Judged x file spec := by
    rintro spec ⟨before, after, stop, rm, run, hlog⟩
    have hmem : (⟨.run spec, run⟩ : Event) ∈ requested (up x (loggedHost h) file opts rounds) s := by
      rw [hlog]
      simp
    exact up_judged rounds s _ hmem spec rfl
  constructor
  · rintro hvalid service svc replica hsvc ⟨spec, hname, hrec⟩
    obtain ⟨service', svc', replica', hsvc', hname', hiff⟩ := hjudged spec hrec
    have haccepted := hiff.mp (hvalid spec hrec)
    have hsame : replicaName file.project service replica = replicaName file.project service' replica' :=
      hname.symm.trans hname'
    obtain rfl := replicaName_service hsame
    obtain rfl := Option.some.inj (hsvc.symm.trans hsvc')
    exact { haccepted with name := by rw [hsame]; exact haccepted.name }
  · intro hall spec hrec
    obtain ⟨service, svc, replica, hsvc, hname, hiff⟩ := hjudged spec hrec
    exact hiff.mpr (hall service svc replica hsvc ⟨spec, hname, hrec⟩)

end Run

/-! ## A container removed for nothing -/

/-- A valid file with a service of a base system that has no command. -/
def commandless : ComposeFile where
  project := "p"
  services := OrdMap.empty.insert "web" { series := some "noble" }

def oldContainer : ContainerInfo where
  id := 1
  name := "p-web-1"
  state := .running
  service := some "web"
  revision := some "old"

/-- A daemon that runs a replica of an earlier revision, and checks what it is to run. -/
def oldHost : Host Unit where
  call req s := match req with
    | .ps .. => (.ok (.containers [oldContainer]), s)
    | .run spec => (spec.validate.map fun _ => .id spec.id, s)
    | _ => (.ok .ok, s)
  readToString _ := Eff.throw (.io "no such file")
  newId := pure 0
  now := pure 0

def commandlessSpec : Spec :=
  { specOr (Spec.new 0 0 "" (.oci "" []) []) (buildSpec argvExtern anyCtx commandless "web" 0 ()).1 with
    net := { addr := some ⟨0x0a00004e⟩ } }

/-- What runs is stopped and removed for a spec that the daemon refuses. -/
theorem removed_for_nothing : commandless.validate = .ok () ∧
    Recreates
      (requested (up argvExtern (loggedHost oldHost) commandless ⟨"10.0.0.0/24", "", none, false⟩ fun _ => 0) ())
      commandlessSpec ∧
    commandlessSpec.validate = .error (.invalidSpec "command is empty") := by
  refine ⟨by decide +kernel, ?_, by decide +kernel⟩
  let listed : Event := ⟨.ps true (some "p"), .ok (.containers [oldContainer])⟩
  refine ⟨[listed, listed], [], .ok .ok, .ok .ok, .error (.invalidSpec "command is empty"), ?_⟩
  decide +kernel

end Compose
end Collocate
