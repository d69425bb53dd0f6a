import Collocate.Compose.Known

/-! # The plan of a dry run (`collocate-compose/src/up.rs`, `plan.rs`)

`plan_only` prepares as `up` does, but reveals secrets in place of providing them, asks only for images that are there,
and makes up the paths of configs. -/
namespace Collocate.Compose
set_option autoImplicit false

/-! ## Plans that are equal -/

section Plans
variable {existing : List ContainerInfo} {a b : Prepared}

theorem judged_filter {desired : List Item} (hnodup : (desired.map Item.name).Nodup) (actual : List Actual)
    (v : Verdict) :
    judged desired actual v = (desired.map Item.name).filter fun name => name ∈ judged desired actual v := by
  rw [List.filter_map]
  show (desired.filter _).map _ = _
  congr 1
  apply List.filter_congr
  intro item hitem
  simp only [Function.comp_apply, mem_judged hnodup hitem]

/-- Plans for the same names are equal when the verdicts are. -/
theorem makePlan_eq_iff (hnames : a.all.map Spec.name = b.all.map Spec.name) (hnodup : (a.all.map Spec.name).Nodup) :
    makePlan a existing = makePlan b existing ↔ ∀ i ∈ desiredItems a, ∀ j ∈ desiredItems b, i.name = j.name →
      verdict (actualItems existing) i = verdict (actualItems existing) j := by
  have hnodup₁ : ((desiredItems a).map Item.name).Nodup := by rwa [desiredItems_names]
  have hnodup₂ : ((desiredItems b).map Item.name).Nodup := by rwa [desiredItems_names, ← hnames]
  have hsame : (desiredItems a).map Item.name = (desiredItems b).map Item.name := by
    rw [desiredItems_names, desiredItems_names, hnames]
  constructor
  · intro hplan i hi j hj hname
    have hjudged : ∀ v, judged (desiredItems a) (actualItems existing) v =
      judged (desiredItems b) (actualItems existing) v
      | .create => congrArg Plan.create hplan
      | .recreate => congrArg Plan.recreate hplan
      | .start => congrArg Plan.start hplan
      | .keep => congrArg Plan.keep hplan
    have hin := (mem_judged hnodup₁ hi).mpr (rfl : verdict (actualItems existing) i = _)
    rw [hjudged, hname] at hin
    exact ((mem_judged hnodup₂ hj).mp hin).symm
  · intro hall
    have hjudged : ∀ v, judged (desiredItems a) (actualItems existing) v =
        judged (desiredItems b) (actualItems existing) v := by
      intro v
      rw [judged_filter hnodup₁, judged_filter hnodup₂, hsame]
      apply List.filter_congr
      intro name hname
      obtain ⟨j, hj, rfl⟩ := List.mem_map.mp hname
      rw [← hsame] at hname
      obtain ⟨i, hi, heq⟩ := List.mem_map.mp hname
      have hiff : j.name ∈ judged (desiredItems a) (actualItems existing) v ↔
          j.name ∈ judged (desiredItems b) (actualItems existing) v := by
        rw [mem_judged hnodup₂ hj, ← heq, mem_judged hnodup₁ hi, hall i hi j hj heq]
      exact decide_eq_decide.mpr hiff
    unfold makePlan diff
    rw [hjudged, hjudged, hjudged, hjudged, hsame]

theorem verdict_eq_iff {actual : List Actual} {i j : Item} (hname : i.name = j.name) :
    verdict actual i = verdict actual j ↔
      i.hash = j.hash ∨ ∀ c, actualOf actual i.name = some c → c.hash ≠ i.hash ∧ c.hash ≠ j.hash := by
  unfold verdict
  rw [← hname]
  cases actualOf actual i.name with
  | none => simp
  | some c =>
    by_cases hi : c.hash = i.hash
    · by_cases hj : c.hash = j.hash
      · simp [hi, ← hj]
      · cases hrun : c.running <;> simp [← hi, hj, hrun]
    · by_cases hj : c.hash = j.hash
      · have hne : i.hash ≠ c.hash := Ne.symm hi
        cases hrun : c.running <;> simp [← hj, hi, hne, hrun]
      · simp [hi, hj]

/-- The container that is listed for a replica, if one is, has the revision of none of these specs. -/
def Unclaimed (existing : List ContainerInfo) (file : ComposeFile) (opts : UpOptions) (service name : String)
    (specs : List Spec) : Prop :=
  ∀ c, actualOf (actualItems existing) name = some c → ∀ spec ∈ specs, spec.name = name →
    c.hash ≠ keptRevision file opts service spec

end Plans

/-! ## Dry runs -/

section Dry
variable {S : Type} {x : Extern} {h : Host S} {file : ComposeFile} {opts : UpOptions}

/-- A prepared spec as it was digested, without its address. -/
def Spec.digested (spec : Spec) : Spec := hashed { spec with net := { spec.net with addr := none } }

theorem digested_built {v : Version Unit} {service : String} {replica : UInt32} {svc : Service} {built : Spec}
    (b : Built x v service replica svc built) (addr : Ipv4Addr) :
    Spec.digested { built with net := { built.net with addr := some addr } } = hashed built := by
  have hnet : ({ built.net with addr := none } : NetSpec) = built.net := by rw [← b.addr]
  unfold Spec.digested
  show hashed { built with net := { built.net with addr := none } } = _
  rw [hnet]

theorem keptRevision_inj {service : String} {spec spec' : Spec} {r r' : String} (hr : spec.labels.revision = some r)
    (hr' : spec'.labels.revision = some r') :
    keptRevision file opts service spec = keptRevision file opts service spec' ↔ r = r' := by
  unfold keptRevision
  rw [hr, hr']
  by_cases hforced : service ∈ forcedServices file opts
  · simp only [if_pos hforced, Option.getD_some]
    constructor
    · intro heq
      have hlist := congrArg String.toList heq
      rw [String.toList_append, String.toList_append] at hlist
      exact String.toList_inj.mp (List.append_cancel_right hlist)
    · exact fun heq => by rw [heq]
  · simp only [if_neg hforced, Option.getD_some]

theorem containers_answer {project : String} {existing list : List ContainerInfo} {s : S} {log : List Event}
    {p : S × List Event} (hanswer : (h.call (.ps true (some project)) s).1 = .ok (.containers existing))
    (hs : containers x (loggedHost h) project (s, log) = (.ok list, p)) : list = existing := by
  obtain ⟨res, ⟨s₁, log₁⟩, hcall, hs⟩ := Eff.bind_ok hs
  have hres : (h.call (.ps true (some project)) s).1 = .ok res := congrArg Prod.fst hcall
  rw [hanswer] at hres
  obtain rfl := Except.ok.inj hres
  cases hs
  rfl

/-- Preparing twice from one state, with the same values of secrets, gives the same values for templates. -/
theorem new_templates {s : S} {p q : S × List Event} {a b : BuildState} {opts' : UpOptions}
    (hsubnet : opts'.subnet = opts.subnet)
    (hsecrets : ∀ list p₁, containers x (loggedHost h) file.project (s, []) = (.ok list, p₁) →
      (ensureSecrets x (loggedHost h) file opts' p₁).1 = (ensureSecrets x (loggedHost h) file opts p₁).1)
    (ha : BuildState.new x (loggedHost h) file opts' (s, []) = (.ok a, p))
    (hb : BuildState.new x (loggedHost h) file opts (s, []) = (.ok b, q)) : a.templates = b.templates := by
  obtain ⟨⟨order, existing, between, subnet, secrets, addresses, addressed, vips, ipam, htopo, hlist, hparse, hvalues,
    haddresses, hvips, rfl⟩⟩ := BuildState.new_ok ha
  obtain ⟨⟨order', existing', between', subnet', secrets', addresses', addressed', vips', ipam', htopo', hlist',
    hparse', hvalues', haddresses', hvips', rfl⟩⟩ := BuildState.new_ok hb
  rw [hlist] at hlist'
  obtain ⟨hexisting, hbetween⟩ := Prod.mk.inj hlist'
  obtain rfl := Except.ok.inj hexisting
  obtain rfl := hbetween
  have hsame := hsecrets existing between hlist
  rw [hvalues, hvalues'] at hsame
  obtain rfl := Except.ok.inj hsame
  rw [hsubnet, hparse'] at hparse
  obtain rfl := Except.ok.inj hparse
  rw [htopo] at htopo'
  obtain rfl := Except.ok.inj htopo'
  rw [haddresses] at haddresses'
  obtain ⟨rfl, rfl⟩ := Prod.mk.inj (Except.ok.inj haddresses')
  rw [hvips] at hvips'
  obtain ⟨rfl, rfl⟩ := Prod.mk.inj (Except.ok.inj hvips')
  rfl

theorem up_plan {rounds : String → ℕ} {s s' : S} {plan : Plan} (hs : up x h file opts rounds s = (.ok plan, s')) :
    ∃ prep s₁ existing s₂, prepare x h file opts s = (.ok prep, s₁) ∧
      containers x h file.project s₁ = (.ok existing, s₂) ∧ plan = makePlan prep existing := by
  obtain ⟨u, -, hs⟩ := Eff.lift_bind_ok hs
  obtain ⟨prep, s₁, hprep, hs⟩ := Eff.bind_ok hs
  obtain ⟨existing, s₂, hlist, hs⟩ := Eff.bind_ok hs
  refine ⟨prep, s₁, existing, s₂, hprep, hlist, ?_⟩
  dsimp only at hs
  split at hs
  · cases hs
    rfl
  · obtain ⟨u₁, s₃, -, hs⟩ := Eff.bind_ok hs
    obtain ⟨u₂, s₄, -, hs⟩ := Eff.bind_ok hs
    cases hs
    rfl

theorem Covers.same_names {opts' : UpOptions} {a b : Prepared} (ha : Covers file opts a) (hb : Covers file opts' b) :
    a.all.map Spec.name = b.all.map Spec.name := by
  have horder : a.specs.map Prod.fst = b.specs.map Prod.fst := by
    have htopo := ha.topo
    rw [hb.topo] at htopo
    exact (Except.ok.inj htopo).symm
  rw [ha.all_names, hb.all_names, horder]

/-- Of a replica, what is digested for a dry run and what is digested for `up` are equal when the settings are. -/
theorem same_revision_iff {v v' : Version Unit} {service : String} {c d : Spec} (hv : v.file = file)
    (hv' : v'.file = file) (hc : FromKnown x v service c) (hd : FromKnown x v' service d) {i : UInt32}
    (hcname : c.name = replicaName file.project service i) (hdname : d.name = replicaName file.project service i)
    (hsep : Separates x (Spec.digested c) (Spec.digested d)) {svc : Service}
    (hsvc : file.services.get? service = some svc) :
    keptRevision file opts service c = keptRevision file opts service d ↔ SameSettings x v v' service i svc svc := by
  obtain ⟨svc₁, j, built, addr, hsvc₁, b, hcb⟩ := hc
  obtain ⟨svc₂, k, built', addr', hsvc₂, b', hdb⟩ := hd
  rw [hv, hsvc] at hsvc₁
  rw [hv', hsvc] at hsvc₂
  obtain rfl := Option.some.inj hsvc₁
  obtain rfl := Option.some.inj hsvc₂
  have hname : c.name = replicaName file.project service j := by rw [hcb, ← hv]; exact b.name
  have hname' : d.name = replicaName file.project service k := by rw [hdb, ← hv']; exact b'.name
  obtain rfl := replicaName_index (hname.symm.trans hcname)
  obtain rfl := replicaName_index (hname'.symm.trans hdname)
  have hrev : c.labels.revision = some (shortHash x (x.specJson (hashed built))) := by rw [hcb]; exact revision_eq b
  have hrev' : d.labels.revision = some (shortHash x (x.specJson (hashed built'))) := by rw [hdb]; exact revision_eq b'
  rw [hcb, hdb, digested_built b, digested_built b'] at hsep
  rw [keptRevision_inj hrev hrev', ← revision_eq_iff b b' hsep, revision_eq b, revision_eq b', Option.some_inj]

/-- The two plans judge a replica alike when both preparations come to the same settings for it, or the container that
is listed for it has the revision of neither. -/
theorem verdict_same_iff {v v' : Version Unit} {a b : Prepared} (hca : Covers file { opts with dryRun := true } a)
    (hcb : Covers file opts b) (hv : v.file = file) (hv' : v'.file = file) (existing : List ContainerInfo)
    {service : String} {svc : Service} {i : UInt32} (hsvc : file.services.get? service = some svc) {c d : Spec}
    (hc : c ∈ a.all) (hd : d ∈ b.all) (hcname : c.name = replicaName file.project service i)
    (hdname : d.name = replicaName file.project service i) (hfrom : FromKnown x v service c)
    (hfrom' : FromKnown x v' service d) (hsep : Separates x (Spec.digested c) (Spec.digested d)) :
    verdict (actualItems existing) (itemOf a service c) = verdict (actualItems existing) (itemOf b service d) ↔
      SameSettings x v v' service i svc svc ∨
        Unclaimed existing file opts service (replicaName file.project service i) (a.all ++ b.all) := by
  have hname : (itemOf a service c).name = (itemOf b service d).name := hcname.trans hdname.symm
  have hkept : (itemOf a service c).hash = keptRevision file opts service c := keptRevision_eq hca service c
  rw [verdict_eq_iff hname, hkept, keptRevision_eq hcb, same_revision_iff hv hv' hfrom hfrom' hcname hdname hsep hsvc]
  apply or_congr_right
  have hitem : (itemOf a service c).name = replicaName file.project service i := hcname
  unfold Unclaimed
  rw [hitem]
  apply forall_congr'
  intro listed
  apply imp_congr_right
  intro _
  constructor
  · rintro ⟨hne, hne'⟩ spec hspec hspecName
    cases List.mem_append.mp hspec with
    | inl hin =>
      rw [List.inj_on_of_nodup_map hca.nodup hin hc (hspecName.trans hcname.symm)]
      exact hne
    | inr hin =>
      rw [List.inj_on_of_nodup_map hcb.nodup hin hd (hspecName.trans hdname.symm)]
      exact hne'
  · intro hall
    exact ⟨hall c (List.mem_append_left _ hc) hcname, hall d (List.mem_append_right _ hd) hdname⟩

/-- The plans of two preparations of a file are equal when they judge every replica alike. -/
theorem makePlan_same_iff {v v' : Version Unit} {a b : Prepared} (hca : Covers file { opts with dryRun := true } a)
    (hcb : Covers file opts b) (hv : v.file = file) (hv' : v'.file = file) (existing : List ContainerInfo)
    (hfrom : ∀ e ∈ a.specs, ∀ c ∈ e.2, FromKnown x v e.1 c)
    (hfrom' : ∀ e ∈ b.specs, ∀ d ∈ e.2, FromKnown x v' e.1 d)
    (hsep : ∀ c ∈ a.all, ∀ d ∈ b.all, c.name = d.name → Separates x (Spec.digested c) (Spec.digested d)) :
    makePlan a existing = makePlan b existing ↔
      ∀ service svc i, file.services.get? service = some svc → i.toNat < svc.replicas.toNat →
        SameSettings x v v' service i svc svc ∨
          Unclaimed existing file opts service (replicaName file.project service i) (a.all ++ b.all) := by
  rw [makePlan_eq_iff (hca.same_names hcb) hca.nodup]
  -- The two specs of a replica.
  have hpair : ∀ service svc i, file.services.get? service = some svc → ∀ cs, (service, cs) ∈ a.specs → ∀ c ∈ cs,
      ∀ ds, (service, ds) ∈ b.specs → ∀ d ∈ ds, c.name = replicaName file.project service i →
      d.name = replicaName file.project service i →
      (verdict (actualItems existing) (itemOf a service c) = verdict (actualItems existing) (itemOf b service d) ↔
        SameSettings x v v' service i svc svc ∨
          Unclaimed existing file opts service (replicaName file.project service i) (a.all ++ b.all)) := by
    intro service svc i hsvc cs hcs c hc ds hds d hd hcname hdname
    exact verdict_same_iff hca hcb hv hv' existing hsvc (mem_all hcs hc) (mem_all hds hd) hcname hdname
      (hfrom _ hcs c hc) (hfrom' _ hds d hd) (hsep c (mem_all hcs hc) d (mem_all hds hd) (hcname.trans hdname.symm))
  constructor
  · intro hall service svc i hsvc hi
    obtain ⟨⟨_, cs⟩, hcs, rfl, c, hc, hcname⟩ := hca.replica hsvc hi
    obtain ⟨⟨_, ds⟩, hds, rfl, d, hd, hdname⟩ := hcb.replica hsvc hi
    rw [← hpair _ svc i hsvc cs hcs c hc ds hds d hd hcname hdname]
    exact hall _ (itemOf_mem hcs hc) _ (itemOf_mem hds hd) (hcname.trans hdname.symm)
  · intro hall item hitem item' hitem' hname
    obtain ⟨⟨service, cs⟩, hcs, hin⟩ := List.mem_flatMap.mp hitem
    obtain ⟨c, hc, rfl⟩ := List.mem_map.mp hin
    obtain ⟨⟨service', ds⟩, hds, hin'⟩ := List.mem_flatMap.mp hitem'
    obtain ⟨d, hd, rfl⟩ := List.mem_map.mp hin'
    have hnameCD : c.name = d.name := hname
    obtain ⟨svc, _, _, _, hsvc, _, _⟩ := hfrom _ hcs c hc
    obtain ⟨svc', _, _, _, hsvc', _, _⟩ := hfrom' _ hds d hd
    rw [hv] at hsvc
    rw [hv'] at hsvc'
    obtain ⟨i, hi, hcname⟩ := hca.index hcs hsvc hc
    obtain ⟨j, -, hdname⟩ := hcb.index hds hsvc' hd
    obtain rfl : service = service' := replicaName_service (hcname.symm.trans (hnameCD.trans hdname))
    exact (hpair service svc i hsvc cs hcs c hc ds hds d hd hcname (hnameCD.symm.trans hcname)).mpr
      (hall service svc i hsvc hi)

/-- The specs of the two runs are built from the file, the values that the templates have in both, and the answers of
each. `plan_only` plans what `up` plans when for each replica these answers come to the same settings, or the container
that is listed for it has the revision of neither. -/
theorem plan_only_agrees_iff {I : S → Prop} {existing : List ContainerInfo} {paths : String → String}
    {rounds : String → ℕ} {s sd su : S} {logDry log : List Event} {dry plan : Plan}
    (hkeeps : h.KeepsOn Request.Building I)
    (hlisted : ∀ s, I s → (h.call (.ps true (some file.project)) s).1 = .ok (.containers existing)) (hI : I s)
    (hput : PutsAt h file.project paths)
    (hsecrets : ∀ list p₁, containers x (loggedHost h) file.project (s, []) = (.ok list, p₁) →
      (ensureSecrets x (loggedHost h) file { opts with dryRun := true } p₁).1 =
        (ensureSecrets x (loggedHost h) file opts p₁).1)
    (hdry : planOnly x (loggedHost h) file opts (s, []) = (.ok dry, (sd, logDry)))
    (hup : up x (loggedHost h) file opts rounds (s, []) = (.ok plan, (su, log))) :
    ∃ tctx imagesDry images a b,
      PreparedFrom x h file { opts with dryRun := true } paths s logDry tctx imagesDry a ∧
      PreparedFrom x h file opts paths s log tctx images b ∧
      ((∀ c ∈ a.all, ∀ d ∈ b.all, c.name = d.name → Separates x (Spec.digested c) (Spec.digested d)) →
        (dry = plan ↔ ∀ service svc i, file.services.get? service = some svc → i.toNat < svc.replicas.toNat →
          SameSettings x (known file tctx imagesDry (pathsOf file { opts with dryRun := true } paths))
              (known file tctx images (pathsOf file opts paths)) service i svc svc ∨
            Unclaimed existing file opts service (replicaName file.project service i) (a.all ++ b.all))) := by
  obtain ⟨a, ⟨sa, la⟩, ha, hdry⟩ := Eff.bind_ok hdry
  obtain ⟨listA, p, hlistA, hdry⟩ := Eff.bind_ok hdry
  obtain ⟨hplanA, hpA⟩ := Prod.mk.inj hdry
  obtain ⟨b, ⟨sb, lb⟩, listB, q, hb, hlistB, rfl⟩ := up_plan hup
  have hkept : ∀ opts', Eff.Keeps (fun p => I p.1) (prepare x (loggedHost h) file opts') :=
    fun _ => prepare_keeps (loggedHost_keepsOn hkeeps)
  have hIa : I sa := by
    have hend := (hkept { opts with dryRun := true }).apply (s := (s, [])) hI
    rw [ha] at hend
    exact hend
  have hIb : I sb := by
    have hend := (hkept opts).apply (s := (s, [])) hI
    rw [hb] at hend
    exact hend
  obtain rfl := containers_answer (hlisted sa hIa) hlistA
  obtain rfl := containers_answer (hlisted sb hIb) hlistB
  obtain rfl := Except.ok.inj hplanA
  obtain ⟨sta, pa, imagesDry, hnewA, hsourcedA, hspecsA⟩ := prepare_known hput ha
  obtain ⟨stb, pb, images, hnewB, hsourcedB, hspecsB⟩ := prepare_known hput hb
  have hsubnet : ({ opts with dryRun := true } : UpOptions).subnet = opts.subnet := rfl
  have htemplates : sta.templates = stb.templates := new_templates hsubnet hsecrets hnewA hnewB
  have hmoreA : Extends Request.Listing la logDry := by
    have hlist : Extends Request.Listing la p.2 := extends_of_keeps (fun I hI => containers_keeps hI _) hlistA
    rwa [show p.2 = logDry from congrArg Prod.snd hpA] at hlist
  have hmoreB := up_extends hup hb
  rw [← htemplates] at hspecsB
  have hsourcedA' : Sourced x true logDry imagesDry := by
    obtain ⟨more, rfl, -⟩ := hmoreA
    exact hsourcedA.mono fun _ he => List.mem_append_left _ he
  have hsourcedB' : Sourced x opts.dryRun log images := by
    obtain ⟨more, rfl, -⟩ := hmoreB
    exact hsourcedB.mono fun _ he => List.mem_append_left _ he
  refine ⟨sta.templates, imagesDry, images, a, b, ⟨⟨_, ha⟩, ⟨sta, pa, hnewA, rfl⟩, hsourcedA', hspecsA⟩,
    ⟨⟨_, hb⟩, ⟨stb, pb, hnewB, htemplates.symm⟩, hsourcedB', hspecsB⟩, fun hsep => ?_⟩
  exact makePlan_same_iff (prepare_covers ha) (prepare_covers hb) rfl rfl listB hspecsA hspecsB hsep

/-- Where both runs have the same metadata for its image, a service comes to the same settings when its configs are put
where the dry run says. -/
theorem sameSettings_known_iff {tctx : Context} {images images' : Images} {paths paths' : String → String}
    {service : String} {i : UInt32} {svc : Service} {spec : Spec}
    (b : Built x (known file tctx images paths) service i svc spec)
    (himages : ∀ image, svc.image = some image → images image = images' image) :
    SameSettings x (known file tctx images paths) (known file tctx images' paths') service i svc svc ↔
      ∀ c ∈ svc.configs.keys, paths c = paths' c := by
  have hroot : (known file tctx images paths).root service i svc =
    (known file tctx images' paths').root service i svc := by
    unfold Version.root
    show rootSpec (knownCtx tctx images paths) service s!"{file.project}-{service}-{i + 1}" svc () =
      rootSpec (knownCtx tctx images' paths') service s!"{file.project}-{service}-{i + 1}" svc ()
    unfold rootSpec
    cases svc.series with
    | some series => rfl
    | none =>
      cases himage : svc.image with
      | none => rfl
      | some image =>
        have hoci : (knownCtx tctx images paths).oci image = (knownCtx tctx images' paths').oci image := by
          unfold knownCtx
          dsimp only
          rw [himages image himage]
        dsimp only
        rw [hoci]
        rfl
  obtain ⟨volumes, hvolumes, hmounts⟩ := Result.bind_ok b.mounts
  obtain ⟨tmpfs, htmpfs, -⟩ := Result.bind_ok hmounts
  have hmountsOf : ∀ (images : Images) (paths : String → String), (known file tctx images paths).mounts service i svc =
      .ok (volumes ++ tmpfs ++ (svc.secrets.map fun s => Mount.secret s ("/run/secrets/" ++ s)) ++
        svc.configs.entries.map fun e => Mount.config (paths e.1) e.2) := by
    intro images paths
    unfold Version.mounts
    rw [hvolumes, htmpfs, known_configs]
    rfl
  have hpaths : (known file tctx images paths).mounts service i svc =
    (known file tctx images' paths').mounts service i svc ↔
      ∀ c ∈ svc.configs.keys, paths c = paths' c := by
    rw [hmountsOf, hmountsOf, Except.ok.injEq, List.append_cancel_left_eq, List.map_inj_left]
    constructor
    · intro hall c hc
      obtain ⟨e, he, rfl⟩ := List.mem_map.mp hc
      exact (Mount.config.inj (hall e he)).1
    · intro hall e he
      rw [hall e.1 (List.mem_map_of_mem he)]
  constructor
  · exact fun hsame => hpaths.mp hsame.mounts
  · intro hall
    exact {
      project := rfl
      node := rfl
      source := by unfold Version.source; rw [hroot]
      persistent := rfl
      env := by unfold Version.env; rw [hroot]; rfl
      user := by unfold Version.user; rw [hroot]
      workdir := by unfold Version.workdir; rw [hroot]
      stopSignal := by unfold Version.stopSignal; rw [hroot]
      stopTimeout := rfl
      cpus := rfl
      memory := rfl
      ulimits := rfl
      mounts := hpaths.mpr hall
      readOnly := rfl
      capAdd := rfl
      capDrop := rfl
      publish := rfl
      restart := rfl
      healthcheck := by unfold Version.healthcheck; rw [hroot]; rfl }

end Dry

/-! ## A plan for nothing -/

/-- A codec that keeps the paths of mounted configs. -/
def mountExtern : Extern :=
  { argvExtern with specJson := fun s => s.mounts.flatMap fun
      | .config src _ => src.toByteArray.data.toList
      | _ => [] }

/-- The daemon of the tests after an `up` of a project with a config. -/
def configuredFake : Fake :=
  (up mountExtern fakeHost configFile localOpts (fun _ => 0)
    { files := OrdMap.empty.insert "app.conf" "workers = 4" }).2

def configuredPlan : Result Plan × Fake × List Event :=
  planOnly mountExtern (loggedHost fakeHost) configFile localOpts (configuredFake, [])

def configuredUp : Result Plan × Fake × List Event :=
  up mountExtern (loggedHost fakeHost) configFile localOpts (fun _ => 0) (configuredFake, [])

/-- Right after an `up`, its repetition keeps the container and `plan_only` says it is recreated. -/
theorem config_planned_again : configFile.validate = .ok () ∧ configuredUp.1 = .ok { keep := ["p-web-1"] } ∧
    configuredPlan.1 = .ok { recreate := ["p-web-1"] } := by
  refine ⟨by decide +kernel, by decide +kernel, by decide +kernel⟩

theorem configured_agrees_iff : ∃ tctx imagesDry images a b,
    PreparedFrom mountExtern fakeHost configFile { localOpts with dryRun := true }
      (fun name => "/state/configs/p/" ++ name)
      configuredFake configuredPlan.2.2 tctx imagesDry a ∧
    PreparedFrom mountExtern fakeHost configFile localOpts (fun name => "/state/configs/p/" ++ name) configuredFake
      configuredUp.2.2 tctx images b ∧
    ((∀ c ∈ a.all, ∀ d ∈ b.all, c.name = d.name → Separates mountExtern (Spec.digested c) (Spec.digested d)) →
      (({ recreate := ["p-web-1"] } : Plan) = { keep := ["p-web-1"] } ↔ ∀ service svc i,
        configFile.services.get? service = some svc → i.toNat < svc.replicas.toNat →
          SameSettings mountExtern (known configFile tctx imagesDry
              (pathsOf configFile { localOpts with dryRun := true } fun name => "/state/configs/p/" ++ name))
              (known configFile tctx images (pathsOf configFile localOpts fun name => "/state/configs/p/" ++ name))
              service i svc svc ∨
            Unclaimed (configuredFake.listed (some "p")) configFile localOpts service
              (replicaName configFile.project service i) (a.all ++ b.all))) := by
  have hplan : configuredPlan.1 = .ok { recreate := ["p-web-1"] } := by decide +kernel
  have hup : configuredUp.1 = .ok { keep := ["p-web-1"] } := by decide +kernel
  have hkeeps : fakeHost.KeepsOn Request.Building fun st => st.containers = configuredFake.containers := {
    call := fun r hr => Eff.Keeps.of_state fun st hst => (fake_building hr st).1.trans hst
    readToString := fun path => Eff.Keeps.of_state fun st hst => by rw [fake_file, hst]
    newId := Eff.Keeps.pure _
    now := Eff.Keeps.pure _ }
  have hdry : configuredPlan = (.ok { recreate := ["p-web-1"] }, configuredPlan.2.1, configuredPlan.2.2) :=
    by rw [← hplan]
  have hup' : configuredUp = (.ok { keep := ["p-web-1"] }, configuredUp.2.1, configuredUp.2.2) := by rw [← hup]
  change planOnly mountExtern (loggedHost fakeHost) configFile localOpts (configuredFake, []) = _ at hdry
  change up mountExtern (loggedHost fakeHost) configFile localOpts (fun _ => 0) (configuredFake, []) = _ at hup'
  have hlisted : ∀ st : Fake, st.containers = configuredFake.containers →
      (fakeHost.call (.ps true (some configFile.project)) st).1 =
        .ok (.containers (configuredFake.listed (some "p"))) := by
    intro st hst
    show Except.ok (Response.containers (st.listed (some "p"))) = _
    unfold Fake.listed
    rw [hst]
  have hput : PutsAt fakeHost configFile.project fun name => "/state/configs/p/" ++ name := fakeHost_puts "p"
  exact plan_only_agrees_iff hkeeps hlisted rfl hput (fun _ _ _ => rfl) hdry hup'

end Collocate.Compose
