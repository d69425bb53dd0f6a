import Collocate.Compose.Gating
import Collocate.Compose.Settings

/-! # What a successful `up` does (`collocate-compose/src/up.rs`)

`up` is a sequence of requests that change what runs, between requests that only ask. The sequence is known once the
plan is: `upActions` lists it, and any view of a host's state that follows such requests follows the list. -/
namespace Collocate
set_option autoImplicit false

/-! ## Requests that deploy -/

/-- The requests that change which containers run and which load balancers are set. -/
def Request.deploys : Request → Bool
  | .run _ | .start _ | .stop .. | .rm .. | .lbSet _ | .lbRemove .. => true
  | _ => false

/-- A view of a host's state follows the requests that deploy, when they are answered, and the others of `up` leave it
as it is. -/
structure Host.Tracks {S W : Type} (h : Host S) (view : S → W) (apply : W → Request → W) : Prop where
  call : ∀ r, r.deploys = true → ∀ s res s', h.call r s = (.ok res, s') → view s' = apply (view s) r
  building : ∀ w, h.KeepsOn Request.Building fun s => view s = w
  watching : ∀ w, h.KeepsOn Request.Watching fun s => view s = w

namespace Compose

/-! ## Actions -/

/-- `Stop` and `Rm` of a container that is to go. -/
def removeActions (name : String) : List Request := [.stop name none, .rm name true false]

/-- What the plan has for a replica. -/
def specActions (plan : Plan) (spec : Spec) : List Request :=
  if spec.name ∈ plan.recreate then removeActions spec.name ++ [.run spec]
  else if spec.name ∈ plan.create then [.run spec]
  else if spec.name ∈ plan.start then [.start spec.name]
  else []

/-- The load balancers of a service, as they are set. -/
def lbActions (file : ComposeFile) (prep : Prepared) (svc : String) : List Request :=
  (file.loadbalancers.entries.filter fun l => l.2.backends.service = svc).map fun l =>
    .lbSet (lbSpec file.project l.1 l.2 (prep.lbVips l.1))

def serviceActions (file : ComposeFile) (prep : Prepared) (plan : Plan) (e : String × List Spec) : List Request :=
  e.2.flatMap (specActions plan) ++ lbActions file prep e.1

def upActions (file : ComposeFile) (prep : Prepared) (plan : Plan) : List Request :=
  prep.specs.flatMap (serviceActions file prep plan) ++ (shutdownOrder plan.remove).flatMap removeActions

/-! ## The run follows the list -/

section Run
variable {S W : Type} {x : Extern} {h : Host S} {view : S → W} {apply : W → Request → W} {file : ComposeFile}
  {opts : UpOptions} {s s' : S}

theorem call_does (ht : h.Tracks view apply) {α : Type} {r : Request} (hr : r.deploys = true) {a b : α}
    (hs : (do
      let _ ← h.call r
      pure a : Prog S α) s = (.ok b, s')) : b = a ∧ view s' = apply (view s) r := by
  obtain ⟨res, s₁, hcall, hs⟩ := Eff.bind_ok hs
  cases hs
  exact ⟨rfl, ht.call r hr s res s' hcall⟩

theorem removeContainer_does (ht : h.Tracks view apply) {name : String} {u : Unit}
    (hs : removeContainer h name s = (.ok u, s')) : view s' = (removeActions name).foldl apply (view s) := by
  obtain ⟨res, s₁, hstop, hs⟩ := Eff.bind_ok hs
  have hrm := (call_does ht (r := .rm name true false) rfl hs).2
  rw [hrm, ht.call (.stop name none) rfl s res s₁ hstop]
  rfl

theorem applySpec_does (ht : h.Tracks view apply) {plan : Plan} {spec : Spec} {touched : Option String}
    (hs : applySpec h plan spec s = (.ok touched, s')) : view s' = (specActions plan spec).foldl apply (view s) := by
  unfold applySpec at hs
  unfold specActions
  by_cases hrecreate : spec.name ∈ plan.recreate
  · rw [if_pos hrecreate] at hs ⊢
    obtain ⟨u, s₁, hremove, hs⟩ := Eff.bind_ok hs
    rw [(call_does ht (r := .run spec) rfl hs).2, removeContainer_does ht hremove, List.foldl_append]
    rfl
  · rw [if_neg hrecreate] at hs ⊢
    by_cases hcreate : spec.name ∈ plan.create
    · rw [if_pos hcreate] at hs ⊢
      exact (call_does ht (r := .run spec) rfl hs).2
    · rw [if_neg hcreate] at hs ⊢
      by_cases hstart : spec.name ∈ plan.start
      · rw [if_pos hstart] at hs ⊢
        exact (call_does ht (r := .start spec.name) rfl hs).2
      · rw [if_neg hstart] at hs ⊢
        cases hs
        rfl

theorem collect_does {α β : Type} {f : α → Prog S β} (acts : α → List Request)
    (hf : ∀ a s b s', f a s = (.ok b, s') → view s' = (acts a).foldl apply (view s)) {l : List α} {bs : List β}
    (hs : Eff.collect f l s = (.ok bs, s')) : view s' = (l.flatMap acts).foldl apply (view s) := by
  induction l generalizing s bs with
  | nil =>
    cases hs
    rfl
  | cons a l ih =>
    obtain ⟨b, s₁, hb, hs⟩ := Eff.bind_ok hs
    obtain ⟨rest, s₂, hrest, hs⟩ := Eff.bind_ok hs
    cases hs
    rw [ih hrest, hf a s b s₁ hb, List.flatMap_cons, List.foldl_append]

theorem forM_does {α : Type} {f : α → Prog S PUnit} (acts : α → List Request)
    (hf : ∀ a s u s', f a s = (.ok u, s') → view s' = (acts a).foldl apply (view s)) {l : List α} {u : PUnit}
    (hs : l.forM f s = (.ok u, s')) : view s' = (l.flatMap acts).foldl apply (view s) := by
  induction l generalizing s with
  | nil =>
    cases hs
    rfl
  | cons a l ih =>
    obtain ⟨v, s₁, hv, hs⟩ := Eff.bind_ok hs
    rw [ih hs, hf a s v s₁ hv, List.flatMap_cons, List.foldl_append]

theorem keeps_view {α : Type} {m : Prog S α} (hm : ∀ w, Eff.Keeps (fun s => view s = w) m) (s : S) :
    view (m s).2 = view s :=
  (hm (view s)).apply rfl

theorem containers_view (ht : h.Tracks view apply) (project : String) (s : S) :
    view (containers x h project s).2 = view s :=
  keeps_view (fun w => containers_keeps ((ht.building w).mono fun _ hr => hr.fetching.building) project) s

theorem deployService_does (ht : h.Tracks view apply) {prep : Prepared} {plan : Plan} {rounds : String → ℕ}
    {e : String × List Spec} {u : Unit} (hs : deployService x h file prep plan rounds e s = (.ok u, s')) :
    view s' = (serviceActions file prep plan e).foldl apply (view s) := by
  obtain ⟨touched, s₁, hspecs, hs⟩ := Eff.bind_ok hs
  have hlbs : ∀ (s s' : S) (u : Unit), ((file.loadbalancers.entries.filter fun l => l.2.backends.service = e.1).forM
      fun l => registerLb h file prep l.1 l.2) s = (.ok u, s') →
        view s' = (lbActions file prep e.1).foldl apply (view s) := by
    intro s s' u hs
    have hacts := forM_does (fun l : String × LbDef => [.lbSet (lbSpec file.project l.1 l.2 (prep.lbVips l.1))])
      (fun l s u s' hl => (call_does ht rfl hl).2) hs
    rw [hacts, lbActions, List.map_eq_flatMap]
  have hwait : ∀ (s : S), view (waitReady x h file e.1 touched.reduceOption (rounds e.1) s).2 = view s :=
    keeps_view fun w => waitReady_keepsOn (ht.watching w) e.1 touched.reduceOption (rounds e.1)
  have hfirst := collect_does (specActions plan) (fun spec s b s' => applySpec_does ht) hspecs
  rw [serviceActions, List.foldl_append, ← hfirst]
  dsimp only at hs
  split at hs
  · obtain ⟨u', s₂, hready, hs⟩ := Eff.bind_ok hs
    have hview := hwait s₁
    rw [hready] at hview
    rw [hlbs s₂ s' u hs, hview]
  · exact hlbs s₁ s' u hs

/-- What a successful `up` has done: prepared, listed, and gone through the actions of the plan. -/
theorem up_does (ht : h.Tracks view apply) {rounds : String → ℕ} {plan : Plan} (hdry : opts.dryRun = false)
    (hs : up x h file opts rounds s = (.ok plan, s')) :
    ∃ prep existing s₁ s₂, file.validate = .ok () ∧ prepare x h file opts s = (.ok prep, s₁) ∧
      containers x h file.project s₁ = (.ok existing, s₂) ∧ plan = makePlan prep existing ∧ view s₁ = view s ∧
      view s' = (upActions file prep plan).foldl apply (view s) := by
  obtain ⟨u, hvalid, hs⟩ := Eff.lift_bind_ok hs
  obtain ⟨prep, s₁, hprep, hs⟩ := Eff.bind_ok hs
  obtain ⟨existing, s₂, hlist, hs⟩ := Eff.bind_ok hs
  have hview₁ : view s₁ = view s := by
    have hkeeps : ∀ w, Eff.Keeps (fun s => view s = w) (prepare x h file opts) := fun w => prepare_keeps (ht.building w)
    have hview := keeps_view hkeeps s
    rw [hprep] at hview
    exact hview
  have hview₂ : view s₂ = view s := by
    have hview := containers_view (x := x) ht file.project s₁
    rw [hlist] at hview
    exact hview.trans hview₁
  simp only [hdry, Bool.false_eq_true, if_false] at hs
  obtain ⟨u₁, s₃, hdeploy, hs⟩ := Eff.bind_ok hs
  obtain ⟨u₂, s₄, hremove, hs⟩ := Eff.bind_ok hs
  cases hs
  refine ⟨prep, existing, s₁, s₂, hvalid, hprep, hlist, rfl, hview₁, ?_⟩
  have hservices := forM_does (serviceActions file prep (makePlan prep existing))
    (fun e s u s' he => deployService_does ht he) hdeploy
  have hremoved := forM_does removeActions (fun name s u s' hn => removeContainer_does ht hn) hremove
  rw [hremoved, hservices, hview₂, upActions, List.foldl_append]

/-! ## What is prepared -/

/-- A replica's name tells which one it is. -/
theorem replicaName_index {project svc : String} {i j : UInt32}
    (hname : replicaName project svc i = replicaName project svc j) :
    i = j := by
  have hlist := congrArg String.toList hname
  rw [replicaName_toList, replicaName_toList] at hlist
  have htail := List.append_cancel_left (List.cons.inj (List.append_cancel_left hlist)).2
  have hnumber : toString (i + 1) = toString (j + 1) := String.toList_inj.mp (List.cons.inj htail).2
  have hparse := Text.parseUnsigned_toString (i + 1).toNat_lt
  have hparse' := Text.parseUnsigned_toString (j + 1).toNat_lt
  have htext : toString (i + 1).toNat = toString (j + 1).toNat := hnumber
  rw [htext, hparse'] at hparse
  exact (UInt32.add_left_inj 1).mp (UInt32.toNat_inj.mp (Option.some.inj hparse).symm)

def replicasOf (file : ComposeFile) (svc : String) : ℕ := (((file.services.get? svc).map Service.replicas).getD 0).toNat

/-- The names of the replicas of a service. -/
def replicaNames (file : ComposeFile) (svc : String) : List String :=
  (List.range (replicasOf file svc)).map fun k => replicaName file.project svc (UInt32.ofNat k)

theorem replicasOf_lt (file : ComposeFile) (svc : String) : replicasOf file svc < 2 ^ 32 :=
  (((file.services.get? svc).map Service.replicas).getD 0).toNat_lt

theorem replicaNames_nodup (file : ComposeFile) (svc : String) : (replicaNames file svc).Nodup := by
  apply List.Nodup.map_on _ List.nodup_range
  intro j hj k hk hname
  have hindex := congrArg UInt32.toNat (replicaName_index hname)
  have hbound := replicasOf_lt file svc
  have hj' : j < 2 ^ 32 := Nat.lt_trans (List.mem_range.mp hj) hbound
  have hk' : k < 2 ^ 32 := Nat.lt_trans (List.mem_range.mp hk) hbound
  rwa [UInt32.toNat_ofNat_of_lt' hj', UInt32.toNat_ofNat_of_lt' hk'] at hindex

theorem mem_replicaNames {svc : String} {i : UInt32} :
    replicaName file.project svc i ∈ replicaNames file svc ↔ i.toNat < replicasOf file svc := by
  constructor
  · intro hmem
    obtain ⟨k, hk, hname⟩ := List.mem_map.mp hmem
    have hbound : k < 2 ^ 32 := Nat.lt_trans (List.mem_range.mp hk) (replicasOf_lt file svc)
    rw [← replicaName_index hname, UInt32.toNat_ofNat_of_lt' hbound]
    exact List.mem_range.mp hk
  · intro hi
    exact List.mem_map.mpr ⟨i.toNat, List.mem_range.mpr hi, by rw [UInt32.ofNat_toNat]⟩

theorem replicaSpecs_names {svc : String} {n : ℕ} {i : UInt32} {st st' : BuildState} {specs : List Spec}
    (hs : replicaSpecs x h file opts svc n i st s = (.ok (specs, st'), s')) :
    specs.map Spec.name = (List.range n).map fun k => replicaName file.project svc (i + UInt32.ofNat k) := by
  induction n generalizing i st s specs with
  | zero =>
    cases hs
    rfl
  | succ n ih =>
    obtain ⟨⟨spec, st₁⟩, s₁, hspec, hs⟩ := Eff.bind_ok hs
    obtain ⟨⟨rest, st₂⟩, s₂, hrest, hs⟩ := Eff.bind_ok hs
    cases hs
    rw [List.map_cons, ih hrest, List.range_succ_eq_map, List.map_cons, List.map_map, BuildState.spec_name hspec]
    congr 1
    · have hzero : i + UInt32.ofNat 0 = i := UInt32.add_zero i
      rw [hzero]
      rfl
    · apply List.map_congr_left
      intro k _
      have hnext : i + 1 + UInt32.ofNat k = i + UInt32.ofNat (k + 1) := by
        rw [UInt32.add_assoc, UInt32.ofNat_add, UInt32.add_comm 1]
        rfl
      rw [hnext]
      rfl

theorem allSpecs_names {svcs : List String} {st st' : BuildState} {specs : List (String × List Spec)}
    (hs : allSpecs x h file opts svcs st s = (.ok (specs, st'), s')) :
    specs.map Prod.fst = svcs ∧ ∀ e ∈ specs, e.2.map Spec.name = replicaNames file e.1 := by
  induction svcs generalizing st s specs with
  | nil =>
    cases hs
    exact ⟨rfl, fun e he => absurd he List.not_mem_nil⟩
  | cons svc svcs ih =>
    obtain ⟨⟨mine, st₁⟩, s₁, hmine, hs⟩ := Eff.bind_ok hs
    obtain ⟨⟨rest, st₂⟩, s₂, hrest, hs⟩ := Eff.bind_ok hs
    cases hs
    obtain ⟨hkeys, hnamed⟩ := ih hrest
    refine ⟨by rw [List.map_cons, hkeys], ?_⟩
    intro e he
    cases he with
    | head =>
      refine (replicaSpecs_names hmine).trans ?_
      apply List.map_congr_left
      intro k _
      have hzero : 0 + UInt32.ofNat k = UInt32.ofNat k := UInt32.zero_add _
      rw [hzero]
    | tail _ hmem => exact hnamed e hmem

/-- Images that are resolved stay so. -/
def Images.Extends (images images' : Images) : Prop := ∀ image m, images image = some m → images' image = some m

/-- What building specs makes of a build state: more images are resolved, and all but the addresses is as it was. -/
structure BuildState.Grows (st st' : BuildState) : Prop where
  forced : st'.forced = st.forced
  templates : st'.templates = st.templates
  images : Images.Extends st.images st'.images

theorem BuildState.Grows.refl (st : BuildState) : st.Grows st := ⟨rfl, rfl, fun _ _ hm => hm⟩

theorem BuildState.Grows.trans {st st' st'' : BuildState} (h : st.Grows st') (h' : st'.Grows st'') : st.Grows st'' :=
  ⟨h'.forced.trans h.forced, h'.templates.trans h.templates, fun image m hm => h'.images image m (h.images image m hm)⟩

theorem zoom_keeps_images {α : Type} (m : Prog S α) (I : Images → Prop) :
    Eff.Keeps (fun p : S × Images => I p.2) (Eff.zoom Prod.fst (fun s p => (s, p.2)) m) :=
  Eff.Keeps.of_state fun _ hp => hp

theorem pullImage_images (I : Images → Prop) (image : String) (policy : PullPolicy)
    (credentials : List RegistryCredential) : Eff.Keeps (fun p : S × Images => I p.2)
      (pullImage x (h.zoom Prod.fst fun s p => (s, p.2)) image policy credentials) := by
  unfold pullImage
  split
  · exact Eff.Keeps.throw _
  · apply Eff.Keeps.bind (zoom_keeps_images (h.call _) I)
    intro r
    split
    · exact Eff.Keeps.lift _
    · exact unexpected_keeps _

theorem resolveImage_extends (st : BuildState) (images : Images) (image : String) (policy : PullPolicy) :
    Eff.Keeps (fun p : S × Images => images.Extends p.2) (resolveImage x h st file opts image policy) := by
  apply Eff.Triple.get_bind
  rintro ⟨s, now⟩ hnow
  change images.Extends now at hnow
  dsimp only
  cases himage : now image with
  | some img =>
    apply Eff.Triple.pure
    rintro p rfl
    exact hnow
  | none =>
    have hpull := pullImage_images (x := x) (h := h) (fun images' => images' = now) image
      (if opts.dryRun then .never else policy) (registryCredentials file.registries st.templates)
    have hfirst : Eff.Triple (fun p : S × Images => p = (s, now))
      (pullImage x (h.zoom Prod.fst fun s p => (s, p.2)) image
        (if opts.dryRun then .never else policy) (registryCredentials file.registries st.templates))
        (fun _ p => p.2 = now) (fun _ p => images.Extends p.2) := by
      refine hpull.conseq (fun p hp => by rw [hp]) (fun _ _ hp => hp) ?_
      intro _ p hp
      rw [hp]
      exact hnow
    apply Eff.Triple.bind hfirst
    intro img
    refine Eff.Triple.bind (Q := fun _ p => images.Extends p.2) (Eff.Triple.modify ?_) fun _ =>
      Eff.Triple.pure fun _ hp => hp
    rintro p hp other m hm
    have hother : other ≠ image := by
      rintro rfl
      have hsome := hnow other m hm
      rw [himage] at hsome
      cases hsome
    show Function.update p.2 image (some img) other = some m
    rw [Function.update_of_ne hother, hp]
    exact hnow other m hm

theorem configPath_images (st : BuildState) (I : Images → Prop) (name : String) :
    Eff.Keeps (fun p : S × Images => I p.2) (configPath x h st file opts name) := by
  unfold configPath
  split
  · exact Eff.Keeps.throw _
  · apply Eff.Keeps.bind (zoom_keeps_images (h.readToString _) I)
    intro text
    apply Eff.Keeps.bind (Eff.Keeps.lift _)
    intro rendered
    split
    · exact Eff.Keeps.pure _
    · apply Eff.Keeps.bind (zoom_keeps_images (h.call _) I)
      intro r
      split
      · exact Eff.Keeps.pure _
      · exact unexpected_keeps _

theorem BuildState.spec_grows {st st' : BuildState} {service : String} {idx : UInt32} {spec : Spec}
    (hs : st.spec x h file opts service idx s = (.ok (spec, st'), s')) : st.Grows st' := by
  obtain ⟨⟨built, images⟩, s₁, hb, hs⟩ := Eff.bind_ok hs
  obtain ⟨⟨addr, ipam⟩, s₂, -, hs⟩ := Eff.bind_ok hs
  cases hs
  have hkeeps : Eff.Keeps (fun p : S × Images => Images.Extends st.images p.2)
      (buildSpec x (st.ctx x h file opts) file service idx) :=
    buildSpec_keeps
      { baseBuild := fun _ => Eff.Keeps.pure _
        oci := fun image policy => resolveImage_extends st st.images image policy
        configPath := fun name => configPath_images st _ name
        newId := zoom_keeps_images h.newId _
        now := zoom_keeps_images h.now _ } file service idx
  have himages := hkeeps.apply (s := (s, st.images)) fun _ _ hm => hm
  rw [Eff.withLocal_ok hb] at himages
  exact ⟨rfl, rfl, himages⟩

/-- What survives each build holds at the end. What holds of each spec behind its build, and still when more specs are
built, holds of all. -/
theorem replicaSpecs_each {J : BuildState → S → Prop} {P : BuildState → Spec → Prop} {svc : String}
    (hmono : ∀ (st st' : BuildState) spec, st.Grows st' → P st spec → P st' spec)
    (hstep : ∀ (st : BuildState) idx s spec st' s', J st s → st.spec x h file opts svc idx s = (.ok (spec, st'), s') →
      J st' s' ∧ P st' spec)
    {n : ℕ} {i : UInt32} {st st' : BuildState} {specs : List Spec} (hJ : J st s)
    (hs : replicaSpecs x h file opts svc n i st s = (.ok (specs, st'), s')) :
    st.Grows st' ∧ J st' s' ∧ ∀ spec ∈ specs, P st' spec := by
  induction n generalizing i st s specs with
  | zero =>
    cases hs
    exact ⟨.refl _, hJ, fun spec hspec => absurd hspec List.not_mem_nil⟩
  | succ n ih =>
    obtain ⟨⟨first, st₁⟩, s₁, hfirst, hs⟩ := Eff.bind_ok hs
    obtain ⟨⟨rest, st₂⟩, s₂, hrest, hs⟩ := Eff.bind_ok hs
    cases hs
    obtain ⟨hJ₁, hP⟩ := hstep _ _ _ _ _ _ hJ hfirst
    obtain ⟨hgrows, hJ₂, hall⟩ := ih hJ₁ hrest
    exact ⟨(BuildState.spec_grows hfirst).trans hgrows, hJ₂, List.forall_mem_cons.mpr ⟨hmono _ _ _ hgrows hP, hall⟩⟩

theorem allSpecs_each {J : BuildState → S → Prop} {P : BuildState → String → Spec → Prop}
    (hmono : ∀ (st st' : BuildState) svc spec, st.Grows st' → P st svc spec → P st' svc spec)
    (hstep : ∀ svc (st : BuildState) idx s spec st' s', J st s →
      st.spec x h file opts svc idx s = (.ok (spec, st'), s') → J st' s' ∧ P st' svc spec)
    {svcs : List String} {st st' : BuildState} {specs : List (String × List Spec)} (hJ : J st s)
    (hs : allSpecs x h file opts svcs st s = (.ok (specs, st'), s')) :
    st.Grows st' ∧ J st' s' ∧ ∀ e ∈ specs, ∀ spec ∈ e.2, P st' e.1 spec := by
  induction svcs generalizing st s specs with
  | nil =>
    cases hs
    exact ⟨.refl _, hJ, fun e he => absurd he List.not_mem_nil⟩
  | cons svc svcs ih =>
    obtain ⟨⟨mine, st₁⟩, s₁, hmine, hs⟩ := Eff.bind_ok hs
    obtain ⟨⟨rest, st₂⟩, s₂, hrest, hs⟩ := Eff.bind_ok hs
    cases hs
    obtain ⟨hgrows₁, hJ₁, hP⟩ :=
      replicaSpecs_each (P := fun st => P st svc) (fun st st' => hmono st st' svc) (hstep svc) hJ hmine
    obtain ⟨hgrows, hJ₂, hall⟩ := ih hJ₁ hrest
    exact ⟨hgrows₁.trans hgrows, hJ₂,
      List.forall_mem_cons.mpr ⟨fun spec hspec => hmono _ _ _ _ hgrows (hP spec hspec), hall⟩⟩

/-- What a preparation has: all replicas of all services, each under its name. -/
structure Covers (file : ComposeFile) (opts : UpOptions) (prep : Prepared) : Prop where
  topo : topoOrder file.dependencyGraph = .ok (prep.specs.map Prod.fst)
  names : ∀ e ∈ prep.specs, e.2.map Spec.name = replicaNames file e.1
  forced : prep.forced = forcedServices file opts

theorem prepare_covers {prep : Prepared} (hs : prepare x h file opts s = (.ok prep, s')) :
    Covers file opts prep := by
  obtain ⟨st, s₁, hnew, hs⟩ := Eff.bind_ok hs
  obtain ⟨⟨specs, st'⟩, s₂, hspecs, hs⟩ := Eff.bind_ok hs
  cases hs
  obtain ⟨hkeys, hnames⟩ := allSpecs_names hspecs
  have hforced : st.forced = forcedServices file opts := by
    obtain ⟨steps⟩ := BuildState.new_ok hnew
    rw [steps.hst]
  have hlast := (allSpecs_each (J := fun _ _ => True) (P := fun _ _ _ => True) (fun _ _ _ _ _ _ => trivial)
    (fun _ _ _ _ _ _ _ _ _ => ⟨trivial, trivial⟩) trivial hspecs).1.forced
  exact ⟨by rw [hkeys]; exact BuildState.new_topo hnew, hnames, hlast.trans hforced⟩

theorem BuildState.spec_built {st st' : BuildState} {service : String} {idx : UInt32} {spec : Spec}
    (hs : st.spec x h file opts service idx s = (.ok (spec, st'), s')) :
    ∃ svc built addr, file.services.get? service = some svc ∧
      Built x ⟨file, st.ctx x h file opts, (s, st.images)⟩ service idx svc built ∧
      spec = { built with net := { built.net with addr := some addr } } := by
  obtain ⟨⟨built, images⟩, s₁, hb, hs⟩ := Eff.bind_ok hs
  obtain ⟨⟨addr, ipam⟩, s₂, -, hs⟩ := Eff.bind_ok hs
  cases hs
  have hbuild := Eff.withLocal_ok hb
  obtain ⟨svc, hsvc, -, -⟩ := buildSpec_ok hbuild
  exact ⟨svc, built, addr, hsvc, buildSpec_built (v := ⟨file, st.ctx x h file opts, (s, st.images)⟩) hsvc hbuild, rfl⟩

/-- Every prepared spec comes from a build, and what holds behind each build holds at the end. -/
theorem prepare_specs {J : BuildState → S → Prop} {P : BuildState → String → Spec → Prop}
    (hmono : ∀ (st st' : BuildState) svc spec, st.Grows st' → P st svc spec → P st' svc spec)
    (hstep : ∀ svc (st : BuildState) idx s spec st' s', J st s →
      st.spec x h file opts svc idx s = (.ok (spec, st'), s') → J st' s' ∧ P st' svc spec)
    (hnew : ∀ st s₁, BuildState.new x h file opts s = (.ok st, s₁) → J st s₁) {prep : Prepared}
    (hs : prepare x h file opts s = (.ok prep, s')) :
    ∃ st s₁ st', BuildState.new x h file opts s = (.ok st, s₁) ∧ st.Grows st' ∧ J st' s' ∧
      ∀ e ∈ prep.specs, ∀ spec ∈ e.2, P st' e.1 spec := by
  obtain ⟨st, s₁, hst, hs⟩ := Eff.bind_ok hs
  obtain ⟨⟨specs, st'⟩, s₂, hspecs, hs⟩ := Eff.bind_ok hs
  cases hs
  exact ⟨st, s₁, st', hst, allSpecs_each hmono hstep (hnew _ _ hst) hspecs⟩

theorem prepare_each {P : String → Spec → Prop}
    (hP : ∀ st st' service idx spec s s', BuildState.spec x h st file opts service idx s = (.ok (spec, st'), s') →
      P service spec) {prep : Prepared} (hs : prepare x h file opts s = (.ok prep, s')) :
    ∀ e ∈ prep.specs, ∀ spec ∈ e.2, P e.1 spec := by
  obtain ⟨st, s₁, st', -, -, -, hall⟩ := prepare_specs (J := fun _ _ => True) (P := fun _ => P)
    (fun _ _ _ _ _ hspec => hspec) (fun _ _ _ _ _ _ _ _ hspec => ⟨trivial, hP _ _ _ _ _ _ _ hspec⟩)
    (fun _ _ _ => trivial) hs
  exact hall

/-- All specs, in the order in which they are deployed. -/
def Prepared.all (prep : Prepared) : List Spec := prep.specs.flatMap Prod.snd

theorem Covers.all_names {prep : Prepared} (hc : Covers file opts prep) :
    prep.all.map Spec.name = (prep.specs.map Prod.fst).flatMap (replicaNames file) := by
  have hall : ∀ specs : List (String × List Spec), (∀ e ∈ specs, e.2.map Spec.name = replicaNames file e.1) →
      (specs.flatMap Prod.snd).map Spec.name = (specs.map Prod.fst).flatMap (replicaNames file) := by
    intro specs
    induction specs with
    | nil => exact fun _ => rfl
    | cons e specs ih =>
      intro hnames
      rw [List.flatMap_cons, List.map_append, hnames e (List.mem_cons_self ..), List.map_cons, List.flatMap_cons,
        ih fun e' he' => hnames e' (List.mem_cons_of_mem _ he')]
  exact hall prep.specs hc.names

theorem Covers.mem_names {prep : Prepared} (hc : Covers file opts prep) {name : String} :
    name ∈ prep.all.map Spec.name ↔ ∃ svc i, i.toNat < replicasOf file svc ∧ name = replicaName file.project svc i := by
  rw [hc.all_names, List.mem_flatMap]
  constructor
  · rintro ⟨svc, -, hname⟩
    obtain ⟨k, hk, rfl⟩ := List.mem_map.mp hname
    refine ⟨svc, UInt32.ofNat k, ?_, rfl⟩
    rw [UInt32.toNat_ofNat_of_lt' (Nat.lt_trans (List.mem_range.mp hk) (replicasOf_lt file svc))]
    exact List.mem_range.mp hk
  · rintro ⟨svc, i, hi, rfl⟩
    refine ⟨svc, ?_, mem_replicaNames.mpr hi⟩
    rw [(topoOrder_spec hc.topo).2, ComposeFile.dependencyGraph, OrdMap.keys_mapValues, OrdMap.mem_keys]
    unfold replicasOf at hi
    cases hg : file.services.get? svc with
    | none =>
      rw [hg] at hi
      exact absurd hi (Nat.not_lt_zero _)
    | some v => simp

theorem Covers.nodup {prep : Prepared} (hc : Covers file opts prep) : (prep.all.map Spec.name).Nodup := by
  rw [hc.all_names, List.nodup_flatMap]
  refine ⟨fun svc _ => replicaNames_nodup file svc, ?_⟩
  apply (topoOrder_spec hc.topo).1.imp
  intro a b hne name ha hb
  obtain ⟨j, -, rfl⟩ := List.mem_map.mp ha
  obtain ⟨k, -, hname⟩ := List.mem_map.mp hb
  exact hne (replicaName_service hname).symm

end Run
end Compose
end Collocate
