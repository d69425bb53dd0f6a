import Collocate.Controller.Runs

/-! # Counts, indexes and bounds over whole runs

The count a plan is made for comes from the file or from the autoscaler, the indexes it may use from the
definition that is applied. As long as the applied definition allows what the file asks for, every index
that is started is one the definition has, and a tick gets through all services. A definition that is
kept because its revision did not change may allow less. -/
namespace Collocate.Control
open Compose Autoscaler Rollout
set_option autoImplicit false

variable {σ : Type} {x : Extern} {fl : Floats} {o : Host σ} {now : UInt64} {who : Option String} {v v' : View}

/-! ## Definitions in use -/

/-- Every definition the controller may use satisfies `Q`. -/
structure Defined (Q : String → Service → Prop) (c : Controller) : Prop where
  file : ∀ svc dfn, c.file.services.get? svc = some dfn → Q svc dfn
  applied : ∀ svc a, c.applied svc = some a → Q svc a.service
  previous : ∀ svc p, c.previous svc = some p → Q svc p.service

section Defined
variable {Q : String → Service → Prop} {c c' : Controller}

theorem Defined.new {file : ComposeFile} (opts : UpOptions)
    (h : ∀ svc dfn, file.services.get? svc = some dfn → Q svc dfn) : Defined Q { file, opts } where
  file := h
  applied := fun _ _ ha => by cases ha
  previous := fun _ _ hp => by cases hp

theorem Defined.mono {Q' : String → Service → Prop} (h : Defined Q c) (hQ : ∀ svc dfn, Q svc dfn → Q' svc dfn) :
    Defined Q' c where
  file := fun svc dfn hf => hQ svc dfn (h.file svc dfn hf)
  applied := fun svc a ha => hQ svc a.service (h.applied svc a ha)
  previous := fun svc p hp => hQ svc p.service (h.previous svc p hp)

theorem Defined.same (h : Defined Q c) (hc : SameRevisions c c') : Defined Q c' where
  file := by
    rw [hc.file]
    exact h.file
  applied := by
    rw [hc.applied]
    exact h.applied
  previous := by
    rw [hc.previous]
    exact h.previous

theorem Defined.setFile (h : Defined Q c) {file : ComposeFile}
    (hf : ∀ svc dfn, file.services.get? svc = some dfn → Q svc dfn) : Defined Q (c.setFile file) where
  file := hf
  applied := h.applied
  previous := h.previous

theorem Defined.adopt (h : Defined Q c) {svc : String} {a : Applied} (ha : Q svc a.service) :
    Defined Q (c.adopt svc a) where
  file := h.file
  applied := by
    intro svc' a' ha'
    rw [Controller.adopt_applied] at ha'
    split at ha'
    · rename_i heq
      cases ha'
      exact heq ▸ ha
    · exact h.applied svc' a' ha'
  previous := h.previous

theorem Defined.supersede (h : Defined Q c) {svc : String} {cur a : Applied} (hcur : Q svc cur.service)
    (ha : Q svc a.service) : Defined Q (c.supersede now svc cur a) where
  file := h.file
  applied := by
    intro svc' a' ha'
    rw [Controller.supersede_applied] at ha'
    split at ha'
    · rename_i heq
      cases ha'
      exact heq ▸ ha
    · exact h.applied svc' a' ha'
  previous := by
    intro svc' p hp
    rw [Controller.supersede_previous] at hp
    split at hp
    · rename_i heq
      cases hp
      exact heq ▸ hcur
    · exact h.previous svc' p hp

theorem Defined.rollBack (h : Defined Q c) {svc revision : String} {prev : Applied} (hprev : Q svc prev.service) :
    Defined Q (c.rollBack now svc revision prev) where
  file := h.file
  applied := by
    intro svc' a' ha'
    rw [Controller.rollBack_applied] at ha'
    split at ha'
    · rename_i heq
      cases ha'
      exact heq ▸ hprev
    · exact h.applied svc' a' ha'
  previous := by
    intro svc' p hp
    rw [Controller.rollBack_previous] at hp
    split at hp
    · cases hp
    · exact h.previous svc' p hp

theorem defined_step (hs : Step fl now who v v') (h : Defined Q v.ctl) : Defined Q v'.ctl := by
  cases hs with
  | tidy hc => exact h.same hc.toSameRevisions
  | completed _ _ hc => exact h.same hc.toSameRevisions
  | adopt hf _ => exact h.adopt (h.file _ _ hf)
  | supersede hf ha _ _ => exact h.supersede (h.applied _ _ ha) (h.file _ _ hf)
  | decided _ _ _ _ => exact h.same ⟨rfl, rfl, rfl, rfl⟩
  | rollback _ _ hprev => exact h.rollBack (h.previous _ _ hprev)
  | _ => exact h

end Defined

/-! ## The autoscaler's choice -/

/-- The count is one the service's autoscaler may choose. -/
def InRange (dfn : Service) (count : UInt32) : Prop :=
  ∃ p, dfn.autoscale = some p ∧ p.min ≤ count ∧ count ≤ p.max

/-- The service's autoscaler has a range to choose from. -/
def Ranged (dfn : Service) : Prop := ∀ p, dfn.autoscale = some p → p.min ≤ p.max

/-- The chosen counts and the scalers are of the file's autoscaler policies. -/
structure Chosen (c : Controller) : Prop where
  desired : ∀ svc dfn, c.file.services.get? svc = some dfn → ∀ d, c.desired svc = some d → InRange dfn d
  scalers : ∀ svc dfn, c.file.services.get? svc = some dfn → ∀ sc, c.scalers svc = some sc →
    ∃ p, dfn.autoscale = some p ∧ sc.policy.min = p.min ∧ sc.policy.max = p.max

theorem Chosen.new (file : ComposeFile) (opts : UpOptions) : Chosen { file, opts } where
  desired := fun _ _ _ _ hd => by cases hd
  scalers := fun _ _ _ _ hsc => by cases hsc

theorem Chosen.same {c c' : Controller} (h : Chosen c) (hc : SameCore c c') : Chosen c' where
  desired := by
    rw [hc.file, hc.desired]
    exact h.desired
  scalers := by
    rw [hc.file, hc.scalers]
    exact h.scalers

/-- A policy that compares equal has the same range. -/
theorem partialEq_range {a b : Autoscale} (h : a.partialEq b = true) : a.min = b.min ∧ a.max = b.max := by
  simp only [Autoscale.partialEq, Bool.and_eq_true, beq_iff_eq] at h
  exact ⟨h.1.1.1.1.1, h.1.1.1.1.2⟩

/-- What `set_file` keeps of a service's choice was made for a policy of the same range. -/
theorem resets_false {c : Controller} {file : ComposeFile} {svc : String} {dfn : Service}
    (hf : file.services.get? svc = some dfn) (h : c.resets file svc = false) :
    ∃ old, c.file.services.get? svc = some old ∧ ∀ p, old.autoscale = some p →
      ∃ p', dfn.autoscale = some p' ∧ p.min = p'.min ∧ p.max = p'.max := by
  unfold Controller.resets at h
  rw [hf] at h
  cases hold : c.file.services.get? svc with
  | none => simp [hold] at h
  | some old =>
    refine ⟨old, rfl, fun p hp => ?_⟩
    simp only [hold, hp, Controller.autoscaleChanged] at h
    cases hnew : dfn.autoscale with
    | none => simp [hnew] at h
    | some p' =>
      simp only [hnew, Bool.not_eq_false'] at h
      exact ⟨p', rfl, partialEq_range h⟩

theorem Chosen.setFile {c : Controller} (h : Chosen c) (file : ComposeFile) : Chosen (c.setFile file) where
  desired := by
    intro svc dfn hf d hd
    simp only [Controller.setFile] at hf hd
    split at hd
    · cases hd
    · rename_i hkeep
      obtain ⟨old, hold, hp⟩ := resets_false hf (Bool.eq_false_iff.mpr hkeep)
      obtain ⟨p, hpol, hlo, hhi⟩ := h.desired svc old hold d hd
      obtain ⟨p', hp', hmin, hmax⟩ := hp p hpol
      exact ⟨p', hp', hmin ▸ hlo, hmax ▸ hhi⟩
  scalers := by
    intro svc dfn hf sc hsc
    simp only [Controller.setFile] at hf hsc
    split at hsc
    · cases hsc
    · rename_i hkeep
      obtain ⟨old, hold, hp⟩ := resets_false hf (Bool.eq_false_iff.mpr hkeep)
      obtain ⟨p, hpol, hlo, hhi⟩ := h.scalers svc old hold sc hsc
      obtain ⟨p', hp', hmin, hmax⟩ := hp p hpol
      exact ⟨p', hp', hlo.trans hmin, hhi.trans hmax⟩

theorem Chosen.choose {c : Controller} (h : Chosen c) {svc : String} {dfn : Service} {policy : Autoscale} {sc : Scaler}
    {current : UInt32} {rs : List MetricReading} (hf : c.file.services.get? svc = some dfn) (hr : Ranged dfn)
    (hp : dfn.autoscale = some policy) (hsc : sc = (c.scalers svc).getD (Scaler.new policy)) :
    Chosen (c.choose svc (sc.decide fl now current rs).2 ((sc.decide fl now current rs).1.apply current)) := by
  have hpol : sc.policy.min = policy.min ∧ sc.policy.max = policy.max := by
    cases hs : c.scalers svc with
    | none =>
      rw [hs] at hsc
      rw [hsc]
      exact ⟨rfl, rfl⟩
    | some sc' =>
      rw [hs] at hsc
      obtain ⟨p, hp', hrange⟩ := h.scalers svc dfn hf sc' hs
      rw [hp] at hp'
      cases hp'
      rw [hsc]
      exact hrange
  constructor
  · intro svc' dfn' hf' d hd
    rw [Controller.choose_desired] at hd
    split at hd
    · rename_i heq
      subst heq
      have hf' : c.file.services.get? svc' = some dfn' := hf'
      rw [hf] at hf'
      cases hf'
      cases hd
      have hb := Scaler.decide_bounds fl sc now current rs (by rw [hpol.1, hpol.2]; exact hr policy hp)
      rw [hpol.1, hpol.2] at hb
      exact ⟨policy, hp, hb⟩
    · exact h.desired svc' dfn' hf' d hd
  · intro svc' dfn' hf' sc' hsc'
    rw [Controller.choose_scalers] at hsc'
    split at hsc'
    · rename_i heq
      subst heq
      have hf' : c.file.services.get? svc' = some dfn' := hf'
      rw [hf] at hf'
      cases hf'
      cases hsc'
      rw [Scaler.decide_policy]
      exact ⟨policy, hp, hpol⟩
    · exact h.scalers svc' dfn' hf' sc' hsc'

theorem chosen_step (hs : Step fl now who v v') (hd : Defined (fun _ => Ranged) v.ctl) (h : Chosen v.ctl) :
    Chosen v'.ctl := by
  cases hs with
  | tidy hc => exact h.same hc
  | completed _ _ hc => exact h.same hc
  | adopt _ _ => exact ⟨h.desired, h.scalers⟩
  | supersede _ _ _ _ => exact ⟨h.desired, h.scalers⟩
  | decided hf hp hsc _ => exact h.choose hf (hd.file _ _ hf) hp hsc
  | rollback _ _ _ => exact ⟨h.desired, h.scalers⟩
  | _ => exact h

/-! ## Indexes within the definition -/

/-- The largest index the service may ever need has a successor. -/
def Fits (dfn : Service) : Prop :=
  dfn.replicas.toNat + dfn.updatePolicy.maxSurge.toNat < 2 ^ 32 ∧
    ∀ p, dfn.autoscale = some p → p.max.toNat + dfn.updatePolicy.maxSurge.toNat < 2 ^ 32

theorem Fits.maxReplicas {dfn : Service} (h : Fits dfn) :
    dfn.maxReplicas.toNat + dfn.updatePolicy.maxSurge.toNat < 2 ^ 32 := by
  unfold Service.maxReplicas
  split
  · exact h.1
  · rename_i p hp
    have hmax := h.2 p hp
    have hrep := h.1
    rw [max_toNat]
    omega

theorem Fits.indexBound {dfn : Service} (h : Fits dfn) :
    dfn.indexBound.toNat = dfn.maxReplicas.toNat + dfn.updatePolicy.maxSurge.toNat := by
  rw [Service.indexBound, UInt32.toNat_add, Nat.mod_eq_of_lt h.maxReplicas]

/-- The count is the file's or one the file lets the autoscaler choose. -/
def AsAsked (dfn : Service) (count : UInt32) : Prop := count = dfn.replicas ∨ InRange dfn count

theorem AsAsked.le {dfn : Service} {count : UInt32} (h : AsAsked dfn count) : count.toNat ≤ dfn.maxReplicas.toNat := by
  unfold Service.maxReplicas
  rcases h with rfl | ⟨p, hp, -, hhi⟩
  · split
    · exact Nat.le_refl _
    · rw [max_toNat]
      omega
  · rw [UInt32.le_iff_toNat_le] at hhi
    simp only [hp, max_toNat]
    omega

theorem CanPlan.asAsked {svc : String} {dfn : Service} {fileRev : String} {a : Applied} {st : Rollout.State}
    (hp : CanPlan v svc dfn fileRev a st) (h : Chosen v.ctl) : AsAsked dfn st.desired := by
  rw [hp.desired]
  cases hd : v.ctl.desired svc with
  | none => exact Or.inl rfl
  | some d => exact Or.inr (h.desired svc dfn hp.file d hd)

/-- A start is within the bound of the definition the plan was made with. -/
theorem start_lt_indexBound {a : Applied} {st : Rollout.State} (hfit : Fits a.service)
    (hpol : st.policy = a.service.updatePolicy) (hle : st.desired.toNat ≤ a.service.maxReplicas.toNat)
    {i : UInt32} {revision : String} (hs : .start i revision ∈ nextStep st) : i < a.service.indexBound := by
  have hi := (start_mem hs).2
  have hsum := hfit.maxReplicas
  rw [max_toNat, bound_toNat (by rw [hpol]; omega), hpol] at hi
  rw [UInt32.lt_iff_toNat_lt, hfit.indexBound]
  omega

/-- A definition is only kept while it allows as many replicas as the file's, and while its revision is
the file's also only with the same update policy. -/
def KeepsPace : Event → Prop
  | .kept _ dfn rev cur => dfn.maxReplicas ≤ cur.service.maxReplicas ∧
      (cur.revision = rev → dfn.updatePolicy = cur.service.updatePolicy)
  | _ => True

instance : (e : Event) → Decidable (KeepsPace e)
  | .kept _ dfn rev cur => inferInstanceAs (Decidable
      (dfn.maxReplicas ≤ cur.service.maxReplicas ∧ (cur.revision = rev → dfn.updatePolicy = cur.service.updatePolicy)))
  | .call .. | .prepared _ | .built .. | .rolledBack .. | .decided .. | .planned .. | .superseded ..
  | .completed .. => .isTrue trivial

/-- Only replicas the definition has are built. -/
def WithinBound : Event → Prop
  | .built _ (some dfn) idx _ => idx < dfn.indexBound
  | _ => True

/-- A plan starts only replicas the applied definition has, with the count of the file, and with the
file's update policy if the file's revision is applied. -/
def TakesEffect : Event → Prop
  | .planned _ dfn rev a st => (∀ idx revision, .start idx revision ∈ nextStep st → idx < a.service.indexBound) ∧
      (a.revision = rev → st.policy = dfn.updatePolicy) ∧ AsAsked dfn st.desired
  | _ => True

/-- What `validate` and the condition on the sums give for a definition. -/
structure Usable (dfn : Service) : Prop where
  some : dfn.replicas ≠ 0
  ranged : Ranged dfn
  fits : Fits dfn

theorem Usable.indexBound_pos {dfn : Service} (h : Usable dfn) : 0 < dfn.indexBound := by
  have hpos : dfn.replicas.toNat ≠ 0 := fun h0 => h.some (UInt32.toNat.inj h0)
  have hle : dfn.replicas.toNat ≤ dfn.maxReplicas.toNat := AsAsked.le (Or.inl rfl)
  rw [UInt32.lt_iff_toNat_lt, h.fits.indexBound, UInt32.toNat_zero]
  omega

/-- What is known of a plan from the moment it is made. -/
structure SoundPlan (log : List Event) (svc : String) (dfn : Service) (rev : String) (a : Applied)
    (st : Rollout.State) : Prop where
  usable : Usable a.service
  policy : st.policy = a.service.updatePolicy
  asked : AsAsked dfn st.desired
  basis : a = ⟨rev, dfn⟩ ∨ .kept svc dfn rev a ∈ log

theorem SoundPlan.takesEffect {log : List Event} {svc : String} {dfn : Service} {rev : String} {a : Applied}
    {st : Rollout.State} (h : SoundPlan log svc dfn rev a st) (hk : ∀ e ∈ log, KeepsPace e) :
    TakesEffect (.planned svc dfn rev a st) := by
  have hle := h.asked.le
  rcases h.basis with rfl | hkept
  · exact ⟨fun i revision hs => start_lt_indexBound h.usable.fits h.policy hle hs, fun _ => h.policy, h.asked⟩
  · obtain ⟨hmax, hpol⟩ := hk _ hkept
    rw [UInt32.le_iff_toNat_le] at hmax
    exact ⟨fun i revision hs => start_lt_indexBound h.usable.fits h.policy (hle.trans hmax) hs,
      fun hrev => h.policy.trans (hpol hrev).symm, h.asked⟩

/-- The state of the controller and of the tick that keeps indexes within their bounds. -/
structure Paced (v : View) : Prop where
  defs : Defined (fun _ => Usable) v.ctl
  chosen : Chosen v.ctl
  plans : ∀ svc dfn rev a st, .planned svc dfn rev a st ∈ v.log → SoundPlan v.log svc dfn rev a st
  bounds : (∀ e ∈ v.log, KeepsPace e) → ∀ e ∈ v.log, WithinBound e ∧ TakesEffect e

theorem SoundPlan.mono {log log' : List Event} {svc : String} {dfn : Service} {rev : String} {a : Applied}
    {st : Rollout.State} (h : SoundPlan log svc dfn rev a st) (hl : log ⊆ log') : SoundPlan log' svc dfn rev a st :=
  ⟨h.usable, h.policy, h.asked, h.basis.imp_right fun hk => hl hk⟩

theorem Paced.add (h : Paced v) (hs : Step fl now who v v') {e : Event} (hlog : v'.log = v.log ++ [e])
    (hplan : ∀ svc dfn rev a st, e = .planned svc dfn rev a st → SoundPlan v.log svc dfn rev a st)
    (he : (∀ e ∈ v.log, KeepsPace e) → WithinBound e) : Paced v' where
  defs := defined_step hs h.defs
  chosen := chosen_step hs (h.defs.mono fun _ _ hu => hu.ranged) h.chosen
  plans := by
    intro svc dfn rev a st hmem
    have hsub : v.log ⊆ v'.log := hs.log_subset
    rw [hlog] at hmem
    rcases List.mem_append.mp hmem with hmem | hmem
    · exact (h.plans svc dfn rev a st hmem).mono hsub
    · exact (hplan svc dfn rev a st (List.mem_singleton.mp hmem).symm).mono hsub
  bounds := by
    intro hk e' hmem
    have hk : ∀ e ∈ v.log, KeepsPace e := fun e he => hk e (hs.log_subset he)
    rw [hlog] at hmem
    rcases List.mem_append.mp hmem with hmem | hmem
    · exact h.bounds hk e' hmem
    · rw [List.mem_singleton.mp hmem]
      refine ⟨he hk, ?_⟩
      cases e with
      | planned svc dfn rev a st => exact (hplan svc dfn rev a st rfl).takesEffect hk
      | _ => trivial

/-- An event that is neither a build nor a plan. -/
theorem Paced.plain (h : Paced v) (hs : Step fl now who v v') {e : Event} (hlog : v'.log = v.log ++ [e])
    (hplan : ∀ svc dfn rev a st, e ≠ .planned svc dfn rev a st) (he : WithinBound e) : Paced v' :=
  h.add hs hlog (fun svc dfn rev a st heq => absurd heq (hplan svc dfn rev a st)) fun _ => he

theorem paced_step (hs : Step fl now who v v') (h : Paced v) : Paced v' := by
  have hs' := hs
  cases hs with
  | @builtFile svc res =>
    refine h.plain hs' rfl (fun _ _ _ _ _ he => by cases he) ?_
    cases hf : v.ctl.file.services.get? svc with
    | none => trivial
    | some dfn => exact (h.defs.file svc dfn hf).indexBound_pos
  | builtReplica hp hstart =>
    refine h.add hs' rfl (fun _ _ _ _ _ he => by cases he) fun hk => ?_
    obtain ⟨dfn, rev, hmem⟩ := hp.planned
    exact ((h.plans _ _ _ _ _ hmem).takesEffect hk).1 _ _ hstart
  | tidy hc =>
    exact ⟨defined_step hs' h.defs, chosen_step hs' (h.defs.mono fun _ _ hu => hu.ranged) h.chosen, h.plans, h.bounds⟩
  | adopt hf _ =>
    exact ⟨defined_step hs' h.defs, chosen_step hs' (h.defs.mono fun _ _ hu => hu.ranged) h.chosen, h.plans, h.bounds⟩
  | planned _ _ hp =>
    refine h.add hs' rfl (fun svc dfn rev a st he => ?_) fun _ => trivial
    cases he
    exact ⟨h.defs.applied _ _ hp.applied, hp.policy, hp.asAsked h.chosen, hp.basis⟩
  | _ => exact h.plain hs' rfl (fun _ _ _ _ _ he => by cases he) trivial

/-- The definitions of a file are usable. -/
def UsableFile (file : ComposeFile) : Prop := ∀ svc dfn, file.services.get? svc = some dfn → Usable dfn

theorem usableFile_of_valid {file : ComposeFile} (hv : file.validate = .ok ())
    (hfit : ∀ svc dfn, file.services.get? svc = some dfn → Fits dfn) : UsableFile file := by
  intro svc dfn hf
  obtain ⟨hrep, hrange⟩ := ComposeFile.validate_service hv hf
  exact ⟨hrep, fun p hp => (hrange p hp).2, hfit svc dfn hf⟩

def FilesAre (P : ComposeFile → Prop) : Command → Prop
  | .setFile file => P file
  | _ => True

theorem paced_between {c : Controller} (hd : Defined (fun _ => Usable) c) (hc : Chosen c) : Paced ⟨c, []⟩ where
  defs := hd
  chosen := hc
  plans := fun _ _ _ _ _ hm => absurd hm List.not_mem_nil
  bounds := fun _ _ hm => absurd hm List.not_mem_nil

theorem paced_invariant : Invariant fl (FilesAre UsableFile) fun _ => Paced where
  step := fun _ hs h => paced_step hs h
  close := fun h => paced_between h.defs h.chosen
  setFile := fun hf h => paced_between (h.defs.setFile hf) (h.chosen.setFile _)
  pause := fun h => paced_between (h.defs.same ⟨rfl, rfl, rfl, rfl⟩) (h.chosen.same ⟨⟨rfl, rfl, rfl, rfl⟩, rfl, rfl⟩)
  resume := fun h => paced_between (h.defs.same ⟨rfl, rfl, rfl, rfl⟩) (h.chosen.same ⟨⟨rfl, rfl, rfl, rfl⟩, rfl, rfl⟩)

/-- Nothing but a replica that is out of range is in the tick's way: the API answers as it should, and
what is needed to build a replica is there. -/
def fine : Event → Bool
  | .call _ _ (.error _) => false
  | .call (some _) (.ps true (some _)) (.ok (.containers _)) => true
  | .call (some _) (.ps true (some _)) (.ok _) => false
  | .prepared (.error _) => false
  | .built _ (some dfn) idx (.error _) => dfn.indexBound ≤ idx
  | .built _ none _ (.error _) => false
  | _ => true

theorem not_blamed {log : List Event} (hfine : ∀ e ∈ log, fine e = true) (hb : ∀ e ∈ log, WithinBound e) (e : Error) :
    ¬ Blames log e := by
  rintro (h | ⟨svc, dfn, idx, h⟩ | ⟨turn, req, h⟩ | ⟨svc, project, r, h, hne⟩)
  · exact absurd (hfine _ h) (by simp [fine])
  · have hf := hfine _ h
    cases dfn with
    | none => simp [fine] at hf
    | some dfn =>
      have hlt := hb _ h
      simp only [fine, decide_eq_true_eq] at hf
      rw [WithinBound, UInt32.lt_iff_toNat_lt] at hlt
      rw [UInt32.le_iff_toNat_le] at hf
      omega
  · exact absurd (hfine _ h) (by simp [fine])
  · have hf := hfine _ h
    cases r with
    | containers l => exact hne l rfl
    | _ => simp [fine] at hf

/-- If no definition is kept that falls behind the file, every start is within the bound of the
definition it is built from, the file's counts and policy are used, and a tick that nothing else stands
in the way of ends well and visits every service. -/
theorem scaling_takes_effect {r : Run σ} {file : ComposeFile} {opts : UpOptions} (hr : Started r file opts)
    (hfit : ∀ svc dfn, file.services.get? svc = some dfn → Fits dfn) (cmds : List Command)
    (hcmds : ∀ f, .setFile f ∈ cmds → f.validate = .ok () ∧ ∀ svc dfn, f.services.get? svc = some dfn → Fits dfn)
    (now : UInt64) {res : Result (List String)} {m : Machine σ}
    (ht : tick x fl o now (r.exec x fl o cmds).machine = (res, m)) (hk : ∀ e ∈ m.log, KeepsPace e) :
    (∀ e ∈ m.log, WithinBound e ∧ TakesEffect e) ∧
      ((∀ e ∈ m.log, fine e = true) → (∃ events, res = .ok events) ∧
        ∀ svc, ((r.exec x fl o cmds).ctl.file.services.get? svc).isSome →
          Visited (r.exec x fl o cmds).ctl.file m.log svc) := by
  have hfile : UsableFile file := usableFile_of_valid hr.ctl.2 hfit
  have h₀ : Paced ⟨r.ctl, []⟩ := by
    rw [hr.ctl.1]
    exact paced_between (.new opts hfile) (.new file opts)
  have hallowed : ∀ cmd ∈ cmds, FilesAre UsableFile cmd := by
    intro cmd hcmd
    cases cmd with
    | setFile f => exact usableFile_of_valid (hcmds f hcmd).1 (hcmds f hcmd).2
    | _ => trivial
  have hI : Invariant fl (FilesAre UsableFile) fun _ => Paced := paced_invariant
  have hrun : Paced ⟨(r.exec x fl o cmds).ctl, []⟩ := hI.exec h₀ hallowed
  have h : Paced (tick x fl o now (r.exec x fl o cmds).machine).2.view := hI.tick hrun trivial
  rw [ht] at h
  have hbounds := h.bounds hk
  refine ⟨hbounds, fun hfine => ?_⟩
  cases res with
  | error e => exact absurd (tick_error rfl ht) (not_blamed hfine (fun e' he' => (hbounds e' he').1) e)
  | ok events => exact ⟨⟨events, rfl⟩, fun svc hsvc => tick_ok rfl ht hsvc⟩

/-- A tick, and then the file asks for another number of replicas. -/
def rescale (replicas : UInt32) : List Command := [.tick 0, .setFile (webFile "a" replicas)]

/-- The tick after that. -/
@[irreducible] def rescaledTick (before after : UInt32) : Result (List String) × Machine (List ContainerInfo) :=
  tick plainExtern plainFloats memoryHost 20 (memoryRun (webFile "a" before) [] (rescale after)).machine

theorem rescaledTick_eq (before after : UInt32) :
    tick plainExtern plainFloats memoryHost 20
      (Run.exec plainExtern plainFloats memoryHost (freshRun (webFile "a" before) []) (rescale after)).machine =
        ((rescaledTick before after).1, (rescaledTick before after).2) := by
  delta rescaledTick memoryRun
  exact Prod.mk.eta.symm

theorem webFile_fits {command : String} {replicas : UInt32} (h : replicas.toNat + 1 < 2 ^ 32) {svc : String}
    {dfn : Service} (hf : (webFile command replicas).services.get? svc = some dfn) : Fits dfn := by
  simp only [webFile, OrdMap.get?_insert, OrdMap.get?_empty] at hf
  split at hf
  · cases hf
    exact ⟨h, fun p hp => by cases hp⟩
  · cases hf

/-- Scaling down from three replicas to two. -/
theorem shrunk_file_takes_effect :
    (∃ events, (rescaledTick 3 2).1 = .ok events) ∧ ∀ e ∈ (rescaledTick 3 2).2.log, WithinBound e ∧ TakesEffect e := by
  have hk : ∀ e ∈ (rescaledTick 3 2).2.log, KeepsPace e := by decide +kernel
  have hfine : ∀ e ∈ (rescaledTick 3 2).2.log, fine e = true := by decide +kernel
  have hcmds : ∀ f, .setFile f ∈ rescale 2 →
      f.validate = .ok () ∧ ∀ svc dfn, f.services.get? svc = some dfn → Fits dfn := by
    intro f hf
    simp only [rescale, List.mem_cons, reduceCtorEq, Command.setFile.injEq, List.not_mem_nil, or_false, false_or] at hf
    rw [hf]
    exact ⟨by decide +kernel, fun _ _ hf => webFile_fits (by decide) hf⟩
  have h := scaling_takes_effect (x := plainExtern) (o := memoryHost)
    (freshRun_started (by decide +kernel) []) (fun _ _ hf => webFile_fits (by decide) hf) _ hcmds
    20 (rescaledTick_eq 3 2) hk
  exact ⟨(h.2 hfine).1, h.1⟩

/-- Scaling up from one replica to five: the kept definition has two indexes and the third start fails. -/
theorem grown_file_out_of_range :
    (webFile "a" 1).validate = .ok () ∧ (webFile "a" 5).validate = .ok () ∧
      (∀ e ∈ (rescaledTick 1 5).2.log, fine e = true) ∧ (rescaledTick 1 5).1 = .error (outOfRange "web" 2) ∧
        ¬ ∀ e ∈ (rescaledTick 1 5).2.log, WithinBound e := by
  have hfine : ∀ e ∈ (rescaledTick 1 5).2.log, fine e = true := by decide +kernel
  have hres : (rescaledTick 1 5).1 = .error (outOfRange "web" 2) := by decide +kernel
  refine ⟨by decide +kernel, by decide +kernel, hfine, hres, fun hb => ?_⟩
  have ht := rescaledTick_eq 1 5
  rw [hres] at ht
  exact not_blamed hfine hb _ (tick_error rfl ht)

/-! ## Sums that stay below their width -/

/-- The sums behind an event are what they are as natural numbers: the index bound and the successor of
the index in a build, the count with the surge in a plan, and in a decision of the autoscaler the recorded
times with the longest window. -/
def NoOverflow : Event → Prop
  | .built _ (some dfn) idx _ => dfn.maxReplicas.toNat + dfn.updatePolicy.maxSurge.toNat < 2 ^ 32 ∧
      idx.toNat + 1 < 2 ^ 32
  | .planned _ _ _ _ st => st.desired.toNat + st.policy.maxSurge.toNat < 2 ^ 32
  | .decided _ sc now => ∀ t ∈ now :: sc.history.map Prod.fst, t.toNat + sc.longest.toNat < 2 ^ 64
  | _ => True

instance : (e : Event) → Decidable (NoOverflow e)
  | .built _ (some dfn) idx _ => inferInstanceAs (Decidable
      (dfn.maxReplicas.toNat + dfn.updatePolicy.maxSurge.toNat < 2 ^ 32 ∧ idx.toNat + 1 < 2 ^ 32))
  | .planned _ _ _ _ st => inferInstanceAs (Decidable (st.desired.toNat + st.policy.maxSurge.toNat < 2 ^ 32))
  | .decided _ sc now =>
    inferInstanceAs (Decidable (∀ t ∈ now :: sc.history.map Prod.fst, t.toNat + sc.longest.toNat < 2 ^ 64))
  | .built _ none _ _ | .call .. | .prepared _ | .kept .. | .rolledBack .. | .superseded ..
  | .completed .. => .isTrue trivial

/-- The clock leaves room for the windows of every autoscaler of the file. -/
def ClockFits (file : ComposeFile) (now : UInt64) : Prop :=
  ∀ svc dfn p, file.services.get? svc = some dfn → dfn.autoscale = some p →
    now.toNat + p.up.stabilizationSecs.toNat < 2 ^ 64 ∧ now.toNat + p.down.stabilizationSecs.toNat < 2 ^ 64

/-- Commands of a run on one file at times the clock can count from. -/
def OnFile (file : ComposeFile) : Command → Prop
  | .setFile f => f = file
  | .tick now => ClockFits file now
  | _ => True

theorem longest_fits {file : ComposeFile} {now : UInt64} (h : ClockFits file now) {svc : String} {dfn : Service}
    {sc : Scaler} (hf : file.services.get? svc = some dfn) (hp : dfn.autoscale = some sc.policy) :
    now.toNat + sc.longest.toNat < 2 ^ 64 := by
  obtain ⟨hup, hdown⟩ := h svc dfn sc.policy hf hp
  change now.toNat + (if sc.policy.up.stabilizationSecs ≤ sc.policy.down.stabilizationSecs then
    sc.policy.down.stabilizationSecs else sc.policy.up.stabilizationSecs).toNat < 2 ^ 64
  split
  · exact hdown
  · exact hup

/-- The scaler is of the service's policy, and its recorded times leave room for its windows. -/
def Timely (file : ComposeFile) (svc : String) (sc : Scaler) : Prop :=
  ∃ dfn, file.services.get? svc = some dfn ∧ dfn.autoscale = some sc.policy ∧
    ∀ e ∈ sc.history, e.1.toNat + sc.longest.toNat < 2 ^ 64

/-- A run on one file: every definition is the file's, and nothing has overflown so far. -/
structure Counted (file : ComposeFile) (past : List (List Event)) (v : View) : Prop where
  same : v.ctl.file = file
  defs : Defined (fun svc dfn => file.services.get? svc = some dfn) v.ctl
  chosen : Chosen v.ctl
  scalers : ∀ svc sc, v.ctl.scalers svc = some sc → Timely file svc sc
  events : ∀ log ∈ past ++ [v.log], ∀ e ∈ log, NoOverflow e

theorem timely_getD {file : ComposeFile} {svc : String} {dfn : Service} {policy : Autoscale} {sc : Option Scaler}
    (h : ∀ sc', sc = some sc' → Timely file svc sc') (hf : file.services.get? svc = some dfn)
    (hp : dfn.autoscale = some policy) : Timely file svc (sc.getD (Scaler.new policy)) := by
  cases sc with
  | none => exact ⟨dfn, hf, hp, fun e he => absurd he List.not_mem_nil⟩
  | some sc' => exact h sc' rfl

theorem Timely.decide {file : ComposeFile} {svc : String} {sc : Scaler} (h : Timely file svc sc)
    (hnow : ClockFits file now) (current : UInt32) (rs : List MetricReading) :
    Timely file svc (sc.decide fl now current rs).2 := by
  obtain ⟨dfn, hf, hp, hhist⟩ := h
  have hlong : (sc.decide fl now current rs).2.longest = sc.longest := by
    unfold Scaler.longest
    rw [Scaler.decide_policy]
  refine ⟨dfn, hf, by rw [Scaler.decide_policy]; exact hp, fun e he => ?_⟩
  rw [hlong]
  rcases Scaler.decide_history fl sc now current rs e he with he | he
  · exact hhist e he
  · rw [he]
    exact longest_fits hnow hf hp

theorem Counted.add {file : ComposeFile} (hu : UsableFile file) {past : List (List Event)} (h : Counted file past v)
    (hs : Step fl now who v v') {e : Event} (hlog : v'.log = v.log ++ [e])
    (hsc : ∀ svc sc, v'.ctl.scalers svc = some sc → Timely file svc sc) (he : NoOverflow e) : Counted file past v' where
  same := hs.file.trans h.same
  defs := defined_step hs h.defs
  chosen := chosen_step hs (h.defs.mono fun svc dfn hf => (hu svc dfn hf).ranged) h.chosen
  scalers := hsc
  events := by
    intro log hmem e' he'
    rcases List.mem_append.mp hmem with hmem | hmem
    · exact h.events log (List.mem_append_left _ hmem) e' he'
    · rw [List.mem_singleton.mp hmem, hlog] at he'
      rcases List.mem_append.mp he' with he' | he'
      · exact h.events v.log (List.mem_append_right _ (List.mem_singleton_self _)) e' he'
      · rw [List.mem_singleton.mp he']
        exact he

/-- A change of the controller alone. -/
theorem Counted.quiet {file : ComposeFile} (hu : UsableFile file) {past : List (List Event)} (h : Counted file past v)
    (hs : Step fl now who v v') (hlog : v'.log = v.log) (hsc : v'.ctl.scalers = v.ctl.scalers) :
    Counted file past v' where
  same := hs.file.trans h.same
  defs := defined_step hs h.defs
  chosen := chosen_step hs (h.defs.mono fun svc dfn hf => (hu svc dfn hf).ranged) h.chosen
  scalers := by
    rw [hsc]
    exact h.scalers
  events := by
    rw [hlog]
    exact h.events

theorem counted_step {file : ComposeFile} (hu : UsableFile file) {past : List (List Event)} (hnow : ClockFits file now)
    (hs : Step fl now who v v') (h : Counted file past v) : Counted file past v' := by
  have hs' := hs
  cases hs with
  | @builtFile svc res =>
    refine h.add hu hs' rfl h.scalers ?_
    cases hf : v.ctl.file.services.get? svc with
    | none => trivial
    | some dfn => exact ⟨(hu svc dfn (h.defs.file svc dfn hf)).fits.maxReplicas, by simp⟩
  | @builtReplica svc a st idx rev res hp hstart =>
    have hi := (start_mem hstart).2
    have hmax := (max (bound st) st.desired).toNat_lt
    exact h.add hu hs' rfl h.scalers ⟨(hu svc _ (h.defs.applied svc a hp.applied)).fits.maxReplicas, by omega⟩
  | tidy hc => exact h.quiet hu hs' rfl hc.scalers
  | adopt _ _ => exact h.quiet hu hs' rfl rfl
  | @decided svc dfn policy sc current rs hf hp hsc _ =>
    have htimely : Timely file svc sc := by
      rw [hsc]
      exact timely_getD (h.scalers svc) (h.defs.file svc dfn hf) hp
    refine h.add hu hs' rfl (fun svc' sc' hsc' => ?_) ?_
    · rw [Controller.choose_scalers] at hsc'
      split at hsc'
      · rename_i heq
        cases hsc'
        exact heq ▸ htimely.decide hnow current rs
      · exact h.scalers svc' sc' hsc'
    · obtain ⟨dfn', hf', hp', hhist⟩ := htimely
      intro t ht
      rcases List.mem_cons.mp ht with rfl | ht
      · exact longest_fits hnow hf' hp'
      · obtain ⟨e, he, rfl⟩ := List.mem_map.mp ht
        exact hhist e he
  | @planned svc dfn fileRev a st _ _ hp =>
    refine h.add hu hs' rfl h.scalers ?_
    have hdfn := h.defs.file svc dfn hp.file
    have ha := h.defs.applied svc a hp.applied
    rw [hdfn] at ha
    have hle := (hp.asAsked h.chosen).le
    have hsum := (hu svc dfn hdfn).fits.maxReplicas
    change st.desired.toNat + st.policy.maxSurge.toNat < 2 ^ 32
    rw [hp.policy, ← Option.some.inj ha]
    omega
  | completed _ _ hc =>
    refine h.add hu hs' rfl ?_ trivial
    rw [hc.scalers]
    exact h.scalers
  | _ => exact h.add hu hs' rfl h.scalers trivial

theorem counted_setFile {file : ComposeFile} {past : List (List Event)} {c : Controller}
    (h : Counted file past ⟨c, []⟩) :
    Counted file past ⟨c.setFile file, []⟩ where
  same := rfl
  defs := h.defs.setFile fun _ _ hf => hf
  chosen := h.chosen.setFile _
  scalers := by
    intro svc sc hsc
    simp only [Controller.setFile] at hsc
    split at hsc
    · cases hsc
    · exact h.scalers svc sc hsc
  events := h.events

theorem counted_invariant {file : ComposeFile} (hu : UsableFile file) : Invariant fl (OnFile file) (Counted file) where
  step := fun hnow hs h => counted_step hu hnow hs h
  close := by
    intro past c log h
    refine ⟨h.same, h.defs, h.chosen, h.scalers, fun l hl e he => ?_⟩
    rcases List.mem_append.mp hl with hl | hl
    · exact h.events l hl e he
    · rw [List.mem_singleton.mp hl] at he
      exact absurd he List.not_mem_nil
  setFile := by
    intro past c f hf h
    cases hf
    exact counted_setFile h
  pause := fun h => ⟨h.same, h.defs.same ⟨rfl, rfl, rfl, rfl⟩, h.chosen.same ⟨⟨rfl, rfl, rfl, rfl⟩, rfl, rfl⟩,
    h.scalers, h.events⟩
  resume := fun h => ⟨h.same, h.defs.same ⟨rfl, rfl, rfl, rfl⟩, h.chosen.same ⟨⟨rfl, rfl, rfl, rfl⟩, rfl, rfl⟩,
    h.scalers, h.events⟩

/-- On a valid file whose counts leave room for the surge, at times that leave room for the windows, no
sum of the planner, the builder and the autoscaler overflows. -/
theorem policy_sums_fit {r : Run σ} {file : ComposeFile} {opts : UpOptions} (hr : Started r file opts)
    (hfit : ∀ svc dfn, file.services.get? svc = some dfn → Fits dfn) (cmds : List Command)
    (hcmds : ∀ cmd ∈ cmds, OnFile file cmd) :
    ∀ log ∈ (r.exec x fl o cmds).ticks, ∀ e ∈ log, NoOverflow e := by
  have hu : UsableFile file := usableFile_of_valid hr.ctl.2 hfit
  have h₀ : Counted file r.ticks ⟨r.ctl, []⟩ := by
    rw [hr.ctl.1, hr.ticks]
    refine ⟨rfl, .new opts fun _ _ hf => hf, .new file opts, fun _ _ hsc => ?_, fun log hlog e he => ?_⟩
    · cases hsc
    · rw [List.mem_singleton.mp hlog] at he
      exact absurd he List.not_mem_nil
  have h : Counted file (r.exec x fl o cmds).ticks ⟨(r.exec x fl o cmds).ctl, []⟩ :=
    (counted_invariant hu).exec h₀ hcmds
  exact fun log hlog => h.events log (List.mem_append_left _ hlog)

/-- One to three replicas, as the CPU load asks, and room for `surge` more. -/
def scaledWeb (surge : UInt32) : Service where
  series := some "noble"
  command := ["a"]
  memory := some "64M"
  autoscale := some { min := 1, max := 3, metrics := [⟨.cpu, ⟨0x4049000000000000⟩⟩] }
  update := some { maxSurge := surge }

def scaledFile (surge : UInt32) : ComposeFile where
  project := "p"
  services := OrdMap.empty.insert "web" (scaledWeb surge)

theorem scaled_sums_fit :
    ((memoryRun (scaledFile 1) [] [.tick 0, .tick 30]).ticks.flatten.any fun e => e matches .decided ..) = true ∧
      ∀ log ∈ (memoryRun (scaledFile 1) [] [.tick 0, .tick 30]).ticks, ∀ e ∈ log, NoOverflow e := by
  have hfile : ∀ svc dfn, (scaledFile 1).services.get? svc = some dfn → dfn = scaledWeb 1 := by
    intro svc dfn hf
    simp only [scaledFile, OrdMap.get?_insert, OrdMap.get?_empty] at hf
    split at hf
    · exact (Option.some.inj hf).symm
    · cases hf
  have hclock : ∀ now : UInt64, now.toNat ≤ 30 → ClockFits (scaledFile 1) now := by
    intro now hnow svc dfn p hf hp
    rw [hfile svc dfn hf] at hp
    cases hp
    exact ⟨by simp only [UInt64.reduceToNat]; omega, by simp only [UInt64.reduceToNat]; omega⟩
  refine ⟨by decide +kernel, policy_sums_fit (freshRun_started (by decide +kernel) []) (fun svc dfn hf => ?_) _ ?_⟩
  · rw [hfile svc dfn hf]
    refine ⟨by decide, fun p hp => ?_⟩
    cases hp
    decide
  · intro cmd hcmd
    simp only [List.mem_cons, List.not_mem_nil, or_false] at hcmd
    rcases hcmd with rfl | rfl
    · exact hclock 0 (by decide)
    · exact hclock 30 (by decide)

/-- The file is valid, and the index bound of its service wraps to two. -/
theorem surge_overflows :
    (scaledFile 0xffffffff).validate = .ok () ∧ (scaledWeb 0xffffffff).indexBound = 2 ∧
      ¬ ∀ log ∈ (memoryRun (scaledFile 0xffffffff) [] [.tick 0]).ticks, ∀ e ∈ log, NoOverflow e :=
  ⟨by decide +kernel, by decide +kernel, by decide +kernel⟩

end Collocate.Control
