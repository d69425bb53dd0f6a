import Mathlib.Data.List.Sort
import Collocate.Core.Spec

/-! # Taking stock at start (`collocate-store/src/reconcile.rs`)

`plan` compares the stored specs with what is left on the host and says what to keep and what to clear
away. -/
namespace Collocate.Store
set_option autoImplicit false

structure Observed where
  cgroups : OrdMap ContainerId Bool := .empty
  veths : List String := []
  nftTags : List String := []
  leftovers : List ContainerId := []

inductive Action
  | adopt (id : ContainerId)
  | markStopped (id : ContainerId)
  | removeSpec (id : ContainerId)
  | cleanRuntime (id : ContainerId)
  | killCgroup (id : ContainerId)
  | removeCgroup (id : ContainerId)
  | deleteVeth (name : String)
  | deleteNftTag (tag : String)
  deriving DecidableEq, Repr

/-- The actions for one spec. -/
def planSpec (observed : Observed) (spec : Spec) : List Action :=
  match observed.cgroups.get? spec.id with
  | some true => [.adopt spec.id]
  | other => (if other.isSome then [.removeCgroup spec.id] else []) ++
      [if spec.persistent then .markStopped spec.id else .removeSpec spec.id, .cleanRuntime spec.id]

/-- Whether the spec's container still runs. -/
def populated (observed : Observed) (spec : Spec) : Bool := observed.cgroups.get? spec.id == some true

/-- The loop over the leftovers, with what has been cleaned already. -/
def planLeftovers (adopted : List ContainerId) : List ContainerId → List ContainerId → List Action
  | _, [] => []
  | cleaned, id :: rest =>
    if id ∈ adopted ∨ id ∈ cleaned then planLeftovers adopted cleaned rest
    else .cleanRuntime id :: planLeftovers adopted (id :: cleaned) rest

def plan (specs : List Spec) (observed : Observed) : List Action :=
  let known := specs.map (·.id)
  let adopted := (specs.filter (populated observed)).map (·.id)
  let cleaned := (specs.filter fun s => !populated observed s).map (·.id)
  let unknown := observed.cgroups.keys.filter fun id => id ∉ known
  let keptVeths := adopted.map fun id => (vethNames id).1
  let keptTags := adopted.map nftTag
  let veths := (observed.veths.insertionSort (· ≤ ·)).filter fun v =>
    Text.startsWith v "vh" && decide (v.utf8ByteSize = 12) && decide (v ∉ keptVeths)
  let tags := (observed.nftTags.insertionSort (· ≤ ·)).filter fun t =>
    Text.startsWith t "collocate:" && decide (t ∉ keptTags)
  specs.flatMap (planSpec observed) ++
    unknown.flatMap (fun id => [.killCgroup id, .removeCgroup id]) ++
    veths.map .deleteVeth ++ tags.map .deleteNftTag ++
    planLeftovers adopted cleaned (observed.leftovers.insertionSort (· ≤ ·))

/-! ## What is in a plan -/

section Members
variable {specs : List Spec} {observed : Observed} {a : Action} {id : ContainerId}

theorem mem_planLeftovers {adopted cleaned leftovers : List ContainerId} :
    a ∈ planLeftovers adopted cleaned leftovers ↔ ∃ id ∈ leftovers, id ∉ adopted ∧ id ∉ cleaned ∧
      a = .cleanRuntime id := by
  induction leftovers generalizing cleaned with
  | nil => simp [planLeftovers]
  | cons first rest ih =>
    unfold planLeftovers
    split
    · rename_i hskip
      rw [ih]
      constructor
      · rintro ⟨id, hid, hrest⟩
        exact ⟨id, List.mem_cons_of_mem _ hid, hrest⟩
      · rintro ⟨id, hid, hadopted, hcleaned, ha⟩
        rcases List.mem_cons.mp hid with rfl | hid
        · exact absurd hskip (not_or.mpr ⟨hadopted, hcleaned⟩)
        · exact ⟨id, hid, hadopted, hcleaned, ha⟩
    · rename_i hnew
      obtain ⟨hadopted, hcleaned⟩ := not_or.mp hnew
      rw [List.mem_cons, ih]
      constructor
      · rintro (rfl | ⟨id, hid, hadopted', hcleaned', ha⟩)
        · exact ⟨first, List.mem_cons_self, hadopted, hcleaned, rfl⟩
        · exact ⟨id, List.mem_cons_of_mem _ hid, hadopted', fun hmem => hcleaned' (List.mem_cons_of_mem _ hmem), ha⟩
      · rintro ⟨id, hid, hadopted', hcleaned', rfl⟩
        by_cases heq : id = first
        · exact .inl (by rw [heq])
        · refine .inr ⟨id, (List.mem_cons.mp hid).resolve_left heq, hadopted', ?_, rfl⟩
          exact fun hmem => (List.mem_cons.mp hmem).elim heq hcleaned'

/-- The container of the id is stored and still runs. -/
def Adopted (specs : List Spec) (observed : Observed) (id : ContainerId) : Prop :=
  ∃ spec ∈ specs, spec.id = id ∧ observed.cgroups.get? id = some true

theorem populated_iff {spec : Spec} : populated observed spec = true ↔ observed.cgroups.get? spec.id = some true := by
  unfold populated
  exact beq_iff_eq

theorem mem_adopted : id ∈ (specs.filter (populated observed)).map (·.id) ↔ Adopted specs observed id := by
  unfold Adopted
  rw [List.mem_map]
  constructor
  · rintro ⟨spec, hspec, rfl⟩
    obtain ⟨hmem, hpopulated⟩ := List.mem_filter.mp hspec
    exact ⟨spec, hmem, rfl, populated_iff.mp hpopulated⟩
  · rintro ⟨spec, hmem, rfl, hcgroup⟩
    exact ⟨spec, List.mem_filter.mpr ⟨hmem, populated_iff.mpr hcgroup⟩, rfl⟩

/-- A stored container is adopted, or what it ran with has been cleaned. -/
theorem mem_cleaned : id ∈ (specs.filter fun s => !populated observed s).map (·.id) ↔
    ∃ spec ∈ specs, spec.id = id ∧ observed.cgroups.get? id ≠ some true := by
  rw [List.mem_map]
  constructor
  · rintro ⟨spec, hspec, rfl⟩
    obtain ⟨hmem, hnot⟩ := List.mem_filter.mp hspec
    refine ⟨spec, hmem, rfl, fun hcgroup => ?_⟩
    rw [populated_iff.mpr hcgroup] at hnot
    cases hnot
  · rintro ⟨spec, hmem, rfl, hcgroup⟩
    refine ⟨spec, List.mem_filter.mpr ⟨hmem, ?_⟩, rfl⟩
    rw [Bool.not_eq_true']
    exact Bool.eq_false_iff.mpr fun hpopulated => hcgroup (populated_iff.mp hpopulated)

/-- The five parts of a plan. -/
theorem mem_plan : a ∈ plan specs observed ↔
    (∃ spec ∈ specs, a ∈ planSpec observed spec) ∨
    (∃ id ∈ observed.cgroups.keys, (∀ spec ∈ specs, spec.id ≠ id) ∧ (a = .killCgroup id ∨ a = .removeCgroup id)) ∨
    (∃ v ∈ observed.veths, Text.startsWith v "vh" = true ∧ v.utf8ByteSize = 12 ∧
      (∀ id, Adopted specs observed id → v ≠ (vethNames id).1) ∧ a = .deleteVeth v) ∨
    (∃ t ∈ observed.nftTags, Text.startsWith t "collocate:" = true ∧
      (∀ id, Adopted specs observed id → t ≠ nftTag id) ∧ a = .deleteNftTag t) ∨
    ∃ id ∈ observed.leftovers, (∀ spec ∈ specs, spec.id ≠ id) ∧ a = .cleanRuntime id := by
  have hunknown (id : ContainerId) : id ∉ specs.map (·.id) ↔ ∀ spec ∈ specs, spec.id ≠ id := by
    simp only [List.mem_map, not_exists, not_and, ne_eq]
  have hkept (f : ContainerId → String) (v : String) :
      v ∉ ((specs.filter (populated observed)).map (·.id)).map f ↔ ∀ id, Adopted specs observed id → v ≠ f id := by
    rw [List.mem_map]
    constructor
    · exact fun hnot id hadopted heq => hnot ⟨id, mem_adopted.mpr hadopted, heq.symm⟩
    · rintro hall ⟨id, hid, rfl⟩
      exact hall id (mem_adopted.mp hid) rfl
  simp only [List.mem_map, List.mem_filter, and_assoc] at hkept
  have hnew (id : ContainerId) : id ∉ (specs.filter (populated observed)).map (·.id) ∧
      id ∉ (specs.filter fun s => !populated observed s).map (·.id) ↔ ∀ spec ∈ specs, spec.id ≠ id := by
    rw [mem_adopted, mem_cleaned]
    constructor
    · rintro ⟨hadopted, hcleaned⟩ spec hmem heq
      by_cases hcgroup : observed.cgroups.get? id = some true
      · exact hadopted ⟨spec, hmem, heq, hcgroup⟩
      · exact hcleaned ⟨spec, hmem, heq, hcgroup⟩
    · intro hall
      constructor
      · rintro ⟨spec, hmem, heq, -⟩
        exact hall spec hmem heq
      · rintro ⟨spec, hmem, heq, -⟩
        exact hall spec hmem heq
  unfold plan
  rw [List.mem_append, List.mem_append, List.mem_append, List.mem_append, or_assoc, or_assoc, or_assoc]
  refine or_congr List.mem_flatMap (or_congr ?_ (or_congr ?_ (or_congr ?_ ?_)))
  · rw [List.mem_flatMap]
    simp only [List.mem_filter, decide_eq_true_eq, hunknown, List.mem_cons, List.not_mem_nil, or_false, and_assoc]
  · simp only [List.mem_map, List.mem_filter, List.mem_insertionSort, Bool.and_eq_true, decide_eq_true_eq, hkept,
      and_assoc, eq_comm (a := a)]
  · simp only [List.mem_map, List.mem_filter, List.mem_insertionSort, Bool.and_eq_true, decide_eq_true_eq, hkept,
      and_assoc, eq_comm (a := a)]
  · rw [mem_planLeftovers]
    simp only [List.mem_insertionSort, ← hnew, and_assoc]

/-! ## Counting -/

/-- Of the actions for stored containers with distinct ids, those of one kind for one of them. -/
theorem countP_planSpecs (hids : (specs.map (·.id)).Nodup) {p : Action → Bool} {k : ℕ}
    (hother : ∀ spec ∈ specs, spec.id ≠ id → (planSpec observed spec).countP p = 0)
    (hown : ∀ spec ∈ specs, spec.id = id → (planSpec observed spec).countP p = k) :
    (specs.flatMap (planSpec observed)).countP p = if ∃ spec ∈ specs, spec.id = id then k else 0 := by
  induction specs with
  | nil => simp
  | cons spec specs ih =>
    rw [List.map_cons, List.nodup_cons] at hids
    have hrest := ih hids.2 (fun s hs => hother s (List.mem_cons_of_mem _ hs)) fun s hs =>
      hown s (List.mem_cons_of_mem _ hs)
    rw [List.flatMap_cons, List.countP_append, hrest]
    by_cases hspec : spec.id = id
    · have hnone : ¬∃ s ∈ specs, s.id = id := by
        rintro ⟨s, hs, hsid⟩
        exact hids.1 (List.mem_map.mpr ⟨s, hs, hsid.trans hspec.symm⟩)
      rw [hown spec List.mem_cons_self hspec, if_neg hnone, if_pos ⟨spec, List.mem_cons_self, hspec⟩, Nat.add_zero]
    · rw [hother spec List.mem_cons_self hspec, Nat.zero_add]
      simp [hspec]

theorem count_planLeftovers {adopted cleaned leftovers : List ContainerId} :
    (planLeftovers adopted cleaned leftovers).count (.cleanRuntime id) ≤ if id ∈ cleaned then 0 else 1 := by
  induction leftovers generalizing cleaned with
  | nil => simp [planLeftovers]
  | cons first rest ih =>
    unfold planLeftovers
    split
    · exact ih
    · rename_i hnew
      have hcleaned := (not_or.mp hnew).2
      rw [List.count_cons]
      by_cases heq : first = id
      · subst heq
        have hrest : (planLeftovers adopted (first :: cleaned) rest).count (.cleanRuntime first) ≤ _ := ih
        rw [if_pos List.mem_cons_self] at hrest
        simp [hcleaned, Nat.le_zero.mp hrest]
      · have hrest : (planLeftovers adopted (first :: cleaned) rest).count (.cleanRuntime id) ≤ _ := ih
        have hmem : id ∈ first :: cleaned ↔ id ∈ cleaned := by
          rw [List.mem_cons, or_iff_right (Ne.symm heq)]
        simpa [heq, hmem] using hrest

end Members

/-! ## Safe and complete -/

/-- What is decided about the stored container of an id. -/
def Action.decides (id : ContainerId) : Action → Bool
  | .adopt i | .markStopped i | .removeSpec i => decide (i = id)
  | _ => false

/-- The action takes something away that the container of the id runs with. -/
def Action.hits (id : ContainerId) : Action → Prop
  | .killCgroup i | .removeCgroup i | .cleanRuntime i => i = id
  | .deleteVeth v => v = (vethNames id).1 ∨ v = (vethNames id).2
  | .deleteNftTag t => t = nftTag id
  | _ => False

structure Reconciles (specs : List Spec) (observed : Observed) (actions : List Action) : Prop where
  decided : ∀ spec ∈ specs, actions.countP (Action.decides spec.id) = 1
  adopted : ∀ spec ∈ specs, .adopt spec.id ∈ actions ↔ observed.cgroups.get? spec.id = some true
  removed : ∀ spec ∈ specs, .removeSpec spec.id ∈ actions ↔ .adopt spec.id ∉ actions ∧ spec.persistent = false
  spared : ∀ id, .adopt id ∈ actions → ∀ a ∈ actions, ¬a.hits id
  killed : ∀ id, .killCgroup id ∈ actions ↔ id ∈ observed.cgroups.keys ∧ ∀ spec ∈ specs, spec.id ≠ id
  followed : ∀ before id after, actions = before ++ .killCgroup id :: after → ∃ rest, after = .removeCgroup id :: rest
  leftovers : ∀ id ∈ observed.leftovers, .adopt id ∉ actions → .cleanRuntime id ∈ actions
  veths : ∀ v ∈ observed.veths, Text.startsWith v "vh" = true → v.utf8ByteSize = 12 →
    (∀ id, .adopt id ∈ actions → v ≠ (vethNames id).1) → .deleteVeth v ∈ actions
  tags : ∀ t ∈ observed.nftTags, Text.startsWith t "collocate:" = true →
    (∀ id, .adopt id ∈ actions → t ≠ nftTag id) → .deleteNftTag t ∈ actions
  cleaned : ∀ id, actions.count (.cleanRuntime id) ≤ 1

section Theorem
variable {specs : List Spec} {observed : Observed} {id : ContainerId}

theorem mem_planSpec_adopt {spec : Spec} :
    .adopt id ∈ planSpec observed spec ↔ spec.id = id ∧ observed.cgroups.get? id = some true := by
  unfold planSpec
  split
  · rename_i hcgroup
    rw [List.mem_singleton, Action.adopt.injEq]
    constructor
    · rintro rfl
      exact ⟨rfl, hcgroup⟩
    · rintro ⟨rfl, -⟩
      rfl
  · rename_i hcgroup
    constructor
    · intro hmem
      split at hmem <;> split at hmem <;> simp at hmem
    · rintro ⟨rfl, hpopulated⟩
      exact absurd hpopulated hcgroup

theorem mem_plan_adopt : .adopt id ∈ plan specs observed ↔ Adopted specs observed id := by
  rw [mem_plan]
  simp only [mem_planSpec_adopt, reduceCtorEq, and_false, or_self, exists_false, or_false]
  rfl

/-- What is decided about a stored container, by its spec. -/
theorem countP_decides (spec : Spec) :
    (planSpec observed spec).countP (Action.decides id) = if spec.id = id then 1 else 0 := by
  unfold planSpec
  split
  · simp [Action.decides]
  · split <;> split <;> simp [Action.decides, List.countP_cons]

theorem countP_plan {p : Action → Bool} (hkill : ∀ id, p (.killCgroup id) = false)
    (hremove : ∀ id, p (.removeCgroup id) = false) (hveth : ∀ v, p (.deleteVeth v) = false)
    (htag : ∀ t, p (.deleteNftTag t) = false) :
    (plan specs observed).countP p = (specs.flatMap (planSpec observed)).countP p +
      (planLeftovers ((specs.filter (populated observed)).map (·.id))
        ((specs.filter fun s => !populated observed s).map (·.id))
        (observed.leftovers.insertionSort (· ≤ ·))).countP p := by
  have hzero {l : List Action} (hl : ∀ a ∈ l, p a = false) : l.countP p = 0 :=
    List.countP_eq_zero.mpr fun a ha => by rw [hl a ha]; exact Bool.false_ne_true
  have hunknown (ids : List ContainerId) :
      (ids.flatMap fun id => [Action.killCgroup id, Action.removeCgroup id]).countP p = 0 := by
    refine hzero fun a ha => ?_
    obtain ⟨id, -, hid⟩ := List.mem_flatMap.mp ha
    rcases List.mem_pair.mp hid with rfl | rfl
    · exact hkill id
    · exact hremove id
  have hveths (names : List String) : (names.map Action.deleteVeth).countP p = 0 := by
    refine hzero fun a ha => ?_
    obtain ⟨v, -, rfl⟩ := List.mem_map.mp ha
    exact hveth v
  have htags (tags : List String) : (tags.map Action.deleteNftTag).countP p = 0 := by
    refine hzero fun a ha => ?_
    obtain ⟨t, -, rfl⟩ := List.mem_map.mp ha
    exact htag t
  unfold plan
  rw [List.countP_append, List.countP_append, List.countP_append, List.countP_append, hunknown, hveths, htags]
  rfl

/-- Each `KillCgroup` has its `RemoveCgroup` right behind it. -/
def Paired (l : List Action) : Prop :=
  ∀ before id after, l = before ++ .killCgroup id :: after → ∃ rest, after = .removeCgroup id :: rest

theorem Paired.of_not_mem {l : List Action} (h : ∀ id, .killCgroup id ∉ l) : Paired l := by
  rintro before id after rfl
  exact absurd (List.mem_append_right _ List.mem_cons_self) (h id)

theorem Paired.append {l₁ l₂ : List Action} (h₁ : Paired l₁) (h₂ : Paired l₂) : Paired (l₁ ++ l₂) := by
  intro before id after heq
  rcases List.append_eq_append_iff.mp heq with ⟨rest, rfl, htail⟩ | ⟨rest, hrest, htail⟩
  · exact h₂ rest id after htail
  · cases rest with
    | nil =>
      rw [List.nil_append] at htail
      exact h₂ [] id after htail.symm
    | cons a rest =>
      rw [List.cons_append] at htail
      obtain ⟨rfl, rfl⟩ := List.cons.inj htail
      obtain ⟨later, rfl⟩ := h₁ before id rest hrest
      exact ⟨later ++ l₂, rfl⟩

theorem paired_unknown (ids : List ContainerId) :
    Paired (ids.flatMap fun id => [.killCgroup id, .removeCgroup id]) := by
  induction ids with
  | nil => exact .of_not_mem fun id => List.not_mem_nil
  | cons first ids ih =>
    rw [List.flatMap_cons]
    refine .append ?_ ih
    intro before id after heq
    rcases before with _ | ⟨a, _ | ⟨b, before⟩⟩
    · cases heq
      exact ⟨[], rfl⟩
    · cases heq
    · cases before <;> cases heq

theorem paired_plan : Paired (plan specs observed) := by
  unfold plan
  refine .append (.append (.append (.append ?_ (paired_unknown _)) ?_) ?_) ?_
  · refine .of_not_mem fun id hmem => ?_
    obtain ⟨spec, -, hmem⟩ := List.mem_flatMap.mp hmem
    unfold planSpec at hmem
    split at hmem
    · simp at hmem
    · split at hmem <;> split at hmem <;> simp at hmem
  · exact .of_not_mem fun id hmem => by simp at hmem
  · exact .of_not_mem fun id hmem => by simp at hmem
  · refine .of_not_mem fun id hmem => ?_
    obtain ⟨_, -, -, -, heq⟩ := mem_planLeftovers.mp hmem
    cases heq

/-- The actions for one spec, when its container is not adopted. -/
theorem mem_planSpec {spec : Spec} {a : Action} (h : observed.cgroups.get? spec.id ≠ some true) :
    a ∈ planSpec observed spec ↔ (observed.cgroups.get? spec.id).isSome = true ∧ a = .removeCgroup spec.id ∨
      a = (if spec.persistent then .markStopped spec.id else .removeSpec spec.id) ∨ a = .cleanRuntime spec.id := by
  unfold planSpec
  split
  · rename_i hcgroup
    exact absurd hcgroup h
  · rw [List.mem_append, List.mem_pair]
    split <;> simp [*]

theorem planSpec_adopted {spec : Spec} (h : observed.cgroups.get? spec.id = some true) :
    planSpec observed spec = [.adopt spec.id] := by
  unfold planSpec
  rw [h]

theorem not_mem_planSpec_kill {spec : Spec} : .killCgroup id ∉ planSpec observed spec := by
  intro hmem
  by_cases hcgroup : observed.cgroups.get? spec.id = some true
  · rw [planSpec_adopted hcgroup, List.mem_singleton] at hmem
    cases hmem
  · rcases (mem_planSpec hcgroup).mp hmem with ⟨-, heq⟩ | heq | heq
    · cases heq
    · split at heq <;> cases heq
    · cases heq

/-- A stored container is cleaned once, unless it is adopted. -/
theorem count_planSpecs (hids : (specs.map (·.id)).Nodup) :
    (specs.flatMap (planSpec observed)).countP (· == .cleanRuntime id) ≤
      if ∃ spec ∈ specs, spec.id = id ∧ observed.cgroups.get? id ≠ some true then 1 else 0 := by
  have hone (spec : Spec) : (planSpec observed spec).countP (· == .cleanRuntime id) =
      if spec.id = id ∧ observed.cgroups.get? id ≠ some true then 1 else 0 := by
    by_cases hcgroup : observed.cgroups.get? spec.id = some true
    · rw [planSpec_adopted hcgroup]
      have hnot : ¬(spec.id = id ∧ observed.cgroups.get? id ≠ some true) := by
        rintro ⟨rfl, hne⟩
        exact hne hcgroup
      rw [if_neg hnot]
      rfl
    · unfold planSpec
      split
      · rename_i h
        exact absurd h hcgroup
      · rw [List.countP_append]
        by_cases hid : spec.id = id
        · have hown : spec.id = id ∧ observed.cgroups.get? id ≠ some true := ⟨hid, hid ▸ hcgroup⟩
          cases spec.persistent <;> cases (observed.cgroups.get? spec.id).isSome <;> simp [hown]
        · cases spec.persistent <;> cases (observed.cgroups.get? spec.id).isSome <;> simp [hid]
  by_cases hcgroup : observed.cgroups.get? id = some true
  · rw [countP_planSpecs hids (fun s _ hne => by rw [hone, if_neg fun h => hne h.1])
      (fun s _ _ => by rw [hone, if_neg fun h => h.2 hcgroup])]
    split <;> omega
  · rw [countP_planSpecs hids (fun s _ hne => by rw [hone, if_neg fun h => hne h.1])
      (fun s _ heq => by rw [hone, if_pos ⟨heq, hcgroup⟩])]
    simp [hcgroup]

theorem vethNames_snd_not_vh (id : ContainerId) : ¬Text.startsWith (vethNames id).2 "vh" = true := by
  intro h
  obtain ⟨rest, hrest⟩ := Text.startsWith_iff.mp h
  have hlist := congrArg String.toList hrest
  unfold vethNames at hlist
  simp at hlist

/-- For every list of specs with distinct ids and whatever is observed on the host. -/
theorem plan_reconciles (hids : (specs.map (·.id)).Nodup) : Reconciles specs observed (plan specs observed) where
  decided spec hspec := by
    rw [countP_plan (fun _ => rfl) (fun _ => rfl) (fun _ => rfl) fun _ => rfl,
      countP_planSpecs hids (fun s _ hne => by rw [countP_decides, if_neg hne])
        (fun s _ heq => by rw [countP_decides, if_pos heq]), if_pos ⟨spec, hspec, rfl⟩, List.countP_eq_zero.mpr]
    intro a ha
    obtain ⟨_, -, -, -, rfl⟩ := mem_planLeftovers.mp ha
    exact Bool.false_ne_true
  adopted spec hspec := by
    rw [mem_plan_adopt]
    exact ⟨fun ⟨_, _, _, hcgroup⟩ => hcgroup, fun hcgroup => ⟨spec, hspec, rfl, hcgroup⟩⟩
  removed spec hspec := by
    have hunique {s : Spec} (hs : s ∈ specs) (hid : s.id = spec.id) : s = spec :=
      List.inj_on_of_nodup_map hids hs hspec hid
    rw [mem_plan_adopt, mem_plan]
    simp only [reduceCtorEq, and_false, or_self, exists_false, or_false]
    constructor
    · rintro ⟨s, hs, hmem⟩
      by_cases hcgroup : observed.cgroups.get? s.id = some true
      · rw [planSpec_adopted hcgroup, List.mem_singleton] at hmem
        cases hmem
      · rcases (mem_planSpec hcgroup).mp hmem with ⟨-, heq⟩ | heq | heq
        · cases heq
        · split at heq
          · cases heq
          · rename_i hpersistent
            cases hunique hs (Action.removeSpec.inj heq).symm
            exact ⟨fun ⟨_, _, _, h⟩ => hcgroup h, by simpa using hpersistent⟩
        · cases heq
    · rintro ⟨hnot, hpersistent⟩
      have hcgroup : observed.cgroups.get? spec.id ≠ some true := fun h => hnot ⟨spec, hspec, rfl, h⟩
      exact ⟨spec, hspec, (mem_planSpec hcgroup).mpr (.inr (.inl (by rw [hpersistent]; rfl)))⟩
  spared id hadopt a ha hhits := by
    obtain ⟨spec, hspec, rfl, hcgroup⟩ := mem_plan_adopt.mp hadopt
    rcases mem_plan.mp ha with ⟨s, hs, hmem⟩ | ⟨i, -, hnone, rfl | rfl⟩ | ⟨v, -, hvh, -, hkept, rfl⟩ |
      ⟨t, -, -, hkept, rfl⟩ | ⟨i, -, hnone, rfl⟩
    · by_cases hs' : observed.cgroups.get? s.id = some true
      · rw [planSpec_adopted hs', List.mem_singleton] at hmem
        subst hmem
        exact hhits
      · have hother : s.id ≠ spec.id := fun heq => hs' (heq ▸ hcgroup)
        rcases (mem_planSpec hs').mp hmem with ⟨-, rfl⟩ | rfl | rfl
        · exact hother hhits
        · split at hhits <;> exact hhits
        · exact hother hhits
    · exact hnone spec hspec (show i = spec.id from hhits).symm
    · exact hnone spec hspec (show i = spec.id from hhits).symm
    · rcases (show v = (vethNames spec.id).1 ∨ v = (vethNames spec.id).2 from hhits) with heq | rfl
      · exact hkept spec.id ⟨spec, hspec, rfl, hcgroup⟩ heq
      · exact absurd hvh (vethNames_snd_not_vh spec.id)
    · exact hkept spec.id ⟨spec, hspec, rfl, hcgroup⟩ hhits
    · exact hnone spec hspec (show i = spec.id from hhits).symm
  killed id := by
    rw [mem_plan]
    constructor
    · rintro (⟨s, -, hmem⟩ | ⟨i, hi, hnone, heq | heq⟩ | ⟨_, -, -, -, -, heq⟩ | ⟨_, -, -, -, heq⟩ | ⟨_, -, -, heq⟩)
      · exact absurd hmem not_mem_planSpec_kill
      · cases heq
        exact ⟨hi, hnone⟩
      all_goals cases heq
    · rintro ⟨hid, hnone⟩
      exact .inr (.inl ⟨id, hid, hnone, .inl rfl⟩)
  followed := paired_plan
  leftovers id hid hnot := by
    rw [mem_plan_adopt] at hnot
    rw [mem_plan]
    by_cases hspec : ∃ spec ∈ specs, spec.id = id
    · obtain ⟨spec, hspec, rfl⟩ := hspec
      have hcgroup : observed.cgroups.get? spec.id ≠ some true := fun h => hnot ⟨spec, hspec, rfl, h⟩
      exact .inl ⟨spec, hspec, (mem_planSpec hcgroup).mpr (.inr (.inr rfl))⟩
    · refine .inr (.inr (.inr (.inr ⟨id, hid, fun spec hmem heq => hspec ⟨spec, hmem, heq⟩, rfl⟩)))
  veths v hv hvh hlen hkept :=
    mem_plan.mpr (.inr (.inr (.inl ⟨v, hv, hvh, hlen, fun id h => hkept id (mem_plan_adopt.mpr h), rfl⟩)))
  tags t ht hcollocate hkept :=
    mem_plan.mpr (.inr (.inr (.inr (.inl ⟨t, ht, hcollocate, fun id h => hkept id (mem_plan_adopt.mpr h), rfl⟩))))
  cleaned id := by
    rw [List.count, countP_plan (fun _ => rfl) (fun _ => rfl) (fun _ => rfl) fun _ => rfl]
    refine (Nat.add_le_add (count_planSpecs hids) count_planLeftovers).trans ?_
    by_cases hclean : ∃ spec ∈ specs, spec.id = id ∧ observed.cgroups.get? id ≠ some true
    · rw [if_pos hclean, if_pos (mem_cleaned.mpr hclean)]
    · rw [if_neg hclean, if_neg (mt mem_cleaned.mp hclean)]

end Theorem

/-- A container that runs and one that does not, with a cgroup of neither, leftovers twice and all else there may be. -/
def alive : Spec := { Spec.new 5 0 "alive" (.base .noble "b") ["/bin/true"] with persistent := true }

def dead : Spec := Spec.new 6 0 "dead" (.base .noble "b") ["/bin/true"]

def strewn : Observed where
  cgroups := (OrdMap.empty.insert alive.id true).insert 9 true
  veths := [(vethNames alive.id).1, (vethNames dead.id).1, "eth0"]
  nftTags := [nftTag dead.id, "collocate-lb:app/web"]
  leftovers := [alive.id, 8, 8, dead.id]

theorem strewn_reconciled : Reconciles [alive, dead] strewn (plan [alive, dead] strewn) :=
  plan_reconciles (by decide)

end Collocate.Store
