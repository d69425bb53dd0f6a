import Collocate.Store.Views

/-! # A store that stops in the middle

`create`, `update` and `remove` cut off anywhere: the spec of the container they are about is the one
before or the one after, and nothing else that shows has changed. -/
namespace Collocate.Store
set_option autoImplicit false

/-! ## Changes -/

inductive Change
  | create (spec : Spec)
  | update (spec : Spec)
  | remove (id : ContainerId)

def Change.id : Change → ContainerId
  | .create spec | .update spec => spec.id
  | .remove id => id

def Change.work : Change → Work Unit
  | .create spec => Store.create spec
  | .update spec => Store.update spec
  | .remove id => Store.remove id

/-- `spec_path`, of the directories. -/
def pathOf (d : Files) (id : ContainerId) : Option Area :=
  if (specAt d .state id.display).isSome then some .state
  else if (specAt d .run id.display).isSome then some .run
  else none

/-- The id and the name are free. -/
def Free (spec : Spec) (d : Files) : Prop :=
  pathOf d spec.id = none ∧ (spec.name = "" ∨ ¬ Newer d ∧ ∀ s, Listed d s → s.name ≠ spec.name)

/-- Nothing is in the way of the directory. -/
def Room (spec : Spec) (d : Files) : Prop := ∀ dir, (d (baseOf spec)).get? spec.id.display = some dir →
    dir.isEmpty = true

/-- When a change is carried out. -/
def Change.Ready (d : Files) : Change → Prop
  | .create spec => Free spec d ∧ Room spec d
  | .update spec => pathOf d spec.id ≠ none
  | .remove id => pathOf d id ≠ none ∧
    ((d .state).get? id.display ≠ none → ∀ dir, (d .trash).get? id.display = some dir → dir.isEmpty = true)

/-- A spec in one of the two places. -/
def put (a : Area) (f : File) (old : Option File × Option File) : Option File × Option File :=
  if a = .state then (some f, old.2) else (old.1, some f)

/-- What a change makes of the specs of its container. -/
def Change.slot (d : Files) : Change → Option File × Option File
  | .create spec => put (baseOf spec) (.spec spec) (Store.slot d spec.id.display)
  | .update spec => put ((pathOf d spec.id).getD .run) (.spec spec) (Store.slot d spec.id.display)
  | .remove _ => (none, none)

/-- The containers with another name are as they were. -/
def Others (name : String) (d d' : Files) : Prop :=
  ∀ a ∈ bases, ∀ name', Visible name' → name' ≠ name → (d' a).get? name' = (d a).get? name'

/-- Wherever the change is cut off. -/
def Midway (c : Change) (d d' : Files) : Prop :=
  Others c.id.display d d' ∧
    (slot d' c.id.display = slot d c.id.display ∨ c.Ready d ∧ slot d' c.id.display = c.slot d)

/-- The change has been carried out. -/
def Through (c : Change) (d d' : Files) : Prop :=
  Others c.id.display d d' ∧ c.Ready d ∧ slot d' c.id.display = c.slot d

theorem Through.midway {c : Change} {d d' : Files} (h : Through c d d') : Midway c d d' := ⟨h.1, .inr h.2⟩

/-! ## What shows -/

/-- All that shows is as it was. -/
def Quiet (d d' : Files) : Prop := ∀ a ∈ bases, ∀ name, Visible name → (d' a).get? name = (d a).get? name

theorem Quiet.refl (d : Files) : Quiet d d := fun _ _ _ _ => rfl

theorem Quiet.others {d d' : Files} (h : Quiet d d') (name : String) : Others name d d' :=
  fun a ha name' hv _ => h a ha name' hv

theorem Quiet.slot {d d' : Files} (h : Quiet d d') {name : String} (hv : Visible name) :
    slot d' name = slot d name := by
  unfold Store.slot specAt
  rw [h .state (by decide) name hv, h .run (by decide) name hv]

theorem Quiet.midway {c : Change} {d d' : Files} (h : Quiet d d') : Midway c d d' :=
  ⟨h.others _, .inl (h.slot (visible_display _))⟩

theorem Quiet.only {a : Area} {name : String} {d d' d'' : Files} (h : Quiet d d') (hname : ¬ Visible name)
    (honly : Only a name d' d'') : Quiet d d'' := by
  intro a' ha' name' hv
  rw [honly a' name' fun _ heq => hname (heq ▸ hv), h a' ha' name' hv]

theorem not_visible_tmpDir (id : ContainerId) : ¬ Visible (tmpDir id) := not_visible_of_tmp (startsWith_tmpDir id)

theorem Others.only {a : Area} {name name' : String} {d d' d'' : Files} (h : Others name d d')
    (hname : ¬ Visible name' ∨ name' = name ∨ a ∉ bases) (honly : Only a name' d' d'') : Others name d d'' := by
  intro a₁ ha₁ name₁ hv hne
  rw [honly a₁ name₁ ?_, h a₁ ha₁ name₁ hv hne]
  rintro rfl rfl
  rcases hname with h | h | h
  · exact h hv
  · exact hne h
  · exact h ha₁

theorem Only.specAt {a a' : Area} {name : String} {d d' : Files} (h : Only a name d d') (hne : a' ≠ a) :
    specAt d' a' name = specAt d a' name := by
  unfold Store.specAt
  rw [h a' name fun heq => absurd heq hne]

theorem slot_put {a : Area} (ha : a ∈ bases) {name : String} {d d' : Files} {f : File}
    (hother : ∀ a', a' ≠ a → specAt d' a' name = specAt d a' name) (hspec : specAt d' a name = some f) :
    slot d' name = put a f (slot d name) := by
  rcases List.mem_cons.mp ha with rfl | ha
  · rw [slot, hspec, hother .run (by decide)]
    rfl
  · obtain rfl := List.mem_singleton.mp ha
    rw [slot, hspec, hother .state (by decide)]
    rfl

theorem specAt_of_slot {a : Area} {name : String} {d : Files} (h : slot d name = (none, none)) (ha : a ∈ bases) :
    specAt d a name = none := by
  obtain ⟨hstate, hrun⟩ := Prod.mk.inj h
  rcases List.mem_cons.mp ha with rfl | ha
  · exact hstate
  · rw [List.mem_singleton.mp ha]
    exact hrun

theorem slot_none_of_only {a : Area} (ha : a ∈ bases) {name : String} {d d' : Files}
    (hslot : slot d name = (none, none))
    (honly : Only a name d d') (hspec : specAt d' a name = none) : slot d' name = (none, none) := by
  obtain ⟨hstate, hrun⟩ := Prod.mk.inj hslot
  rcases List.mem_cons.mp ha with rfl | ha
  · rw [slot, hspec, honly.specAt (by decide), hrun]
  · obtain rfl := List.mem_singleton.mp ha
    rw [slot, hspec, honly.specAt (by decide), hstate]

/-! ## Looking for the spec -/

variable {b : Bool} {W : Files → Prop}

theorem fileExists_keeps {a : Area} {name file : String} {d₀ : Files} {E : Error → Files → Prop} (hW : W d₀) :
    Job.Keeps exec (may b) W (· = d₀) (fileExists a name file)
      (fun r d => d = d₀ ∧ r = (((d₀ a).get? name).bind (·.get? file)).isSome) E := by
  refine Job.Keeps.ask fun d w hd _ => ?_
  subst hd
  exact ⟨hW, rfl, rfl⟩

theorem dirExists_keeps {a : Area} {name : String} {d₀ : Files} {E : Error → Files → Prop} (hW : W d₀) :
    Job.Keeps exec (may b) W (· = d₀) (dirExists a name) (fun r d => d = d₀ ∧ r = ((d₀ a).get? name).isSome) E := by
  refine Job.Keeps.ask fun d w hd _ => ?_
  subst hd
  exact ⟨hW, rfl, rfl⟩

theorem specPath_keeps {id : ContainerId} {d₀ : Files} {E : Error → Files → Prop} (hW : W d₀) :
    Job.Keeps exec (may b) W (· = d₀) (specPath id) (fun r d => d = d₀ ∧ r = pathOf d₀ id) E := by
  refine Job.Keeps.bind (fileExists_keeps hW) fun there => Job.Keeps.each fun d hd => ?_
  obtain ⟨rfl, hthere⟩ := hd
  have hstate : (specAt d .state id.display).isSome = there := hthere.symm
  cases there with
  | true => exact Job.Keeps.pure fun d' hd' => ⟨hd', by rw [pathOf, hstate, if_pos rfl]⟩
  | false =>
    refine Job.Keeps.bind (fileExists_keeps hW) fun there' => Job.Keeps.each fun d' hd' => ?_
    obtain ⟨rfl, hthere'⟩ := hd'
    have hrun : (specAt d' .run id.display).isSome = there' := hthere'.symm
    cases there' with
    | true =>
      refine Job.Keeps.pure fun d'' hd'' => ⟨hd'', ?_⟩
      rw [pathOf, hstate, hrun, if_neg Bool.false_ne_true, if_pos rfl]
    | false =>
      refine Job.Keeps.pure fun d'' hd'' => ⟨hd'', ?_⟩
      rw [pathOf, hstate, hrun, if_neg Bool.false_ne_true, if_neg Bool.false_ne_true]

theorem pathOf_eq_none {d : Files} {id : ContainerId} : pathOf d id = none ↔ slot d id.display = (none, none) := by
  unfold pathOf slot
  cases specAt d .state id.display <;> cases specAt d .run id.display <;> simp

/-! ## `create` -/

/-- Why `create` fails when no call does: the id or the name is taken, or a directory is in the way. -/
def Refused (spec : Spec) (d : Files) (e : Error) : Prop :=
  ¬ Free spec d ∧ (Newer d ∨ ∃ why, e = .conflict why) ∨ Free spec d ∧ ¬ Room spec d ∧ e = notEmpty

theorem Refused.not_ready {spec : Spec} {d : Files} {e : Error} (h : Refused spec d e) :
    ¬ (Change.create spec).Ready d :=
  fun hready => h.elim (fun h => h.1 hready.1) fun h => h.2.1 hready.2

theorem checkFree_keeps {spec : Spec} {d₀ : Files} (hd₀ : Sound d₀) (hW : W d₀) :
    Job.Keeps exec (may b) W (· = d₀) (checkFree spec) (fun _ d => d = d₀ ∧ Free spec d₀)
      (fun e d => d = d₀ ∧ (b = true ∨ Refused spec d₀ e)) := by
  refine Job.Keeps.bind (specPath_keeps hW) fun path => Job.Keeps.each fun d hd => ?_
  obtain ⟨rfl, hpath⟩ := hd
  cases path with
  | some a =>
    refine Job.Keeps.throw fun d' hd' => ⟨hd', .inr (.inl ⟨fun hfree => ?_, .inr ⟨_, rfl⟩⟩)⟩
    rw [hfree.1] at hpath
    cases hpath
  | none =>
    show Job.Keeps _ _ _ _ (if spec.name = "" then _ else _) _ _
    by_cases hname : spec.name = ""
    · rw [if_pos hname]
      exact Job.Keeps.pure fun d' hd' => ⟨hd', hpath.symm, .inl hname⟩
    · rw [if_neg hname]
      refine Job.Keeps.bind ((loadAll_keeps hd₀ hW).conseq (fun _ h => h) (fun _ _ h => h) fun _ d' hd' =>
        ⟨hd'.1, hd'.2.imp id fun hnewer => .inl ⟨fun hfree => ?_, .inl hnewer⟩⟩) fun all =>
          Job.Keeps.each fun d' hd' => ?_
      · exact (hfree.2.resolve_left hname).1 hnewer
      obtain ⟨rfl, -, hmem, hnewer⟩ := hd'
      show Job.Keeps _ _ _ _ (if all.any (·.name = spec.name) then _ else _) _ _
      by_cases hany : (all.any fun s => decide (s.name = spec.name)) = true
      · rw [if_pos hany]
        obtain ⟨s, hs, heq⟩ := List.any_eq_true.mp hany
        refine Job.Keeps.throw fun d'' hd'' => ⟨hd'', .inr (.inl ⟨fun hfree => ?_, .inr ⟨_, rfl⟩⟩)⟩
        exact (hfree.2.resolve_left hname).2 s ((hmem s).mp hs) (of_decide_eq_true heq)
      · rw [if_neg hany]
        refine Job.Keeps.pure fun d'' hd'' => ⟨hd'', hpath.symm, .inr ⟨hnewer, fun s hs heq => hany ?_⟩⟩
        exact List.any_eq_true.mpr ⟨s, (hmem s).mpr hs, decide_eq_true heq⟩

/-- The spec is ready to be moved into place. -/
def Staged (spec : Spec) (d : Files) : Prop :=
  ∃ dir, (d (baseOf spec)).get? (tmpDir spec.id) = some dir ∧ dir.get? specFile = some (.spec spec)

/-- A property that does not see the directory a spec is staged in. -/
def Blind (spec : Spec) (J : Files → Prop) : Prop :=
  ∀ d d', J d → Only (baseOf spec) (tmpDir spec.id) d d' → J d'

theorem stage_keeps {spec : Spec} {J : Files → Prop} (hJ : Blind spec J) (hW : ∀ d, J d → W d) :
    Job.Keeps exec (may b) W J (stage spec) (fun _ d => J d ∧ Staged spec d) (fun _ d => J d ∧ b = true) := by
  refine Job.Keeps.bind (Q := fun _ d => J d ∧ ∃ dir, (d (baseOf spec)).get? (tmpDir spec.id) = some dir)
    (must_keeps (fun _ _ => rfl) (fun d hd => ?_) fun hb d _ hd => ⟨hW d hd, hd, hb⟩)
    fun _ => Job.Keeps.each fun d hd => ?_
  · cases hthere : (d (baseOf spec)).get? (tmpDir spec.id) with
    | some dir =>
      simp only [OrdMap.contains, hthere, Option.isSome_some, if_true]
      exact ⟨hW d hd, fun _ => ⟨hd, dir, rfl⟩, fun _ he => by cases he⟩
    | none =>
      simp only [OrdMap.contains, hthere, Option.isSome_none, Bool.false_eq_true, if_false]
      have hmade := hJ _ _ hd (only_insert d (baseOf spec) (tmpDir spec.id) .empty)
      exact ⟨hW _ hmade, fun _ => ⟨hmade, _, get?_set_insert _ _ _ _⟩, fun _ he => by cases he⟩
  · obtain ⟨hJd, dir, hdir⟩ := hd
    have hput : ∀ c d', Put (baseOf spec) (tmpDir spec.id) specFile c d d' → J d' := fun c d' h => hJ d d' hJd h.1
    refine (atomicWrite_keeps hdir (fun d' h => hW d' (hput _ d' h)) fun d' h => hW d' (hput _ d' h)).conseq
      (fun _ h => h) (fun _ d' h => ⟨hput _ d' h, ?_⟩) fun _ d' h => ⟨h.2.elim (hput _ d') (hput _ d'), h.1⟩
    obtain ⟨-, -, dir', -, hdir', hfile, -⟩ := h
    exact ⟨dir', hdir', hfile⟩

theorem removeTmp_keeps {spec : Spec} {J : Files → Prop} (hJ : Blind spec J) (hW : ∀ d, J d → W d) {d₀ : Files}
    (hd₀ : J d₀) :
    Job.Keeps exec (may b) W (· = d₀) (removeDirAll (baseOf spec) (tmpDir spec.id)) (fun _ d => J d)
      (fun _ d => J d ∧ (b = true ∨ (d₀ (baseOf spec)).get? (tmpDir spec.id) = none)) := by
  have hshrunk : ∀ d, Shrunk (baseOf spec) (tmpDir spec.id) d₀ d → J d := fun d h => hJ d₀ d hd₀ h.1
  exact (removeDirAll_keeps fun d h => hW d (hshrunk d h)).conseq (fun _ h => h) (fun _ d h => hshrunk d h.1)
    fun _ d h => ⟨hshrunk d h.1, h.2⟩

theorem blind_quiet (spec : Spec) (d₀ : Files) : Blind spec (Quiet d₀) :=
  fun _ _ h honly => h.only (not_visible_tmpDir _) honly

/-- The way is free, and nothing that shows is lost. -/
def Clear (spec : Spec) (d₀ d : Files) : Prop :=
  Others spec.id.display d₀ d ∧ slot d spec.id.display = slot d₀ spec.id.display ∧
    (d (baseOf spec)).get? spec.id.display = none

theorem blind_clear (spec : Spec) (d₀ : Files) : Blind spec (Clear spec d₀) := by
  intro d d' ⟨hothers, hslot, hnone⟩ honly
  have hsame : ∀ a, (d' a).get? spec.id.display = (d a).get? spec.id.display := fun a =>
    honly a _ fun _ heq => not_visible_tmpDir spec.id (heq ▸ visible_display spec.id)
  refine ⟨hothers.only (.inl (not_visible_tmpDir _)) honly, ?_, by rw [hsame, hnone]⟩
  rw [← hslot]
  unfold slot specAt
  rw [hsame, hsame]

theorem Clear.midway {spec : Spec} {d₀ d : Files} (h : Clear spec d₀ d) :
    Midway (.create spec) d₀ d := ⟨h.1, .inl h.2.1⟩

/-- What `clear_way` may end with. -/
theorem rmdir_keeps {spec : Spec} {d₀ : Files} (hfree : Free spec d₀)
    (hthere : (d₀ (baseOf spec)).get? spec.id.display ≠ none) :
    Job.Keeps exec (may b) (Midway (.create spec) d₀) (Quiet d₀) (must (.rmdir (baseOf spec) spec.id.display) rfl)
      (fun _ d => Clear spec d₀ d ∧ Room spec d₀)
      (fun e d => Midway (.create spec) d₀ d ∧ (b = true ∨ Refused spec d₀ e)) := by
  refine must_keeps (fun _ _ => rfl) (fun d hd => ?_) fun hb d _ hd => ⟨hd.midway, hd.midway, .inl hb⟩
  obtain ⟨dir, hdir⟩ := Option.ne_none_iff_exists'.mp hthere
  have hget : (d (baseOf spec)).get? spec.id.display = some dir :=
    (hd _ (baseOf_mem spec) _ (visible_display _)).trans hdir
  simp only [hget]
  cases hempty : dir.isEmpty with
  | false =>
    simp only [Bool.false_eq_true, if_false]
    refine ⟨hd.midway, (fun h => by cases h), fun e he => ⟨hd.midway, .inr (.inr ⟨hfree, fun hroom => ?_, ?_⟩)⟩⟩
    · rw [hroom dir hdir] at hempty
      cases hempty
    · cases he
      rfl
  | true =>
    simp only [if_true]
    have hclear : Clear spec d₀ (d.set (baseOf spec) ((d (baseOf spec)).erase spec.id.display)) := by
      have honly := only_erase d (baseOf spec) spec.id.display
      have hnone := pathOf_eq_none.mp hfree.1
      have hbefore : slot d spec.id.display = (none, none) := (hd.slot (visible_display _)).trans hnone
      refine ⟨(hd.others _).only (.inr (.inl rfl)) honly, ?_, get?_set_erase _ _ _⟩
      rw [hnone, slot_none_of_only (baseOf_mem spec) hbefore honly]
      rw [specAt, get?_set_erase, Option.bind_none]
    refine ⟨hclear.midway, fun _ => ⟨hclear, fun dir' hdir' => ?_⟩, fun _ h => by cases h⟩
    obtain rfl : dir' = dir := Option.some.inj (hdir'.symm.trans hdir)
    exact hempty

theorem clearWay_keeps {spec : Spec} {d₀ : Files} (hfree : Free spec d₀) :
    Job.Keeps exec (may b) (Midway (.create spec) d₀) (fun d => Quiet d₀ d ∧ Staged spec d) (clearWay spec)
      (fun _ d => (Clear spec d₀ d ∧ Room spec d₀) ∧ Staged spec d)
      (fun e d => Midway (.create spec) d₀ d ∧ (b = true ∨ Refused spec d₀ e)) := by
  refine Job.Keeps.each fun d hd => ?_
  have hsame := hd.1 _ (baseOf_mem spec) _ (visible_display spec.id)
  refine Job.Keeps.bind (dirExists_keeps hd.1.midway) fun there => Job.Keeps.each fun d' hd' => ?_
  obtain ⟨rfl, hthere⟩ := hd'
  rw [hsame] at hthere
  cases there with
  | false =>
    have hnone : (d₀ (baseOf spec)).get? spec.id.display = none :=
      Option.isSome_eq_false_iff.mp hthere.symm |> Option.isNone_iff_eq_none.mp
    refine Job.Keeps.pure fun d'' hd'' => ?_
    subst hd''
    refine ⟨⟨⟨hd.1.others _, hd.1.slot (visible_display _), hsame.trans hnone⟩, fun dir hdir => ?_⟩, hd.2⟩
    rw [hnone] at hdir
    cases hdir
  | true =>
    have hsome : (d₀ (baseOf spec)).get? spec.id.display ≠ none := Option.isSome_iff_ne_none.mp hthere.symm
    obtain ⟨dir, hdir, -⟩ := hd.2
    refine Job.Keeps.bind ((removeTmp_keeps (blind_quiet spec d₀) (fun _ h => h.midway) hd.1).conseq (fun _ h => h)
      (fun _ _ h => h) fun _ _ h => ⟨h.1.midway, h.2.imp id fun hnone => ?_⟩) fun _ => Job.Keeps.each fun d₁ h₁ => ?_
    · rw [hdir] at hnone
      cases hnone
    refine Job.Keeps.bind (fileExists_keeps h₁.midway) fun there => Job.Keeps.each fun d₂ h₂ => ?_
    obtain ⟨rfl, hspec⟩ := h₂
    have habsent : (specAt d₂ (baseOf spec) spec.id.display).isSome = false := by
      have hslot := (h₁.slot (visible_display spec.id)).trans (pathOf_eq_none.mp hfree.1)
      rw [specAt_of_slot hslot (baseOf_mem spec)]
      rfl
    obtain rfl : there = false := hspec.trans habsent
    refine Job.Keeps.bind ((rmdir_keeps hfree hsome).pre fun _ h => h ▸ h₁) fun _ => ?_
    have hblind : Blind spec fun d => Clear spec d₀ d ∧ Room spec d₀ :=
      fun d d' h honly => ⟨blind_clear spec d₀ d d' h.1 honly, h.2⟩
    exact (stage_keeps hblind fun _ h => h.1.midway).conseq (fun _ h => h) (fun _ _ h => h)
      fun _ _ h => ⟨h.1.1.midway, .inl h.2⟩

/-- The spec is moved into place. -/
theorem place_keeps {spec : Spec} {d₀ : Files} (hfree : Free spec d₀) :
    Job.Keeps exec (may b) (Midway (.create spec) d₀) (fun d => (Clear spec d₀ d ∧ Room spec d₀) ∧ Staged spec d)
      (must (.moveDir (baseOf spec) (tmpDir spec.id) (baseOf spec) spec.id.display) rfl)
      (fun _ => Through (.create spec) d₀)
      (fun e d => Midway (.create spec) d₀ d ∧ (b = true ∨ Refused spec d₀ e)) := by
  refine must_keeps (fun _ _ => rfl) (fun d hd => ?_) fun hb d _ hd => ⟨hd.1.1.midway, hd.1.1.midway, .inl hb⟩
  obtain ⟨⟨hclear, hroom⟩, dir, hdir, hspec⟩ := hd
  have hfrom : ¬ Visible (tmpDir spec.id) := not_visible_tmpDir spec.id
  have hne : spec.id.display ≠ tmpDir spec.id := fun h => hfrom (h ▸ visible_display spec.id)
  let after := moved d (baseOf spec) (tmpDir spec.id) (baseOf spec) spec.id.display dir
  have hmove : doMove d (baseOf spec) (tmpDir spec.id) (baseOf spec) spec.id.display = (.ok (), after) :=
    doMove_free hdir fun there h => absurd (hclear.2.2.symm.trans h).symm (Option.some_ne_none there)
  have hother : ∀ a, a ≠ baseOf spec → specAt after a spec.id.display = specAt d a spec.id.display := by
    intro a ha
    rw [specAt, get?_moved, if_neg fun h => ha h.1, if_neg fun h => hne h.2]
    rfl
  have hown : specAt after (baseOf spec) spec.id.display = some (.spec spec) := by
    rw [specAt, get?_moved, if_pos ⟨rfl, rfl⟩, Option.bind_some, hspec]
  have hthrough : Through (.create spec) d₀ after := by
    refine ⟨fun a ha name hv hne => ?_, ⟨hfree, hroom⟩, ?_⟩
    · have hkeep : (after a).get? name = (d a).get? name := by
        rw [get?_moved, if_neg fun h => hne h.2, if_neg]
        rintro ⟨-, rfl⟩
        exact hfrom hv
      exact hkeep.trans (hclear.1 a ha name hv hne)
    · exact (slot_put (baseOf_mem spec) hother hown).trans (by rw [hclear.2.1]; rfl)
  rw [hmove]
  exact ⟨hthrough.midway, fun _ => hthrough, fun _ h => by cases h⟩

theorem create_eq (spec : Spec) : create spec = (checkFree spec >>= fun _ => install spec) := rfl

theorem install_keeps (spec : Spec) {d : Files} (hfree : Free spec d) :
    Job.Keeps exec (may b) (Midway (.create spec) d) (· = d) (install spec) (fun _ => Through (.create spec) d)
      (fun e d' => Midway (.create spec) d d' ∧ (b = true ∨ Refused spec d e)) := by
  have hquiet := Quiet.refl d
  refine Job.Keeps.bind (Q := fun _ => (· = d)) (must_same (fun _ _ => rfl) (fun d' hd' => hd'.symm ▸ hquiet.midway)
    (fun _ h => h) fun hb d' _ hd' => ⟨hd'.symm ▸ hquiet.midway, .inl hb⟩) fun _ => ?_
  refine Job.Keeps.bind (Q := fun _ => Quiet d)
    (Job.Keeps.attempt ((removeTmp_keeps (blind_quiet spec d) (fun _ h => h.midway) hquiet).conseq
      (fun _ h => h) (fun _ _ h => h) fun _ _ h => h.1)) fun _ => ?_
  refine Job.Keeps.bind ((stage_keeps (blind_quiet spec d) fun _ h => h.midway).conseq (fun _ h => h) (fun _ _ h => h)
    fun _ _ h => ⟨h.1.midway, .inl h.2⟩) fun _ => ?_
  refine Job.Keeps.bind (clearWay_keeps hfree) fun _ => ?_
  refine Job.Keeps.bind (place_keeps hfree) fun _ => ?_
  exact must_same (fun _ _ => rfl) (fun _ h => h.midway) (fun _ h => h) fun hb _ _ h => ⟨h.midway, .inl hb⟩

theorem create_keeps (spec : Spec) {d₀ : Files} (hd₀ : Sound d₀) :
    Job.Keeps exec (may b) (Midway (.create spec) d₀) (· = d₀) (create spec) (fun _ => Through (.create spec) d₀)
      (fun e d => Midway (.create spec) d₀ d ∧ (b = true ∨ Refused spec d₀ e)) := by
  rw [create_eq]
  refine Job.Keeps.bind ((checkFree_keeps hd₀ (Quiet.refl d₀).midway).conseq (fun _ h => h) (fun _ _ h => h)
    fun _ d hd => ⟨hd.1.symm ▸ (Quiet.refl d₀).midway, hd.2⟩)
    fun _ => Job.Keeps.each fun d hd => ?_
  obtain ⟨rfl, hfree⟩ := hd
  exact install_keeps spec hfree

/-! ## `update` -/

theorem pathOf_eq_some {d : Files} {id : ContainerId} {a : Area} (h : pathOf d id = some a) :
    a ∈ bases ∧ ∃ dir f, (d a).get? id.display = some dir ∧ dir.get? specFile = some f := by
  have hsome : ∀ a, (specAt d a id.display).isSome = true →
      ∃ dir f, (d a).get? id.display = some dir ∧ dir.get? specFile = some f := by
    intro a ha
    obtain ⟨f, hf⟩ := Option.isSome_iff_exists.mp ha
    obtain ⟨dir, hdir, hfile⟩ := Option.bind_eq_some_iff.mp hf
    exact ⟨dir, f, hdir, hfile⟩
  unfold pathOf at h
  split at h
  · rename_i hstate
    cases h
    exact ⟨by decide, hsome _ hstate⟩
  · split at h
    · rename_i hrun
      cases h
      exact ⟨by decide, hsome _ hrun⟩
    · cases h

theorem Put.specAt {a : Area} {name : String} {c : Option File} {d d' : Files} (h : Put a name specFile c d d') :
    specAt d' a name = c := by
  obtain ⟨-, -, dir', -, hdir', hfile, -⟩ := h
  rw [Store.specAt, hdir', Option.bind_some, hfile]

theorem slot_same {a : Area} (ha : a ∈ bases) {name : String} {d d' : Files} (honly : Only a name d d')
    (hspec : specAt d' a name = specAt d a name) : slot d' name = slot d name := by
  rcases List.mem_cons.mp ha with rfl | ha
  · rw [slot, hspec, honly.specAt (by decide)]
    rfl
  · obtain rfl := List.mem_singleton.mp ha
    rw [slot, hspec, honly.specAt (by decide)]
    rfl

theorem update_keeps {spec : Spec} {d₀ : Files} :
    Job.Keeps exec (may b) (Midway (.update spec) d₀) (· = d₀) (update spec) (fun _ => Through (.update spec) d₀)
      (fun _ d => Midway (.update spec) d₀ d ∧ (b = true ∨ ¬ (Change.update spec).Ready d₀)) := by
  refine Job.Keeps.bind (specPath_keeps (Quiet.refl d₀).midway) fun path => Job.Keeps.each fun d hd => ?_
  obtain ⟨rfl, hpath⟩ := hd
  cases path with
  | none =>
    exact Job.Keeps.throw fun d' hd' => ⟨hd'.symm ▸ (Quiet.refl d).midway, .inr fun hready => hready hpath.symm⟩
  | some a =>
    obtain ⟨ha, dir, f, hdir, hfile⟩ := pathOf_eq_some hpath.symm
    have hothers : ∀ c d', Put a spec.id.display specFile c d d' → Others spec.id.display d d' := fun c d' h =>
      ((Quiet.refl d).others _).only (.inr (.inl rfl)) h.1
    have hbefore : ∀ d', Put a spec.id.display specFile (dir.get? specFile) d d' → Midway (.update spec) d d' := by
      intro d' h
      have hsame : specAt d' a spec.id.display = specAt d a spec.id.display := by
        rw [h.specAt, specAt, hdir, Option.bind_some]
      exact ⟨hothers _ d' h, .inl (slot_same ha h.1 hsame)⟩
    have hafter : ∀ d', Put a spec.id.display specFile (some (.spec spec)) d d' → Through (.update spec) d d' := by
      intro d' h
      have hready : (Change.update spec).Ready d := fun hnone => Option.some_ne_none a (hpath.trans hnone)
      have hslot := slot_put ha (fun _ hne => h.1.specAt hne) h.specAt
      refine ⟨hothers _ d' h, hready, ?_⟩
      rw [Change.id, hslot, Change.slot, ← hpath]
      rfl
    exact (atomicWrite_keeps hdir hbefore fun d' h => (hafter d' h).midway).conseq (fun _ h => h)
      (fun _ d' h => hafter d' h) fun _ d' h => ⟨h.2.elim (hbefore d') fun h => (hafter d' h).midway, .inl h.1⟩

/-! ## `remove` -/

/-- The persistent directory is out of the way. -/
def Discarded (id : ContainerId) (d₀ d : Files) : Prop :=
  Others id.display d₀ d ∧ (Change.remove id).Ready d₀ ∧ slot d id.display = (none, (slot d₀ id.display).2)

/-- The container has a spec in one place at most. -/
def Once (id : ContainerId) (d : Files) : Prop := specAt d .state id.display = none ∨ specAt d .run id.display = none

theorem Discarded.midway {id : ContainerId} {d₀ d : Files} (honce : Once id d₀) (h : Discarded id d₀ d) :
    Midway (.remove id) d₀ d := by
  refine ⟨h.1, ?_⟩
  rcases honce with hnone | hnone
  · left
    rw [Change.id, h.2.2, slot, hnone]
  · right
    refine ⟨h.2.1, ?_⟩
    rw [Change.id, h.2.2, slot, hnone]
    rfl

theorem discard_keeps {id : ContainerId} {d₀ : Files} (honce : Once id d₀) (hpath : pathOf d₀ id ≠ none) :
    Job.Keeps exec (may b) (Midway (.remove id) d₀) (· = d₀) (discard id) (fun _ => Discarded id d₀)
      (fun _ d => Midway (.remove id) d₀ d ∧ (b = true ∨ ¬ (Change.remove id).Ready d₀)) := by
  have hstart : Midway (.remove id) d₀ d₀ := (Quiet.refl d₀).midway
  refine Job.Keeps.bind (dirExists_keeps hstart) fun there => Job.Keeps.each fun d hd => ?_
  obtain ⟨rfl, hthere⟩ := hd
  cases there with
  | false =>
    have hnone : (d .state).get? id.display = none :=
      Option.isNone_iff_eq_none.mp (Option.isSome_eq_false_iff.mp hthere.symm)
    refine Job.Keeps.pure fun d' hd' => ?_
    subst hd'
    refine ⟨(Quiet.refl _).others _, ⟨hpath, fun h => absurd hnone h⟩, ?_⟩
    rw [slot, specAt, hnone]
    rfl
  | true =>
    obtain ⟨dir, hdir⟩ := Option.isSome_iff_exists.mp hthere.symm
    refine Job.Keeps.bind (Q := fun _ => (· = d)) (must_same (fun _ _ => rfl) (fun d' hd' => hd'.symm ▸ hstart)
      (fun _ h => h) fun hb d' _ hd' => ⟨hd'.symm ▸ hstart, .inl hb⟩) fun _ => ?_
    refine must_keeps (fun _ _ => rfl) (fun d' hd' => ?_) fun hb d' _ hd' =>
      ⟨hd'.symm ▸ hstart, hd'.symm ▸ hstart, .inl hb⟩
    subst hd'
    by_cases hroom : ∀ there, (d' .trash).get? id.display = some there → there.isEmpty = true
    · rw [doMove_free hdir hroom]
      have hdone : Discarded id d' (moved d' .state id.display .trash id.display dir) := by
        refine ⟨fun a ha name _ hne => ?_, ⟨hpath, fun _ => hroom⟩, ?_⟩
        · rw [get?_moved, if_neg fun h => hne h.2, if_neg fun h => hne h.2]
        · have hstateTrash : Area.state ≠ .trash := by decide
          have hrunTrash : Area.run ≠ .trash := by decide
          have hrunState : Area.run ≠ .state := by decide
          have hstate : specAt (moved d' .state id.display .trash id.display dir) .state id.display = none := by
            rw [specAt, get?_moved, if_neg fun h => hstateTrash h.1, if_pos ⟨rfl, rfl⟩, Option.bind_none]
          have hrun : specAt (moved d' .state id.display .trash id.display dir) .run id.display =
              specAt d' .run id.display := by
            rw [specAt, get?_moved, if_neg fun h => hrunTrash h.1, if_neg fun h => hrunState h.1]
            rfl
          rw [slot, hstate, hrun]
          rfl
      exact ⟨hdone.midway honce, fun _ => hdone, fun _ h => by cases h⟩
    · obtain ⟨there, hthere, hfull⟩ : ∃ there, (d' .trash).get? id.display = some there ∧ there.isEmpty = false := by
        simpa using hroom
      have hnot : ¬ (Change.remove id).Ready d' := fun hready =>
        hroom (hready.2 fun hnone => Option.some_ne_none _ (hdir.symm.trans hnone))
      simp only [doMove, hdir, hthere, hfull, Bool.false_eq_true, if_false]
      exact ⟨hstart, (fun h => by cases h), fun _ _ => ⟨hstart, .inr hnot⟩⟩

theorem Shrunk.specAt {a : Area} {name : String} {d d' : Files} (h : Shrunk a name d d') :
    specAt d' a name = none ∨ specAt d' a name = specAt d a name := by
  unfold Store.specAt
  cases hdir' : (d' a).get? name with
  | none => exact .inl rfl
  | some dir' =>
    obtain ⟨dir, hdir, hsub⟩ := h.2 dir' hdir'
    rw [hdir]
    exact hsub specFile

theorem remove_keeps {id : ContainerId} {d₀ : Files} (honce : Once id d₀) :
    Job.Keeps exec (may b) (Midway (.remove id) d₀) (· = d₀) (remove id) (fun _ => Through (.remove id) d₀)
      (fun _ d => Midway (.remove id) d₀ d ∧ (b = true ∨ ¬ (Change.remove id).Ready d₀)) := by
  have hstart : Midway (.remove id) d₀ d₀ := (Quiet.refl d₀).midway
  refine Job.Keeps.bind (specPath_keeps hstart) fun path => Job.Keeps.each fun d hd => ?_
  obtain ⟨rfl, hpath⟩ := hd
  cases path with
  | none => exact Job.Keeps.throw fun d' hd' => ⟨hd'.symm ▸ hstart, .inr fun hready => hready.1 hpath.symm⟩
  | some a =>
    refine Job.Keeps.bind (discard_keeps honce fun hnone => nomatch hpath.trans hnone) fun _ =>
      Job.Keeps.each fun d₁ h₁ => ?_
    refine Job.Keeps.bind (dirExists_keeps (h₁.midway honce)) fun there => Job.Keeps.each fun d₂ h₂ => ?_
    obtain ⟨rfl, hthere⟩ := h₂
    have hthrough : ∀ d', Others id.display d d' → slot d' id.display = (none, none) → Through (.remove id) d d' :=
      fun d' hothers hslot => ⟨hothers, h₁.2.1, hslot⟩
    cases there with
    | false =>
      have hnone : specAt d₂ .run id.display = none := by
        rw [specAt, Option.isNone_iff_eq_none.mp (Option.isSome_eq_false_iff.mp hthere.symm), Option.bind_none]
      refine Job.Keeps.pure fun d' hd' => ?_
      subst hd'
      refine hthrough _ h₁.1 ?_
      rw [slot, hnone, (Prod.mk.inj h₁.2.2).1]
    | true =>
      have hothers : ∀ d', Shrunk .run id.display d₂ d' → Others id.display d d' := fun d' h =>
        h₁.1.only (.inr (.inl rfl)) h.1
      have hgone : ∀ d', Shrunk .run id.display d₂ d' → specAt d' .run id.display = none →
        Through (.remove id) d d' := by
        intro d' h hnone
        refine hthrough d' (hothers d' h) ?_
        rw [slot, hnone, h.1.specAt (by decide), (Prod.mk.inj h₁.2.2).1]
      have hmidway : ∀ d', Shrunk .run id.display d₂ d' → Midway (.remove id) d d' := by
        intro d' h
        rcases h.specAt with hnone | hsame
        · exact (hgone d' h hnone).midway
        · have hslot := (slot_same (by decide) h.1 hsame).trans h₁.2.2
          exact Discarded.midway honce ⟨hothers d' h, h₁.2.1, hslot⟩
      refine (removeDirAll_keeps hmidway).conseq (fun _ h => h) (fun _ d' h => hgone d' h.1 ?_) fun _ d' h =>
        ⟨hmidway d' h.1, .inl (h.2.resolve_right ?_)⟩
      · rw [specAt, h.2, Option.bind_none]
      · exact Option.isSome_iff_ne_none.mp hthere.symm

/-! ## Sound states -/

/-- What the two places of a container may hold. -/
def SlotSound (name : String) (p : Option File × Option File) : Prop :=
  (∀ f, p.1 = some f ∨ p.2 = some f → ∃ s, f = .spec s ∧ s.id.display = name) ∧ (p.1 = none ∨ p.2 = none)

theorem sound_iff {d : Files} : Sound d ↔ ∀ name, Visible name → SlotSound name (slot d name) := by
  constructor
  · intro h name hv
    refine ⟨fun f hf => ?_, h.once name hv⟩
    rcases hf with hf | hf
    · exact h.named .state (by decide) name f hv hf
    · exact h.named .run (by decide) name f hv hf
  · intro h
    refine ⟨fun a ha name f hv hf => (h name hv).1 f ?_, fun name hv => (h name hv).2⟩
    rcases List.mem_cons.mp ha with rfl | ha
    · exact .inl hf
    · rw [List.mem_singleton.mp ha] at hf
      exact .inr hf

theorem slotSound_put {spec : Spec} {a : Area} {old : Option File × Option File}
    (hold : if a = .state then old.2 = none else old.1 = none) :
    SlotSound spec.id.display (put a (.spec spec) old) := by
  unfold put
  split
  · rename_i ha
    rw [if_pos ha] at hold
    refine ⟨fun f hf => ⟨spec, ?_, rfl⟩, .inr hold⟩
    exact (hf.resolve_right fun h => nomatch hold.symm.trans h) |> Option.some.inj |> Eq.symm
  · rename_i ha
    rw [if_neg ha] at hold
    refine ⟨fun f hf => ⟨spec, ?_, rfl⟩, .inl hold⟩
    exact (hf.resolve_left fun h => nomatch hold.symm.trans h) |> Option.some.inj |> Eq.symm

theorem Change.slotSound {c : Change} {d : Files} (hd : Sound d) (hready : c.Ready d) :
    SlotSound c.id.display (c.slot d) := by
  cases c with
  | create spec =>
    have hnone := pathOf_eq_none.mp hready.1.1
    refine slotSound_put ?_
    split
    · exact congrArg Prod.snd hnone
    · exact congrArg Prod.fst hnone
  | update spec =>
    obtain ⟨a, ha⟩ := Option.ne_none_iff_exists'.mp hready
    refine slotSound_put ?_
    rw [ha, Option.getD_some]
    unfold pathOf at ha
    split at ha
    · rename_i hstate
      cases ha
      rw [if_pos rfl]
      exact (hd.once _ (visible_display _)).resolve_left (Option.isSome_iff_ne_none.mp hstate)
    · rename_i hstate
      split at ha
      · cases ha
        rw [if_neg (by decide)]
        exact Option.not_isSome_iff_eq_none.mp hstate
      · cases ha
  | remove id => exact ⟨fun _ hf => hf.elim nofun nofun, .inl rfl⟩

theorem Others.slot {name name' : String} {d d' : Files} (h : Others name d d') (hv : Visible name')
    (hne : name' ≠ name) :
    slot d' name' = slot d name' := by
  unfold Store.slot specAt
  rw [h .state (by decide) name' hv hne, h .run (by decide) name' hv hne]

theorem Midway.sound {c : Change} {d d' : Files} (hd : Sound d) (h : Midway c d d') : Sound d' := by
  refine sound_iff.mpr fun name hv => ?_
  by_cases hname : name = c.id.display
  · subst hname
    rcases h.2 with hsame | ⟨hready, hslot⟩
    · rw [hsame]
      exact sound_iff.mp hd _ hv
    · rw [hslot]
      exact c.slotSound hd hready
  · rw [h.1.slot hv hname]
    exact sound_iff.mp hd name hv

end Collocate.Store
