import Collocate.Store.Changes

/-! # The operations of the store

What each of them leaves of the specs that show, however many of its calls fail: the listing of a directory may fail
as well, but where a `create` looks for a name that is taken. -/
namespace Collocate.Store
set_option autoImplicit false

/-! ## Operations -/

inductive Op
  | change (c : Change)
  | writeRuntime (id : ContainerId) (json : String)
  | clearRuntime (id : ContainerId)
  | purgeTrash
  | recover
  | loadAll

def Op.work : Op → Work Unit
  | .change c => c.work
  | .writeRuntime id json => Store.writeRuntime id json
  | .clearRuntime id => Store.clearRuntime id
  | .purgeTrash => Store.purgeTrash
  | .recover => Store.recover
  | .loadAll => Store.loadAll >>= fun _ => pure ()

/-- The specs that show are as they were. -/
def SameSpecs (d d' : Files) : Prop := ∀ a ∈ bases, ∀ name, Visible name → specAt d' a name = specAt d a name

theorem SameSpecs.refl (d : Files) : SameSpecs d d := fun _ _ _ _ => rfl

theorem SameSpecs.trans {d d' d'' : Files} (h : SameSpecs d d') (h' : SameSpecs d' d'') : SameSpecs d d'' :=
  fun a ha name hv => (h' a ha name hv).trans (h a ha name hv)

theorem sameSpecs_of_only {a : Area} {name : String} {d d' : Files} (honly : Only a name d d')
    (hspec : specAt d' a name = specAt d a name) : SameSpecs d d' := by
  intro a' _ name' _
  by_cases h : a' = a ∧ name' = name
  · rw [h.1, h.2, hspec]
  · unfold specAt
    rw [honly a' name' fun ha hname => h ⟨ha, hname⟩]

theorem Spared.sameSpecs {d d' : Files} (h : Spared d d') : SameSpecs d d' := by
  intro a ha name hv
  unfold specAt
  rw [h a ha name]
  cases htmp : isTmp name with
  | false => rfl
  | true => exact absurd hv (not_visible_of_tmp htmp)

theorem Put.sameSpecs {a : Area} {name file : String} {c : Option File} {d d' : Files} (h : Put a name file c d d')
    (hfile : specFile ≠ file) (htmp : specFile ≠ tmpName file) : SameSpecs d d' := by
  refine sameSpecs_of_only h.1 ?_
  obtain ⟨-, dir, dir', hdir, hdir', -, hrest⟩ := h
  rw [Store.specAt, Store.specAt, hdir, hdir', Option.bind_some, Option.bind_some, hrest specFile hfile htmp]

/-! ## Calls of one base -/

/-- The area is none that `load_all` puts directories in. -/
def Call.off : Call → Bool
  | .dirExists a _ | .fileExists a _ _ | .makeDir a _ | .createTmp a _ _ | .fillTmp a _ _ _ | .renameTmp a _ _
  | .entries a _ | .unlink a _ _ | .rmdir a _ | .readFile a _ _ => a != .corrupt
  | .moveDir a _ a' _ => a != .corrupt && a' != .corrupt && (a == .run) == (a' == .run)
  | .makeArea _ | .sync | .names _ => true

/-- The call neither lists an area nor has to do with `.corrupt` or with both trees. -/
def Call.plain : Call → Bool
  | .names _ => false
  | call => call.off

theorem off_of_plain {call : Call} (h : call.plain = true) : call.off = true := by
  cases call <;> first | exact h | cases h

theorem inDir_corrupt {a : Area} (ha : (a != .corrupt) = true) (name : String) (f : Dir → Except Error Unit × Dir)
    (d : Files) : (inDir d a name f).2 .corrupt = d .corrupt := by
  unfold inDir
  split
  · rfl
  · exact Function.update_of_ne (bne_iff_ne.mp ha).symm _ _

theorem changed_corrupt {w : Fate} {d : Files} {f : Except Error Unit × Files} (h : f.2 .corrupt = d .corrupt) :
    (changed w d f).2 .corrupt = d .corrupt := by
  cases w with
  | broken e => rfl
  | fine => exact h
  | order l => exact h

theorem set_corrupt {a : Area} (ha : (a != .corrupt) = true) (d : Files) (dirs : OrdMap String Dir) :
    d.set a dirs .corrupt = d .corrupt :=
  Function.update_of_ne (bne_iff_ne.mp ha).symm _ _

/-- Such a call leaves `.corrupt` alone. -/
theorem exec_corrupt {call : Call} (h : call.off = true) (w : Fate) (d : Files) :
    (exec call w d).2 .corrupt = d .corrupt := by
  cases call with
  | dirExists | fileExists => rfl
  | makeArea | sync => exact changed_corrupt rfl
  | makeDir a name =>
    refine changed_corrupt ?_
    dsimp only
    split
    · rfl
    · exact set_corrupt h _ _
  | createTmp | fillTmp | renameTmp | unlink => exact changed_corrupt (inDir_corrupt h _ _ _)
  | entries a name =>
    cases w <;> simp only [exec] <;> split <;> rfl
  | names a => cases w <;> rfl
  | readFile a name file => cases w <;> simp only [exec] <;> split <;> rfl
  | rmdir a name =>
    refine changed_corrupt ?_
    split
    · rfl
    · split
      · exact set_corrupt h _ _
      · rfl
  | moveDir a name a' name' =>
    obtain ⟨hareas, -⟩ := Bool.and_eq_true_iff.mp h
    obtain ⟨ha, ha'⟩ := Bool.and_eq_true_iff.mp hareas
    have hmoved : ∀ dir, moved d a name a' name' dir .corrupt = d .corrupt := fun dir =>
      (set_corrupt ha' _ _).trans (set_corrupt ha _ _)
    refine changed_corrupt ?_
    unfold doMove
    split
    · rfl
    · dsimp only
      split
      · exact hmoved _
      · split
        · exact hmoved _
        · rfl

section Asks
variable {C : Call → Prop}

theorem asks_must {call : Call} {h : call.Ans = Result Unit} (hcall : C call) : Job.Asks C (must call h) :=
  Job.Asks.bind (Job.asks_ask hcall) fun _ => trivial

theorem asks_removeDirAll {a : Area} {name : String} (hentries : C (.entries a name))
    (hunlink : ∀ file, C (.unlink a name file)) (hrmdir : C (.rmdir a name)) : Job.Asks C (removeDirAll a name) := by
  refine Job.Asks.bind (Job.asks_ask hentries) fun found => Job.Asks.bind trivial fun files => ?_
  exact Job.Asks.bind (Job.asks_forM files fun file => asks_must (hunlink file)) fun _ => asks_must hrmdir

end Asks

abbrev Plain {α : Type} (work : Work α) : Prop := Job.Asks (fun call => call.plain = true) work

theorem plain_removeDirAll {a : Area} (ha : (a != .corrupt) = true) (name : String) : Plain (removeDirAll a name) :=
  asks_removeDirAll ha (fun _ => ha) ha

theorem plain_atomicWrite {a : Area} (ha : (a != .corrupt) = true) (name file : String) (content : File) :
    Plain (atomicWrite a name file content) :=
  Job.Asks.bind (asks_must ha) fun _ => Job.Asks.bind (asks_must ha) fun _ => Job.Asks.bind (asks_must ha) fun _ =>
    asks_must rfl

theorem plain_specPath (id : ContainerId) : Plain (specPath id) := by
  refine Job.Asks.bind (Job.asks_ask rfl) fun there => ?_
  cases there with
  | true => trivial
  | false =>
    refine Job.Asks.bind (Job.asks_ask rfl) fun there' => ?_
    cases there' <;> trivial

theorem baseOf_off (spec : Spec) : (baseOf spec != .corrupt) = true := by
  unfold baseOf
  split <;> rfl

theorem plain_stage (spec : Spec) : Plain (stage spec) :=
  Job.Asks.bind (asks_must (baseOf_off spec)) fun _ => plain_atomicWrite (baseOf_off spec) _ _ _

theorem plain_install (spec : Spec) : Plain (install spec) := by
  have hbase := baseOf_off spec
  refine Job.Asks.bind (asks_must rfl) fun _ => ?_
  refine Job.Asks.bind (Job.Asks.attempt (plain_removeDirAll hbase _)) fun _ => ?_
  refine Job.Asks.bind (plain_stage spec) fun _ => Job.Asks.bind ?_ fun _ => ?_
  · refine Job.Asks.bind (Job.asks_ask hbase) fun there => ?_
    cases there with
    | false => trivial
    | true =>
      refine Job.Asks.bind (plain_removeDirAll hbase _) fun _ => Job.Asks.bind (Job.asks_ask hbase) fun there' => ?_
      cases there' with
      | true => trivial
      | false => exact Job.Asks.bind (asks_must hbase) fun _ => plain_stage spec
  · refine Job.Asks.bind (asks_must ?_) fun _ => asks_must rfl
    unfold baseOf
    split <;> rfl

theorem specPath_off (id : ContainerId) :
    Job.Yields (fun path => ∀ a, path = some a → (a != Area.corrupt) = true) (specPath id) := by
  intro there
  cases there with
  | true =>
    intro a ha
    cases ha
    rfl
  | false =>
    intro there'
    cases there' with
    | true =>
      intro a ha
      cases ha
      rfl
    | false => exact fun a ha => by cases ha

theorem plain_update (spec : Spec) : Plain (update spec) := by
  refine Job.Asks.bind_yields (plain_specPath spec.id) (specPath_off spec.id) fun path hpath => ?_
  cases path with
  | none => trivial
  | some a => exact plain_atomicWrite (hpath a rfl) _ _ _

theorem plain_remove (id : ContainerId) : Plain (remove id) := by
  refine Job.Asks.bind (plain_specPath id) fun path => ?_
  cases path with
  | none => trivial
  | some a =>
    refine Job.Asks.bind (Job.Asks.bind (Job.asks_ask rfl) fun there => ?_) fun _ =>
      Job.Asks.bind (Job.asks_ask rfl) fun there => ?_
    · cases there with
      | true => exact Job.Asks.bind (asks_must rfl) fun _ => asks_must rfl
      | false => trivial
    · cases there with
      | true => exact plain_removeDirAll rfl _
      | false => trivial

/-! ## Runtime files -/

variable {b : Bool}

theorem writeRuntime_keeps (id : ContainerId) (json : String) {d₀ : Files} :
    Job.Keeps exec (may b) (SameSpecs d₀) (· = d₀) (writeRuntime id json) (fun _ d => SameSpecs d₀ d)
      (fun _ d => SameSpecs d₀ d) := by
  refine Job.Keeps.bind (Q := fun _ d => SameSpecs d₀ d ∧ ∃ dir, (d .run).get? id.display = some dir)
    (must_keeps (fun _ _ => rfl) (fun d hd => ?_) fun _ d _ hd => ⟨hd ▸ .refl _, hd ▸ .refl _⟩)
    fun _ => Job.Keeps.each fun d hd => ?_
  · subst hd
    cases hthere : (d .run).get? id.display with
    | some dir =>
      simp only [OrdMap.contains, hthere, Option.isSome_some, if_true]
      exact ⟨.refl d, fun _ => ⟨.refl d, dir, rfl⟩, fun _ he => by cases he⟩
    | none =>
      simp only [OrdMap.contains, hthere, Option.isSome_none, Bool.false_eq_true, if_false]
      have hsame : SameSpecs d (d.set .run ((d .run).insert id.display .empty)) := by
        refine sameSpecs_of_only (only_insert _ _ _ _) ?_
        rw [specAt, specAt, get?_set_insert, hthere]
        rfl
      exact ⟨hsame, fun _ => ⟨hsame, _, get?_set_insert _ _ _ _⟩, fun _ he => by cases he⟩
  · obtain ⟨hsame, dir, hdir⟩ := hd
    have hput : ∀ c d', Put .run id.display runtimeFile c d d' → SameSpecs d₀ d' := fun c d' h =>
      hsame.trans (h.sameSpecs (by decide) (by decide))
    exact (atomicWrite_keeps hdir (hput _) (hput _)).conseq (fun _ h => h) (fun _ d' h => hput _ d' h)
      fun _ d' h => h.2.elim (hput _ d') (hput _ d')

theorem clearRuntime_keeps (id : ContainerId) {d₀ : Files} :
    Job.Keeps exec (may b) (SameSpecs d₀) (· = d₀) (clearRuntime id) (fun _ d => SameSpecs d₀ d)
      (fun _ d => SameSpecs d₀ d) := by
  refine Job.Keeps.bind (Q := fun _ => SameSpecs d₀) (Job.Keeps.attempt
    (must_keeps (fun _ _ => rfl) (fun d hd => ?_) fun _ d _ hd => ⟨hd ▸ .refl _, hd ▸ .refl _⟩)) fun r => ?_
  · subst hd
    have hsame : SameSpecs d (inDir d .run id.display fun dir =>
        if dir.contains runtimeFile then (.ok (), dir.erase runtimeFile) else (.error noSuchFile, dir)).2 := by
      unfold inDir
      split
      · exact .refl d
      · rename_i dir hdir
        refine sameSpecs_of_only (only_insert _ _ _ _) ?_
        rw [specAt, specAt, get?_set_insert, hdir, Option.bind_some, Option.bind_some]
        dsimp only
        split
        · rw [OrdMap.get?_erase, if_neg (by decide)]
        · rfl
    exact ⟨hsame, fun _ => hsame, fun _ _ => hsame⟩
  · cases r with
    | ok u => exact Job.Keeps.pure fun _ h => h
    | error e =>
      show Job.Keeps _ _ _ _ (if e = noSuchFile then _ else _) _ _
      split
      · exact Job.Keeps.pure fun _ h => h
      · exact Job.Keeps.throw fun _ h => h

theorem plain_writeRuntime (id : ContainerId) (json : String) : Plain (writeRuntime id json) :=
  Job.Asks.bind (asks_must rfl) fun _ => plain_atomicWrite rfl _ _ _

theorem plain_clearRuntime (id : ContainerId) : Plain (clearRuntime id) := by
  refine Job.Asks.bind (Job.Asks.attempt (asks_must rfl)) fun r => ?_
  cases r with
  | ok u => trivial
  | error e =>
    show Job.Asks _ (if e = noSuchFile then pure () else Job.throw e)
    split <;> trivial

/-! ## What may befall an operation -/

/-- A container is to be created under a name that is taken. -/
def Takes (d : Files) : Op → Prop
  | .change (.create spec) => spec.name ≠ "" ∧ ∃ s, Listed d s ∧ s.name = spec.name
  | _ => False

/-- Any call may fail. What is there is not said to be missing, though, and a `create` that looks for a name that is
taken is told what directories there are. -/
def Op.hazard (d₀ : Files) (op : Op) (call : Call) (w : Fate) (_ : Files) : Prop :=
  ∀ e, w = .broken e → Error.io e ≠ noSuchFile ∧ (Takes d₀ op → ∀ a, call ≠ .names a)

/-- The same without a word about listings. -/
def rough (_ : Call) (w : Fate) (_ : Files) : Prop := ∀ e, w = .broken e → Error.io e ≠ noSuchFile

theorem rough_of_hazard {op : Op} {d₀ d : Files} {call : Call} {w : Fate} (h : op.hazard d₀ call w d) :
    rough call w d :=
  fun e he => (h e he).1

/-- The call lists no area. -/
def Call.Blind (call : Call) : Prop := ∀ a, call ≠ .names a

theorem blind_of_plain {call : Call} (h : call.plain = true) : call.Blind := by
  rintro a rfl
  cases h

theorem keeps_rough {α : Type} {W P : Files → Prop} {Q : α → Files → Prop} {E : Error → Files → Prop} {job : Work α}
    (h : Job.Keeps exec (may true) W P job Q E) (hjob : Job.Asks Call.Blind job) : Job.Keeps exec rough W P job Q E :=
  h.within hjob fun _ _ _ hcall hw e he => ⟨rfl, hcall, hw e he⟩

theorem plain_rough {α : Type} {W P : Files → Prop} {Q : α → Files → Prop} {E : Error → Files → Prop} {job : Work α}
    (h : Job.Keeps exec (may true) W P job Q E) (hjob : Plain job) : Job.Keeps exec rough W P job Q E :=
  keeps_rough h (hjob.imp fun _ => blind_of_plain)

section Rough
variable {W : Files → Prop} {E : Error → Files → Prop}

theorem names_rough {a : Area} {d₀ : Files} (hW : W d₀) :
    Job.Keeps exec rough W (· = d₀) (names a) (fun _ d => d = d₀) E := by
  refine Job.Keeps.ask fun d w hd _ => ?_
  subst hd
  cases w <;> exact ⟨hW, rfl⟩

theorem blind_loadEntry (a : Area) (name : String) : Job.Asks Call.Blind (loadEntry a name) := by
  have hread : Call.Blind (.readFile a name specFile) := fun _ h => by cases h
  have hbase : Call.Blind (.makeArea .corrupt) := fun _ h => by cases h
  have hclear : Job.Asks Call.Blind (removeDirAll .corrupt name) :=
    asks_removeDirAll (fun _ h => by cases h) (fun _ _ h => by cases h) fun _ h => by cases h
  have hmove : Call.Blind (.moveDir a name .corrupt name) := fun _ h => by cases h
  unfold loadEntry
  split
  · trivial
  · refine Job.Asks.bind (Job.asks_ask hread) fun r => ?_
    cases r with
    | error e =>
      show Job.Asks _ (if e = noSuchFile then pure none else Job.throw e)
      split <;> trivial
    | ok f =>
      cases f with
      | spec s =>
        show Job.Asks _ (decoded a name (.spec s))
        rw [decoded]
        split <;> trivial
      | text t =>
        refine Job.Asks.bind (Job.Asks.bind (asks_must hbase) fun _ => ?_) fun _ => trivial
        exact Job.Asks.bind hclear.attempt fun _ => asks_must hmove

/-- `load_all` changes nothing, whatever it is told of the directories. -/
theorem loadAll_rough {d₀ : Files} (hd₀ : Sound d₀) (hW : W d₀) :
    Job.Keeps exec rough W (· = d₀) loadAll (fun _ d => d = d₀) (fun _ d => d = d₀) := by
  have harea : ∀ a ∈ bases, Job.Keeps exec rough W (· = d₀) (loadArea a) (fun _ d => d = d₀) (fun _ d => d = d₀) := by
    intro a ha
    refine Job.Keeps.bind (names_rough hW) fun found => ?_
    refine Job.Keeps.bind (Job.Keeps.collect (T := fun _ _ => True) found fun name => ?_) fun read =>
      Job.Keeps.pure fun d hd => hd.1
    exact (keeps_rough (loadEntry_keeps ha hd₀ hW name) (blind_loadEntry a name)).conseq (fun _ h => h)
      (fun _ _ h => ⟨h.1, trivial⟩) fun _ _ h => h.1
  refine Job.Keeps.bind (harea .state (by decide)) fun persistent => ?_
  exact Job.Keeps.bind (harea .run (by decide)) fun ephemeral => Job.Keeps.pure fun _ hd => hd

theorem checkFree_rough {spec : Spec} {d₀ : Files} (hd₀ : Sound d₀) (hW : W d₀) :
    Job.Keeps exec rough W (· = d₀) (checkFree spec) (fun _ d => d = d₀ ∧ pathOf d₀ spec.id = none)
      (fun _ d => d = d₀) := by
  refine Job.Keeps.bind (plain_rough (specPath_keeps hW) (plain_specPath spec.id)) fun path =>
    Job.Keeps.each fun d hd => ?_
  obtain ⟨rfl, hpath⟩ := hd
  cases path with
  | some a => exact Job.Keeps.throw fun _ h => h
  | none =>
    show Job.Keeps _ _ _ _ (if spec.name = "" then _ else _) _ _
    split
    · exact Job.Keeps.pure fun _ h => ⟨h, hpath.symm⟩
    · refine Job.Keeps.bind (loadAll_rough hd₀ hW) fun all => ?_
      show Job.Keeps _ _ _ _ (if all.any (·.name = spec.name) then _ else _) _ _
      split
      · exact Job.Keeps.throw fun _ h => h
      · exact Job.Keeps.pure fun _ h => ⟨h, hpath.symm⟩

/-- A name that is free is free also of a store that is not listed. -/
theorem create_rough {spec : Spec} {d₀ : Files} (hd₀ : Sound d₀) (hcurrent : ¬ Newer d₀)
    (hfree : ¬ Takes d₀ (.change (.create spec))) :
    Job.Keeps exec rough (Midway (.create spec) d₀) (· = d₀) (create spec) (fun _ => Midway (.create spec) d₀)
      (fun _ => Midway (.create spec) d₀) := by
  have hstart := (Quiet.refl d₀).midway (c := .create spec)
  rw [create_eq]
  refine Job.Keeps.bind ((checkFree_rough hd₀ hstart).conseq (fun _ h => h) (fun _ _ h => h)
    fun _ d hd => hd.symm ▸ hstart) fun _ => Job.Keeps.each fun d hd => ?_
  obtain ⟨rfl, hpath⟩ := hd
  have hname : spec.name = "" ∨ ¬ Newer d ∧ ∀ s, Listed d s → s.name ≠ spec.name := by
    by_cases hempty : spec.name = ""
    · exact .inl hempty
    · exact .inr ⟨hcurrent, fun s hs heq => hfree ⟨hempty, s, hs, heq⟩⟩
  exact (plain_rough (install_keeps spec ⟨hpath, hname⟩) (plain_install spec)).conseq (fun _ h => h)
    (fun _ _ h => h.midway) fun _ _ h => h.1

theorem clearing_rough {a : Area} (ha : (a != .corrupt) = true) {p : String → Bool} {d₀ : Files}
    (hW : ∀ d, Cleared a p d₀ d → W d) (found : List String) :
    Job.Keeps exec rough W (Cleared a p d₀) (found.forM fun name => if p name then removeDirAll a name else pure ())
      (fun _ => Cleared a p d₀) (fun _ => Cleared a p d₀) := by
  refine Job.Keeps.forM (J := fun _ => Cleared a p d₀) found fun name _ => Job.Keeps.each fun d hd => ?_
  cases hp : p name with
  | false =>
    rw [if_neg Bool.false_ne_true]
    exact Job.Keeps.pure fun _ h => h ▸ hd
  | true =>
    rw [if_pos rfl]
    refine plain_rough ((removeDirAll_keeps fun d' h => hW d' (hd.shrunk hp h)).conseq (fun _ h => h) ?_ ?_)
      (plain_removeDirAll ha name)
    · exact fun _ _ h => hd.shrunk hp h.1
    · exact fun _ _ h => hd.shrunk hp h.1

theorem sweep_rough {a : Area} (ha : (a != .corrupt) = true) {d₀ : Files} (hW : ∀ d, Cleared a isTmp d₀ d → W d) :
    Job.Keeps exec rough W (· = d₀) (sweep a) (fun _ => Cleared a isTmp d₀) (fun _ => Cleared a isTmp d₀) :=
  Job.Keeps.bind (names_rough (hW d₀ (.refl _ _ _))) fun found =>
    (clearing_rough ha hW found).pre fun _ h => h ▸ .refl _ _ _

theorem purgeTrash_rough {d₀ : Files} (hW : ∀ d, Cleared .trash (fun _ => true) d₀ d → W d) :
    Job.Keeps exec rough W (· = d₀) purgeTrash (fun _ => Cleared .trash (fun _ => true) d₀)
      (fun _ => Cleared .trash (fun _ => true) d₀) := by
  refine Job.Keeps.bind (names_rough (hW d₀ (.refl _ _ _))) fun found => ?_
  have hclear := clearing_rough rfl hW found
  simp only [if_true] at hclear
  exact hclear.pre fun _ h => h ▸ .refl _ _ _

theorem recover_rough {d₀ : Files} (hW : ∀ d, Spared d₀ d → W d) :
    Job.Keeps exec rough W (· = d₀) recover (fun _ => Spared d₀) (fun _ => Spared d₀) := by
  have hpick : ∀ a d d', Cleared a isTmp d d' → Spared d d' := fun a d d' h => h.spared fun _ _ htmp => htmp
  have htrash : ∀ d d', Cleared .trash (fun _ => true) d d' → Spared d d' := fun d d' h => h.spared fun hmem =>
    absurd hmem (by decide)
  have hsweep : ∀ a, (a != Area.corrupt) = true → ∀ d₁, Spared d₀ d₁ →
      Job.Keeps exec rough W (· = d₁) (sweep a) (fun _ => Spared d₀) (fun _ => Spared d₀) := by
    intro a ha d₁ h₁
    exact (sweep_rough ha fun d h => hW d (h₁.trans (hpick a d₁ d h))).conseq (fun _ h => h)
      (fun _ d h => h₁.trans (hpick a d₁ d h)) fun _ d h => h₁.trans (hpick a d₁ d h)
  refine Job.Keeps.bind (hsweep .state rfl d₀ fun _ _ _ _ => rfl) fun _ => Job.Keeps.each fun d₁ h₁ => ?_
  refine Job.Keeps.bind (hsweep .run rfl d₁ h₁) fun _ => Job.Keeps.each fun d₂ h₂ => ?_
  exact (purgeTrash_rough fun d h => hW d (h₂.trans (htrash d₂ d h))).conseq (fun _ h => h)
    (fun _ d h => h₂.trans (htrash d₂ d h)) fun _ d h => h₂.trans (htrash d₂ d h)

end Rough

/-! ## What an operation leaves -/

/-- What an operation may have done wherever it is cut off. -/
inductive Op.Did (d d' : Files) : Op → Prop
  | changed {c : Change} (h : Midway c d d') : Op.Did d d' (.change c)
  | kept {op : Op} (h : SameSpecs d d') : Op.Did d d' op

theorem Op.did (op : Op) {d₀ : Files} (hd₀ : Sound d₀) (hcurrent : ¬ Newer d₀) :
    Job.Always exec (op.hazard d₀) (op.Did d₀) op.work d₀ := by
  have hrough : ∀ {W P : Files → Prop} {Q : Unit → Files → Prop} {E : Error → Files → Prop},
      Job.Keeps exec rough W P op.work Q E → Job.Keeps exec (op.hazard d₀) W P op.work Q E :=
    fun h => h.within (C := fun _ => True) (Job.asks_true _) fun _ _ _ _ => rough_of_hazard
  have hplain : ∀ {W P : Files → Prop} {Q : Unit → Files → Prop} {E : Error → Files → Prop},
      Job.Keeps exec (may true) W P op.work Q E → Plain op.work → Job.Keeps exec (op.hazard d₀) W P op.work Q E :=
    fun h hjob => hrough (plain_rough h hjob)
  have hkept : ∀ {Q : Unit → Files → Prop} {E : Error → Files → Prop},
      Job.Keeps exec (op.hazard d₀) (SameSpecs d₀) (· = d₀) op.work Q E →
      Job.Always exec (op.hazard d₀) (op.Did d₀) op.work d₀ :=
    fun h rest d hgo => .kept (h.always rfl (.refl d₀) rest d hgo)
  cases op with
  | change c =>
    have hstart : Midway c d₀ d₀ := (Quiet.refl d₀).midway
    have hchanged : ∀ {Q : Unit → Files → Prop} {E : Error → Files → Prop},
        Job.Keeps exec ((Op.change c).hazard d₀) (Midway c d₀) (· = d₀) c.work Q E →
        Job.Always exec ((Op.change c).hazard d₀) ((Op.change c).Did d₀) c.work d₀ :=
      fun h rest d hgo => .changed (h.always rfl hstart rest d hgo)
    cases c with
    | create spec =>
      by_cases htakes : Takes d₀ (.change (.create spec))
      · refine hchanged ((create_keeps (b := true) spec hd₀).within (C := fun _ => True) (Job.asks_true _) ?_)
        exact fun _ _ _ _ hw e he => ⟨rfl, (hw e he).2 htakes, (hw e he).1⟩
      · exact hchanged (hrough (create_rough hd₀ hcurrent htakes))
    | update spec => exact hchanged (hplain update_keeps (plain_update spec))
    | remove id =>
      exact hchanged (hplain (remove_keeps (hd₀.once id.display (visible_display id))) (plain_remove id))
  | writeRuntime id json => exact hkept (hplain (writeRuntime_keeps id json) (plain_writeRuntime id json))
  | clearRuntime id => exact hkept (hplain (clearRuntime_keeps id) (plain_clearRuntime id))
  | purgeTrash =>
    refine hkept (hrough (purgeTrash_rough fun d hd => ?_))
    exact (hd.spared fun h => absurd h (by decide)).sameSpecs
  | recover => exact hkept (hrough (recover_rough fun d hd => hd.sameSpecs))
  | loadAll =>
    have hload : Job.Keeps exec rough (SameSpecs d₀) (· = d₀) loadAll.work (fun _ d => d = d₀) (fun _ d => d = d₀) :=
      Job.Keeps.bind (loadAll_rough hd₀ (.refl d₀)) fun _ => Job.Keeps.pure fun _ hd => hd
    exact hkept (hrough hload)

/-! ## Listings in which nothing fails -/

/-- What `load_all` returns when nothing fails. -/
def loaded (d : Files) : Result (List Spec) := (Job.finish exec .fine loadAll d).1

/-- `load_all` may return this, the directories listed in any order. -/
def Loads (d : Files) (r : Result (List Spec)) : Prop := ∃ d', Job.Goes exec (may false) loadAll d (.done r) d'

/-- A run in which nothing fails. -/
theorem goes_fine {α : Type} (b : Bool) (work : Work α) (d : Files) :
    Job.Goes exec (may b) work d (.done (Job.finish exec .fine work d).1) (Job.finish exec .fine work d).2 :=
  Job.goes_finish (may_fine b) work d

theorem loads_loaded (d : Files) : Loads d (loaded d) := ⟨_, goes_fine false loadAll d⟩

theorem Loads.full {d : Files} (hd : Sound d) {l : List Spec} (h : Loads d (.ok l)) : FullList d l := by
  obtain ⟨d', hgo⟩ := h
  have hkeeps := loadAll_keeps (b := false) (W := fun _ => True) hd trivial
  exact (hkeeps.ok rfl hgo).2

theorem Loads.newer {d : Files} (hd : Sound d) {e : Error} (h : Loads d (.error e)) : Newer d := by
  obtain ⟨d', hgo⟩ := h
  have hkeeps := loadAll_keeps (b := false) (W := fun _ => True) hd trivial
  exact (hkeeps.failed rfl hgo).2.resolve_left Bool.false_ne_true

theorem newer_congr {d d' : Files} (h : SameSpecs d d') : Newer d' ↔ Newer d :=
  exists_congr fun s => and_congr_left fun _ => listed_congr h s

def webSpec : Spec := Spec.new 42 7 "web" (.oci "sha256:aa" ["sha256:bb"]) ["/bin/web"]

end Collocate.Store
