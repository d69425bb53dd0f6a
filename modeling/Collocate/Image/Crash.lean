import Collocate.Image.Identity

/-! # Layer directories after a crash

Whoever finds a layer directory uses it. `store_layer_from_blob` extracts to a hidden directory and
renames it; `commit_upper_to_store` extracts to the directory itself, so what it shows on the way is
what a crash leaves. -/
namespace Collocate.Image
set_option autoImplicit false

variable {Tree : Type} {x : Env Tree}

/-- Every visible child is the complete layer that its name says. -/
def Whole (x : Env Tree) (d : Disk Tree) : Prop :=
  ∀ name, hidden name = false → d.layers.contains name = true → CompleteAt x d name

theorem Whole.grows {d d' : Disk Tree} (h : Whole x d) (hgrows : Grows x d d') : Whole x d' := by
  intro name hname hthere
  rcases hgrows name hname with hsame | hcomplete
  · refine (h name hname ?_).of_eq hsame
    unfold OrdMap.contains at hthere ⊢
    rw [← hsame]
    exact hthere
  · exact hcomplete

/-- The functions that make layer directories. -/
inductive Producer
  | store (blob : Option Stream) (diffId : String) (compression : LayerCompression) (mode : WhiteoutMode)
  | commit (random : String) (tar : Result (List UInt8))

def Producer.job (x : Env Tree) : Producer → Work Tree Unit
  | .store blob diffId compression mode => storeLayerFromBlob x blob diffId compression mode
  | .commit random tar => do
    let _ ← commitUpperToStore x (".tmp-commit-" ++ random) tar
    pure ()

/-- A call that stays in `layers/`: no path and no whiteout leads out of it, what an earlier attempt left is removed,
and a directory can be looked for. -/
def Contained (op : Op Tree) (w : Fate Tree) (d : Disk Tree) : Prop :=
  Obliging op w d ∧ op.stray = false ∧ ¬ Escapes op d

/-- Wherever the function fails or is cut off, the layer directories are whole. -/
def CrashSafe (x : Env Tree) (p : Producer) (d : Disk Tree) : Prop :=
  Job.Always (exec x) Contained (Whole x) (p.job x) d

/-- The directories that the steps of an extraction pass through all satisfy `P`. -/
def Passes (P : Tree → Prop) : List (Tree → Outcome Tree) → Tree → Prop
  | [], tree => P tree
  | f :: rest, tree => P tree ∧ match f tree with
    | .next tree' => Passes P rest tree'
    | .fail tree' _ => P tree'
    | .escape => True

/-- A commit has no tar archive to extract, finds the layer there, or passes through complete layers only. -/
def Producer.Careful (x : Env Tree) (d : Disk Tree) : Producer → Prop
  | .store .. => True
  | .commit _ (.error _) => True
  | .commit _ (.ok bytes) => d.layers.contains (dashed (x.digestOf bytes)) = true ∨
    Passes (fun tree => Complete x (x.digestOf bytes) (.dir tree)) (x.script x.mode (maybeGunzip x ⟨bytes, none⟩))
      x.empty

theorem Passes.head {P : Tree → Prop} {steps : List (Tree → Outcome Tree)} {tree : Tree} (h : Passes P steps tree) :
    P tree := by
  cases steps with
  | nil => exact h
  | cons f rest => exact h.1

/-! ## Enough -/

/-- A job on its own, which may be cut off: what is whole stays so. -/
def crashing (x : Env Tree) : Setting x (Disk Tree) :=
  solo x Contained (fun d d' => Whole x d → Whole x d') (fun _ => False) (fun _ _ _ h => h.1)
    (fun _ _ _ _ hmoves hwhole => hwhole.grows hmoves.grows)
    (fun _ _ _ h hstray => absurd hstray (not_or.mpr ⟨by rw [h.2.1]; exact nofun, h.2.2⟩)) fun _ _ _ _ h => h.elim

theorem store_crashSafe {blob : Option Stream} {l : String} {compression : LayerCompression} {mode : WhiteoutMode}
    {d : Disk Tree} (hwhole : Whole x d) : CrashSafe x (.store blob l compression mode) d := by
  have hkept : (crashing x).Kept fun _ => True := ⟨fun _ _ _ _ => trivial, fun _ _ _ _ => trivial⟩
  exact Job.Safe.always (crashing x).refl (fun _ _ hG => hG) (Setting.storeLayer_spec hkept d trivial) hwhole

theorem eq_stable (P : Disk Tree → Prop) : Job.Stable (crashing x).R P := fun _ _ hs h => h ▸ hs

/-- The layer `l` is there or not, as `there` says. -/
def Awaits (x : Env Tree) (l : String) (there : Bool) (d : Disk Tree) : Prop :=
  Whole x d ∧ d.layers.contains (dashed l) = there

theorem within_awaits {n l : String} {there : Bool} {d d' : Disk Tree} (h : Within n d d') (hn : hidden n = true)
    (hl : DigestShaped l) (hs : Awaits x l there d) : Awaits x l there d' := by
  have hvisible : ∀ m, hidden m = false → d'.layers.get? m = d.layers.get? m := by
    intro m hm
    refine h.other m ?_
    rintro rfl
    rw [hn] at hm
    cases hm
  refine ⟨hs.1.grows fun m hm => Or.inl (hvisible m hm), ?_⟩
  rw [← hs.2]
  unfold OrdMap.contains
  rw [hvisible _ (visible_shaped hl)]

theorem within_makeFile (name : String) (w : Fate Tree) (d : Disk Tree) :
    Within name d (exec x (.makeFile name) w d).2 :=
  within_attempted fun m hm => by rw [OrdMap.get?_insert, if_neg hm]

theorem within_removeFile (name : String) (w : Fate Tree) (d : Disk Tree) :
    Within name d (exec x (.removeFile name) w d).2 :=
  within_attempted fun m hm => by rw [OrdMap.get?_erase, if_neg hm]

section Commit
variable {l : String}

/-- The child of the layer `l` is the directory `tree`, and all else is whole. -/
def Shows (x : Env Tree) (l : String) (tree : Tree) (d : Disk Tree) : Prop :=
  d.layers.get? (dashed l) = some (.dir tree) ∧ ∀ name, hidden name = false → name ≠ dashed l →
    d.layers.contains name = true → CompleteAt x d name

theorem Shows.whole {tree : Tree} {d : Disk Tree} (h : Shows x l tree d) (hcomplete : Complete x l (.dir tree)) :
    Whole x d := by
  intro name hname hthere
  by_cases hl : name = dashed l
  · exact ⟨l, _, hl.symm, hl ▸ h.1, hcomplete⟩
  · exact h.2 name hname hl hthere

theorem Shows.complete {tree : Tree} {d : Disk Tree} (h : Shows x l tree d) (hl : DigestShaped l) (hwhole : Whole x d) :
    Complete x l (.dir tree) := by
  have hthere : d.layers.contains (dashed l) = true := by
    unfold OrdMap.contains
    rw [h.1]
    rfl
  obtain ⟨l', node, heq, hget, hcomplete⟩ := hwhole _ (visible_shaped hl) hthere
  obtain rfl := dashed_inj hcomplete.shaped hl heq
  rw [h.1] at hget
  cases hget
  exact hcomplete

/-- Only the child of the layer changes. -/
theorem Shows.of_within {tree : Tree} {d d' : Disk Tree} (h : Within (dashed l) d d')
    (hget : d'.layers.get? (dashed l) = some (.dir tree)) (hrest : ∀ name, hidden name = false → name ≠ dashed l →
      d.layers.contains name = true → CompleteAt x d name) : Shows x l tree d' := by
  refine ⟨hget, fun name hname hne hthere => (hrest name hname hne ?_).of_eq (h.other name hne)⟩
  unfold OrdMap.contains at hthere ⊢
  rw [← h.other name hne]
  exact hthere

/-- One step of the extraction: it is refused, leaves a directory and fails, or goes on. -/
theorem edit_shows {tree : Tree} {d : Disk Tree} {f : Tree → Outcome Tree} {w : Fate Tree} (h : Shows x l tree d)
    (hesc : ¬ Escapes (.edit (.child (dashed l)) f) d) :
    (∃ e, w = .broken e ∧ exec x (.edit (.child (dashed l)) f) w d = (.error (.io e), d)) ∨
      (∃ tree' e d', f tree = .fail tree' e ∧ exec x (.edit (.child (dashed l)) f) w d = (.error e, d') ∧
        Shows x l tree' d') ∨
      ∃ tree' d', f tree = .next tree' ∧ exec x (.edit (.child (dashed l)) f) w d = (.ok (), d') ∧
        Shows x l tree' d' := by
  have hwithin : Within (dashed l) d (exec x (.edit (.child (dashed l)) f) w d).2 :=
    within_of_worksIn (.inr (.inl ⟨f, rfl⟩)) hesc
  have hshows : ∀ tree', (exec x (.edit (.child (dashed l)) f) w d).2.layers.get? (dashed l) = some (.dir tree') →
      Shows x l tree' (exec x (.edit (.child (dashed l)) f) w d).2 := fun tree' hget => .of_within hwithin hget h.2
  by_cases hw : ∃ e, w = .broken e
  · obtain ⟨e, rfl⟩ := hw
    exact Or.inl ⟨e, rfl, rfl⟩
  · have hexec : exec x (.edit (.child (dashed l)) f) w d =
        ((doEdit w (dashed l) f d.layers).1, { d with layers := (doEdit w (dashed l) f d.layers).2 }) :=
      attempted_fine (fun e he => hw ⟨e, he⟩) d _
    refine Or.inr ?_
    cases hf : f tree with
    | next tree' =>
      have hdo : doEdit w (dashed l) f d.layers = (.ok (), d.layers.insert (dashed l) (.dir tree')) := by
        unfold doEdit
        rw [h.1]
        dsimp only
        rw [hf]
      rw [hdo] at hexec
      refine Or.inr ⟨tree', _, rfl, hexec, ?_⟩
      have hget := hshows tree'
      rw [hexec] at hget
      exact hget (by rw [OrdMap.get?_insert, if_pos rfl])
    | fail tree' e =>
      have hdo : doEdit w (dashed l) f d.layers = (.error e, d.layers.insert (dashed l) (.dir tree')) := by
        unfold doEdit
        rw [h.1]
        dsimp only
        rw [hf]
      rw [hdo] at hexec
      refine Or.inl ⟨tree', e, _, rfl, hexec, ?_⟩
      have hget := hshows tree'
      rw [hexec] at hget
      exact hget (by rw [OrdMap.get?_insert, if_pos rfl])
    | escape => exact absurd ⟨_, f, tree, rfl, h.1, hf⟩ hesc

/-- The extraction to a directory that everybody sees. -/
theorem edits_spec (steps : List (Tree → Outcome Tree)) :
    (crashing x).Spec
      (fun s => Whole x s ∧ ∃ tree, Shows x l tree s ∧ Passes (fun tree => Complete x l (.dir tree)) steps tree)
      (steps.forM fun f => must (.edit (.child (dashed l)) f) rfl) (fun _ => Whole x) (fun _ => Whole x) := by
  refine (Job.Spec.forM (crashing x).refl
    (J := fun rest s =>
      Whole x s ∧ ∃ tree, Shows x l tree s ∧ Passes (fun tree => Complete x l (.dir tree)) rest tree)
    (eq_stable _) steps ?_).conseq (fun _ hs => hs) (fun _ _ hs => hs.1) fun _ _ hs => hs
  intro f rest
  refine Setting.must_spec (eq_stable _) (eq_stable _) (fun _ => eq_stable _) ?_
  rintro s w ⟨hwhole, tree, hshows, hpasses⟩ ⟨-, -, hesc⟩
  show (_ → Whole x (exec x (.edit (.child (dashed l)) f) w s).2) ∧
    (∀ u, (exec x (.edit (.child (dashed l)) f) w s).1 = .ok u → _) ∧
    ∀ e, (exec x (.edit (.child (dashed l)) f) w s).1 = .error e → Whole x (exec x (.edit (.child (dashed l)) f) w s).2
  rcases edit_shows (w := w) hshows hesc with ⟨e, -, hexec⟩ | ⟨tree', e, d', hf, hexec, hshows'⟩ |
    ⟨tree', d', hf, hexec, hshows'⟩
  · rw [hexec]
    exact ⟨fun _ => hwhole, nofun, fun _ _ => hwhole⟩
  · have hcomplete : Complete x l (.dir tree') := by
      have htail := hpasses.2
      rw [hf] at htail
      exact htail
    rw [hexec]
    exact ⟨fun _ => hshows'.whole hcomplete, nofun, fun _ _ => hshows'.whole hcomplete⟩
  · have htail : Passes (fun tree => Complete x l (.dir tree)) rest tree' := by
      have htail := hpasses.2
      rw [hf] at htail
      exact htail
    have hwhole' := hshows'.whole htail.head
    refine ⟨fun _ => by rw [hexec]; exact hwhole', fun _ _ => ?_, fun e he => ?_⟩
    · show Whole x (exec x (.edit (.child (dashed l)) f) w s).2 ∧ ∃ tree,
        Shows x l tree (exec x (.edit (.child (dashed l)) f) w s).2 ∧
          Passes (fun tree => Complete x l (.dir tree)) rest tree
      rw [hexec]
      exact ⟨hwhole', tree', hshows', htail⟩
    · rw [hexec] at he
      cases he

theorem get?_of_contains {layers : OrdMap String (Node Tree)} {name : String} (h : layers.contains name = false) :
    layers.get? name = none :=
  Option.isNone_iff_eq_none.mp (Option.isSome_eq_false_iff.mp h)

/-- The directory is made where there is none. -/
theorem makeDir_shows {d : Disk Tree} {w : Fate Tree} (h : Awaits x l false d) :
    (∃ e, w = .broken e ∧ exec x (.makeDir (.child (dashed l))) w d = (.error (.io e), d)) ∨
      ∃ d', exec x (.makeDir (.child (dashed l))) w d = (.ok (), d') ∧ Shows x l x.empty d' := by
  by_cases hw : ∃ e, w = .broken e
  · obtain ⟨e, rfl⟩ := hw
    exact Or.inl ⟨e, rfl, rfl⟩
  · have hwithin : Within (dashed l) d (exec x (.makeDir (.child (dashed l))) w d).2 :=
      within_of_worksIn (.inl rfl) (by rintro ⟨_, _, _, heq, _⟩; cases heq)
    have hdo : doMakeDir x (dashed l) d.layers = (.ok (), d.layers.insert (dashed l) (.dir x.empty)) := by
      unfold doMakeDir
      rw [get?_of_contains h.2]
    have hexec : exec x (.makeDir (.child (dashed l))) w d =
        ((doMakeDir x (dashed l) d.layers).1, { d with layers := (doMakeDir x (dashed l) d.layers).2 }) :=
      attempted_fine (fun e he => hw ⟨e, he⟩) d _
    rw [hdo] at hexec
    rw [hexec] at hwithin ⊢
    refine Or.inr ⟨_, rfl, .of_within hwithin ?_ fun name hname _ => h.1 name hname⟩
    rw [OrdMap.get?_insert, if_pos rfl]

theorem extract_spec (hl : DigestShaped l) {stream : Stream} {mode : WhiteoutMode}
    (hpasses : Passes (fun tree => Complete x l (.dir tree)) (x.script mode stream) x.empty) :
    (crashing x).Spec (Awaits x l false) (extractLayer x stream (layerDir l) mode) (fun _ => Whole x)
      (fun _ => Whole x) := by
  rw [layerDir_shaped hl]
  refine Job.Spec.bind (crashing x).refl (Setting.must_spec (eq_stable _) (eq_stable _) (fun _ => eq_stable _) ?_)
    fun _ =>
    edits_spec _
  intro s w hs _
  show (_ → Whole x (exec x (.makeDir (.child (dashed l))) w s).2) ∧
    (∀ u, (exec x (.makeDir (.child (dashed l))) w s).1 = .ok u →
      Whole x (exec x (.makeDir (.child (dashed l))) w s).2 ∧
      ∃ tree, Shows x l tree (exec x (.makeDir (.child (dashed l))) w s).2 ∧ _) ∧
    ∀ e, (exec x (.makeDir (.child (dashed l))) w s).1 = .error e →
      Whole x (exec x (.makeDir (.child (dashed l))) w s).2
  rcases makeDir_shows (w := w) hs with ⟨e, -, hexec⟩ | ⟨d', hexec, hshows⟩
  · rw [hexec]
    exact ⟨fun _ => hs.1, nofun, fun _ _ => hs.1⟩
  · have hwhole := hshows.whole hpasses.head
    rw [hexec]
    exact ⟨fun _ => hwhole, fun _ _ => ⟨hwhole, x.empty, hshows, hpasses⟩, fun _ _ => hwhole⟩

/-- A call that changes at most a hidden child. -/
theorem must_awaits {op : Op Tree} {h : op.Ans = Result Unit} {n : String} {there : Bool} (hn : hidden n = true)
    (hl : DigestShaped l) (hwithin : ∀ w d, Within n d (exec x op w d).2) :
    (crashing x).Spec (Awaits x l there) (must op h) (fun _ => Awaits x l there) (fun _ => Whole x) := by
  refine Setting.must_spec (eq_stable _) (eq_stable _) (fun _ => eq_stable _) fun s w hs _ => ?_
  have hs' : Awaits x l there ((crashing x).run op w s).2 := within_awaits (hwithin w s) hn hl hs
  exact ⟨fun _ => hs'.1, fun _ _ => hs', fun _ _ => hs'.1⟩

theorem within_of_eq (n : String) {d d' : Disk Tree} (h : d' = d) : Within n d d' := ⟨fun _ _ => h ▸ rfl, h ▸ rfl⟩

theorem hidden_commit (random : String) : hidden (".tmp-commit-" ++ random) = true := by
  have h := hidden_staging ("commit-" ++ random)
  rw [← String.append_assoc] at h
  exact h

theorem commit_spec (random : String) {bytes : List UInt8} {there : Bool}
    (h : there = true ∨ Passes (fun tree => Complete x (x.digestOf bytes) (.dir tree))
      (x.script x.mode (maybeGunzip x ⟨bytes, none⟩)) x.empty) :
    (crashing x).Spec (Awaits x (x.digestOf bytes) there) (commitUpperToStore x (".tmp-commit-" ++ random) (.ok bytes))
      (fun _ => Whole x) (fun _ => Whole x) := by
  have hl := digestOf_shaped x bytes
  have hn := hidden_commit random
  have hend : (crashing x).Spec (Whole x) (do
      let _ ← Job.attempt (must (.removeFile (".tmp-commit-" ++ random) : Op Tree) rfl)
      pure (x.digestOf bytes)) (fun _ => Whole x) (fun _ => Whole x) := by
    refine Job.Spec.bind (crashing x).refl (Q := fun _ => Whole x) (Job.Spec.attempt ?_) fun _ =>
      Job.Spec.pure (eq_stable _) fun _ hs => hs
    refine Setting.must_spec (eq_stable _) (eq_stable _) (fun _ => eq_stable _) fun s w hs _ => ?_
    have hs' := within_awaits (within_removeFile (x := x) _ w s) hn hl ⟨hs, rfl⟩
    exact ⟨fun _ => hs'.1, fun _ _ => hs'.1, fun _ _ => hs'.1⟩
  unfold commitUpperToStore
  refine Job.Spec.bind (crashing x).refl
    (must_awaits hn hl fun w d => within_of_eq _ (Setting.exec_makeLayers w d)) fun _ => ?_
  refine Job.Spec.bind (crashing x).refl (must_awaits hn hl (within_makeFile _)) fun _ => ?_
  rw [Job.lift_ok_bind]
  dsimp only
  refine Job.Spec.bind (crashing x).refl (Q := fun b s => Awaits x (x.digestOf bytes) there s ∧ b = there)
    (Job.Spec.ask (eq_stable _) (fun _ => eq_stable _) fun s w hs hmay => ?_) fun b => Setting.of_pure fun hb => ?_
  · show (_ → Whole x (exec x (.pathExists (layerDir (x.digestOf bytes))) w s).2) ∧
      Awaits x (x.digestOf bytes) there (exec x (.pathExists (layerDir (x.digestOf bytes))) w s).2 ∧
        (exec x (.pathExists (layerDir (x.digestOf bytes))) w s).1 = there
    rw [Setting.exec_pathExists hmay.1, layerDir_shaped hl]
    exact ⟨fun _ => hs.1, hs, hs.2⟩
  · subst hb
    cases b with
    | true => exact hend.pre fun s hs => hs.1
    | false =>
      refine Job.Spec.bind (crashing x).refl
        (must_awaits hn hl fun w d => within_of_eq _ (Setting.exec_own w d)) fun _ => ?_
      exact Job.Spec.bind (crashing x).refl (extract_spec hl (h.resolve_left nofun)) fun _ => hend

theorem commit_failed (random : String) (e : Error) :
    (crashing x).Spec (Whole x) (commitUpperToStore x (".tmp-commit-" ++ random) (.error e)) (fun _ => Whole x)
      (fun _ => Whole x) := by
  have hl := digestOf_shaped x []
  have hn := hidden_commit random
  have hstep : ∀ (op : Op Tree) (h : op.Ans = Result Unit),
    (∀ w d, Within (".tmp-commit-" ++ random) d (exec x op w d).2) →
      (crashing x).Spec (Whole x) (must op h) (fun _ => Whole x) (fun _ => Whole x) := by
    intro op h hwithin
    refine Setting.must_spec (eq_stable _) (eq_stable _) (fun _ => eq_stable _) fun s w hs _ => ?_
    have hs' : Whole x ((crashing x).run op w s).2 := (within_awaits (hwithin w s) hn hl ⟨hs, rfl⟩).1
    exact ⟨fun _ => hs', fun _ _ => hs', fun _ _ => hs'⟩
  unfold commitUpperToStore
  refine Job.Spec.bind (crashing x).refl (hstep _ _ fun w d => within_of_eq _ (Setting.exec_makeLayers w d)) fun _ => ?_
  refine Job.Spec.bind (crashing x).refl (hstep _ _ (within_makeFile _)) fun _ => ?_
  rw [Job.lift_error_bind]
  exact Job.Spec.throw (eq_stable _) fun _ hs => hs

/-! ## Needed -/

/-- A call that succeeds, and what comes after it. -/
theorem always_must {α β : Type} {op : Op Tree} {h : op.Ans = Result Unit} {f : Unit → Work Tree α}
    {k : α → Work Tree β}
    {d : Disk Tree} (halways : Job.Always (exec x) Contained (Whole x) ((must op h >>= f) >>= k) d)
    (hmay : Contained op .fine d) (hok : cast h (exec x op .fine d).1 = .ok ()) :
    Job.Always (exec x) Contained (Whole x) (f () >>= k) (exec x op .fine d).2 := by
  have hnext := Job.Always.ask (f := fun a => ((Job.lift (cast h a) : Work Tree Unit) >>= f) >>= k) halways hmay
  rw [hok] at hnext
  exact hnext

theorem contained_fine {op : Op Tree} {d : Disk Tree} (hstray : op.stray = false) (hesc : ¬ Escapes op d) :
    Contained op .fine d := by
  refine ⟨?_, hstray, hesc⟩
  unfold Obliging
  split <;> first | trivial | exact nofun

theorem not_escapes {op : Op Tree} {d : Disk Tree} (h : ∀ n f, op ≠ .edit (.child n) f) : ¬ Escapes op d := by
  rintro ⟨n, f, _, heq, _⟩
  exact h n f heq

/-- What a cut shows of an extraction is what its steps pass through. -/
theorem passes_of_always {α : Type} {k : Unit → Work Tree α} (hl : DigestShaped l) (steps : List (Tree → Outcome Tree))
    {tree : Tree} {d : Disk Tree} (hshows : Shows x l tree d) (halways : Job.Always (exec x) Contained (Whole x)
      ((steps.forM fun f => must (.edit (.child (dashed l)) f) rfl) >>= k) d) :
    Passes (fun tree => Complete x l (.dir tree)) steps tree := by
  induction steps generalizing tree d with
  | nil => exact hshows.complete hl halways.now
  | cons f rest ih =>
    refine ⟨hshows.complete hl halways.now, ?_⟩
    by_cases hescape : f tree = .escape
    · rw [hescape]
      trivial
    · have hesc : ¬ Escapes (.edit (.child (dashed l)) f) d := by
        rintro ⟨_, _, _, heq, hget, hf⟩
        cases heq
        rw [hshows.1] at hget
        cases hget
        exact hescape hf
      have hnext := Job.Always.ask
        (f := fun a => ((Job.lift a : Work Tree Unit) >>= fun _ =>
          rest.forM fun f => must (.edit (.child (dashed l)) f) rfl) >>= k) halways (contained_fine rfl hesc)
      rcases edit_shows (w := .fine) hshows hesc with ⟨_, hw, _⟩ | ⟨tree', e, d', hf, hexec, hshows'⟩ |
        ⟨tree', d', hf, hexec, hshows'⟩
      · cases hw
      · rw [hexec] at hnext
        rw [hf]
        exact hshows'.complete hl hnext.now
      · rw [hexec] at hnext
        rw [hf]
        exact ih hshows' hnext

/-- A commit that a cut never shows halfway finds the layer, or passes through complete layers only. -/
theorem careful_of_commit {random : String} {bytes : List UInt8} {d : Disk Tree}
    (h : CrashSafe x (.commit random (.ok bytes)) d) : (Producer.commit random (.ok bytes)).Careful x d := by
  have hl := digestOf_shaped x bytes
  have hn := hidden_commit random
  have hwhole : Whole x d := h.now
  by_cases hthere : d.layers.contains (dashed (x.digestOf bytes)) = true
  · exact Or.inl hthere
  · refine Or.inr ?_
    have hawaits : Awaits x (x.digestOf bytes) false (exec x (.makeFile (".tmp-commit-" ++ random)) .fine d).2 :=
      within_awaits (within_makeFile _ _ _) hn hl ⟨hwhole, Bool.not_eq_true _ ▸ hthere⟩
    have hstart := always_must h (contained_fine rfl (not_escapes nofun)) rfl
    rw [Setting.exec_makeLayers] at hstart
    have hfile := always_must hstart (contained_fine rfl (not_escapes nofun)) rfl
    have hlook := Job.Always.ask (w := .fine) hfile
      (contained_fine (by cases layerDir (x.digestOf bytes) <;> rfl) (not_escapes nofun))
    rw [Setting.exec_pathExists (fun e he => by cases he), layerDir_shaped hl] at hlook
    dsimp only [present] at hlook
    rw [hawaits.2] at hlook
    have hopen := always_must hlook (contained_fine rfl (not_escapes nofun)) rfl
    rw [Setting.exec_own] at hopen
    rcases makeDir_shows (w := .fine) hawaits with ⟨_, hw, _⟩ | ⟨d', hexec, hshows⟩
    · cases hw
    · have hmade := Job.Always.ask (w := .fine) hopen
        (contained_fine rfl (not_escapes nofun))
      rw [hexec] at hmade
      have hrest : Job.Always (exec x) Contained (Whole x)
        (((x.script x.mode (maybeGunzip x ⟨bytes, none⟩)).forM fun f =>
          must (.edit (.child (dashed (x.digestOf bytes))) f) rfl) >>= fun _ =>
            (Job.attempt (must (.removeFile (".tmp-commit-" ++ random) : Op Tree) rfl) >>= fun _ =>
              (pure (x.digestOf bytes) : Work Tree String)) >>= fun _ => (pure () : Work Tree Unit)) d' := by
        rw [← Job.bind_assoc_eq]
        exact hmade
      exact passes_of_always hl _ hshows hrest

/-- A commit that passes through complete layers only is not seen halfway. -/
theorem commit_crashSafe {random : String} {bytes : List UInt8} {d : Disk Tree} (hwhole : Whole x d)
    (h : (Producer.commit random (.ok bytes)).Careful x d) : CrashSafe x (.commit random (.ok bytes)) d := by
  have hspec := Job.Spec.bind (crashing x).refl (commit_spec (x := x) random h) fun _ =>
    Job.Spec.pure (a := ()) (Q := fun _ => Whole x) (eq_stable _) fun _ hs => hs
  exact Job.Safe.always (crashing x).refl (fun _ _ hG => hG) (hspec d ⟨hwhole, rfl⟩) hwhole

/-- The first thing that a cut shows is an empty directory. -/
theorem complete_of_commit {random : String} {bytes : List UInt8} {d : Disk Tree}
    (h : CrashSafe x (.commit random (.ok bytes)) d)
    (hmissing : d.layers.contains (dashed (x.digestOf bytes)) = false) :
    Complete x (x.digestOf bytes) (.dir x.empty) := by
  rcases careful_of_commit h with hthere | hpasses
  · rw [hmissing] at hthere
    cases hthere
  · exact hpasses.head

end Commit

/-- A function that makes layer directories leaves whole ones, wherever it fails or is cut off, exactly when it is not
a commit that shows its extraction on the way. -/
theorem crashSafe_iff (x : Env Tree) (p : Producer) (d : Disk Tree) (hwhole : Whole x d) :
    CrashSafe x p d ↔ p.Careful x d := by
  cases p with
  | store blob l compression mode => exact ⟨fun _ => trivial, fun _ => store_crashSafe hwhole⟩
  | commit random tar =>
    cases tar with
    | error e =>
      refine ⟨fun _ => trivial, fun _ => ?_⟩
      have hspec := Job.Spec.bind (crashing x).refl (commit_failed (x := x) random e) fun _ =>
        Job.Spec.pure (a := ()) (Q := fun _ => Whole x) (eq_stable _) fun _ hs => hs
      exact Job.Safe.always (crashing x).refl (fun _ _ hG => hG) (hspec d hwhole) hwhole
    | ok bytes => exact ⟨careful_of_commit, commit_crashSafe hwhole⟩

/-- Where the archive has one complete directory, the steps pass through that one only if they leave the empty directory
empty. -/
theorem passes_empty {l : String} {steps : List (Tree → Outcome Tree)} {tree : Tree}
    (hone : ∀ tree', Complete x l (.dir tree') ↔ tree' = x.empty) (happlied : applied steps x.empty = some tree) :
    Passes (fun tree => Complete x l (.dir tree)) steps x.empty ↔ ∀ f ∈ steps, f x.empty = .next x.empty := by
  induction steps with
  | nil => exact ⟨fun _ _ hf => absurd hf List.not_mem_nil, fun _ => (hone _).mpr rfl⟩
  | cons f rest ih =>
    unfold applied at happlied
    unfold Passes
    rw [List.forall_mem_cons]
    cases hstep : f x.empty with
    | next tree' =>
      rw [hstep] at happlied
      constructor
      · rintro ⟨-, hrest⟩
        obtain rfl := (hone tree').mp hrest.head
        exact ⟨rfl, (ih happlied).mp hrest⟩
      · rintro ⟨hkept, hrest⟩
        cases hkept
        exact ⟨(hone _).mpr rfl, (ih happlied).mpr hrest⟩
    | fail tree' e =>
      rw [hstep] at happlied
      cases happlied
    | escape =>
      rw [hstep] at happlied
      cases happlied

/-- A commit of a layer that is not there yet, from an archive that can be extracted and has one complete directory: a
cut never shows it halfway exactly when the whole extraction leaves the directory empty. -/
theorem commit_crashSafe_iff {random : String} {bytes : List UInt8} {d : Disk Tree} {tree : Tree} (hwhole : Whole x d)
    (hmissing : d.layers.contains (dashed (x.digestOf bytes)) = false)
    (hplain : maybeGunzip x ⟨bytes, none⟩ = ⟨bytes, none⟩) (hextracts : Extracts x x.mode ⟨bytes, none⟩ tree)
    (hone : ∀ tree', Complete x (x.digestOf bytes) (.dir tree') → tree' = tree) :
    CrashSafe x (.commit random (.ok bytes)) d ↔
      ∀ f ∈ x.script x.mode ⟨bytes, none⟩, f x.empty = .next x.empty := by
  have hcomplete : Complete x (x.digestOf bytes) (.dir tree) := ⟨x.mode, ⟨bytes, none⟩, tree, rfl, rfl, hextracts⟩
  have hkept {steps : List (Tree → Outcome Tree)} (hall : ∀ f ∈ steps, f x.empty = .next x.empty) :
      applied steps x.empty = some x.empty := by
    induction steps with
    | nil => rfl
    | cons f rest ih =>
      obtain ⟨hf, hrest⟩ := List.forall_mem_cons.mp hall
      unfold applied
      rw [hf]
      exact ih hrest
  have hiff (hempty : x.empty = tree) :
      Passes (fun tree => Complete x (x.digestOf bytes) (.dir tree)) (x.script x.mode ⟨bytes, none⟩) x.empty ↔
        ∀ f ∈ x.script x.mode ⟨bytes, none⟩, f x.empty = .next x.empty := by
    refine passes_empty (fun tree' => ⟨fun h => (hone tree' h).trans hempty.symm, fun h => ?_⟩) hextracts
    rw [h, hempty]
    exact hcomplete
  constructor
  · intro hsafe
    rcases careful_of_commit hsafe with hthere | hpasses
    · rw [hmissing] at hthere
      cases hthere
    · rw [hplain] at hpasses
      exact (hiff (hone _ hpasses.head)).mp hpasses
  · intro hall
    refine commit_crashSafe hwhole (.inr ?_)
    rw [hplain]
    exact (hiff (Option.some.inj ((hkept hall).symm.trans hextracts))).mpr hall

/-! ## Two commits

A container that changed nothing, and one that wrote the empty file `a`. -/

/-- A tar archive with the empty file `a`. -/
def fileTar : List UInt8 :=
  Registry.utf8 "a" ++ List.replicate 99 0 ++ Registry.utf8 "0000644" ++ [0] ++ Registry.utf8 "0000000" ++ [0] ++
    Registry.utf8 "0000000" ++ [0] ++ Registry.utf8 "00000000000" ++ [0] ++ Registry.utf8 "00000000000" ++ [0] ++
    Registry.utf8 "0006036" ++ [0] ++ Registry.utf8 "0" ++ List.replicate 100 0 ++ Registry.utf8 "ustar  " ++
    List.replicate 1272 0

def fileTarHash : ℕ := 0x87a80e2275a90fc137deb840c85124443a24cb8d774fabd8008d812dad255b00

def fileId : String := Registry.digestText fileTarHash

def fileConfigHash : ℕ := 0x99f4161d3046a40b1ea6ce2dc919b3cfe42cd13ed34ecaeb94329cc4d10b8df9

/-- The host, with the tar archive, and a configuration that lists it. -/
def commitEnv : Env (List String) :=
  { hostEnv with
    codec := { hostEnv.codec with
      sha256 := Registry.hashTable [(emptyTar, Registry.hashBytes emptyTarHash),
        (fileTar, Registry.hashBytes fileTarHash),
        (configBytes fileId, Registry.hashBytes fileConfigHash)] }
    decodeImage := fun bytes =>
      if bytes = configBytes fileId then .ok { os := "linux", diffIds := [fileId] } else .error "missing field rootfs"
    script := fun mode stream =>
      if stream.bytes = fileTar then [fun tree => .next (tree ++ ["a"])] else hostEnv.script mode stream }

theorem commitEnv_collisionFree : Function.Injective commitEnv.codec.sha256 := by
  unfold commitEnv
  dsimp only
  exact Registry.hashTable_injective (by decide +kernel) (by decide +kernel)

theorem whole_empty (x : Env Tree) : Whole x {} := by
  intro name _ hthere
  cases hthere

/-- A store that has the layer with the file `a`. -/
def storedDisk : Disk (List String) where
  layers := OrdMap.empty.insert (dashed fileId) (.dir ["a"])

theorem storedDisk_whole : Whole commitEnv storedDisk := by
  intro name _ hthere
  have hentries : storedDisk.layers.entries = [(dashed fileId, .dir ["a"])] := rfl
  obtain ⟨node, hnode⟩ := Option.isSome_iff_exists.mp hthere
  have hentry := OrdMap.get?_eq_some.mp hnode
  rw [hentries, List.mem_singleton] at hentry
  obtain ⟨rfl, rfl⟩ := Prod.mk.inj hentry
  have hdigest : commitEnv.digestOf fileTar = fileId := by decide +kernel
  have happlied : applied (commitEnv.script .overlay ⟨fileTar, none⟩) [] = some ["a"] := by decide +kernel
  exact ⟨fileId, .dir ["a"], rfl, hnode, .overlay, ⟨fileTar, none⟩, ["a"], rfl, hdigest, happlied⟩

/-- Nothing to extract: a cut shows the whole layer or none. And a layer that is there is not extracted again. -/
theorem empty_commit_crashSafe : CrashSafe commitEnv (.commit "0011223344556677" (.ok emptyTar)) {} ∧
    CrashSafe commitEnv (.commit "0011223344556677" (.ok emptyTar)) storedDisk ∧
    CrashSafe commitEnv (.commit "0011223344556677" (.ok fileTar)) storedDisk := by
  have hempty (d : Disk (List String)) : (Producer.commit "0011223344556677" (.ok emptyTar)).Careful commitEnv d := by
    have hscript : (commitEnv.script commitEnv.mode (maybeGunzip commitEnv ⟨emptyTar, none⟩)).length = 0 := by
      decide +kernel
    refine Or.inr ?_
    rw [List.length_eq_zero_iff.mp hscript]
    refine ⟨.overlay, ⟨emptyTar, none⟩, [], rfl, rfl, ?_⟩
    have happlied : applied (commitEnv.script .overlay ⟨emptyTar, none⟩) [] = some [] := by decide +kernel
    exact happlied
  refine ⟨(crashSafe_iff commitEnv _ {} (whole_empty commitEnv)).mpr (hempty {}),
    (crashSafe_iff commitEnv _ storedDisk storedDisk_whole).mpr (hempty storedDisk),
    (crashSafe_iff commitEnv _ storedDisk storedDisk_whole).mpr (Or.inl ?_)⟩
  decide +kernel

/-- The empty directory is not the layer with the file `a`. -/
theorem empty_incomplete : ¬ Complete commitEnv (commitEnv.digestOf fileTar) (.dir commitEnv.empty) := by
  rintro ⟨mode, stream, tree, hnode, hdigest, hextracts⟩
  have htree : tree = commitEnv.empty := Node.dir.inj hnode.symm
  have hbytes : stream.bytes = fileTar := Registry.digestOf_injective commitEnv_collisionFree hdigest
  have hscript : commitEnv.script mode stream = [fun tree => .next (tree ++ ["a"])] := if_pos hbytes
  have hdiffers : applied [fun tree => Outcome.next (tree ++ ["a"])] commitEnv.empty ≠ some commitEnv.empty := by
    decide +kernel
  unfold Extracts at hextracts
  rw [hscript, htree] at hextracts
  exact hdiffers hextracts

/-- A file to extract: a cut after the directory is made leaves it empty, under the name of the whole layer. -/
theorem file_commit_cut : Whole commitEnv {} ∧ ¬ CrashSafe commitEnv (.commit "0011223344556677" (.ok fileTar)) {} :=
  ⟨whole_empty commitEnv, fun h => empty_incomplete (complete_of_commit h rfl)⟩

end Collocate.Image
