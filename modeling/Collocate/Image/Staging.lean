import Collocate.Image.Layers

/-! # Storing a layer

`store_layer_from_blob` works in a hidden directory and renames it. What it relies on and what it
guarantees is stated for any `Setting`: one job alone, or many at once that take turns at a staging
directory. -/
namespace Collocate.Image
set_option autoImplicit false

variable {Tree : Type} {x : Env Tree}

/-! ## What a call changes -/

/-- The child that a call changes, other than by renaming to it. -/
def Op.touched : Op Tree → Option String
  | .makeDir (.child n) | .edit (.child n) _ | .empty (.child n) | .remove (.child n) | .rename (.child n) _ => some n
  | _ => none

/-- The calls that work at a path which leads out of `layers/`. -/
def Op.stray : Op Tree → Bool
  | .makeDir (.elsewhere _) | .edit (.elsewhere _) _ | .empty (.elsewhere _) | .remove (.elsewhere _)
  | .rename (.elsewhere _) _ | .rename _ (.elsewhere _) => true
  | _ => false

/-- A call that only grows the visible children, by the one it renames to, and changes at most the hidden
child it touches. -/
structure Moves (x : Env Tree) (op : Op Tree) (d d' : Disk Tree) : Prop where
  grows : Grows x d d'
  same : ∀ n, hidden n = false → (∀ p, op ≠ .rename p (.child n)) → d'.layers.get? n = d.layers.get? n
  hides : ∀ n, hidden n = true → op.touched ≠ some n → d'.layers.get? n = d.layers.get? n
  metas : d'.metas = d.metas

theorem moves_of_eq {op : Op Tree} {d d' : Disk Tree} (h : d' = d) : Moves x op d d' :=
  ⟨.of_eq (h ▸ rfl), fun _ _ _ => h ▸ rfl, fun _ _ _ => h ▸ rfl, h ▸ rfl⟩

theorem attempted_metas (w : Fate Tree) (s : Disk Tree) (f : Except Error Unit × OrdMap String (Node Tree)) :
    (attempted w s f).2.metas = s.metas := by
  unfold attempted
  split <;> rfl

theorem attempted_layers (w : Fate Tree) (s : Disk Tree) (f : Except Error Unit × OrdMap String (Node Tree)) :
    (attempted w s f).2.layers = s.layers ∨ (attempted w s f).2.layers = f.2 := by
  unfold attempted
  split
  · exact Or.inl rfl
  · exact Or.inr rfl

theorem attempted_ok {w : Fate Tree} {s : Disk Tree} {f : Except Error Unit × OrdMap String (Node Tree)} {u : Unit}
    (h : (attempted w s f).1 = .ok u) : f.1 = .ok u ∧ (attempted w s f).2.layers = f.2 := by
  unfold attempted at h ⊢
  split at h
  · cases h
  · exact ⟨h, rfl⟩

theorem attempted_fine {w : Fate Tree} (hw : ∀ e, w ≠ .broken e) (s : Disk Tree)
    (f : Except Error Unit × OrdMap String (Node Tree)) : attempted w s f = (f.1, { s with layers := f.2 }) := by
  unfold attempted
  split
  · exact absurd rfl (hw _)
  · rfl

theorem doMakeDir_other {n m : String} (layers : OrdMap String (Node Tree)) (hm : m ≠ n) :
    (doMakeDir x n layers).2.get? m = layers.get? m := by
  unfold doMakeDir
  split
  · rfl
  · rfl
  · rw [OrdMap.get?_insert, if_neg hm]

theorem doEmpty_other {n m : String} (w : Fate Tree) (layers : OrdMap String (Node Tree)) (hm : m ≠ n) :
    (doEmpty w n layers).2.get? m = layers.get? m := by
  unfold doEmpty
  split
  · rfl
  · rfl
  · split
    · rw [OrdMap.get?_insert, if_neg hm]
    · rfl

theorem doRemove_other {n m : String} (layers : OrdMap String (Node Tree)) (hm : m ≠ n) :
    (doRemove n layers).2.get? m = layers.get? m := by
  unfold doRemove
  split
  · rfl
  · rfl
  · rw [OrdMap.get?_erase, if_neg hm]

/-- The step of an extraction that the call `op` makes escapes from its directory. -/
def Escapes (op : Op Tree) (d : Disk Tree) : Prop :=
  ∃ n f tree, op = .edit (.child n) f ∧ d.layers.get? n = some (.dir tree) ∧ f tree = .escape

theorem doEdit_other {n m : String} {f : Tree → Outcome Tree} (w : Fate Tree) (d : Disk Tree) (hm : m ≠ n)
    (hesc : ¬ Escapes (.edit (.child n) f) d) : (doEdit w n f d.layers).2.get? m = d.layers.get? m := by
  unfold doEdit
  split
  · rename_i tree hget
    split
    · rw [OrdMap.get?_insert, if_neg hm]
    · rw [OrdMap.get?_insert, if_neg hm]
    · rename_i hescape
      exact absurd ⟨n, f, tree, rfl, hget, hescape⟩ hesc
  · rfl

/-- No directory is in the way. -/
def Vacant (node : Option (Node Tree)) : Prop := ∀ tree, node ≠ some (.dir tree)

theorem doEmpty_ok {w : Fate Tree} {n : String} {layers : OrdMap String (Node Tree)} {u : Unit}
    (h : (doEmpty w n layers).1 = .ok u) : ∃ tree, (doEmpty w n layers).2.get? n = some (.dir tree) := by
  unfold doEmpty at h ⊢
  split at h
  · cases h
  · cases h
  · rename_i tree hget
    split
    · exact ⟨_, by rw [OrdMap.get?_insert, if_pos rfl]⟩
    · exact ⟨tree, hget⟩

theorem doEmpty_error {w : Fate Tree} {n : String} {layers : OrdMap String (Node Tree)} {e : Error}
    (h : (doEmpty w n layers).1 = .error e) : Vacant ((doEmpty w n layers).2.get? n) := by
  unfold doEmpty at h ⊢
  split at h
  · rename_i hget
    rw [hget]
    exact nofun
  · rename_i hget
    rw [hget]
    exact nofun
  · split at h <;> cases h

theorem doRemove_dir {n : String} {layers : OrdMap String (Node Tree)} {tree : Tree}
    (h : layers.get? n = some (.dir tree)) :
    doRemove n layers = (.ok (), layers.erase n) := by
  unfold doRemove
  rw [h]

theorem doMakeDir_ok {n : String} {layers : OrdMap String (Node Tree)} {u : Unit} (hvacant : Vacant (layers.get? n))
    (h : (doMakeDir x n layers).1 = .ok u) : (doMakeDir x n layers).2.get? n = some (.dir x.empty) := by
  unfold doMakeDir at h ⊢
  split at h
  · rename_i tree hget
    exact absurd hget (hvacant tree)
  · cases h
  · rename_i hget
    rw [OrdMap.get?_insert, if_pos rfl]

theorem doEdit_ok {w : Fate Tree} {n : String} {f : Tree → Outcome Tree} {layers : OrdMap String (Node Tree)}
    {tree : Tree} {u : Unit} (hget : layers.get? n = some (.dir tree)) (h : (doEdit w n f layers).1 = .ok u) :
    ∃ tree', f tree = .next tree' ∧ (doEdit w n f layers).2.get? n = some (.dir tree') := by
  unfold doEdit at h ⊢
  rw [hget] at h ⊢
  dsimp only at h ⊢
  split at h
  · rename_i tree' hf
    rw [hf]
    exact ⟨tree', rfl, by rw [OrdMap.get?_insert, if_pos rfl]⟩
  · cases h
  · cases h

/-- Only the child `n` changes. -/
structure Within (n : String) (d d' : Disk Tree) : Prop where
  other : ∀ m, m ≠ n → d'.layers.get? m = d.layers.get? m
  metas : d'.metas = d.metas

theorem within_attempted {n : String} {w : Fate Tree} {d : Disk Tree}
    {f : Except Error Unit × OrdMap String (Node Tree)}
    (hf : ∀ m, m ≠ n → f.2.get? m = d.layers.get? m) : Within n d (attempted w d f).2 := by
  refine ⟨fun m hm => ?_, attempted_metas w d f⟩
  rcases attempted_layers w d f with h | h
  · rw [h]
  · rw [h, hf m hm]

/-- The calls that work in a directory, other than to rename it. -/
def Op.worksIn (n : String) (op : Op Tree) : Prop :=
  op = .makeDir (.child n) ∨ (∃ f, op = .edit (.child n) f) ∨ op = .empty (.child n) ∨ op = .remove (.child n)

theorem within_of_worksIn {op : Op Tree} {n : String} {w : Fate Tree} {d : Disk Tree} (hop : op.worksIn n)
    (hesc : ¬ Escapes op d) : Within n d (exec x op w d).2 := by
  rcases hop with rfl | ⟨f, rfl⟩ | rfl | rfl
  · exact within_attempted fun m hm => doMakeDir_other _ hm
  · exact within_attempted fun m hm => doEdit_other w d hm hesc
  · exact within_attempted fun m hm => doEmpty_other w _ hm
  · exact within_attempted fun m hm => doRemove_other _ hm

theorem Op.worksIn.touched {op : Op Tree} {n : String} (hop : op.worksIn n) : op.touched = some n := by
  rcases hop with rfl | ⟨f, rfl⟩ | rfl | rfl <;> rfl

theorem Within.moves {op : Op Tree} {n : String} {d d' : Disk Tree} (h : Within n d d') (hop : op.touched = some n)
    (hn : hidden n = true) : Moves x op d d' := by
  have hvisible : ∀ m, hidden m = false → d'.layers.get? m = d.layers.get? m := by
    intro m hm
    refine h.other m ?_
    rintro rfl
    rw [hn] at hm
    cases hm
  refine ⟨fun m hm => Or.inl (hvisible m hm), fun m hm _ => hvisible m hm, fun m _ hne => h.other m ?_, h.metas⟩
  rintro rfl
  exact hne hop

/-- A rename to the layer that the directory is the extraction of. -/
theorem moves_rename {w : Fate Tree} {d : Disk Tree} {n l : String} {node : Node Tree} (hn : hidden n = true)
    (hl : DigestShaped l) (hget : d.layers.get? n = some node) (hnode : Complete x l node) :
    Moves x (.rename (.child n) (.child (dashed l))) d
      (exec x (.rename (.child n) (.child (dashed l))) w d).2 := by
  obtain ⟨mode, stream, tree, rfl, hdigest, hextracts⟩ := hnode
  have hvisible := visible_shaped hl
  have hne : dashed l ≠ n := by
    rintro rfl
    rw [hn] at hvisible
    cases hvisible
  have hdo : (doRename x n (dashed l) d.layers).2 = d.layers ∨
      (doRename x n (dashed l) d.layers).2 = (d.layers.erase n).insert (dashed l) (.dir tree) := by
    unfold doRename
    rw [hget]
    split
    · rename_i heq _
      cases heq
      exact Or.inr rfl
    · rename_i heq _
      cases heq
      split
      · exact Or.inr rfl
      · exact Or.inl rfl
    · exact Or.inl rfl
    · exact Or.inl rfl
    · exact Or.inl rfl
  have hcases : (exec x (.rename (.child n) (.child (dashed l))) w d).2.layers = d.layers ∨
      (exec x (.rename (.child n) (.child (dashed l))) w d).2.layers =
        (d.layers.erase n).insert (dashed l) (.dir tree) := by
    have hexec : exec x (.rename (.child n) (.child (dashed l))) w d =
        attempted w d (doRename x n (dashed l) d.layers) := rfl
    rw [hexec]
    rcases attempted_layers w d (doRename x n (dashed l) d.layers) with h | h
    · exact Or.inl h
    · rw [h]
      exact hdo
  have hsame : ∀ m, hidden m = false → m ≠ dashed l →
      (exec x (.rename (.child n) (.child (dashed l))) w d).2.layers.get? m = d.layers.get? m := by
    intro m hm hml
    have hmn : m ≠ n := by
      rintro rfl
      rw [hn] at hm
      cases hm
    rcases hcases with h | h
    · rw [h]
    · rw [h, OrdMap.get?_insert, if_neg hml, OrdMap.get?_erase, if_neg hmn]
  refine ⟨fun m hm => ?_, fun m hm hne' => hsame m hm ?_, fun m hm hne' => ?_, attempted_metas _ _ _⟩
  · by_cases hml : m = dashed l
    · subst hml
      rcases hcases with h | h
      · exact Or.inl (by rw [h])
      · refine Or.inr ⟨l, .dir tree, rfl, ?_, mode, stream, tree, rfl, hdigest, hextracts⟩
        rw [h, OrdMap.get?_insert, if_pos rfl]
    · exact Or.inl (hsame m hm hml)
  · rintro rfl
    exact hne' _ rfl
  · have hml : m ≠ dashed l := by
      rintro rfl
      rw [hm] at hvisible
      cases hvisible
    have hmn : m ≠ n := fun heq => hne' (heq ▸ rfl)
    rcases hcases with h | h
    · rw [h]
    · rw [h, OrdMap.get?_insert, if_neg hml, OrdMap.get?_erase, if_neg hmn]

/-- What `Path::exists` says when it can look. -/
def present (x : Env Tree) (d : Disk Tree) : Place → Bool
  | .child name => d.layers.contains name
  | .elsewhere path => x.elsewhere d path

theorem doRename_ok {a b : String} {layers : OrdMap String (Node Tree)} {u : Unit}
    (h : (doRename x a b layers).1 = .ok u) :
    (doRename x a b layers).2.contains b = true := by
  unfold doRename at h ⊢
  split at h
  · unfold OrdMap.contains
    rw [OrdMap.get?_insert, if_pos rfl]
    rfl
  · split at h
    · rename_i hempty
      rw [if_pos hempty]
      unfold OrdMap.contains
      rw [OrdMap.get?_insert, if_pos rfl]
      rfl
    · cases h
  · cases h
  · cases h
  · cases h

theorem exec_rename_ok {a b : String} {w : Fate Tree} {d : Disk Tree}
    (h : (exec x (.rename (.child a) (.child b)) w d).1 = .ok ()) :
    (exec x (.rename (.child a) (.child b)) w d).2.layers.contains b = true := by
  obtain ⟨hok, hlayers⟩ := attempted_ok (f := doRename x a b d.layers) h
  exact (congrArg (·.contains b) hlayers).trans (doRename_ok hok)

/-- A child that was found is there. -/
theorem exec_pathExists_true {n : String} {w : Fate Tree} {d : Disk Tree}
    (h : (exec x (.pathExists (.child n)) w d).1 = true) :
    (exec x (.pathExists (.child n)) w d).2.layers.contains n = true := by
  cases w <;> first | cases h | exact h

/-! ## Settings -/

/-- Where a job runs: the machine, the calls that may happen, what the others do and what they are
promised. `Mine n v` says that the hidden child `n` is `v` unless someone else has taken it over,
`Unseen n` that the visible child `n` was not there, `Seen n` that it was; a `lost` job may have done anything. -/
structure Setting (x : Env Tree) (σ : Type) where
  run : (op : Op Tree) → Fate Tree → σ → op.Ans × σ
  may : (op : Op Tree) → Fate Tree → σ → Prop
  R : σ → σ → Prop
  G : σ → σ → Prop
  disk : σ → Disk Tree
  Mine : String → Option (Node Tree) → σ → Prop
  Unseen : String → σ → Prop
  Seen : String → σ → Prop
  lost : σ → Prop
  refl : ∀ s, R s s
  ans : ∀ op w s, (run op w s).1 = (exec x op w (disk s)).1
  next : ∀ op w s, disk (run op w s).2 = (exec x op w (disk s)).2
  mine_stable : ∀ n v, Job.Stable R (Mine n v)
  unseen_stable : ∀ n, Job.Stable R (Unseen n)
  seen_stable : ∀ n, hidden n = false → Job.Stable R (Seen n)
  lost_stable : Job.Stable R lost
  mine_use : ∀ {op w s n v}, may op w s → op.touched = some n → Mine n v s → (disk s).layers.get? n = v
  mine_set : ∀ {op w s n}, may op w s → hidden n = true → op.touched = some n →
    Mine n ((disk (run op w s).2).layers.get? n) (run op w s).2
  mine_keep : ∀ {op w s n v}, may op w s → op.touched = none → disk (run op w s).2 = disk s → Mine n v s →
    Mine n v (run op w s).2
  unseen_set : ∀ {w s n}, may (.pathExists (.child n)) w s → (exec x (.pathExists (.child n)) w (disk s)).1 = false →
    Unseen n (run (.pathExists (.child n)) w s).2
  unseen_keep : ∀ {op w s n}, may op w s → hidden n = false → (disk (run op w s).2).layers.get? n =
    (disk s).layers.get? n →
    Unseen n s → Unseen n (run op w s).2
  seen_set : ∀ {w s n}, may (.pathExists (.child n)) w s → (exec x (.pathExists (.child n)) w (disk s)).1 = true →
    Seen n (run (.pathExists (.child n)) w s).2
  seen_rename : ∀ {w s m n}, may (.rename (.child m) (.child n)) w s →
    (exec x (.rename (.child m) (.child n)) w (disk s)).1 = .ok () → Seen n (run (.rename (.child m) (.child n)) w s).2
  seen_keep : ∀ {op w s n}, may op w s → hidden n = false → Grows x (disk s) (disk (run op w s).2) →
    Seen n s → Seen n (run op w s).2
  moves : ∀ {op w s}, may op w s → Moves x op (disk s) (disk (run op w s).2) → G s (run op w s).2
  strays : ∀ {op w s}, may op w s → (op.stray = true ∨ Escapes op (disk s)) → G s (run op w s).2 ∧ lost (run op w s).2
  loses : ∀ {op w s}, may op w s → lost s → G s (run op w s).2 ∧ lost (run op w s).2
  empties : ∀ {p e s}, ¬ may (.empty p) (.broken e) s
  removes : ∀ {p e s}, ¬ may (.remove p) (.broken e) s

namespace Setting

variable {σ : Type} (S : Setting x σ)

abbrev Spec {α : Type} (P : σ → Prop) (job : Work Tree α) (Q : α → σ → Prop) (E : Error → σ → Prop) : Prop :=
  Job.Spec S.run S.may S.R S.G P job Q E

/-- A property that moves keep: of the visible children, of the metadata, of what the others do. -/
structure Kept (K : σ → Prop) : Prop where
  stable : Job.Stable S.R K
  moves : ∀ {op w s}, S.may op w s → Moves x op (S.disk s) (S.disk (S.run op w s).2) →
    (∀ p n, op = .rename p (.child n) → S.Unseen n s) → K s → K (S.run op w s).2

/-- The property is kept, and a layer that was not there has not been seen since. -/
def Steady (K : σ → Prop) (l : String) (s : σ) : Prop := K s ∧ (DigestShaped l → S.Unseen (dashed l) s)

section Calls
variable {S} {K : σ → Prop} {P : σ → Prop} {Q : σ → Prop} {E : Error → σ → Prop}

/-- A call of which only success matters. -/
theorem must_spec {op : Op Tree} {h : op.Ans = Result Unit} (hP : Job.Stable S.R P) (hQ : Job.Stable S.R Q)
    (hE : ∀ e, Job.Stable S.R (E e))
    (hstep : ∀ s w, P s → S.may op w s → S.G s (S.run op w s).2 ∧
      (∀ u, cast h (exec x op w (S.disk s)).1 = .ok u → Q (S.run op w s).2) ∧
      ∀ e, cast h (exec x op w (S.disk s)).1 = .error e → E e (S.run op w s).2) :
    S.Spec P (must op h) (fun _ => Q) E := by
  have hask : S.Spec P (Job.ask op)
    (fun a s => (∀ u, cast h a = .ok u → Q s) ∧ ∀ e, cast h a = .error e → E e s) E := by
    refine Job.Spec.ask hP ?_ ?_
    · rintro a s s' ⟨hok, herr⟩ hR
      exact ⟨fun u hu => hQ _ _ (hok u hu) hR, fun e he => hE e _ _ (herr e he) hR⟩
    · intro s w hs hmay
      rw [S.ans]
      exact hstep s w hs hmay
  refine Job.Spec.bind S.refl hask fun a => ?_
  refine Job.Spec.lift ?_ (fun u s hs hu => hs.1 u hu) fun e s hs he => hs.2 e he
  rintro s s' ⟨hok, herr⟩ hR
  exact ⟨fun u hu => hQ _ _ (hok u hu) hR, fun e he => hE e _ _ (herr e he) hR⟩

/-- A call that leaves the disk alone, such as work on files of the job's own. -/
theorem must_idle {op : Op Tree} {h : op.Ans = Result Unit} (hP : Job.Stable S.R P) (hE : ∀ e, Job.Stable S.R (E e))
    (hdisk : ∀ w d, (exec x op w d).2 = d) (hkeep : ∀ s w, P s → S.may op w s → P (S.run op w s).2)
    (hfail : ∀ e s, P s → E e s) : S.Spec P (must op h) (fun _ => P) E := by
  refine must_spec hP hP hE fun s w hs hmay => ?_
  have hmoves : Moves x op (S.disk s) (S.disk (S.run op w s).2) := moves_of_eq (by rw [S.next, hdisk])
  have hnext := hkeep s w hs hmay
  exact ⟨S.moves hmay hmoves, fun _ _ => hnext, fun e _ => hfail e _ hnext⟩

/-- A call in a hidden directory. -/
theorem works_in {op : Op Tree} {n l : String} (hK : S.Kept K) (hop : op.worksIn n) (hn : hidden n = true) {s : σ}
    {w : Fate Tree} (hmay : S.may op w s) (hesc : ¬ Escapes op (S.disk s)) (hs : S.Steady K l s) :
    S.G s (S.run op w s).2 ∧ S.Steady K l (S.run op w s).2 ∧
      S.Mine n ((S.disk (S.run op w s).2).layers.get? n) (S.run op w s).2 := by
  have hwithin : Within n (S.disk s) (S.disk (S.run op w s).2) := by
    rw [S.next]
    exact within_of_worksIn hop hesc
  have hmoves : Moves x op (S.disk s) (S.disk (S.run op w s).2) := hwithin.moves hop.touched hn
  refine ⟨S.moves hmay hmoves, ⟨hK.moves hmay hmoves ?_ hs.1, fun hl => ?_⟩, S.mine_set hmay hn hop.touched⟩
  · rintro p m rfl
    rcases hop with h | ⟨f, h⟩ | h | h <;> cases h
  · refine S.unseen_keep hmay (visible_shaped hl) (hwithin.other _ ?_) (hs.2 hl)
    intro heq
    have hvisible := visible_shaped hl
    rw [heq, hn] at hvisible
    cases hvisible

theorem Steady.stable {l : String} (hK : S.Kept K) : Job.Stable S.R (S.Steady K l) :=
  fun _ _ hs hR => ⟨hK.stable _ _ hs.1 hR, fun hl => S.unseen_stable _ _ _ (hs.2 hl) hR⟩

/-- The directory `n` is there, as far as this job knows. -/
def Holds (S : Setting x σ) (n : String) (v : Option (Node Tree) → Prop) (s : σ) : Prop :=
  ∃ node, v node ∧ S.Mine n node s

theorem Holds.stable {n : String} {v : Option (Node Tree) → Prop} : Job.Stable S.R (S.Holds n v) := by
  rintro s s' ⟨node, hv, hmine⟩ hR
  exact ⟨node, hv, S.mine_stable _ _ _ _ hmine hR⟩

theorem and_stable {P P' : σ → Prop} (h : Job.Stable S.R P) (h' : Job.Stable S.R P') :
    Job.Stable S.R fun s => P s ∧ P' s :=
  fun _ _ hs hR => ⟨h _ _ hs.1 hR, h' _ _ hs.2 hR⟩

theorem or_stable {P P' : σ → Prop} (h : Job.Stable S.R P) (h' : Job.Stable S.R P') :
    Job.Stable S.R fun s => P s ∨ P' s :=
  fun _ _ hs hR => hs.imp (h _ _ · hR) (h' _ _ · hR)

theorem not_escapes_of_ne {op : Op Tree} {d : Disk Tree} (h : ∀ p f, op ≠ .edit p f) : ¬ Escapes op d := by
  rintro ⟨n, f, _, rfl, _⟩
  exact h _ _ rfl

/-- After an attempt to remove a hidden directory it is gone. -/
theorem removeDirAll_spec {n l : String} (hK : S.Kept K) (hn : hidden n = true) :
    S.Spec (S.Steady K l) (removeDirAll (.child n)).attempt (fun _ s => S.Steady K l s ∧ S.Holds n Vacant s) E := by
  have hstable := Steady.stable (l := l) hK
  have hpost : Job.Stable S.R fun s => S.Steady K l s ∧ S.Holds n Vacant s := and_stable hstable Holds.stable
  refine Job.Spec.attempt ?_
  refine Job.Spec.bind S.refl
    (Q := fun _ s => S.Steady K l s ∧ S.Holds n (fun node => ∃ tree, node = some (.dir tree)) s)
    (must_spec hstable (and_stable hstable Holds.stable) (fun _ => hpost) ?_) fun _ => ?_
  · intro s w hs hmay
    obtain ⟨hG, hs', hmine⟩ := works_in hK (.inr (.inr (.inl rfl))) hn hmay (not_escapes_of_ne nofun) hs
    have hfine : ∀ e, w ≠ .broken e := by
      rintro e rfl
      exact S.empties hmay
    have hexec : exec x (.empty (.child n)) w (S.disk s) = attempted w (S.disk s) (doEmpty w n (S.disk s).layers) := rfl
    rw [S.next, hexec, attempted_fine hfine] at hmine
    rw [hexec, attempted_fine hfine]
    exact ⟨hG, fun u hu => ⟨hs', _, doEmpty_ok hu, hmine⟩, fun e he => ⟨hs', _, doEmpty_error he, hmine⟩⟩
  · refine must_spec (and_stable hstable Holds.stable) hpost (fun _ => hpost) ?_
    rintro s w ⟨hs, _, ⟨tree, rfl⟩, hdir⟩ hmay
    have hget := S.mine_use hmay rfl hdir
    obtain ⟨hG, hs', hmine⟩ := works_in hK (.inr (.inr (.inr rfl))) hn hmay (not_escapes_of_ne nofun) hs
    have hfine : ∀ e, w ≠ .broken e := by
      rintro e rfl
      exact S.removes hmay
    have hexec : exec x (.remove (.child n)) w (S.disk s) = attempted w (S.disk s) (doRemove n (S.disk s).layers) := rfl
    rw [S.next, hexec, attempted_fine hfine, doRemove_dir hget] at hmine
    have hgone : Vacant (((S.disk s).layers.erase n).get? n) := by
      rw [OrdMap.get?_erase, if_pos rfl]
      exact nofun
    exact ⟨hG, fun u _ => ⟨hs', _, hgone, hmine⟩, fun e _ => ⟨hs', _, hgone, hmine⟩⟩

/-- The rest of an extraction, from the tree it has got to. -/
def Extracting (S : Setting x σ) (n : String) (script : List (Tree → Outcome Tree)) (goal : Option Tree) (s : σ) :
    Prop :=
  S.Holds n (fun node => ∃ tree, node = some (.dir tree) ∧ applied script tree = goal) s

theorem extractLayer_spec {n l : String} {stream : Stream} {mode : WhiteoutMode} (hK : S.Kept K)
    (hn : hidden n = true) :
    S.Spec (fun s => S.Steady K l s ∧ S.Holds n Vacant s) (extractLayer x stream (.child n) mode)
      (fun _ s => S.Steady K l s ∧
        S.Holds n (fun node => ∃ tree, node = some (.dir tree) ∧ Extracts x mode stream tree) s)
      (fun _ s => S.Steady K l s ∨ S.lost s) := by
  have hstable := Steady.stable (l := l) hK
  have hfail : Error → Job.Stable S.R fun s => S.Steady K l s ∨ S.lost s := fun _ => or_stable hstable S.lost_stable
  let goal := applied (x.script mode stream) x.empty
  refine Job.Spec.bind S.refl
    (Q := fun _ s => S.Steady K l s ∧ S.Extracting n (x.script mode stream) goal s)
    (must_spec (and_stable hstable Holds.stable) (and_stable hstable Holds.stable) hfail ?_) fun _ => ?_
  · rintro s w ⟨hs, node, hvacant, hmine⟩ hmay
    have hget := S.mine_use hmay rfl hmine
    obtain ⟨hG, hs', hmine'⟩ := works_in hK (.inl rfl) hn hmay (not_escapes_of_ne nofun) hs
    refine ⟨hG, fun u hu => ⟨hs', _, ⟨x.empty, ?_, rfl⟩, hmine'⟩, fun e _ => Or.inl hs'⟩
    obtain ⟨hok, hlayers⟩ := attempted_ok (f := doMakeDir x n (S.disk s).layers) hu
    rw [S.next]
    exact (congrArg (·.get? n) hlayers).trans (doMakeDir_ok (hget ▸ hvacant) hok)
  · refine (Job.Spec.forM S.refl (J := fun rest s => S.Steady K l s ∧ S.Extracting n rest goal s)
      (and_stable hstable Holds.stable) _ ?_).conseq (fun _ hs => hs) ?_ fun _ _ he => he
    · intro f rest
      refine must_spec (and_stable hstable Holds.stable) (and_stable hstable Holds.stable) hfail ?_
      rintro s w ⟨hs, _, ⟨tree, rfl, happlied⟩, hmine⟩ hmay
      have hget := S.mine_use hmay rfl hmine
      by_cases hesc : Escapes (.edit (.child n) f) (S.disk s)
      · -- The whiteout of `..`: the step fails, and nothing is known of the disk.
        obtain ⟨hG, hlost⟩ := S.strays hmay (Or.inr hesc)
        refine ⟨hG, fun u hu => ?_, fun e _ => Or.inr hlost⟩
        obtain ⟨hok, -⟩ := attempted_ok (f := doEdit w n f (S.disk s).layers) hu
        obtain ⟨tree', hnext, -⟩ := doEdit_ok hget hok
        obtain ⟨_, _, tree'', heq, hget', hescape⟩ := hesc
        cases heq
        rw [hget] at hget'
        cases hget'
        rw [hescape] at hnext
        cases hnext
      · obtain ⟨hG, hs', hmine'⟩ := works_in hK (.inr (.inl ⟨f, rfl⟩)) hn hmay hesc hs
        refine ⟨hG, fun u hu => ⟨hs', ?_⟩, fun e _ => Or.inl hs'⟩
        obtain ⟨hok, hlayers⟩ := attempted_ok (f := doEdit w n f (S.disk s).layers) hu
        obtain ⟨tree', hnext, hget'⟩ := doEdit_ok hget hok
        refine ⟨_, ⟨tree', ?_, ?_⟩, hmine'⟩
        · rw [S.next]
          exact (congrArg (·.get? n) hlayers).trans hget'
        · rw [← happlied, applied, hnext]
    · rintro _ s ⟨hs, _, ⟨tree, rfl, happlied⟩, hmine⟩
      exact ⟨hs, _, ⟨tree, rfl, happlied.symm⟩, hmine⟩

/-! ### Work that may get lost -/

/-- The property is kept, unless the job is lost. -/
def Astray (S : Setting x σ) (K : σ → Prop) (s : σ) : Prop := K s ∨ S.lost s

theorem Astray.stable (hK : S.Kept K) : Job.Stable S.R (S.Astray K) := or_stable hK.stable S.lost_stable

/-- Work in a hidden directory, or at a path that leads out. -/
theorem works_astray {op : Op Tree} {h : op.Ans = Result Unit} (hK : S.Kept K)
    (hop : (∃ n, hidden n = true ∧ op.worksIn n) ∨ op.stray = true) :
    S.Spec (S.Astray K) (must op h) (fun _ => S.Astray K) (fun _ => S.Astray K) := by
  have hstable := Astray.stable hK
  refine must_spec hstable hstable (fun _ => hstable) fun s w hs hmay => ?_
  have hstep : S.G s (S.run op w s).2 ∧ S.Astray K (S.run op w s).2 := by
    rcases hs with hs | hlost
    · by_cases hstray : op.stray = true ∨ Escapes op (S.disk s)
      · obtain ⟨hG, hlost⟩ := S.strays hmay hstray
        exact ⟨hG, Or.inr hlost⟩
      · rw [not_or] at hstray
        obtain ⟨n, hn, hworks⟩ := hop.resolve_right hstray.1
        have hwithin : Within n (S.disk s) (S.disk (S.run op w s).2) := by
          rw [S.next]
          exact within_of_worksIn hworks hstray.2
        have hmoves : Moves x op (S.disk s) (S.disk (S.run op w s).2) := hwithin.moves hworks.touched hn
        refine ⟨S.moves hmay hmoves, Or.inl (hK.moves hmay hmoves ?_ hs)⟩
        rintro p m rfl
        rcases hworks with h | ⟨f, h⟩ | h | h <;> cases h
    · obtain ⟨hG, hlost'⟩ := S.loses hmay hlost
      exact ⟨hG, Or.inr hlost'⟩
  exact ⟨hstep.1, fun _ _ => hstep.2, fun _ _ => hstep.2⟩

theorem staging_cases (l : String) : (∃ n, stagingDir l = .child n ∧ hidden n = true) ∨ ∃ path,
    stagingDir l = .elsewhere path := by
  rcases h : stagingDir l with n | path
  · exact Or.inl ⟨n, rfl, hidden_stagingDir h⟩
  · exact Or.inr ⟨path, rfl⟩

theorem staging_astray {l : String} (op : Place → Op Tree) {h : (op (stagingDir l)).Ans = Result Unit} (hK : S.Kept K)
    (hchild : ∀ n, (op (.child n)).worksIn n) (hstray : ∀ path, (op (.elsewhere path)).stray = true) :
    S.Spec (S.Astray K) (must (op (stagingDir l)) h) (fun _ => S.Astray K) (fun _ => S.Astray K) := by
  refine works_astray hK ?_
  rcases staging_cases l with ⟨n, hplace, hn⟩ | ⟨path, hplace⟩
  · rw [hplace]
    exact Or.inl ⟨n, hn, hchild n⟩
  · rw [hplace]
    exact Or.inr (hstray path)

theorem removeDirAll_astray {l : String} (hK : S.Kept K) :
    S.Spec (S.Astray K) (removeDirAll (stagingDir l)).attempt (fun _ => S.Astray K) E := by
  refine Job.Spec.attempt
    (Job.Spec.bind S.refl (staging_astray .empty hK (fun n => .inr (.inr (.inl rfl))) fun _ => rfl) fun _ => ?_)
  exact staging_astray .remove hK (fun n => .inr (.inr (.inr rfl))) fun _ => rfl

theorem extractLayer_astray {l : String} {stream : Stream} {mode : WhiteoutMode} (hK : S.Kept K) :
    S.Spec (S.Astray K) (extractLayer x stream (stagingDir l) mode) (fun _ => S.Astray K) (fun _ => S.Astray K) := by
  refine Job.Spec.bind S.refl (staging_astray .makeDir hK (fun n => .inl rfl) fun _ => rfl) fun _ => ?_
  refine Job.Spec.forM S.refl (J := fun _ => S.Astray K) (Astray.stable hK) _ fun f _ => ?_
  exact staging_astray (fun p => .edit p f) hK (fun n => .inr (.inl ⟨f, rfl⟩)) fun _ => rfl

/-! ### The whole -/

/-- The layer is there, if its id names a visible child. -/
def Found (S : Setting x σ) (l : String) (s : σ) : Prop :=
  ∀ name, layerDir l = .child name → hidden name = false → S.Seen name s

theorem Found.stable {l : String} : Job.Stable S.R (S.Found l) :=
  fun _ _ hs hR name hplace hname => S.seen_stable name hname _ _ (hs name hplace hname) hR

theorem Found.keep {l : String} {op : Op Tree} {w : Fate Tree} {s : σ} (h : S.Found l s) (hmay : S.may op w s)
    (hgrows : Grows x (S.disk s) (S.disk (S.run op w s).2)) : S.Found l (S.run op w s).2 :=
  fun name hplace hname => S.seen_keep hmay hname hgrows (h name hplace hname)

/-- An attempt to clean up, before the failure. -/
theorem giveUp_spec {l : String} {e : Error} {Q : Unit → σ → Prop} (hK : S.Kept K) :
    S.Spec (S.Astray K) (do let _ ← (removeDirAll (stagingDir l)).attempt; Job.throw e) Q (fun _ => S.Astray K) :=
  Job.Spec.bind S.refl (removeDirAll_astray hK) fun _ => Job.Spec.throw (Astray.stable hK) fun _ hs => hs

theorem exec_pathExists {p : Place} {w : Fate Tree} (hw : ∀ e, w ≠ .broken e) (d : Disk Tree) :
    exec x (.pathExists p) w d = (present x d p, d) := by
  cases w with
  | broken e => exact absurd rfl (hw e)
  | fine => cases p <;> rfl
  | left tree => cases p <;> rfl
  | strays layers => cases p <;> rfl
  | lists names => cases p <;> rfl
  | mixed => cases p <;> rfl

theorem exec_pathExists_disk (p : Place) (w : Fate Tree) (d : Disk Tree) : (exec x (.pathExists p) w d).2 = d := by
  cases w <;> cases p <;> rfl

/-- Looking for a layer. -/
theorem exists_spec {l : String} (hK : S.Kept K) : S.Spec K (pathExists (layerDir l))
    (fun b s => K s ∧ (b = true → S.Found l s) ∧ (b = false → S.Steady K l s)) E := by
  refine Job.Spec.ask hK.stable ?_ fun s w hs hmay => ?_
  · rintro b s s' ⟨hs, hfound, hsteady⟩ hR
    exact ⟨hK.stable _ _ hs hR, fun hb => Found.stable _ _ (hfound hb) hR, fun hb =>
      Steady.stable hK _ _ (hsteady hb) hR⟩
  · have hdisk : S.disk (S.run (.pathExists (layerDir l)) w s).2 = S.disk s := by
      rw [S.next, exec_pathExists_disk]
    have hmoves : Moves x (.pathExists (layerDir l)) (S.disk s) (S.disk (S.run (.pathExists (layerDir l)) w s).2) :=
      moves_of_eq hdisk
    have hkept := hK.moves hmay hmoves (fun p n h => by cases h) hs
    rw [S.ans]
    refine ⟨S.moves hmay hmoves, hkept, fun hb name hplace _ => ?_, fun hb => ⟨hkept, fun hl => ?_⟩⟩
    · rw [hplace] at hb hmay ⊢
      exact S.seen_set hmay hb
    · rw [layerDir_shaped hl] at hb hmay ⊢
      exact S.unseen_set hmay hb

theorem exec_makeLayers (w : Fate Tree) (d : Disk Tree) : (exec x .makeLayers w d).2 = d := by
  show (attempted w d (.ok (), d.layers)).2 = d
  unfold attempted
  split <;> rfl

theorem exec_own (w : Fate Tree) (d : Disk Tree) : (exec x .own w d).2 = d := exec_makeLayers (x := x) w d

theorem Kept.idle (hK : S.Kept K) {op : Op Tree} (hdisk : ∀ w d, (exec x op w d).2 = d)
    (hop : ∀ p q, op ≠ .rename p q) {s : σ} {w : Fate Tree} (hs : K s) (hmay : S.may op w s) : K (S.run op w s).2 :=
  hK.moves hmay (moves_of_eq (by rw [S.next, hdisk])) (fun p n h => absurd h (hop p _)) hs

theorem idle_astray {op : Op Tree} {h : op.Ans = Result Unit} (hK : S.Kept K) (hdisk : ∀ w d, (exec x op w d).2 = d)
    (hop : ∀ p q, op ≠ .rename p q) :
    S.Spec (S.Astray K) (must op h) (fun _ => S.Astray K) (fun _ => S.Astray K) := by
  have hstable := Astray.stable hK
  refine must_idle hstable (fun _ => hstable) hdisk (fun s w hs hmay => ?_) fun _ _ hs => hs
  exact hs.imp (fun hs => hK.idle hdisk hop hs hmay) fun hlost => (S.loses hmay hlost).2

/-- Calls on files of the job's own, with a layer on its way. -/
theorem idle_steady {op : Op Tree} {l : String} (hK : S.Kept K)
    (hdisk : ∀ w d, (exec x op w d).2 = d) (hop : ∀ p q, op ≠ .rename p q) {s : σ} {w : Fate Tree}
    (hs : S.Steady K l s) (hmay : S.may op w s) : S.Steady K l (S.run op w s).2 := by
  refine ⟨hK.idle hdisk hop hs.1 hmay, fun hl => S.unseen_keep hmay (visible_shaped hl) ?_ (hs.2 hl)⟩
  rw [S.next, hdisk]

/-- A layer whose id is no digest is never renamed into place. -/
theorem stage_misnamed {l : String} {blob : Option Stream} {compression : LayerCompression} {mode : WhiteoutMode}
    {Q : Unit → σ → Prop} (hK : S.Kept K) (hl : ¬ DigestShaped l) :
    S.Spec K (stageLayer x blob l compression mode) Q (fun _ => S.Astray K) := by
  have hstable := Astray.stable hK
  refine Job.Spec.pre ?_ (P := S.Astray K) fun _ hs => Or.inl hs
  refine Job.Spec.bind S.refl (idle_astray hK exec_makeLayers nofun) fun _ => ?_
  refine Job.Spec.bind S.refl (removeDirAll_astray hK) fun _ => ?_
  refine Job.Spec.bind S.refl (idle_astray hK exec_own nofun) fun _ => ?_
  refine Job.Spec.bind S.refl (Job.Spec.lift hstable (Q := fun _ => S.Astray K) (fun _ _ hs _ => hs) fun _ _ hs _ =>
    hs) fun raw => ?_
  refine Job.Spec.bind S.refl (Job.Spec.lift hstable (Q := fun _ => S.Astray K) (fun _ _ hs _ => hs) fun _ _ hs _ =>
    hs) fun stream => ?_
  refine Job.Spec.bind S.refl (Q := fun _ => S.Astray K) (Job.Spec.attempt (extractLayer_astray hK)) fun r => ?_
  rcases r with e | _
  · exact giveUp_spec hK
  · have hne : x.digestOf stream.bytes ≠ l := fun heq => hl (heq ▸ digestOf_shaped x stream.bytes)
    dsimp only
    rw [if_pos hne]
    exact giveUp_spec hK

/-- A layer is extracted in its hidden directory, and renamed when it is complete. -/
theorem stage_named {l : String} {blob : Option Stream} {compression : LayerCompression} {mode : WhiteoutMode}
    (hK : S.Kept K) (hl : DigestShaped l) :
    S.Spec (S.Steady K l) (stageLayer x blob l compression mode) (fun _ s => K s ∧ S.Found l s)
      (fun _ => S.Astray K) := by
  have hsteady := Steady.stable (l := l) hK
  have hfail : Error → Job.Stable S.R (S.Astray K) := fun _ => Astray.stable hK
  have hplace := stagingDir_shaped hl
  have hn := hidden_staging (dashed l)
  have hready : Job.Stable S.R fun s => S.Steady K l s ∧ S.Holds (".tmp-" ++ dashed l) Vacant s :=
    and_stable hsteady Holds.stable
  unfold stageLayer
  dsimp only
  refine Job.Spec.bind S.refl (must_idle hsteady hfail exec_makeLayers
    (fun s w hs hmay => idle_steady hK exec_makeLayers nofun hs hmay) fun _ _ hs => Or.inl hs.1) fun _ => ?_
  refine Job.Spec.bind S.refl (by rw [hplace]; exact removeDirAll_spec hK hn) fun _ => ?_
  refine Job.Spec.bind S.refl (must_idle hready hfail exec_own
    (fun s w hs hmay => ⟨idle_steady hK exec_own nofun hs.1 hmay, ?_⟩) fun _ _ hs => Or.inl hs.1.1) fun _ => ?_
  · obtain ⟨node, hvacant, hmine⟩ := hs.2
    exact ⟨node, hvacant, S.mine_keep hmay rfl (by rw [S.next, exec_own]) hmine⟩
  refine Job.Spec.bind S.refl (Job.Spec.lift hready
    (Q := fun _ s => S.Steady K l s ∧ S.Holds (".tmp-" ++ dashed l) Vacant s)
    (fun _ _ hs _ => hs) fun _ _ hs _ => Or.inl hs.1.1) fun raw => ?_
  refine Job.Spec.bind S.refl (Job.Spec.lift hready
    (Q := fun _ s => S.Steady K l s ∧ S.Holds (".tmp-" ++ dashed l) Vacant s)
    (fun _ _ hs _ => hs) fun _ _ hs _ => Or.inl hs.1.1) fun stream => ?_
  refine Job.Spec.bind S.refl (Q := fun r s => match r with
      | .ok _ => S.Steady K l s ∧ S.Holds (".tmp-" ++ dashed l)
          (fun node => ∃ tree, node = some (.dir tree) ∧ Extracts x mode stream tree) s
      | .error _ => S.Steady K l s ∨ S.lost s)
    (Job.Spec.attempt (by rw [hplace]; exact extractLayer_spec hK hn)) fun r => ?_
  rcases r with e | _
  · exact Job.Spec.pre (giveUp_spec hK) fun _ hs => hs.imp_left fun hs => hs.1
  · dsimp only
    split
    · exact Job.Spec.pre (giveUp_spec hK) fun _ hs => Or.inl hs.1.1
    · rename_i hdigest
      rw [hplace, layerDir_shaped hl]
      refine must_spec (and_stable hsteady Holds.stable) (and_stable hK.stable Found.stable) hfail ?_
      rintro s w ⟨hs, _, ⟨tree, rfl, hextracts⟩, hmine⟩ hmay
      have hget := S.mine_use hmay rfl hmine
      have hcomplete : Complete x l (.dir tree) := ⟨mode, stream, tree, rfl, not_not.mp hdigest, hextracts⟩
      have hmoves := S.next _ w s ▸ moves_rename (w := w) hn hl hget hcomplete
      have hkept : K (S.run (.rename (.child (".tmp-" ++ dashed l)) (.child (dashed l))) w s).2 := by
        refine hK.moves hmay hmoves ?_ hs.1
        rintro p m h
        cases h
        exact hs.2 hl
      refine ⟨S.moves hmay hmoves, fun u hu => ⟨hkept, fun name hname _ => ?_⟩, fun e _ => Or.inl hkept⟩
      rw [layerDir_shaped hl] at hname
      cases hname
      exact S.seen_rename hmay hu

/-- Storing a layer: it is there afterwards, and nothing else has changed but for complete layers. -/
theorem storeLayer_spec {l : String} {blob : Option Stream} {compression : LayerCompression} {mode : WhiteoutMode}
    (hK : S.Kept K) : S.Spec K (storeLayerFromBlob x blob l compression mode) (fun _ s => K s ∧ S.Found l s)
      (fun _ => S.Astray K) := by
  refine Job.Spec.bind S.refl (exists_spec hK) fun b => ?_
  cases b with
  | true =>
    refine (Job.Spec.pure (P := fun s => K s ∧ S.Found l s) (and_stable hK.stable Found.stable) fun _ hs => hs).pre ?_
    exact fun s hs => ⟨hs.1, hs.2.1 rfl⟩
  | false =>
    by_cases hl : DigestShaped l
    · exact (stage_named hK hl).pre fun s hs => hs.2.2 rfl
    · exact (stage_misnamed hK hl).pre fun s hs => hs.1

end Calls

end Setting

end Collocate.Image
