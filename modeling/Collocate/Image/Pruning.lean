import Collocate.Image.Workers

/-! # Prunes among workers (`collocated/src/images.rs`)

A prune lists the metadata first and removes directories after; a worker stores layers first and files
its metadata after. Nothing keeps the two apart: what has to be true for an image to keep its layers is
said step by step. -/
namespace Collocate.Image
set_option autoImplicit false

variable {Tree net ι κ : Type} {x : Env Tree}

/-- `worker_main`: whatever the result is, the client gets a response. -/
def Worker.main (x : Env Tree) (worker : Worker net) : Work Tree Unit := do
  let result ← (worker.job x).attempt
  let _ ← (must (.reply : Op Tree) rfl).attempt
  let _ ← Job.lift result
  pure ()

/-- `ImagePrune`. -/
def prune : Work Tree Unit := do
  let _ ← gc
  pure ()

/-! ## Who counts on what -/

/-- The store and those who use it: which layers a worker has found or stored, which workers have responded,
and which prunes have listed the metadata with no image filed since. -/
structure Yard (Tree ι κ : Type) extends Shared Tree ι where
  seen : List (ι × String) := []
  gone : List ι := []
  fresh : List κ := []

def Op.replies : Op Tree → Bool
  | .reply => true
  | _ => false

def Op.files : Op Tree → Bool
  | .writeMeta _ _ => true
  | _ => false

def Op.lists : Op Tree → Bool
  | .metaFiles => true
  | _ => false

/-- The layer that the answer to a call shows to be there. -/
def shown : (op : Op Tree) → op.Ans → Option String
  | .pathExists (.child n), true => some n
  | .rename (.child _) (.child n), .ok () => some n
  | _, _ => none

def Yard.run (x : Env Tree) : ι ⊕ κ → (op : Op Tree) → Fate Tree → Yard Tree ι κ → op.Ans × Yard Tree ι κ
  | .inl i, op, w, s =>
    ((exec x op w s.disk).1, {
      toShared := (Shared.run x i op w s.toShared).2
      seen := ((shown op (exec x op w s.disk).1).map (Prod.mk i)).toList ++ s.seen
      gone := if op.replies then i :: s.gone else s.gone
      fresh := if op.files then [] else s.fresh })
  | .inr j, op, w, s =>
    ((exec x op w s.disk).1, { s with
      disk := (exec x op w s.disk).2
      fresh := if op.lists then j :: s.fresh else s.fresh })

/-- A prune reads the metadata, and removes a directory only when no image was filed since, and no worker that
has found or stored it is still running. -/
structure Undisturbed (j : κ) (op : Op Tree) (w : Fate Tree) (s : Yard Tree ι κ) : Prop where
  reads : ∀ e, (op = .metaFiles ∨ ∃ file, op = .readMeta file) → w ≠ .broken e
  free : ∀ n, (op = .empty (.child n) ∨ op = .remove (.child n)) → j ∈ s.fresh ∧ ∀ i, (i, n) ∈ s.seen → i ∈ s.gone

/-- The call reads metadata, and is refused. -/
def unread : Op Tree → Fate Tree → Bool
  | .metaFiles, .broken _ | .readMeta _, .broken _ => true
  | _, _ => false

def Op.clears : Op Tree → Option String
  | .empty (.child n) | .remove (.child n) => some n
  | _ => none

theorem Op.clears_eq {op : Op Tree} {n : String} : op.clears = some n ↔ op = .empty (.child n) ∨
    op = .remove (.child n) := by
  constructor
  · intro h
    unfold Op.clears at h
    split at h
    · cases h
      exact Or.inl rfl
    · cases h
      exact Or.inr rfl
    · cases h
  · rintro (rfl | rfl) <;> rfl

instance decidableUndisturbed [DecidableEq ι] [DecidableEq κ] (j : κ) (op : Op Tree) (w : Fate Tree)
    (s : Yard Tree ι κ) :
    Decidable (Undisturbed j op w s) :=
  decidable_of_iff (unread op w = false ∧ ∀ n ∈ op.clears, j ∈ s.fresh ∧ ∀ e ∈ s.seen, e.2 = n → e.1 ∈ s.gone) (by
    constructor
    · rintro ⟨hread, hfree⟩
      refine ⟨?_, fun n hop => ?_⟩
      · rintro e (rfl | ⟨file, rfl⟩) rfl <;> cases hread
      · obtain ⟨hj, hgone⟩ := hfree n (Op.clears_eq.mpr hop)
        exact ⟨hj, fun i hseen => hgone (i, n) hseen rfl⟩
    · intro h
      refine ⟨?_, fun n hop => ?_⟩
      · unfold unread
        split
        · exact absurd rfl (h.reads _ (Or.inl rfl))
        · exact absurd rfl (h.reads _ (Or.inr ⟨_, rfl⟩))
        · rfl
      · obtain ⟨hj, hgone⟩ := h.free n (Op.clears_eq.mp hop)
        refine ⟨hj, ?_⟩
        rintro ⟨i, m⟩ hseen rfl
        exact hgone i hseen)

def Apart : ι ⊕ κ → (op : Op Tree) → Fate Tree → Yard Tree ι κ → Prop
  | .inl i, op, w, s => Orderly i op w s.toShared ∧ i ∉ s.gone
  | .inr j, op, w, s => Undisturbed j op w s

instance decidableApart [DecidableEq ι] [DecidableEq κ] [DecidableEq Tree] (p : ι ⊕ κ) (op : Op Tree) (w : Fate Tree)
    (s : Yard Tree ι κ) : Decidable (Apart p op w s) :=
  match p with
  | .inl i => inferInstanceAs (Decidable (Orderly i op w s.toShared ∧ i ∉ s.gone))
  | .inr j => inferInstanceAs (Decidable (Undisturbed j op w s))

/-! ## The invariant -/

/-- Every layer of every stored image is there, if its id is the name of a visible child. -/
def Stocked (d : Disk Tree) : Prop :=
  ∀ file img, d.metas.get? file = some (.whole img) → ∀ l ∈ img.layers, '/' ∉ l.toList → There d l

/-- The images have their layers, and what a running worker has found or stored is there. -/
structure Yard.Inv (s : Yard Tree ι κ) : Prop where
  stocked : Stocked s.disk
  counted : ∀ i n, (i, n) ∈ s.seen → i ∉ s.gone → hidden n = false → s.disk.layers.contains n = true

/-- The metadata of `d'` was there in `d`. -/
def NoNews (d d' : Disk Tree) : Prop :=
  ∀ file img, d'.metas.get? file = some (.whole img) → d.metas.get? file = some (.whole img)

/-- What one of them may find changed by the others. -/
structure Relied (p : ι ⊕ κ) (s s' : Yard Tree ι κ) : Prop where
  kept : ∀ i, p = .inl i → ∀ n, hidden n = true → lastAt n s'.log = some i →
    lastAt n s.log = some i ∧ s'.disk.layers.get? n = s.disk.layers.get? n
  logged : ∀ e ∈ s.log, e ∈ s'.log
  seen : ∀ e ∈ s.seen, e ∈ s'.seen
  fresh : ∀ j, p = .inr j → j ∈ s'.fresh → j ∈ s.fresh ∧ NoNews s.disk s'.disk

/-- What one of them does: the invariant is kept, and the others can rely on it. -/
structure Guaranteed (p : ι ⊕ κ) (s s' : Yard Tree ι κ) : Prop where
  inv : s.Inv → s'.Inv
  others : ∀ q, p ≠ q → Relied q s s'

theorem Relied.refl (p : ι ⊕ κ) (s : Yard Tree ι κ) : Relied p s s :=
  ⟨fun _ _ _ _ h => ⟨h, rfl⟩, fun _ h => h, fun _ h => h, fun _ _ h => ⟨h, fun _ _ hget => hget⟩⟩

theorem Relied.trans {p : ι ⊕ κ} {s s₁ s₂ : Yard Tree ι κ} (h : Relied p s s₁) (h' : Relied p s₁ s₂) :
    Relied p s s₂ := by
  refine ⟨fun i hp n hn hlast => ?_, fun e he => h'.logged e (h.logged e he), fun e he => h'.seen e (h.seen e he),
    fun j hp hj => ?_⟩
  · obtain ⟨hlast₁, hsame₁⟩ := h'.kept i hp n hn hlast
    obtain ⟨hlast₀, hsame₀⟩ := h.kept i hp n hn hlast₁
    exact ⟨hlast₀, hsame₁.trans hsame₀⟩
  · obtain ⟨hj₁, hnews₁⟩ := h'.fresh j hp hj
    obtain ⟨hj₀, hnews₀⟩ := h.fresh j hp hj₁
    exact ⟨hj₀, fun file img hget => hnews₀ file img (hnews₁ file img hget)⟩

/-! ## What a worker does -/

section Worker
variable {i : ι} {op : Op Tree} {w : Fate Tree} {s : Yard Tree ι κ}

/-- The others find what they rely on after a call of a worker. -/
theorem worker_relied (hhides : ∀ n, hidden n = true → op.touched ≠ some n →
      (exec x op w s.disk).2.layers.get? n = s.disk.layers.get? n)
    (hnews : op.files = true ∨ NoNews s.disk (exec x op w s.disk).2) (q : ι ⊕ κ) (hq : .inl i ≠ q) :
    Relied q s (Yard.run x (.inl i) op w s).2 := by
  refine ⟨fun i' hp n hn hlast => ?_, fun e he => List.mem_append_right _ he, fun e he => List.mem_append_right _ he,
    fun j hp hj => ?_⟩
  · subst hp
    have hii : i ≠ i' := fun heq => hq (heq ▸ rfl)
    have hlast : lastAt n ((op.touched.map (Prod.mk i)).toList ++ s.log) = some i' := hlast
    cases htouched : op.touched with
    | none =>
      rw [htouched] at hlast
      exact ⟨hlast, hhides n hn (by rw [htouched]; exact nofun)⟩
    | some m =>
      rw [htouched] at hlast
      have hlast : lastAt n ((i, m) :: s.log) = some i' := hlast
      by_cases hm : m = n
      · rw [hm, lastAt_cons_self] at hlast
        exact absurd (Option.some.inj hlast) hii
      · rw [lastAt_cons_ne hm] at hlast
        exact ⟨hlast, hhides n hn (by rw [htouched]; exact fun heq => hm (Option.some.inj heq))⟩
  · have hj : j ∈ (if op.files then [] else s.fresh) := hj
    rcases hnews with hfiles | hnews
    · rw [if_pos hfiles] at hj
      cases hj
    · split at hj
      · cases hj
      · exact ⟨hj, hnews⟩

theorem shown_there {n : String} {d : Disk Tree} (h : shown op (exec x op w d).1 = some n) :
    (exec x op w d).2.layers.contains n = true := by
  unfold shown at h
  split at h
  · rename_i hans
    cases h
    exact exec_pathExists_true hans
  · rename_i hans
    cases h
    exact exec_rename_ok hans
  · cases h

/-- The invariant after a call of a worker that adds layers and, maybe, files an image. -/
theorem worker_inv (hgrows : Grows x s.disk (exec x op w s.disk).2)
    (hstocked : s.Inv → Stocked (exec x op w s.disk).2) (h : s.Inv) : (Yard.run x (.inl i) op w s).2.Inv := by
  refine ⟨hstocked h, fun i' n hseen hgone hn => ?_⟩
  have hseen : (i', n) ∈ ((shown op (exec x op w s.disk).1).map (Prod.mk i)).toList ++ s.seen := hseen
  rcases List.mem_append.mp hseen with hnew | hold
  · obtain ⟨m, hm, heq⟩ : ∃ m, shown op (exec x op w s.disk).1 = some m ∧ (i, m) = (i', n) := by
      rw [Option.mem_toList] at hnew
      exact Option.map_eq_some_iff.mp hnew
    cases heq
    exact shown_there hm
  · refine hgrows.contains hn (h.counted i' n hold (fun hmem => hgone ?_) hn)
    show i' ∈ (if op.replies then i :: s.gone else s.gone)
    split
    · exact List.mem_cons_of_mem _ hmem
    · exact hmem

theorem Stocked.grows {d d' : Disk Tree} (h : Stocked d) (hgrows : Grows x d d') (hnews : NoNews d d') : Stocked d' :=
  fun file img hget l hl hslash => (h file img (hnews file img hget) l hl hslash).grows hgrows

theorem worker_guarantee (hgrows : Grows x s.disk (exec x op w s.disk).2)
    (hhides : ∀ n, hidden n = true → op.touched ≠ some n →
      (exec x op w s.disk).2.layers.get? n = s.disk.layers.get? n)
    (hnews : NoNews s.disk (exec x op w s.disk).2) : Guaranteed (.inl i) s (Yard.run x (.inl i) op w s).2 :=
  ⟨worker_inv hgrows fun h => h.stocked.grows hgrows hnews, fun q hq => worker_relied hhides (Or.inr hnews) q hq⟩

end Worker

/-- A worker among others and prunes. -/
def amid (x : Env Tree) (i : ι) : Setting x (Yard Tree ι κ) where
  run := Yard.run x (.inl i)
  may := Apart (.inl i)
  R := Relied (.inl i)
  G := Guaranteed (.inl i)
  disk s := s.disk
  Mine n v s := hidden n = true ∧ (i, n) ∈ s.log ∧ (lastAt n s.log = some i → s.disk.layers.get? n = v)
  Unseen _ _ := True
  Seen n s := (i, n) ∈ s.seen
  lost _ := False
  refl := .refl (.inl i)
  ans _ _ _ := rfl
  next _ _ _ := rfl
  mine_stable := by
    rintro n v s s' ⟨hn, hlog, hlast⟩ hR
    refine ⟨hn, hR.logged _ hlog, fun hlast' => ?_⟩
    obtain ⟨hbefore, hsame⟩ := hR.kept i rfl n hn hlast'
    exact hsame.trans (hlast hbefore)
  unseen_stable _ _ _ _ _ := trivial
  seen_stable _ _ _ _ hs hR := hR.seen _ hs
  lost_stable _ _ h _ := h
  mine_use := by
    rintro op w s n v hmay htouched ⟨_, hlog, hlast⟩
    rcases hmay.1.turn n htouched with hturn | hnever
    · exact hlast hturn
    · exact absurd hlog hnever
  mine_set := by
    intro op w s n _ hn htouched
    refine ⟨hn, ?_, fun _ => rfl⟩
    show (i, n) ∈ (op.touched.map (Prod.mk i)).toList ++ s.log
    rw [htouched]
    exact List.mem_cons_self ..
  mine_keep := by
    rintro op w s n v _ htouched hdisk ⟨hn, hlog, hlast⟩
    have hsame : (Yard.run x (.inl i) op w s).2.log = s.log := by
      show (op.touched.map (Prod.mk i)).toList ++ s.log = s.log
      rw [htouched]
      rfl
    rw [hsame, hdisk]
    exact ⟨hn, hlog, hlast⟩
  unseen_set _ _ := trivial
  unseen_keep _ _ _ _ := trivial
  seen_set := by
    intro w s n _ h
    refine List.mem_append_left _ ?_
    rw [show shown (.pathExists (.child n)) (exec x (.pathExists (.child n)) w s.disk).1 = some n by rw [h]; rfl]
    exact List.mem_cons_self ..
  seen_rename := by
    intro w s m n _ h
    refine List.mem_append_left _ ?_
    rw [show shown (.rename (.child m) (.child n)) (exec x (.rename (.child m) (.child n)) w s.disk).1 =
      some n by rw [h]; rfl]
    exact List.mem_cons_self ..
  seen_keep _ _ _ hs := List.mem_append_right _ hs
  moves _ h := worker_guarantee h.grows h.hides fun _ _ hget => h.metas ▸ hget
  strays h hstray := absurd hstray (not_or.mpr ⟨by rw [h.1.inside]; exact nofun, h.1.stays⟩)
  loses _ h := h.elim
  empties h := h.1.removes _ _ (Or.inl rfl) rfl
  removes h := h.1.removes _ _ (Or.inr rfl) rfl

theorem amid_filed (x : Env Tree) (i : ι) : (amid (κ := κ) x i).Filed (fun _ => True) (fun _ => True) where
  stable := fun _ _ _ _ => trivial
  moves := fun _ _ _ _ => trivial
  opens := by
    intro file w s _ _
    have hlayers := Setting.exec_openMeta_layers (x := x) file w s.disk
    exact ⟨worker_guarantee (.of_eq hlayers) (fun n _ _ => congrArg (·.get? n) hlayers)
      fun _ _ hget => Setting.exec_openMeta_whole hget, trivial⟩
  writes := by
    intro file img w s hmay _ _ hfound
    have hlayers := Setting.exec_writeMeta_layers (x := x) file img w s.disk
    have hgrows : Grows x s.disk (exec x (.writeMeta file img) w s.disk).2 := .of_eq hlayers
    refine ⟨⟨worker_inv hgrows fun h file' img' hget l hl hslash => ?_, fun q hq =>
      worker_relied (fun n _ _ => congrArg (·.get? n) hlayers) (Or.inl rfl) q hq⟩, trivial⟩
    rcases Setting.exec_writeMeta_whole hget with hbefore | rfl
    · exact (h.stocked file' img' hbefore l hl hslash).grows hgrows
    · refine There.grows (x := x) (fun name hplace hname => ?_) hgrows
      exact h.counted i name (hfound l hl name hplace hname) hmay.2 hname

theorem amid_passed (x : Env Tree) (i : ι) : (amid (κ := κ) x i).Passed (fun _ => True) (fun _ _ => True) where
  kept _ := ⟨fun _ _ _ _ => ⟨trivial, trivial⟩, fun _ _ _ _ => ⟨trivial, trivial⟩⟩
  stored _ _ _ _ _ := trivial
  found _ _ _ _ := trivial

theorem main_spec (x : Env Tree) (i : ι) (worker : Worker net) :
    (amid (κ := κ) x i).Spec (fun _ => True) (worker.main x) (fun _ _ => True) (fun _ _ => True) := by
  have hK := amid_filed (κ := κ) x i
  have hstable : Job.Stable (amid (κ := κ) x i).R fun _ => True := fun _ _ _ _ => trivial
  have hjob : (amid (κ := κ) x i).Spec (fun _ => True) (worker.job x) (fun _ _ => True) (fun _ _ => True) := by
    cases worker with
    | imagePull src r conn policy =>
      refine Job.Spec.bind (amid x i).refl (Q := fun _ _ => True) ?_ fun _ => Job.Spec.pure hstable fun _ _ => trivial
      exact (Setting.ensurePulled_spec hK (amid_passed x i) policy).conseq (fun _ hs => hs) (fun _ _ _ => trivial)
        fun _ _ _ => trivial
    | imageImport unpacked =>
      exact (Setting.importArchive_spec hK unpacked).conseq (fun _ hs => hs) (fun _ _ _ => trivial) fun _ _ _ => trivial
  refine Job.Spec.bind (amid x i).refl (Q := fun _ _ => True) (Job.Spec.attempt hjob) fun result => ?_
  refine Job.Spec.bind (amid x i).refl (Q := fun _ _ => True) (Job.Spec.attempt ?_) fun _ => ?_
  · exact Setting.must_idle hstable (fun _ => hstable) (fun w d => Setting.exec_own (x := x) w d)
      (fun _ _ _ _ => trivial)
      fun _ _ _ => trivial
  · refine Job.Spec.bind (amid x i).refl (Q := fun _ _ => True)
      (Job.Spec.lift hstable (fun _ _ _ _ => trivial) fun _ _ _ _ => trivial) fun _ => ?_
    exact Job.Spec.pure hstable fun _ _ => trivial

/-! ## What a prune does -/

section Prune
variable {j : κ}

/-- The prune `j` among workers and other prunes. -/
abbrev PruneSpec {α : Type} (x : Env Tree) (j : κ) (P : Yard Tree ι κ → Prop) (job : Work Tree α)
    (Q : α → Yard Tree ι κ → Prop)
    (E : Error → Yard Tree ι κ → Prop) : Prop :=
  Job.Spec (Yard.run x (.inr j)) (Apart (.inr j)) (Relied (.inr j)) (Guaranteed (.inr j)) P job Q E

/-- While no image was filed since the prune listed the metadata, `P` holds of every stored image. -/
def Knows (j : κ) (P : String → ImageMeta → Prop) (s : Yard Tree ι κ) : Prop :=
  j ∈ s.fresh → ∀ file img, s.disk.metas.get? file = some (.whole img) → P file img

theorem Knows.stable {P : String → ImageMeta → Prop} : Job.Stable (Relied (.inr j)) fun s : Yard Tree ι κ =>
    Knows j P s := by
  intro s s' hs hR hj file img hget
  obtain ⟨hj', hnews⟩ := hR.fresh j rfl hj
  exact hs hj' file img (hnews file img hget)

/-- The others find what they rely on after a call of a prune that leaves hidden children and metadata alone. -/
theorem prune_relied {op : Op Tree} {w : Fate Tree} {s : Yard Tree ι κ}
    (hhidden : ∀ n, hidden n = true → (exec x op w s.disk).2.layers.get? n = s.disk.layers.get? n)
    (hmetas : (exec x op w s.disk).2.metas = s.disk.metas) (q : ι ⊕ κ) (hq : .inr j ≠ q) :
    Relied q s (Yard.run x (.inr j) op w s).2 := by
  refine ⟨fun i _ n hn hlast => ⟨hlast, hhidden n hn⟩, fun _ he => he, fun _ he => he, fun j' hp hj' => ?_⟩
  refine ⟨?_, fun file img hget => (congrArg (·.get? file) hmetas).symm.trans hget⟩
  have hj' : j' ∈ (if op.lists then j :: s.fresh else s.fresh) := hj'
  split at hj'
  · rcases List.mem_cons.mp hj' with rfl | hj'
    · exact absurd hp.symm hq
    · exact hj'
  · exact hj'

/-- A call that only looks. -/
theorem prune_looks {op : Op Tree} {w : Fate Tree} {s : Yard Tree ι κ} (hdisk : (exec x op w s.disk).2 = s.disk) :
    Guaranteed (.inr j) s (Yard.run x (.inr j) op w s).2 := by
  refine ⟨fun h => ⟨?_, fun i n hseen hgone hn => ?_⟩, prune_relied (fun n _ => by rw [hdisk]) (by rw [hdisk])⟩
  · show Stocked (exec x op w s.disk).2
    rw [hdisk]
    exact h.stocked
  · show (exec x op w s.disk).2.layers.contains n = true
    rw [hdisk]
    exact h.counted i n hseen hgone hn

theorem exec_metaFiles {w : Fate Tree} (hw : ∀ e, w ≠ .broken e) (d : Disk Tree) :
    exec x .metaFiles w d = (d.metas.keys, d) := by
  cases w <;> first | rfl | exact absurd rfl (hw _)

theorem exec_readMeta (file : String) {w : Fate Tree} (hw : ∀ e, w ≠ .broken e) (d : Disk Tree) :
    exec x (.readMeta file) w d = (readMetaFile d file, d) := by
  cases w <;> first | rfl | exact absurd rfl (hw _)

theorem exec_layerNames_disk (w : Fate Tree) (d : Disk Tree) : (exec x .layerNames w d).2 = d := by
  cases w <;> rfl

theorem metaFiles_spec {E : Error → Yard Tree ι κ → Prop} :
    PruneSpec x j (fun _ => True) metaFiles (fun files => Knows j fun file _ => file ∈ files) E := by
  refine Job.Spec.ask (fun _ _ _ _ => trivial) (fun _ => Knows.stable) fun s w _ hmay => ?_
  have hexec := exec_metaFiles (x := x) (fun e => hmay.reads e (Or.inl rfl)) s.disk
  refine ⟨prune_looks (by rw [hexec]), fun _ file img hget => ?_⟩
  show file ∈ (exec x .metaFiles w s.disk).1
  have hget : (exec x .metaFiles w s.disk).2.metas.get? file = some (.whole img) := hget
  rw [hexec] at hget ⊢
  exact OrdMap.mem_keys.mpr ⟨_, hget⟩

theorem readMeta_spec {E : Error → Yard Tree ι κ → Prop} {P : String → ImageMeta → Prop} (file : String) :
    PruneSpec x j (Knows j P) (readMeta file) (fun a => Knows j fun f img => P f img ∧ (f = file → a = .ok img)) E := by
  refine Job.Spec.ask Knows.stable (fun _ => Knows.stable) fun s w hs hmay => ?_
  have hexec := exec_readMeta (x := x) file (fun e => hmay.reads e (Or.inr ⟨file, rfl⟩)) s.disk
  refine ⟨prune_looks (by rw [hexec]), fun hj f img hget => ?_⟩
  have hget : (exec x (.readMeta file) w s.disk).2.metas.get? f = some (.whole img) := hget
  show P f img ∧ (f = file → (exec x (.readMeta file) w s.disk).1 = .ok img)
  rw [hexec] at hget ⊢
  refine ⟨hs hj f img hget, ?_⟩
  rintro rfl
  show readMetaFile s.disk f = .ok img
  unfold readMetaFile
  rw [hget]

theorem collect_readMeta_spec {E : Error → Yard Tree ι κ → Prop} {P : String → ImageMeta → Prop} (files : List String) :
    PruneSpec x j (Knows j P) (Job.collect readMeta files)
      (fun read => Knows j fun f img => P f img ∧ (f ∈ files → .ok img ∈ read)) E := by
  induction files generalizing P with
  | nil => exact Job.Spec.pure Knows.stable fun s hs hj f img hget => ⟨hs hj f img hget, nofun⟩
  | cons file rest ih =>
    refine Job.Spec.bind (Relied.refl _) (readMeta_spec file) fun a => ?_
    refine Job.Spec.bind (Relied.refl _) ih fun read => ?_
    refine Job.Spec.pure Knows.stable fun s hs hj f img hget => ?_
    obtain ⟨⟨hP, hfile⟩, hrest⟩ := hs hj f img hget
    refine ⟨hP, fun hf => ?_⟩
    rcases List.mem_cons.mp hf with rfl | hf
    · rw [hfile rfl]
      exact List.mem_cons_self ..
    · exact List.mem_cons_of_mem _ (hrest hf)

theorem list_spec {E : Error → Yard Tree ι κ → Prop} :
    PruneSpec x j (fun _ => True) list (fun imgs => Knows j fun _ img => img ∈ imgs) E := by
  refine Job.Spec.bind (Relied.refl _) metaFiles_spec fun files => ?_
  refine Job.Spec.bind (Relied.refl _) (collect_readMeta_spec files) fun read => ?_
  refine Job.Spec.pure Knows.stable fun s hs hj f img hget => ?_
  obtain ⟨hfile, hread⟩ := hs hj f img hget
  rw [List.mem_insertionSort]
  exact List.mem_filterMap.mpr ⟨_, hread hfile, rfl⟩

/-- Removing a directory that no stored image lists. -/
theorem prune_removes {op : Op Tree} {w : Fate Tree} {s : Yard Tree ι κ} {name : String} {imgs : List ImageMeta}
    (hop : op = .empty (.child name) ∨ op = .remove (.child name)) (hname : hidden name = false)
    (hlisted : ∀ img ∈ imgs, ∀ l ∈ img.layers, dashed l ≠ name) (hknows : Knows j (fun _ img => img ∈ imgs) s)
    (hmay : Undisturbed j op w s) : Guaranteed (.inr j) s (Yard.run x (.inr j) op w s).2 ∧
      Knows j (fun _ img => img ∈ imgs) (Yard.run x (.inr j) op w s).2 := by
  obtain ⟨hj, hfree⟩ := hmay.free name hop
  have hworks : op.worksIn name := hop.elim (fun h => .inr (.inr (.inl h))) fun h => .inr (.inr (.inr h))
  have hwithin : Within name s.disk (exec x op w s.disk).2 :=
    within_of_worksIn hworks (Setting.not_escapes_of_ne fun p f heq =>
      by rcases hop with h | h <;> rw [h] at heq <;> cases heq)
  have hother : ∀ n, n ≠ name → s.disk.layers.contains n = true → (exec x op w s.disk).2.layers.contains n = true := by
    intro n hn hthere
    unfold OrdMap.contains at hthere ⊢
    rw [hwithin.other n hn]
    exact hthere
  have hmetas : ∀ file img, (exec x op w s.disk).2.metas.get? file = some (.whole img) →
      s.disk.metas.get? file = some (.whole img) := fun file img hget => hwithin.metas ▸ hget
  refine ⟨⟨fun h => ⟨fun file img hget l hl hslash n hplace hn => ?_, fun i n hseen hgone hn => ?_⟩,
    prune_relied (fun n hn => hwithin.other n ?_) hwithin.metas⟩, fun _ file img hget =>
      hknows hj file img (hmetas file img hget)⟩
  · have hstored := hmetas file img hget
    refine hother n ?_ (h.stocked file img hstored l hl hslash n hplace hn)
    rw [eq_dashed hslash hplace]
    exact hlisted img (hknows hj file img hstored) l hl
  · refine hother n ?_ (h.counted i n hseen hgone hn)
    rintro rfl
    exact hgone (hfree i hseen)
  · rintro rfl
    rw [hname] at hn
    cases hn

theorem must_removes {op : Op Tree} {h : op.Ans = Result Unit} {name : String} {imgs : List ImageMeta}
    (hop : op = .empty (.child name) ∨ op = .remove (.child name)) (hname : hidden name = false)
    (hlisted : ∀ img ∈ imgs, ∀ l ∈ img.layers, dashed l ≠ name) :
    PruneSpec (ι := ι) x j (Knows j fun _ img => img ∈ imgs) (must op h) (fun _ => Knows j fun _ img => img ∈ imgs)
      (fun _ _ => True) := by
  refine Job.Spec.bind (Relied.refl _) (Q := fun _ => Knows j fun _ img => img ∈ imgs)
    (Job.Spec.ask Knows.stable (fun _ => Knows.stable) fun s w hs hmay => prune_removes hop hname hlisted hs hmay)
      fun a => ?_
  exact Job.Spec.lift Knows.stable (fun _ _ hs _ => hs) fun _ _ _ _ => trivial

theorem prune_spec : PruneSpec (ι := ι) x j (fun _ => True) prune (fun _ _ => True) (fun _ _ => True) := by
  have htrue : Job.Stable (Relied (.inr j)) fun _ : Yard Tree ι κ => True := fun _ _ _ _ => trivial
  refine Job.Spec.bind (Relied.refl _) (Q := fun _ _ => True) ?_ fun _ => Job.Spec.pure htrue fun _ _ => trivial
  refine Job.Spec.bind (Relied.refl _) list_spec fun imgs => ?_
  dsimp only
  refine Job.Spec.bind (Relied.refl _) (Q := fun _ => Knows j fun _ img => img ∈ imgs)
    (Job.Spec.ask Knows.stable (fun _ => Knows.stable) fun s w hs _ => ?_) fun names => ?_
  · have hdisk := exec_layerNames_disk (x := x) w s.disk
    refine ⟨prune_looks hdisk, fun hj file img hget => hs hj file img ?_⟩
    have hget : (exec x .layerNames w s.disk).2.metas.get? file = some (.whole img) := hget
    rw [hdisk] at hget
    exact hget
  · -- The loop over the directories that are left: each is visible, and listed by no image read.
    let Left (rest : List String) (s : Yard Tree ι κ) : Prop :=
      (∀ name ∈ rest, hidden name = false ∧ ∀ img ∈ imgs, ∀ l ∈ img.layers, dashed l ≠ name) ∧
        Knows j (fun _ img => img ∈ imgs) s
    have hleft : ∀ rest, Job.Stable (Relied (.inr j)) (Left rest) := fun rest s s' hs hR =>
      ⟨hs.1, Knows.stable _ _ hs.2 hR⟩
    refine Job.Spec.bind (Relied.refl _) (Q := fun _ => Left [])
      ((Job.Spec.forM (Relied.refl _) (J := Left) (hleft []) _ fun name rest => ?_).pre ?_) fun _ =>
        (Job.Spec.pure htrue fun _ _ => trivial).pre fun _ _ => trivial
    · rintro s ⟨hrest, hknows⟩
      obtain ⟨hname, hlisted⟩ := hrest name (List.mem_cons_self ..)
      have hremoves := Job.Spec.bind (Relied.refl _)
        (must_removes (ι := ι) (x := x) (j := j) (h := rfl) (Or.inl rfl) hname hlisted)
        fun _ => must_removes (h := rfl) (Or.inr rfl) hname hlisted
      refine (hremoves s hknows).post fun r s' hr => ?_
      cases r with
      | ok u => exact ⟨fun n hn => hrest n (List.mem_cons_of_mem _ hn), hr⟩
      | error e => trivial
    · intro s hs
      refine ⟨fun name hname => ?_, hs⟩
      have hkept := (List.mem_filter.mp hname).2
      rw [Bool.and_eq_true, Bool.not_eq_true', Bool.not_eq_true'] at hkept
      refine ⟨hkept.1, fun img hi l hl heq => ?_⟩
      have hreferenced : (imgs.flatMap fun img => img.layers.map dashed).contains name = true :=
        List.contains_iff_mem.mpr (List.mem_flatMap.mpr ⟨img, hi, List.mem_map.mpr ⟨l, hl, heq⟩⟩)
      rw [hkept.2] at hreferenced
      cases hreferenced

end Prune

/-! ## All at once -/

/-- Workers, each at its request, and prunes. -/
def parties (x : Env Tree) (workers : ι → Worker net) : ι ⊕ κ → Work Tree Unit
  | .inl i => (workers i).main x
  | .inr _ => prune

/-- In every run in which prunes and workers keep apart, every stored image has its layers. -/
theorem prunes_keep_images [DecidableEq ι] [DecidableEq κ] (x : Env Tree) (workers : ι → Worker net) (d : Disk Tree)
    (hstocked : Stocked d) (pool : ι ⊕ κ → Work Tree Unit) (s : Yard Tree ι κ)
    (hrun : Job.Runs (Yard.run x) Apart (parties x workers) { disk := d } pool s) : Stocked s.disk := by
  have hsafe := Job.Runs.safe (R := Relied) (G := Guaranteed) (Q := fun _ _ _ => True)
    (fun p _ _ _ h h' => h.trans h') Relied.refl (fun p q _ _ hpq hG => hG.others q hpq) (I := Yard.Inv)
    (fun p _ _ hG hs => hG.inv hs) hrun ?_ ⟨hstocked, nofun⟩
  · exact hsafe.2.stocked
  · rintro (i | j)
    · exact (main_spec x i (workers i) _ trivial).post fun _ _ _ => trivial
    · exact (prune_spec (x := x) (j := j) _ trivial).post fun _ _ _ => trivial

/-! ## A worker and a prune -/

def fileWorker (_ : Unit) : Worker Unit := .imageImport (.ok fileArchive)

/-- The calls of the worker (`true`) and of the prune (`false`), all of which go well. -/
def schedule (turns : List Bool) : List ((Unit ⊕ Unit) × Fate (List String)) :=
  turns.map fun worker => (if worker then .inl () else .inr (), .fine)

/-- A store with a layer that no image lists. -/
def orphaned : Disk (List String) := { layers := OrdMap.empty.insert "sha256-00" (.dir []) }

/-- The prune removes the layer while the worker is on its way. -/
def prunedOrphan : Option ((Unit ⊕ Unit → Work (List String) Unit) × Yard (List String) Unit Unit) :=
  Job.playIf (Yard.run commitEnv) (fun p op w s => decide (Apart p op w s))
    (schedule ([true, true, false, false, false, false] ++ List.replicate 12 true)) (parties commitEnv fileWorker)
    { disk := orphaned }

theorem stocked_of_no_metas {d : Disk Tree} (h : d.metas = OrdMap.empty) : Stocked d := by
  intro file img hget
  rw [h, OrdMap.get?_empty] at hget
  cases hget

/-- Both end well, and the image has its layers. -/
theorem orphan_pruned : ∃ pool s, Job.Runs (Yard.run commitEnv) Apart (parties commitEnv fileWorker)
      { disk := orphaned } pool s ∧ pool (.inl ()) = .done (.ok ()) ∧ pool (.inr ()) = .done (.ok ()) ∧
        Stocked s.disk := by
  have hplayed : prunedOrphan.map (fun r => ((r.1 (.inl ())).result, (r.1 (.inr ())).result)) =
      some (some (.ok ()), some (.ok ())) := by decide +kernel
  obtain ⟨r, hr, hend⟩ := Option.map_eq_some_iff.mp hplayed
  obtain ⟨hworker, hprune⟩ := Prod.mk.inj hend
  have hrun : Job.Runs (Yard.run commitEnv) Apart (parties commitEnv fileWorker) { disk := orphaned } r.1 r.2 :=
    Job.runs_playIf (fun _ _ _ _ h => of_decide_eq_true h) _ hr
  exact ⟨r.1, r.2, hrun, Job.result_eq_some.mp hworker, Job.result_eq_some.mp hprune,
    prunes_keep_images commitEnv fileWorker orphaned (stocked_of_no_metas rfl) r.1 r.2 hrun⟩

/-- The worker has stored its layer but not filed its image when the prune comes. -/
def prunedEarly : (Unit ⊕ Unit → Work (List String) Unit) × Yard (List String) Unit Unit :=
  Job.play (Yard.run commitEnv) (schedule (List.replicate 8 true ++ List.replicate 4 false ++ List.replicate 6 true))
    (parties commitEnv fileWorker) { disk := {} }

/-- Both end well, and the image that was filed has no layer. -/
theorem stored_layer_pruned : Stocked ({} : Disk (List String)) ∧
    Job.Runs (Yard.run commitEnv) (fun _ _ _ _ => True) (parties commitEnv fileWorker) { disk := {} }
      prunedEarly.1 prunedEarly.2 ∧
    prunedEarly.1 (.inl ()) = .done (.ok ()) ∧ prunedEarly.1 (.inr ()) = .done (.ok ()) ∧
    ¬ Stocked prunedEarly.2.disk := by
  have hend : ((prunedEarly.1 (.inl ())).result, (prunedEarly.1 (.inr ())).result,
      prunedEarly.2.disk.metas.get? (metaFile fileImage.name), prunedEarly.2.disk.layers.contains (dashed fileId)) =
      (some (.ok ()), some (.ok ()), some (.whole fileImage), false) := by decide +kernel
  simp only [Prod.mk.injEq] at hend
  obtain ⟨hworker, hprune, hstored, hmissing⟩ := hend
  refine ⟨stocked_of_no_metas rfl, Job.runs_play (fun _ _ _ _ => trivial) _ _ _, Job.result_eq_some.mp hworker,
    Job.result_eq_some.mp hprune, fun h => ?_⟩
  have hshaped : DigestShaped fileId := ⟨Registry.hashBytes fileTarHash, rfl⟩
  have hslash : '/' ∉ fileId.toList := by decide +kernel
  have hthere := h _ fileImage hstored fileId (List.mem_singleton_self _) hslash _ (layerDir_shaped hshaped)
    (visible_shaped hshaped)
  rw [hmissing] at hthere
  cases hthere

end Collocate.Image
