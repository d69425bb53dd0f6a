import Collocate.Image.Crash

/-! # Workers at once

Every pull and every import is a process of its own on the same store, without a lock. Two that store
the same layer share its staging directory; as long as they take turns there, layers become visible
complete, and a worker that succeeds has them all. -/
namespace Collocate.Image
set_option autoImplicit false

open Registry (Reference Conn)

variable {Tree net ι : Type} {x : Env Tree}

/-- What `spawn_image_worker` starts. -/
inductive Worker (net : Type)
  | imagePull (src : Source net) (r : Reference) (conn : Conn net) (policy : PullPolicy)
  | imageImport (unpacked : Result Archive)

/-- `handle_worker`. -/
def Worker.job (x : Env Tree) : Worker net → Work Tree (List ImageMeta)
  | .imagePull src r conn policy => do
    let img ← ensurePulled x src r conn policy
    pure [img]
  | .imageImport unpacked => importArchive x unpacked

/-! ## Turns -/

/-- The store, and who has worked in which directory, the latest first. -/
structure Shared (Tree ι : Type) where
  disk : Disk Tree
  log : List (ι × String) := []

def Shared.run (x : Env Tree) (i : ι) (op : Op Tree) (w : Fate Tree) (s : Shared Tree ι) : op.Ans × Shared Tree ι :=
  ((exec x op w s.disk).1, { disk := (exec x op w s.disk).2, log := (op.touched.map (Prod.mk i)).toList ++ s.log })

/-- Who worked in the directory `n` last. -/
def lastAt (n : String) (log : List (ι × String)) : Option ι := (log.find? fun e => e.2 == n).map Prod.fst

/-- A call that stays in `layers/`, and comes to a staging directory in turn: the last call there was the worker's
own, or it has made none there yet. -/
structure Orderly (i : ι) (op : Op Tree) (w : Fate Tree) (s : Shared Tree ι) : Prop where
  removes : ∀ p e, op = .empty p ∨ op = .remove p → w ≠ .broken e
  inside : op.stray = false
  stays : ¬ Escapes op s.disk
  turn : ∀ n, op.touched = some n → lastAt n s.log = some i ∨ (i, n) ∉ s.log

instance decidableEscapes [DecidableEq Tree] (op : Op Tree) (d : Disk Tree) : Decidable (Escapes op d) :=
  match op with
  | .edit (.child n) f => match hget : d.layers.get? n with
    | some (.dir tree) => decidable_of_iff (f tree = .escape) (by
        constructor
        · exact fun h => ⟨n, f, tree, rfl, hget, h⟩
        · rintro ⟨_, _, _, heq, hget', h⟩
          cases heq
          rw [hget] at hget'
          cases hget'
          exact h)
    | some .file => isFalse (by rintro ⟨_, _, _, heq, hget', _⟩; cases heq; rw [hget] at hget'; cases hget')
    | none => isFalse (by rintro ⟨_, _, _, heq, hget', _⟩; cases heq; rw [hget] at hget'; cases hget')
  | .edit (.elsewhere _) _ | .pathExists _ | .own | .makeLayers | .makeDir _ | .empty _ | .remove _ | .rename _ _
  | .makeFile _ | .removeFile _ | .ships _ | .readMeta _ | .openMeta _ | .writeMeta _ _ | .removeMeta _ | .metaFiles
  | .layerNames | .reply => isFalse (by rintro ⟨_, _, _, heq, _⟩; cases heq)

/-- The call removes something, and is refused. -/
def refused : Op Tree → Fate Tree → Bool
  | .empty _, .broken _ | .remove _, .broken _ => true
  | _, _ => false

instance decidableOrderly [DecidableEq ι] [DecidableEq Tree] (i : ι) (op : Op Tree) (w : Fate Tree)
    (s : Shared Tree ι) :
    Decidable (Orderly i op w s) :=
  decidable_of_iff (refused op w = false ∧ op.stray = false ∧ ¬ Escapes op s.disk ∧
      ∀ n ∈ op.touched, lastAt n s.log = some i ∨ (i, n) ∉ s.log) (by
    constructor
    · rintro ⟨hrefused, hinside, hstays, hturn⟩
      refine ⟨?_, hinside, hstays, hturn⟩
      rintro p e (rfl | rfl) rfl <;> cases hrefused
    · intro h
      refine ⟨?_, h.inside, h.stays, h.turn⟩
      unfold refused
      split
      · exact absurd rfl (h.removes _ _ (Or.inl rfl))
      · exact absurd rfl (h.removes _ _ (Or.inr rfl))
      · rfl)

theorem lastAt_cons_self (n : String) (i : ι) (log : List (ι × String)) : lastAt n ((i, n) :: log) = some i := by
  unfold lastAt
  rw [List.find?_cons_of_pos (by simp)]
  rfl

theorem lastAt_cons_ne {n m : String} (h : m ≠ n) (i : ι) (log : List (ι × String)) :
    lastAt n ((i, m) :: log) = lastAt n log := by
  unfold lastAt
  rw [List.find?_cons_of_neg (by simpa using h)]

/-! ## What workers rely on and guarantee -/

/-- What the worker `i` may find changed: its own directories are as it left them, unless someone else came. -/
structure Rely (x : Env Tree) (i : ι) (s s' : Shared Tree ι) : Prop where
  grows : Grows x s.disk s'.disk
  filled : Filled s.disk → Filled s'.disk
  kept : ∀ n, hidden n = true → lastAt n s'.log = some i →
    lastAt n s.log = some i ∧ s'.disk.layers.get? n = s.disk.layers.get? n
  logged : ∀ n, (i, n) ∈ s.log → (i, n) ∈ s'.log

/-- What the worker `i` does: it adds complete layers, and changes the staging directory it is logged for. -/
structure Guarantee (x : Env Tree) (i : ι) (s s' : Shared Tree ι) : Prop where
  grows : Grows x s.disk s'.disk
  filled : Filled s.disk → Filled s'.disk
  works : ∃ at' : Option String, s'.log = (at'.map (Prod.mk i)).toList ++ s.log ∧
    ∀ n, hidden n = true → at' ≠ some n → s'.disk.layers.get? n = s.disk.layers.get? n

theorem Rely.refl (x : Env Tree) (i : ι) (s : Shared Tree ι) : Rely x i s s :=
  ⟨.refl x s.disk, id, fun _ _ h => ⟨h, rfl⟩, fun _ h => h⟩

theorem Rely.trans {i : ι} {s s₁ s₂ : Shared Tree ι} (h : Rely x i s s₁) (h' : Rely x i s₁ s₂) : Rely x i s s₂ := by
  refine ⟨h.grows.trans h'.grows, fun hs => h'.filled (h.filled hs), fun n hn hlast => ?_, fun n hlog =>
    h'.logged n (h.logged n hlog)⟩
  obtain ⟨hlast₁, hsame₁⟩ := h'.kept n hn hlast
  obtain ⟨hlast₀, hsame₀⟩ := h.kept n hn hlast₁
  exact ⟨hlast₀, hsame₁.trans hsame₀⟩

/-- What one worker does is what the others rely on. -/
theorem Guarantee.rely {i j : ι} {s s' : Shared Tree ι} (hij : i ≠ j) (h : Guarantee x i s s') : Rely x j s s' := by
  obtain ⟨at', hlog, hsame⟩ := h.works
  refine ⟨h.grows, h.filled, fun n hn hlast => ?_, fun n hmem => hlog ▸ List.mem_append_right _ hmem⟩
  rw [hlog] at hlast
  cases at' with
  | none => exact ⟨hlast, hsame n hn nofun⟩
  | some m =>
    by_cases hm : m = n
    · subst hm
      have hlast : lastAt m ((i, m) :: s.log) = some j := hlast
      rw [lastAt_cons_self] at hlast
      exact absurd (Option.some.inj hlast) hij
    · refine ⟨(lastAt_cons_ne hm i s.log).symm.trans hlast, hsame n hn ?_⟩
      exact fun heq => hm (Option.some.inj heq)

theorem guarantee_moves {i : ι} {op : Op Tree} {w : Fate Tree} {s : Shared Tree ι}
    (h : Moves x op s.disk (Shared.run x i op w s).2.disk) : Guarantee x i s (Shared.run x i op w s).2 :=
  ⟨h.grows, fun hs => hs.grows h.grows fun _ _ hget => h.metas ▸ hget, op.touched, rfl, fun n hn hne =>
    h.hides n hn hne⟩

/-- A worker among others. -/
def worker (x : Env Tree) (i : ι) : Setting x (Shared Tree ι) where
  run := Shared.run x i
  may := Orderly i
  R := Rely x i
  G := Guarantee x i
  disk := Shared.disk
  Mine n v s := hidden n = true ∧ (i, n) ∈ s.log ∧ (lastAt n s.log = some i → s.disk.layers.get? n = v)
  Unseen _ _ := True
  Seen n s := s.disk.layers.contains n = true
  lost _ := False
  refl := .refl x i
  ans _ _ _ := rfl
  next _ _ _ := rfl
  mine_stable := by
    rintro n v s s' ⟨hn, hlog, hlast⟩ hR
    refine ⟨hn, hR.logged n hlog, fun hlast' => ?_⟩
    obtain ⟨hbefore, hsame⟩ := hR.kept n hn hlast'
    exact hsame.trans (hlast hbefore)
  unseen_stable _ _ _ _ _ := trivial
  seen_stable _ hn _ _ hs hR := hR.grows.contains hn hs
  lost_stable _ _ h _ := h
  mine_use := by
    rintro op w s n v hmay htouched ⟨_, hlog, hlast⟩
    rcases hmay.turn n htouched with hturn | hnever
    · exact hlast hturn
    · exact absurd hlog hnever
  mine_set := by
    intro op w s n _ hn htouched
    refine ⟨hn, ?_, fun _ => rfl⟩
    show (i, n) ∈ (op.touched.map (Prod.mk i)).toList ++ s.log
    rw [htouched]
    exact List.mem_cons_self ..
  mine_keep := by
    rintro op w s n v _ htouched hdisk ⟨hn, hlog, hlast⟩
    have hsame : (Shared.run x i op w s).2.log = s.log := by
      show (op.touched.map (Prod.mk i)).toList ++ s.log = s.log
      rw [htouched]
      rfl
    rw [hsame, hdisk]
    exact ⟨hn, hlog, hlast⟩
  unseen_set _ _ := trivial
  unseen_keep _ _ _ _ := trivial
  seen_set _ h := exec_pathExists_true h
  seen_rename _ h := exec_rename_ok h
  seen_keep _ hn hgrows hs := hgrows.contains hn hs
  moves _ h := guarantee_moves h
  strays h hstray := absurd hstray (not_or.mpr ⟨by rw [h.inside]; exact nofun, h.stays⟩)
  loses _ h := h.elim
  empties h := h.removes _ _ (Or.inl rfl) rfl
  removes h := h.removes _ _ (Or.inr rfl) rfl

theorem worker_filed (x : Env Tree) (i : ι) : (worker x i).Filed (fun s => Filled s.disk) (fun _ => True) where
  stable := fun _ _ hs hR => hR.filled hs
  moves := fun _ hmoves _ hs => hs.grows hmoves.grows fun _ _ hget => hmoves.metas ▸ hget
  opens := by
    intro file w s _ hs
    have hlayers := Setting.exec_openMeta_layers (x := x) file w s.disk
    have hfilled : Filled (exec x (.openMeta file) w s.disk).2 :=
      hs.grows (Grows.of_eq (x := x) hlayers) fun _ _ hget => Setting.exec_openMeta_whole hget
    exact ⟨⟨.of_eq hlayers, fun _ => hfilled, none, rfl, fun n _ _ => congrArg (·.get? n) hlayers⟩, hfilled⟩
  writes := by
    intro file img w s _ hs _ hfound
    have hlayers := Setting.exec_writeMeta_layers (x := x) file img w s.disk
    have hfilled : Filled (exec x (.writeMeta file img) w s.disk).2 := by
      intro file' img' hget l hl
      rcases Setting.exec_writeMeta_whole hget with hbefore | rfl
      · exact (hs file' img' hbefore l hl).grows (Grows.of_eq (x := x) hlayers)
      · exact There.grows (hfound l hl) (Grows.of_eq (x := x) hlayers)
    exact ⟨⟨.of_eq hlayers, fun _ => hfilled, none, rfl, fun n _ _ => congrArg (·.get? n) hlayers⟩, hfilled⟩

/-! ## Many workers -/

theorem worker_passed (x : Env Tree) (i : ι) : (worker x i).Passed (fun s => Filled s.disk) (worker x i).AllFound where
  kept img := ((worker_filed x i).found img.layers).toKept
  stored _ file img hs hget := hs file img hget
  found _ _ _ h := h

theorem worker_spec (x : Env Tree) (i : ι) (worker' : Worker net) :
    (worker x i).Spec (fun s => Filled s.disk) (worker'.job x)
      (fun imgs s => Filled s.disk ∧ ∀ img ∈ imgs, (worker x i).AllFound img s) (fun _ _ => True) := by
  have hK := worker_filed x i
  cases worker' with
  | imagePull src r conn policy =>
    have hspec : (worker x i).Spec (fun s => Filled s.disk) (ensurePulled x src r conn policy)
        (fun img s => Filled s.disk ∧ (worker x i).AllFound img s) (fun _ _ => True) :=
      (Setting.ensurePulled_spec hK (worker_passed x i) policy).conseq (fun _ hs => hs) (fun _ _ hs => hs) fun _ _ _ =>
        trivial
    refine Job.Spec.bind (worker x i).refl hspec fun img => ?_
    refine Job.Spec.pure ((worker_passed x i).kept img).stable ?_
    rintro s ⟨hs, hfound⟩
    refine ⟨hs, fun img' hi => ?_⟩
    rw [List.mem_singleton.mp hi]
    exact hfound
  | imageImport unpacked =>
    exact (Setting.importArchive_spec hK unpacked).conseq (fun _ hs => hs) (fun _ _ hs => hs) fun _ _ _ => trivial

/-- In every run in which workers take turns at a staging directory, every layer that becomes visible is complete,
and a worker that succeeds has all layers of its images. -/
theorem workers_keep_layers [DecidableEq ι] (x : Env Tree) (workers : ι → Worker net) (d : Disk Tree)
    (hfilled : Filled d) (pool : ι → Work Tree (List ImageMeta)) (s : Shared Tree ι)
    (hrun : Job.Runs (Shared.run x) Orderly (fun i => (workers i).job x) { disk := d } pool s) :
    Grows x d s.disk ∧ ∀ i imgs, pool i = .done (.ok imgs) → ∀ img ∈ imgs, ∀ l ∈ img.layers, There s.disk l := by
  have hsafe := Job.Runs.safe (R := fun i => Rely x i) (G := fun i => Guarantee x i)
    (fun i _ _ _ h h' => Rely.trans h h') (fun i s => Rely.refl x i s)
    (fun i j _ _ hij hG => Guarantee.rely hij hG) (I := fun s => Grows x d s.disk)
    (fun i _ _ hG hs => hs.trans hG.grows) hrun (fun i => worker_spec x i (workers i) _ hfilled) (.refl x d)
  refine ⟨hsafe.2, fun i imgs hdone img hi => ?_⟩
  have hend := hsafe.1 i
  rw [hdone] at hend
  exact (hend s (.refl x i s)).2 img hi

/-! ## Two workers

Both import an archive whose layer has the file `a`. -/

def fileArchive : Archive where
  file path :=
    if path = "manifest.json" then some ⟨entryBytes, none⟩
    else if path = "config.json" then some ⟨configBytes fileId, none⟩
    else if path = "layer.tar" then some ⟨fileTar, none⟩
    else none

def fileImage : ImageMeta := imageOf fileConfigHash fileId

def bothImport (_ : Bool) : Worker Unit := .imageImport (.ok fileArchive)

/-- The first worker stores the layer before the second looks for it. -/
def inTurn : List (Bool × Fate (List String)) :=
  [true, false, true, true, true, true, true, true, true, false, true, false, true, false, true, false, true,
    false, true, false].map fun i => (i, .fine)

def turnsTaken : Option ((Bool → Work (List String) (List ImageMeta)) × Shared (List String) Bool) :=
  Job.playIf (Shared.run commitEnv) (fun i op w s => decide (Orderly i op w s)) inTurn
    (fun i => (bothImport i).job commitEnv) { disk := {} }

theorem filled_empty : Filled ({} : Disk Tree) := by
  intro file img hget
  rw [show (({} : Disk Tree).metas.get? file) = none from OrdMap.get?_empty file] at hget
  cases hget

/-- Both workers succeed, and the layer is there. -/
theorem workers_in_turn : ∃ pool s, Job.Runs (Shared.run commitEnv) Orderly (fun i => (bothImport i).job commitEnv)
      { disk := {} } pool s ∧ pool false = .done (.ok [fileImage]) ∧
    Grows commitEnv {} s.disk ∧ ∀ img ∈ [fileImage], ∀ l ∈ img.layers, There s.disk l := by
  have hplayed : turnsTaken.map (fun r => (r.1 false).result) = some (some (.ok [fileImage])) := by decide +kernel
  obtain ⟨r, hr, hend⟩ := Option.map_eq_some_iff.mp hplayed
  have hdone := Job.result_eq_some.mp hend
  have hrun : Job.Runs (Shared.run commitEnv) Orderly (fun i => (bothImport i).job commitEnv) { disk := {} } r.1 r.2 :=
    Job.runs_playIf (fun _ _ _ _ h => of_decide_eq_true h) inTurn hr
  have hkept := workers_keep_layers commitEnv bothImport {} filled_empty r.1 r.2 hrun
  exact ⟨r.1, r.2, hrun, hdone, hkept.1, hkept.2 false [fileImage] hdone⟩

/-- Both look for the layer; the first extracts it, the second empties the staging directory, the first renames it. -/
def crossing : List (Bool × Fate (List String)) :=
  [(true, .fine), (false, .fine), (true, .fine), (false, .fine), (true, .fine), (false, .fine), (true, .fine),
    (true, .fine), (true, .fine), (true, .fine), (false, .left []), (true, .fine)]

def crossed : (Bool → Work (List String) (List ImageMeta)) × Shared (List String) Bool :=
  Job.play (Shared.run commitEnv) crossing (fun i => (bothImport i).job commitEnv) { disk := {} }

/-- The layer becomes visible without its file. -/
theorem layer_shown_emptied : Filled ({} : Disk (List String)) ∧
    Job.Runs (Shared.run commitEnv) (fun _ _ _ _ => True) (fun i => (bothImport i).job commitEnv) { disk := {} }
      crossed.1 crossed.2 ∧
    ¬ Grows commitEnv {} crossed.2.disk := by
  refine ⟨filled_empty, Job.runs_play (fun _ _ _ _ => trivial) crossing _ _, fun hgrows => ?_⟩
  have hshaped : DigestShaped fileId := ⟨Registry.hashBytes fileTarHash, rfl⟩
  have hget : crossed.2.disk.layers.get? (dashed fileId) = some (.dir []) := by decide +kernel
  rcases hgrows (dashed fileId) (visible_shaped hshaped) with hsame | ⟨l, node, hl, hnode, hcomplete⟩
  · rw [hget] at hsame
    cases hsame
  · obtain rfl := dashed_inj hcomplete.shaped hshaped hl
    rw [hget] at hnode
    cases hnode
    have hid : commitEnv.digestOf fileTar = fileId := by decide +kernel
    refine empty_incomplete ?_
    rw [hid]
    exact hcomplete

end Collocate.Image
