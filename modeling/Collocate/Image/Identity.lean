import Collocate.Image.Filing

/-! # Layers are what their ids say

An import accepts a layer that is already there by its name alone. What that costs is said exactly:
the ids have to be digests, and the directories they find have to be what they say. -/
namespace Collocate.Image
set_option autoImplicit false

open Registry (Manifest Reference Conn)

variable {Tree : Type} {x : Env Tree}

/-! ## One job on its own -/

/-- The environment lets the job look, and remove what it wants to remove. -/
def Obliging (op : Op Tree) (w : Fate Tree) (_ : Disk Tree) : Prop :=
  match op with
  | .pathExists _ | .empty _ | .remove _ | .readMeta _ => ∀ e, w ≠ .broken e
  | _ => True

/-- A job on its own: nobody else changes the disk. -/
def solo (x : Env Tree) (may : (op : Op Tree) → Fate Tree → Disk Tree → Prop) (G : Disk Tree → Disk Tree → Prop)
    (lost : Disk Tree → Prop) (hmay : ∀ op w d, may op w d → Obliging op w d)
    (hmoves : ∀ op w d, may op w d → Moves x op d (exec x op w d).2 → G d (exec x op w d).2)
    (hstrays : ∀ op w d, may op w d → (op.stray = true ∨ Escapes op d) → G d (exec x op w d).2 ∧ lost (exec x op w d).2)
    (hloses : ∀ op w d, may op w d → lost d → G d (exec x op w d).2 ∧ lost (exec x op w d).2) :
    Setting x (Disk Tree) where
  run := exec x
  may := may
  R := Eq
  G := G
  disk := id
  Mine n v d := d.layers.get? n = v
  Unseen n d := d.layers.get? n = none
  Seen n d := d.layers.contains n = true
  lost := lost
  refl _ := rfl
  ans _ _ _ := rfl
  next _ _ _ := rfl
  mine_stable _ _ _ _ hs h := h ▸ hs
  unseen_stable _ _ _ hs h := h ▸ hs
  seen_stable _ _ _ _ hs h := h ▸ hs
  lost_stable _ _ hs h := h ▸ hs
  mine_use _ _ h := h
  mine_set _ _ _ := rfl
  mine_keep _ _ heq hs := (congrArg (fun d : Disk Tree => d.layers.get? _) heq).trans hs
  unseen_set := by
    intro w s n h hfalse
    rw [Setting.exec_pathExists (hmay _ _ _ h)] at hfalse ⊢
    exact Option.isNone_iff_eq_none.mp (Option.isSome_eq_false_iff.mp hfalse)
  unseen_keep _ _ heq hs := heq.trans hs
  seen_set _ h := exec_pathExists_true h
  seen_rename _ h := exec_rename_ok h
  seen_keep _ hn hgrows hs := hgrows.contains hn hs
  moves h := hmoves _ _ _ h
  strays h := hstrays _ _ _ h
  loses h := hloses _ _ _ h
  empties h := hmay _ _ _ h _ rfl
  removes h := hmay _ _ _ h _ rfl

/-! ## The three ways to an image -/

/-- `import_docker_archive`, `import_oci_layout` or `pull_and_import`, with what it reads. -/
inductive Intake (net : Type)
  | docker (a : Archive)
  | oci (a : Archive)
  | pull (src : Source net) (r : Reference) (conn : Conn net)

variable {net : Type}

def Intake.job (x : Env Tree) : Intake net → Work Tree (List ImageMeta)
  | .docker a => importDockerArchive x a
  | .oci a => importOciLayout x a
  | .pull src r conn => do
    let img ← pullAndImport x src r conn
    pure [img]

/-- The diff ids of a configuration. -/
def configIds (x : Env Tree) (bytes : Result (List UInt8)) : List String :=
  match bytes.toOption.bind fun bytes => (x.decodeImage bytes).toOption with
  | some raw => raw.diffIds
  | none => []

/-- The image is stored under the digest that the registry resolves the reference to, with its layers. -/
def upToDate (x : Env Tree) (d : Disk Tree) (r : Reference) (digest : String) : Bool :=
  match d.metas.get? (metaFile (referenceName r)) with
  | some (.whole img) => img.digest = digest && img.layers.all fun l => present x d (layerDir l)
  | _ => false

/-- The diff ids that the configurations of an intake list. -/
def Intake.listed (x : Env Tree) (d : Disk Tree) : Intake net → List String
  | .docker a => ((dockerEntries x a).toOption.getD []).flatMap fun entry => configIds x (a.read entry.config)
  | .oci a => configIds x (do
      let index ← readIndex x a
      let entry ← selectManifestEntry x index
      let manifest ← readManifest x a entry.digest
      readBlob a manifest.config.digest)
  | .pull src r conn =>
    match Registry.Client.resolveManifest x.codec src.http ⟨r.registry⟩ r.repository r.selector src.creds conn with
    | (.ok (digest, manifest), conn) =>
      if upToDate x d r digest then []
      else configIds x ((Registry.Client.getBlob x.codec src.http ⟨r.registry⟩ r.repository manifest.config.digest
        src.creds conn).1.mapError unreachable)
    | _ => []

theorem parseConfig_ok {name digest : String} {bytes : List UInt8} {img : ImageMeta}
    (h : parseConfig x name digest bytes = .ok img) : ∃ raw, x.decodeImage bytes = .ok raw ∧
      img = { name, digest, layers := raw.diffIds, config := ImageConfig.ofRaw raw.config, kind := .oci } := by
  unfold parseConfig at h
  split at h
  · cases h
  · rename_i raw hdecode
    dsimp only at h
    split at h
    · cases h
    · split at h
      · cases h
      · cases h
        exact ⟨raw, hdecode, rfl⟩

theorem configIds_of_parse {name digest : String} {bytes : List UInt8} {img : ImageMeta}
    (h : parseConfig x name digest bytes = .ok img) : configIds x (.ok bytes) = img.layers := by
  obtain ⟨raw, hdecode, rfl⟩ := parseConfig_ok h
  unfold configIds
  show (match (x.decodeImage bytes).toOption with
    | some raw => raw.diffIds
    | none => []) = raw.diffIds
  rw [hdecode]
  rfl

/-- The ids are those of the layers of the images. -/
def Lists (ids : List String) (imgs : List ImageMeta) : Prop := ∀ l, l ∈ ids ↔ ∃ img ∈ imgs, l ∈ img.layers

theorem lists_docker {a : Archive} {d : Disk Tree} {entries : List ManifestEntry} {imgs : List ImageMeta}
    (hentries : dockerEntries x a = .ok entries) (hall : List.Forall₂ (EntryGives x a) entries imgs) :
    Lists ((Intake.docker a : Intake net).listed x d) imgs := by
  have hids : ∀ entries imgs, List.Forall₂ (EntryGives x a) entries imgs →
      (entries.flatMap fun entry => configIds x (a.read entry.config)) = imgs.flatMap (·.layers) := by
    intro entries imgs hall
    induction hall with
    | nil => rfl
    | cons hgives _ ih =>
      obtain ⟨bytes, img₀, kind, hread, hparse, rfl⟩ := hgives
      rw [List.flatMap_cons, List.flatMap_cons, ih, hread, configIds_of_parse hparse]
  intro l
  show l ∈ ((dockerEntries x a).toOption.getD []).flatMap _ ↔ _
  rw [hentries]
  show l ∈ entries.flatMap _ ↔ _
  rw [hids entries imgs hall, List.mem_flatMap]

theorem lists_oci {a : Archive} {d : Disk Tree} {img : ImageMeta} (hgives : OciGives x a img) :
    Lists ((Intake.oci a : Intake net).listed x d) [img] := by
  obtain ⟨c, img₀, kind, hparse, rfl⟩ := hgives
  intro l
  have hids : (Intake.oci a : Intake net).listed x d = img₀.layers := by
    rw [← configIds_of_parse hparse]
    show configIds x (do
      let index ← readIndex x a
      let entry ← selectManifestEntry x index
      let manifest ← readManifest x a entry.digest
      readBlob a manifest.config.digest) = _
    rw [c.readsIndex]
    show configIds x (do
      let entry ← selectManifestEntry x c.index
      let manifest ← readManifest x a entry.digest
      readBlob a manifest.config.digest) = _
    rw [c.selects]
    show configIds x (do
      let manifest ← readManifest x a c.entry.digest
      readBlob a manifest.config.digest) = _
    rw [c.readsManifest]
    show configIds x (readBlob a c.manifest.config.digest) = _
    rw [c.readsConfig]
  rw [hids]
  exact ⟨fun hl => ⟨_, List.mem_singleton_self _, hl⟩, fun ⟨img, hi, hl⟩ =>
    by rw [List.mem_singleton.mp hi] at hl; exact hl⟩

/-! ## What an intake leaves -/

/-- Nothing refused, nothing guaranteed: only how a job ends is of interest. -/
def freely (x : Env Tree) : Setting x (Disk Tree) :=
  solo x Obliging (fun _ _ => True) (fun _ => True) (fun _ _ _ h => h) (fun _ _ _ _ _ => trivial)
    (fun _ _ _ _ _ => ⟨trivial, trivial⟩) (fun _ _ _ _ _ => ⟨trivial, trivial⟩)

/-- The disk `t`, seen from the disk `d` an intake began with: visible children that were there are as
they were, new ones are complete, and new images list only `ids`, all of which are there. -/
structure Traced (x : Env Tree) (ids : List String) (d t : Disk Tree) : Prop where
  grows : Grows x d t
  adds : ∀ name node, hidden name = false → d.layers.get? name = some node → t.layers.get? name = some node
  metas : ∀ file img, t.metas.get? file = some (.whole img) →
    d.metas.get? file = some (.whole img) ∨ ∀ l ∈ img.layers, l ∈ ids ∧ There t l

theorem traced_refl (x : Env Tree) (ids : List String) (d : Disk Tree) : Traced x ids d d :=
  ⟨.refl x d, fun _ _ _ h => h, fun _ _ h => Or.inl h⟩

/-- One step further. -/
theorem Traced.step {ids : List String} {d t t' : Disk Tree} (hs : Traced x ids d t) (hgrows : Grows x t t')
    (hadds : ∀ name node, hidden name = false → t.layers.get? name = some node → t'.layers.get? name = some node)
    (hmetas : ∀ file img, t'.metas.get? file = some (.whole img) →
      t.metas.get? file = some (.whole img) ∨ ∀ l ∈ img.layers, l ∈ ids ∧ There t' l) : Traced x ids d t' := by
  refine ⟨hs.grows.trans hgrows, fun name node hname hget => hadds name node hname (hs.adds name node hname hget), ?_⟩
  intro file img hget
  rcases hmetas file img hget with hbefore | hnew
  · rcases hs.metas file img hbefore with h | h
    · exact Or.inl h
    · exact Or.inr fun l hl => ⟨(h l hl).1, (h l hl).2.grows hgrows⟩
  · exact Or.inr hnew

theorem traced_filed (ids : List String) (d : Disk Tree) :
    (freely x).Filed (Traced x ids d) (fun layers => ∀ l ∈ layers, l ∈ ids) where
  stable := fun _ _ hs h => h ▸ hs
  moves := by
    intro op w t _ hmoves hunseen hs
    refine hs.step hmoves.grows (fun name node hname hthere => ?_) fun file img hget => Or.inl ?_
    · by_cases hop : ∃ p, op = .rename p (.child name)
      · obtain ⟨p, rfl⟩ := hop
        have hnone : t.layers.get? name = none := hunseen p name rfl
        rw [hthere] at hnone
        cases hnone
      · exact (hmoves.same name hname fun p hp => hop ⟨p, hp⟩).trans hthere
    · have hmetas : ((freely x).run op w t).2.metas = t.metas := hmoves.metas
      rw [hmetas] at hget
      exact hget
  opens := by
    intro file w t _ hs
    have hlayers := Setting.exec_openMeta_layers (x := x) file w t
    refine ⟨trivial, hs.step (.of_eq hlayers) (fun name node _ hget => ?_) fun file' img hget => ?_⟩
    · exact (congrArg (·.get? name) hlayers).trans hget
    · exact Or.inl (Setting.exec_openMeta_whole hget)
  writes := by
    intro file img w t _ hs hids hfound
    have hlayers := Setting.exec_writeMeta_layers (x := x) file img w t
    refine ⟨trivial, hs.step (.of_eq hlayers) (fun name node _ hget => ?_) fun file' img' hget => ?_⟩
    · exact (congrArg (·.get? name) hlayers).trans hget
    · rcases Setting.exec_writeMeta_whole hget with hbefore | rfl
      · exact Or.inl hbefore
      · exact Or.inr fun l hl => ⟨hids l hl, There.grows (hfound l hl) (Grows.of_eq (x := x) hlayers)⟩

/-! ## The ids and the directories -/

/-- After an intake: every layer of every stored image, and of every image taken in, is what its id says. -/
def AllGood (x : Env Tree) (d : Disk Tree) (imgs : List ImageMeta) : Prop :=
  Sound x d ∧ ∀ img ∈ imgs, ∀ l ∈ img.layers, Good x d l

/-- The id is a digest, and the directory it finds, if any, is what it says. -/
def Proper (x : Env Tree) (d : Disk Tree) (l : String) : Prop :=
  DigestShaped l ∧ (present x d (layerDir l) = true → Good x d l)

theorem contains_iff {layers : OrdMap String (Node Tree)} {name : String} :
    layers.contains name = true ↔ ∃ node, layers.get? name = some node := Option.isSome_iff_exists

/-- A layer that is there after an intake is good if its id was proper. -/
theorem Traced.good {ids : List String} {d t : Disk Tree} (h : Traced x ids d t) {l : String} (hl : Proper x d l)
    (hfound : There t l) : Good x t l := by
  obtain ⟨node, hget⟩ := contains_iff.mp (hfound _ (layerDir_shaped hl.1) (visible_shaped hl.1))
  rcases h.grows _ (visible_shaped hl.1) with hsame | hcomplete
  · refine Good.grows (hl.2 ?_) h.grows
    rw [layerDir_shaped hl.1]
    exact contains_iff.mpr ⟨node, hsame.symm.trans hget⟩
  · exact hcomplete.good hl.1

/-- A layer that is good after an intake had a proper id. -/
theorem Traced.proper {ids : List String} {d t : Disk Tree} (h : Traced x ids d t) {l : String} (hgood : Good x t l) :
    Proper x d l := by
  obtain ⟨node, hget, hcomplete⟩ := good_iff.mp hgood
  refine ⟨hcomplete.shaped, fun hpresent => ?_⟩
  rw [layerDir_shaped hcomplete.shaped] at hpresent
  obtain ⟨node', hget'⟩ := contains_iff.mp hpresent
  have hkept := h.adds _ node' (visible_shaped hcomplete.shaped) hget'
  rw [hget] at hkept
  cases hkept
  exact good_iff.mpr ⟨node, hget', hcomplete⟩

theorem allGood_iff {ids : List String} {d t : Disk Tree} {imgs : List ImageMeta} (hsound : Sound x d)
    (h : Traced x ids d t) (hlists : Lists ids imgs) (hfound : ∀ img ∈ imgs, (freely x).AllFound img t) :
    AllGood x t imgs ↔ ∀ l ∈ ids, Proper x d l := by
  constructor
  · rintro ⟨_, hgood⟩ l hl
    obtain ⟨img, hi, hl⟩ := (hlists l).mp hl
    exact h.proper (hgood img hi l hl)
  · intro hproper
    refine ⟨fun file img hget l hl => ?_, fun img hi l hl => ?_⟩
    · rcases h.metas file img hget with hbefore | hnew
      · exact (hsound file img hbefore l hl).grows h.grows
      · exact h.good (hproper l (hnew l hl).1) (hnew l hl).2
    · exact h.good (hproper l ((hlists l).mpr ⟨img, hi, hl⟩)) (hfound img hi l hl)

/-! ## Pulls that find the image stored -/

theorem get_goes {d d' : Disk Tree} {name : String} {q : Result ImageMeta}
    (h : Job.Goes (exec x) Obliging (get name) d (.done q) d') :
    d' = d ∧ ((∃ img, q = .ok img ∧ d.metas.get? (metaFile name) = some (.whole img)) ∨
      ((∃ e, q = .error e) ∧ ∀ img, d.metas.get? (metaFile name) ≠ some (.whole img))) := by
  rcases Job.Goes.of_bind h with ⟨e, -, hread⟩ | ⟨ans, d₁, hread, hrest⟩
  · obtain ⟨w, -, hr, -⟩ := Job.Goes.of_ask (Op.readMeta (metaFile name)) hread
    cases hr
  · obtain ⟨w, hmay, hans, hd⟩ := Job.Goes.of_ask (Op.readMeta (metaFile name)) hread
    have hexec : exec x (.readMeta (metaFile name)) w d = (readMetaFile d (metaFile name), d) := by
      cases w with
      | broken e => exact absurd rfl (hmay e)
      | fine => rfl
      | left tree => rfl
      | strays layers => rfl
      | lists names => rfl
      | mixed => rfl
    rw [hexec] at hans hd
    cases hans
    rw [hd] at hrest
    unfold readMetaFile at hrest
    rcases hget : d.metas.get? (metaFile name) with _ | ⟨img⟩ | _
    · rw [hget] at hrest
      obtain ⟨hq, hd'⟩ := Job.Goes.of_done hrest
      exact ⟨hd', Or.inr ⟨⟨_, hq⟩, nofun⟩⟩
    · rw [hget] at hrest
      obtain ⟨hq, hd'⟩ := Job.Goes.of_done hrest
      exact ⟨hd', Or.inl ⟨img, hq, rfl⟩⟩
    · rw [hget] at hrest
      obtain ⟨hq, hd'⟩ := Job.Goes.of_done hrest
      exact ⟨hd', Or.inr ⟨⟨_, hq⟩, nofun⟩⟩

theorem allPresent_goes {d d' : Disk Tree} {ls : List String} {q : Result Bool}
    (h : Job.Goes (exec x) Obliging (allPresent ls) d (.done q) d') :
    d' = d ∧ q = .ok (ls.all fun l => present x d (layerDir l)) := by
  induction ls with
  | nil =>
    obtain ⟨hq, hd⟩ := Job.Goes.of_done h
    exact ⟨hd, hq⟩
  | cons l rest ih =>
    rcases Job.Goes.of_bind h with ⟨e, -, hlook⟩ | ⟨b, d₁, hlook, hrest⟩
    · obtain ⟨w, -, hr, -⟩ := Job.Goes.of_ask (Op.pathExists (layerDir l)) hlook
      cases hr
    · obtain ⟨w, hmay, hb, hd⟩ := Job.Goes.of_ask (Op.pathExists (layerDir l)) hlook
      rw [Setting.exec_pathExists hmay] at hb hd
      cases hb
      rw [hd] at hrest
      rw [List.all_cons]
      cases hp : present x d (layerDir l) with
      | true =>
        rw [hp] at hrest
        exact ih hrest
      | false =>
        rw [hp] at hrest
        obtain ⟨hq, hd⟩ := Job.Goes.of_done hrest
        exact ⟨hd, hq⟩

section Pull
variable {src : Source net} {r : Reference} {conn conn' : Conn net} {digest : String} {manifest : Manifest}

/-- A pull that succeeds either finds the image stored, or stores it. -/
theorem pull_goes {d d' : Disk Tree} {img : ImageMeta}
    (h : Job.Goes (exec x) Obliging (pullAndImport x src r conn) d (.done (.ok img)) d') :
    ∃ digest manifest conn', Registry.Client.resolveManifest x.codec src.http ⟨r.registry⟩ r.repository r.selector
      src.creds
        conn = (.ok (digest, manifest), conn') ∧
      ((upToDate x d r digest = true ∧ d' = d ∧ ∃ file, d.metas.get? file = some (.whole img)) ∨
        (upToDate x d r digest = false ∧
          Job.Goes (exec x) Obliging (pullFresh x src r digest manifest conn') d (.done (.ok img)) d')) := by
  unfold pullAndImport at h
  rcases hres : Registry.Client.resolveManifest x.codec src.http ⟨r.registry⟩ r.repository r.selector src.creds
    conn with
    ⟨e | ⟨digest, manifest⟩, conn'⟩
  · rw [hres] at h
    obtain ⟨hr, -⟩ := Job.Goes.of_done h
    cases hr
  · rw [hres] at h
    refine ⟨digest, manifest, conn', rfl, ?_⟩
    rcases Job.Goes.of_bind (m := (get (referenceName r)).attempt) h with ⟨e, hr, -⟩ | ⟨q, d₁, hget, hrest⟩
    · cases hr
    · obtain ⟨q', hq', hget⟩ := Job.Goes.of_attempt hget
      cases hq'
      obtain ⟨hd, ⟨existing, hq, hstored⟩ | ⟨⟨e, hq⟩, hnone⟩⟩ := get_goes hget
      · subst hq
        rw [hd] at hrest
        dsimp only at hrest
        by_cases hdigest : existing.digest = digest
        · rw [if_pos hdigest] at hrest
          rcases Job.Goes.of_bind hrest with ⟨e, hr, -⟩ | ⟨b, d₂, hall, hrest⟩
          · cases hr
          · obtain ⟨hd₂, hb⟩ := allPresent_goes hall
            cases hb
            rw [hd₂] at hrest
            have hup : upToDate x d r digest = existing.layers.all fun l => present x d (layerDir l) := by
              unfold upToDate
              rw [hstored]
              simp [hdigest]
            cases hall : existing.layers.all fun l => present x d (layerDir l) with
            | true =>
              rw [hall] at hrest hup
              obtain ⟨hr, hd'⟩ := Job.Goes.of_done hrest
              cases hr
              exact Or.inl ⟨hup, hd', _, hstored⟩
            | false =>
              rw [hall] at hrest hup
              exact Or.inr ⟨hup, hrest⟩
        · rw [if_neg hdigest] at hrest
          refine Or.inr ⟨?_, hrest⟩
          unfold upToDate
          rw [hstored]
          simp [hdigest]
      · subst hq
        rw [hd] at hrest
        refine Or.inr ⟨?_, hrest⟩
        unfold upToDate
        split
        · rename_i img' hstored
          exact absurd hstored (hnone img')
        · rfl

theorem lists_pull {d : Disk Tree} {img : ImageMeta}
    (hres : Registry.Client.resolveManifest x.codec src.http ⟨r.registry⟩ r.repository r.selector src.creds conn =
      (.ok (digest, manifest), conn')) (hup : upToDate x d r digest = false)
    (hgives : PullGives x src r digest manifest conn' img) :
    Lists ((Intake.pull src r conn).listed x d) [img] := by
  obtain ⟨bytes, conn'', img₀, kind, hblob, hparse, rfl⟩ := hgives
  have hids : (Intake.pull src r conn).listed x d = img₀.layers := by
    rw [← configIds_of_parse hparse]
    unfold Intake.listed
    dsimp only
    rw [hres]
    dsimp only
    rw [hup, hblob]
    rfl
  intro l
  rw [hids]
  exact ⟨fun hl => ⟨_, List.mem_singleton_self _, hl⟩, fun ⟨img, hi, hl⟩ =>
    by rw [List.mem_singleton.mp hi] at hl; exact hl⟩

end Pull

/-! ## Every intake -/

/-- An intake from a sound store leaves layers that are what their ids say exactly when every id it lists is
a digest, and the directory of each that was there before was what it says. -/
theorem layers_identified_iff (x : Env Tree) (intake : Intake net) (d d' : Disk Tree) (imgs : List ImageMeta)
    (hsound : Sound x d) (hrun : Job.Goes (exec x) Obliging (intake.job x) d (.done (.ok imgs)) d') :
    AllGood x d' imgs ↔ ∀ l ∈ intake.listed x d, Proper x d l := by
  cases intake with
  | docker a =>
    have hfiled := traced_filed (x := x) ((Intake.docker a : Intake net).listed x d) d
    have hspec := Setting.importDockerArchive_spec hfiled (a := a) ?_
    · obtain ⟨⟨htraced, hfound⟩, entries, hentries, hall⟩ :=
        Job.Goes.post (freely x).refl hrun (hspec d (traced_refl x _ d))
      exact allGood_iff hsound htraced (lists_docker hentries hall) hfound
    · intro entries hentries entry he img hgives l hl
      obtain ⟨bytes, img₀, kind, hread, hparse, rfl⟩ := hgives
      show l ∈ ((dockerEntries x a).toOption.getD []).flatMap _
      rw [hentries]
      refine List.mem_flatMap.mpr ⟨entry, he, ?_⟩
      rw [hread, configIds_of_parse hparse]
      exact hl
  | oci a =>
    have hfiled := traced_filed (x := x) ((Intake.oci a : Intake net).listed x d) d
    have hspec := Setting.importOciLayout_spec hfiled (a := a) fun img hgives l hl =>
      (lists_oci hgives l).mpr ⟨img, List.mem_singleton_self _, hl⟩
    obtain ⟨⟨htraced, hfound⟩, img, rfl, hgives⟩ := Job.Goes.post (freely x).refl hrun (hspec d (traced_refl x _ d))
    exact allGood_iff hsound htraced (lists_oci hgives) hfound
  | pull src r conn =>
    rcases Job.Goes.of_bind hrun with ⟨e, hr, -⟩ | ⟨img, d₁, hpull, hpure⟩
    · cases hr
    · obtain ⟨himgs, rfl⟩ := Job.Goes.of_done hpure
      cases himgs
      obtain ⟨digest, manifest, conn', hres, ⟨hup, rfl, file, hstored⟩ | ⟨hup, hfresh⟩⟩ := pull_goes hpull
      · -- Nothing is stored, and the image found was sound before.
        have hnone : (Intake.pull src r conn).listed x d' = [] := by
          unfold Intake.listed
          dsimp only
          rw [hres]
          exact if_pos hup
        rw [hnone]
        refine ⟨fun _ => nofun, fun _ => ⟨hsound, fun img' hi l hl => ?_⟩⟩
        rw [List.mem_singleton.mp hi] at hl
        exact hsound file img hstored l hl
      · have hfiled := traced_filed (x := x) ((Intake.pull src r conn).listed x d) d
        have hspec := Setting.pullFresh_spec hfiled fun img hgives l hl =>
          (lists_pull hres hup hgives l).mpr ⟨img, List.mem_singleton_self _, hl⟩
        obtain ⟨⟨htraced, hfound⟩, hgives⟩ := Job.Goes.post (freely x).refl hfresh (hspec d (traced_refl x _ d))
        refine allGood_iff hsound htraced (lists_pull hres hup hgives) fun img' hi => ?_
        rw [List.mem_singleton.mp hi]
        exact hfound

/-! ## Two archives

A docker archive with one empty layer, whose configuration lists either the digest of that layer or `/etc`. -/

/-- A tar archive without entries. -/
def emptyTar : List UInt8 := List.replicate 1024 0

def emptyTarHash : ℕ := 0x5f70bf18a086007016e948b04aed3b82103a36bea41755b6cddfaf10ace3c6ef
def plainConfigHash : ℕ := 0x0a17935ad2dbc547f05ca8447350a4cad1ac65ea6a6d294fed22e6691282127a
def etcConfigHash : ℕ := 0xb8acb3c9a3db04eb5a10e852cf2816b4b9b6c3d54fdd5021f1c64eda379a4bf8

/-- A configuration that lists one layer. -/
def configBytes (diffId : String) : List UInt8 :=
  Registry.utf8 ("\x7b\"os\":\"linux\",\"rootfs\":\x7b\"diff_ids\":[\"" ++ diffId ++ "\"]\x7d\x7d")

def plainId : String := Registry.digestText emptyTarHash

def entryBytes : List UInt8 :=
  Registry.utf8 "[\x7b\"Config\":\"config.json\",\"Layers\":[\"layer.tar\"]\x7d]"

/-- A host with an `/etc`, on which layers are lists of file names. -/
def hostEnv : Env (List String) where
  codec := {
    sha256 := Registry.hashTable [(emptyTar, Registry.hashBytes emptyTarHash),
      (configBytes plainId, Registry.hashBytes plainConfigHash), (configBytes "/etc", Registry.hashBytes etcConfigHash)]
    decodeIndex := fun _ => .error "missing field manifests"
    decodeManifest := fun _ => .error "missing field config"
    decodeToken := fun _ => .error "expected value at line 1 column 1"
    arch := "x86_64" }
  decodeImage bytes :=
    if bytes = configBytes plainId then .ok { os := "linux", diffIds := [plainId] }
    else if bytes = configBytes "/etc" then .ok { os := "linux", diffIds := ["/etc"] }
    else .error "missing field rootfs"
  decodeEntries bytes :=
    if bytes = entryBytes then .ok [{ config := "config.json", layers := ["layer.tar"] }]
    else .error "expected value at line 1 column 1"
  gunzip raw := ⟨[], raw.fault⟩
  unzstd _ := .error "bad magic number"
  empty := []
  isEmpty tree := tree.isEmpty
  script _ stream := if stream.bytes = emptyTar then [] else
    [fun tree => .fail tree (.io "failed to read entire block")]
  elsewhere _ path := path == "/etc"
  ships _ _ := false
  root := true

def archiveOf (diffId : String) : Archive where
  file path :=
    if path = "manifest.json" then some ⟨entryBytes, none⟩
    else if path = "config.json" then some ⟨configBytes diffId, none⟩
    else if path = "layer.tar" then some ⟨emptyTar, none⟩
    else none

def imageOf (hash : ℕ) (diffId : String) : ImageMeta :=
  { name := Registry.digestText hash, digest := Registry.digestText hash, layers := [diffId], config := {},
    kind := .oci }

def calls (n : ℕ) : List (Fate (List String)) := List.replicate n .fine

theorem calls_obliging (n : ℕ) : ∀ (op : Op (List String)) d, ∀ w ∈ calls n, Obliging op w d := by
  intro op d w hw
  obtain rfl := List.eq_of_mem_replicate hw
  unfold Obliging
  split <;> first | trivial | exact fun e h => by cases h

def intakeOf (diffId : String) : Intake Unit := .docker (archiveOf diffId)

/-- The disk after the import of an archive to an empty store. -/
def diskOf (diffId : String) : Disk (List String) :=
  (Job.run (exec hostEnv) (calls 12) ((intakeOf diffId).job hostEnv) {}).2

theorem goes_diskOf {diffId : String} {imgs : List ImageMeta}
    (h : (Job.run (exec hostEnv) (calls 12) ((intakeOf diffId).job hostEnv) {}).1.result = some (.ok imgs)) :
    Job.Goes (exec hostEnv) Obliging ((intakeOf diffId).job hostEnv) {} (.done (.ok imgs)) (diskOf diffId) :=
  Job.goes_of_run (calls_obliging 12) h

theorem sound_empty (x : Env Tree) : Sound x {} := by
  intro file img hget
  rw [show (({} : Disk Tree).metas.get? file) = none from OrdMap.get?_empty file] at hget
  cases hget

theorem plain_imported : Job.Goes (exec hostEnv) Obliging ((intakeOf plainId).job hostEnv) {}
    (.done (.ok [imageOf plainConfigHash plainId])) (diskOf plainId) := by
  have hend : (Job.run (exec hostEnv) (calls 12) ((intakeOf plainId).job hostEnv) {}).1.result =
      some (.ok [imageOf plainConfigHash plainId]) := by
    decide +kernel
  exact goes_diskOf hend

theorem etc_imported : Job.Goes (exec hostEnv) Obliging ((intakeOf "/etc").job hostEnv) {}
    (.done (.ok [imageOf etcConfigHash "/etc"])) (diskOf "/etc") := by
  have hend : (Job.run (exec hostEnv) (calls 12) ((intakeOf "/etc").job hostEnv) {}).1.result =
      some (.ok [imageOf etcConfigHash "/etc"]) := by
    decide +kernel
  exact goes_diskOf hend

/-- The archive that lists the digest of its layer is imported as it says. -/
theorem plain_layers_identified : AllGood hostEnv (diskOf plainId) [imageOf plainConfigHash plainId] := by
  refine (layers_identified_iff hostEnv (intakeOf plainId) {} _ _ (sound_empty hostEnv) plain_imported).mpr ?_
  have hlisted : (intakeOf plainId).listed hostEnv {} = [plainId] := by decide +kernel
  rw [hlisted]
  intro l hl
  rw [List.mem_singleton.mp hl]
  have hshaped : DigestShaped plainId := ⟨Registry.hashBytes emptyTarHash, rfl⟩
  refine ⟨hshaped, fun hpresent => ?_⟩
  rw [layerDir_shaped hshaped] at hpresent
  cases hpresent

/-- The archive that lists `/etc` is accepted as well, with a directory of the host as its layer. -/
theorem host_directory_accepted : Sound hostEnv {} ∧
    Job.Goes (exec hostEnv) Obliging ((intakeOf "/etc").job hostEnv) {} (.done (.ok [imageOf etcConfigHash "/etc"]))
      (diskOf "/etc") ∧
    ¬ AllGood hostEnv (diskOf "/etc") [imageOf etcConfigHash "/etc"] := by
  refine ⟨sound_empty hostEnv, etc_imported, fun h => ?_⟩
  obtain ⟨node, -, hcomplete⟩ := good_iff.mp (h.2 _ (List.mem_singleton_self _) "/etc" (List.mem_singleton_self _))
  obtain ⟨hash, hshape⟩ := hcomplete.shaped
  have hlist := congrArg String.toList hshape
  rw [String.toList_append] at hlist
  cases hlist

end Collocate.Image
