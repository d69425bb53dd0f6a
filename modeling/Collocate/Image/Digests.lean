import Collocate.Image.Identity

/-! # The digest recorded for an image

A docker archive is recorded under the hash of the configuration that was read. An OCI layout is
recorded under the digest its manifest names, and no blob on the way is hashed. -/
namespace Collocate.Image
set_option autoImplicit false

open Registry (Descriptor Index Manifest)

variable {Tree : Type} {x : Env Tree}

/-! ## Where the result of an import comes from -/

theorem importEntry_yields (a : Archive) (entry : ManifestEntry) :
    Job.Yields (EntryGives x a entry) (importEntry x a entry) := by
  refine Job.Yields.bind (Job.yields_lift fun bytes hread => hread) fun bytes hread => ?_
  refine Job.Yields.bind (Job.yields_lift fun img hparse => hparse) fun img hparse => ?_
  dsimp only
  split
  · exact Job.yields_throw _
  · refine Job.yields_seq fun _ => Job.yields_seq fun kind => Job.yields_seq fun _ => ?_
    exact Job.yields_pure ⟨bytes, img, kind, hread, hparse, rfl⟩

theorem importDockerArchive_yields (a : Archive) : Job.Yields (fun imgs => ∃ entries, dockerEntries x a = .ok entries ∧
    List.Forall₂ (EntryGives x a) entries imgs) (importDockerArchive x a) := by
  refine Job.Yields.bind (Job.yields_lift fun entries hentries => hentries) fun entries hentries => ?_
  refine Job.Yields.imp (Job.yields_collect entries fun entry _ => importEntry_yields a entry) fun imgs hall => ?_
  exact ⟨entries, hentries, hall⟩

theorem importOciLayout_yields (a : Archive) :
    Job.Yields (fun imgs => ∃ img, imgs = [img] ∧ OciGives x a img) (importOciLayout x a) := by
  refine Job.Yields.bind (Job.yields_lift fun index hindex => hindex) fun index hindex => ?_
  refine Job.Yields.bind (Job.yields_lift fun entry hentry => hentry) fun entry hentry => ?_
  refine Job.Yields.bind (Job.yields_lift fun manifest hmanifest => hmanifest) fun manifest hmanifest => ?_
  refine Job.Yields.bind (Job.yields_lift fun bytes hconfig => hconfig) fun bytes hconfig => ?_
  refine Job.Yields.bind (Job.yields_lift fun img hparse => hparse) fun img hparse => ?_
  dsimp only
  split
  · exact Job.yields_throw _
  · refine Job.yields_seq fun _ => ?_
    refine Job.Yields.bind (T := fun img' => ∃ kind, img' = { img with kind })
      (Job.yields_seq fun kind => Job.yields_seq fun _ => Job.yields_pure ⟨kind, rfl⟩) ?_
    rintro _ ⟨kind, rfl⟩
    exact Job.yields_pure ⟨_, rfl, ⟨index, entry, manifest, bytes, hindex, hentry, hmanifest, hconfig⟩, img, kind,
      hparse, rfl⟩

/-- The images of an archive, by its format. -/
def ArchiveGives (x : Env Tree) (a : Archive) (imgs : List ImageMeta) : Prop :=
  if a.has "manifest.json" then ∃ entries, dockerEntries x a = .ok entries ∧ List.Forall₂ (EntryGives x a) entries imgs
  else ∃ img, imgs = [img] ∧ OciGives x a img

theorem importArchive_yields (a : Archive) : Job.Yields (ArchiveGives x a) (importArchive x (.ok a)) := by
  have hinner : Job.Yields (ArchiveGives x a) (do
      let a ← Job.lift (.ok a)
      if a.has "manifest.json" then importDockerArchive x a
      else if a.has "index.json" && a.has "oci-layout" then importOciLayout x a
      else Job.throw (.invalid ("archive has neither manifest.json nor an OCI index.json; " ++
        "only docker-archive and oci-archive formats are supported")) : Work Tree (List ImageMeta)) := by
    rw [Job.lift_ok_bind]
    by_cases hdocker : a.has "manifest.json" = true
    · rw [if_pos hdocker]
      refine Job.Yields.imp (importDockerArchive_yields a) fun imgs h => ?_
      unfold ArchiveGives
      rw [if_pos hdocker]
      exact h
    · rw [if_neg hdocker]
      split
      · refine Job.Yields.imp (importOciLayout_yields a) fun imgs h => ?_
        unfold ArchiveGives
        rw [if_neg hdocker]
        exact h
      · exact Job.yields_throw _
  refine Job.yields_seq fun _ => Job.Yields.bind hinner.attempt fun result hresult => Job.yields_seq fun _ => ?_
  exact Job.yields_lift fun imgs himgs => hresult imgs himgs

/-! ## Verified digests -/

/-- The configuration that was read for an image of the archive. -/
def ReadFor (x : Env Tree) (a : Archive) (bytes : List UInt8) (img : ImageMeta) : Prop :=
  (∃ name digest img₀ kind, parseConfig x name digest bytes = .ok img₀ ∧ img = { img₀ with kind }) ∧
    if a.has "manifest.json" then ∃ entries, dockerEntries x a = .ok entries ∧ ∃ entry ∈ entries,
      a.read entry.config = .ok bytes ∧ EntryGives x a entry img
    else ∃ c : OciChain x a, c.config = bytes ∧ img.digest = c.manifest.config.digest

/-- Every blob on the way from the index of an OCI layout hashes to the digest that names it. -/
def ChainVerified (x : Env Tree) (a : Archive) : Prop :=
  ∀ c : OciChain x a, x.digestOf c.config = c.manifest.config.digest ∧
    ∃ bytes, readBlob a c.entry.digest = .ok bytes ∧ x.digestOf bytes = c.entry.digest

/-- The digest recorded is that of the configuration read; in an OCI layout every blob followed is checked. -/
def Verified (x : Env Tree) (a : Archive) (imgs : List ImageMeta) : Prop :=
  (∀ img ∈ imgs, ∀ bytes, ReadFor x a bytes img → x.digestOf bytes = img.digest) ∧
    (a.has "manifest.json" = false → ChainVerified x a)

/-- What recorded digests promise for the images of two archives. -/
structure RecordedDigests (x : Env Tree) (a b : Archive) (imgs imgs' : List ImageMeta) : Prop where
  left : Verified x a imgs
  right : Verified x b imgs'
  agree : ∀ img ∈ imgs, ∀ img' ∈ imgs', img.digest = img'.digest → img.layers = img'.layers ∧ img.config = img'.config

/-- The archive has the docker format, or its blobs are what they are named. -/
def Checked (x : Env Tree) (a : Archive) : Prop := a.has "manifest.json" = true ∨ ChainVerified x a

theorem entryGives_digest {a : Archive} {entry : ManifestEntry} {bytes : List UInt8} {img : ImageMeta}
    (hread : a.read entry.config = .ok bytes) (h : EntryGives x a entry img) : x.digestOf bytes = img.digest := by
  obtain ⟨bytes', img₀, kind, hread', hparse, rfl⟩ := h
  rw [hread] at hread'
  cases hread'
  obtain ⟨raw, -, rfl⟩ := parseConfig_ok hparse
  rfl

theorem verified_iff {a : Archive} {imgs : List ImageMeta} : Verified x a imgs ↔ Checked x a := by
  constructor
  · intro h
    cases hdocker : a.has "manifest.json" with
    | true => exact Or.inl hdocker
    | false => exact Or.inr (h.2 hdocker)
  · intro h
    refine ⟨fun img _ bytes hfor => ?_, fun hoci => h.resolve_left (by rw [hoci]; exact Bool.false_ne_true)⟩
    obtain ⟨-, hfor⟩ := hfor
    by_cases hdocker : a.has "manifest.json" = true
    · rw [if_pos hdocker] at hfor
      obtain ⟨_, _, entry, _, hread, hgives⟩ := hfor
      exact entryGives_digest hread hgives
    · rw [if_neg hdocker] at hfor
      obtain ⟨c, rfl, hdigest⟩ := hfor
      rw [hdigest]
      exact (h.resolve_left hdocker c).1

/-- For every image of an archive some configuration was read. -/
theorem exists_readFor {a : Archive} {imgs : List ImageMeta} (h : ArchiveGives x a imgs) {img : ImageMeta}
    (hi : img ∈ imgs) :
    ∃ bytes, ReadFor x a bytes img := by
  unfold ArchiveGives at h
  unfold ReadFor
  by_cases hdocker : a.has "manifest.json" = true
  · rw [if_pos hdocker] at h
    obtain ⟨entries, hentries, hall⟩ := h
    obtain ⟨entry, he, hgives⟩ : ∃ entry ∈ entries, EntryGives x a entry img := by
      clear hentries
      induction hall with
      | nil => cases hi
      | cons hgives _ ih =>
        rcases List.mem_cons.mp hi with rfl | hi
        · exact ⟨_, List.mem_cons_self .., hgives⟩
        · obtain ⟨entry, he, hgives⟩ := ih hi
          exact ⟨entry, List.mem_cons_of_mem _ he, hgives⟩
    obtain ⟨bytes, img₀, kind, hread, hparse, himg⟩ := hgives
    refine ⟨bytes, ⟨_, _, img₀, kind, hparse, himg⟩, ?_⟩
    rw [if_pos hdocker]
    exact ⟨entries, hentries, entry, he, hread, bytes, img₀, kind, hread, hparse, himg⟩
  · rw [if_neg hdocker] at h
    obtain ⟨_, rfl, c, img₀, kind, hparse, rfl⟩ := h
    rw [List.mem_singleton.mp hi]
    refine ⟨c.config, ⟨_, _, img₀, kind, hparse, rfl⟩, ?_⟩
    rw [if_neg hdocker]
    obtain ⟨raw, -, rfl⟩ := parseConfig_ok hparse
    exact ⟨c, rfl, rfl⟩

/-- The layers and the settings of an image are those of the configuration read for it. -/
theorem ReadFor.content {a b : Archive} {bytes : List UInt8} {img img' : ImageMeta} (h : ReadFor x a bytes img)
    (h' : ReadFor x b bytes img') : img.layers = img'.layers ∧ img.config = img'.config := by
  obtain ⟨⟨_, _, img₀, kind, hparse, rfl⟩, -⟩ := h
  obtain ⟨⟨_, _, img₁, kind', hparse', rfl⟩, -⟩ := h'
  obtain ⟨raw, hraw, rfl⟩ := parseConfig_ok hparse
  obtain ⟨raw', hraw', rfl⟩ := parseConfig_ok hparse'
  rw [hraw] at hraw'
  cases hraw'
  exact ⟨rfl, rfl⟩

/-- The digests recorded for two archives keep their promise exactly when each archive is in the docker format,
or its manifest and its configuration hash to the digests that name them. -/
theorem recordedDigests_iff (x : Env Tree) (hx : Function.Injective x.codec.sha256) (a b : Archive)
    (may : (op : Op Tree) → Fate Tree → Disk Tree → Prop) (d d₁ d₂ d₃ : Disk Tree) (imgs imgs' : List ImageMeta)
    (hrun : Job.Goes (exec x) may (importArchive x (.ok a)) d (.done (.ok imgs)) d₁)
    (hrun' : Job.Goes (exec x) may (importArchive x (.ok b)) d₂ (.done (.ok imgs')) d₃) :
    RecordedDigests x a b imgs imgs' ↔ Checked x a ∧ Checked x b := by
  constructor
  · exact fun h => ⟨verified_iff.mp h.left, verified_iff.mp h.right⟩
  · rintro ⟨ha, hb⟩
    have hva : Verified x a imgs := verified_iff.mpr ha
    have hvb : Verified x b imgs' := verified_iff.mpr hb
    refine ⟨hva, hvb, fun img hi img' hi' heq => ?_⟩
    obtain ⟨bytes, hfor⟩ := exists_readFor (hrun.yields (importArchive_yields a)) hi
    obtain ⟨bytes', hfor'⟩ := exists_readFor (hrun'.yields (importArchive_yields b)) hi'
    have hdigest := (hva.1 img hi bytes hfor).trans (heq.trans (hvb.1 img' hi' bytes' hfor').symm)
    obtain rfl : bytes = bytes' := Registry.digestOf_injective hx hdigest
    exact hfor.content hfor'

/-! ## An OCI layout whose configuration is another one

The manifest names the digest of one configuration; the blob filed under it holds another. -/

def layoutManifest : Manifest where
  config := { digest := Registry.digestText etcConfigHash, mediaType := "application/vnd.oci.image.config.v1+json" }
  layers := [{ digest := plainId, mediaType := "application/vnd.oci.image.layer.v1.tar" }]

def layoutManifestBytes : List UInt8 :=
  Registry.utf8 ("\x7b\"config\":\x7b\"digest\":\"" ++ Registry.digestText etcConfigHash ++
    "\",\"mediaType\":\"application/vnd.oci.image.config.v1+json\"\x7d,\"layers\":[\x7b\"digest\":\"" ++ plainId ++
    "\",\"mediaType\":\"application/vnd.oci.image.layer.v1.tar\"\x7d]\x7d")

def layoutManifestHash : ℕ := 0x32b1b28ab41e60c00e979f217bf78832ce7a5ade67f1af896daff9219d79530b

def layoutIndex : Index where
  manifests := [{
    digest := Registry.digestText layoutManifestHash
    mediaType := "application/vnd.oci.image.manifest.v1+json" }]

def layoutIndexBytes : List UInt8 :=
  Registry.utf8 ("\x7b\"manifests\":[\x7b\"digest\":\"" ++ Registry.digestText layoutManifestHash ++
    "\",\"mediaType\":\"application/vnd.oci.image.manifest.v1+json\"\x7d]\x7d")

/-- The host, with the documents of the layout. -/
def layoutEnv : Env (List String) :=
  { hostEnv with codec := {
      sha256 := Registry.hashTable [(emptyTar, Registry.hashBytes emptyTarHash),
        (configBytes plainId, Registry.hashBytes plainConfigHash),
          (configBytes "/etc", Registry.hashBytes etcConfigHash),
        (layoutManifestBytes, Registry.hashBytes layoutManifestHash)]
      decodeIndex := fun bytes => if bytes = layoutIndexBytes then .ok layoutIndex else .error "missing field manifests"
      decodeManifest := fun bytes =>
        if bytes = layoutManifestBytes then .ok layoutManifest else .error "missing field config"
      decodeToken := fun _ => .error "expected value at line 1 column 1"
      arch := "x86_64" } }

def blobFile (hash : ℕ) : String := "blobs/sha256/" ++ Text.hexBytes (Registry.hashBytes hash)

/-- A layout in which the blob of the configuration is that of the plain archive. -/
def layout : Archive where
  file path :=
    if path = "oci-layout" then some ⟨Registry.utf8 "\x7b\"imageLayoutVersion\":\"1.0.0\"\x7d", none⟩
    else if path = "index.json" then some ⟨layoutIndexBytes, none⟩
    else if path = blobFile layoutManifestHash then some ⟨layoutManifestBytes, none⟩
    else if path = blobFile etcConfigHash then some ⟨configBytes plainId, none⟩
    else if path = blobFile emptyTarHash then some ⟨emptyTar, none⟩
    else none

theorem hostEnv_collisionFree : Function.Injective hostEnv.codec.sha256 := by
  unfold hostEnv
  dsimp only
  exact Registry.hashTable_injective (by decide +kernel) (by decide +kernel)

theorem layoutEnv_collisionFree : Function.Injective layoutEnv.codec.sha256 := by
  unfold layoutEnv
  dsimp only
  exact Registry.hashTable_injective (by decide +kernel) (by decide +kernel)

/-- The disk after the import of an archive file to an empty store. -/
def importedDisk (x : Env (List String)) (a : Archive) : Disk (List String) :=
  (Job.run (exec x) (calls 14) (importArchive x (.ok a)) {}).2

theorem goes_importedDisk {x : Env (List String)} {a : Archive} {imgs : List ImageMeta}
    (h : (Job.run (exec x) (calls 14) (importArchive x (.ok a)) {}).1.result = some (.ok imgs)) :
    Job.Goes (exec x) Obliging (importArchive x (.ok a)) {} (.done (.ok imgs)) (importedDisk x a) :=
  Job.goes_of_run (calls_obliging 14) h

theorem plain_archive_imported : Job.Goes (exec hostEnv) Obliging (importArchive hostEnv (.ok (archiveOf plainId))) {}
    (.done (.ok [imageOf plainConfigHash plainId])) (importedDisk hostEnv (archiveOf plainId)) := by
  have hend : (Job.run (exec hostEnv) (calls 14) (importArchive hostEnv (.ok (archiveOf plainId))) {}).1.result =
      some (.ok [imageOf plainConfigHash plainId]) := by
    decide +kernel
  exact goes_importedDisk hend

/-- The image of the layout: the digest of one configuration, the layers of another. -/
theorem layout_imported : Job.Goes (exec layoutEnv) Obliging (importArchive layoutEnv (.ok layout)) {}
    (.done (.ok [imageOf etcConfigHash plainId])) (importedDisk layoutEnv layout) := by
  have hend : (Job.run (exec layoutEnv) (calls 14) (importArchive layoutEnv (.ok layout)) {}).1.result =
      some (.ok [imageOf etcConfigHash plainId]) := by
    decide +kernel
  exact goes_importedDisk hend

/-- A docker archive imported twice. -/
theorem plain_archive_recorded : RecordedDigests hostEnv (archiveOf plainId) (archiveOf plainId)
    [imageOf plainConfigHash plainId] [imageOf plainConfigHash plainId] :=
  (recordedDigests_iff hostEnv hostEnv_collisionFree (archiveOf plainId) (archiveOf plainId) Obliging {} _ {} _ _ _
    plain_archive_imported plain_archive_imported).mpr ⟨Or.inl rfl, Or.inl rfl⟩

/-- The layout is accepted under a digest that is not that of the configuration read. -/
theorem misnamed_config_accepted : Function.Injective layoutEnv.codec.sha256 ∧
    Job.Goes (exec layoutEnv) Obliging (importArchive layoutEnv (.ok layout)) {}
      (.done (.ok [imageOf etcConfigHash plainId]))
      (importedDisk layoutEnv layout) ∧
    ¬ Verified layoutEnv layout [imageOf etcConfigHash plainId] := by
  refine ⟨layoutEnv_collisionFree, layout_imported, fun h => ?_⟩
  have hindex : readIndex layoutEnv layout = .ok layoutIndex := by decide +kernel
  have hentry : selectManifestEntry layoutEnv layoutIndex = .ok (layoutIndex.manifests.get ⟨0, by decide⟩) :=
    by decide +kernel
  have hmanifest : readManifest layoutEnv layout (layoutIndex.manifests.get ⟨0, by decide⟩).digest =
    .ok layoutManifest := by
    decide +kernel
  have hconfig : readBlob layout layoutManifest.config.digest = .ok (configBytes plainId) := by decide +kernel
  have hchain := (h.2 (by decide +kernel) ⟨_, _, _, _, hindex, hentry, hmanifest, hconfig⟩).1
  have hdiffers : layoutEnv.digestOf (configBytes plainId) ≠ layoutManifest.config.digest := by decide +kernel
  exact hdiffers hchain

end Collocate.Image
