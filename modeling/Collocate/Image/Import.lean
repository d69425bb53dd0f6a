import Collocate.Image.Disk

/-! # Importing, pulling, committing and pruning (`collocate-image/src/import.rs`, `oci.rs`, `pull.rs`, `commit.rs`,
`config.rs`)

Each is a job: the calls it makes on the store, in the order the source makes them. The registry a
pull talks to is no part of the store, so its answers are computed between the calls. -/
namespace Collocate.Image
set_option autoImplicit false

open Registry (Descriptor Index Manifest Reference Selector Http Conn Credentials)

variable {Tree : Type}

/-! ## Calls as programs -/

def pathExists (p : Place) : Work Tree Bool := Job.ask (Op.pathExists p)

def ships (diffId : String) : Work Tree Bool := Job.ask (Op.ships diffId)

def readMeta (file : String) : Work Tree (Result ImageMeta) := Job.ask (Op.readMeta file)

def metaFiles : Work Tree (List String) := Job.ask Op.metaFiles

def layerNames : Work Tree (List String) := Job.ask Op.layerNames

/-- A call that may fail, whose failure is that of the job. -/
def must (op : Op Tree) (h : op.Ans = Result Unit) : Work Tree Unit :=
  Job.ask op >>= fun a => Job.lift (cast h a)

/-! ## Configurations -/

/-- Nanoseconds, cut to seconds. -/
def toSecs (nanos : UInt64) : UInt64 := nanos / 1000000000

def ImageHealth.ofRaw (h : RawHealth) : ImageHealth :=
  { test := h.test, intervalSecs := toSecs h.interval, timeoutSecs := toSecs h.timeout, retries := h.retries,
    startPeriodSecs := toSecs h.startPeriod }

def ImageConfig.ofRaw (c : RawConfig) : ImageConfig :=
  { entrypoint := c.entrypoint, cmd := c.cmd, env := c.env, workingDir := c.workingDir, user := c.user,
    exposed := c.exposedPorts, volumes := c.volumes, stopSignal := c.stopSignal,
    healthcheck := c.healthcheck.map ImageHealth.ofRaw }

def parseConfig (x : Env Tree) (name digest : String) (bytes : List UInt8) : Result ImageMeta :=
  match x.decodeImage bytes with
  | .error e => .error (.json e)
  | .ok raw =>
    let host := Registry.hostArch x.codec.arch
    if raw.os ≠ "linux" then
      .error (.invalid ("image " ++ name ++ " targets os " ++ Text.debugStr raw.os ++ ", only linux is supported"))
    else if raw.architecture ≠ "" ∧ raw.architecture ≠ host then
      .error (.invalid s!"image {name} is built for {raw.architecture}, this host is {host}")
    else
      .ok { name, digest, layers := raw.diffIds, config := ImageConfig.ofRaw raw.config, kind := .oci }

def runsPebble (argv : List String) : Bool :=
  match argv with
  | [] => false
  | a :: _ => (Text.split '/' a).getLast? == some "pebble"

/-- `kind::detect`: the layers are looked at from the top. -/
def detect (img : ImageMeta) : Work Tree ImageKind :=
  if runsPebble img.config.entrypoint || (img.config.entrypoint.isEmpty && runsPebble img.config.cmd) then pure .pebble
  else look img.layers.reverse
where
  look : List String → Work Tree ImageKind
    | [] => pure .oci
    | l :: rest => do
      if ← ships l then pure .pebble else look rest

/-! ## Layers -/

inductive LayerCompression
  | none
  | gzip
  | zstd
  deriving DecidableEq, Repr

def layerCompression (mediaType : String) : Result LayerCompression :=
  if Text.endsWith mediaType "tar+gzip" || Text.endsWith mediaType "tar.gzip" then .ok .gzip
  else if Text.endsWith mediaType "tar+zstd" then .ok .zstd
  else if Text.endsWith mediaType ".tar" || Text.endsWith mediaType "tar" then .ok .none
  else .error (.invalid s!"unsupported layer media type {mediaType}")

def sniffCompression (file : Stream) : Result LayerCompression :=
  match file.bytes.take 4, file.fault with
  | [], some e => .error (.io e)
  | 0x1f :: 0x8b :: _, _ => .ok .gzip
  | [0x28, 0xb5, 0x2f, 0xfd], _ => .ok .zstd
  | _, _ => .ok .none

def decompress (x : Env Tree) (compression : LayerCompression) (raw : Stream) : Result Stream :=
  match compression with
  | .none => .ok raw
  | .gzip => .ok (x.gunzip raw)
  | .zstd => (x.unzstd raw).mapError fun e => .invalid ("zstd: " ++ e)

def removeDirAll (p : Place) : Work Tree Unit := do
  must (.empty p) rfl
  must (.remove p) rfl

def extractLayer (x : Env Tree) (stream : Stream) (dest : Place) (mode : WhiteoutMode) : Work Tree Unit := do
  must (.makeDir dest) rfl
  (x.script mode stream).forM fun f => must (.edit dest f) rfl

/-- The part of `store_layer_from_blob` for a layer that is not there. -/
def stageLayer (x : Env Tree) (blob : Option Stream) (diffId : String) (compression : LayerCompression)
    (mode : WhiteoutMode) : Work Tree Unit := do
  must .makeLayers rfl
  let tmp := stagingDir diffId
  let _ ← (removeDirAll tmp).attempt
  must .own rfl
  let raw ← Job.lift (blob.elim (.error noSuchFile) .ok)
  let stream ← Job.lift (decompress x compression raw)
  match ← (extractLayer x stream tmp mode).attempt with
  | .error e =>
    let _ ← (removeDirAll tmp).attempt
    Job.throw e
  | .ok () =>
    let actual := x.digestOf stream.bytes
    if actual ≠ diffId then
      let _ ← (removeDirAll tmp).attempt
      Job.throw (.invalid s!"layer digest mismatch: config says {diffId}, content is {actual}")
    else must (.rename tmp (layerDir diffId)) rfl

/-- `store_layer_from_blob`; the file of the blob is missing where there is none. -/
def storeLayerFromBlob (x : Env Tree) (blob : Option Stream) (diffId : String) (compression : LayerCompression)
    (mode : WhiteoutMode) : Work Tree Unit := do
  if ← pathExists (layerDir diffId) then pure ()
  else stageLayer x blob diffId compression mode

/-! ## Metadata -/

def put (img : ImageMeta) : Work Tree Unit := do
  must .own rfl
  must (.openMeta (metaFile img.name)) rfl
  must (.writeMeta (metaFile img.name) img) rfl

def get (name : String) : Work Tree ImageMeta := do
  match ← readMeta (metaFile name) with
  | .error e => if e = noSuchFile then Job.throw (.notFound s!"image {name}") else Job.throw e
  | .ok img => pure img

def list : Work Tree (List ImageMeta) := do
  let files ← metaFiles
  let read ← Job.collect readMeta files
  pure ((read.filterMap Except.toOption).insertionSort fun a b => a.name ≤ b.name)

/-- `gc`: a directory that no image lists goes, unless its name starts with a dot. -/
def gc : Work Tree (List String) := do
  let referenced := (← list).flatMap fun img => img.layers.map dashed
  let names ← layerNames
  let removed := names.filter fun name => !Text.startsWith name "." && !referenced.contains name
  removed.forM fun name => removeDirAll (.child name)
  pure (removed.insertionSort (· ≤ ·))

/-! ## Archives -/

/-- An archive unpacked: what reading a path from its directory gives. -/
structure Archive where
  file : String → Option Stream

def Archive.has (a : Archive) (path : String) : Bool := (a.file path).isSome

/-- `fs::read`. -/
def Archive.read (a : Archive) (path : String) : Result (List UInt8) :=
  match a.file path with
  | none => .error noSuchFile
  | some ⟨_, some e⟩ => .error (.io e)
  | some ⟨bytes, none⟩ => .ok bytes

def decodedWith {α : Type} (r : Except String α) : Result α := r.mapError Error.json

def layerCountError (name : String) (inManifest inConfig : ℕ) : Error :=
  .invalid s!"image {name}: manifest lists {inManifest} layers but the config lists {inConfig}"

/-- What is done with the metadata once every layer is stored. -/
def finish (img : ImageMeta) : Work Tree ImageMeta := do
  let img := { img with kind := ← detect img }
  put img
  pure img

def importEntry (x : Env Tree) (a : Archive) (entry : ManifestEntry) : Work Tree ImageMeta := do
  let configBytes ← Job.lift (a.read entry.config)
  let digest := x.digestOf configBytes
  let name := ((entry.repoTags.bind List.head?).getD digest)
  let img ← Job.lift (parseConfig x name digest configBytes)
  if img.layers.length ≠ entry.layers.length then
    Job.throw (layerCountError name entry.layers.length img.layers.length)
  else
    (entry.layers.zip img.layers).forM fun (path, diffId) => do
      let file ← Job.lift ((a.file path).elim (.error noSuchFile) .ok)
      let compression ← Job.lift (sniffCompression file)
      storeLayerFromBlob x (some file) diffId compression x.mode
    finish img

def importDockerArchive (x : Env Tree) (a : Archive) : Work Tree (List ImageMeta) := do
  let entries ← Job.lift ((a.read "manifest.json").bind fun bytes => decodedWith (x.decodeEntries bytes))
  Job.collect (importEntry x a) entries

/-- `Path::join`. -/
def joinPath (dir path : String) : String := if Text.startsWith path "/" then path else dir ++ "/" ++ path

def blobPath (digest : String) : Result String :=
  match Text.splitOnce ':' digest with
  | none => .error (.invalid s!"malformed digest {digest}")
  | some (algo, hex) => .ok (joinPath (joinPath "blobs" algo) hex)

def readIndex (x : Env Tree) (a : Archive) : Result Index :=
  (a.read "index.json").bind fun bytes => decodedWith (x.codec.decodeIndex bytes)

def selectManifestEntry (x : Env Tree) (index : Index) : Result Descriptor :=
  let arch := Registry.hostArch x.codec.arch
  match Registry.selectPlatform index "linux" arch with
  | none => .error (.invalid s!"no manifest for linux/{arch} in OCI index")
  | some desc => .ok desc

def readManifest (x : Env Tree) (a : Archive) (digest : String) : Result Manifest :=
  (blobPath digest).bind fun path => (a.read path).bind fun bytes => decodedWith (x.codec.decodeManifest bytes)

def readBlob (a : Archive) (digest : String) : Result (List UInt8) := (blobPath digest).bind a.read

def importOciLayout (x : Env Tree) (a : Archive) : Work Tree (List ImageMeta) := do
  let index ← Job.lift (readIndex x a)
  let entry ← Job.lift (selectManifestEntry x index)
  let manifest ← Job.lift (readManifest x a entry.digest)
  let configBytes ← Job.lift (readBlob a manifest.config.digest)
  let name := (entry.annotations.get? "org.opencontainers.image.ref.name").getD manifest.config.digest
  let img ← Job.lift (parseConfig x name manifest.config.digest configBytes)
  if img.layers.length ≠ manifest.layers.length then
    Job.throw (layerCountError name manifest.layers.length img.layers.length)
  else
    (manifest.layers.zip img.layers).forM fun (desc, diffId) => do
      let compression ← Job.lift (layerCompression desc.mediaType)
      let path ← Job.lift (blobPath desc.digest)
      storeLayerFromBlob x (a.file path) diffId compression x.mode
    let img ← finish img
    pure [img]

/-- `import_archive`, of what unpacking the archive gave. -/
def importArchive (x : Env Tree) (unpacked : Result Archive) : Work Tree (List ImageMeta) := do
  must .own rfl
  let result ← Job.attempt (do
    let a ← Job.lift unpacked
    if a.has "manifest.json" then importDockerArchive x a
    else if a.has "index.json" && a.has "oci-layout" then importOciLayout x a
    else Job.throw (.invalid ("archive has neither manifest.json nor an OCI index.json; " ++
      "only docker-archive and oci-archive formats are supported")))
  let _ ← (must (.own : Op Tree) rfl).attempt
  Job.lift result

/-! ## Pulling -/

def referenceName (r : Reference) : String :=
  let selector := match r.selector with
    | .tag t => ":" ++ t
    | .digest d => "@" ++ d
  if r.registry = Registry.defaultRegistry then
    (Text.stripPrefix "library/" r.repository).getD r.repository ++ selector
  else r.registry ++ "/" ++ r.repository ++ selector

/-- A registry to pull from, with the credentials for it. -/
structure Source (σ : Type) where
  http : Http σ
  creds : Credentials

section Pull
variable {σ : Type}

def unreachable (e : Registry.Error) : Error := .unreachable e.display

/-- One exchange with the registry, and the connection after it. -/
def exchange {α : Type} (r : Except Registry.Error α × Conn σ) : Work Tree (α × Conn σ) :=
  match r with
  | (.ok a, conn) => pure (a, conn)
  | (.error e, _) => Job.throw (unreachable e)

/-- `all`, which stops at the first layer that is missing. -/
def allPresent : List String → Work Tree Bool
  | [] => pure true
  | l :: rest => do
    if ← pathExists (layerDir l) then allPresent rest else pure false

def pullLayers (x : Env Tree) (src : Source σ) (r : Reference) : Conn σ → List (Descriptor × String) → Work Tree Unit
  | _, [] => pure ()
  | conn, (desc, diffId) :: rest => do
    if ← pathExists (layerDir diffId) then pullLayers x src r conn rest
    else
      let compression ← Job.lift (layerCompression desc.mediaType)
      must .own rfl
      let (bytes, conn) ← exchange
        (Registry.Client.getBlob x.codec src.http ⟨r.registry⟩ r.repository desc.digest src.creds conn)
      storeLayerFromBlob x (some ⟨bytes, none⟩) diffId compression x.mode
      must .own rfl
      pullLayers x src r conn rest

/-- The part of a pull that works in a staging directory. -/
def pullStaged (x : Env Tree) (src : Source σ) (r : Reference) (digest : String) (manifest : Manifest) (conn : Conn σ) :
    Work Tree ImageMeta := do
  let name := referenceName r
  let (configBytes, conn) ← exchange
    (Registry.Client.getBlob x.codec src.http ⟨r.registry⟩ r.repository manifest.config.digest src.creds conn)
  let img ← Job.lift (parseConfig x name digest configBytes)
  if img.layers.length ≠ manifest.layers.length then
    Job.throw (layerCountError name manifest.layers.length img.layers.length)
  else
    pullLayers x src r conn (manifest.layers.zip img.layers)
    finish img

def pullFresh (x : Env Tree) (src : Source σ) (r : Reference) (digest : String) (manifest : Manifest) (conn : Conn σ) :
    Work Tree ImageMeta := do
  must .own rfl
  let result ← (pullStaged x src r digest manifest conn).attempt
  let _ ← (must (.own : Op Tree) rfl).attempt
  Job.lift result

def pullAndImport (x : Env Tree) (src : Source σ) (r : Reference) (conn : Conn σ) : Work Tree ImageMeta := do
  let ((digest, manifest), conn) ← exchange
    (Registry.Client.resolveManifest x.codec src.http ⟨r.registry⟩ r.repository r.selector src.creds conn)
  match ← (get (referenceName r)).attempt with
  | .error _ => pullFresh x src r digest manifest conn
  | .ok existing =>
    if existing.digest = digest then
      if ← allPresent existing.layers then pure existing
      else pullFresh x src r digest manifest conn
    else pullFresh x src r digest manifest conn

def ensurePulled (x : Env Tree) (src : Source σ) (r : Reference) (conn : Conn σ) (policy : PullPolicy) :
    Work Tree ImageMeta := do
  let name := referenceName r
  match policy with
  | .always => pullAndImport x src r conn
  | .missing => match ← (get name).attempt with
    | .ok img => pure img
    | .error (.notFound _) => pullAndImport x src r conn
    | .error e => Job.throw e
  | .never => match ← (get name).attempt with
    | .ok img => pure img
    | .error _ => Job.throw (.notFound s!"image {name} is not present locally and the pull policy is never")

end Pull

/-! ## Committing -/

/-- `extract_maybe_gzip`. -/
def maybeGunzip (x : Env Tree) (raw : Stream) : Stream :=
  match raw.bytes with
  | 0x1f :: 0x8b :: _ => x.gunzip raw
  | _ => raw

/-- `commit_upper_to_store`: `tar` is what `tar_layer` writes to the file `tmp`, whose name is drawn at random. -/
def commitUpperToStore (x : Env Tree) (tmp : String) (tar : Result (List UInt8)) : Work Tree String := do
  must .makeLayers rfl
  must (.makeFile tmp) rfl
  let bytes ← Job.lift tar
  let digest := x.digestOf bytes
  if ← pathExists (layerDir digest) then pure ()
  else
    must .own rfl
    extractLayer x (maybeGunzip x ⟨bytes, none⟩) (layerDir digest) x.mode
  let _ ← (must (.removeFile tmp : Op Tree) rfl).attempt
  pure digest

end Collocate.Image
