import Collocate.Lib.Job
import Collocate.Image.Config
import Collocate.Registry.Client

/-! # The image store on disk (`collocate-image/src/config.rs`, `extract.rs`)

The children of `layers/`, the metadata files of `oci/`, and the calls that image code makes on them.
`Tree` is the content of a layer directory: what it looks like and what one step of an extraction does
to it are parameters. A path that does not lead to a child of `layers/` is not followed: what is done
there may leave the store in any state. -/
namespace Collocate.Image
set_option autoImplicit false

/-! ## Paths -/

/-- Where a path relative to `layers/` leads. -/
inductive Place
  | child (name : String)
  | elsewhere (path : String)
  deriving DecidableEq, Repr

/-- `Path::components`, without the root and the current directory. -/
def components (path : String) : List String := (Text.split '/' path).filter fun c => c != "" && c != "."

/-- `Path::join` on `layers/`. -/
def place (path : String) : Place :=
  if Text.startsWith path "/" then .elsewhere path
  else match components path with
    | [c] => if c = ".." then .elsewhere path else .child c
    | _ => .elsewhere path

def dashed (diffId : String) : String := String.ofList (diffId.toList.map fun c => if c = ':' then '-' else c)

def layerDir (diffId : String) : Place := place (dashed diffId)

/-- The directory that a layer is extracted to before it is renamed. -/
def stagingDir (diffId : String) : Place := place (".tmp-" ++ dashed diffId)

/-- `file_name`: what is not a plain character is written as its number. -/
def fileName (name : String) : String :=
  String.ofList (name.toList.flatMap fun c =>
    if Text.isAlphanumeric c || c == '.' || c == '-' || c == '_' then [c]
    else '%' :: (if c.toNat < 16 then ['0'] else []) ++ Nat.toDigits 16 c.toNat)

def metaFile (name : String) : String := fileName name ++ ".json"

/-! ## What is stored -/

inductive Node (Tree : Type)
  | dir (tree : Tree)
  | file
  deriving DecidableEq, Repr

/-- A metadata file, or what `fs::write` leaves of it before it is done. -/
inductive MetaFile
  | whole (img : ImageMeta)
  | torn
  deriving DecidableEq, Repr

structure Disk (Tree : Type) where
  layers : OrdMap String (Node Tree) := OrdMap.empty
  metas : OrdMap String MetaFile := OrdMap.empty
  deriving DecidableEq

/-- What a reader delivers: the bytes, and the error it ends with, if any. -/
structure Stream where
  bytes : List UInt8
  fault : Option String := none
  deriving DecidableEq, Repr

inductive WhiteoutMode
  | overlay
  | skip
  deriving DecidableEq, Repr

/-- What one step of an extraction does to the directory it extracts to. `escape` is the whiteout of
`..` at its top: everything beside the directory is removed, and the step fails. -/
inductive Outcome (Tree : Type)
  | next (tree : Tree)
  | fail (tree : Tree) (e : Error)
  | escape
  deriving DecidableEq, Repr

structure RawHealth where
  test : List String := []
  interval : UInt64 := 0
  timeout : UInt64 := 0
  retries : UInt32 := 0
  startPeriod : UInt64 := 0
  deriving DecidableEq, Repr

structure RawConfig where
  entrypoint : List String := []
  cmd : List String := []
  env : List String := []
  workingDir : String := ""
  user : String := ""
  exposedPorts : List String := []
  volumes : List String := []
  stopSignal : String := ""
  healthcheck : Option RawHealth := none
  deriving DecidableEq, Repr

structure RawImage where
  architecture : String := ""
  os : String := ""
  config : RawConfig := {}
  diffIds : List String := []
  deriving DecidableEq, Repr

/-- An entry of the `manifest.json` of a docker archive. -/
structure ManifestEntry where
  config : String
  repoTags : Option (List String) := none
  layers : List String
  deriving DecidableEq, Repr

/-- What image code uses beyond this repository and this directory: hashes, decoders, decompression, what a step
of an extraction does, and what can be seen through paths that leave `layers/`. -/
structure Env (Tree : Type) where
  codec : Registry.Codec
  decodeImage : List UInt8 → Except String RawImage
  decodeEntries : List UInt8 → Except String (List ManifestEntry)
  gunzip : Stream → Stream
  unzstd : Stream → Except String Stream
  empty : Tree
  isEmpty : Tree → Bool
  script : WhiteoutMode → Stream → List (Tree → Outcome Tree)
  elsewhere : Disk Tree → String → Bool
  ships : Disk Tree → String → Bool
  root : Bool

def Env.mode {Tree : Type} (x : Env Tree) : WhiteoutMode := if x.root then .overlay else .skip

def Env.digestOf {Tree : Type} (x : Env Tree) (bytes : List UInt8) : String := x.codec.digestOf bytes

/-! ## Calls -/

inductive Op (Tree : Type)
  /-- `Path::exists`. -/
  | pathExists (p : Place)
  /-- Work on files of the job's own, in its staging directory. -/
  | own
  /-- `create_dir_all` of `layers/`. -/
  | makeLayers
  | makeDir (p : Place)
  /-- One step of an extraction to `p`. -/
  | edit (p : Place) (f : Tree → Outcome Tree)
  /-- The part of `remove_dir_all` that empties the directory. -/
  | empty (p : Place)
  /-- The part of `remove_dir_all` that removes it. -/
  | remove (p : Place)
  | rename (source target : Place)
  | makeFile (name : String)
  | removeFile (name : String)
  /-- Whether one of the layers ships `pebble`. -/
  | ships (diffId : String)
  | readMeta (file : String)
  | openMeta (file : String)
  | writeMeta (file : String) (img : ImageMeta)
  | removeMeta (file : String)
  | metaFiles
  | layerNames
  /-- The response of a worker to its client. -/
  | reply

/-- What a call is answered with. -/
@[reducible] def Op.Ans {Tree : Type} : Op Tree → Type
  | .pathExists _ | .ships _ => Bool
  | .readMeta _ => Except Error ImageMeta
  | .metaFiles | .layerNames => List String
  | _ => Except Error Unit

abbrev Work (Tree α : Type) := Job (Op Tree) Op.Ans Error α

/-- What the environment does with a call: nothing, an error, a removal that gets as far as `tree`, what a path
that leads out of its place leaves behind, the names a directory shows while it changes, or a write that
mixes with another to the same file. -/
inductive Fate (Tree : Type)
  | fine
  | broken (e : String)
  | left (tree : Tree)
  | strays (layers : OrdMap String (Node Tree))
  | lists (names : List String)
  | mixed
  deriving DecidableEq

section Exec
variable {Tree : Type}

def noSuchFile : Error := .io "No such file or directory (os error 2)"
def notADirectory : Error := .io "Not a directory (os error 20)"
def notEmpty : Error := .io "Directory not empty (os error 39)"

/-- A change of the layers that the environment may refuse. -/
def attempted (w : Fate Tree) (s : Disk Tree) (f : Except Error Unit × OrdMap String (Node Tree)) :
    Except Error Unit × Disk Tree :=
  match w with
  | .broken e => (.error (.io e), s)
  | _ => (f.1, { s with layers := f.2 })

/-- Work at a path that leaves `layers/`. -/
def strayed (w : Fate Tree) (s : Disk Tree) : Except Error Unit × Disk Tree :=
  match w with
  | .broken e => (.error (.io e), s)
  | .strays layers => (.ok (), { s with layers })
  | _ => (.ok (), s)

def doMakeDir (x : Env Tree) (name : String) (layers : OrdMap String (Node Tree)) :
    Except Error Unit × OrdMap String (Node Tree) :=
  match layers.get? name with
  | some (.dir _) => (.ok (), layers)
  | some .file => (.error (.io "File exists (os error 17)"), layers)
  | none => (.ok (), layers.insert name (.dir x.empty))

def doEdit (w : Fate Tree) (name : String) (f : Tree → Outcome Tree) (layers : OrdMap String (Node Tree)) :
    Except Error Unit × OrdMap String (Node Tree) :=
  match layers.get? name with
  | some (.dir tree) => match f tree with
    | .next tree' => (.ok (), layers.insert name (.dir tree'))
    | .fail tree' e => (.error e, layers.insert name (.dir tree'))
    | .escape => (.error noSuchFile, match w with
      | .strays rest => rest
      | _ => OrdMap.empty)
  | _ => (.error noSuchFile, layers)

def doEmpty (w : Fate Tree) (name : String) (layers : OrdMap String (Node Tree)) :
    Except Error Unit × OrdMap String (Node Tree) :=
  match layers.get? name with
  | none => (.error noSuchFile, layers)
  | some .file => (.error notADirectory, layers)
  | some (.dir _) => match w with
    | .left tree => (.ok (), layers.insert name (.dir tree))
    | _ => (.ok (), layers)

def doRemove (name : String) (layers : OrdMap String (Node Tree)) : Except Error Unit × OrdMap String (Node Tree) :=
  match layers.get? name with
  | none => (.error noSuchFile, layers)
  | some .file => (.error notADirectory, layers)
  | some (.dir _) => (.ok (), layers.erase name)

/-- `rename` of a directory: only an empty directory may be in its place. -/
def doRename (x : Env Tree) (source target : String) (layers : OrdMap String (Node Tree)) :
    Except Error Unit × OrdMap String (Node Tree) :=
  match layers.get? source, layers.get? target with
  | some (.dir tree), none => (.ok (), (layers.erase source).insert target (.dir tree))
  | some (.dir tree), some (.dir there) =>
    if x.isEmpty there then (.ok (), (layers.erase source).insert target (.dir tree)) else (.error notEmpty, layers)
  | some (.dir _), some .file => (.error notADirectory, layers)
  | some .file, _ => (.error notADirectory, layers)
  | none, _ => (.error noSuchFile, layers)

def readMetaFile (s : Disk Tree) (file : String) : Except Error ImageMeta :=
  match s.metas.get? file with
  | some (.whole img) => .ok img
  | some .torn => .error (.json "EOF while parsing a value at line 1 column 0")
  | none => .error noSuchFile

/-- What a call does. -/
def exec (x : Env Tree) : (op : Op Tree) → Fate Tree → Disk Tree → op.Ans × Disk Tree
  | .pathExists _, .broken _, s => (false, s)
  | .pathExists (.child name), _, s => (s.layers.contains name, s)
  | .pathExists (.elsewhere path), _, s => (x.elsewhere s path, s)
  | .own, w, s => attempted w s (.ok (), s.layers)
  | .makeLayers, w, s => attempted w s (.ok (), s.layers)
  | .makeDir (.child name), w, s => attempted w s (doMakeDir x name s.layers)
  | .makeDir (.elsewhere _), w, s => strayed w s
  | .edit (.child name) f, w, s => attempted w s (doEdit w name f s.layers)
  | .edit (.elsewhere _) _, w, s => strayed w s
  | .empty (.child name), w, s => attempted w s (doEmpty w name s.layers)
  | .empty (.elsewhere _), w, s => strayed w s
  | .remove (.child name), w, s => attempted w s (doRemove name s.layers)
  | .remove (.elsewhere _), w, s => strayed w s
  | .rename (.child source) (.child target), w, s => attempted w s (doRename x source target s.layers)
  | .rename _ _, w, s => strayed w s
  | .makeFile name, w, s => attempted w s (.ok (), s.layers.insert name .file)
  | .removeFile name, w, s => attempted w s (.ok (), s.layers.erase name)
  | .ships diffId, _, s => (x.ships s diffId, s)
  | .readMeta _, .broken e, s => (.error (.io e), s)
  | .readMeta file, _, s => (readMetaFile s file, s)
  | .openMeta _, .broken e, s => (.error (.io e), s)
  | .openMeta file, _, s => (.ok (), { s with metas := s.metas.insert file .torn })
  | .writeMeta _ _, .broken e, s => (.error (.io e), s)
  | .writeMeta file _, .mixed, s => (.ok (), { s with metas := s.metas.insert file .torn })
  | .writeMeta file img, _, s => (.ok (), { s with metas := s.metas.insert file (.whole img) })
  | .removeMeta _, .broken e, s => (.error (.io e), s)
  | .removeMeta file, _, s =>
    if s.metas.contains file then (.ok (), { s with metas := s.metas.erase file }) else (.error noSuchFile, s)
  | .metaFiles, .broken _, s => ([], s)
  | .metaFiles, _, s => (s.metas.keys, s)
  | .reply, w, s => attempted w s (.ok (), s.layers)
  | .layerNames, .broken _, s => ([], s)
  | .layerNames, .lists names, s => (names, s)
  | .layerNames, _, s => (s.layers.keys, s)

end Exec

end Collocate.Image
