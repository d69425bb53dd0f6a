import Mathlib.Data.List.Sort
import Collocate.Lib.Job
import Collocate.Core.Spec

/-! # Containers on disk (`collocate-store/src/store.rs`, `fsutil.rs`)

A container is a directory with a `spec.json`, under the base of the persistent ones or of those that
live as long as the host. The operations are the calls they make on the directories, so that they can
be cut off between any two of them. -/
namespace Collocate.Store
set_option autoImplicit false

/-! ## Directories -/

/-- The directories that hold those of containers. -/
inductive Area
  | state
  | run
  | trash
  | corrupt
  deriving DecidableEq, Repr

/-- What a file holds: a spec, or something that does not decode as one. -/
inductive File
  | spec (s : Spec)
  | text (t : String)
  deriving DecidableEq

abbrev Dir := OrdMap String File

abbrev Files := Area → OrdMap String Dir

def noFiles : Files := fun _ => .empty

/-- A change in one area. -/
def Files.set (d : Files) (a : Area) (dirs : OrdMap String Dir) : Files := Function.update d a dirs

def noSuchFile : Error := .io "No such file or directory (os error 2)"
def notEmpty : Error := .io "Directory not empty (os error 39)"

/-! ## Calls -/

inductive Call
  | dirExists (a : Area) (name : String)
  | fileExists (a : Area) (name file : String)
  /-- `create_dir_all` of an area. -/
  | makeArea (a : Area)
  | makeDir (a : Area) (name : String)
  /-- `File::create` of the temporary file of `file`. -/
  | createTmp (a : Area) (name file : String)
  | fillTmp (a : Area) (name file : String) (content : File)
  | renameTmp (a : Area) (name file : String)
  | sync
  | entries (a : Area) (name : String)
  | unlink (a : Area) (name file : String)
  /-- `remove_dir`. -/
  | rmdir (a : Area) (name : String)
  | moveDir (a : Area) (name : String) (a' : Area) (name' : String)
  /-- `read_dir` of an area. -/
  | names (a : Area)
  | readFile (a : Area) (name file : String)
  deriving DecidableEq

@[reducible] def Call.Ans : Call → Type
  | .dirExists _ _ | .fileExists _ _ _ => Bool
  | .entries _ _ => Except Error (List String)
  | .names _ => List String
  | .readFile _ _ _ => Except Error File
  | _ => Except Error Unit

/-- What the environment does with a call: nothing, an error, or the order in which a directory is listed. -/
inductive Fate
  | fine
  | broken (e : String)
  | order (names : List String)
  deriving DecidableEq, Repr

abbrev Work (α : Type) := Job Call Call.Ans Error α

def tmpName (file : String) : String := "." ++ file ++ ".tmp"

/-- The names in the order that the environment chooses. -/
def inOrder (w : Fate) (names : List String) : List String :=
  match w with
  | .order l => if l.isPerm names then l else names
  | _ => names

/-- A change that the environment may refuse. -/
def changed (w : Fate) (d : Files) (f : Except Error Unit × Files) : Except Error Unit × Files :=
  match w with
  | .broken e => (.error (.io e), d)
  | _ => f

/-- A change of the files of a directory that is there. -/
def inDir (d : Files) (a : Area) (name : String) (f : Dir → Except Error Unit × Dir) : Except Error Unit × Files :=
  match (d a).get? name with
  | none => (.error noSuchFile, d)
  | some dir => ((f dir).1, d.set a ((d a).insert name (f dir).2))

/-- `rename` of a directory: only an empty directory may be in its place. -/
def doMove (d : Files) (a : Area) (name : String) (a' : Area) (name' : String) : Except Error Unit × Files :=
  match (d a).get? name with
  | none => (.error noSuchFile, d)
  | some dir =>
    let gone := d.set a ((d a).erase name)
    let moved := gone.set a' ((gone a').insert name' dir)
    match (d a').get? name' with
    | none => (.ok (), moved)
    | some there => if there.isEmpty then (.ok (), moved) else (.error notEmpty, d)

/-- What a call does. -/
def exec : (call : Call) → Fate → Files → call.Ans × Files
  | .dirExists a name, _, d => ((d a).contains name, d)
  | .fileExists a name file, _, d => ((((d a).get? name).bind (·.get? file)).isSome, d)
  | .makeArea _, w, d => changed w d (.ok (), d)
  | .makeDir a name, w, d =>
    changed w d (.ok (), if (d a).contains name then d else d.set a ((d a).insert name .empty))
  | .createTmp a name file, w, d => changed w d (inDir d a name fun dir =>
    (.ok (), dir.insert (tmpName file) (.text "")))
  | .fillTmp a name file content, w, d =>
    changed w d (inDir d a name fun dir => (.ok (), dir.insert (tmpName file) content))
  | .renameTmp a name file, w, d => changed w d (inDir d a name fun dir => match dir.get? (tmpName file) with
      | none => (.error noSuchFile, dir)
      | some content => (.ok (), (dir.erase (tmpName file)).insert file content))
  | .sync, w, d => changed w d (.ok (), d)
  | .entries _ _, .broken e, d => (.error (.io e), d)
  | .entries a name, w, d => match (d a).get? name with
    | none => (.error noSuchFile, d)
    | some dir => (.ok (inOrder w dir.keys), d)
  | .unlink a name file, w, d => changed w d (inDir d a name fun dir =>
      if dir.contains file then (.ok (), dir.erase file) else (.error noSuchFile, dir))
  | .rmdir a name, w, d => changed w d (match (d a).get? name with
      | none => (.error noSuchFile, d)
      | some dir => if dir.isEmpty then (.ok (), d.set a ((d a).erase name)) else (.error notEmpty, d))
  | .moveDir a name a' name', w, d => changed w d (doMove d a name a' name')
  | .names _, .broken _, d => ([], d)
  | .names a, w, d => (inOrder w (d a).keys, d)
  | .readFile _ _ _, .broken e, d => (.error (.io e), d)
  | .readFile a name file, _, d => match ((d a).get? name).bind (·.get? file) with
    | none => (.error noSuchFile, d)
    | some content => (.ok content, d)

/-! ## Calls as programs -/

def must (call : Call) (h : call.Ans = Result Unit) : Work Unit := Job.ask call >>= fun a => Job.lift (cast h a)

def dirExists (a : Area) (name : String) : Work Bool := Job.ask (Call.dirExists a name)

def fileExists (a : Area) (name file : String) : Work Bool := Job.ask (Call.fileExists a name file)

def names (a : Area) : Work (List String) := Job.ask (Call.names a)

def readFile (a : Area) (name file : String) : Work (Result File) := Job.ask (Call.readFile a name file)

def entries (a : Area) (name : String) : Work (Result (List String)) := Job.ask (Call.entries a name)

def atomicWrite (a : Area) (name file : String) (content : File) : Work Unit := do
  must (.createTmp a name file) rfl
  must (.fillTmp a name file content) rfl
  must (.renameTmp a name file) rfl
  must .sync rfl

/-- `remove_dir_all`: the entries go in any order, and then the directory. -/
def removeDirAll (a : Area) (name : String) : Work Unit := do
  let found ← entries a name
  let files ← Job.lift found
  files.forM fun file => must (.unlink a name file) rfl
  must (.rmdir a name) rfl

/-! ## The store -/

def specFile : String := "spec.json"
def runtimeFile : String := "runtime.json"
def specSchema : UInt32 := 1

/-- `spec_path`, as the area it is in. -/
def specPath (id : ContainerId) : Work (Option Area) := do
  if ← fileExists .state id.display specFile then pure (some .state)
  else if ← fileExists .run id.display specFile then pure (some .run)
  else pure none

def quarantine (a : Area) (name : String) : Work Unit := do
  must (.makeArea .corrupt) rfl
  let _ ← (removeDirAll .corrupt name).attempt
  must (.moveDir a name .corrupt name) rfl

/-- What a file named `spec.json` gives, when it can be read. -/
def decoded (a : Area) (name : String) : File → Work (Option Spec)
  | .spec s =>
    if s.schema > specSchema then Job.throw (.invalid s!"spec {name} uses newer schema {s.schema}") else pure (some s)
  | .text _ => do
    quarantine a name
    pure none

/-- One entry of `load_all`. -/
def loadEntry (a : Area) (name : String) : Work (Option Spec) :=
  if Text.startsWith name "." then pure none
  else do
    match ← readFile a name specFile with
    | .error e => if e = noSuchFile then pure none else Job.throw e
    | .ok file => decoded a name file

def loadArea (a : Area) : Work (List Spec) := do
  let found ← names a
  let read ← Job.collect (loadEntry a) found
  pure (read.filterMap id)

/-- The order of `load_all`. -/
def earlier (s t : Spec) : Bool :=
  decide (s.created < t.created) || (decide (s.created = t.created) && decide (s.id ≤ t.id))

def loadAll : Work (List Spec) := do
  let persistent ← loadArea .state
  let ephemeral ← loadArea .run
  pure ((persistent ++ ephemeral).mergeSort earlier)

def conflictId (id : ContainerId) : Error := .conflict s!"container {id.display} already exists"

/-- The checks of `create`. -/
def checkFree (spec : Spec) : Work Unit := do
  match ← specPath spec.id with
  | some _ => Job.throw (conflictId spec.id)
  | none =>
    if spec.name = "" then pure ()
    else do
      let all ← loadAll
      if all.any (·.name = spec.name) then Job.throw (.conflict s!"name {spec.name} is already in use") else pure ()

def baseOf (spec : Spec) : Area := if spec.persistent then .state else .run

def tmpDir (id : ContainerId) : String := ".tmp-" ++ id.display

def stage (spec : Spec) : Work Unit := do
  must (.makeDir (baseOf spec) (tmpDir spec.id)) rfl
  atomicWrite (baseOf spec) (tmpDir spec.id) specFile (.spec spec)

/-- The part of `create` for a directory without a spec in the way. -/
def clearWay (spec : Spec) : Work Unit := do
  if ← dirExists (baseOf spec) spec.id.display then do
    removeDirAll (baseOf spec) (tmpDir spec.id)
    if ← fileExists (baseOf spec) spec.id.display specFile then Job.throw (conflictId spec.id)
    else do
      must (.rmdir (baseOf spec) spec.id.display) rfl
      stage spec
  else pure ()

def create (spec : Spec) : Work Unit := do
  checkFree spec
  must (.makeArea (baseOf spec)) rfl
  let _ ← (removeDirAll (baseOf spec) (tmpDir spec.id)).attempt
  stage spec
  clearWay spec
  must (.moveDir (baseOf spec) (tmpDir spec.id) (baseOf spec) spec.id.display) rfl
  must .sync rfl

/-- `create` after its checks. -/
def install (spec : Spec) : Work Unit := do
  must (.makeArea (baseOf spec)) rfl
  let _ ← (removeDirAll (baseOf spec) (tmpDir spec.id)).attempt
  stage spec
  clearWay spec
  must (.moveDir (baseOf spec) (tmpDir spec.id) (baseOf spec) spec.id.display) rfl
  must .sync rfl

def update (spec : Spec) : Work Unit := do
  match ← specPath spec.id with
  | none => Job.throw (.notFound spec.id.display)
  | some a => atomicWrite a spec.id.display specFile (.spec spec)

def get (id : ContainerId) : Work Spec := do
  match ← specPath id with
  | none => Job.throw (.notFound id.display)
  | some a => do
    match ← readFile a id.display specFile with
    | .error e => Job.throw e
    | .ok (.spec s) => pure s
    | .ok (.text _) => Job.throw (.json "expected value at line 1 column 1")

/-- The part of `remove` for a persistent directory. -/
def discard (id : ContainerId) : Work Unit := do
  if ← dirExists .state id.display then do
    must (.makeArea .trash) rfl
    must (.moveDir .state id.display .trash id.display) rfl
  else pure ()

def remove (id : ContainerId) : Work Unit := do
  match ← specPath id with
  | none => Job.throw (.notFound id.display)
  | some _ => do
    discard id
    if ← dirExists .run id.display then removeDirAll .run id.display else pure ()

def purgeTrash : Work Unit := do
  let found ← names .trash
  found.forM fun name => removeDirAll .trash name

/-- What `recover` does in one base. -/
def sweep (a : Area) : Work Unit := do
  let found ← names a
  found.forM fun name => if Text.startsWith name ".tmp-" then removeDirAll a name else pure ()

def recover : Work Unit := do
  sweep .state
  sweep .run
  purgeTrash

/-- `write_runtime`, of the JSON text. -/
def writeRuntime (id : ContainerId) (json : String) : Work Unit := do
  must (.makeDir .run id.display) rfl
  atomicWrite .run id.display runtimeFile (.text json)

def clearRuntime (id : ContainerId) : Work Unit := do
  match ← (must (.unlink .run id.display runtimeFile) rfl).attempt with
  | .ok () => pure ()
  | .error e => if e = noSuchFile then pure () else Job.throw e

end Collocate.Store
