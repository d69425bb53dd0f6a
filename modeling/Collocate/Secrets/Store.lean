import Mathlib.Data.List.Sort
import Collocate.Lib.Faulty
import Collocate.Lib.OrdMap
import Collocate.Core.Error

/-! # The secret store (`collocated/src/secrets.rs`)

A directory for each project, with a file for each secret, one for its version, and temporary files that
become either of them. The random text of a generated secret is a parameter. -/
namespace Collocate.Secrets
set_option autoImplicit false

def maxLen : ℕ := 4096

/-! ## Names -/

/-- `Path::file_stem` of a plain file name. -/
def fileStem (file : String) : String :=
  if file = ".." then file
  else match Text.rsplitOnce '.' file with
    | some (before, _) => if before.isEmpty then file else before
    | none => file

/-- `Path::with_extension`. -/
def withExtension (file extension : String) : String := fileStem file ++ "." ++ extension

def valid (name : String) : Bool :=
  decide (name.utf8ByteSize ≤ 128) && !Text.endsWith name ".meta" &&
    match name.toList with
    | [] => false
    | c :: rest =>
      Text.isAlphanumeric c && rest.all fun c => Text.isAlphanumeric c || c == '_' || c == '.' || c == '-'

/-- `SecretStore::path`, which only gives a path to a valid reference. -/
def checkPath (project name : String) : Result Unit :=
  if !valid project || !valid name then .error (.invalid s!"invalid secret reference {project}/{name}") else .ok ()

/-! ## Files -/

abbrev Folder := OrdMap String String

/-- The project directories. -/
abbrev Files := OrdMap String Folder

abbrev Op (α : Type) := Eff (Faulty Files) Error α

def ioError : Error := .io "I/O error"

def content (F : Files) (project file : String) : Option String := (F.get? project).bind fun folder => folder.get? file

/-- A change in the directory of a project. -/
def within (project : String) (f : Folder → Folder) (F : Files) : Files :=
  match F.get? project with
  | some folder => F.insert project (f folder)
  | none => F

def rename (source target : String) (folder : Folder) : Folder :=
  match folder.get? source with
  | some text => (folder.erase source).insert target text
  | none => folder

/-- `write_private`: the temporary file is made, written and synced, and then becomes the file. -/
def writePrivate (project file text : String) : Op Unit := do
  let tmp := withExtension file "tmp"
  Faulty.change ioError (within project (·.insert tmp ""))
  Faulty.change ioError (within project (·.insert tmp text))
  Faulty.change ioError id
  Faulty.change ioError (within project (rename tmp file))

def makeDir (project : String) (F : Files) : Files := if F.contains project then F else F.insert project .empty

def orElse {α : Type} (other : α) : Result α → α
  | .ok a => a
  | .error _ => other

def ensureDir (project : String) : Op Unit := do
  let there ← Eff.attempt (Faulty.look ioError fun F => F.contains project)
  if !orElse false there then
    Faulty.change ioError (makeDir project)
    let _ ← Eff.attempt (Faulty.change ioError id)

/-! ## Operations -/

def version (project name : String) : Op UInt64 := do
  Eff.lift (checkPath project name)
  match ← Faulty.look ioError fun F => content F project (withExtension name "meta") with
  | none => Eff.throw (.io "No such file or directory (os error 2)")
  | some text => pure ((Text.parseU64 (Text.trim text)).getD 0)

def writeValue (project name value : String) : Op Unit := do
  Eff.lift (checkPath project name)
  ensureDir project
  let old ← Eff.attempt (version project name)
  writePrivate project name value
  writePrivate project (withExtension name "meta") (toString (orElse 0 old + 1))

def supported (generator : String) : Bool := generator == "password" || generator == "token" || generator == "hex"

/-- `ensure`, where `drawn` is what `random_from` would give. -/
def ensure (project name generator : String) (length : ℕ) (drawn : String) : Op Bool := do
  Eff.lift (checkPath project name)
  let there ← Eff.attempt (Faulty.look ioError fun F => (content F project name).isSome)
  if orElse false there then pure false
  else if length = 0 ∨ maxLen < length then Eff.throw (.invalid s!"secret length must be within 1..={maxLen}")
  else if supported generator then do
    Faulty.change ioError id
    writeValue project name drawn
    pure true
  else Eff.throw (.invalid s!"unsupported generator {generator}")

def set (project name value : String) : Op Unit := writeValue project name value

def missing (project name : String) : Error := .notFound s!"secret {project}/{name}"

def reveal (project name : String) : Op String := do
  Eff.lift (checkPath project name)
  match ← Faulty.look ioError fun F => content F project name with
  | none => Eff.throw (missing project name)
  | some value => pure value

def remove (project name : String) : Op Unit := do
  Eff.lift (checkPath project name)
  let there ← Faulty.op ioError fun F => ((content F project name).isSome, within project (·.erase name) F)
  if there then
    let _ ← Eff.attempt (Faulty.change ioError (within project (·.erase (withExtension name "meta"))))
  else Eff.throw (missing project name)

/-- The secrets of one project directory, if it can be read. -/
def listProject (project : String) : Op (List String) := do
  if !valid project then pure []
  else do
    let names ← Eff.attempt (Faulty.look ioError fun F => ((F.get? project).getD .empty).keys)
    pure (((orElse [] names).filter fun n => valid n).map fun n => project ++ "/" ++ n)

def list (project : Option String) : Op (List String) := do
  let projects ← match project with
    | some p => pure [p]
    | none => do
      let keys ← Eff.attempt (Faulty.look ioError fun F => F.keys)
      pure (orElse [] keys)
  let found ← Eff.collect listProject projects
  pure (found.flatten.insertionSort (· ≤ ·))

end Collocate.Secrets
