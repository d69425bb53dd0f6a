import Collocate.Daemon.Loop
import Collocate.Secrets.Store

/-! # The daemon's files

A world whose files are modelled: the secrets, the configuration files and the saved load balancers. All
else it leaves to a world that is given, and any operation on the files may fail. -/
namespace Collocate.Daemon
set_option autoImplicit false

/-- A file of a load balancer may hold something that does not decode (`none`). `leads` says which file a
name leads to from the directory of the load balancers: with a `/` in it, not always one of that directory,
and none where no file can be. -/
structure Disk where
  secrets : Secrets.Files := .empty
  configs : OrdMap String (OrdMap String String) := .empty
  lbFiles : OrdMap String (Option LbSpec) := .empty
  leads : String → Option String := some

abbrev DiskOp (α : Type) := Eff (Faulty Disk) Error α

def ioError : Error := .io "I/O error"

/-! ## Operations -/

def onSecrets {α : Type} (m : Secrets.Op α) : DiskOp α :=
  Eff.zoom (fun s => ⟨s.it.secrets, s.fate⟩) (fun t s => ⟨{ s.it with secrets := t.it }, t.fate⟩) m

def lbFile (key : String) : String := key ++ ".json"

def writeLbFile (lb : LbSpec) : DiskOp Unit := do
  Faulty.change ioError id
  let disk ← Eff.get
  match disk.it.leads (lbFile (lbKey lb.project lb.name)) with
  | none => Eff.throw (.io "No such file or directory (os error 2)")
  | some file =>
    Faulty.change ioError fun disk => { disk with lbFiles := disk.lbFiles.insert file none }
    Faulty.change ioError fun disk => { disk with lbFiles := disk.lbFiles.insert file (some lb) }

def removeLbFile (key : String) : DiskOp Unit := do
  let disk ← Eff.get
  match disk.it.leads (lbFile key) with
  | none => Eff.throw (.io "No such file or directory (os error 2)")
  | some file => Faulty.change ioError fun disk => { disk with lbFiles := disk.lbFiles.erase file }

/-- The load balancers in the files of their own directory. -/
def Disk.savedLbs (disk : Disk) : List LbSpec :=
  disk.lbFiles.entries.filterMap fun e => if Text.contains e.1 '/' then none else e.2

def configName (s : String) : Bool :=
  !s.isEmpty && s != "." && s != ".." &&
    s.toList.all fun c => Text.isAlphanumeric c || c == '-' || c == '_' || c == '.'

/-- A change in the directory of a project. -/
def inConfigs (project : String) (f : OrdMap String String → OrdMap String String) (disk : Disk) : Disk :=
  { disk with configs := disk.configs.insert project (f ((disk.configs.get? project).getD .empty)) }

def opConfigPut (stateDir project name content : String) : DiskOp String :=
  if !configName project || !configName name then Eff.throw (.invalid s!"invalid config name {project}/{name}")
  else do
    let tmp := s!".{name}.tmp"
    Faulty.change ioError (inConfigs project id)
    Faulty.change ioError (inConfigs project (·.insert tmp ""))
    Faulty.change ioError (inConfigs project (·.insert tmp content))
    Faulty.change ioError id
    Faulty.change ioError (inConfigs project fun dir => (dir.erase tmp).insert name content)
    pure s!"{stateDir}/configs/{project}/{name}"

/-! ## The world -/

section World
variable {τ : Type}

/-- The files, and all else. -/
abbrev Outside (τ : Type) := Faulty Disk × τ

def State.disk (d : State (Outside τ)) : Disk := d.outer.1.it

def onFiles {α : Type} (m : DiskOp α) : Prog (Outside τ) α := Eff.zoom Prod.fst (fun t s => (t, s.2)) m

def onRest {α : Type} (m : Prog τ α) : Prog (Outside τ) α := Eff.zoom Prod.snd (fun t s => (s.1, t)) m

def restAsk {α : Type} (f : τ → α × τ) (s : Outside τ) : α × Outside τ := ((f s.2).1, s.1, (f s.2).2)

def drawText (draw : ℕ → τ → String × τ) (length : ℕ) : Prog (Outside τ) String := fun s =>
  (.ok (draw length s.2).1, s.1, (draw length s.2).2)

/-- The requests about files. `draw` gives the text of a generated secret. -/
def serveFiles (base : World τ) (stateDir : String) (draw : ℕ → τ → String × τ) :
    Request → Prog (Outside τ) (Option Response)
  | .secretEnsure project name generate length => do
    let drawn ← drawText draw length
    let _ ← onFiles (onSecrets (Secrets.ensure project name generate length drawn))
    pure (some .ok)
  | .secretReveal project name => do
    let text ← onFiles (onSecrets (Secrets.reveal project name))
    pure (some (.text text))
  | .secretSet project name value => do
    onFiles (onSecrets (Secrets.set project name value))
    pure (some .ok)
  | .secretList project => do
    let list ← onFiles (onSecrets (Secrets.list project))
    pure (some (.names list))
  | .secretRemove project name => do
    onFiles (onSecrets (Secrets.remove project name))
    pure (some .ok)
  | .configPut project name content => do
    let path ← onFiles (opConfigPut stateDir project name content)
    pure (some (.text path))
  | request => onRest (base.serve request)

def actFiles (base : World τ) : Act → Prog (Outside τ) Unit
  | .writeLb lb => onFiles (writeLbFile lb)
  | .removeLb key => onFiles (removeLbFile key)
  | a => onRest (base.act a)

def onDisk (base : World τ) (stateDir : String) (draw : ℕ → τ → String × τ) : World (Outside τ) where
  now := restAsk base.now
  act := actFiles base
  write change := restAsk (base.write change)
  lowers root := onRest (base.lowers root)
  spawn spec := onRest (base.spawn spec)
  wait token := onRest (base.wait token)
  tcpCheck addr port := restAsk (base.tcpCheck addr port)
  httpCheck addr port path := restAsk (base.httpCheck addr port path)
  pebbleHealth id level := restAsk (base.pebbleHealth id level)
  stats id := onRest (base.stats id)
  adoptPid id := onRest (base.adoptPid id)
  savedLbs s := (s.1.it.savedLbs, s)
  observe := onRest base.observe
  serve := serveFiles base stateDir draw
  cpusMilli := base.cpusMilli
  sha256 := base.sha256

end World
end Collocate.Daemon
