import Mathlib.Data.Finset.Basic
import Mathlib.Logic.Function.Basic
import Collocate.Core.Request
import Collocate.Lib.OrdMap
import Collocate.Lib.Resuming

/-! # Provisioning (`collocate-cluster/src/provision.rs`, `collocate/src/init.rs`)

Nodes of a cluster are LXD instances. What is there is observed, the steps that lack are planned, and each runs one
`lxc` command. `Lxd` is the part of LXD that steps change and observation looks at, and what lies behind it: the
profile's nesting, the connected interfaces and the enabled daemon are changed but never observed. -/
namespace Collocate.Cluster
set_option autoImplicit false

/-! ## What is asked for -/

structure LxdTarget where
  remote : Option String := none
  project : Option String := none
  deriving DecidableEq, Repr

namespace LxdTarget

def instanceName (t : LxdTarget) (name : String) : String :=
  match t.remote with
  | some r => s!"{r}:{name}"
  | none => name

def scope (t : LxdTarget) : String :=
  match t.remote with
  | some r => s!"{r}:"
  | none => ""

def args (t : LxdTarget) (args : List String) : List String :=
  match t.project with
  | some p => args ++ ["--project", p]
  | none => args

end LxdTarget

structure NodeRecord where
  target : Option String := none
  image : Option String := none
  cpus : Option F64 := none
  memory : Option String := none
  deriving DecidableEq, Repr

inductive Install
  | channel (name : String)
  | snapFile (path : String)
  | deb (paths : List String)
  deriving DecidableEq, Repr

def Install.isSnap : Install → Bool
  | .deb _ => false
  | _ => true

/-- The serializer, which renders a preseed, and `ceil` on floats. -/
structure Outside where
  preseedYaml : DaemonSettings → Result String
  ceil : F64 → UInt64

/-! ## Steps -/

inductive StepKind
  | profile
  | launch
  | start
  | waitReady
  | push
  | install
  | connect
  | enable
  | init
  deriving DecidableEq, Repr

structure Step where
  node : String
  kind : StepKind
  args : List String
  stdin : Option String := none
  deriving DecidableEq, Repr

def profileName : String := "collocate"
def remoteSnap : String := "/root/collocate.snap"
def readyTimeoutSecs : ℕ := 600

def daemonPlugs : List String :=
  ["docker-privileged", "network-control", "firewall-control", "fuse-support", "system-observe", "mount-observe",
    "process-control"]

def exec (t : LxdTarget) (node : String) (argv : List String) : List String :=
  t.args ["exec", t.instanceName node] ++ "--" :: argv

def sh (t : LxdTarget) (node script : String) : List String := exec t node ["sh", "-c", script]

def memoryArg (input : String) : String :=
  let t := (Text.trim input).toList
  let number := String.ofList t.dropLast
  match (Text.toAsciiLowercase (String.ofList t)).toList.getLast? with
  | some 'k' => number ++ "KiB"
  | some 'm' => number ++ "MiB"
  | some 'g' => number ++ "GiB"
  | some 't' => number ++ "TiB"
  | _ => String.ofList t ++ "B"

def profileSteps (t : LxdTarget) : List Step :=
  let name := s!"{t.scope}{profileName}"
  [{ node := "", kind := .profile, args := t.args ["profile", "create", name] },
    { node := "", kind := .profile, args := t.args ["profile", "set", name, "security.nesting=true"] }]

def launchArgs (x : Outside) (t : LxdTarget) (node : String) (rec : NodeRecord) (defaultImage : String) : List String :=
  let image := rec.image.getD defaultImage
  t.args (["launch", image, t.instanceName node, "--profile", "default", "--profile", profileName] ++
    (match rec.target with
      | some target => ["--target", target]
      | none => []) ++
    (match rec.cpus with
      | some c => ["-c", s!"limits.cpu={(x.ceil c).toNat}"]
      | none => []) ++
    (match rec.memory with
      | some m => ["-c", s!"limits.memory={memoryArg m}"]
      | none => []))

def readyScript (snap : Bool) : String :=
  let probe :=
    if snap then "ip -4 route show default | grep -q . && getent hosts api.snapcraft.io >/dev/null"
    else "ip -4 route show default | grep -q ."
  let script :=
    s!"t=0; until {probe}; do t=$((t+1)); [ $t -gt {readyTimeoutSecs} ] && exit 1; sleep 1; done"
  if snap then script ++ "; snap wait system seed.loaded" else script

def nodePreseed (x : Outside) (settings : DaemonSettings) (node : String) : Result String :=
  x.preseedYaml { settings with nodeName := some node }

/-- The last component of a path that names something. -/
def fileName (path : String) : String :=
  match ((Text.split '/' path).filter fun part => part != "" && part != ".").getLast? with
  | some ".." => "package"
  | some name => name
  | none => "package"

/-- `apt-get install` of the packages. -/
def aptInstall (remote : List String) : List String :=
  ["env", "DEBIAN_FRONTEND=noninteractive", "apt-get", "install", "-y", "-q"] ++ remote

def connectStep (t : LxdTarget) (node plug : String) : Step :=
  { node, kind := .connect, args := exec t node ["snap", "connect", s!"collocate:{plug}"] }

def pushStep (t : LxdTarget) (node path dest : String) : Step :=
  { node, kind := .push, args := t.args ["file", "push", path, s!"{t.instanceName node}{dest}"] }

/-- Where a package is pushed to. -/
def debDest (path : String) : String := s!"/root/{fileName path}"

def installSteps (t : LxdTarget) (node : String) (install : Install) : List Step :=
  let begin := match install with
    | .channel ch =>
      [{ node, kind := .install, args := exec t node ["snap", "install", "collocate", s!"--channel={ch}"] }]
    | .snapFile path =>
      [pushStep t node path remoteSnap,
        { node, kind := .install, args := exec t node ["snap", "install", "--dangerous", remoteSnap] }]
    | .deb paths =>
      paths.map (fun p => pushStep t node p (debDest p)) ++
      [{ node, kind := .install, args := sh t node "apt-get update -q >/dev/null" },
        { node, kind := .install, args := exec t node (aptInstall (paths.map debDest)) },
        { node, kind := .enable, args := exec t node ["systemctl", "enable", "--now", "collocated"] }]
  if install.isSnap then begin ++ daemonPlugs.map (connectStep t node) else begin

/-! ## Plans -/

structure Observed where
  profile : Bool
  instances : String → Option String
  installed : String → Bool
  initialized : String → Bool

def running : String := "Running"

/-- The steps that bring an instance up. -/
def beginSteps (x : Outside) (t : LxdTarget) (defaultImage : String) (observed : Observed) (name : String)
    (rec : NodeRecord) : List Step :=
  match observed.instances name with
  | none => [{ node := name, kind := .launch, args := launchArgs x t name rec defaultImage }]
  | some status =>
    if status = running then []
    else [{ node := name, kind := .start, args := t.args ["start", t.instanceName name] }]

def waitStep (t : LxdTarget) (name : String) (install : Install) : Step :=
  { node := name, kind := .waitReady, args := sh t name (readyScript install.isSnap) }

/-- The steps of the install mode that lack; interfaces are connected once more where the package is installed. -/
def missingSteps (t : LxdTarget) (name : String) (install : Install) (installed : Bool) : List Step :=
  if !installed then installSteps t name install
  else if install.isSnap then (installSteps t name install).filter fun s => s.kind = .connect
  else []

def initStep (t : LxdTarget) (name stdin : String) : Step :=
  { node := name, kind := .init, args := exec t name ["collocate", "init", "--preseed"], stdin := some stdin }

/-- The loop of `plan` for a node. -/
def nodeSteps (x : Outside) (t : LxdTarget) (defaultImage : String) (install : Install) (settings : DaemonSettings)
    (observed : Observed) (name : String) (rec : NodeRecord) : Result (List Step) :=
  let begin := beginSteps x t defaultImage observed name rec
  let installed := observed.installed name
  if installed && observed.initialized name then .ok begin
  else match nodePreseed x settings name with
    | .error e => .error e
    | .ok stdin =>
      .ok (begin ++ (waitStep t name install :: missingSteps t name install installed) ++ [initStep t name stdin])

def plansFor (x : Outside) (t : LxdTarget) (defaultImage : String) (install : Install) (settings : DaemonSettings)
    (observed : Observed) : List (String × NodeRecord) → Result (List Step)
  | [] => .ok []
  | (name, rec) :: nodes =>
    match nodeSteps x t defaultImage install settings observed name rec with
    | .error e => .error e
    | .ok steps => match plansFor x t defaultImage install settings observed nodes with
      | .error e => .error e
      | .ok rest => .ok (steps ++ rest)

def plan (x : Outside) (t : LxdTarget) (nodes : OrdMap String NodeRecord) (defaultImage : String) (install : Install)
    (settings : DaemonSettings) (observed : Observed) : Result (List Step) :=
  let profile :=
    if !observed.profile && nodes.keys.any fun n => (observed.instances n).isNone then profileSteps t else []
  match plansFor x t defaultImage install settings observed nodes.entries with
  | .error e => .error e
  | .ok rest => .ok (profile ++ rest)

/-! ## LXD -/

structure Instance where
  status : String
  installed : Bool := false
  connected : Finset String := ∅
  enabled : Bool := false
  initialized : Bool := false
  deriving DecidableEq

/-- The profile, with whether nesting is set in it, and the instances. -/
@[ext]
structure Lxd where
  profile : Option Bool
  instances : String → Option Instance

/-- `observe`: what is installed is asked of the running instances only, and `info` of those with the program. -/
def observe (nodes : OrdMap String NodeRecord) (l : Lxd) : Observed where
  profile := l.profile.isSome
  instances n := if nodes.contains n then (l.instances n).map Instance.status else none
  installed n := nodes.contains n && (l.instances n).any fun i => i.status == running && i.installed
  initialized n := nodes.contains n && (l.instances n).any fun i => i.status == running && i.installed && i.initialized

/-- The command line that an `exec` step runs in its instance. -/
def Step.argv (t : LxdTarget) (s : Step) : List String := s.args.drop (exec t s.node []).length

/-- The command installs a package. -/
def installs : List String → Bool
  | "snap" :: "install" :: _ => true
  | "env" :: _ :: "apt-get" :: "install" :: "-y" :: "-q" :: packages => !packages.isEmpty
  | _ => false

/-- What a step does to the profile. -/
def Step.onProfile (s : Step) (profile : Option Bool) : Option Bool :=
  match s.kind, s.args with
  | .profile, "profile" :: "create" :: _ => some (profile.getD false)
  | .profile, "profile" :: "set" :: _ => profile.map fun _ => true
  | _, _ => profile

/-- What a step does to the instance of its node. -/
def Step.onInstance (t : LxdTarget) (s : Step) (i : Option Instance) : Option Instance :=
  match s.kind with
  | .launch => some (i.getD { status := running })
  | .start => i.map fun i => { i with status := running }
  | .install => i.map fun i => if installs (s.argv t) then { i with installed := true } else i
  | .connect => i.map fun i => match (s.argv t).getLast? with
    | some plug => { i with connected := insert plug i.connected }
    | none => i
  | .enable => i.map fun i => { i with enabled := true }
  | .init => i.map fun i => { i with initialized := true }
  | .profile | .waitReady | .push => i

def Step.apply (t : LxdTarget) (s : Step) (l : Lxd) : Lxd where
  profile := s.onProfile l.profile
  instances := Function.update l.instances s.node (s.onInstance t (l.instances s.node))

end Collocate.Cluster
