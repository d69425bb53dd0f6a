import Mathlib.Data.List.Sort
import Collocate.Core.Request

/-! # Image metadata and the spec an image gives (`collocate-image/src/config.rs`, `pull.rs`) -/
namespace Collocate
set_option autoImplicit false

inductive PullPolicy
  | missing
  | always
  | never
  deriving DecidableEq, Repr

namespace PullPolicy

def parse (s : String) : Result PullPolicy :=
  match s with
  | "missing" => .ok .missing
  | "always" => .ok .always
  | "never" => .ok .never
  | other =>
    .error (.invalidSpec ("invalid pull policy " ++ Text.debugStr other ++ ", expected missing, always or never"))

def label : PullPolicy → String
  | .missing => "missing"
  | .always => "always"
  | .never => "never"

end PullPolicy

structure ImageHealth where
  test : List String
  intervalSecs : UInt64
  timeoutSecs : UInt64
  retries : UInt32
  startPeriodSecs : UInt64
  deriving DecidableEq, Repr

structure ImageConfig where
  entrypoint : List String := []
  cmd : List String := []
  env : List String := []
  workingDir : String := ""
  user : String := ""
  exposed : List String := []
  volumes : List String := []
  stopSignal : String := ""
  healthcheck : Option ImageHealth := none
  deriving DecidableEq, Repr

structure ImageMeta where
  name : String
  digest : String
  layers : List String
  config : ImageConfig
  kind : ImageKind
  deriving DecidableEq, Repr

/-- The derived order on `(u16, String)`. -/
def portLe (a b : UInt16 × String) : Prop := a.1 < b.1 ∨ a.1 = b.1 ∧ a.2 ≤ b.2

instance : DecidableRel portLe := fun a b =>
  inferInstanceAs (Decidable (a.1 < b.1 ∨ a.1 = b.1 ∧ a.2 ≤ b.2))

def ImageConfig.exposedPorts (c : ImageConfig) : List (UInt16 × String) :=
  (c.exposed.filterMap fun p =>
    let (port, proto) := (Text.splitOnce '/' p).getD (p, "tcp")
    (Text.parseU16 port).map fun n => (n, proto)).insertionSort portLe

structure RunOverrides where
  command : List String := []
  entrypoint : Option (List String) := none
  env : List (String × String) := []
  user : Option String := none
  workdir : Option String := none
  publishExposed : Bool := false
  deriving DecidableEq, Repr

/-- The first entry with key `k` gets the value `v`; without one it is appended. -/
def setEnv (env : List (String × String)) (k v : String) : List (String × String) :=
  match env with
  | [] => [(k, v)]
  | e :: rest => if e.1 = k then (e.1, v) :: rest else e :: setEnv rest k v

def imageSignal (name : String) : Option ℤ :=
  match Text.parseI32 name with
  | some n => some n
  | none =>
    let upper := Text.toAsciiUppercase name
    match (Text.stripPrefix "SIG" upper).getD upper with
    | "HUP" => some 1
    | "INT" => some 2
    | "QUIT" => some 3
    | "KILL" => some 9
    | "USR1" => some 10
    | "USR2" => some 12
    | "TERM" => some 15
    | "WINCH" => some 28
    | _ => none

/-- The healthcheck of an image's own configuration. -/
def imageHealthcheck (h : ImageHealth) : Option Healthcheck :=
  let exec := match h.test with
    | "CMD" :: argv => some argv
    | "CMD-SHELL" :: rest => some ["/bin/sh", "-c", rest.head?.getD ""]
    | _ => none
  exec.map fun argv =>
    { kind := .exec argv
      intervalSecs := if h.intervalSecs = 0 then 30 else h.intervalSecs
      timeoutSecs := if h.timeoutSecs = 0 then 30 else h.timeoutSecs
      retries := if h.retries = 0 then 3 else h.retries
      startPeriodSecs := h.startPeriodSecs }

def imageArgv (img : ImageMeta) (ov : RunOverrides) : List String :=
  let entry := ov.entrypoint.getD img.config.entrypoint
  let args :=
    if !ov.command.isEmpty then ov.command
    else if ov.entrypoint.isSome then []
    else img.config.cmd
  entry ++ args

/-- `spec_from_image`, with the id and the time of `Spec::new`. -/
def specFromImage (id : ContainerId) (created : UInt64) (img : ImageMeta) (ov : RunOverrides) : Result Spec :=
  let argv := imageArgv img ov
  if argv.isEmpty then
    .error (.invalidSpec s!"image {img.name} has no command; supply one after --")
  else
    let spec := Spec.new id created "" (.oci img.digest img.layers) argv
    let env := img.config.env.filterMap (Text.splitOnce '=')
    let env := ov.env.foldl (fun env e => setEnv env e.1 e.2) env
    let health := match img.config.healthcheck.bind imageHealthcheck with
      | some h => some h
      | none =>
        if img.kind = .pebble then some ⟨.pebble none, 10, 5, 3, 0⟩ else none
    let publish := if ov.publishExposed then
        img.config.exposedPorts.map fun (port, proto) =>
          { host := port, container := port, proto := if proto = "udp" then .udp else .tcp }
      else []
    .ok { spec with
      imageKind := img.kind
      process := { spec.process with
        env
        user := (ov.user.orElse fun _ => some img.config.user |>.filter (!·.isEmpty)).getD spec.process.user
        workdir := (ov.workdir.orElse fun _ => some img.config.workingDir |>.filter (!·.isEmpty)).getD
          spec.process.workdir
        stopSignal := (imageSignal img.config.stopSignal).getD spec.process.stopSignal }
      healthcheck := health
      net := { spec.net with publish } }

/-- What the code calls in third-party crates and in floating point: the digest, the JSON codec, the
`Debug` text of a response, and the conversion of a CPU count to thousandths. -/
structure Extern where
  sha256 : List UInt8 → List UInt8
  specJson : Spec → List UInt8
  decodeMeta : String → Result ImageMeta
  debugResponse : Response → String
  cpusMilli : F64 → UInt32

def Spec.specHashHex (x : Extern) (s : Spec) : String :=
  String.ofList ((x.sha256 (x.specJson s.canonical)).flatMap fun b => Text.hexPad 2 b.toNat)

end Collocate
