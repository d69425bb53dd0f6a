import Collocate.Lib.OrdMap
import Collocate.Core.Net

/-! # Container specifications (`collocate-core/src/spec.rs`, `limits.rs`)

The record a container is run from, with its own check. `extra_hosts` and `dns` are left out: nothing
modelled sets or reads them. -/
namespace Collocate
set_option autoImplicit false

inductive Series
  | noble
  | resolute
  deriving DecidableEq, Repr

def Series.parse (s : String) : Result Series :=
  match s with
  | "24.04" | "noble" => .ok .noble
  | "26.04" | "resolute" => .ok .resolute
  | other => .error (.invalid s!"unsupported series {other}")

def Series.dirName : Series → String
  | .noble => "noble"
  | .resolute => "resolute"

inductive RootSource
  | base (series : Series) (buildId : String)
  | oci (digest : String) (layers : List String)
  deriving DecidableEq, Repr

inductive ImageKind
  | oci
  | pebble
  deriving DecidableEq, Repr

structure Process where
  argv : List String
  env : List (String × String) := []
  user : String := "0"
  workdir : String := "/"
  stopSignal : ℤ := 15
  stopTimeoutSecs : UInt64 := 10
  deriving DecidableEq, Repr

inductive Mount
  | bind (src dst : String) (ro : Bool)
  | tmpfs (dst : String) (size : Option UInt64)
  | volume (name dst : String)
  | secret (name dst : String)
  | config (src dst : String)
  deriving DecidableEq, Repr

def Mount.dst : Mount → String
  | .bind _ dst _ | .tmpfs dst _ | .volume _ dst | .secret _ dst | .config _ dst => dst

structure CapPolicy where
  add : List String := []
  drop : List String := []
  deriving DecidableEq, Repr

structure NetSpec where
  addr : Option Ipv4Addr := none
  publish : List Publish := []
  pingGroup : Bool := true
  deriving DecidableEq, Repr

inductive RestartPolicy
  | no
  | onFailure (max : UInt32)
  | always
  deriving DecidableEq, Repr

inductive HealthKind
  | tcp (port : UInt16)
  | http (port : UInt16) (path : String)
  | exec (argv : List String)
  | pebble (level : Option String)
  deriving DecidableEq, Repr

structure Healthcheck where
  kind : HealthKind
  intervalSecs : UInt64
  timeoutSecs : UInt64
  retries : UInt32
  startPeriodSecs : UInt64
  deriving DecidableEq, Repr

structure Labels where
  project : Option String := none
  service : Option String := none
  node : Option String := none
  revision : Option String := none
  replica : Option UInt32 := none
  extra : List (String × String) := []
  deriving DecidableEq, Repr

/-! ## Limits -/

structure Ulimit where
  name : String
  soft : UInt64
  hard : UInt64
  deriving DecidableEq, Repr

structure Limits where
  cpusMilli : Option UInt32 := none
  cpuWeight : Option UInt32 := none
  memory : Option UInt64 := none
  swap : Option UInt64 := none
  pidsMax : UInt64 := 4096
  ulimits : List Ulimit := []
  deriving DecidableEq, Repr

def Limits.validate (l : Limits) : Result Unit :=
  if l.cpuWeight.any fun w => !(decide (1 ≤ w ∧ w ≤ 10000)) then
    .error (.invalidSpec "cpu weight must be within 1..=10000")
  else if l.cpusMilli = some 0 then .error (.invalidSpec "cpus must be positive")
  else if l.pidsMax = 0 then .error (.invalidSpec "pids max must be positive")
  else if l.memory = some 0 then .error (.invalidSpec "memory must be positive")
  else .ok ()

/-! ## Specs -/

structure Spec where
  schema : UInt32 := 1
  id : ContainerId
  name : String
  root : RootSource
  imageKind : ImageKind := .oci
  persistent : Bool := false
  idleTimeoutSecs : Option UInt64 := none
  process : Process
  hostname : String
  limits : Limits := {}
  mounts : List Mount := []
  readOnlyRootfs : Bool := false
  caps : CapPolicy := {}
  net : NetSpec := {}
  restart : RestartPolicy := .no
  healthcheck : Option Healthcheck := none
  labels : Labels := {}
  created : UInt64
  exitStatus : Option ℤ := none
  deriving DecidableEq, Repr

def validName (s : String) : Bool :=
  decide (s.utf8ByteSize ≤ 63) && match s.toList with
    | [] => false
    | c :: cs => (Text.isLower c || Text.isDigit c) &&
        cs.all fun c => Text.isLower c || Text.isDigit c || c == '_' || c == '.' || c == '-'

/-- The first element that occurs twice (a `HashSet` filled in order refuses it). -/
def firstRepeat {α : Type} [DecidableEq α] : List α → List α → Bool
  | _, [] => false
  | seen, a :: as => decide (a ∈ seen) || firstRepeat (a :: seen) as

namespace Spec

/-- `Spec::new`; the random id and the clock are given by the caller. -/
def new (id : ContainerId) (created : UInt64) (name : String) (root : RootSource) (argv : List String) : Spec :=
  { id, name, root, process := { argv }, hostname := name, created }

/-- The mount checks, destination by destination. -/
def checkMounts : List String → List Mount → Result Unit
  | _, [] => .ok ()
  | seen, m :: ms =>
    if !Text.startsWith m.dst "/" then .error (.invalidSpec "mount destination must be absolute")
    else if m.dst ∈ seen then .error (.invalidSpec "duplicate mount destination")
    else checkMounts (m.dst :: seen) ms

def validate (s : Spec) : Result Unit := do
  if s.name.isEmpty then
    if s.persistent then throw (.invalidSpec "persistent containers need a name")
  else if !validName s.name then
    throw (.invalidSpec "name must match [a-z0-9][a-z0-9_.-]\x7b0,62\x7d")
  if s.process.argv.isEmpty then throw (.invalidSpec "command is empty")
  s.limits.validate
  if firstRepeat [] (s.net.publish.map fun p => (p.host, p.proto)) then
    throw (.invalidSpec "duplicate published host port")
  checkMounts [] s.mounts

def envVar (s : Spec) (k : String) : Option String :=
  ((s.process.env.find? fun e => e.1 == k).map Prod.snd).filter fun v => !v.isEmpty

def pebbleDir (s : Spec) : String := (s.envVar "PEBBLE").getD "/var/lib/pebble/default"

/-- The first non-empty `PEBBLE_SOCKET`, or the socket in the Pebble directory. -/
def pebbleSocket (s : Spec) : String :=
  match s.process.env.find? fun e => e.1 == "PEBBLE_SOCKET" && !e.2.isEmpty with
  | some e => e.2
  | none => s.pebbleDir ++ "/.pebble.socket"

/-- What `spec_hash` serialises and digests: the spec without the fields that identify a run. -/
def canonical (s : Spec) : Spec :=
  { s with id := 0, created := 0, exitStatus := none, labels := { s.labels with revision := none } }

end Spec

/-! ## Mount destinations -/

theorem Spec.checkMounts_ok_iff {seen : List String} {ms : List Mount} : Spec.checkMounts seen ms = .ok () ↔
    (∀ d ∈ ms.map Mount.dst, Text.startsWith d "/" = true ∧ d ∉ seen) ∧ (ms.map Mount.dst).Nodup := by
  induction ms generalizing seen with
  | nil => simp [Spec.checkMounts]
  | cons m ms ih =>
    rw [Spec.checkMounts]
    by_cases habs : Text.startsWith m.dst "/" = true
    · rw [if_neg (by simp [habs])]
      by_cases hseen : m.dst ∈ seen
      · rw [if_pos hseen]
        constructor
        · intro h
          cases h
        · rintro ⟨hall, -⟩
          exact absurd hseen (hall m.dst (List.mem_cons_self ..)).2
      · rw [if_neg hseen, ih, List.map_cons, List.nodup_cons]
        constructor
        · rintro ⟨hall, hnodup⟩
          refine ⟨?_, fun hmem => (hall m.dst hmem).2 (List.mem_cons_self ..), hnodup⟩
          intro d hd
          cases hd with
          | head => exact ⟨habs, hseen⟩
          | tail _ hmem => exact ⟨(hall d hmem).1, fun hin => (hall d hmem).2 (List.mem_cons_of_mem _ hin)⟩
        · rintro ⟨hall, hnew, hnodup⟩
          refine ⟨?_, hnodup⟩
          intro d hd
          refine ⟨(hall d (List.mem_cons_of_mem _ hd)).1, ?_⟩
          intro hin
          cases hin with
          | head => exact hnew hd
          | tail _ hmem => exact (hall d (List.mem_cons_of_mem _ hd)).2 hmem
    · rw [if_pos (by simpa using habs)]
      constructor
      · intro h
        cases h
      · rintro ⟨hall, -⟩
        exact absurd (hall m.dst (List.mem_cons_self ..)).1 habs

theorem Spec.validate_mounts {s : Spec} (h : s.validate = .ok ()) : Spec.checkMounts [] s.mounts = .ok () := by
  unfold Spec.validate at h
  cases hname : s.name.isEmpty with
  | true =>
    rw [hname] at h
    simp only [if_true, Result.throw_ok_iff, Result.then_ok_iff] at h
    exact h.2.2.2.2
  | false =>
    rw [hname] at h
    simp only [Bool.false_eq_true, if_false, Result.throw_ok_iff, Result.then_ok_iff] at h
    exact h.2.2.2.2

end Collocate
