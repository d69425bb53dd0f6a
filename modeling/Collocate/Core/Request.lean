import Collocate.Core.Spec
import Collocate.Core.Policy

/-! # Requests and responses (`collocate-core/src/request.rs`, `client.rs`)

The wire types between clients and the daemon, and the client's view of it: an `Api` takes a
request and gives back a response or an error, and keeps a state of its own. JSON values are
carried by their text. -/
namespace Collocate
set_option autoImplicit false

/-- `request::State`. -/
inductive RunState
  | running
  | stopped
  | starting
  | exited
  deriving DecidableEq, Repr

inductive HealthState
  | starting
  | healthy
  | unhealthy
  deriving DecidableEq, Repr

inductive LogSource
  | auto
  | captured
  | pebble
  deriving DecidableEq, Repr

structure ContainerInfo where
  id : ContainerId
  name : String
  state : RunState
  pid : Option UInt32 := none
  address : Option Ipv4Addr := none
  project : Option String := none
  service : Option String := none
  health : Option HealthState := none
  revision : Option String := none
  series : Option String := none
  published : List String := []
  imageKind : Option ImageKind := none
  deriving DecidableEq, Repr

structure ContainerStats where
  id : ContainerId
  name : String
  project : Option String
  service : Option String
  cpuUsageUsec : UInt64
  memoryCurrent : UInt64
  memoryMax : Option UInt64
  pids : UInt64
  cpuLimitMilli : Option UInt32
  deriving DecidableEq, Repr

structure LbSpec where
  project : String
  name : String
  proto : Proto
  listen : UInt16
  publish : List UInt16
  backendService : String
  backendPort : UInt16
  algorithm : Algorithm
  onNoBackends : NoBackends
  drainSecs : UInt64
  vip : Option Ipv4Addr
  deriving DecidableEq, Repr

structure LbStatus where
  spec : LbSpec
  vip : Ipv4Addr
  backends : List String
  deriving DecidableEq, Repr

structure RegistryCredential where
  registry : String
  username : String
  password : String
  deriving DecidableEq, Repr

inductive Role
  | viewer
  | operator
  | admin
  deriving DecidableEq, Repr

structure Caller where
  name : String
  fingerprint : String
  role : Role
  projects : List String
  deriving DecidableEq, Repr

inductive RootModeSetting
  | auto
  | overlay
  | fuseOverlay
  | bindRo
  deriving DecidableEq, Repr

structure Defaults where
  memory : Option String := none
  cpus : Option F64 := none
  pidsMax : Option UInt64 := none
  deriving DecidableEq, Repr

structure DaemonSettings where
  subnet : String := "172.30.0.0/16"
  bridge : String := "collocate0"
  rootMode : RootModeSetting := .auto
  group : String := "collocate"
  nodeName : Option String := none
  defaults : Defaults := {}
  httpsAddress : Option String := none
  deriving DecidableEq, Repr

inductive Request
  | run (spec : Spec)
  | start (target : String)
  | stop (target : String) (timeoutSecs : Option UInt64)
  | restart (target : String) (timeoutSecs : Option UInt64)
  | kill (target : String) (signal : ℤ)
  | rm (target : String) (force keepData : Bool)
  | wait (target : String)
  | logs (target : String) (tail : Option ℕ) (offset : Option UInt64) (source : LogSource)
      (services : List String)
  | exec (target : String) (argv : List String) (env : List (String × String))
      (user workdir : Option String) (tty : Bool) (timeoutSecs : Option UInt64) (service : Option String)
  | execProbe (target : String) (argv : List String) (timeoutSecs : UInt64)
  | commit (target image : String)
  | ps (all : Bool) (project : Option String)
  | secretEnsure (project name generate : String) (length : ℕ)
  | secretReveal (project name : String)
  | secretSet (project name value : String)
  | secretList (project : Option String)
  | secretRemove (project name : String)
  | stats (project : Option String)
  | lbSet (lb : LbSpec)
  | lbRemove (project name : String)
  | lbList
  | info
  | shutdown
  | init (settings : DaemonSettings) (force : Bool)
  | imagePull (reference policy : String) (credentials : List RegistryCredential)
  | imageImport
  | imageList
  | imageShow (name : String)
  | imageDelete (name : String)
  | imagePrune
  | controllerSet (compose : String)
  | configPut (project name content : String)
  | as (caller : Caller) (request : Request)
  | trustTokenCreate (name : String) (role : Role) (projects : List String) (expirySecs : Option UInt64)
  | trustTokenList
  | trustTokenRevoke (name : String)
  | trustList
  | trustRemove (name : String)
  | trustAddCertificate (name certificate : String) (role : Role) (projects : List String)
  | trustEnroll (secret certificate : String) (name : Option String)
  | trustLookup (fingerprint : String)
  deriving DecidableEq, Repr

def Request.allowedUninitialized : Request → Bool
  | .info | .init .. | .shutdown => true
  | _ => false

inductive Response
  | ok
  | id (id : ContainerId)
  | containers (list : List ContainerInfo)
  | text (text : String)
  | names (list : List String)
  | exit (status : ℤ)
  | log (data : String) (nextOffset : UInt64) (source : LogSource)
  | stats (list : List ContainerStats)
  | lbs (list : List LbStatus)
  | accepted
  | json (value : String)
  | error (code : ℤ) (message : String)
  deriving DecidableEq, Repr

/-- `Response::error`. -/
def Response.ofError (e : Error) : Response := .error e.exitCode e.payload

/-- How a client reads a response: an error response is an error again, by its code. -/
def intoResult : Response → Result Response
  | .error 3 m => .error (.notFound m)
  | .error 5 m => .error (.conflict m)
  | .error 6 m => .error (.timeout m)
  | .error 4 m => .error (.unreachable m)
  | .error 2 m => .error (.invalid m)
  | .error 7 m => .error (.notInitialized m)
  | .error 8 m => .error (.denied m)
  | .error 9 m => .error (.forbidden m)
  | .error _ m => .error (.internal m)
  | other => .ok other

/-- What a program of the client side reaches outside itself: the daemon's API, files, random ids
and the clock, each free to change the state `S` and to fail. -/
structure Host (S : Type) where
  call : Request → Prog S Response
  readToString : String → Prog S String
  newId : Prog S ContainerId
  now : Prog S UInt64

/-- A host of a state is a host of any state that holds it. -/
def Host.zoom {S T : Type} (h : Host T) (look : S → T) (put : T → S → S) : Host S where
  call r := Eff.zoom look put (h.call r)
  readToString p := Eff.zoom look put (h.readToString p)
  newId := Eff.zoom look put h.newId
  now := Eff.zoom look put h.now

/-- The requests that start, stop or remove no container. -/
def Request.Quiet : Request → Prop
  | .run _ | .start _ | .stop .. | .restart .. | .kill .. | .rm .. => False
  | _ => True

/-- `I` survives whatever the host does for quiet requests. -/
structure Host.Keeps {S : Type} (h : Host S) (I : S → Prop) : Prop where
  call : ∀ r, Request.Quiet r → Eff.Keeps I (h.call r)
  readToString : ∀ p, Eff.Keeps I (h.readToString p)
  newId : Eff.Keeps I h.newId
  now : Eff.Keeps I h.now

/-- The requests that building a spec makes. -/
def Request.Building : Request → Prop
  | .ps .. | .secretEnsure .. | .secretReveal .. | .secretSet .. | .secretRemove .. | .imagePull .. | .configPut
    .. => True
  | _ => False

/-- The requests about one secret. -/
def Request.Providing (project name : String) : Request → Prop
  | .secretEnsure p n .. | .secretReveal p n | .secretSet p n _ | .secretRemove p n => p = project ∧ n = name
  | _ => False

/-- The request that lists containers. -/
def Request.Listing : Request → Prop
  | .ps .. => True
  | _ => False

/-- The requests that building a spec makes once the secrets are there. -/
def Request.Fetching : Request → Prop
  | .ps .. | .imagePull .. | .configPut .. => True
  | _ => False

/-- The requests that watch containers become ready. -/
def Request.Watching : Request → Prop
  | .ps .. | .execProbe .. => True
  | _ => False

/-- The requests that deploy what is good, and watch it. -/
def Request.Deploying (Good : Spec → Prop) : Request → Prop
  | .run spec => Good spec
  | .start _ | .stop .. | .rm .. | .lbSet _ | .ps .. | .execProbe .. => True
  | _ => False

theorem Request.Listing.fetching {r : Request} (h : Request.Listing r) : Request.Fetching r := by
  cases r <;> first | exact trivial | exact h

theorem Request.Listing.watching {r : Request} (h : Request.Listing r) : Request.Watching r := by
  cases r <;> first | exact trivial | exact h

theorem Request.Fetching.building {r : Request} (h : Request.Fetching r) : Request.Building r := by
  cases r <;> first | exact trivial | exact h

theorem Request.Providing.building {project name : String} {r : Request} (h : Request.Providing project name r) :
    Request.Building r := by
  cases r <;> first | exact trivial | exact h

theorem Request.Watching.deploying {r : Request} {Good : Spec → Prop} (h : Request.Watching r) :
    Request.Deploying Good r := by
  cases r <;> first | exact trivial | cases h

theorem Request.Building.quiet {r : Request} (h : Request.Building r) : Request.Quiet r := by
  cases r <;> first | exact trivial | exact h

/-- `I` survives whatever the host does for requests of a kind. -/
structure Host.KeepsOn {S : Type} (h : Host S) (kind : Request → Prop) (I : S → Prop) : Prop where
  call : ∀ r, kind r → Eff.Keeps I (h.call r)
  readToString : ∀ p, Eff.Keeps I (h.readToString p)
  newId : Eff.Keeps I h.newId
  now : Eff.Keeps I h.now

theorem Host.KeepsOn.mono {S : Type} {h : Host S} {kind kind' : Request → Prop} {I : S → Prop} (hh : h.KeepsOn kind I)
    (hkind : ∀ r, kind' r → kind r) : h.KeepsOn kind' I where
  call r hr := hh.call r (hkind r hr)
  readToString := hh.readToString
  newId := hh.newId
  now := hh.now

theorem Host.KeepsOn.fst {S T : Type} {h : Host S} {kind : Request → Prop} {I : S → Prop} (hh : h.KeepsOn kind I) :
    (h.zoom Prod.fst fun s (p : S × T) => (s, p.2)).KeepsOn kind fun p => I p.1 where
  call r hr := (hh.call r hr).zoom_fst
  readToString p := (hh.readToString p).zoom_fst
  newId := hh.newId.zoom_fst
  now := hh.now.zoom_fst

theorem Host.Keeps.building {S : Type} {h : Host S} {I : S → Prop} (hh : h.Keeps I) :
    h.KeepsOn Request.Building I where
  call r hr := hh.call r hr.quiet
  readToString := hh.readToString
  newId := hh.newId
  now := hh.now

end Collocate
