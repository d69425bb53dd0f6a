import Mathlib.Data.List.Sort
import Collocate.Core.Policy
import Collocate.Lib.Saturating

/-! # The rollout planner (`collocate-controller/src/rollout.rs`)

`nextStep` looks at one service, its replicas and the update policy, and returns the actions of one
step. It is a pure function; the controller applies what it returns and calls it again. Counters
are the source's `u32`: `len() as u32` truncates and `desired + max_surge` wraps, as a release build
does. -/
namespace Collocate.Rollout
set_option autoImplicit false

/-! ## Data model -/

inductive Health
  | starting
  | healthy (forSecs : UInt64)
  | unhealthy
  deriving DecidableEq, Repr

inductive Lifecycle
  | live
  | draining (forSecs : UInt64)
  deriving DecidableEq, Repr

structure Replica where
  index : UInt32
  revision : String
  health : Health
  lifecycle : Lifecycle
  failed : Bool
  connections : UInt64
  deriving DecidableEq, Repr

structure State where
  desired : UInt32
  target : String
  previous : Option String
  policy : UpdatePolicy
  drainSecs : UInt64
  replicas : List Replica
  elapsedSecs : UInt64
  sinceLastActionSecs : UInt64
  paused : Bool
  deriving DecidableEq, Repr

inductive Action
  | start (index : UInt32) (revision : String)
  | drain (index : UInt32)
  | remove (index : UInt32)
  | rollback (revision : String)
  | pause (reason : String)
  | complete
  deriving DecidableEq, Repr

/-! ## The planner -/

def isLive (r : Replica) : Bool :=
  match r.lifecycle with
  | .live => true
  | .draining _ => false

def isReady (r : Replica) (minReady : UInt64) : Bool :=
  isLive r && match r.health with
    | .healthy forSecs => decide (minReady ≤ forSecs)
    | _ => false

/-- The draining replicas whose grace period has passed. -/
def drained (s : State) (r : Replica) : Bool :=
  match r.lifecycle with
  | .draining forSecs => decide (s.drainSecs ≤ forSecs)
  | .live => false

def freeIndexes (s : State) (bound want : UInt32) : List UInt32 :=
  (((List.range bound.toNat).map UInt32.ofNat).filter fun i =>
    !s.replicas.any fun r => r.index == i).take want.toNat

def failure (s : State) (reason : String) : Action :=
  match s.policy.onFailure, s.previous with
  | .rollback, some prev => .rollback prev
  | _, _ => .pause reason

def live (s : State) : List Replica := s.replicas.filter isLive
def old (s : State) : List Replica := (live s).filter fun r => r.revision != s.target
def new (s : State) : List Replica := (live s).filter fun r => r.revision == s.target
def rolling (s : State) : Bool := !(old s).isEmpty
def bound (s : State) : UInt32 := s.desired + s.policy.maxSurge
def missingNew (s : State) : UInt32 := satSub s.desired (UInt32.ofNat (new s).length)

/-- The `Remove` actions every step that gets past the guards begins with. -/
def removals (s : State) : List Action :=
  (s.replicas.filter (drained s)).map fun r => .remove r.index

/-- Fewest connections first, then the highest index. -/
def idler (a b : Replica) : Prop :=
  a.connections < b.connections ∨ a.connections = b.connections ∧ b.index ≤ a.index

instance : DecidableRel idler := fun a b =>
  inferInstanceAs (Decidable (a.connections < b.connections ∨ a.connections = b.connections ∧ b.index ≤ a.index))

/-- Highest index first (`sort_by_key` on `Reverse(index)`). -/
def higher (a b : Replica) : Prop := b.index ≤ a.index

instance : DecidableRel higher := fun a b => inferInstanceAs (Decidable (b.index ≤ a.index))

def recreateWaits (s : State) : Bool :=
  decide (s.policy.strategy = .recreate) &&
    s.replicas.any fun r => !isLive r && r.revision != s.target

/-- The scaling actions of a service all of whose live replicas are of the target revision. -/
def steadyActions (s : State) : List Action :=
  let count := UInt32.ofNat (new s).length
  removals s ++
    if s.desired < count then
      (((new s).insertionSort idler).take (count - s.desired).toNat).map fun r => .drain r.index
    else if 0 < missingNew s ∧ recreateWaits s = false then
      (freeIndexes s (max (bound s) s.desired) (missingNew s)).map fun i => .start i s.target
    else []

/-- No live replica of another revision: scale, replace what is missing, or report completion. -/
def steadyStep (s : State) : List Action :=
  let draining := s.replicas.any fun r => !isLive r
  if (steadyActions s).isEmpty && !draining && (new s).all (isReady · s.policy.minReadySecs) then
    [.complete]
  else steadyActions s

def recreateStep (s : State) : List Action :=
  if s.sinceLastActionSecs < s.policy.delaySecs ∧ (removals s).isEmpty then []
  else removals s ++ (old s).map fun r => .drain r.index

/-- The loop over `ready_old`: one victim per unit of `allowed`. -/
def drainReady (allowed : UInt32) : List Replica → List Replica
  | [] => []
  | r :: rs => if allowed = 0 then [] else r :: drainReady (allowed - 1) rs

def available (s : State) : UInt32 :=
  UInt32.ofNat ((live s).filter (isReady · s.policy.minReadySecs)).length

def required (s : State) : UInt32 := satSub s.desired s.policy.maxUnavailable

/-- The replicas a rolling step drains: the unready old ones, then ready ones within the budget. -/
def victims (s : State) : List Replica :=
  (old s).filter (fun r => !isReady r s.policy.minReadySecs) ++
    drainReady (satSub (available s) (required s))
      (((old s).filter (isReady · s.policy.minReadySecs)).insertionSort higher)

def canStart (s : State) : UInt32 :=
  min (missingNew s) (satSub (bound s) (UInt32.ofNat (live s).length))

def rollingStep (s : State) : List Action :=
  if s.sinceLastActionSecs < s.policy.delaySecs then removals s
  else removals s ++ (victims s).map (fun r => .drain r.index) ++
    (freeIndexes s (bound s) (canStart s)).map fun i => .start i s.target

def nextStep (s : State) : List Action :=
  if s.paused then []
  else if rolling s then
    if (new s).any (·.failed) then [failure s "new replica failed to become healthy"]
    else if s.policy.progressDeadlineSecs < s.elapsedSecs then [failure s "progress deadline exceeded"]
    else if s.policy.strategy = .rolling ∧ s.policy.maxSurge = 0 ∧ s.policy.maxUnavailable = 0 then
      [.pause "max_surge and max_unavailable cannot both be zero"]
    else if s.policy.strategy = .recreate then recreateStep s
    else rollingStep s
  else steadyStep s

end Collocate.Rollout
