import Mathlib.Data.String.Basic

/-! # Update and autoscale policies (`collocate-core/src/policy.rs`)

The two policies a service of a compose file carries: how many replicas it may have and how a new
revision replaces the old one. Durations are the `u64` seconds the deserialisers produce; the text
forms (`"30s"`, `"10%"`) are gone by the time these records exist. -/
namespace Collocate
set_option autoImplicit false

/-! ## `f64` values

The modelled code stores and compares a few `f64` settings. Arithmetic on them is left to a
parameter of the functions that need it; equality is IEEE equality on the bit pattern, which is
what the derived `PartialEq` of the records uses. -/

/-- An `f64`, by its bit pattern. -/
structure F64 where
  bits : UInt64
  deriving DecidableEq, Repr

namespace F64

/-- All exponent bits set and a non-zero fraction. -/
def isNaN (x : F64) : Bool :=
  (x.bits >>> 52) &&& 0x7ff == 0x7ff && x.bits &&& 0xfffffffffffff != 0

/-- Either of the two zeros. -/
def isZero (x : F64) : Bool := x.bits &&& 0x7fffffffffffffff == 0

/-- `==` on `f64`: no NaN equals anything, and the two zeros are equal. -/
def feq (x y : F64) : Bool :=
  !x.isNaN && !y.isNaN && (x.bits == y.bits || x.isZero && y.isZero)

/-- `is_finite`: some exponent bit is clear. -/
def isFinite (x : F64) : Bool := (x.bits >>> 52) &&& 0x7ff != 0x7ff

/-- `x <= 0.0`. -/
def leZero (x : F64) : Bool := !x.isNaN && (x.isZero || x.bits >>> 63 == 1)

/-- `x >= 0.0`. -/
def geZero (x : F64) : Bool := !x.isNaN && (x.isZero || x.bits >>> 63 == 0)

end F64

/-! ## Autoscaling -/

inductive MetricKind
  | cpu
  | memory
  | connections
  deriving DecidableEq, Repr

structure MetricTarget where
  kind : MetricKind
  target : F64
  deriving DecidableEq, Repr

structure ScaleRule where
  stabilizationSecs : UInt64
  maxStep : UInt32
  deriving DecidableEq, Repr

structure Autoscale where
  min : UInt32
  max : UInt32
  metrics : List MetricTarget
  up : ScaleRule := ⟨30, 4⟩
  down : ScaleRule := ⟨300, 1⟩
  tolerancePct : F64 := ⟨0x4024000000000000⟩
  deriving DecidableEq, Repr

/-- The derived `PartialEq` of `MetricTarget`. -/
def MetricTarget.partialEq (a b : MetricTarget) : Bool :=
  a.kind == b.kind && a.target.feq b.target

/-- The derived `PartialEq` of `Vec<MetricTarget>`. -/
def metricsEq : List MetricTarget → List MetricTarget → Bool
  | [], [] => true
  | a :: as, b :: bs => a.partialEq b && metricsEq as bs
  | _, _ => false

/-- The derived `PartialEq` of `Autoscale`. -/
def Autoscale.partialEq (a b : Autoscale) : Bool :=
  a.min == b.min && a.max == b.max && metricsEq a.metrics b.metrics && a.up == b.up &&
    a.down == b.down && a.tolerancePct.feq b.tolerancePct

/-! ## Rolling updates -/

inductive Strategy
  | rolling
  | recreate
  | canary
  deriving DecidableEq, Repr

inductive OnFailure
  | rollback
  | pause
  deriving DecidableEq, Repr

/-- `UpdatePolicy`, with the field defaults of `UpdatePolicy::default`. -/
structure UpdatePolicy where
  strategy : Strategy := .rolling
  maxSurge : UInt32 := 1
  maxUnavailable : UInt32 := 0
  minReadySecs : UInt64 := 10
  delaySecs : UInt64 := 5
  progressDeadlineSecs : UInt64 := 600
  onFailure : OnFailure := .rollback
  deriving DecidableEq, Repr

end Collocate
