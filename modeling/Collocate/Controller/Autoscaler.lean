import Collocate.Core.Policy
import Collocate.Lib.Saturating

/-! # The autoscaler (`collocate-controller/src/autoscaler.rs`)

A `Scaler` remembers the counts it wanted and when, and moves towards the one that was stable for the
window of its direction. The floating-point quotient is a parameter; which readings count, the
clamping and the history are as in the source. Times are `u64`: `t + longest` wraps. -/
namespace Collocate.Autoscaler
set_option autoImplicit false

structure MetricReading where
  kind : MetricKind
  value : F64
  deriving DecidableEq, Repr

inductive HoldReason
  | noMetrics
  | withinTolerance
  | stabilizing
  deriving DecidableEq, Repr

inductive Decision
  | hold (reason : HoldReason)
  | scale (count : UInt32)
  deriving DecidableEq, Repr

structure Scaler where
  policy : Autoscale
  history : List (UInt64 × UInt32) := []
  deriving DecidableEq, Repr

/-- The arithmetic on `f64` of the controller: the count one metric asks for (tolerance, target,
value and current count), the mean CPU load of samples (usage, interval, limit) and the mean
memory load of samples (use, limit). -/
structure Floats where
  wanted : F64 → F64 → F64 → UInt32 → UInt32
  cpuMean : List (UInt64 × UInt64 × UInt32) → F64
  memoryMean : List (UInt64 × UInt64) → F64

def least : List UInt32 → Option UInt32
  | [] => none
  | n :: ns => some (ns.foldl min n)

def greatest : List UInt32 → Option UInt32
  | [] => none
  | n :: ns => some (ns.foldl max n)

namespace Scaler

def new (policy : Autoscale) : Scaler := { policy }

/-- The largest count any usable metric asks for. -/
def recommendation (fl : Floats) (sc : Scaler) (current : UInt32) (readings : List MetricReading) :
    Option UInt32 :=
  sc.policy.metrics.foldl (fun best target =>
    if target.target.leZero then best
    else match readings.find? fun r => r.kind == target.kind && r.value.isFinite && r.value.geZero with
      | none => best
      | some reading =>
        let wanted := fl.wanted sc.policy.tolerancePct target.target reading.value current
        some ((best.map fun b => max b wanted).getD wanted)) none

def longest (sc : Scaler) : UInt64 := max sc.policy.up.stabilizationSecs sc.policy.down.stabilizationSecs

/-- The counts wanted in the last `secs` seconds. -/
def window (sc : Scaler) (now secs : UInt64) : List UInt32 :=
  (sc.history.filter fun e => decide (satSub64 now secs ≤ e.1)).map Prod.snd

/-- The history with the new wish at the end and what is too old gone from the front. -/
def record (sc : Scaler) (now : UInt64) (wanted : UInt32) : Scaler :=
  { sc with history := (sc.history ++ [(now, wanted)]).dropWhile fun e => decide (e.1 + sc.longest < now) }

/-- The decision once the history holds the new wish. -/
def settle (sc : Scaler) (now : UInt64) (current wanted : UInt32) : Decision :=
  if current < wanted then
    let stable := (least (sc.window now sc.policy.up.stabilizationSecs)).getD wanted
    if current < stable then .scale (min (min stable (satAdd current sc.policy.up.maxStep)) sc.policy.max)
    else .hold .stabilizing
  else if wanted < current then
    let stable := (greatest (sc.window now sc.policy.down.stabilizationSecs)).getD wanted
    if stable < current then .scale (max (max stable (satSub current sc.policy.down.maxStep)) sc.policy.min)
    else .hold .stabilizing
  else .hold .withinTolerance

def decide (fl : Floats) (sc : Scaler) (now : UInt64) (current : UInt32) (readings : List MetricReading) :
    Decision × Scaler :=
  if current < sc.policy.min then (.scale sc.policy.min, sc)
  else if sc.policy.max < current then (.scale sc.policy.max, sc)
  else match sc.recommendation fl current readings with
    | none => (.hold .noMetrics, sc)
    | some wanted =>
      let wanted := clamp wanted sc.policy.min sc.policy.max
      let sc := sc.record now wanted
      (sc.settle now current wanted, sc)

end Scaler

/-- The count a decision leaves. -/
def Decision.apply (d : Decision) (current : UInt32) : UInt32 :=
  match d with
  | .hold _ => current
  | .scale n => n

/-! ## What a decision keeps -/

namespace Scaler
variable (fl : Floats) (sc : Scaler) (now : UInt64) (current : UInt32) (rs : List MetricReading)

theorem decide_policy : (sc.decide fl now current rs).2.policy = sc.policy := by
  unfold decide
  split
  · rfl
  split
  · rfl
  split <;> rfl

/-- What is in the history was there before or is of now. -/
theorem decide_history : ∀ e ∈ (sc.decide fl now current rs).2.history, e ∈ sc.history ∨ e.1 = now := by
  intro e he
  unfold decide at he
  split at he
  · exact Or.inl he
  split at he
  · exact Or.inl he
  split at he
  · exact Or.inl he
  · have hmem := (List.dropWhile_sublist _).subset he
    rcases List.mem_append.mp hmem with h | h
    · exact Or.inl h
    · exact Or.inr (by rw [List.mem_singleton.mp h])

theorem settle_bounds {wanted : UInt32} (hlo : sc.policy.min ≤ current) (hhi : current ≤ sc.policy.max) :
    sc.policy.min ≤ (sc.settle now current wanted).apply current ∧
      (sc.settle now current wanted).apply current ≤ sc.policy.max := by
  simp only [UInt32.le_iff_toNat_le] at hlo hhi ⊢
  unfold settle
  split
  · dsimp only
    split
    · rename_i hstable
      rw [UInt32.lt_iff_toNat_lt] at hstable
      have hstep := satAdd_ge current sc.policy.up.maxStep
      simp only [Decision.apply, min_toNat]
      omega
    · exact ⟨hlo, hhi⟩
  split
  · dsimp only
    split
    · rename_i hstable
      rw [UInt32.lt_iff_toNat_lt] at hstable
      simp only [Decision.apply, max_toNat, satSub_toNat]
      omega
    · exact ⟨hlo, hhi⟩
  · exact ⟨hlo, hhi⟩

/-- The autoscaler leaves a count within its range. -/
theorem decide_bounds (h : sc.policy.min ≤ sc.policy.max) :
    sc.policy.min ≤ (sc.decide fl now current rs).1.apply current ∧
      (sc.decide fl now current rs).1.apply current ≤ sc.policy.max := by
  unfold decide
  split
  · exact ⟨UInt32.le_refl _, h⟩
  rename_i hlo
  split
  · exact ⟨h, UInt32.le_refl _⟩
  rename_i hhi
  rw [UInt32.not_lt] at hlo hhi
  split
  · exact ⟨hlo, hhi⟩
  · exact settle_bounds (sc.record now _) now current hlo hhi

end Scaler
end Collocate.Autoscaler
