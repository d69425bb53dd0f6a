import Mathlib.Data.List.TakeWhile
import Collocate.Controller.Autoscaler

/-! # The history of the autoscaler

The two windows of the policy look at one history, and what is too old for the longer of them is dropped
from its front. A scaler that drops nothing decides the same. -/
namespace Collocate.Autoscaler
set_option autoImplicit false

/-- One call of `decide`. -/
structure Call where
  now : UInt64
  current : UInt32
  readings : List MetricReading
  deriving DecidableEq, Repr

namespace Scaler
variable (fl : Floats)

/-- `record` without the pruning. -/
def remember (sc : Scaler) (now : UInt64) (wanted : UInt32) : Scaler :=
  { sc with history := sc.history ++ [(now, wanted)] }

/-- `decide` without the pruning. -/
def decideUnpruned (sc : Scaler) (now : UInt64) (current : UInt32) (readings : List MetricReading) :
    Decision × Scaler :=
  if current < sc.policy.min then (.scale sc.policy.min, sc)
  else if sc.policy.max < current then (.scale sc.policy.max, sc)
  else match sc.recommendation fl current readings with
    | none => (.hold .noMetrics, sc)
    | some wanted =>
      let wanted := clamp wanted sc.policy.min sc.policy.max
      let sc := sc.remember now wanted
      (sc.settle now current wanted, sc)

/-- The decisions of a sequence of calls, and the scaler after them. -/
def answers (step : Scaler → UInt64 → UInt32 → List MetricReading → Decision × Scaler) (sc : Scaler) :
    List Call → List Decision × Scaler
  | [] => ([], sc)
  | c :: rest =>
    let r := step sc c.now c.current c.readings
    let rs := answers step r.2 rest
    (r.1 :: rs.1, rs.2)

end Scaler

/-- What a call enters in the history: the clamped recommendation, if the count is within its range and some
metric can be used. -/
def recorded (fl : Floats) (policy : Autoscale) (c : Call) : Option (UInt64 × UInt32) :=
  if c.current < policy.min ∨ policy.max < c.current then none
  else ((Scaler.new policy).recommendation fl c.current c.readings).map fun wanted =>
    (c.now, clamp wanted policy.min policy.max)

/-! ## Pruning -/

/-- What the history lacks is too old for the longer window at that time. -/
def Pruned (longest now : UInt64) (full kept : List (UInt64 × UInt32)) : Prop :=
  ∃ gone, full = gone ++ kept ∧ ∀ e ∈ gone, e.1.toNat + longest.toNat < now.toNat

section Windows
variable {longest now : UInt64} {full kept : List (UInt64 × UInt32)}

theorem Pruned.later {now' : UInt64} (h : Pruned longest now full kept) (hle : now ≤ now') :
    Pruned longest now' full kept := by
  obtain ⟨gone, hfull, hold⟩ := h
  exact ⟨gone, hfull, fun e he => Nat.lt_of_lt_of_le (hold e he) (UInt64.le_iff_toNat_le.mp hle)⟩

/-- The pruned history after another call. -/
theorem Pruned.record (h : Pruned longest now full kept) (hfits : ∀ e ∈ full ++ [(now, 0)],
    e.1.toNat + longest.toNat < 2 ^ 64)
    (wanted : UInt32) : Pruned longest now (full ++ [(now, wanted)])
      ((kept ++ [(now, wanted)]).dropWhile fun e => decide (e.1 + longest < now)) := by
  obtain ⟨gone, hfull, hold⟩ := h
  let old := (kept ++ [(now, wanted)]).takeWhile fun e => decide (e.1 + longest < now)
  refine ⟨gone ++ old, ?_, fun e he => ?_⟩
  · rw [hfull, List.append_assoc, List.append_assoc, List.takeWhile_append_dropWhile]
  · rcases List.mem_append.mp he with hmem | hmem
    · exact hold e hmem
    · have htrue : decide (e.1 + longest < now) = true := List.mem_takeWhile_imp (l := kept ++ [(now, wanted)]) hmem
      have hlt : e.1 + longest < now := of_decide_eq_true htrue
      have hin : e ∈ kept ++ [(now, wanted)] := (List.takeWhile_sublist _).subset hmem
      have hsum : e.1.toNat + longest.toNat < 2 ^ 64 := by
        rcases List.mem_append.mp hin with hkept | hnew
        · exact hfits e (List.mem_append_left _ (hfull ▸ List.mem_append_right _ hkept))
        · rw [List.mem_singleton.mp hnew]
          exact hfits (now, 0) (List.mem_append_right _ List.mem_cons_self)
      rw [UInt64.lt_iff_toNat_lt, UInt64.toNat_add, Nat.mod_eq_of_lt hsum] at hlt
      exact hlt

/-- A window no longer than the longest does not look at what is gone. -/
theorem Pruned.window {policy : Autoscale} {secs : UInt64} (h : Pruned longest now full kept) (hsecs : secs ≤ longest) :
    (Scaler.mk policy kept).window now secs = (Scaler.mk policy full).window now secs := by
  obtain ⟨gone, hfull, hold⟩ := h
  have hnone : gone.filter (fun e => decide (satSub64 now secs ≤ e.1)) = [] := by
    rw [List.filter_eq_nil_iff]
    intro e he hin
    have hin := UInt64.le_iff_toNat_le.mp (of_decide_eq_true hin)
    have hlt := hold e he
    have hle := UInt64.le_iff_toNat_le.mp hsecs
    rw [satSub64_toNat] at hin
    omega
  unfold Scaler.window
  rw [hfull, List.filter_append, hnone, List.nil_append]

end Windows

/-! ## One call -/

section Step
variable {fl : Floats} {policy : Autoscale} {full kept : List (UInt64 × UInt32)}

def longestOf (policy : Autoscale) : UInt64 := max policy.up.stabilizationSecs policy.down.stabilizationSecs

theorem up_le_longest : policy.up.stabilizationSecs ≤ longestOf policy := by
  unfold longestOf
  rw [UInt64.le_iff_toNat_le]
  show _ ≤ (if policy.up.stabilizationSecs ≤ policy.down.stabilizationSecs then _ else _ : UInt64).toNat
  split
  · rename_i h
    exact UInt64.le_iff_toNat_le.mp h
  · exact Nat.le_refl _

theorem down_le_longest : policy.down.stabilizationSecs ≤ longestOf policy := by
  unfold longestOf
  rw [UInt64.le_iff_toNat_le]
  show _ ≤ (if policy.up.stabilizationSecs ≤ policy.down.stabilizationSecs then _ else _ : UInt64).toNat
  split
  · exact Nat.le_refl _
  · rename_i h
    rw [UInt64.le_iff_toNat_le] at h
    omega

/-- The decision looks at the history through the two windows only. -/
theorem settle_eq {now : UInt64} (h : Pruned (longestOf policy) now full kept) (current wanted : UInt32) :
    (Scaler.mk policy kept).settle now current wanted = (Scaler.mk policy full).settle now current wanted := by
  unfold Scaler.settle
  rw [h.window up_le_longest, h.window down_le_longest]

theorem recorded_out {c : Call} (h : c.current < policy.min ∨ policy.max < c.current) :
    recorded fl policy c = none := if_pos h

theorem recorded_in {c : Call} (hlo : ¬ c.current < policy.min) (hhi : ¬ policy.max < c.current) :
    recorded fl policy c = ((Scaler.mk policy kept).recommendation fl c.current c.readings).map fun wanted =>
      (c.now, clamp wanted policy.min policy.max) :=
  if_neg fun h => h.elim hlo hhi

/-- The call enters what it records in the history that is never pruned. -/
theorem decideUnpruned_history (c : Call) : ((Scaler.mk policy full).decideUnpruned fl c.now c.current c.readings).2 =
    ⟨policy, full ++ (recorded fl policy c).toList⟩ := by
  unfold Scaler.decideUnpruned
  split
  · rename_i h
    rw [recorded_out (.inl h), Option.toList_none, List.append_nil]
  split
  · rename_i h
    rw [recorded_out (.inr h), Option.toList_none, List.append_nil]
  rename_i hlo hhi
  rw [@recorded_in fl policy full c hlo hhi]
  split
  · rename_i hnone
    rw [hnone, Option.map_none, Option.toList_none, List.append_nil]
  · rename_i wanted hsome
    rw [hsome]
    rfl

/-- Pruned or not, a call decides the same, and the histories stay as far apart as they may. -/
theorem decide_unpruned {c : Call} (h : Pruned (longestOf policy) c.now full kept)
    (hfull : ∀ e ∈ full, e.1.toNat + (longestOf policy).toNat < 2 ^ 64)
    (hnow : c.now.toNat + (longestOf policy).toNat < 2 ^ 64) :
    ((Scaler.mk policy kept).decide fl c.now c.current c.readings).1 =
        ((Scaler.mk policy full).decideUnpruned fl c.now c.current c.readings).1 ∧
      ∃ kept', ((Scaler.mk policy kept).decide fl c.now c.current c.readings).2 = ⟨policy, kept'⟩ ∧
        Pruned (longestOf policy) c.now (full ++ (recorded fl policy c).toList) kept' := by
  have hsame : Pruned (longestOf policy) c.now (full ++ (none : Option (UInt64 × UInt32)).toList) kept := by
    rw [Option.toList_none, List.append_nil]
    exact h
  unfold Scaler.decide Scaler.decideUnpruned
  split
  · rename_i hlo
    exact ⟨rfl, kept, rfl, (recorded_out (.inl hlo)).symm ▸ hsame⟩
  split
  · rename_i hhi
    exact ⟨rfl, kept, rfl, (recorded_out (.inr hhi)).symm ▸ hsame⟩
  rename_i hlo hhi
  have hrec := @recorded_in fl policy kept c hlo hhi
  have hrecommend : (Scaler.mk policy full).recommendation fl c.current c.readings =
      (Scaler.mk policy kept).recommendation fl c.current c.readings := rfl
  rw [hrecommend, hrec]
  cases hwish : (Scaler.mk policy kept).recommendation fl c.current c.readings with
  | none => exact ⟨rfl, kept, rfl, hsame⟩
  | some wanted =>
    have hfits : ∀ e ∈ full ++ [(c.now, (0 : UInt32))], e.1.toNat + (longestOf policy).toNat < 2 ^ 64 := by
      intro e he
      rcases List.mem_append.mp he with hold | hnew
      · exact hfull e hold
      · rw [List.mem_singleton.mp hnew]
        exact hnow
    have hnext := h.record hfits (clamp wanted policy.min policy.max)
    exact ⟨settle_eq hnext _ _, _, rfl, hnext⟩

end Step

/-! ## Sequences of calls -/

section Runs
variable {fl : Floats} {policy : Autoscale}

/-- The scaler after calls in the order of time has the history they recorded, but for what is too old. -/
theorem answers_unpruned (calls : List Call) {t : UInt64} {full kept : List (UInt64 × UInt32)}
    (h : Pruned (longestOf policy) t full kept) (hstart : ∀ c ∈ calls, t ≤ c.now)
    (hmono : calls.Pairwise fun a b => a.now ≤ b.now)
    (hfull : ∀ e ∈ full, e.1.toNat + (longestOf policy).toNat < 2 ^ 64)
    (hfits : ∀ c ∈ calls, c.now.toNat + (longestOf policy).toNat < 2 ^ 64) :
    (Scaler.answers (Scaler.decide fl) ⟨policy, kept⟩ calls).1 =
        (Scaler.answers (Scaler.decideUnpruned fl) ⟨policy, full⟩ calls).1 ∧
      ∃ kept', (Scaler.answers (Scaler.decide fl) ⟨policy, kept⟩ calls).2 = ⟨policy, kept'⟩ ∧
        ∀ t' : UInt64, t ≤ t' → (∀ c ∈ calls, c.now ≤ t') →
          Pruned (longestOf policy) t' (full ++ calls.filterMap (recorded fl policy)) kept' := by
  induction calls generalizing t full kept with
  | nil =>
    refine ⟨rfl, kept, rfl, fun t' ht _ => ?_⟩
    rw [List.filterMap_nil, List.append_nil]
    exact h.later ht
  | cons c rest ih =>
    have hc := List.mem_cons_self (a := c) (l := rest)
    have hpair := List.pairwise_cons.mp hmono
    obtain ⟨hanswer, kept', hscaler, hnext⟩ := @decide_unpruned fl _ _ _ _ (h.later (hstart c hc)) hfull (hfits c hc)
    have hlonger : ∀ e ∈ full ++ (recorded fl policy c).toList, e.1.toNat + (longestOf policy).toNat < 2 ^ 64 := by
      intro e he
      rcases List.mem_append.mp he with hold | hnew
      · exact hfull e hold
      · have htime : e.1 = c.now := by
          unfold recorded at hnew
          split at hnew
          · cases hnew
          · rw [Option.mem_toList] at hnew
            obtain ⟨wanted, -, rfl⟩ := Option.map_eq_some_iff.mp hnew
            rfl
        rw [htime]
        exact hfits c hc
    obtain ⟨hanswers, kept'', hend, hpruned⟩ := ih hnext hpair.1 hpair.2 hlonger
      fun c' hmem => hfits c' (List.mem_cons_of_mem _ hmem)
    have hunpruned := @decideUnpruned_history fl policy full c
    refine ⟨?_, kept'', ?_, fun t' _ hall => ?_⟩
    · show (Scaler.decide fl ⟨policy, kept⟩ c.now c.current c.readings).1 ::
        (Scaler.answers _ (Scaler.decide fl ⟨policy, kept⟩ c.now c.current c.readings).2 rest).1 = _
      rw [hscaler, hanswer, hanswers, ← hunpruned]
      rfl
    · show (Scaler.answers _ (Scaler.decide fl ⟨policy, kept⟩ c.now c.current c.readings).2 rest).2 = _
      rw [hscaler, hend]
    · have hrest := hpruned t' (hall c hc) fun c' hmem => hall c' (List.mem_cons_of_mem _ hmem)
      have hlist : full ++ (c :: rest).filterMap (recorded fl policy) =
          full ++ (recorded fl policy c).toList ++ rest.filterMap (recorded fl policy) := by
        rw [List.append_assoc]
        cases hrec : recorded fl policy c with
        | none => rw [List.filterMap_cons_none hrec, Option.toList_none, List.nil_append]
        | some e => rw [List.filterMap_cons_some hrec, Option.toList_some, List.singleton_append]
      rw [hlist]
      exact hrest

end Runs

/-! ## Bounds and stabilization -/

/-- The recommendation was recorded in the last `secs` seconds. -/
def Recent (now secs : UInt64) (e : UInt64 × UInt32) : Prop := now.toNat ≤ e.1.toNat + secs.toNat

/-- What a decision promises, given what was recorded up to its call. -/
structure Respects (fl : Floats) (policy : Autoscale) (history : List (UInt64 × UInt32)) (c : Call) (d : Decision) :
    Prop where
  range : ∀ n, d = .scale n → policy.min ≤ n ∧ n ≤ policy.max
  driven : ∀ n, d = .scale n → policy.min ≤ c.current → c.current ≤ policy.max →
    ∃ wanted, recorded fl policy c = some (c.now, wanted) ∧ wanted ≠ c.current
  up : ∀ n wanted, d = .scale n → recorded fl policy c = some (c.now, wanted) → c.current < wanted →
    c.current ≤ n ∧ n.toNat ≤ c.current.toNat + policy.up.maxStep.toNat ∧
      ∀ e ∈ history, Recent c.now policy.up.stabilizationSecs e → n ≤ e.2
  down : ∀ n wanted, d = .scale n → recorded fl policy c = some (c.now, wanted) → wanted < c.current →
    n ≤ c.current ∧ c.current.toNat ≤ n.toNat + policy.down.maxStep.toNat ∧
      ∀ e ∈ history, Recent c.now policy.down.stabilizationSecs e → e.2 ≤ n

theorem foldl_min_le (l : List UInt32) (start : UInt32) :
    l.foldl min start ≤ start ∧ ∀ n ∈ l, l.foldl min start ≤ n := by
  induction l generalizing start with
  | nil => exact ⟨UInt32.le_refl _, fun n hn => absurd hn List.not_mem_nil⟩
  | cons m l ih =>
    obtain ⟨hstart, hall⟩ := ih (min start m)
    have hmin := min_toNat start m
    rw [List.foldl_cons]
    simp only [UInt32.le_iff_toNat_le] at hstart hall ⊢
    refine ⟨by omega, fun n hn => ?_⟩
    rcases List.mem_cons.mp hn with rfl | hn
    · omega
    · exact hall n hn

theorem le_foldl_max (l : List UInt32) (start : UInt32) :
    start ≤ l.foldl max start ∧ ∀ n ∈ l, n ≤ l.foldl max start := by
  induction l generalizing start with
  | nil => exact ⟨UInt32.le_refl _, fun n hn => absurd hn List.not_mem_nil⟩
  | cons m l ih =>
    obtain ⟨hstart, hall⟩ := ih (max start m)
    have hmax := max_toNat start m
    rw [List.foldl_cons]
    simp only [UInt32.le_iff_toNat_le] at hstart hall ⊢
    refine ⟨by omega, fun n hn => ?_⟩
    rcases List.mem_cons.mp hn with rfl | hn
    · omega
    · exact hall n hn

theorem least_le {l : List UInt32} {n : UInt32} (hn : n ∈ l) (other : UInt32) : (least l).getD other ≤ n := by
  cases l with
  | nil => cases hn
  | cons m l =>
    rcases List.mem_cons.mp hn with rfl | hn
    · exact (foldl_min_le l n).1
    · exact (foldl_min_le l m).2 n hn

theorem le_greatest {l : List UInt32} {n : UInt32} (hn : n ∈ l) (other : UInt32) : n ≤ (greatest l).getD other := by
  cases l with
  | nil => cases hn
  | cons m l =>
    rcases List.mem_cons.mp hn with rfl | hn
    · exact (le_foldl_max l n).1
    · exact (le_foldl_max l m).2 n hn

section Settle
variable {policy : Autoscale} {full : List (UInt64 × UInt32)} {now : UInt64} {current wanted n : UInt32}

theorem mem_window {secs : UInt64} {e : UInt64 × UInt32} (he : e ∈ full) (hrecent : Recent now secs e) :
    e.2 ∈ (Scaler.mk policy full).window now secs := by
  refine List.mem_map_of_mem (f := Prod.snd) (List.mem_filter.mpr ⟨he, decide_eq_true ?_⟩)
  unfold Recent at hrecent
  rw [UInt64.le_iff_toNat_le, satSub64_toNat]
  omega

theorem settle_up (hmax : current ≤ policy.max) (hwanted : current < wanted)
    (h : (Scaler.mk policy full).settle now current wanted = .scale n) :
    current ≤ n ∧ n.toNat ≤ current.toNat + policy.up.maxStep.toNat ∧
      ∀ e ∈ full, Recent now policy.up.stabilizationSecs e → n ≤ e.2 := by
  unfold Scaler.settle at h
  rw [if_pos hwanted] at h
  dsimp only at h
  split at h
  · rename_i hstable
    cases h
    have hlo := satAdd_ge current policy.up.maxStep
    have hhi := satAdd_le current policy.up.maxStep
    simp only [UInt32.le_iff_toNat_le, UInt32.lt_iff_toNat_lt, min_toNat] at hstable hmax ⊢
    refine ⟨by omega, by omega, fun e he hrecent => ?_⟩
    have hleast := UInt32.le_iff_toNat_le.mp (least_le (@mem_window policy _ _ _ _ he hrecent) wanted)
    omega
  · cases h

theorem settle_down (hmin : policy.min ≤ current) (hwanted : wanted < current)
    (h : (Scaler.mk policy full).settle now current wanted = .scale n) :
    n ≤ current ∧ current.toNat ≤ n.toNat + policy.down.maxStep.toNat ∧
      ∀ e ∈ full, Recent now policy.down.stabilizationSecs e → e.2 ≤ n := by
  have hnot : ¬ current < wanted := by
    rw [UInt32.lt_iff_toNat_lt] at hwanted ⊢
    omega
  unfold Scaler.settle at h
  rw [if_neg hnot, if_pos hwanted] at h
  dsimp only at h
  split at h
  · rename_i hstable
    cases h
    simp only [UInt32.le_iff_toNat_le, UInt32.lt_iff_toNat_lt, max_toNat, satSub_toNat] at hstable hmin ⊢
    refine ⟨by omega, by omega, fun e he hrecent => ?_⟩
    have hgreatest := UInt32.le_iff_toNat_le.mp (le_greatest (@mem_window policy _ _ _ _ he hrecent) wanted)
    omega
  · cases h

/-- A decision to stay is all there is when the wish is the count there is. -/
theorem settle_same (h : (Scaler.mk policy full).settle now current wanted = .scale n) : wanted ≠ current := by
  rintro rfl
  unfold Scaler.settle at h
  rw [if_neg (UInt32.lt_irrefl wanted), if_neg (UInt32.lt_irrefl wanted)] at h
  cases h

end Settle

section Promise
variable {fl : Floats} {policy : Autoscale} {full : List (UInt64 × UInt32)}

/-- A call that records something settles on it, with the whole history before it. -/
theorem decideUnpruned_recorded {c : Call} {wanted : UInt32} (h : recorded fl policy c = some (c.now, wanted)) :
    ((Scaler.mk policy full).decideUnpruned fl c.now c.current c.readings).1 =
        (Scaler.mk policy (full ++ [(c.now, wanted)])).settle c.now c.current wanted ∧
      policy.min ≤ c.current ∧ c.current ≤ policy.max := by
  have hhistory := h
  unfold recorded at h
  split at h
  · cases h
  rename_i hrange
  rw [not_or, UInt32.not_lt, UInt32.not_lt] at hrange
  obtain ⟨raw, hraw, heq⟩ := Option.map_eq_some_iff.mp h
  have hwanted : clamp raw policy.min policy.max = wanted := congrArg Prod.snd heq
  refine ⟨?_, hrange⟩
  have hraw : (Scaler.mk policy full).recommendation fl c.current c.readings = some raw := hraw
  unfold Scaler.decideUnpruned
  rw [if_neg (UInt32.not_lt.mpr hrange.1), if_neg (UInt32.not_lt.mpr hrange.2), hraw]
  dsimp only
  rw [hwanted]
  rfl

/-- Without pruning a decision keeps its promises. -/
theorem decideUnpruned_respects (c : Call) {d : Decision}
    (hd : ((Scaler.mk policy full).decideUnpruned fl c.now c.current c.readings).1 = d)
    (hrange : ∀ n, d = .scale n → policy.min ≤ n ∧ n ≤ policy.max) :
    Respects fl policy (full ++ (recorded fl policy c).toList) c d where
  range := hrange
  driven n hn hlo hhi := by
    cases hrec : recorded fl policy c with
    | none =>
      unfold recorded at hrec
      rw [if_neg (not_or.mpr ⟨UInt32.not_lt.mpr hlo, UInt32.not_lt.mpr hhi⟩), Option.map_eq_none_iff] at hrec
      have hrec : (Scaler.mk policy full).recommendation fl c.current c.readings = none := hrec
      unfold Scaler.decideUnpruned at hd
      rw [if_neg (UInt32.not_lt.mpr hlo), if_neg (UInt32.not_lt.mpr hhi), hrec, hn] at hd
      cases hd
    | some e =>
      have htime : e = (c.now, e.2) := by
        unfold recorded at hrec
        split at hrec
        · cases hrec
        · obtain ⟨raw, -, rfl⟩ := Option.map_eq_some_iff.mp hrec
          rfl
      rw [htime] at hrec
      have hsettle := (@decideUnpruned_recorded _ _ full _ _ hrec).1
      rw [hd, hn] at hsettle
      exact ⟨e.2, htime ▸ rfl, settle_same hsettle.symm⟩
  up n wanted hn hrec hwanted := by
    obtain ⟨hsettle, -, hmax⟩ := @decideUnpruned_recorded _ _ full _ _ hrec
    rw [hd, hn] at hsettle
    rw [hrec]
    exact settle_up hmax hwanted hsettle.symm
  down n wanted hn hrec hwanted := by
    obtain ⟨hsettle, hmin, -⟩ := @decideUnpruned_recorded _ _ full _ _ hrec
    rw [hd, hn] at hsettle
    rw [hrec]
    exact settle_down hmin hwanted hsettle.symm

end Promise

/-- Calls in the order of time get the answers that a scaler gives which never prunes its history, and each
answer stays within the range, within a step of the count there is, and on its side of all that was
recommended in the window of its direction. -/
theorem decisions_stabilized (fl : Floats) (policy : Autoscale) (hrange : policy.min ≤ policy.max) (calls : List Call)
    (hmono : calls.Pairwise fun a b => a.now ≤ b.now)
    (hfits : ∀ c ∈ calls, c.now.toNat + (longestOf policy).toNat < 2 ^ 64) :
    (Scaler.answers (Scaler.decide fl) (Scaler.new policy) calls).1 =
        (Scaler.answers (Scaler.decideUnpruned fl) (Scaler.new policy) calls).1 ∧
      ∀ past c rest, calls = past ++ c :: rest →
        Respects fl policy ((past ++ [c]).filterMap (recorded fl policy)) c
          ((Scaler.answers (Scaler.decide fl) (Scaler.new policy) past).2.decide fl c.now c.current c.readings).1 := by
  have hnothing (now : UInt64) : Pruned (longestOf policy) now [] [] :=
    ⟨[], rfl, fun _ he => absurd he List.not_mem_nil⟩
  have hempty : ∀ e ∈ ([] : List (UInt64 × UInt32)), e.1.toNat + (longestOf policy).toNat < 2 ^ 64 :=
    fun _ he => absurd he List.not_mem_nil
  have hzero (now : UInt64) : 0 ≤ now := UInt64.le_iff_toNat_le.mpr (Nat.zero_le _)
  refine ⟨(answers_unpruned calls (hnothing 0) (fun c _ => hzero c.now) hmono hempty hfits).1, ?_⟩
  rintro past c rest rfl
  have hsplit := List.pairwise_append.mp hmono
  have hpast (c' : Call) (hmem : c' ∈ past) := hsplit.2.2 c' hmem c List.mem_cons_self
  have hlist (c' : Call) (hmem : c' ∈ past) := hfits c' (List.mem_append_left _ hmem)
  obtain ⟨-, kept, hscaler, hpruned⟩ := @answers_unpruned fl _ past _ _ _ (hnothing 0)
    (fun c _ => hzero c.now) hsplit.1 hempty hlist
  have hpruned := hpruned c.now (hzero _) hpast
  rw [List.nil_append] at hpruned
  have hfull : ∀ e ∈ past.filterMap (recorded fl policy), e.1.toNat + (longestOf policy).toNat < 2 ^ 64 := by
    intro e he
    obtain ⟨c', hmem, hrec⟩ := List.mem_filterMap.mp he
    unfold recorded at hrec
    split at hrec
    · cases hrec
    · obtain ⟨wanted, -, rfl⟩ := Option.map_eq_some_iff.mp hrec
      exact hlist c' hmem
  have hnow := hfits c (List.mem_append_right _ List.mem_cons_self)
  obtain ⟨hanswer, -⟩ := @decide_unpruned fl _ _ _ _ hpruned hfull hnow
  have hstart : Scaler.new policy = ⟨policy, []⟩ := rfl
  rw [hstart, hscaler]
  have hlast : (past ++ [c]).filterMap (recorded fl policy) =
      past.filterMap (recorded fl policy) ++ (recorded fl policy c).toList := by
    rw [List.filterMap_append]
    cases hrec : recorded fl policy c with
    | none => rw [List.filterMap_cons_none hrec, Option.toList_none, List.filterMap_nil]
    | some e => rw [List.filterMap_cons_some hrec, Option.toList_some, List.filterMap_nil]
  rw [hlast]
  refine decideUnpruned_respects c hanswer.symm fun n hn => ?_
  have hbounds := (Scaler.mk policy kept).decide_bounds fl c.now c.current c.readings hrange
  rw [hn] at hbounds
  exact hbounds

/-! ## A load that persists -/

/-- The quotient for a load that is on target or twice as high. -/
def doublingFloats : Floats :=
  ⟨fun _ target value current => if value = target then current else 2 * current, fun _ => ⟨0⟩, fun _ => ⟨0⟩⟩

/-- One to ten replicas, at a CPU load of 65 %. -/
def cpuPolicy : Autoscale := { min := 1, max := 10, metrics := [⟨.cpu, ⟨0x4050400000000000⟩⟩] }

def onTarget (now : UInt64) : Call := ⟨now, 2, [⟨.cpu, ⟨0x4050400000000000⟩⟩]⟩

def doubled (now : UInt64) : Call := ⟨now, 2, [⟨.cpu, ⟨0x4060400000000000⟩⟩]⟩

def risingLoad : List Call := [onTarget 0, doubled 10, doubled 20, doubled 45]

theorem rising_load_stabilized :
    (Scaler.answers (Scaler.decide doublingFloats) (Scaler.new cpuPolicy) risingLoad).1 =
        [.hold .withinTolerance, .hold .stabilizing, .hold .stabilizing, .scale 4] ∧
      (Scaler.answers (Scaler.decide doublingFloats) (Scaler.new cpuPolicy) risingLoad).1 =
        (Scaler.answers (Scaler.decideUnpruned doublingFloats) (Scaler.new cpuPolicy) risingLoad).1 := by
  have hfits : ∀ c ∈ risingLoad, c.now.toNat + (longestOf cpuPolicy).toNat < 2 ^ 64 := by decide +kernel
  have h := decisions_stabilized doublingFloats cpuPolicy (by decide) risingLoad (by decide +kernel) hfits
  exact ⟨by decide +kernel, h.1⟩

end Collocate.Autoscaler
