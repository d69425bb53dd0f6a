import Collocate.Controller.RolloutBudget

/-! # Scaling down

A service all of whose live replicas are of the target revision, and with more of them than it wants, has
its idlest replicas drained. Which replicas are ready is not looked at. -/
namespace Collocate.Rollout
set_option autoImplicit false

def isDrain : Action → Bool
  | .drain _ => true
  | _ => false

/-- The state once the drains of a step are applied. -/
def afterDrains (s : State) : State := applyAll s ((nextStep s).filter isDrain)

/-- The wanted number of live replicas is left, and no ready one was given up for one that is not. -/
structure KeepsReady (s : State) : Prop where
  live : liveCount (afterDrains s) = s.desired.toNat
  ready : min (readyCount s) s.desired.toNat ≤ readyCount (afterDrains s)

/-! ## The line between idle and busy -/

def byIdleness (s : State) : List Replica := (live s).insertionSort idler

def excess (s : State) : ℕ := (live s).length - s.desired.toNat

def idlest (s : State) : List Replica := (byIdleness s).take (excess s)

def busiest (s : State) : List Replica := (byIdleness s).drop (excess s)

/-- The list is not too long for its length to be a `u32`, no index is on both sides of the line, and if a
ready replica is on the idle side, all on the busy side are ready. -/
structure SafeToShrink (s : State) : Prop where
  counted : (live s).length < 2 ^ 32
  apart : ∀ r ∈ busiest s, r.index ∉ (idlest s).map Replica.index
  ready : (∃ r ∈ idlest s, isReady r s.policy.minReadySecs = true) → ∀ r ∈ busiest s,
    isReady r s.policy.minReadySecs = true

section Steady
variable {s : State} (hp : s.paused = false) (hr : ¬ Rolling s)

theorem isDrain_removals (s : State) : (removals s).filter isDrain = [] := by
  unfold removals
  rw [List.filter_map, List.map_eq_nil_iff, List.filter_eq_nil_iff]
  exact fun _ _ h => by cases h

theorem isDrain_drains (l : List Replica) : (l.map fun r => Action.drain r.index).filter isDrain = l.map fun r =>
    .drain r.index := by
  rw [List.filter_eq_self]
  intro a ha
  obtain ⟨r, -, rfl⟩ := List.mem_map.mp ha
  rfl

include hp hr in
/-- Reporting completion drains nothing, and neither does a step that could have. -/
theorem drains_steady : (nextStep s).filter isDrain = (steadyActions s).filter isDrain := by
  have hrolling : rolling s = false := by
    rw [← Bool.not_eq_true, rolling_iff]
    exact hr
  unfold nextStep
  rw [hp, hrolling, if_neg Bool.false_ne_true, if_neg Bool.false_ne_true]
  unfold steadyStep
  dsimp only
  split
  · rename_i hempty
    rw [Bool.and_eq_true, Bool.and_eq_true, List.isEmpty_iff] at hempty
    rw [hempty.1.1]
    rfl
  · rfl

include hr in
theorem drains_eq (hlen : (live s).length < 2 ^ 32) (hmore : s.desired.toNat < (live s).length) :
    (steadyActions s).filter isDrain = (idlest s).map fun r => .drain r.index := by
  have hcount : (UInt32.ofNat (new s).length).toNat = (live s).length := by
    rw [new_eq_live hr]
    exact UInt32.toNat_ofNat_of_lt' hlen
  have hlt : s.desired < UInt32.ofNat (new s).length := by
    rw [UInt32.lt_iff_toNat_lt, hcount]
    exact hmore
  have hexcess : (UInt32.ofNat (new s).length - s.desired).toNat = excess s := by
    rw [UInt32.toNat_sub_of_le _ _ (UInt32.le_of_lt hlt), hcount]
    rfl
  unfold steadyActions
  dsimp only
  rw [if_pos hlt, hexcess, List.filter_append, isDrain_removals, List.nil_append, isDrain_drains, new_eq_live hr]
  rfl

/-- The replicas a drain of these indexes leaves live, as they are met in the order of idleness. -/
theorem countP_afterDrains (p : Replica → Bool) (hlive : ∀ r, p r = true → isLive r = true) (is : List UInt32) :
    (applyAll s (is.map .drain)).replicas.countP p = (byIdleness s).countP fun r => p r && !decide (r.index ∈ is) := by
  have hperm : (byIdleness s).Perm (live s) := List.perm_insertionSort _ _
  rw [applyAll_drains, List.countP_map, hperm.countP_eq, live, List.countP_filter]
  refine List.countP_congr fun r _ => ?_
  by_cases hin : r.index ∈ is
  · have hdrained : p (drainReplica r) = false := by
      rw [← Bool.not_eq_true]
      exact fun h => absurd (hlive _ h) (by rw [isLive_drainReplica]; exact Bool.false_ne_true)
    simp [hin, hdrained]
  · simp only [Function.comp_apply, hin, if_false, decide_false, Bool.not_false, Bool.and_true, Bool.and_eq_true]
    exact ⟨fun h => ⟨h, hlive r h⟩, And.left⟩

/-- Counting what is left on both sides of the line, when no index is on both. -/
theorem countP_left (p : Replica → Bool) (hapart : ∀ r ∈ busiest s, r.index ∉ (idlest s).map Replica.index) :
    (byIdleness s).countP (fun r => p r && !decide (r.index ∈ (idlest s).map Replica.index)) =
      (busiest s).countP p := by
  have hidle : (idlest s).countP (fun r => p r && !decide (r.index ∈ (idlest s).map Replica.index)) = 0 := by
    rw [List.countP_eq_zero]
    intro r hmem
    simp [List.mem_map_of_mem (f := Replica.index) hmem]
  have hbusy : (busiest s).countP (fun r => p r && !decide (r.index ∈ (idlest s).map Replica.index)) =
    (busiest s).countP p := by
    refine List.countP_congr fun r hmem => ?_
    simp [hapart r hmem]
  have hsplit : byIdleness s = idlest s ++ busiest s := (List.take_append_drop _ _).symm
  rw [hsplit, List.countP_append, hidle, Nat.zero_add]
  exact hbusy

theorem busiest_length (hmore : s.desired.toNat < (live s).length) : (busiest s).length = s.desired.toNat := by
  unfold busiest byIdleness excess
  rw [List.length_drop, List.length_insertionSort]
  omega

theorem readyCount_split (s : State) : readyCount s =
    (idlest s).countP (isReady · s.policy.minReadySecs) + (busiest s).countP (isReady · s.policy.minReadySecs) := by
  have hperm : (byIdleness s).Perm (live s) := List.perm_insertionSort _ _
  have hlive : readyCount s = (live s).countP (isReady · s.policy.minReadySecs) := by
    unfold readyCount live
    rw [List.countP_filter]
    refine List.countP_congr fun r _ => ?_
    rw [Bool.and_eq_true]
    exact ⟨fun h => ⟨h, isLive_of_isReady h⟩, And.left⟩
  rw [hlive, ← hperm.countP_eq, ← List.countP_append]
  exact congrArg (List.countP _) (List.take_append_drop _ _).symm

include hp hr in
theorem afterDrains_eq (hlen : (live s).length < 2 ^ 32) (hmore : s.desired.toNat < (live s).length) :
    afterDrains s = applyAll s (((idlest s).map Replica.index).map .drain) := by
  unfold afterDrains
  rw [drains_steady hp hr, drains_eq hr hlen hmore, List.map_map]
  rfl

/-- As many as wanted are left exactly if the line divides the indexes. -/
theorem left_eq_iff (hmore : s.desired.toNat < (live s).length) :
    (byIdleness s).countP (fun r => isLive r && !decide (r.index ∈ (idlest s).map Replica.index)) = s.desired.toNat ↔
      ∀ r ∈ busiest s, r.index ∉ (idlest s).map Replica.index := by
  have hperm : (byIdleness s).Perm (live s) := List.perm_insertionSort _ _
  have hlive : ∀ r ∈ byIdleness s, isLive r = true := fun r hmem =>
    (List.mem_filter.mp (hperm.mem_iff.mp hmem)).2
  have hbusy : ∀ r ∈ busiest s, isLive r = true := fun r hmem => hlive r (List.mem_of_mem_drop hmem)
  constructor
  · intro hleft
    have hidle : (idlest s).countP (fun r => isLive r && !decide (r.index ∈ (idlest s).map Replica.index)) = 0 := by
      rw [List.countP_eq_zero]
      intro r hmem
      simp [List.mem_map_of_mem (f := Replica.index) hmem]
    have hsplit : byIdleness s = idlest s ++ busiest s := (List.take_append_drop _ _).symm
    rw [hsplit, List.countP_append, hidle, Nat.zero_add, ← busiest_length hmore, List.countP_eq_length] at hleft
    intro r hmem
    have h := hleft r hmem
    rw [Bool.and_eq_true, Bool.not_eq_true', decide_eq_false_iff_not] at h
    exact h.2
  · intro hapart
    rw [countP_left isLive hapart, List.countP_eq_length.mpr hbusy, busiest_length hmore]

/-- Shrinking keeps its promise where no ready replica is on the idle side of the line while one that is not
ready is on the busy side, no index is on both sides, and the count of replicas is a `u32`; and for lists
that are not longer only there. -/
theorem shrinking_keeps_ready (s : State) (hp : s.paused = false) (hr : ¬ Rolling s)
    (hmore : s.desired.toNat < (live s).length) :
    (SafeToShrink s → KeepsReady s) ∧ ((live s).length < 2 ^ 32 → KeepsReady s → SafeToShrink s) := by
  have hbusy := busiest_length hmore
  have hle : (busiest s).countP (isReady · s.policy.minReadySecs) ≤ s.desired.toNat := hbusy ▸ List.countP_le_length
  have hafter (hlen : (live s).length < 2 ^ 32) := afterDrains_eq hp hr hlen hmore
  have hlive (hlen : (live s).length < 2 ^ 32) : liveCount (afterDrains s) =
      (byIdleness s).countP fun r => isLive r && !decide (r.index ∈ (idlest s).map Replica.index) := by
    rw [hafter hlen]
    exact countP_afterDrains isLive (fun _ h => h) _
  have hready (hlen : (live s).length < 2 ^ 32) (hapart : ∀ r ∈ busiest s, r.index ∉ (idlest s).map Replica.index) :
      readyCount (afterDrains s) = (busiest s).countP (isReady · s.policy.minReadySecs) := by
    rw [hafter hlen, ← countP_left _ hapart]
    refine Eq.trans ?_ (countP_afterDrains _ (fun _ h => isLive_of_isReady h) _)
    rw [applyAll_drains]
    rfl
  constructor
  · intro hsafe
    refine ⟨(hlive hsafe.counted).trans ((left_eq_iff hmore).mpr hsafe.apart), ?_⟩
    rw [hready hsafe.counted hsafe.apart, readyCount_split]
    by_cases hidle : ∃ r ∈ idlest s, isReady r s.policy.minReadySecs = true
    · have hall := List.countP_eq_length.mpr (hsafe.ready hidle)
      rw [hall, hbusy]
      exact Nat.min_le_right _ _
    · have hnone : (idlest s).countP (isReady · s.policy.minReadySecs) = 0 :=
        List.countP_eq_zero.mpr fun r hmem hrdy => hidle ⟨r, hmem, hrdy⟩
      rw [hnone, Nat.zero_add]
      exact Nat.min_le_left _ _
  · intro hlen hkeeps
    have hapart := (left_eq_iff hmore).mp ((hlive hlen).symm.trans hkeeps.live)
    refine ⟨hlen, hapart, fun ⟨r, hmem, hrdy⟩ => ?_⟩
    have hpos : 0 < (idlest s).countP (isReady · s.policy.minReadySecs) := List.countP_pos_iff.mpr ⟨r, hmem, hrdy⟩
    have hkept := hkeeps.ready
    rw [hready hlen hapart, readyCount_split] at hkept
    exact List.countP_eq_length.mp (by omega)

end Steady

/-! ## Two replicas too many -/

/-- Four replicas of which one is not ready and two are wanted. -/
def crowded (unready : UInt32) : State where
  desired := 2
  target := "new"
  previous := none
  policy := {}
  drainSecs := 30
  replicas := [0, 1, 2, 3].map fun i => ⟨i, "new", if i = unready then .starting else .healthy 60, .live, false, 0⟩
  elapsedSecs := 0
  sinceLastActionSecs := 100
  paused := false

/-- The last replica is the one that is not ready, and it goes. -/
theorem crowded_keeps_ready : KeepsReady (crowded 3) := by
  refine (shrinking_keeps_ready (crowded 3) rfl ?_ (by decide)).1 ⟨by decide, by decide, by decide⟩
  rw [← rolling_iff]
  decide

/-- The first replica is the one that is not ready, and it stays while two ready ones go. -/
theorem crowded_gives_up_ready : (crowded 0).paused = false ∧ ¬ Rolling (crowded 0) ∧
    (crowded 0).desired.toNat < (live (crowded 0)).length ∧ ¬ KeepsReady (crowded 0) := by
  refine ⟨rfl, ?_, by decide, fun h => ?_⟩
  · rw [← rolling_iff]
    decide
  · have hready := h.ready
    revert hready
    decide

end Collocate.Rollout
