import Collocate.Controller.Rollout
import Collocate.Lib.Distinct

/-! # Rolling updates keep their budget

A run of the planner: a step applies every action `nextStep` returned, and between steps the
environment moves the replicas' health, failures, ages and connections, lets replicas exit, and
restarts clocks. Everything a step with strategy `rolling` or `canary` can do to the replicas is
said once, by `nextStep_shape`; the budget statements are read off that shape. -/
namespace Collocate.Rollout
set_option autoImplicit false

/-! ## Runs -/

/-- The replica a `start` adds: live, and not ready until a health verdict says so. -/
def fresh (index : UInt32) (revision : String) : Replica :=
  ⟨index, revision, .starting, .live, false, 0⟩

def drainReplica (r : Replica) : Replica := { r with lifecycle := .draining 0 }

def applyAction (s : State) : Action → State
  | .start i revision => { s with replicas := s.replicas ++ [fresh i revision] }
  | .drain i =>
    { s with replicas := s.replicas.map fun r => if r.index = i then drainReplica r else r }
  | .remove i => { s with replicas := s.replicas.filter fun r => r.index != i }
  | .rollback revision => { s with target := revision, previous := none, elapsedSecs := 0 }
  | .pause _ => { s with paused := true }
  | .complete => s

def applyAll (s : State) (actions : List Action) : State := actions.foldl applyAction s

/-- What cannot change about a replica between two steps. -/
def SameReplica (r r' : Replica) : Prop :=
  r'.index = r.index ∧ r'.revision = r.revision ∧ isLive r' = isLive r

/-- Between two steps replicas may exit, and everything but the index, the revision and the
lifecycle of the others may change, in any order of listing. The service's size and its policy
stay. -/
structure Changes (s s' : State) : Prop where
  desired : s'.desired = s.desired
  policy : s'.policy = s.policy
  replicas : ∃ kept, kept.Subperm s.replicas ∧ List.Forall₂ SameReplica kept s'.replicas

inductive Run (s₀ : State) : State → Prop
  | init : Run s₀ s₀
  | step {s : State} : Run s₀ s → Run s₀ (applyAll s (nextStep s))
  | change {s s' : State} : Run s₀ s → Changes s s' → Run s₀ s'

def DistinctIndexes (s : State) : Prop := (s.replicas.map Replica.index).Nodup

def liveCount (s : State) : ℕ := s.replicas.countP isLive
def readyCount (s : State) : ℕ := s.replicas.countP (isReady · s.policy.minReadySecs)

/-- A live replica of another revision than `target` exists. -/
def Rolling (s : State) : Prop := ∃ r ∈ s.replicas, isLive r = true ∧ r.revision ≠ s.target

def startIndexes (actions : List Action) : List UInt32 :=
  actions.filterMap fun
    | .start i _ => some i
    | _ => none

/-- The budget of one step. -/
structure StepBudget (s : State) : Prop where
  live_le : liveCount (applyAll s (nextStep s)) ≤
    max (liveCount s) (s.desired.toNat + s.policy.maxSurge.toNat)
  ready_ge : Rolling s → min (readyCount s) (s.desired.toNat - s.policy.maxUnavailable.toNat) ≤
    readyCount (applyAll s (nextStep s))
  target_kept : Rolling s → ∀ i, Action.drain i ∈ nextStep s →
    ∀ r ∈ s.replicas, r.index = i → r.revision ≠ s.target
  start_fresh : ∀ i revision, Action.start i revision ∈ nextStep s →
    revision = s.target ∧ i.toNat < s.desired.toNat + s.policy.maxSurge.toNat ∧
      ∀ r ∈ s.replicas, r.index ≠ i
  start_distinct : (startIndexes (nextStep s)).Nodup

/-! ## Counters -/

theorem bound_toNat {s : State} (h : s.desired.toNat + s.policy.maxSurge.toNat < 2 ^ 32) :
    (bound s).toNat = s.desired.toNat + s.policy.maxSurge.toNat := by
  rw [bound, UInt32.toNat_add, Nat.mod_eq_of_lt h]

theorem drainReady_eq_take (allowed : UInt32) (l : List Replica) :
    drainReady allowed l = l.take allowed.toNat := by
  induction l generalizing allowed with
  | nil => simp [drainReady]
  | cons r rs ih =>
    rw [drainReady]
    split
    · rename_i h
      simp [h]
    · rename_i h
      have hpos : 0 < allowed.toNat := by
        rcases Nat.eq_zero_or_pos allowed.toNat with h0 | h0
        · exact absurd (UInt32.toNat_inj.mp (by simpa using h0)) h
        · exact h0
      have hsub : (allowed - 1).toNat = allowed.toNat - 1 := by
        rw [UInt32.toNat_sub_of_le _ _ (by rw [UInt32.le_iff_toNat_le]; exact hpos)]
        rfl
      rw [ih, hsub]
      obtain ⟨k, hk⟩ : ∃ k, allowed.toNat = k + 1 := ⟨allowed.toNat - 1, by omega⟩
      simp [hk]

/-! ## Free indexes -/

theorem ofNat_toNat_below {k : ℕ} {b : UInt32} (h : k < b.toNat) : (UInt32.ofNat k).toNat = k :=
  UInt32.toNat_ofNat_of_lt' (Nat.lt_trans h b.toNat_lt)

theorem mem_freeIndexes {s : State} {b want i : UInt32} (h : i ∈ freeIndexes s b want) :
    i.toNat < b.toNat ∧ ∀ r ∈ s.replicas, r.index ≠ i := by
  have hm := List.mem_of_mem_take h
  simp only [List.mem_filter, List.mem_map, List.mem_range, Bool.not_eq_true',
    List.any_eq_false, beq_iff_eq] at hm
  obtain ⟨⟨k, hk, rfl⟩, hfree⟩ := hm
  exact ⟨by rwa [ofNat_toNat_below hk], fun r hr => hfree r hr⟩

theorem freeIndexes_nodup (s : State) (b want : UInt32) : (freeIndexes s b want).Nodup := by
  refine List.Nodup.sublist (List.take_sublist _ _) (List.Nodup.filter _ ?_)
  refine (List.nodup_map_iff_inj_on List.nodup_range).mpr ?_
  intro x hx y hy hxy
  have := congrArg UInt32.toNat hxy
  rwa [ofNat_toNat_below (List.mem_range.mp hx), ofNat_toNat_below (List.mem_range.mp hy)] at this

theorem freeIndexes_length_le (s : State) (b want : UInt32) :
    (freeIndexes s b want).length ≤ want.toNat := List.length_take_le _ _

theorem index_nodup_toNat {s : State} (hd : DistinctIndexes s) :
    (s.replicas.map fun r => r.index.toNat).Nodup := by
  have h : (s.replicas.map fun r => r.index.toNat) = (s.replicas.map Replica.index).map UInt32.toNat := by
    rw [List.map_map]; rfl
  rw [h]
  exact hd.map fun a b => UInt32.toNat_inj.mp

theorem replicas_length_le {s : State} (hd : DistinctIndexes s) : s.replicas.length ≤ 2 ^ 32 := by
  have h := Distinct.length_le_of_nodup_lt (n := 2 ^ 32) (index_nodup_toNat hd) (by
    intro i hi
    obtain ⟨r, -, rfl⟩ := List.mem_map.mp hi
    exact r.index.toNat_lt)
  simpa using h

/-- With all `2^32` indexes taken nothing is free. -/
theorem freeIndexes_full {s : State} (hd : DistinctIndexes s) (hl : s.replicas.length = 2 ^ 32)
    (b want : UInt32) : freeIndexes s b want = [] := by
  rw [List.eq_nil_iff_forall_not_mem]
  intro i hi
  obtain ⟨-, hfree⟩ := mem_freeIndexes hi
  have h := Distinct.mem_of_nodup_full (n := 2 ^ 32) (i := i.toNat) (index_nodup_toNat hd) (by
    intro j hj
    obtain ⟨r, -, rfl⟩ := List.mem_map.mp hj
    exact r.index.toNat_lt) (by simpa using hl) i.toNat_lt
  obtain ⟨r, hr, he⟩ := List.mem_map.mp h
  exact hfree r hr (UInt32.toNat_inj.mp he)

/-- A bound above the number of replicas leaves an index free below it. -/
theorem freeIndexes_ne_nil {s : State} {b want : UInt32} (hlt : s.replicas.length < b.toNat)
    (hw : 0 < want.toNat) : freeIndexes s b want ≠ [] := by
  obtain ⟨i, hi, hfree⟩ := Distinct.exists_lt_not_mem
    (l := s.replicas.map fun r => r.index.toNat) (n := b.toNat) (by simpa using hlt)
  have hin : UInt32.ofNat i ∈ ((List.range b.toNat).map UInt32.ofNat).filter fun j =>
      !s.replicas.any fun r => r.index == j := by
    simp only [List.mem_filter, List.mem_map, List.mem_range, Bool.not_eq_true',
      List.any_eq_false, beq_iff_eq]
    refine ⟨⟨i, hi, rfl⟩, fun r hr he => hfree ?_⟩
    refine List.mem_map.mpr ⟨r, hr, ?_⟩
    rw [he, ofNat_toNat_below hi]
  intro hnil
  rw [freeIndexes, List.take_eq_nil_iff] at hnil
  rcases hnil with h | h
  · omega
  · rw [h] at hin
    cases hin

/-! ## What applying a step does -/

/-- Every draining replica among `removed` is gone, every replica among `drained` drains, and the
started ones are appended. -/
def afterStep (s : State) (removed : List UInt32) (ds : List Replica) (ss : List UInt32) :
    List Replica :=
  ((s.replicas.filter fun r => decide (r.index ∉ removed)).map fun r =>
    if r.index ∈ ds.map Replica.index then drainReplica r else r) ++ ss.map (fresh · s.target)

theorem applyAll_append (s : State) (as bs : List Action) :
    applyAll s (as ++ bs) = applyAll (applyAll s as) bs := List.foldl_append

theorem applyAll_removes (s : State) (is : List UInt32) :
    applyAll s (is.map .remove) =
      { s with replicas := s.replicas.filter fun r => decide (r.index ∉ is) } := by
  induction is generalizing s with
  | nil => simp [applyAll]
  | cons i is ih =>
    rw [List.map_cons, applyAll, List.foldl_cons, ← applyAll, ih]
    simp only [applyAction, List.filter_filter]
    congr 1
    refine List.filter_congr fun r _ => ?_
    rw [Bool.eq_iff_iff]
    simp only [Bool.and_eq_true, decide_eq_true_eq, bne_iff_ne, ne_eq, List.mem_cons, not_or]
    tauto

theorem applyAll_drains (s : State) (is : List UInt32) :
    applyAll s (is.map .drain) =
      { s with replicas := s.replicas.map fun r => if r.index ∈ is then drainReplica r else r } := by
  induction is generalizing s with
  | nil => simp [applyAll]
  | cons i is ih =>
    rw [List.map_cons, applyAll, List.foldl_cons, ← applyAll, ih]
    simp only [applyAction, List.map_map]
    congr 1
    refine List.map_congr_left fun r _ => ?_
    by_cases h : r.index = i
    · subst h
      by_cases h' : r.index ∈ is <;> simp [h', drainReplica]
    · simp [h]

theorem applyAll_starts (s : State) (is : List UInt32) (revision : String) :
    applyAll s (is.map (.start · revision)) =
      { s with replicas := s.replicas ++ is.map (fresh · revision) } := by
  induction is generalizing s with
  | nil => simp [applyAll]
  | cons i is ih =>
    rw [List.map_cons, applyAll, List.foldl_cons, ← applyAll, ih]
    simp [applyAction]

def removedIndexes (s : State) : List UInt32 := (s.replicas.filter (drained s)).map Replica.index

theorem removals_eq (s : State) : removals s = (removedIndexes s).map .remove := by
  simp [removals, removedIndexes]

theorem applyAll_plan (s : State) (ds : List Replica) (ss : List UInt32) :
    applyAll s (removals s ++ ds.map (.drain ·.index) ++ ss.map (.start · s.target)) =
      { s with replicas := afterStep s (removedIndexes s) ds ss } := by
  have hds : ds.map (fun r => Action.drain r.index) = (ds.map Replica.index).map .drain := by simp
  rw [applyAll_append, applyAll_append, removals_eq, applyAll_removes, hds, applyAll_drains,
    applyAll_starts]
  rfl

/-! ## The shape of a step -/

/-- An action that leaves the replicas alone. -/
def Action.signal : Action → Bool
  | .rollback _ | .pause _ | .complete => true
  | _ => false

/-- The drains `ds` and starts `ss` a step may make: drains hit live replicas, starts take free
indexes within the surge, and while rolling the drained ready replicas stay within the budget. -/
structure Plan (s : State) (ds : List Replica) (ss : List UInt32) : Prop where
  drains_live : ∀ r ∈ ds, r ∈ s.replicas ∧ isLive r = true
  starts_free : ∀ i ∈ ss, i.toNat < s.desired.toNat + s.policy.maxSurge.toNat ∧
    ∀ r ∈ s.replicas, r.index ≠ i
  starts_nodup : ss.Nodup
  live_le : liveCount s + ss.length ≤ max (liveCount s) (s.desired.toNat + s.policy.maxSurge.toNat)
  rolling_old : Rolling s → ∀ r ∈ ds, r.revision ≠ s.target
  rolling_ready : Rolling s → ds.countP (isReady · s.policy.minReadySecs) ≤
    readyCount s - (s.desired.toNat - s.policy.maxUnavailable.toNat)

theorem liveCount_eq (s : State) : liveCount s = (live s).length := List.countP_eq_length_filter

theorem mem_old {s : State} {r : Replica} :
    r ∈ old s ↔ (r ∈ s.replicas ∧ isLive r = true) ∧ r.revision ≠ s.target := by
  simp only [old, live, List.mem_filter, bne_iff_ne]

theorem mem_new {s : State} {r : Replica} :
    r ∈ new s ↔ (r ∈ s.replicas ∧ isLive r = true) ∧ r.revision = s.target := by
  simp only [new, live, List.mem_filter, beq_iff_eq]

theorem rolling_iff (s : State) : rolling s = true ↔ Rolling s := by
  simp only [rolling, Bool.not_eq_true', List.isEmpty_eq_false_iff_exists_mem, mem_old, Rolling]
  constructor
  · rintro ⟨r, ⟨hr, hl⟩, hne⟩
    exact ⟨r, hr, hl, hne⟩
  · rintro ⟨r, hr, hl, hne⟩
    exact ⟨r, ⟨hr, hl⟩, hne⟩

theorem new_eq_live {s : State} (h : ¬ Rolling s) : new s = live s := by
  rw [new, List.filter_eq_self]
  intro r hr
  rw [live, List.mem_filter] at hr
  by_contra hne
  exact h ⟨r, hr.1, hr.2, by simpa using hne⟩

theorem new_length_le (s : State) : (new s).length ≤ (live s).length :=
  List.length_filter_le _ _

theorem live_length_le (s : State) : (live s).length ≤ s.replicas.length :=
  List.length_filter_le _ _

/-- The `u32` count of a list of replicas is exact unless every index is taken. -/
theorem count_toNat {s : State} (hd : DistinctIndexes s) {l : List Replica}
    (hl : l.length ≤ s.replicas.length) (hne : s.replicas.length ≠ 2 ^ 32) :
    (UInt32.ofNat l.length).toNat = l.length := by
  have := replicas_length_le hd
  exact UInt32.toNat_ofNat_of_lt' (by change l.length < 2 ^ 32; omega)

section Shape
variable {s : State} (hb : s.desired.toNat + s.policy.maxSurge.toNat < 2 ^ 32)
  (hd : DistinctIndexes s)

theorem plan_nil (s : State) : Plan s [] [] where
  drains_live := by simp
  starts_free := by simp
  starts_nodup := List.nodup_nil
  live_le := by simp
  rolling_old := by simp
  rolling_ready := by simp

/-- Scaling down: the victims are live, and nothing is started. -/
theorem plan_scaleDown (hr : ¬ Rolling s) (k : ℕ) :
    Plan s (((new s).insertionSort idler).take k) [] where
  drains_live := by
    intro r hm
    have hm := (List.perm_insertionSort idler (new s)).mem_iff.mp (List.mem_of_mem_take hm)
    exact (mem_new.mp hm).1
  starts_free := by simp
  starts_nodup := List.nodup_nil
  live_le := by simp
  rolling_old := fun h => absurd h hr
  rolling_ready := fun h => absurd h hr

include hb in
theorem freeIndexes_free {want : UInt32} {b : UInt32} (hle : b.toNat ≤ (bound s).toNat) :
    ∀ i ∈ freeIndexes s b want, i.toNat < s.desired.toNat + s.policy.maxSurge.toNat ∧
      ∀ r ∈ s.replicas, r.index ≠ i := by
  intro i hi
  obtain ⟨hlt, hfree⟩ := mem_freeIndexes hi
  rw [bound_toNat hb] at hle
  exact ⟨by omega, hfree⟩

include hb hd in
/-- Replacing what is missing: no more starts than missing replicas, all of them live replicas of
the target. -/
theorem plan_replace (hr : ¬ Rolling s) :
    Plan s [] (freeIndexes s (max (bound s) s.desired) (missingNew s)) where
  drains_live := by simp
  starts_free := freeIndexes_free hb (by rw [max_toNat, bound_toNat hb]; omega)
  starts_nodup := freeIndexes_nodup _ _ _
  live_le := by
    by_cases hfull : s.replicas.length = 2 ^ 32
    · simp [freeIndexes_full hd hfull]
    · have hlen := freeIndexes_length_le s (max (bound s) s.desired) (missingNew s)
      have hcount : (UInt32.ofNat (new s).length).toNat = (new s).length :=
        count_toNat hd ((new_length_le s).trans (live_length_le s)) hfull
      have hmiss : (missingNew s).toNat = s.desired.toNat - (live s).length := by
        rw [missingNew, satSub_toNat, hcount, new_eq_live hr]
      rw [liveCount_eq]
      omega
  rolling_old := fun h => absurd h hr
  rolling_ready := fun h => absurd h hr

theorem victims_mem {r : Replica} (h : r ∈ victims s) : r ∈ old s := by
  rw [victims, List.mem_append, drainReady_eq_take] at h
  rcases h with h | h
  · exact (List.mem_filter.mp h).1
  · have h := (List.perm_insertionSort higher _).mem_iff.mp (List.mem_of_mem_take h)
    exact (List.mem_filter.mp h).1

theorem available_toNat_le (s : State) : (available s).toNat ≤ readyCount s := by
  have hle : ((live s).filter (isReady · s.policy.minReadySecs)).length ≤ readyCount s := by
    rw [← List.countP_eq_length_filter, live, List.countP_filter]
    exact List.countP_mono_left fun r _ h => by simp only [Bool.and_eq_true] at h; exact h.1
  exact (UInt32.toNat_ofNat' ▸ Nat.mod_le _ _ : (available s).toNat ≤ _).trans hle

/-- The ready replicas among the victims are those of the loop, one per unit of `allowed`. -/
theorem victims_ready_le (s : State) :
    (victims s).countP (isReady · s.policy.minReadySecs) ≤
      readyCount s - (s.desired.toNat - s.policy.maxUnavailable.toNat) := by
  have hzero : ((old s).filter fun r => !isReady r s.policy.minReadySecs).countP
      (isReady · s.policy.minReadySecs) = 0 := by
    rw [List.countP_eq_zero]
    intro r hr
    have := (List.mem_filter.mp hr).2
    simpa using this
  rw [victims, List.countP_append, hzero, Nat.zero_add, drainReady_eq_take]
  refine (List.countP_le_length).trans ((List.length_take_le _ _).trans ?_)
  rw [satSub_toNat, required, satSub_toNat]
  have := available_toNat_le s
  omega

include hb hd in
/-- The starts of a rolling step fit into the room that the live replicas leave. -/
theorem plan_rolling : Plan s (victims s) (freeIndexes s (bound s) (canStart s)) where
  drains_live := fun r hr => (mem_old.mp (victims_mem hr)).1
  starts_free := freeIndexes_free hb (Nat.le_refl _)
  starts_nodup := freeIndexes_nodup _ _ _
  live_le := by
    by_cases hfull : s.replicas.length = 2 ^ 32
    · simp [freeIndexes_full hd hfull]
    · have hlen := freeIndexes_length_le s (bound s) (canStart s)
      have hcount : (UInt32.ofNat (live s).length).toNat = (live s).length :=
        count_toNat hd (live_length_le s) hfull
      have hcan : (canStart s).toNat ≤ s.desired.toNat + s.policy.maxSurge.toNat - (live s).length := by
        rw [canStart, min_toNat, satSub_toNat, hcount, bound_toNat hb]
        exact Nat.min_le_right _ _
      rw [liveCount_eq]
      omega
  rolling_old := fun _ r hr => (mem_old.mp (victims_mem hr)).2
  rolling_ready := fun _ => victims_ready_le s

theorem failure_signal (s : State) (reason : String) : (failure s reason).signal = true := by
  unfold failure
  split <;> rfl

include hb hd in
theorem steadyActions_shape (hr : ¬ Rolling s) :
    ∃ ds ss, steadyActions s = removals s ++ ds.map (.drain ·.index) ++ ss.map (.start · s.target) ∧
      Plan s ds ss := by
  unfold steadyActions
  simp only
  split
  · exact ⟨_, [], by rw [List.map_nil, List.append_nil], plan_scaleDown hr _⟩
  split
  · exact ⟨[], _, by rw [List.map_nil, List.append_nil], plan_replace hb hd hr⟩
  · exact ⟨[], [], by simp, plan_nil s⟩

include hb hd in
/-- **Everything a step can do.** With strategy `rolling` or `canary` a step either signals
(rollback, pause, completion) or removes drained replicas, drains and starts along a `Plan`. -/
theorem nextStep_shape (hs : s.policy.strategy ≠ .recreate) :
    (∀ a ∈ nextStep s, a.signal = true) ∨
      ∃ ds ss, nextStep s = removals s ++ ds.map (.drain ·.index) ++ ss.map (.start · s.target) ∧
        Plan s ds ss := by
  unfold nextStep
  split
  · exact Or.inl (by simp)
  split
  · split
    · exact Or.inl (by simp [failure_signal])
    split
    · exact Or.inl (by simp [failure_signal])
    split
    · exact Or.inl (by simp [Action.signal])
    rw [rollingStep]
    right
    split
    · exact ⟨[], [], by simp, plan_nil s⟩
    · exact ⟨_, _, rfl, plan_rolling hb hd⟩
  · rename_i hr
    have hr' : ¬ Rolling s := fun h => hr ((rolling_iff s).mpr h)
    unfold steadyStep
    simp only
    split
    · exact Or.inl (by simp [Action.signal])
    · exact Or.inr (steadyActions_shape hb hd hr')

end Shape

/-! ## Counting after a step -/

theorem isLive_of_isReady {r : Replica} {m : UInt64} (h : isReady r m = true) : isLive r = true := by
  rw [isReady, Bool.and_eq_true] at h
  exact h.1

theorem not_live_of_drained {s : State} {r : Replica} (h : drained s r = true) : isLive r = false := by
  unfold drained at h
  unfold isLive
  cases hl : r.lifecycle with
  | live =>
    rw [hl] at h
    cases h
  | draining _ => rfl

/-- A live replica keeps its place through the removals of a step. -/
theorem live_not_removed {s : State} (hd : DistinctIndexes s) {r : Replica} (hr : r ∈ s.replicas)
    (hl : isLive r = true) : r.index ∉ removedIndexes s := by
  intro hm
  obtain ⟨r', hr', he⟩ := List.mem_map.mp hm
  rw [List.mem_filter] at hr'
  have : r' = r := List.inj_on_of_nodup_map hd hr'.1 hr he
  rw [this] at hr'
  rw [not_live_of_drained hr'.2] at hl
  cases hl

theorem isLive_drainReplica (r : Replica) : isLive (drainReplica r) = false := rfl

theorem afterStep_live_le (s : State) (removed : List UInt32) (ds : List Replica) (ss : List UInt32) :
    (afterStep s removed ds ss).countP isLive ≤ liveCount s + ss.length := by
  rw [afterStep, List.countP_append, List.countP_map]
  have h1 : (s.replicas.filter fun r => decide (r.index ∉ removed)).countP
      (isLive ∘ fun r => if r.index ∈ ds.map Replica.index then drainReplica r else r) ≤ liveCount s := by
    refine le_trans (List.countP_mono_left (q := isLive) ?_) (List.Sublist.countP_le List.filter_sublist)
    intro r _ h
    simp only [Function.comp_apply] at h
    split at h
    · rw [isLive_drainReplica] at h
      cases h
    · exact h
  have h2 : (ss.map (fresh · s.target)).countP isLive ≤ ss.length := by
    simpa using List.countP_le_length (p := isLive) (l := ss.map (fresh · s.target))
  omega

/-- A step loses no more ready replicas than it drains. -/
theorem afterStep_ready_ge {s : State} (hd : DistinctIndexes s) {ds : List Replica}
    (hds : ds ⊆ s.replicas) (ss : List UInt32) :
    readyCount s - ds.countP (isReady · s.policy.minReadySecs) ≤
      (afterStep s (removedIndexes s) ds ss).countP (isReady · s.policy.minReadySecs) := by
  have hsplit := Distinct.countP_split (isReady · s.policy.minReadySecs)
    (fun r => decide (r.index ∈ ds.map Replica.index)) s.replicas
  have hhit := Distinct.countP_key_mem_le hd hds (isReady · s.policy.minReadySecs)
  have hkeep : s.replicas.countP
      (fun r => isReady r s.policy.minReadySecs && !decide (r.index ∈ ds.map Replica.index)) ≤
      (afterStep s (removedIndexes s) ds ss).countP (isReady · s.policy.minReadySecs) := by
    rw [afterStep, List.countP_append, List.countP_map, List.countP_filter]
    refine le_trans (List.countP_mono_left ?_) (Nat.le_add_right _ _)
    intro r hr h
    simp only [Bool.and_eq_true, Bool.not_eq_true', decide_eq_false_iff_not] at h
    have hrem := live_not_removed hd hr (isLive_of_isReady h.1)
    simp only [Function.comp_apply, if_neg h.2, Bool.and_eq_true, decide_eq_true_eq]
    exact ⟨h.1, hrem⟩
  unfold readyCount
  omega

theorem afterStep_distinct {s : State} (hd : DistinctIndexes s) (removed : List UInt32)
    (ds : List Replica) {ss : List UInt32} (hss : ss.Nodup)
    (hfree : ∀ i ∈ ss, ∀ r ∈ s.replicas, r.index ≠ i) :
    ((afterStep s removed ds ss).map Replica.index).Nodup := by
  have hmap : (afterStep s removed ds ss).map Replica.index =
      ((s.replicas.filter fun r => decide (r.index ∉ removed)).map Replica.index) ++ ss := by
    rw [afterStep, List.map_append, List.map_map, List.map_map]
    congr 1
    · refine List.map_congr_left fun r _ => ?_
      simp only [Function.comp_apply]
      split <;> rfl
    · have : Replica.index ∘ (fun i => fresh i s.target) = id := by funext i; rfl
      rw [this, List.map_id]
  rw [hmap, List.nodup_append]
  refine ⟨(List.Sublist.map _ List.filter_sublist).nodup hd, hss, ?_⟩
  intro i hi j hj he
  obtain ⟨r, hr, rfl⟩ := List.mem_map.mp hi
  exact hfree j hj r (List.mem_filter.mp hr).1 he

/-! ## A signal step leaves the replicas alone -/

theorem applyAction_signal {s : State} {a : Action} (h : a.signal = true) :
    (applyAction s a).replicas = s.replicas ∧ (applyAction s a).desired = s.desired ∧
      (applyAction s a).policy = s.policy := by
  cases a <;> simp_all [Action.signal, applyAction]

theorem applyAll_signal {s : State} {as : List Action} (h : ∀ a ∈ as, a.signal = true) :
    (applyAll s as).replicas = s.replicas ∧ (applyAll s as).desired = s.desired ∧
      (applyAll s as).policy = s.policy := by
  induction as generalizing s with
  | nil => exact ⟨rfl, rfl, rfl⟩
  | cons a as ih =>
    obtain ⟨h1, h2, h3⟩ := applyAction_signal (s := s) (h a (List.mem_cons_self ..))
    obtain ⟨k1, k2, k3⟩ := ih (s := applyAction s a) fun b hb => h b (List.mem_cons_of_mem _ hb)
    rw [applyAll, List.foldl_cons, ← applyAll]
    exact ⟨k1.trans h1, k2.trans h2, k3.trans h3⟩

/-! ## The budget of a step, and of a run -/

/-- Strategy and bound under which the budget is promised. -/
structure Budgeted (s : State) : Prop where
  strategy : s.policy.strategy = .rolling ∨ s.policy.strategy = .canary
  fits : s.desired.toNat + s.policy.maxSurge.toNat < 2 ^ 32
  distinct : DistinctIndexes s

theorem Budgeted.not_recreate {s : State} (h : Budgeted s) : s.policy.strategy ≠ .recreate := by
  rcases h.strategy with e | e <;> rw [e] <;> decide

theorem startIndexes_plan (s : State) (ds : List Replica) (ss : List UInt32) :
    startIndexes (removals s ++ ds.map (.drain ·.index) ++ ss.map (.start · s.target)) = ss := by
  simp [startIndexes, removals, List.filterMap_append, List.filterMap_map]

theorem not_mem_signal {as : List Action} (h : ∀ a ∈ as, a.signal = true) {b : Action}
    (hb : b.signal = false) : b ∉ as := fun hm => by
  rw [h b hm] at hb
  cases hb

theorem startIndexes_signal {as : List Action} (h : ∀ a ∈ as, a.signal = true) :
    startIndexes as = [] := by
  rw [startIndexes, List.filterMap_eq_nil_iff]
  intro a ha
  have := h a ha
  cases a <;> simp_all [Action.signal]

theorem stepBudget_of_signal {s : State} (h : ∀ a ∈ nextStep s, a.signal = true) : StepBudget s := by
  obtain ⟨hr, -, hp⟩ := applyAll_signal (s := s) h
  refine ⟨?_, fun _ => ?_, fun _ i hi => ?_, fun i revision hi => ?_, ?_⟩
  · rw [liveCount, hr]
    exact Nat.le_max_left _ _
  · rw [readyCount, readyCount, hr, hp]
    exact Nat.min_le_left _ _
  · exact absurd hi (not_mem_signal h rfl)
  · exact absurd hi (not_mem_signal h rfl)
  · rw [startIndexes_signal h]
    exact List.nodup_nil

theorem mem_plan_drain {s : State} {ds : List Replica} {ss : List UInt32} {i : UInt32}
    (h : Action.drain i ∈ removals s ++ ds.map (.drain ·.index) ++ ss.map (.start · s.target)) :
    i ∈ ds.map Replica.index := by
  simp only [removals, List.mem_append, List.mem_map, Action.drain.injEq, reduceCtorEq, and_false,
    exists_false, or_false, false_or] at h
  obtain ⟨r, hr, rfl⟩ := h
  exact List.mem_map_of_mem hr

theorem mem_plan_start {s : State} {ds : List Replica} {ss : List UInt32} {i : UInt32}
    {revision : String}
    (h : Action.start i revision ∈ removals s ++ ds.map (.drain ·.index) ++ ss.map (.start · s.target)) :
    i ∈ ss ∧ revision = s.target := by
  simp only [removals, List.mem_append, List.mem_map, Action.start.injEq, reduceCtorEq, and_false,
    exists_false, false_or] at h
  obtain ⟨j, hj, rfl, rfl⟩ := h
  exact ⟨hj, rfl⟩

theorem stepBudget_of_plan {s : State} (hd : DistinctIndexes s) {ds : List Replica} {ss : List UInt32}
    (he : nextStep s = removals s ++ ds.map (.drain ·.index) ++ ss.map (.start · s.target))
    (hp : Plan s ds ss) : StepBudget s := by
  have hsub : ds ⊆ s.replicas := fun r hr => (hp.drains_live r hr).1
  have happ : applyAll s (nextStep s) =
      { s with replicas := afterStep s (removedIndexes s) ds ss } := by rw [he, applyAll_plan]
  refine ⟨?_, fun hr => ?_, fun hr i hi r hrm hri => ?_, fun i revision hi => ?_, ?_⟩
  · rw [happ]
    exact (afterStep_live_le s _ ds ss).trans hp.live_le
  · rw [happ]
    have h1 := afterStep_ready_ge hd hsub ss
    have h2 := hp.rolling_ready hr
    change _ ≤ (afterStep s (removedIndexes s) ds ss).countP (isReady · s.policy.minReadySecs)
    omega
  · rw [he] at hi
    have hk : r.index ∈ ds.map Replica.index := by rw [hri]; exact mem_plan_drain hi
    exact hp.rolling_old hr r (Distinct.mem_of_key_mem hd hsub hrm hk)
  · rw [he] at hi
    obtain ⟨hm, ht⟩ := mem_plan_start hi
    exact ⟨ht, hp.starts_free i hm⟩
  · rw [he, startIndexes_plan]
    exact hp.starts_nodup

/-- One step keeps its budget, and the indexes stay distinct. -/
theorem step_budget {s : State} (h : Budgeted s) :
    StepBudget s ∧ Budgeted (applyAll s (nextStep s)) := by
  rcases nextStep_shape h.fits h.distinct h.not_recreate with hsig | ⟨ds, ss, he, hp⟩
  · obtain ⟨hr, hd', hp⟩ := applyAll_signal (s := s) hsig
    refine ⟨stepBudget_of_signal hsig, ⟨?_, ?_, ?_⟩⟩
    · rw [hp]; exact h.strategy
    · rw [hp, hd']; exact h.fits
    · rw [DistinctIndexes, hr]; exact h.distinct
  · refine ⟨stepBudget_of_plan h.distinct he hp, ?_⟩
    rw [he, applyAll_plan]
    exact ⟨h.strategy, h.fits,
      afterStep_distinct h.distinct _ ds hp.starts_nodup fun i hi => (hp.starts_free i hi).2⟩

theorem map_index_of_same {l l' : List Replica} (h : List.Forall₂ SameReplica l l') :
    l'.map Replica.index = l.map Replica.index := by
  induction h with
  | nil => rfl
  | cons hr _ ih => rw [List.map_cons, List.map_cons, ih, hr.1]

theorem Changes.budgeted {s s' : State} (h : Changes s s') (hs : Budgeted s) : Budgeted s' := by
  obtain ⟨kept, ⟨kept', hperm, hsub⟩, hsame⟩ := h.replicas
  refine ⟨by rw [h.policy]; exact hs.strategy, by rw [h.policy, h.desired]; exact hs.fits, ?_⟩
  rw [DistinctIndexes, map_index_of_same hsame]
  exact (hperm.map Replica.index).nodup_iff.mp ((hsub.map Replica.index).nodup hs.distinct)

theorem Run.budgeted {s₀ s : State} (h₀ : Budgeted s₀) (h : Run s₀ s) : Budgeted s := by
  induction h with
  | init => exact h₀
  | step _ ih => exact (step_budget ih).2
  | change _ hc ih => exact hc.budgeted ih

/-- **Rolling updates keep their budget over whole runs.** In every state of every run that starts
with distinct indexes, the next step stays within the surge and availability budget, starts only
the target revision at free indexes below `desired + max_surge`, and keeps indexes distinct. -/
theorem run_keeps_budget {s₀ s : State}
    (hstrategy : s₀.policy.strategy = .rolling ∨ s₀.policy.strategy = .canary)
    (hfits : s₀.desired.toNat + s₀.policy.maxSurge.toNat < 2 ^ 32)
    (hdistinct : DistinctIndexes s₀) (hrun : Run s₀ s) :
    StepBudget s ∧ DistinctIndexes s ∧ DistinctIndexes (applyAll s (nextStep s)) := by
  have hs := hrun.budgeted ⟨hstrategy, hfits, hdistinct⟩
  exact ⟨(step_budget hs).1, hs.distinct, (step_budget hs).2.distinct⟩

/-- Three old replicas and the surged new one, all ready. -/
def surged : State where
  desired := 3
  target := "new"
  previous := some "old"
  policy := {}
  drainSecs := 30
  replicas := [⟨0, "old", .healthy 60, .live, false, 0⟩, ⟨1, "old", .healthy 60, .live, false, 0⟩,
    ⟨2, "old", .healthy 60, .live, false, 0⟩, ⟨3, "new", .healthy 60, .live, false, 0⟩]
  elapsedSecs := 0
  sinceLastActionSecs := 100
  paused := false

/-- The step that drains the old replica 2, and the state it leads to. -/
theorem surged_run_keeps_budget :
    nextStep surged = [.drain 2] ∧ StepBudget (applyAll surged (nextStep surged)) ∧
      DistinctIndexes (applyAll surged (nextStep surged)) := by
  have hfits : surged.desired.toNat + surged.policy.maxSurge.toNat < 2 ^ 32 := by decide
  have hdistinct : DistinctIndexes surged := by unfold DistinctIndexes; decide
  have h := run_keeps_budget (Or.inl rfl) hfits hdistinct (Run.step Run.init)
  exact ⟨by decide, h.1, h.2.1⟩

end Collocate.Rollout
