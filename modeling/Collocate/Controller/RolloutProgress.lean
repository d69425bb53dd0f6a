import Collocate.Controller.RolloutBudget

/-! # When a rollout stalls silently

`Settled` is a rollout with nothing left to wait for: no guard fires, nothing drains, every live
replica is ready and the delay has passed. There the planner should act or say why it cannot.
`nextStep_ne_nil_iff` gives the exact states in which it does: the only silent ones are the canary
rollout whose surge and unavailability are both zero and whose service is exactly at its size (the
guard that pauses such a rollout names `rolling` only), and a list with all `2^32` indexes taken,
where the `u32` count of live replicas wraps to zero. -/
namespace Collocate.Rollout
set_option autoImplicit false

/-! ## Settled rollouts -/

structure Settled (s : State) : Prop where
  unpaused : s.paused = false
  strategy : s.policy.strategy = .rolling ∨ s.policy.strategy = .canary
  fits : s.desired.toNat + s.policy.maxSurge.toNat < 2 ^ 32
  distinct : DistinctIndexes s
  rolling : Rolling s
  no_failure : ∀ r ∈ s.replicas, isLive r = true → r.revision = s.target → r.failed = false
  in_time : s.elapsedSecs ≤ s.policy.progressDeadlineSecs
  rested : s.policy.delaySecs ≤ s.sinceLastActionSecs
  no_draining : ∀ r ∈ s.replicas, isLive r = true
  ready : ∀ r ∈ s.replicas, isLive r = true → isReady r s.policy.minReadySecs = true

/-- The guard of `nextStep` that pauses a rollout which cannot move. -/
def ZeroBudget (s : State) : Prop := s.policy.maxSurge = 0 ∧ s.policy.maxUnavailable = 0

/-- The states in which a settled rollout acts: the guarded `rolling` rollout, and every other one
with a `u32` count that did not wrap and not a canary with a zero budget at its exact size. -/
def CanProgress (s : State) : Prop :=
  s.policy.strategy = .rolling ∧ ZeroBudget s ∨
    s.replicas.length < 2 ^ 32 ∧
      ¬ (s.policy.strategy = .canary ∧ ZeroBudget s ∧ s.replicas.length = s.desired.toNat)

/-! ## The step of a settled rollout -/

variable {s : State}

theorem Settled.live_eq (h : Settled s) : live s = s.replicas :=
  List.filter_eq_self.mpr h.no_draining

theorem Settled.removals_nil (h : Settled s) : removals s = [] := by
  rw [removals, List.map_eq_nil_iff, List.filter_eq_nil_iff]
  intro r hr hd
  have := h.no_draining r hr
  rw [not_live_of_drained hd] at this
  cases this

theorem Settled.unready_nil (h : Settled s) :
    (old s).filter (fun r => !isReady r s.policy.minReadySecs) = [] := by
  rw [List.filter_eq_nil_iff]
  intro r hr
  have hr' := (mem_old.mp hr).1
  rw [h.ready r hr'.1 hr'.2]
  decide

theorem Settled.available_eq (h : Settled s) : available s = UInt32.ofNat s.replicas.length := by
  rw [available, h.live_eq, List.filter_eq_self.mpr fun r hr => h.ready r hr (h.no_draining r hr)]

theorem Settled.ready_old (h : Settled s) :
    (old s).filter (isReady · s.policy.minReadySecs) = old s :=
  List.filter_eq_self.mpr fun r hr =>
    h.ready r (mem_old.mp hr).1.1 (mem_old.mp hr).1.2

theorem Settled.nextStep_eq (h : Settled s) :
    nextStep s =
      if s.policy.strategy = .rolling ∧ s.policy.maxSurge = 0 ∧ s.policy.maxUnavailable = 0 then
        [.pause "max_surge and max_unavailable cannot both be zero"]
      else (victims s).map (fun r => .drain r.index) ++
        (freeIndexes s (bound s) (canStart s)).map fun i => .start i s.target := by
  have hfail : ¬ (new s).any (·.failed) = true := by
    rw [List.any_eq_true]
    rintro ⟨r, hr, hf⟩
    have hm := mem_new.mp hr
    rw [h.no_failure r hm.1.1 hm.1.2 hm.2] at hf
    cases hf
  have hdead : ¬ s.policy.progressDeadlineSecs < s.elapsedSecs := by
    have := h.in_time
    rw [UInt64.le_iff_toNat_le] at this
    rw [UInt64.lt_iff_toNat_lt]
    omega
  have hdelay : ¬ s.sinceLastActionSecs < s.policy.delaySecs := by
    have := h.rested
    rw [UInt64.le_iff_toNat_le] at this
    rw [UInt64.lt_iff_toNat_lt]
    omega
  have hrec : s.policy.strategy ≠ .recreate := by
    rcases h.strategy with e | e <;> rw [e] <;> decide
  rw [nextStep, if_neg (by rw [h.unpaused]; decide), if_pos ((rolling_iff s).mpr h.rolling),
    if_neg hfail, if_neg hdead]
  split
  · rfl
  · rw [rollingStep, if_neg hdelay, h.removals_nil, List.nil_append]

/-! ## Drains and starts -/

theorem Settled.victims_eq (h : Settled s) :
    victims s = ((old s).insertionSort higher).take ((available s).toNat - (required s).toNat) := by
  rw [victims, h.unready_nil, List.nil_append, drainReady_eq_take, satSub_toNat, h.ready_old]

theorem Settled.old_pos (h : Settled s) : 0 < (old s).length := by
  obtain ⟨r, hr, hl, hne⟩ := h.rolling
  exact List.length_pos_of_mem (mem_old.mpr ⟨⟨hr, hl⟩, hne⟩)

theorem Settled.victims_nil_iff (h : Settled s) :
    victims s = [] ↔ (available s).toNat ≤ (required s).toNat := by
  rw [h.victims_eq, List.take_eq_nil_iff]
  have hlen : ((old s).insertionSort higher).length = (old s).length := List.length_insertionSort ..
  have := h.old_pos
  constructor
  · rintro (h0 | h0)
    · omega
    · rw [h0, List.length_nil] at hlen
      omega
  · intro hle
    exact Or.inl (by omega)

theorem old_new_length (s : State) : (old s).length + (new s).length = (live s).length := by
  have h := List.length_eq_length_filter_add (l := live s) fun r => r.revision != s.target
  have hnew : ((live s).filter fun r => !(r.revision != s.target)) = new s := by
    refine List.filter_congr fun r _ => ?_
    rw [bne, Bool.not_not]
  rw [hnew] at h
  exact h.symm

section Below
variable (h : Settled s) (hlt : s.replicas.length < 2 ^ 32)
include h hlt

theorem Settled.count_below : (UInt32.ofNat s.replicas.length).toNat = s.replicas.length :=
  count_toNat h.distinct (Nat.le_refl _) (Nat.ne_of_lt hlt)

theorem Settled.canStart_pos (hno : victims s = [])
    (hroom : s.replicas.length < s.desired.toNat + s.policy.maxSurge.toNat) :
    0 < (canStart s).toNat := by
  have hav := h.victims_nil_iff.mp hno
  rw [h.available_eq, h.count_below hlt, required, satSub_toNat] at hav
  have hnew : (UInt32.ofNat (new s).length).toNat = (new s).length :=
    count_toNat h.distinct ((new_length_le s).trans (live_length_le s)) (Nat.ne_of_lt hlt)
  have hsum := old_new_length s
  rw [h.live_eq] at hsum
  have hpos := h.old_pos
  rw [canStart, min_toNat, missingNew, satSub_toNat, satSub_toNat, hnew, bound_toNat h.fits,
    h.live_eq, h.count_below hlt]
  omega

/-- Without a victim, something is started exactly when the surge leaves room. -/
theorem Settled.starts_nil_iff (hno : victims s = []) :
    freeIndexes s (bound s) (canStart s) = [] ↔
      s.desired.toNat + s.policy.maxSurge.toNat ≤ s.replicas.length := by
  constructor
  · intro hnil
    by_contra hc
    refine freeIndexes_ne_nil ?_ (h.canStart_pos hlt hno (by omega)) hnil
    rw [bound_toNat h.fits]
    omega
  · intro hle
    have hlen := freeIndexes_length_le s (bound s) (canStart s)
    have hzero : (canStart s).toNat = 0 := by
      rw [canStart, min_toNat, satSub_toNat, bound_toNat h.fits, h.live_eq, h.count_below hlt]
      omega
    rw [hzero] at hlen
    exact List.eq_nil_of_length_eq_zero (by omega)

/-- Neither a drain nor a start: the budget is zero and the service is at its size. -/
theorem Settled.idle_iff :
    (victims s).map (fun r => Action.drain r.index) ++
        (freeIndexes s (bound s) (canStart s)).map (fun i => Action.start i s.target) = [] ↔
      ZeroBudget s ∧ s.replicas.length = s.desired.toNat := by
  rw [List.append_eq_nil_iff, List.map_eq_nil_iff, List.map_eq_nil_iff]
  have hzero : ∀ x : UInt32, x = 0 ↔ x.toNat = 0 := fun x =>
    ⟨fun e => by rw [e]; rfl, fun e => UInt32.toNat_inj.mp e⟩
  have hpos : 0 < s.replicas.length := by
    obtain ⟨r, hr, -⟩ := h.rolling
    exact List.length_pos_of_mem hr
  have hv := h.victims_nil_iff
  rw [h.available_eq, h.count_below hlt, required, satSub_toNat] at hv
  constructor
  · rintro ⟨hno, hnone⟩
    have h1 := hv.mp hno
    have h2 := (h.starts_nil_iff hlt hno).mp hnone
    exact ⟨⟨(hzero _).mpr (by omega), (hzero _).mpr (by omega)⟩, by omega⟩
  · rintro ⟨⟨hs, hu⟩, hlen⟩
    have hs' := (hzero _).mp hs
    have hu' := (hzero _).mp hu
    have hno := hv.mpr (by omega)
    exact ⟨hno, (h.starts_nil_iff hlt hno).mpr (by omega)⟩

end Below

/-- With every index taken the wrapped count makes the planner see no replica at all. -/
theorem Settled.idle_of_full (h : Settled s) (hfull : s.replicas.length = 2 ^ 32) :
    (victims s).map (fun r => Action.drain r.index) ++
      (freeIndexes s (bound s) (canStart s)).map (fun i => Action.start i s.target) = [] := by
  have hno : victims s = [] := by
    rw [h.victims_nil_iff, h.available_eq, hfull]
    exact Nat.zero_le _
  rw [hno, freeIndexes_full h.distinct hfull]
  rfl

/-- **A settled rollout acts exactly when it can progress.** -/
theorem nextStep_ne_nil_iff (h : Settled s) : nextStep s ≠ [] ↔ CanProgress s := by
  rw [h.nextStep_eq, CanProgress]
  split
  · rename_i hz
    exact ⟨fun _ => Or.inl hz, fun _ => List.cons_ne_nil _ _⟩
  · rename_i hz
    rcases Nat.lt_or_ge s.replicas.length (2 ^ 32) with hlt | hge
    · rw [ne_eq, h.idle_iff hlt]
      constructor
      · intro hidle
        exact Or.inr ⟨hlt, fun hc => hidle hc.2⟩
      · rintro (hc | ⟨-, hc⟩) hidle
        · exact hz hc
        · rcases h.strategy with e | e
          · exact hz ⟨e, hidle.1⟩
          · exact hc ⟨e, hidle⟩
    · have hfull := Nat.le_antisymm (replicas_length_le h.distinct) hge
      constructor
      · exact fun hne => absurd (h.idle_of_full hfull) hne
      · rintro (hc | ⟨hlt, -⟩)
        · exact absurd hc hz
        · omega

/-! ## Both sides of the condition -/

/-- One ready replica of the old revision in a service of size one. -/
def soloRollout (strategy : Strategy) (maxSurge : UInt32) : State where
  desired := 1
  target := "new"
  previous := some "old"
  policy := { strategy := strategy, maxSurge := maxSurge, maxUnavailable := 0 }
  drainSecs := 0
  replicas := [⟨0, "old", .healthy 60, .live, false, 0⟩]
  elapsedSecs := 0
  sinceLastActionSecs := 5
  paused := false

theorem solo_settled (strategy : Strategy) (hs : strategy = .rolling ∨ strategy = .canary)
    (maxSurge : UInt32) (hm : maxSurge.toNat < 100) : Settled (soloRollout strategy maxSurge) where
  unpaused := rfl
  strategy := hs
  fits := by
    change 1 + maxSurge.toNat < 2 ^ 32
    omega
  distinct := List.nodup_singleton _
  rolling := ⟨⟨0, "old", .healthy 60, .live, false, 0⟩, List.mem_singleton.mpr rfl, rfl,
    by change "old" ≠ "new"; decide⟩
  no_failure := by
    intro r hr _ _
    rw [List.mem_singleton.mp hr]
  in_time := by change (0 : UInt64) ≤ 600; decide
  rested := by change (5 : UInt64) ≤ 5; decide
  no_draining := by
    intro r hr
    rw [List.mem_singleton.mp hr]
    rfl
  ready := by
    intro r hr _
    rw [List.mem_singleton.mp hr]
    change isReady ⟨0, "old", .healthy 60, .live, false, 0⟩ 10 = true
    decide

/-- A canary with a surge of one starts the new replica. -/
theorem solo_canary_progress :
    CanProgress (soloRollout .canary 1) ∧ nextStep (soloRollout .canary 1) ≠ [] := by
  have hp : CanProgress (soloRollout .canary 1) :=
    Or.inr ⟨by decide, fun h => absurd h.2.1.1 (by decide)⟩
  exact ⟨hp, (nextStep_ne_nil_iff (solo_settled .canary (Or.inr rfl) 1 (by decide))).mpr hp⟩

/-- With a zero budget the canary returns no action, not even a pause. -/
theorem canary_stalls_silently : ¬ ∀ s : State, Settled s → nextStep s ≠ [] := by
  intro hall
  exact hall (soloRollout .canary 0) (solo_settled .canary (Or.inr rfl) 0 (by decide)) (by decide)

end Collocate.Rollout
