import Collocate.Controller.RolloutBudget

/-! # What a step may return

For every strategy: a step is either a list of removals, drains and starts, each about a replica of the
state or a free index, or one action on its own that reports a state of affairs. -/
namespace Collocate.Rollout
set_option autoImplicit false

/-- An action on one replica, with what the planner guarantees of it. -/
inductive Ordinary (s : State) : Action → Prop
  | remove (r : Replica) : r ∈ s.replicas → drained s r = true → Ordinary s (.remove r.index)
  | drain (r : Replica) : r ∈ s.replicas → isLive r = true → Ordinary s (.drain r.index)
  | start (i : UInt32) : i.toNat < (max (bound s) s.desired).toNat → (∀ r ∈ s.replicas, r.index ≠ i) →
      Ordinary s (.start i s.target)

variable {s : State}

theorem removals_ordinary : ∀ a ∈ removals s, Ordinary s a := by
  intro a ha
  simp only [removals, List.mem_map, List.mem_filter] at ha
  obtain ⟨r, ⟨hr, hd⟩, rfl⟩ := ha
  exact .remove r hr hd

theorem drains_ordinary {l : List Replica} (h : ∀ r ∈ l, r ∈ live s) :
    ∀ a ∈ l.map (fun r => Action.drain r.index), Ordinary s a := by
  intro a ha
  obtain ⟨r, hr, rfl⟩ := List.mem_map.mp ha
  have hl := List.mem_filter.mp (h r hr)
  exact .drain r hl.1 hl.2

theorem starts_ordinary {b want : UInt32} (hb : b.toNat ≤ (max (bound s) s.desired).toNat) :
    ∀ a ∈ (freeIndexes s b want).map (fun i => Action.start i s.target), Ordinary s a := by
  intro a ha
  obtain ⟨i, hi, rfl⟩ := List.mem_map.mp ha
  have hf := mem_freeIndexes hi
  exact .start i (Nat.lt_of_lt_of_le hf.1 hb) hf.2

theorem append_ordinary {l l' : List Action} (h : ∀ a ∈ l, Ordinary s a) (h' : ∀ a ∈ l', Ordinary s a) :
    ∀ a ∈ l ++ l', Ordinary s a := by
  intro a ha
  rcases List.mem_append.mp ha with ha | ha
  · exact h a ha
  · exact h' a ha

theorem nil_ordinary : ∀ a ∈ ([] : List Action), Ordinary s a := fun _ ha => absurd ha List.not_mem_nil

theorem bound_le_max : (bound s).toNat ≤ (max (bound s) s.desired).toNat := by
  rw [max_toNat]
  exact Nat.le_max_left _ _

theorem steadyActions_ordinary : ∀ a ∈ steadyActions s, Ordinary s a := by
  unfold steadyActions
  refine append_ordinary removals_ordinary ?_
  split
  · refine drains_ordinary fun r hr => ?_
    have hm := (List.perm_insertionSort idler (new s)).mem_iff.mp (List.mem_of_mem_take hr)
    exact (List.mem_filter.mp hm).1
  · split
    · exact starts_ordinary le_rfl
    · exact nil_ordinary

theorem recreateStep_ordinary : ∀ a ∈ recreateStep s, Ordinary s a := by
  unfold recreateStep
  split
  · exact nil_ordinary
  · exact append_ordinary removals_ordinary (drains_ordinary fun r hr => (List.mem_filter.mp hr).1)

theorem rollingStep_ordinary : ∀ a ∈ rollingStep s, Ordinary s a := by
  unfold rollingStep
  split
  · exact removals_ordinary
  · refine append_ordinary (append_ordinary removals_ordinary ?_) (starts_ordinary bound_le_max)
    exact drains_ordinary fun r hr => (List.mem_filter.mp (victims_mem hr)).1

/-- A step is ordinary, or it is one action that reports a failure, a pause or completion. -/
theorem nextStep_cases (s : State) :
    (∀ a ∈ nextStep s, Ordinary s a) ∨
      (∃ reason, nextStep s = [failure s reason]) ∨ (∃ reason, nextStep s = [.pause reason]) ∨
        nextStep s = [.complete] := by
  unfold nextStep
  split
  · exact Or.inl nil_ordinary
  · split
    · split
      · exact Or.inr (Or.inl ⟨_, rfl⟩)
      · split
        · exact Or.inr (Or.inl ⟨_, rfl⟩)
        · split
          · exact Or.inr (Or.inr (Or.inl ⟨_, rfl⟩))
          · split
            · exact Or.inl recreateStep_ordinary
            · exact Or.inl rollingStep_ordinary
    · unfold steadyStep
      simp only
      split
      · exact Or.inr (Or.inr (Or.inr rfl))
      · exact Or.inl steadyActions_ordinary

theorem failure_cases (s : State) (reason : String) :
    (∃ prev, s.previous = some prev ∧ failure s reason = .rollback prev) ∨ failure s reason = .pause reason := by
  unfold failure
  split
  · rename_i prev _ hp
    exact Or.inl ⟨prev, hp, rfl⟩
  · exact Or.inr rfl

/-- An action that is not ordinary is the whole step. -/
theorem ordinary_or_alone {a : Action} (h : a ∈ nextStep s) :
    Ordinary s a ∨ nextStep s = [a] ∧
      (a = .complete ∨ (∃ reason, a = .pause reason) ∨ ∃ prev, s.previous = some prev ∧ a = .rollback prev) := by
  rcases nextStep_cases s with ho | ⟨reason, hf⟩ | ⟨reason, hp⟩ | hc
  · exact Or.inl (ho a h)
  · rw [hf, List.mem_singleton] at h
    subst h
    refine Or.inr ⟨hf, ?_⟩
    rcases failure_cases s reason with ⟨prev, hprev, hf⟩ | hf
    · exact Or.inr (Or.inr ⟨prev, hprev, hf⟩)
    · exact Or.inr (Or.inl ⟨reason, hf⟩)
  · rw [hp, List.mem_singleton] at h
    exact Or.inr ⟨by rw [hp, h], Or.inr (Or.inl ⟨reason, h⟩)⟩
  · rw [hc, List.mem_singleton] at h
    exact Or.inr ⟨by rw [hc, h], Or.inl h⟩

theorem start_mem {i : UInt32} {revision : String} (h : .start i revision ∈ nextStep s) :
    revision = s.target ∧ i.toNat < (max (bound s) s.desired).toNat := by
  rcases ordinary_or_alone h with ho | ⟨-, h | ⟨_, h⟩ | ⟨_, _, h⟩⟩
  · cases ho with
    | start _ hi _ => exact ⟨rfl, hi⟩
  all_goals cases h

theorem drain_mem {i : UInt32} (h : .drain i ∈ nextStep s) : ∃ r ∈ s.replicas, r.index = i := by
  rcases ordinary_or_alone h with ho | ⟨-, h | ⟨_, h⟩ | ⟨_, _, h⟩⟩
  · cases ho with
    | drain r hr _ => exact ⟨r, hr, rfl⟩
  all_goals cases h

theorem remove_mem {i : UInt32} (h : .remove i ∈ nextStep s) : ∃ r ∈ s.replicas, r.index = i := by
  rcases ordinary_or_alone h with ho | ⟨-, h | ⟨_, h⟩ | ⟨_, _, h⟩⟩
  · cases ho with
    | remove r hr _ => exact ⟨r, hr, rfl⟩
  all_goals cases h

/-- A rollback goes to the previous revision and is the only action of its step. -/
theorem rollback_mem {revision : String} (h : .rollback revision ∈ nextStep s) :
    s.previous = some revision ∧ nextStep s = [.rollback revision] := by
  rcases ordinary_or_alone h with ho | ⟨hs, h | ⟨_, h⟩ | ⟨prev, hp, h⟩⟩
  · cases ho
  · cases h
  · cases h
  · cases h
    exact ⟨hp, hs⟩

/-- A failed new replica during a rollout is all the step is about. -/
theorem nextStep_of_failed (hp : s.paused = false) (hr : rolling s = true)
    (hf : (new s).any (·.failed) = true) : ∃ reason, nextStep s = [failure s reason] := by
  refine ⟨"new replica failed to become healthy", ?_⟩
  simp only [nextStep, hp, hr, hf, if_true, Bool.false_eq_true, if_false]

end Collocate.Rollout
