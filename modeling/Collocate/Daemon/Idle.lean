import Collocate.Daemon.Books
import Collocate.Daemon.Moves

/-! # Idle containers

Every live container with an idle timeout has a task on the schedule that is not too early for its last
activity, and the timer reaps it when such a task is due, but never before its time. -/
namespace Collocate.Daemon
set_option autoImplicit false

/-! ## Activities -/

/-- The mark is of an activity of the container. -/
def activeAt (id : ContainerId) : Mark → Option Instant
  | .active id' at' => if id' = id then some at' else none
  | _ => none

/-- When the container was last launched, adopted or entered by a command. -/
def lastActive (id : ContainerId) (marks : List Mark) : Option Instant := (marks.filterMap (activeAt id)).getLast?

theorem lastActive_concat (id : ContainerId) (marks : List Mark) (m : Mark) :
    lastActive id (marks ++ [m]) = ((activeAt id m).orElse fun _ => lastActive id marks) := by
  unfold lastActive
  rw [List.filterMap_append]
  cases hm : activeAt id m with
  | none => simp [hm]
  | some at' => simp [hm]

theorem lastActive_other {id : ContainerId} {marks : List Mark} {m : Mark} (h : activeAt id m = none) :
    lastActive id (marks ++ [m]) = lastActive id marks := by
  rw [lastActive_concat, h]
  rfl

/-- Every reaping came late enough after the last activity before it. -/
def ReapedLate (marks : List Mark) : Prop :=
  ∀ pre id idleSecs now post, marks = pre ++ .reaped id idleSecs now :: post →
    ∃ since, lastActive id pre = some since ∧ since + secs (max idleSecs 1) ≤ now

theorem ReapedLate.concat {marks : List Mark} {m : Mark} (h : ReapedLate marks)
    (hm : ∀ id idleSecs now, m = .reaped id idleSecs now →
      ∃ since, lastActive id marks = some since ∧ since + secs (max idleSecs 1) ≤ now) : ReapedLate (marks ++ [m]) := by
  intro pre id idleSecs now post heq
  obtain ⟨rfl, hlast, rfl⟩ | ⟨rest, rfl, hmarks⟩ := concat_eq_append_cons heq
  · exact hm id idleSecs now hlast.symm
  · exact h pre id idleSecs now rest hmarks

/-! ## What lasts -/

/-- The container has a task that comes late enough, on the schedule or among those the timer is at. -/
def Watched (schedule : List (Instant × Task)) (due : List Task) (timer : Instant) (id : ContainerId) (v : Vital) :
    Prop :=
  ∀ t, v.spec.idleTimeoutSecs = some t →
    (∃ time, (time, Task.reapIdle id) ∈ schedule ∧ v.lastActivity + secs (max t 1) ≤ time) ∨
      (Task.reapIdle id ∈ due ∧ v.lastActivity + secs (max t 1) ≤ timer)

/-- The last activity of the container is on record. -/
def Active (marks : List Mark) (id : ContainerId) (v : Vital) : Prop := lastActive id marks = some v.lastActivity

structure Attended (c : Vitals) : Prop where
  watched : Throughout (Watched c.schedule c.due c.timer) c.live
  active : Throughout (Active c.marks) c.live
  reaped : ReapedLate c.marks

section Attended
variable {schedule later : List (Instant × Task)} {due : List Task} {timer : Instant} {id : ContainerId} {v : Vital}
  {live : OrdMap ContainerId Vital} {marks : List Mark}

theorem Watched.append (h : Watched schedule due timer id v) (later : List (Instant × Task)) :
    Watched (schedule ++ later) due timer id v := fun t ht =>
  (h t ht).imp_left fun ⟨time, hmem, hlate⟩ => ⟨time, List.mem_append_left _ hmem, hlate⟩

theorem Throughout.append (h : Throughout (Watched schedule due timer) live) (later : List (Instant × Task)) :
    Throughout (Watched (schedule ++ later) due timer) live := fun id v hv => (h id v hv).append later

/-- An activity is watched by the task it puts on the schedule. -/
theorem Rests.watched (h : Rests True id v.spec.idleTimeoutSecs v.lastActivity later) :
    Watched (schedule ++ later) due timer id v := by
  intro t ht
  rw [ht] at h
  obtain ⟨time, rfl, hlate⟩ := h
  exact .inl ⟨time, List.mem_append_right _ (List.mem_singleton.mpr rfl), hlate trivial⟩

theorem secs_pos (t : UInt64) : 0 < secs (max t 1) := by
  show 0 < (if t ≤ 1 then 1 else t : UInt64).toNat * 10 ^ 9
  split
  · decide
  · rename_i hmany
    rw [UInt64.not_le, UInt64.lt_iff_toNat_lt] at hmany
    exact Nat.mul_pos (Nat.zero_lt_of_lt hmany) (by decide)

theorem Throughout.other {m : Mark} (h : Throughout (Active marks) live) (hm : ∀ id, activeAt id m = none) :
    Throughout (Active (marks ++ [m])) live :=
  fun id v hv => (lastActive_other (hm id)).trans (h id v hv)

theorem idle_le {since now idle : ℕ} (h : since + idle ≤ now) : idle ≤ now - since := by omega

theorem since_le {since now idle : ℕ} (hpos : 0 < idle) (h : idle ≤ now - since) : since + idle ≤ now := by omega

/-- An activity goes on record. -/
theorem Throughout.active (h : Throughout (Active marks) live) (id : ContainerId) (v : Vital) :
    Throughout (Active (marks ++ [.active id v.lastActivity])) (live.insert id v) := by
  intro id' v' hv'
  unfold Active
  rw [lastActive_concat]
  rw [OrdMap.get?_insert] at hv'
  by_cases hid : id' = id
  · rw [if_pos hid] at hv'
    cases hv'
    simp [activeAt, hid]
  · rw [if_neg hid] at hv'
    have hbefore : lastActive id' marks = some v'.lastActivity := h id' v' hv'
    simpa [activeAt, Ne.symm hid] using hbefore

end Attended

theorem attended_lasts : Lasts True Attended where
  moved c c' h hc := by
    cases h with
    | stop hlive =>
      have hwatched : Watched _ _ _ _ _ := hc.watched _ _ hlive
      have hactive : Active _ _ _ := hc.active _ _ hlive
      exact ⟨hc.watched.insert hwatched, hc.active.insert hactive, hc.reaped⟩
    | pardoned => exact ⟨hc.watched, hc.active, hc.reaped⟩
    | entered hv hlater =>
      exact ⟨(hc.watched.append _).insert hlater.watched, hc.active.active _ _, hc.reaped.concat nofun⟩
    | used hlive hlater =>
      refine ⟨(hc.watched.append _).insert (Rests.watched ?_), hc.active.active _ _, hc.reaped.concat nofun⟩
      exact hlater
    | probed hlive ht ok =>
      have hwatched : Watched _ _ _ _ _ := hc.watched _ _ hlive
      have hactive : Active _ _ _ := hc.active _ _ hlive
      exact ⟨hc.watched.insert hwatched, hc.active.insert hactive, hc.reaped⟩
    | restarting hlive hrestart time =>
      refine ⟨(hc.watched.append _).erase _, ?_, (hc.reaped.concat fun _ _ _ h => (by cases h)).concat fun _ _ _ h =>
        by cases h⟩
      exact ((hc.active.other fun _ => rfl).other fun _ => rfl).erase _
    | ended hlive long hlater =>
      refine ⟨(hc.watched.append _).erase _, ?_, hc.reaped.concat nofun⟩
      exact (hc.active.other fun _ => rfl).erase _
    | @reaped _ _ idleSecs hlive hidle hdue =>
      refine ⟨hc.watched, hc.active.other fun _ => rfl, hc.reaped.concat fun id t now heq => ?_⟩
      cases heq
      exact ⟨_, hc.active _ _ hlive, since_le (secs_pos idleSecs) hdue⟩
  fired c now hdue hc := by
    refine ⟨fun id v hv t ht => ?_, hc.active, hc.reaped⟩
    obtain ⟨time, hmem, hlate⟩ | ⟨hnone, -⟩ := hc.watched id v hv t ht
    · by_cases hnow : time ≤ now
      · refine .inr ⟨List.mem_map_of_mem (List.mem_filter.mpr ⟨hmem, decide_eq_true hnow⟩), ?_⟩
        exact Nat.le_trans hlate hnow
      · refine .inl ⟨time, List.mem_filter.mpr ⟨hmem, ?_⟩, hlate⟩
        rw [Bool.not_eq_true']
        exact decide_eq_false hnow
    · rw [hdue] at hnone
      cases hnone
  relaunched c id rest hdue hc := by
    refine ⟨fun id' v hv t ht => ?_, hc.active.other fun _ => rfl, hc.reaped.concat nofun⟩
    refine (hc.watched id' v hv t ht).imp_right fun ⟨hmem, hlate⟩ => ⟨?_, hlate⟩
    rw [hdue] at hmem
    exact (List.mem_cons.mp hmem).resolve_left nofun
  dropped c task rest hdue hspared hc := by
    refine ⟨fun id v hv t ht => ?_, hc.active, hc.reaped⟩
    obtain hlater | ⟨hmem, hlate⟩ := hc.watched id v hv t ht
    · exact .inl hlater
    · rw [hdue] at hmem
      obtain htask | hmem := List.mem_cons.mp hmem
      · -- The task that is used up finds the container idle.
        refine absurd ⟨v, t, hv, ht, ?_⟩ (hspared id htask.symm)
        exact idle_le hlate
      · exact .inr ⟨hmem, hlate⟩

/-! ## Reaping -/

section Reaping
variable {σ : Type} {w : World σ}

theorem overlooks_store (w : World σ) : Overlooks w State.store where
  now _ := rfl
  act _ _ _ := rfl
  lowers _ _ := rfl
  spawn _ _ := rfl
  wait _ _ := rfl
  stats _ _ := rfl
  serve _ _ _ := rfl
  token _ _ := rfl
  conns _ _ := rfl
  fuseProcs _ _ := rfl
  probes _ _ := rfl

/-- Nothing is stored of the container. -/
def Gone (id : ContainerId) (s : SpecStore) : Prop := s.get? id = none

theorem storeRemove_clears {id : ContainerId} (hremove : ∀ s, (w.write (.remove id) s).1.applied = true) :
    Leads State.store (fun _ => True) (Gone id) (storeRemove w id) := by
  have herased (d : State σ) : Gone id (d.store.erase id) := by
    unfold Gone
    rw [SpecStore.get?_erase, if_pos rfl]
  refine Leads.get_bind fun d _ => ?_
  split
  · intro d' _
    have hask : ask (w.write (.remove id)) d' =
        (.ok (w.write (.remove id) d'.outer).1, { d' with outer := (w.write (.remove id) d'.outer).2 }) := rfl
    have happlied := hremove d'.outer
    unfold storeWrite
    rw [Eff.bind_of_ok hask]
    rcases hr : (w.write (.remove id) d'.outer).1 with _ | ⟨e, _ | _⟩
    · exact herased d'
    · rw [hr] at happlied
      cases happlied
    · exact herased d'
  · rename_i hmissing
    refine Leads.throw _ fun s hs => ?_
    rw [hs]
    simpa [SpecStore.contains, OrdMap.contains, SpecStore.get?, Gone] using hmissing

theorem purge_clears {id : ContainerId} (hremove : ∀ s, (w.write (.remove id) s).1.applied = true) :
    Leads State.store (fun _ => True) (Gone id) (purge w id) := by
  have ho := overlooks_store w
  refine (storeRemove_clears hremove).bind fun _ => Leads.bind_silent (silent_tryAct ho _ rfl) fun _ => ?_
  exact Leads.modify_bind (Q := Gone id) (fun _ h => h) fun _ => (silent_removeRuntimeDirs ho id).quiet _

/-- A container that is reaped is not live any more, and where its removal takes effect it is gone. -/
theorem reapIdle_ends (w : World σ) (id : ContainerId) (d : State σ) :
    (reapIdle w id d).2.live.get? id = none ∧
      ((∀ s, (w.write (.remove id) s).1.applied = true) → (reapIdle w id d).2.store.get? id = none) := by
  have hstays : Stays False fun _ => True := fun _ _ _ _ => trivial
  constructor
  · have hover := (Leads.of_sure (reapIdle_moves (w := w) hstays id)).apply (d := d) trivial
    have hnone : (reapIdle w id d).2.vitals.live.get? id = none := hover.2
    rw [vitals_live] at hnone
    exact Option.map_eq_none_iff.mp hnone
  · intro hremove
    have hpurge : Leads State.store (fun _ => True) (Gone id) (Eff.attempt (purge w id) >>= fun _ => pure ()) :=
      Leads.bind_sure (purge_clears hremove).attempt fun _ => Leads.pure _ fun _ h => h
    have hend : Leads State.store (fun _ => True) (Gone id) (reapIdle w id) := by
      refine Leads.get_bind fun d _ => Leads.pre (P := fun _ => True) (Leads.ite ?_ hpurge) fun _ _ => trivial
      refine Leads.bind_silent (silent_tryAct (overlooks_store w) _ rfl) fun _ => ?_
      have hreap := reapBlocking_moves (w := w) hstays id
      have hsure : Surely State.store (fun _ => True) (fun _ => True) (reapBlocking w id) :=
        Eff.Triple.conseq hreap (fun _ _ => trivial) (fun _ _ _ => trivial) fun _ _ h => h
      exact Leads.bind_sure hsure fun _ => hpurge
    exact hend.apply trivial

theorem any_live {live : OrdMap ContainerId Live} {id : ContainerId} {l : Live} {idleSecs : UInt64}
    {p : Live → UInt64 → Bool} (hl : live.get? id = some l) (hidle : l.spec.idleTimeoutSecs = some idleSecs) :
    ((live.get? id).any fun l => l.spec.idleTimeoutSecs.any (p l)) = p l idleSecs := by
  rw [hl, Option.any_some, hidle, Option.any_some]

/-- The task finds a container idle and reaps it. -/
theorem runTask_reaps (w : World σ) {id : ContainerId} {d : State σ} {l : Live} {idleSecs : UInt64} {now : Instant}
    (hl : d.live.get? id = some l) (hidle : l.spec.idleTimeoutSecs = some idleSecs)
    (hdue : l.lastActivity + secs (max idleSecs 1) ≤ now) :
    (runTask w now (.reapIdle id) d).2.live.get? id = none ∧
      ((∀ s, (w.write (.remove id) s).1.applied = true) → (runTask w now (.reapIdle id) d).2.store.get? id = none) := by
  have hany : ((d.live.get? id).any fun l =>
      l.spec.idleTimeoutSecs.any fun t => decide (secs (max t 1) ≤ now - l.lastActivity)) = true := by
    have hlong := decide_eq_true (idle_le hdue)
    rw [← any_live (p := fun l t => decide (secs (max t 1) ≤ now - l.lastActivity)) hl hidle] at hlong
    exact hlong
  have hrun : runTask w now (.reapIdle id) d =
      reapIdle w id { d with marks := d.marks ++
        [.reaped id (((d.live.get? id).bind fun l => l.spec.idleTimeoutSecs).getD 0) now] } := by
    show (Eff.get >>= _ : Op σ Unit) d = _
    rw [Eff.get_bind_apply]
    refine (congrFun (if_pos hany) d).trans ?_
    exact Eff.bind_of_ok rfl _
  rw [hrun]
  exact reapIdle_ends w id _

end Reaping

/-! ## Runs -/

/-- In every state that a run reaches, each live container with an idle timeout has a task on the schedule
that is late enough for its last activity, and no container was reaped too early after its own. A task that
is used when the container has been idle for its time ends it, and removes it unless the removal fails. -/
theorem idle_reaped {σ : Type} (w : World σ) (hsteady : Steady w) (outer : σ) (cfg : DaemonSettings) (store : SpecStore)
    (rootMode : RootMode) (batches : List (List Event)) (events : List Event) :
    let d := (lifetime w batches events (boot w (blank outer cfg store rootMode)).2).2
    (∀ id l idleSecs, d.live.get? id = some l → l.spec.idleTimeoutSecs = some idleSecs →
      ∃ time, (time, Task.reapIdle id) ∈ d.schedule ∧ l.lastActivity + secs (max idleSecs 1) ≤ time) ∧
    (∀ pre id idleSecs now post, d.marks = pre ++ .reaped id idleSecs now :: post →
      ∃ since, lastActive id pre = some since ∧ since + secs (max idleSecs 1) ≤ now) ∧
    (∀ (d : State σ) id l idleSecs now, d.live.get? id = some l → l.spec.idleTimeoutSecs = some idleSecs →
      l.lastActivity + secs (max idleSecs 1) ≤ now →
      (runTask w now (.reapIdle id) d).2.live.get? id = none ∧
        ((∀ s, (w.write (.remove id) s).1.applied = true) → (runTask w now (.reapIdle id) d).2.store.get? id =
          none)) := by
  have hblank : Attended (blank outer cfg store rootMode).vitals :=
    ⟨fun _ _ h => (by cases h), fun _ _ h => (by cases h), fun pre _ _ _ _ h => (by cases pre <;> cases h)⟩
  obtain ⟨hattended, hdue⟩ := lifetime_rests (fun _ => hsteady) attended_lasts outer cfg store rootMode hblank batches
    events
  refine ⟨fun id l idleSecs hl hidle => ?_, hattended.reaped, fun d id l idleSecs now hl hidle hlong => ?_⟩
  · obtain hlater | ⟨hnone, -⟩ := hattended.watched id l.vital (vitals_live_get? hl) idleSecs hidle
    · exact hlater
    · rw [hdue] at hnone
      cases hnone
  · exact runTask_reaps w hl hidle hlong

/-- A web server that ends after a second without a command. -/
def idleSpec : Spec := { webSpec with restart := .always, idleTimeoutSecs := some 1 }

def idleRun (ticks : ℕ) : List (List Event) := [[.connect], [.request 101 (.run idleSpec)], List.replicate ticks .timer]

def idleState (w : World ℕ) (ticks : ℕ) : State ℕ :=
  (lifetime w (idleRun ticks) [] (boot w (blank 0 {} .empty .overlay)).2).2

theorem idle_web_reaped :
    (∃ l time, (idleState workingWorld 0).live.get? 7 = some l ∧
      (time, Task.reapIdle 7) ∈ (idleState workingWorld 0).schedule ∧ l.lastActivity + secs (max 1 1) ≤ time) ∧
    (∃ pre now post since, (idleState workingWorld 1).marks = pre ++ .reaped 7 1 now :: post ∧
      lastActive 7 pre = some since ∧ since + secs (max 1 1) ≤ now) := by
  have hsteady : Steady workingWorld := fun s => Nat.le_add_right s (secs 1)
  constructor
  · have hlive : ((idleState workingWorld 0).live.get? 7).map (fun l => l.spec.idleTimeoutSecs) = some (some 1) :=
      by decide +kernel
    obtain ⟨l, hl, hidle⟩ := Option.map_eq_some_iff.mp hlive
    unfold idleState at hl ⊢
    obtain ⟨time, hmem, hlate⟩ :=
      (idle_reaped workingWorld hsteady 0 {} .empty .overlay (idleRun 0) []).1 7 l 1 hl hidle
    exact ⟨l, time, hl, hmem, hlate⟩
  · have hmarks : (idleState workingWorld 1).marks = [.active 7 (secs 2)] ++ .reaped 7 1 (secs 4) ::
        [.ended 7 .always false false, .scheduled 7 .always] := by decide +kernel
    have hrun := hmarks
    unfold idleState at hrun
    obtain ⟨since, hsince, hlate⟩ := (idle_reaped workingWorld hsteady 0 {} .empty .overlay (idleRun 1) []).2.1 _ _ _ _
      _ hrun
    exact ⟨_, _, _, since, hmarks, hsince, hlate⟩

/-- The store cannot remove anything. -/
def stuckWorld : World ℕ := { workingWorld with
  write := fun change t => match change with
    | .remove _ => (.failed (.io "Read-only file system (os error 30)") false, t)
    | _ => workingWorld.write change t }

/-- A container that was reaped is still there and is launched again. -/
theorem idle_web_still_there :
    (∃ pre post, (idleState stuckWorld 1).marks = pre ++ .reaped 7 1 (secs 4) :: post ∧
      lastActive 7 pre = some (secs 2)) ∧
      (idleState stuckWorld 1).store.contains 7 = true ∧ (idleState stuckWorld 2).live.contains 7 = true := by
  refine ⟨⟨[.active 7 (secs 2)], [.ended 7 .always false false, .scheduled 7 .always], ?_, ?_⟩, ?_, ?_⟩
  all_goals decide +kernel

end Collocate.Daemon
