import Collocate.Controller.Runs

/-! # What a tick touches

A tick stops and removes only containers of the service whose turn it is. The removals of `observe` use
the listed names; a drain writes the name anew from the index, and finds the listed container as long as
the listed name is the one the controller gives to that index. The replica that stands for a crash loop
has no container and no action is ever taken on it. -/
namespace Collocate.Control
open Compose Autoscaler Rollout
set_option autoImplicit false

variable {σ : Type} {x : Extern} {fl : Floats} {o : Host σ}

/-! ## Listed and touched containers -/

/-- The answer to a service's `Ps`: the service, the project it asked for and the list. -/
def answered : Event → Option (String × String × List ContainerInfo)
  | .call (some svc) (.ps _ (some project)) (.ok (.containers list)) => some (svc, project, list)
  | _ => none

/-- The container a request stops or removes, with the service whose turn it is. -/
def touched : Event → Option (Option String × String)
  | .call turn (.stop target _) _ => some (turn, target)
  | .call turn (.rm target _ _) _ => some (turn, target)
  | _ => none

/-- A request to stop or remove names a container that was listed for the service before. -/
def Touches (before : List Event) (e : Event) : Prop :=
  ∀ t ∈ (touched e).toList, ∃ l ∈ before, ∃ p ∈ (answered l).toList, t.1 = some p.1 ∧
    ∃ info ∈ p.2.2, info.service = some p.1 ∧ info.name = t.2

/-- The listed running containers of the service that have an index have the name of that index. -/
def CanonicalAnswer (e : Event) : Prop :=
  ∀ p ∈ (answered e).toList, ∀ info ∈ p.2.2, info.service = some p.1 → info.state = .running →
    ∀ i ∈ (replicaIndex p.2.1 p.1 info.name).toList, info.name = s!"{p.2.1}-{p.1}-{i + 1}"

def Canonical (log : List Event) : Prop := ∀ e ∈ log, CanonicalAnswer e

instance (before : List Event) (e : Event) : Decidable (Touches before e) :=
  inferInstanceAs (Decidable (∀ t ∈ (touched e).toList, ∃ l ∈ before, ∃ p ∈ (answered l).toList, t.1 = some p.1 ∧
    ∃ info ∈ p.2.2, info.service = some p.1 ∧ info.name = t.2))

-- over the list, not over all numbers
instance (priority := high) decidableBAll (l : List UInt32) (P : UInt32 → Prop) [DecidablePred P] :
    Decidable (∀ i ∈ l, P i) :=
  List.decidableBAll P l

instance (e : Event) : Decidable (CanonicalAnswer e) :=
  inferInstanceAs (Decidable (∀ p ∈ (answered e).toList, ∀ info ∈ p.2.2, info.service = some p.1 →
    info.state = .running → ∀ i ∈ (replicaIndex p.2.1 p.1 info.name).toList, info.name = s!"{p.2.1}-{p.1}-{i + 1}"))

instance (log : List Event) : Decidable (Canonical log) := inferInstanceAs (Decidable (∀ e ∈ log, CanonicalAnswer e))

theorem touches_listed {before : List Event} {svc project : String} {list : List ContainerInfo} {info : ContainerInfo}
    (hl : listing svc project list ∈ before) (hi : info ∈ list) (hs : info.service = some svc) {e : Event}
    (he : touched e = some (some svc, info.name)) : Touches before e := by
  intro t ht
  rw [he, Option.toList_some, List.mem_singleton] at ht
  subst ht
  exact ⟨_, hl, (svc, project, list), List.mem_singleton_self _, rfl, info, hi, hs, rfl⟩

/-! ## The planner's input -/

theorem replicaIndex_lt {project svc name : String} {i : UInt32} (h : replicaIndex project svc name = some i) :
    i.toNat + 1 < 2 ^ 32 := by
  unfold replicaIndex at h
  obtain ⟨n, -, hn⟩ := Option.bind_eq_some_iff.mp h
  split at hn
  · cases hn
  · rename_i hne
    cases hn
    have hpos : n.toNat ≠ 0 := fun h0 => hne (UInt32.toNat.inj h0)
    have hlt := n.toNat_lt
    rw [UInt32.toNat_sub_of_le n 1 (UInt32.le_iff_toNat_le.mpr (by simp only [UInt32.toNat_one]; omega))]
    simp only [UInt32.toNat_one]
    omega

/-- The replica for a crash loop makes the planner report a failure and nothing else. -/
theorem nextStep_crashLoop {project svc : String} {list : List ContainerInfo} {seen : List Replica}
    {st : Rollout.State} (hst : st.replicas = seen ++ [crashLoop st.target])
    (hseen : ∀ r ∈ seen, SeenIn project svc list r) (hother : ∃ r ∈ seen, r.revision ≠ st.target)
    (hp : st.paused = false) : ∃ reason, nextStep st = [failure st reason] := by
  have hnew : crashLoop st.target ∈ new st := by
    simp only [new, live, List.mem_filter, hst, List.mem_append, List.mem_singleton]
    exact ⟨⟨Or.inr trivial, rfl⟩, beq_iff_eq.mpr rfl⟩
  obtain ⟨r, hr, hne⟩ := hother
  obtain ⟨_, _, _, _, _, hlive⟩ := hseen r hr
  have hold : r ∈ old st := by
    simp only [old, live, List.mem_filter, hst, List.mem_append]
    exact ⟨⟨Or.inl hr, by simp only [isLive, hlive]⟩, bne_iff_ne.mpr hne⟩
  have hrolling : rolling st = true := by
    rw [rolling, List.isEmpty_eq_false_iff_exists_mem.mpr ⟨r, hold⟩]
    rfl
  exact nextStep_of_failed hp hrolling (List.any_eq_true.mpr ⟨_, hnew, rfl⟩)

/-- The actions on replicas that the planner returns: one can be added to their indexes, and there are
none of them while the replica of a crash loop is there. -/
structure Harmless (st : Rollout.State) : Prop where
  index : ∀ i, (.drain i ∈ nextStep st ∨ .remove i ∈ nextStep st ∨ ∃ rev, .start i rev ∈ nextStep st) →
    i.toNat + 1 < 2 ^ 32
  idle : (∃ r ∈ st.replicas, r.index = (crashLoop st.target).index) →
    ∀ i, .drain i ∉ nextStep st ∧ .remove i ∉ nextStep st ∧ ∀ rev, .start i rev ∉ nextStep st

theorem failure_alone {st : Rollout.State} {reason : String} (h : nextStep st = [failure st reason]) (i : UInt32) :
    .drain i ∉ nextStep st ∧ .remove i ∉ nextStep st ∧ ∀ rev, .start i rev ∉ nextStep st := by
  rcases failure_cases st reason with ⟨prev, -, hf⟩ | hf <;> rw [h, hf] <;> simp

theorem harmless_of_observed {project svc : String} {list : List ContainerInfo} {st : Rollout.State}
    (h : ObservedIn project svc st.target list st.replicas) (hp : st.paused = false) : Harmless st := by
  have hstart : ∀ i rev, .start i rev ∈ nextStep st → i.toNat + 1 < 2 ^ 32 := by
    intro i rev hs
    have hlt := (start_mem hs).2
    have hmax := (max (bound st) st.desired).toNat_lt
    omega
  have hseen : ∀ r, SeenIn project svc list r → r.index.toNat + 1 < 2 ^ 32 := by
    rintro r ⟨info, -, -, -, hi, -⟩
    exact replicaIndex_lt hi
  rcases h with hall | ⟨seen, hst, hs, hother⟩
  · refine ⟨fun i hi => ?_, fun ⟨r, hr, hmax⟩ => ?_⟩
    · rcases hi with hd | hr | ⟨rev, hs⟩
      · obtain ⟨r, hr, rfl⟩ := drain_mem hd
        exact hseen r (hall r hr)
      · obtain ⟨r, hmem, rfl⟩ := remove_mem hr
        exact hseen r (hall r hmem)
      · exact hstart i rev hs
    · have hlt := hseen r (hall r hr)
      rw [hmax] at hlt
      exact absurd hlt (by simp [crashLoop])
  · obtain ⟨reason, hnext⟩ := nextStep_crashLoop hst hs hother hp
    refine ⟨fun i hi => ?_, fun _ => failure_alone hnext⟩
    obtain ⟨hd, hr, hs⟩ := failure_alone hnext i
    exact absurd hi (by simp [hd, hr, hs])

/-! ## Whole runs -/

/-- A drained or removed index is that of a listed container. -/
theorem acted_on_seen {project svc : String} {list : List ContainerInfo} {st : Rollout.State}
    (h : ObservedIn project svc st.target list st.replicas) (hp : st.paused = false) {i : UInt32}
    (hi : .drain i ∈ nextStep st ∨ .remove i ∈ nextStep st) :
    ∃ info ∈ list, info.service = some svc ∧ info.state = .running ∧ replicaIndex project svc info.name = some i := by
  have hmem : ∃ r ∈ st.replicas, r.index = i := by
    rcases hi with hi | hi
    · exact drain_mem hi
    · exact remove_mem hi
  obtain ⟨r, hr, rfl⟩ := hmem
  have hdone : SeenIn project svc list r → ∃ info ∈ list, info.service = some svc ∧ info.state = .running ∧
      replicaIndex project svc info.name = some r.index :=
    fun ⟨info, hl, hs, hrun, hix, _⟩ => ⟨info, hl, hs, hrun, hix⟩
  rcases h with hall | ⟨seen, hst, hs, hother⟩
  · exact hdone (hall r hr)
  · obtain ⟨reason, hnext⟩ := nextStep_crashLoop hst hs hother hp
    obtain ⟨hd, hrm, -⟩ := failure_alone hnext r.index
    rcases hi with hi | hi
    · exact absurd hi hd
    · exact absurd hi hrm

/-- The plan was made from a list this tick got for the service. -/
def FromListing (project : String) (log : List Event) (svc : String) (st : Rollout.State) : Prop :=
  st.paused = false ∧ ∃ list, listing svc project list ∈ log ∧ ObservedIn project svc st.target list st.replicas

/-- What the log of one tick satisfies. -/
structure Confined (log : List Event) : Prop where
  plans : ∀ svc dfn rev a st, .planned svc dfn rev a st ∈ log → Harmless st
  touches : Canonical log → Along Touches log

structure Watchful (past : List (List Event)) (v : View) : Prop where
  plans : ∀ svc dfn rev a st, .planned svc dfn rev a st ∈ v.log → FromListing v.ctl.file.project v.log svc st
  now : Confined v.log
  ticks : ∀ log ∈ past, Confined log

/-- Between ticks. -/
theorem Watchful.between {past : List (List Event)} (h : ∀ log ∈ past, Confined log) (c : Controller) :
    Watchful past ⟨c, []⟩ where
  plans := fun _ _ _ _ _ hm => absurd hm List.not_mem_nil
  now := ⟨fun _ _ _ _ _ hm => absurd hm List.not_mem_nil, fun _ => along_nil⟩
  ticks := h

theorem FromListing.mono {project svc : String} {log log' : List Event} {st : Rollout.State}
    (h : FromListing project log svc st) (hl : log ⊆ log') : FromListing project log' svc st := by
  obtain ⟨hp, list, hlist, hobs⟩ := h
  exact ⟨hp, list, hl hlist, hobs⟩

theorem Canonical.mono {log log' : List Event} (h : Canonical log') (hl : log ⊆ log') : Canonical log :=
  fun e he => h e (hl he)

/-- A drain finds the container it is about. -/
theorem touches_replica {c : Controller} {log : List Event} {svc : String} {st : Rollout.State}
    (h : FromListing c.file.project log svc st) (hcanon : Canonical log) {i : UInt32}
    (hi : .drain i ∈ nextStep st ∨ .remove i ∈ nextStep st) {e : Event}
    (he : touched e = some (some svc, replicaName c svc i)) : Touches log e := by
  obtain ⟨hp, list, hlist, hobs⟩ := h
  obtain ⟨info, hinfo, hsvc, hrun, hix⟩ := acted_on_seen hobs hp hi
  have hname : info.name = replicaName c svc i :=
    hcanon _ hlist (svc, c.file.project, list) (List.mem_singleton_self _) info hinfo hsvc hrun i
      (by rw [hix]; exact List.mem_singleton_self _)
  exact touches_listed hlist hinfo hsvc (by rw [hname]; exact he)

theorem Watchful.add {past : List (List Event)} {v v' : View} (h : Watchful past v) (hfile : v'.ctl.file = v.ctl.file)
    {e : Event} (hlog : v'.log = v.log ++ [e]) (ht : Canonical v.log → Touches v.log e)
    (hplan : ∀ svc dfn rev a st, e = .planned svc dfn rev a st → FromListing v.ctl.file.project v.log svc st) :
    Watchful past v' := by
  have hsub : v.log ⊆ v'.log := by
    rw [hlog]
    exact List.subset_append_left _ _
  have hplans : ∀ svc dfn rev a st, .planned svc dfn rev a st ∈ v'.log →
      FromListing v.ctl.file.project v.log svc st := by
    intro svc dfn rev a st hmem
    rw [hlog] at hmem
    rcases List.mem_append.mp hmem with hmem | hmem
    · exact h.plans svc dfn rev a st hmem
    · exact hplan svc dfn rev a st (List.mem_singleton.mp hmem).symm
  refine ⟨fun svc dfn rev a st hmem => ?_, ⟨fun svc dfn rev a st hmem => ?_, fun hcanon => ?_⟩, h.ticks⟩
  · rw [hfile]
    exact (hplans svc dfn rev a st hmem).mono hsub
  · obtain ⟨hp, list, -, hobs⟩ := hplans svc dfn rev a st hmem
    exact harmless_of_observed hobs hp
  · have hcanon := hcanon.mono hsub
    rw [hlog]
    exact along_concat.mpr ⟨h.now.touches hcanon, ht hcanon⟩

/-- An event that neither stops or removes anything nor is a plan. -/
theorem Watchful.plain {past : List (List Event)} {v v' : View} (h : Watchful past v) (hfile : v'.ctl.file = v.ctl.file)
    {e : Event} (hlog : v'.log = v.log ++ [e]) (ht : touched e = none)
    (hplan : ∀ svc dfn rev a st, e ≠ .planned svc dfn rev a st) : Watchful past v' := by
  refine h.add hfile hlog (fun _ t hmem => ?_) fun svc dfn rev a st he => absurd he (hplan svc dfn rev a st)
  rw [ht] at hmem
  cases hmem

theorem watchful_invariant : Invariant fl (fun _ => True) Watchful where
  step := by
    intro past now who v v' _ hs h
    have hfile := hs.file
    cases hs with
    | @call turn req res hq =>
      refine h.plain hfile rfl ?_ fun _ _ _ _ _ he => by cases he
      cases req <;> first | rfl | exact hq.elim
    | tidy hc =>
      refine ⟨fun svc dfn rev a st hmem => ?_, h.now, h.ticks⟩
      rw [hfile]
      exact h.plans svc dfn rev a st hmem
    | adopt _ _ => exact ⟨h.plans, h.now, h.ticks⟩
    | sweep hl hi hsvc =>
      exact h.add hfile rfl (fun _ => touches_listed hl hi hsvc rfl) fun _ _ _ _ _ he => by cases he
    | planned _ _ hp =>
      refine h.add hfile rfl (fun _ t hmem => by cases hmem) fun svc dfn rev a st he => ?_
      cases he
      obtain ⟨list, hlist, hobs⟩ := hp.observed
      exact ⟨hp.running, list, hlist, by rw [hp.target]; exact hobs⟩
    | stop hp hd =>
      obtain ⟨dfn, rev, hplanned⟩ := hp.planned
      exact h.add hfile rfl (fun hc => touches_replica (h.plans _ _ _ _ _ hplanned) hc (Or.inl hd) rfl)
        fun _ _ _ _ _ he => by cases he
    | rm hp hd =>
      obtain ⟨dfn, rev, hplanned⟩ := hp.planned
      exact h.add hfile rfl (fun hc => touches_replica (h.plans _ _ _ _ _ hplanned) hc hd rfl)
        fun _ _ _ _ _ he => by cases he
    | _ => exact h.plain hfile rfl rfl fun _ _ _ _ _ he => by cases he
  close := by
    intro past c log h
    refine .between (fun l hl => ?_) c
    rcases List.mem_append.mp hl with hl | hl
    · exact h.ticks l hl
    · rw [List.mem_singleton.mp hl]
      exact h.now
  setFile := fun _ h => .between h.ticks _
  pause := fun h => .between h.ticks _
  resume := fun h => .between h.ticks _

/-- In every tick of every run no action is about an index without a successor or about the replica of
a crash loop; and if the listed replicas of the tick have the names of their indexes, every container
that is stopped or removed was listed for the service before. -/
theorem touches_only_observed {r : Run σ} {file : ComposeFile} {opts : UpOptions} (hr : Started r file opts)
    (cmds : List Command) : ∀ log ∈ (r.exec x fl o cmds).ticks,
      (∀ svc dfn rev a st, .planned svc dfn rev a st ∈ log → Harmless st) ∧ (Canonical log → Along Touches log) := by
  have h₀ : Watchful r.ticks ⟨r.ctl, []⟩ := by
    rw [hr.ticks]
    exact .between (fun _ hm => absurd hm List.not_mem_nil) _
  intro log hlog
  have h : Watchful (r.exec x fl o cmds).ticks ⟨(r.exec x fl o cmds).ctl, []⟩ :=
    watchful_invariant.exec h₀ fun _ _ => trivial
  exact ⟨(h.ticks log hlog).plans, (h.ticks log hlog).touches⟩

/-- A running replica of `web` under some name. -/
def webReplica (name : String) : ContainerInfo where
  id := 7
  name := name
  state := .running
  project := some "p"
  service := some "web"
  revision := some "610000000000"

theorem second_replica_stopped :
    .call (some "web") (.stop "p-web-2" none) (.ok .ok) ∈
        (memoryRun (webFile "a" 1) [webReplica "p-web-1", webReplica "p-web-2"] [.tick 0]).ticks.flatten ∧
      ∀ log ∈ (memoryRun (webFile "a" 1) [webReplica "p-web-1", webReplica "p-web-2"] [.tick 0]).ticks,
        Along Touches log := by
  have hcanon : ∀ log ∈ (memoryRun (webFile "a" 1) [webReplica "p-web-1", webReplica "p-web-2"] [.tick 0]).ticks,
      Canonical log := by decide +kernel
  exact ⟨by decide +kernel, fun log hlog =>
    (touches_only_observed (freshRun_started (by decide +kernel) _) [.tick 0] log hlog).2 (hcanon log hlog)⟩

/-- The second replica is listed as `p-web-02`; what is stopped is `p-web-2`, which nobody listed. -/
theorem stray_replica_missed :
    Started (freshRun (webFile "a" 1) [webReplica "p-web-1", webReplica "p-web-02"]) (webFile "a" 1) plainOpts ∧
      .call (some "web") (.stop "p-web-2" none) (.ok .ok) ∈
        (memoryRun (webFile "a" 1) [webReplica "p-web-1", webReplica "p-web-02"] [.tick 0]).ticks.flatten ∧
      ¬ ∀ log ∈ (memoryRun (webFile "a" 1) [webReplica "p-web-1", webReplica "p-web-02"] [.tick 0]).ticks,
        Along Touches log :=
  ⟨freshRun_started (by decide +kernel) _, by decide +kernel, by decide +kernel⟩

end Collocate.Control
