import Collocate.Daemon.Vitals

/-! # The handlers make moves

Whatever every move preserves the handlers preserve, whether they succeed or fail, and so do runs, if it
also survives the timer's use of the tasks. -/
namespace Collocate.Daemon
set_option autoImplicit false

/-- The clock does not go back between two readings. -/
def Steady {σ : Type} (w : World σ) : Prop := ∀ s, (w.now s).1 ≤ (w.now (w.now s).2).1

section Programs
variable {σ : Type} {w : World σ} {steady : Prop} {R : Vitals → Prop}

theorem sees (w : World σ) : Overlooks w State.vitals := inward_vitals.overlooks w

theorem quiet_vitals {α : Type} (m : Prog σ α) : Quiet State.vitals (outside m) := inward_vitals.quiet_outside m

theorem silent_vitals_try (a : Act) : Silent State.vitals (tryAct w a) := inward_vitals.silent_try w a

theorem silent_sum (now : Instant) (delay : ℕ) : Silent State.vitals (addTo now delay : Op σ Instant) :=
  silent_addTo (fun _ _ => rfl) now delay

/-! ## Launching -/

/-- The clock will be read at `since` or later. -/
def Since (w : World σ) (steady : Prop) (since : Instant) (d : State σ) : Prop := steady → since ≤ (w.now d.outer).1

theorem instantNow_since (hsteady : steady → Steady w) {P : Vitals → Prop} :
    Eff.Triple (fun d => P d.vitals) (instantNow w) (fun now d => P d.vitals ∧ Since w steady now d) fun _ _ => False :=
  fun d hd => ⟨hd, fun h => hsteady h d.outer⟩

theorem scheduleIdleReap_since {P Q : Vitals → Prop} {id : ContainerId} {idleSecs : Option UInt64} {since : Instant}
    (hQ : ∀ c later, Rests steady id idleSecs since later → P c → Q { c with schedule := c.schedule ++ later }) :
    Eff.Triple (fun d => P d.vitals ∧ Since w steady since d) (scheduleIdleReap w id idleSecs)
      (fun _ d => Q d.vitals) fun _ _ => False := by
  rintro d ⟨hd, hsince⟩
  cases idleSecs with
  | none =>
    have hsame := hQ d.vitals [] rfl hd
    rw [List.append_nil] at hsame
    exact hsame
  | some t => exact hQ d.vitals _ ⟨_, rfl, fun h => Nat.add_le_add_right (hsince h) _⟩ hd

/-- The container is in, and its idle reap is still to be put on the schedule. -/
def Entered (w : World σ) (steady : Prop) (R : Vitals → Prop) (spec : Spec) (d : State σ) : Prop :=
  ∃ c v, R c ∧ Vital.Fresh v ∧ v.spec = spec ∧ Since w steady v.lastActivity d ∧ d.vitals = { c with
    live := c.live.insert spec.id v, marks := c.marks ++ [.active spec.id v.lastActivity] }

theorem enter_entered (hsteady : steady → Steady w) (spec : Spec) (pid : ℤ) (tok : ℕ) (child : Bool) :
    Eff.Triple (fun d => R d.vitals) (enter w spec pid tok child) (fun _ => Entered w steady R spec)
      fun _ _ => False := by
  have hnow := silent_instantNow (sees w) R
  refine Eff.Triple.bind hnow fun started => Eff.Triple.bind hnow fun lastCheck => ?_
  refine Eff.Triple.bind (instantNow_since hsteady) fun lastActivity => Eff.Triple.modify ?_
  rintro d ⟨hd, hsince⟩
  refine ⟨d.vitals, ⟨spec, false, spec.healthcheck.map fun h => HealthTracker.new h.retries, lastActivity, []⟩, hd,
    ⟨rfl, rfl, rfl⟩, rfl, hsince, ?_⟩
  simp only [State.vitals, OrdMap.mapValues_insert]
  rfl

theorem scheduleIdleReap_entered (hR : Stays steady R) (spec : Spec) :
    Eff.Triple (Entered w steady R spec) (scheduleIdleReap w spec.id spec.idleTimeoutSecs) (fun _ d => R d.vitals)
      fun _ _ => False := by
  rintro d ⟨c, v, hc, hfresh, rfl, hsince, hd⟩
  let In (c' : Vitals) : Prop := c' = { c with
    live := c.live.insert v.spec.id v, marks := c.marks ++ [.active v.spec.id v.lastActivity] }
  refine scheduleIdleReap_since (P := In) (fun c' later hlater hc' => ?_) d ⟨hd, hsince⟩
  have hmove := hR _ _ (.entered hfresh hlater) hc
  rw [hc']
  exact hmove

theorem launch_moves (hsteady : steady → Steady w) (hR : Stays steady R) (spec : Spec) :
    Leads State.vitals R R (launch w spec) := by
  refine Leads.modify_bind (Q := R) (fun _ hd => hd) fun _ => ?_
  refine Leads.bind_quiet (inward_vitals.quiet_prepareLaunch w spec) (fun _ h => h) fun r => ?_
  refine Leads.bind_silent (silent_token (sees w)) fun tok =>
    Leads.bind_quiet (quiet_vitals _) (fun _ h => h) fun _ => ?_
  refine Leads.modify_bind (Q := R) (fun _ hd => hd) fun _ => Leads.bind_silent (silent_vitals_try _) fun _ => ?_
  refine Leads.bind_silent (inward_vitals.quiet_storeUpdate w _).attempt fun _ => ?_
  have hend : Eff.Triple (fun d : State σ => R d.vitals) (Eff.modify fun d => { d with fwDirty := true } : Op σ Unit)
      (fun _ d => R d.vitals) fun _ _ => False := Eff.Triple.modify fun _ hd => hd
  refine Leads.of_sure (Eff.Triple.bind (enter_entered hsteady _ _ tok true) fun _ => ?_)
  exact Eff.Triple.bind (scheduleIdleReap_entered hR _) fun _ => hend

theorem adopt_moves (hsteady : steady → Steady w) (hR : Stays steady R) (spec : Spec) :
    Leads State.vitals R R (adopt w spec) := by
  refine Leads.bind_quiet (quiet_vitals _) (fun _ h => h) fun pid =>
    Leads.bind_silent (silent_token (sees w)) fun tok => ?_
  refine Leads.bind_quiet (quiet_vitals _) (fun _ h => h) fun _ =>
    Leads.modify_bind (Q := R) (fun _ hd => hd) fun _ => ?_
  refine Leads.of_sure (Eff.Triple.bind (enter_entered hsteady _ pid tok false) fun _ => ?_)
  exact scheduleIdleReap_entered hR spec

/-! ## Ending -/

theorem silent_answer_vitals (id : ContainerId) (code : ℤ) (waiter : Waiter) :
    Silent State.vitals (answer w id code waiter) := by
  unfold answer
  cases waiter.kind with
  | wait => exact silent_send (sees w) _ _
  | stop => exact Silent.modify_bind (fun _ => rfl) fun _ => silent_send (sees w) _ _

/-- `R`, with the container no longer live. -/
def Over (R : Vitals → Prop) (id : ContainerId) (c : Vitals) : Prop := R c ∧ c.live.get? id = none

theorem left_over (c : Vitals) (id : ContainerId) (v : Vital) (long : Bool) :
    (c.left id v long).live.get? id = none := by
  show (c.live.erase id).get? id = none
  rw [OrdMap.get?_erase, if_pos rfl]

theorem afterExit_moves (hR : Stays steady R) {c : Vitals} {id : ContainerId} {v : Vital} {long : Bool}
    (hlive : c.live.get? id = some v) (hc : R c) (code : ℤ) :
    Surely State.vitals (fun c' => c' = { c.left id v long with userStopped := c.userStopped }) (Over R id)
      (afterExit w id v.spec code) := by
  let Left (c' : Vitals) : Prop := c' = c.left id v long
  refine Surely.get_bind fun d hd => ?_
  have hstopped : d.userStopped id = c.userStopped id := congrArg (fun c' => c'.userStopped id) hd
  have hattempts : (d.restarts id).getD 0 = (c.left id v long).attempts id :=
    congrArg (fun c' => (c'.restarts id).getD 0) hd
  refine Surely.bind (Q := Left) (Surely.modify fun d' hd' => ?_) fun _ => ?_
  · show { d'.vitals with userStopped := Function.update d'.vitals.userStopped id false } = c.left id v long
    rw [hd', hd]
    rfl
  rw [hstopped, hattempts]
  split
  · rename_i hrestart
    let count := some ((c.left id v long).attempts id + 1)
    let Counted (c' : Vitals) : Prop := c' = { c.left id v long with
      restarts := Function.update (c.left id v long).restarts id count }
    refine Surely.bind (Q := Counted) (Surely.modify fun d' hd' => ?_) fun _ => ?_
    · show Counted { d'.vitals with restarts := Function.update d'.vitals.restarts id count }
      rw [hd']
    refine (silent_instantNow (sees w) _).bind fun now => (silent_sum _ _ _).bind fun time =>
      Surely.modify fun d' hd' => ?_
    have hmove := hR _ _ (.restarting hlive hrestart time) hc
    show Over R id { d'.vitals with schedule := d'.vitals.schedule ++ _, marks := d'.vitals.marks ++ _ }
    rw [hd']
    exact ⟨hmove, left_over c id v long⟩
  · split
    · refine (silent_instantNow (sees w) _).bind fun now => (silent_sum _ _ _).bind fun time =>
        Surely.modify fun d' hd' => ?_
      have hlater : ∀ e ∈ [(time, Task.removeExited id)], ∀ id', e.2 ≠ .relaunch id' := by simp
      have hmove := hR _ _ (.ended hlive long hlater) hc
      show Over R id { d'.vitals with schedule := d'.vitals.schedule ++ _ }
      rw [hd']
      exact ⟨hmove, left_over c id v long⟩
    · refine Eff.Triple.pure fun d' hd' => ?_
      have hlater : ∀ e ∈ ([] : List (Instant × Task)), ∀ id', e.2 ≠ .relaunch id' := by simp
      have hmove := hR _ _ (.ended hlive long hlater) hc
      rw [List.append_nil] at hmove
      rw [hd']
      exact ⟨hmove, left_over c id v long⟩

theorem onExit_moves (hR : Stays steady R) (id : ContainerId) (code : Option ℤ) :
    Surely State.vitals R (Over R id) (onExit w id code) := by
  refine Surely.get_bind fun d hd => ?_
  split
  · rename_i hnone
    exact Eff.Triple.pure fun c hc => hc ▸ ⟨hd, vitals_live_none hnone⟩
  rename_i l hl
  have hlive := vitals_live_get? hl
  let Gone (c : Vitals) : Prop := c = { d.vitals with live := d.vitals.live.erase id }
  refine Surely.bind (Q := Gone) (Surely.modify fun d' hd' => ?_) fun _ => ?_
  · show Gone { d'.vitals with live := (d'.live.erase id).mapValues fun _ l => Live.vital l }
    rw [OrdMap.mapValues_erase]
    show Gone { d'.vitals with live := d'.vitals.live.erase id }
    rw [hd']
  refine (silent_vitals_try _ _).bind fun _ => ((inward_vitals.quiet_storeUpdate w _).attempt _).bind fun _ => ?_
  refine (silent_cleanupRuntime (sees w) id _).bind fun _ => (silent_instantNow (sees w) _).bind fun now => ?_
  generalize hran : decide (secs 10 < now - l.started) = long
  let Marked (c : Vitals) : Prop := c = { d.vitals with
    live := d.vitals.live.erase id, marks := d.vitals.marks ++ [.ended id l.spec.restart long l.stopRequested] }
  let Left (c : Vitals) : Prop := c = { d.vitals.left id l.vital long with userStopped := d.vitals.userStopped }
  refine Surely.bind (Q := Marked) (Surely.modify fun d' hd' => ?_) fun _ => ?_
  · show Marked { d'.vitals with marks := d'.vitals.marks ++ _ }
    rw [hd']
  have hend : Surely State.vitals Left (Over R id) (do
      l.waiters.forM (answer w id (code.getD (-1)))
      afterExit w id l.spec (code.getD (-1))
      Eff.modify fun d => { d with fwDirty := true }) := by
    refine (Silent.forM _ (silent_answer_vitals id _) _).bind fun _ => ?_
    exact (afterExit_moves hR hlive hd _).bind fun _ => Surely.modify fun _ hd => hd
  split
  · rename_i hlong
    obtain rfl : long = true := by rw [← hran]; exact decide_eq_true hlong
    refine Surely.bind (Q := Left) (Surely.modify fun d' hd' => ?_) fun _ => hend
    show Left { d'.vitals with restarts := Function.update d'.vitals.restarts id none }
    rw [hd']
    rfl
  · rename_i hshort
    obtain rfl : long = false := by rw [← hran]; exact decide_eq_false hshort
    exact hend.pre fun c hc => hc

theorem reapLoop_moves (hR : Stays steady R) (id : ContainerId) (deadline : Instant) (left : ℕ) :
    Surely State.vitals R (Over R id) (reapLoop w id deadline left) := by
  induction left with
  | zero => exact onExit_moves hR id none
  | succ left ih =>
    refine (silent_instantNow (sees w) R).bind fun now => ?_
    split
    · refine Surely.get_bind fun d hd => ?_
      split
      · rename_i hnone
        exact Eff.Triple.pure fun d' hd' => hd' ▸ ⟨hd, vitals_live_none hnone⟩
      · refine Surely.pre (P := R) ?_ fun c hc => hc ▸ hd
        refine ((quiet_vitals _).attempt R).bind fun r => ?_
        rcases r with e | _ | code
        · exact onExit_moves hR id none
        · exact ih
        · exact onExit_moves hR id (some code)
    · exact onExit_moves hR id none

theorem reapBlocking_moves (hR : Stays steady R) (id : ContainerId) :
    Surely State.vitals R (Over R id) (reapBlocking w id) :=
  (silent_instantNow (sees w) R).bind fun _ => (silent_sum _ _ R).bind fun _ => reapLoop_moves hR id _ _

theorem reapIdle_moves (hR : Stays steady R) (id : ContainerId) :
    Surely State.vitals R (Over R id) (reapIdle w id) := by
  have hpurge : Surely State.vitals (Over R id) (Over R id) (Eff.attempt (purge w id) >>= fun _ => pure ()) :=
    ((inward_vitals.quiet_purge w id).attempt _).bind fun _ => Silent.pure _ _
  refine Surely.get_bind fun d hd => ?_
  split
  · refine Surely.pre (P := R) ?_ fun c hc => hc ▸ hd
    exact (silent_vitals_try _ R).bind fun _ => (reapBlocking_moves hR id).bind fun _ => hpurge
  · rename_i hnone
    refine hpurge.pre fun c hc => hc ▸ ⟨hd, vitals_live_none ?_⟩
    simpa [OrdMap.contains] using hnone

/-! ## Requests -/

theorem opRun_moves (hsteady : steady → Steady w) (hR : Stays steady R) (spec : Spec) :
    Leads State.vitals R R (opRun w spec) := by
  refine Leads.modify_bind (Q := R) (fun _ hd => hd) fun _ => Leads.peek fun d => ?_
  refine Leads.bind_quiet (Quiet.lift _) (fun _ h => h) fun limits =>
    Leads.bind_quiet (Quiet.lift _) (fun _ h => h) fun _ => ?_
  refine Leads.bind_quiet (quiet_pinned (sees w) _) (fun _ h => h) fun root => ?_
  refine Leads.bind_quiet (inward_vitals.quiet_storeCreate w _) (fun _ h => h) fun _ => ?_
  refine Leads.bind_sure (launch_moves hsteady hR _).attempt fun r => ?_
  cases r with
  | ok _ => exact Leads.pure _ fun _ h => h
  | error e => exact Leads.bind_silent (inward_vitals.quiet_purge w _).attempt fun _ => Leads.throw e fun _ h => h

theorem launchStored_moves (hsteady : steady → Steady w) (hR : Stays steady R) (id : ContainerId) :
    Leads State.vitals R R (do
      note (.asked id)
      launch w (← storeGet w id)
      pure (some Response.ok)) := by
  refine Leads.modify_bind (Q := R) (fun _ hd => hd) fun _ =>
    Leads.bind_quiet (quiet_storeGet (sees w) id) (fun _ h => h) ?_
  exact fun spec => (launch_moves hsteady hR spec).bind fun _ => Leads.pure _ fun _ h => h

theorem opStart_moves (hsteady : steady → Steady w) (hR : Stays steady R) (target : String) :
    Leads State.vitals R R (opStart w target) := by
  refine Leads.bind_quiet (quiet_resolve (sees w) target) (fun _ h => h) fun id => Leads.get_bind fun d hd => ?_
  split
  · exact Leads.throw _ fun c hc => hc ▸ hd
  rename_i hlive
  refine Leads.modify_bind (Q := R) (fun d' hd' => ?_) fun _ => launchStored_moves hsteady hR id
  have hmove := hR _ _ (.pardoned (vitals_live_none (by simpa [OrdMap.contains] using hlive))) hd
  rw [← hd'] at hmove
  exact hmove

theorem opRestart_moves (hsteady : steady → Steady w) (hR : Stays steady R) (target : String) :
    Leads State.vitals R R (opRestart w target) := by
  refine Leads.bind_quiet (quiet_resolve (sees w) target) (fun _ h => h) fun id => Leads.peek fun d => ?_
  exact Leads.ite (Leads.throw _ fun _ h => h) (launchStored_moves hsteady hR id)

theorem opStop_moves (hR : Stays steady R) (conn : ℕ) (target : String) (timeout : Option UInt64) :
    Leads State.vitals R R (opStop w conn target timeout) := by
  have hnone : Leads (State.vitals (σ := σ)) R R (pure none : Op σ (Option Response)) := Leads.pure _ fun _ h => h
  refine Leads.bind_quiet (quiet_resolve (sees w) target) (fun _ h => h) fun id => Leads.get_bind fun d hd => ?_
  split
  · exact Leads.modify_bind (Q := R) (fun d' hd' => hd' ▸ hd) fun _ => Leads.pure _ fun _ h => h
  rename_i l hl
  have hlive := vitals_live_get? hl
  split
  · refine Leads.modify_bind (Q := R) (fun d' hd' => ?_) fun _ => hnone
    rw [vitals_touch (by rw [hd', hlive]; rfl), hd']
    exact hd
  · refine Leads.bind_silent (silent_instantNow (sees w)) fun now =>
      Leads.bind_silent (silent_sum _ _) fun signalAt => ?_
    refine Leads.bind_silent (silent_sum _ _) fun killAt => Leads.modify_bind (Q := R) (fun d' hd' => ?_) fun _ => hnone
    have hmove := hR _ _ (.stop hlive) hd
    rw [← hd'] at hmove
    simpa [State.vitals, OrdMap.mapValues_insert, Live.vital] using hmove

theorem opWait_moves (conn : ℕ) (target : String) : Leads State.vitals R R (opWait w conn target) := by
  refine Leads.bind_quiet (quiet_resolve (sees w) target) (fun _ h => h) fun id => Leads.get_bind fun d hd => ?_
  split
  · rename_i l hl
    refine Leads.modify_bind (Q := R) (fun d' hd' => ?_) fun _ => Leads.pure _ fun _ h => h
    rw [vitals_touch (by rw [hd', vitals_live_get? hl]; rfl), hd']
    exact hd
  · exact ((quiet_storeGet (sees w) id).bind fun _ => Quiet.pure _).leads fun c hc => hc ▸ hd

theorem endFirst_moves (hR : Stays steady R) {α : Type} {id : ContainerId} {m : Op σ α}
    (hm : Leads State.vitals R R m) :
    Leads State.vitals R R (act w (.killCgroup id) >>= fun _ => reapBlocking w id >>= fun _ => m) := by
  refine Leads.bind_quiet (quiet_vitals _) (fun _ h => h) fun _ =>
    Leads.bind_sure (reapBlocking_moves hR id) fun _ => ?_
  exact hm.pre fun _ hc => hc.1

theorem opRm_moves (hR : Stays steady R) (target : String) (force : Bool) :
    Leads State.vitals R R (opRm w target force) := by
  have hpurge (id : ContainerId) : Leads State.vitals R R (purge w id >>= fun _ => pure (some Response.ok)) :=
    ((inward_vitals.quiet_purge w id).bind fun _ => Quiet.pure _).leads fun _ h => h
  refine Leads.bind_quiet (quiet_resolve (sees w) target) (fun _ h => h) fun id =>
    Leads.peek fun d => Leads.ite ?_ (hpurge id)
  refine Leads.ite (Leads.bind_quiet (Quiet.throw _) (fun _ h => h) fun _ => ?_) ?_
  all_goals exact endFirst_moves hR (hpurge id)

theorem opExec_moves (hsteady : steady → Steady w) (hR : Stays steady R) (conn : ℕ) (target : String)
    (argv : List String) (timeoutSecs : Option UInt64) (service : Option String) :
    Leads State.vitals R R (opExec w conn target argv timeoutSecs service) := by
  refine Leads.bind_quiet (quiet_resolve (sees w) target) (fun _ h => h) fun id => ?_
  refine Leads.bind_quiet (quiet_vitals _) (fun _ h => h) fun _ => Leads.get_bind fun d hd => ?_
  have hsame (c : Vitals) (hc : c = d.vitals) : R c := hc ▸ hd
  split
  · exact Leads.throw _ hsame
  rename_i l hl
  have hlive := vitals_live_get? hl
  have hrest : Quiet State.vitals (do
      let tok ← token
      act w (.epollAdd tok)
      let now ← instantNow w
      let deadline ← execDeadline now timeoutSecs
      Eff.modify fun d => { d with execs := d.execs.insert tok { conn, deadline } }
      pure none : Op σ (Option Response)) := by
    refine (silent_token (sees w)).then fun tok =>
      (quiet_vitals _).bind fun _ => (silent_instantNow (sees w)).then fun now => ?_
    refine (silent_execDeadline (fun _ _ => rfl) _ _).then fun deadline => ?_
    exact Quiet.modify_bind (fun _ => rfl) fun _ => Quiet.pure _
  have hused : Leads State.vitals (fun c => c = d.vitals) R (do
      let now ← instantNow w
      Eff.modify fun d => { d with
        live := d.live.insert id { l with lastActivity := now }, marks := d.marks ++ [.active id now] }
      scheduleIdleReap w id l.spec.idleTimeoutSecs
      let tok ← token
      act w (.epollAdd tok)
      let now ← instantNow w
      let deadline ← execDeadline now timeoutSecs
      Eff.modify fun d => { d with execs := d.execs.insert tok { conn, deadline } }
      pure none : Op σ (Option Response)) := by
    let Used (now : Instant) (c : Vitals) : Prop := c = { d.vitals with
      live := d.vitals.live.insert id { l.vital with lastActivity := now }
      marks := d.vitals.marks ++ [.active id now] }
    have hnow := instantNow_since hsteady (P := fun c => c = d.vitals)
    refine Eff.Triple.bind (Eff.Triple.conseq hnow (fun _ h => h) (fun _ _ h => h) fun _ _ h => h.elim) fun now => ?_
    refine Eff.Triple.bind (Q := fun _ d' => Used now d'.vitals ∧ Since w steady now d')
      (Eff.Triple.modify ?_) fun _ => ?_
    · rintro d' ⟨hd', hsince⟩
      refine ⟨?_, hsince⟩
      show Used now { ({ d' with live := d'.live.insert id { l with lastActivity := now } } : State σ).vitals with
        marks := d'.vitals.marks ++ [.active id now] }
      rw [vitals_insert, hd']
      rfl
    · have hsched : Eff.Triple (fun d => Used now d.vitals ∧ Since w steady now d)
          (scheduleIdleReap w id l.spec.idleTimeoutSecs) (fun _ d => R d.vitals) fun _ _ => False :=
        scheduleIdleReap_since fun c later hlater hc => by
          have hmove := hR _ _ (.used hlive hlater) hd
          rw [hc]
          exact hmove
      refine Eff.Triple.bind (Eff.Triple.conseq hsched (fun _ h => h) (fun _ _ h => h) fun _ _ h => h.elim) fun _ => ?_
      exact hrest R
  refine Leads.ite (Leads.bind_quiet (Quiet.throw _) hsame fun _ => ?_) ?_
  all_goals exact Leads.bind_quiet (quiet_vitals _) hsame fun _ => hused

theorem quiet_opLbSet_vitals (lb : LbSpec) : Quiet State.vitals (opLbSet w lb) := by
  refine (inward_vitals.quiet_assignVip w lb).bind fun vip =>
    (quiet_vitals _).bind fun _ => (quiet_vitals _).bind fun _ => ?_
  exact Quiet.modify fun _ => rfl

theorem quiet_opLbRemove_vitals (project name : String) : Quiet State.vitals (opLbRemove w project name) := by
  refine Quiet.get_bind fun d => ?_
  split
  · exact Quiet.throw _
  refine Quiet.modify_bind (fun _ => rfl) fun _ => (silent_vitals_try _).then fun _ => ?_
  have hend : Quiet State.vitals (do
      Eff.modify fun d => { d with ipam := d.ipam.release (vipOwner project name), fwDirty := true }
      pure (some Response.ok) : Op σ (Option Response)) := Quiet.modify_bind (fun _ => rfl) fun _ => Quiet.pure _
  split
  · exact (silent_vitals_try _).then fun _ => hend
  · exact hend

theorem clearNode_moves (hR : Stays steady R) (force : Bool) : Leads State.vitals R R (clearNode w force) := by
  have hevict (id : ContainerId) : Leads State.vitals R R (evict w id) :=
    Leads.peek fun d =>
      Leads.ite (endFirst_moves hR (inward_vitals.quiet_purge w id R)) (inward_vitals.quiet_purge w id R)
  have hforget (lb : LbSpec) : Leads State.vitals R R (forgetLb w lb) :=
    Leads.modify_bind (Q := R) (fun _ hd => hd) fun _ => (silent_vitals_try _).quiet R
  refine Leads.bind_quiet (quiet_loadAll (sees w)) (fun _ h => h) fun specs => Leads.peek fun d => ?_
  refine Leads.ite (Leads.bind_quiet (Quiet.throw _) (fun _ h => h) fun _ => ?_) ?_
  all_goals exact (Leads.forM _ fun s : Spec => hevict s.id).bind fun _ => Leads.forM _ hforget

theorem opInit_moves (hR : Stays steady R) (conn : ℕ) (settings : DaemonSettings) (force : Bool) :
    Leads State.vitals R R (opInit w conn settings force) := by
  have hact {α : Type} {a : Act} {f : Unit → Op σ α} (hf : ∀ u, Leads State.vitals R R (f u)) :
      Leads State.vitals R R (act w a >>= f) :=
    Leads.bind_quiet (quiet_vitals _) (fun _ h => h) hf
  have hok : Leads State.vitals R R (pure (some Response.ok) : Op σ (Option Response)) := Leads.pure _ fun _ h => h
  refine Leads.bind_quiet (quiet_requireConn conn) (fun _ h => h) fun _ => hact fun _ => hact fun _ => ?_
  refine Leads.peek fun d => Leads.ite (Leads.ite ?_ hok) ?_
  · refine hact fun _ => hact fun _ => Leads.modify_bind (Q := R) (fun _ hd => hd) fun _ => ?_
    exact Leads.ite (hact fun _ => hok) hok
  · have hrestart : Leads State.vitals R R (do
        act w (.updateNode settings)
        act w (.writeConfig settings)
        Eff.modify fun d => { d with shutdown := true }
        pure (some Response.ok)) :=
      hact fun _ => hact fun _ => Leads.modify_bind (Q := R) (fun _ hd => hd) fun _ => hok
    exact hact fun _ => Leads.ite ((clearNode_moves hR force).bind fun _ => hrestart) hrestart

theorem handle_moves (hsteady : steady → Steady w) (hR : Stays steady R) (conn : ℕ) (request : Request) :
    Leads State.vitals R R (handle w conn request) := by
  induction request with
  | run spec => exact (opRun_moves hsteady hR spec).bind fun _ => Leads.pure _ fun _ h => h
  | start => exact opStart_moves hsteady hR _
  | stop => exact opStop_moves hR conn _ _
  | restart => exact opRestart_moves hsteady hR _
  | kill => exact quiet_opKill (sees w) _ _ R
  | rm => exact opRm_moves hR _ _
  | wait => exact opWait_moves conn _
  | logs => exact quiet_serveFor (sees w) _ _ rfl R
  | exec => exact opExec_moves hsteady hR conn _ _ _ _
  | execProbe => exact quiet_opExecProbe (sees w) (fun _ _ => rfl) conn _ _ _ R
  | commit => exact quiet_serveFor (sees w) _ _ rfl R
  | ps => exact quiet_opPs (sees w) _ _ R
  | stats => exact quiet_opStats (sees w) _ R
  | lbSet lb => exact ((quiet_opLbSet_vitals lb).bind fun _ => Quiet.pure _) R
  | lbRemove => exact quiet_opLbRemove_vitals _ _ R
  | lbList => exact quiet_opLbList R
  | init => exact opInit_moves hR conn _ _
  | as caller request ih =>
    refine Leads.bind_quiet (quiet_requireGateway (sees w) conn) (fun _ h => h) fun _ => ?_
    refine Leads.bind_quiet (quiet_authorize (sees w) caller _ _) (fun _ h => h) fun _ => ?_
    exact ih.bind fun _ => Leads.pure _ fun _ h => h
  | shutdown => exact Leads.modify_bind (Q := R) (fun _ h => h) fun _ => Leads.pure _ fun _ h => h
  | _ => exact quiet_vitals _ R

/-! ## Health -/

theorem recordHealth_moves (hR : Stays steady R) (id : ContainerId) (ok : Bool) :
    Leads State.vitals R R (recordHealth w id ok) := by
  refine Leads.get_bind fun d hd => ?_
  have hsame (c : Vitals) (hc : c = d.vitals) : R c := hc ▸ hd
  split
  · exact Leads.pure _ hsame
  rename_i l hl
  split
  · exact Leads.pure _ hsame
  rename_i t ht
  refine Leads.modify_bind (Q := R) (fun d' hd' => ?_) fun _ => Leads.ite ?_ (Leads.pure _ fun _ h => h)
  · have hmove := hR _ _ (.probed (vitals_live_get? hl) ht ok) hd
    rw [vitals_insert, hd']
    exact hmove
  · exact Leads.bind_silent (silent_vitals_try _) fun _ => Leads.modify fun _ h => h

theorem probe_moves (hR : Stays steady R) (now : Instant) (id : ContainerId) (hc : Healthcheck)
    (addr : Option Ipv4Addr) :
    Leads State.vitals R R (probe w now id hc addr) := by
  unfold probe
  split
  · exact Leads.bind_silent (inward_vitals.silent_ask _) fun ok => recordHealth_moves hR id ok
  · exact Leads.bind_silent (inward_vitals.silent_ask _) fun ok => recordHealth_moves hR id ok
  · exact Leads.pure _ fun _ h => h
  · exact Leads.pure _ fun _ h => h
  · refine Leads.bind_silent (silent_sum _ _) fun deadline => ?_
    refine Leads.bind_quiet (quiet_spawnProbe (sees w) _ _ _ _) (fun _ h => h) fun started => ?_
    exact Leads.ite (recordHealth_moves hR id false) (Leads.pure _ fun _ h => h)
  · exact Leads.bind_silent (inward_vitals.silent_ask _) fun problem => recordHealth_moves hR id _

theorem checkHealth_moves (hR : Stays steady R) (now : Instant) : Leads State.vitals R R (checkHealth w now) := by
  refine Leads.peek fun d => Leads.bind_silent (Silent.modify fun d' => ?_) fun _ => ?_
  · have hvital (id : ContainerId) (l : Live) (p : Bool) :
        (if p then { l with lastCheck := now } else l).vital = l.vital := by
      cases p <;> rfl
    simp only [State.vitals, OrdMap.mapValues_mapValues fun id l => hvital id l _]
  · exact Leads.forM _ fun e => probe_moves hR now _ _ _

/-! ## The timer -/

/-- The timer is at `tasks`, with its clock at `now`. -/
def At (R : Vitals → Prop) (now : Instant) (tasks : List Task) (c : Vitals) : Prop :=
  R c ∧ c.due = tasks ∧ c.timer = now

theorem runTask_moves (hsteady : steady → Steady w) (hR : Lasts steady R) (now : Instant) (task : Task)
    (rest : List Task) :
    Surely State.vitals (At R now (task :: rest)) (fun c => At R now rest { c with due := rest })
      (runTask w now task) := by
  have hstays : Stays steady (At R now (task :: rest)) := hR.moved.timed _ _
  have hdrop (c : Vitals) (hc : At R now (task :: rest) c) (hidle : ∀ id, task = .reapIdle id → ¬ c.Idle id) :
      At R now rest { c with due := rest } := ⟨hR.dropped c task rest hc.2.1 hidle hc.1, rfl, hc.2.2⟩
  have hunused (hother : ∀ id, task ≠ .reapIdle id) : Surely (State.vitals (σ := σ)) (At R now (task :: rest))
      (fun c => At R now rest { c with due := rest }) (pure () : Op σ Unit) :=
    Eff.Triple.pure fun d hd => hdrop d.vitals hd fun id hid => absurd hid (hother id)
  cases task with
  | relaunch id =>
    refine ((quiet_storeGet (sees w) id).attempt _).bind fun r => ?_
    cases r with
    | error e => exact hunused nofun
    | ok spec =>
      refine Surely.peek fun d => ?_
      split
      · refine Surely.bind (launch_moves hsteady hstays spec).attempt fun _ => Surely.modify fun d hd => ?_
        exact ⟨hR.relaunched d.vitals id rest hd.2.1 hd.1, rfl, hd.2.2⟩
      · exact hunused nofun
  | removeExited id =>
    refine Surely.peek fun d => Surely.ite (((quiet_storeGet (sees w) id).attempt _).bind fun r => ?_) (hunused nofun)
    cases r with
    | error e => exact hunused nofun
    | ok spec =>
      exact Surely.ite (((inward_vitals.quiet_purge w id).attempt _).bind fun _ => hunused nofun) (hunused nofun)
  | reapIdle id =>
    refine Surely.get_bind fun d hd => ?_
    dsimp only
    split
    · rename_i hidle
      obtain ⟨l, hl, t, ht, hdue⟩ : ∃ l, d.live.get? id = some l ∧ ∃ t, l.spec.idleTimeoutSecs = some t ∧
          secs (max t 1) ≤ now - l.lastActivity := by
        simpa [Option.any_eq_true] using hidle
      have hmark : ((d.live.get? id).bind fun l => l.spec.idleTimeoutSecs).getD 0 = t := by
        rw [hl, Option.bind_some, ht]
        rfl
      rw [hmark]
      refine Surely.bind (Q := At R now (.reapIdle id :: rest)) (Surely.modify fun d' hd' => ?_) fun _ => ?_
      · have hdue' : secs (max t 1) ≤ d.vitals.timer - l.vital.lastActivity := by rw [hd.2.2]; exact hdue
        have hmove := hstays _ _ (.reaped (vitals_live_get? hl) ht hdue') hd
        show At R now _ { d'.vitals with marks := d'.vitals.marks ++ [.reaped id t now] }
        have hnow : Mark.reaped id t now = .reaped id t d.vitals.timer := by rw [hd.2.2]
        rw [hd', hnow]
        exact hmove
      · refine Eff.Triple.post (reapIdle_moves hstays id) fun _ d' hd' => hdrop _ hd'.1 ?_
        rintro id' hid ⟨v, t', hlive, -⟩
        cases hid
        rw [hd'.2] at hlive
        cases hlive
    · rename_i hbusy
      refine Eff.Triple.pure fun d' hd' => hdrop d'.vitals (hd' ▸ hd) ?_
      rintro id' hid ⟨v, t, hlive, ht, hdue⟩
      cases hid
      rw [hd'] at hlive hdue
      refine hbusy ?_
      rw [vitals_live] at hlive
      obtain ⟨l, hl, rfl⟩ := Option.map_eq_some_iff.mp hlive
      have htimer : d.vitals.timer = now := hd.2.2
      rw [htimer] at hdue
      simpa [Option.any_eq_true, hl] using ⟨t, ht, hdue⟩

theorem runDue_moves (hsteady : steady → Steady w) (hR : Lasts steady R) (now : Instant) (tasks : List Task) :
    Surely State.vitals (At R now tasks) (At R now []) (runDue w now tasks) := by
  induction tasks with
  | nil => exact Eff.Triple.pure fun _ h => h
  | cons task rest ih =>
    refine (runTask_moves hsteady hR now task rest).bind fun _ => ?_
    exact Surely.bind (Q := At R now rest) (Surely.modify fun _ hd => hd) fun _ => ih

theorem pressStop_moves (now : Instant) (id : ContainerId) : Leads State.vitals R R (pressStop w now id) := by
  refine Leads.get_bind fun d hd => ?_
  split
  · exact Leads.pure _ fun c hc => hc ▸ hd
  rename_i l hl
  refine Leads.modify_bind (Q := R) (fun d' hd' => ?_) fun _ => ?_
  · rw [vitals_touch (by rw [hd', vitals_live_get? hl]; rfl), hd']
    exact hd
  · refine Leads.ite (Leads.bind_silent (silent_vitals_try _) fun _ => ?_) ?_
    all_goals exact Leads.ite ((silent_vitals_try _).quiet R) (Leads.pure _ fun _ h => h)

/-- Between events no task is due. -/
def Rested (R : Vitals → Prop) (c : Vitals) : Prop := R c ∧ c.due = []

theorem onTimer_moves (hsteady : steady → Steady w) (hR : Lasts steady R) :
    Leads State.vitals (Rested R) (Rested R) (onTimer w) := by
  have hstays : Stays steady (Rested R) := hR.moved.rested
  refine Leads.bind_silent (silent_vitals_try _) fun _ => Leads.bind_silent (silent_instantNow (sees w)) fun now => ?_
  refine Leads.get_bind fun d hd => ?_
  let due := (d.schedule.filter fun e => decide (e.1 ≤ now)).map Prod.snd
  refine Leads.modify_bind (Q := At R now due) (fun d' hd' => ⟨?_, rfl, rfl⟩) fun _ => ?_
  · have hfired := hR.fired d.vitals now hd.2 hd.1
    rw [← hd'] at hfired
    have hschedule : d'.schedule = d.schedule := congrArg Vitals.schedule hd'
    show R { d'.vitals with schedule := _, due := due, timer := now }
    rw [show due = (d'.vitals.schedule.filter fun e => decide (e.1 ≤ now)).map Prod.snd by
      show due = (d'.schedule.filter _).map _
      rw [hschedule]]
    exact hfired
  have hkill {α : Type} {a : α → Act} (as : List α) :
      Leads State.vitals (Rested R) (Rested R) (as.forM fun e => tryAct w (a e)) :=
    Leads.forM _ fun e => (silent_vitals_try _).quiet _
  refine Leads.bind_sure (Q := Rested R)
    (Eff.Triple.post (runDue_moves hsteady hR now due) fun _ _ hd => ⟨hd.1, hd.2.1⟩) fun _ => ?_
  refine Leads.peek fun d => (Leads.forM _ fun id => pressStop_moves now id).bind fun _ => Leads.peek fun d => ?_
  refine (hkill _).bind fun _ => (hkill _).bind fun _ => Leads.ite ?_ (Leads.pure _ fun _ h => h)
  exact Leads.modify_bind (Q := Rested R) (fun _ h => h) fun _ => checkHealth_moves hstays now

/-! ## Events -/

theorem onPidfd_moves (hR : Stays steady R) (tok : ℕ) : Leads State.vitals R R (onPidfd w tok) := by
  refine Leads.peek fun d => ?_
  split
  · split
    · exact Leads.pure _ fun _ h => h
    · refine Leads.bind_silent (silent_exitOf (sees w) tok _) fun r => ?_
      cases r with
      | none => exact Leads.pure _ fun _ h => h
      | some code => exact Leads.of_sure (Eff.Triple.post (onExit_moves hR _ code) fun _ _ hd => hd.1)
  · split
    · refine Leads.bind_silent (quiet_vitals _).attempt fun r => ?_
      split
      · refine Leads.bind_silent (silent_vitals_try _) fun _ => ?_
        exact Leads.modify_bind (Q := R) (fun _ h => h) fun _ => (silent_send (sees w) _ _).quiet R
      · exact Leads.pure _ fun _ h => h
    · refine Leads.bind_silent (quiet_vitals _).attempt fun r => ?_
      split
      · refine Leads.bind_silent (silent_vitals_try _) fun _ => Leads.modify_bind (Q := R) (fun _ h => h) fun _ => ?_
        split
        · exact recordHealth_moves hR _ _
        · exact (silent_send (sees w) _ _).quiet R
      · exact Leads.pure _ fun _ h => h
    · exact Leads.pure _ fun _ h => h

theorem onEvent_moves (hsteady : steady → Steady w) (hR : Lasts steady R) (e : Event) :
    Leads State.vitals (Rested R) (Rested R) (onEvent w e) := by
  have hstays : Stays steady (Rested R) := hR.moved.rested
  cases e with
  | connect => exact (silent_accept (sees w)).quiet _
  | request conn request =>
    refine Leads.peek fun d => Leads.ite ?_ (Leads.pure _ fun _ h => h)
    refine Leads.bind_sure (handle_moves hsteady hstays conn request).attempt fun r => ?_
    rcases r with e | _ | response
    · exact (silent_send (sees w) conn _).quiet _
    · exact Leads.pure _ fun _ h => h
    · exact (silent_send (sees w) conn _).quiet _
  | garbled conn => exact (silent_send (sees w) conn _).quiet _
  | hangup conn =>
    exact Leads.peek fun d => Leads.ite ((silent_dropConn (sees w) conn).quiet _) (Leads.pure _ fun _ h => h)
  | pidfd tok => exact onPidfd_moves hstays tok
  | timer => exact onTimer_moves hsteady hR
  | terminate => exact Leads.modify fun _ h => h

/-! ## Runs -/

theorem quiet_flushFirewall_vitals : Quiet State.vitals (flushFirewall w) :=
  Quiet.get_bind fun _ => Quiet.ite (Quiet.modify_bind (fun _ => rfl) fun _ => (silent_vitals_try _).quiet)
    (Quiet.pure _)

theorem loadLb_quiet_vitals (lb : LbSpec) : Quiet State.vitals (loadLb w lb) := by
  unfold loadLb
  split
  · refine Quiet.modify_bind (fun d => ?_) fun _ => (silent_vitals_try _).then fun _ => Quiet.modify fun _ => rfl
    split <;> rfl
  · exact Quiet.modify fun _ => rfl

theorem takeStock_moves (hsteady : steady → Steady w) (hR : Stays steady R) (specs : List Spec)
    (action : Store.Action) :
    Leads State.vitals R R (takeStock w specs action) := by
  cases action with
  | adopt id =>
    dsimp only [takeStock]
    split
    · exact Leads.bind_sure (adopt_moves hsteady hR _).attempt fun _ => Leads.pure _ fun _ h => h
    · exact Leads.pure _ fun _ h => h
  | removeSpec id =>
    exact Leads.bind_silent (inward_vitals.quiet_storeRemove w id).attempt fun _ => Leads.modify fun _ h => h
  | cleanRuntime id => exact (silent_removeRuntimeDirs (sees w) id).quiet _
  | killCgroup | removeCgroup | deleteVeth => exact (silent_vitals_try _).quiet _
  | markStopped | deleteNftTag => exact Leads.pure _ fun _ h => h

theorem boot_moves (hsteady : steady → Steady w) (hR : Stays steady R) : Leads State.vitals R R (boot w) := by
  refine Leads.peek fun d => Leads.bind_quiet (Quiet.lift _) (fun _ h => h) fun subnet => ?_
  refine Leads.bind_quiet (quiet_loadAll (sees w)) (fun _ h => h) fun specs =>
    Leads.bind_quiet (Quiet.lift _) (fun _ h => h) fun ipam => ?_
  refine Leads.modify_bind (Q := R) (fun _ h => h) fun _ => Leads.bind_silent (inward_vitals.silent_ask _) fun lbs => ?_
  refine (Leads.forM _ fun lb => loadLb_quiet_vitals lb R).bind fun _ => ?_
  have hreconcile : Leads State.vitals R R (reconcile w) := by
    refine Leads.bind_quiet (quiet_loadAll (sees w)) (fun _ h => h) fun specs => ?_
    exact Leads.bind_quiet (quiet_vitals _) (fun _ h => h) fun observed =>
      Leads.forM _ (takeStock_moves hsteady hR specs)
  exact hreconcile.bind fun _ => quiet_flushFirewall_vitals R

/-- What lasts holds in every state that a daemon reaches, and no task is due in it. -/
theorem lifetime_rests (hsteady : steady → Steady w) (hR : Lasts steady R) (outer : σ) (cfg : DaemonSettings)
    (store : SpecStore) (rootMode : RootMode) (hblank : R (blank outer cfg store rootMode).vitals)
    (batches : List (List Event)) (events : List Event) :
    Rested R (lifetime w batches events (boot w (blank outer cfg store rootMode)).2).2.vitals := by
  have hevent (e : Event) := onEvent_moves hsteady hR e
  have hbatch (events : List Event) : Leads State.vitals (Rested R) (Rested R) (batch w events) :=
    Leads.peek fun d => Leads.ite ((Leads.forM _ hevent).bind fun _ => quiet_flushFirewall_vitals _)
      (Leads.pure _ fun _ h => h)
  have hlifetime : Leads State.vitals (Rested R) (Rested R) (lifetime w batches events) :=
    (Leads.forM _ hbatch).bind fun _ => Leads.forM _ hevent
  have hboot : Rested R (boot w (blank outer cfg store rootMode)).2.vitals :=
    (boot_moves hsteady hR.moved.rested).apply ⟨hblank, rfl⟩
  exact hlifetime.apply hboot

theorem lifetime_lasts (hsteady : steady → Steady w) (hR : Lasts steady R) (outer : σ) (cfg : DaemonSettings)
    (store : SpecStore) (rootMode : RootMode) (hblank : R (blank outer cfg store rootMode).vitals)
    (batches : List (List Event)) (events : List Event) :
    R (lifetime w batches events (boot w (blank outer cfg store rootMode)).2).2.vitals :=
  (lifetime_rests hsteady hR outer cfg store rootMode hblank batches events).1

end Programs
end Collocate.Daemon
