import Collocate.Daemon.Quiet

/-! # The handlers follow the protocol

A handler is a sequence of quiet programs, which leave the core alone, and of steps, so that whatever
every step preserves the handler preserves, whether it succeeds or fails. -/
namespace Collocate.Daemon
set_option autoImplicit false

section Programs
variable {σ : Type} (w : World σ)

/-! ## Launching -/

variable {inits : Prop} {R : Core → Prop}

theorem sure_scheduleIdleReap (id : ContainerId) (t : Option UInt64)
    (h : ∀ c, R c → R { c with schedule := c.schedule ++ [.reapIdle id] }) :
    Surely State.core R R (scheduleIdleReap w id t) := by
  cases t with
  | none => exact Silent.pure _ R
  | some t =>
    refine (silent_instantNow (blind w) R).bind fun now => Surely.modify fun d hd => ?_
    rw [core_schedule]
    exact h d.core hd

theorem Closed.reapIdle (hR : Closed inits R) (id : ContainerId) (c : Core) (hc : R c) :
    R { c with schedule := c.schedule ++ [.reapIdle id] } :=
  hR _ _ (.later c fun _ => by simp) hc

theorem enter_face (spec : Spec) (pid : ℤ) (token : ℕ) (child : Bool) {P Q : Core → Prop}
    (h : ∀ c f, f.spec = spec → f.stopRequested = false → f.stops = 0 → P c →
      Q { c with live := c.live.insert spec.id f }) : Surely State.core P Q (enter w spec pid token child) := by
  refine (silent_instantNow (blind w) P).bind fun started => (silent_instantNow (blind w) P).bind fun lastCheck => ?_
  refine (silent_instantNow (blind w) P).bind fun lastActivity => Surely.modify fun d hd => ?_
  show Q ({ d with live := d.live.insert spec.id _ } : State σ).core
  rw [core_live_insert]
  exact h d.core _ rfl rfl rfl hd

theorem launch_leads (hR : Closed inits R) (spec : Spec) :
    Leads State.core (fun c => R c ∧ c.Ready spec.id) R (launch w spec) := by
  let Begun (c : Core) : Prop := R c ∧ c.log.getLast? = some (.launching spec.id)
  have hbegun (c : Core) : Begun c → R c := And.left
  refine Leads.modify_bind (Q := Begun) (fun d hd => ⟨?_, by simp [State.core]⟩) fun _ => ?_
  · exact hR _ _ (.launching hd.2) hd.1
  refine Leads.bind_quiet (quiet_prepareLaunch w spec) hbegun fun r => ?_
  refine Leads.bind_silent (silent_token (blind w)) fun tok =>
    Leads.bind_quiet (quiet_act (blind w) _ rfl) hbegun fun _ => ?_
  refine Leads.bind_silent (Silent.modify fun _ => rfl) fun _ =>
    Leads.bind_silent (silent_tryAct (blind w) _ rfl) fun _ => ?_
  refine Leads.bind_silent (quiet_storeUpdate w _).attempt fun _ => ?_
  -- The container is in before the flag is set.
  refine Leads.bind_sure (Q := Owed R) (enter_face w _ _ _ _ ?_) fun _ => ?_
  · rintro c f hspec hstop hstops ⟨hc, hlog⟩
    have hid : f.spec.id = spec.id := by rw [hspec]; rfl
    have hstep : Step inits c { c with live := c.live.insert f.spec.id f, fwDirty := true } :=
      .launched (hid ▸ hlog) hstop hstops
    rw [hid] at hstep
    exact hR _ _ hstep hc
  · refine Leads.bind_sure (sure_scheduleIdleReap w _ _ (hR.owed.reapIdle _)) fun _ => ?_
    exact Leads.modify fun d hd => hd

/-! ## Ending -/

/-- `n` clients have the answer to their `Stop`. -/
def Core.told (c : Core) (id : ContainerId) (n : ℕ) : Core :=
  { c with log := c.log ++ List.replicate n (.stopped id (c.pending id)) }

theorem Core.told_told (c : Core) (id : ContainerId) (m n : ℕ) : (c.told id m).told id n = c.told id (m + n) := by
  have hpending : (c.told id m).pending id = c.pending id := rfl
  show { c with
    log := c.log ++ List.replicate m _ ++ List.replicate n (Note.stopped id ((c.told id m).pending id)) } = _
  rw [hpending, List.append_assoc, List.replicate_append_replicate]
  rfl

theorem sure_noteStopped (id : ContainerId) (c : Core) :
    Surely (State.core (σ := σ)) (fun d => d = c) (fun d => d = c.told id 1) (noteStopped id) := by
  refine Surely.modify fun d hd => ?_
  subst hd
  simp [Core.told, State.core, relaunchPending_core]

theorem sure_answer (id : ContainerId) (code : ℤ) (waiter : Waiter) (c : Core) :
    Surely State.core (fun d => d = c) (fun d => d = c.told id (if waiter.kind = .stop then 1 else 0))
      (answer w id code waiter) := by
  unfold answer
  cases waiter.kind with
  | wait => simpa [Core.told] using silent_send (blind w) waiter.conn (.exit code) fun d => d = c
  | stop => exact (sure_noteStopped id c).bind fun _ => silent_send (blind w) waiter.conn .ok _

theorem sure_answers (id : ContainerId) (code : ℤ) (waiters : List Waiter) (c : Core) :
    Surely State.core (fun d => d = c) (fun d => d = c.told id (waiters.countP fun v => v.kind == .stop))
      (waiters.forM (answer w id code)) := by
  induction waiters generalizing c with
  | nil => simpa [Core.told] using Silent.pure (S := State σ) (ε := Error) PUnit.unit fun d => d = c
  | cons waiter waiters ih =>
    refine (sure_answer w id code waiter c).bind fun _ => ?_
    have hrest := ih (c.told id (if waiter.kind = .stop then 1 else 0))
    rw [Core.told_told, Nat.add_comm] at hrest
    simpa [List.countP_cons] using hrest

/-- What the container left on the schedule is its own relaunch at most, and that only if it was not
stopped. -/
def Leaves (c : Core) (id : ContainerId) (d : Core) : Prop :=
  ∃ later : List Task, (∀ id', Task.relaunch id' ∈ later → id' = id ∧ c.userStopped id = false) ∧
    d = { c with userStopped := Function.update c.userStopped id false, schedule := c.schedule ++ later }

theorem sure_afterExit (id : ContainerId) (spec : Spec) (code : ℤ) (c : Core) :
    Surely State.core (fun d => d = c) (Leaves c id) (afterExit w id spec code) := by
  let Forgiven (d : Core) : Prop := d = { c with userStopped := Function.update c.userStopped id false }
  refine Surely.get_bind fun d hd => ?_
  subst hd
  refine Surely.bind (Q := Forgiven) (Surely.modify fun d' hd' => ?_) fun _ => ?_
  · show { d'.core with userStopped := Function.update d'.core.userStopped id false } = _
    rw [hd']
  have hpush (t : Task) (ht : ∀ id', t = .relaunch id' → id' = id ∧ d.userStopped id = false) (at' : Instant) :
      Surely (State.core (σ := σ)) Forgiven (Leaves d.core id)
        (Eff.modify fun d => { d with schedule := d.schedule ++ [(at', t)] } : Op σ Unit) := by
    refine Surely.modify fun d' hd' => ⟨[t], fun id' hmem => ht id' (List.mem_singleton.mp hmem).symm, ?_⟩
    rw [core_schedule, hd']
  split
  · rename_i hrestart
    have hstopped : d.userStopped id = false := by
      rcases h : d.userStopped id with _ | _
      · rfl
      · simp [shouldRestart, h] at hrestart
    refine Surely.bind (Surely.modify fun _ hd' => hd') fun _ =>
      (silent_instantNow (blind w) Forgiven).bind fun now => ?_
    exact hpush _ (fun id' heq => ⟨(Task.relaunch.inj heq).symm, hstopped⟩) _
  · split
    · exact (silent_instantNow (blind w) Forgiven).bind fun now => hpush _ (fun _ heq => by cases heq) _
    · refine Eff.Triple.pure fun d' hd' => ⟨[], by simp, ?_⟩
      rw [hd', List.append_nil]

theorem onExit_leads (hR : Closed inits R) (id : ContainerId) (code : Option ℤ) :
    Leads State.core R R (onExit w id code) := by
  refine Leads.get_bind fun d hd => ?_
  split
  · exact Leads.pure _ fun c hc => hc ▸ hd
  rename_i l hl
  let gone : Core := { d.core with live := d.core.live.erase id }
  refine Leads.modify_bind (Q := fun c => c = gone) (fun d' hd' => ?_) fun _ => ?_
  · show { d'.core with live := (d'.live.erase id).mapValues fun _ l => l.face } = gone
    rw [OrdMap.mapValues_erase]
    show { d'.core with live := d'.core.live.erase id } = gone
    rw [hd']
  refine Leads.bind_silent (silent_tryAct (blind w) _ rfl) fun _ =>
    Leads.bind_silent (quiet_storeUpdate w _).attempt fun _ => ?_
  refine Leads.bind_silent (silent_cleanupRuntime (blind w) id) fun _ =>
    Leads.bind_silent (silent_instantNow (blind w)) fun now => ?_
  have hend : Leads State.core (fun c => c = gone) R (do
      l.waiters.forM (answer w id (code.getD (-1)))
      afterExit w id l.spec (code.getD (-1))
      Eff.modify fun d => { d with fwDirty := true }) := by
    refine Leads.bind_sure (sure_answers w id _ l.waiters gone) fun _ => ?_
    refine Leads.bind_sure (sure_afterExit w id l.spec _ _) fun _ => Leads.modify ?_
    rintro d' ⟨later, hlater, hcore⟩
    have hstep : Step inits d.core (d.core.exited id l.face later) := .exited (core_live_get? hl) hlater
    have hexited : d'.core.dirty = d.core.exited id l.face later := by rw [hcore]; rfl
    show R d'.core.dirty
    rw [hexited]
    exact hR _ _ hstep hd
  refine Leads.bind_silent (Silent.modify fun _ => rfl) fun _ => ?_
  split
  · exact Leads.bind_silent (Silent.modify fun _ => rfl) fun _ => hend
  · exact hend

theorem reapLoop_leads (hR : Closed inits R) (id : ContainerId) (deadline : Instant) (left : ℕ) :
    Leads State.core R R (reapLoop w id deadline left) := by
  induction left with
  | zero => exact onExit_leads w hR id none
  | succ left ih =>
    refine Leads.bind_silent (silent_instantNow (blind w)) fun now => Leads.ite ?_ (onExit_leads w hR id none)
    refine Leads.get_bind fun d hd => Leads.pre (P := R) ?_ fun c hc => hc ▸ hd
    split
    · exact Leads.pure _ fun _ h => h
    · refine Leads.bind_silent (quiet_core _).attempt fun r => ?_
      rcases r with e | code
      · exact onExit_leads w hR id none
      · cases code with
        | none => exact ih
        | some code => exact onExit_leads w hR id (some code)

theorem reapBlocking_leads (hR : Closed inits R) (id : ContainerId) : Leads State.core R R (reapBlocking w id) :=
  Leads.bind_silent (silent_instantNow (blind w)) fun _ => Leads.bind_silent (silent_addTo (fun _ _ => rfl) _ _)
    fun _ =>
    reapLoop_leads w hR id _ _

theorem reapIdle_leads (hR : Closed inits R) (id : ContainerId) : Leads State.core R R (reapIdle w id) := by
  have hpurge : Leads State.core R R (Eff.attempt (purge w id) >>= fun _ => pure ()) :=
    Leads.bind_silent (quiet_purge w id).attempt fun _ => Leads.pure _ fun _ h => h
  refine Leads.peek fun d => Leads.ite ?_ hpurge
  refine Leads.bind_silent (silent_tryAct (blind w) _ rfl) fun _ => ?_
  exact (reapBlocking_leads w hR id).bind fun _ => hpurge

/-! ## Requests -/

theorem storeGet_id {id : ContainerId} {d d' : State σ} {spec : Spec} (h : storeGet w id d = (.ok spec, d')) :
    spec.id = id := by
  obtain ⟨d₀, d₁, hget, h⟩ := Eff.bind_ok h
  cases hspec : d₀.store.get? id with
  | none =>
    simp only [hspec] at h
    cases h
  | some found =>
    simp only [hspec] at h
    obtain ⟨u, d₂, -, h⟩ := Eff.bind_ok h
    cases h
    exact d₀.store.keyed id _ hspec

@[simp] theorem named_id (spec : Spec) : (named spec).id = spec.id := by
  unfold named
  split <;> rfl

/-- A launch right after the request for it. -/
def Asked (R : Core → Prop) (id : ContainerId) (c : Core) : Prop := R c ∧ c.log.getLast? = some (.asked id)

theorem Asked.ready {id : ContainerId} {c : Core} (h : Asked R id c) : R c ∧ c.Ready id := ⟨h.1, Or.inl h.2⟩

theorem sure_noteAsked (hR : Closed inits R) (id : ContainerId) :
    Surely (State.core (σ := σ)) R (Asked R id) (note (.asked id)) :=
  Surely.modify fun d hd => ⟨hR _ _ (.asked d.core id) hd, by simp [State.core]⟩

theorem opRun_leads (hR : Closed inits R) (spec : Spec) : Leads State.core R R (opRun w spec) := by
  have hasked (c : Core) : Asked R spec.id c → R c := And.left
  refine Leads.bind_sure (sure_noteAsked hR spec.id) fun _ => ?_
  refine Leads.bind_quiet Quiet.get hasked fun d => Leads.bind_quiet (Quiet.lift _) hasked fun limits => ?_
  refine Leads.bind_quiet (Quiet.lift _) hasked fun _ =>
    Leads.bind_quiet (quiet_pinned (blind w) _) hasked fun root => ?_
  refine Leads.bind_quiet (quiet_storeCreate w _) hasked fun _ => ?_
  refine Leads.bind_sure (Q := R) ((launch_leads w hR _).pre fun c hc => ?_).attempt fun r => ?_
  · simpa using hc.ready
  cases r with
  | ok _ => exact Leads.pure _ fun _ h => h
  | error e => exact Leads.bind_silent (quiet_purge w _).attempt fun _ => Leads.throw e fun _ h => h

/-- The launch of a stored container that was asked for. -/
theorem launchStored_leads (hR : Closed inits R) (id : ContainerId) :
    Leads State.core R R (do
      note (.asked id)
      launch w (← storeGet w id)
      pure (some Response.ok)) := by
  refine Leads.bind_sure (sure_noteAsked hR id) fun _ => ?_
  refine Leads.bind_quiet_result (quiet_storeGet (blind w) id) (fun _ _ _ => storeGet_id w) (fun _ h => h.1)
    fun spec hid => ?_
  refine Leads.bind ((launch_leads w hR spec).pre fun c hc => ?_) fun _ => Leads.pure _ fun _ h => h
  rw [hid]
  exact hc.ready

theorem opStart_leads (hR : Closed inits R) (target : String) : Leads State.core R R (opStart w target) := by
  refine Leads.bind_quiet (quiet_resolve (blind w) target) (fun _ h => h) fun id => Leads.get_bind fun d hd => ?_
  split
  · exact Leads.throw _ fun c hc => hc ▸ hd
  rename_i hlive
  have hnone : d.core.live.get? id = none := core_live_none (by simpa [OrdMap.contains] using hlive)
  refine Leads.modify_bind (Q := R) (fun d' hd' => ?_) fun _ => launchStored_leads w hR id
  have hstep := hR _ _ (.pardoned hnone) hd
  rw [← hd'] at hstep
  exact hstep

theorem opRestart_leads (hR : Closed inits R) (target : String) : Leads State.core R R (opRestart w target) := by
  refine Leads.bind_quiet (quiet_resolve (blind w) target) (fun _ h => h) fun id => Leads.peek fun d => ?_
  exact Leads.ite (Leads.throw _ fun _ h => h) (launchStored_leads w hR id)

theorem opStop_leads (hR : Closed inits R) (conn : ℕ) (target : String) (timeout : Option UInt64) :
    Leads State.core R R (opStop w conn target timeout) := by
  have hnone : Leads (State.core (σ := σ)) R R (pure none : Op σ (Option Response)) := Leads.pure _ fun _ h => h
  refine Leads.bind_quiet (quiet_resolve (blind w) target) (fun _ h => h) fun id => Leads.get_bind fun d hd => ?_
  split
  · rename_i hgone
    refine Leads.bind_sure ((sure_noteStopped id _).pre fun _ hc => hc) fun _ => Leads.pure _ fun c hc => ?_
    rw [hc]
    exact hR _ _ (.answered (core_live_none hgone)) hd
  rename_i l hl
  have hlive := core_live_get? hl
  split
  · rename_i hstop
    refine Leads.modify_bind (Q := R) (fun d' hd' => ?_) fun _ => hnone
    have hstep := hR _ _ (.join hlive hstop) hd
    rw [← hd'] at hstep
    rw [core_live_insert]
    simpa [Live.face] using hstep
  · rename_i hstop
    refine Leads.bind_silent (silent_instantNow (blind w)) fun now => ?_
    refine Leads.modify_bind (Q := R) (fun d' hd' => ?_) fun _ => hnone
    have hstep := hR _ _ (.stop hlive (Bool.eq_false_iff.mpr hstop)) hd
    rw [← hd'] at hstep
    simpa [State.core, OrdMap.mapValues_insert, Live.face] using hstep

theorem opWait_leads (conn : ℕ) (target : String) : Leads State.core R R (opWait w conn target) := by
  refine Leads.bind_quiet (quiet_resolve (blind w) target) (fun _ h => h) fun id => Leads.get_bind fun d hd => ?_
  split
  · rename_i l hl
    refine Leads.modify_bind (Q := R) (fun d' hd' => ?_) fun _ => Leads.pure _ fun _ h => h
    rw [core_live_touch, hd']
    · exact hd
    · rw [hd', core_live_get? hl]
      simp [Live.face]
  · exact ((quiet_storeGet (blind w) id).bind fun _ => Quiet.pure _).leads fun c hc => hc ▸ hd

theorem opRm_leads (hR : Closed inits R) (target : String) (force : Bool) :
    Leads State.core R R (opRm w target force) := by
  have hpurge (id : ContainerId) : Leads State.core R R (purge w id >>= fun _ => pure (some Response.ok)) :=
    ((quiet_purge w id).bind fun _ => Quiet.pure _).leads fun _ h => h
  refine Leads.bind_quiet (quiet_resolve (blind w) target) (fun _ h => h) fun id =>
    Leads.peek fun d => Leads.ite ?_ (hpurge id)
  refine Leads.ite (Leads.bind_quiet (Quiet.throw _) (fun _ h => h) fun _ => ?_) ?_
  all_goals
    refine Leads.bind_quiet (quiet_act (blind w) _ rfl) (fun _ h => h) fun _ => ?_
    exact (reapBlocking_leads w hR id).bind fun _ => hpurge id

theorem opExec_leads (hR : Closed inits R) (conn : ℕ) (target : String) (argv : List String)
    (timeoutSecs : Option UInt64) (service : Option String) :
    Leads State.core R R (opExec w conn target argv timeoutSecs service) := by
  refine Leads.bind_quiet (quiet_resolve (blind w) target) (fun _ h => h) fun id => ?_
  refine Leads.bind_quiet (quiet_act (blind w) _ rfl) (fun _ h => h) fun _ => Leads.get_bind fun d hd => ?_
  have hsame (c : Core) (hc : c = d.core) : R c := hc ▸ hd
  split
  · exact Leads.throw _ hsame
  rename_i l hl
  refine Leads.ite (Leads.bind_quiet (Quiet.throw _) hsame fun _ => ?_) ?_
  all_goals
    refine Leads.bind_quiet (quiet_act (blind w) _ rfl) hsame fun _ =>
      Leads.bind_silent (silent_instantNow (blind w)) fun now => ?_
    refine Leads.modify_bind (Q := R) (fun d' hd' => ?_) fun _ => ?_
    · show R ({ d' with live := d'.live.insert id _ } : State σ).core
      rw [core_live_touch (by rw [hd', core_live_get? hl]; rfl)]
      exact hsame _ hd'
    refine Leads.bind_sure (sure_scheduleIdleReap w _ _ (hR.reapIdle _)) fun _ => ?_
    refine (((silent_token (blind w)).then fun tok => (quiet_act (blind w) _ rfl).bind fun _ => ?_)).leads fun _ h => h
    refine (silent_instantNow (blind w)).then fun now =>
      (silent_execDeadline (fun _ _ => rfl) _ _).then fun deadline => ?_
    exact Quiet.modify_bind (fun _ => rfl) fun _ => Quiet.pure _

theorem opLbSet_leads (hR : Closed inits R) (lb : LbSpec) : Leads State.core R R (opLbSet w lb) := by
  refine Leads.bind_quiet (quiet_assignVip w lb) (fun _ h => h) fun vip => ?_
  refine Leads.bind_quiet (quiet_act (blind w) _ rfl) (fun _ h => h) fun _ => ?_
  refine Leads.bind_quiet (quiet_core _) (fun _ h => h) fun _ => Leads.modify fun d hd => ?_
  exact hR _ _ (.balanced d.core _) hd

theorem opLbRemove_leads (hR : Closed inits R) (project name : String) :
    Leads State.core R R (opLbRemove w project name) := by
  refine Leads.peek fun d => ?_
  split
  · exact Leads.throw _ fun _ h => h
  rename_i lb hlb
  -- The flag is set last; until then `R` is owed.
  refine Leads.modify_bind (Q := Owed R) (fun d' hd' => hR _ _ (.balanced d'.core _) hd') fun _ => ?_
  refine Leads.bind_silent (silent_core_try w _) fun _ => ?_
  have hend : Leads State.core (Owed R) R (do
      Eff.modify fun d => { d with ipam := d.ipam.release (vipOwner project name), fwDirty := true }
      pure (some Response.ok) : Op σ (Option Response)) :=
    Leads.modify_bind (Q := R) (fun d' hd' => hd') fun _ => Leads.pure _ fun _ h => h
  split
  · exact Leads.bind_silent (silent_tryAct (blind w) _ rfl) fun _ => hend
  · exact hend

theorem evict_leads (hR : Closed inits R) (id : ContainerId) : Leads State.core R R (evict w id) := by
  have hpurge : Leads State.core R R (purge w id) := quiet_purge w id R
  refine Leads.peek fun d => Leads.ite ?_ hpurge
  refine Leads.bind_quiet (quiet_act (blind w) _ rfl) (fun _ h => h) fun _ => ?_
  exact (reapBlocking_leads w hR id).bind fun _ => hpurge

theorem forgetLb_leads (hR : Closed inits R) (hinits : inits) (lb : LbSpec) : Leads State.core R R (forgetLb w lb) :=
  Leads.modify_bind (Q := R) (fun d hd => hR _ _ (.forgot hinits d.core _) hd) fun _ => (silent_core_try w _).quiet R

theorem clearNode_leads (hR : Closed inits R) (hinits : inits) (force : Bool) :
    Leads State.core R R (clearNode w force) := by
  refine Leads.bind_quiet (quiet_loadAll (blind w)) (fun _ h => h) fun specs => Leads.peek fun d => ?_
  refine Leads.ite (Leads.bind_quiet (Quiet.throw _) (fun _ h => h) fun _ => ?_) ?_
  all_goals
    refine (Leads.forM _ fun s : Spec => evict_leads w hR s.id).bind fun _ => ?_
    exact Leads.forM _ (forgetLb_leads w hR hinits)

theorem opInit_leads (hR : Closed inits R) (hinits : inits) (conn : ℕ) (settings : DaemonSettings) (force : Bool) :
    Leads State.core R R (opInit w conn settings force) := by
  have hact {α : Type} {a : Act} {f : Unit → Op σ α} (hf : ∀ u, Leads State.core R R (f u)) :
      Leads State.core R R (act w a >>= f) :=
    Leads.bind_quiet (quiet_core _) (fun _ h => h) hf
  have hok : Leads State.core R R (pure (some Response.ok) : Op σ (Option Response)) := Leads.pure _ fun _ h => h
  refine Leads.bind_quiet (quiet_requireConn conn) (fun _ h => h) fun _ => hact fun _ => hact fun _ => ?_
  refine Leads.peek fun d => Leads.ite (Leads.ite ?_ hok) ?_
  · refine hact fun _ => hact fun _ => ?_
    refine Leads.modify_bind (Q := R) (fun d' hd' => hR _ _ (.configured hinits d'.core _) hd') fun _ => ?_
    exact Leads.ite (hact fun _ => hok) hok
  · have hrestart : Leads State.core R R (do
        act w (.updateNode settings)
        act w (.writeConfig settings)
        Eff.modify fun d => { d with shutdown := true }
        pure (some Response.ok)) :=
      hact fun _ => hact fun _ => Leads.modify_bind (Q := R) (fun _ h => h) fun _ => hok
    refine hact fun _ => Leads.ite ?_ hrestart
    exact (clearNode_leads w hR hinits force).bind fun _ => hrestart

/-- The request is an `Init`, or asks for one on someone's behalf. -/
def asksInit : Request → Bool
  | .init .. => true
  | .as _ request => asksInit request
  | _ => false

theorem handle_leads (hR : Closed inits R) (conn : ℕ) (request : Request) (hinits : asksInit request = true → inits) :
    Leads State.core R R (handle w conn request) := by
  induction request with
  | run spec => exact (opRun_leads w hR spec).bind fun _ => Leads.pure _ fun _ h => h
  | start => exact opStart_leads w hR _
  | stop => exact opStop_leads w hR conn _ _
  | restart => exact opRestart_leads w hR _
  | kill => exact quiet_opKill (blind w) _ _ R
  | rm => exact opRm_leads w hR _ _
  | wait => exact opWait_leads w conn _
  | logs => exact quiet_serveFor (blind w) _ _ rfl R
  | exec => exact opExec_leads w hR conn _ _ _ _
  | execProbe => exact quiet_opExecProbe (blind w) (fun _ _ => rfl) conn _ _ _ R
  | commit => exact quiet_serveFor (blind w) _ _ rfl R
  | ps => exact quiet_opPs (blind w) _ _ R
  | stats => exact quiet_opStats (blind w) _ R
  | lbSet lb => exact (opLbSet_leads w hR lb).bind fun _ => Leads.pure _ fun _ h => h
  | lbRemove => exact opLbRemove_leads w hR _ _
  | lbList => exact quiet_opLbList R
  | init => exact opInit_leads w hR (hinits rfl) conn _ _
  | as caller request ih =>
    refine Leads.bind_quiet (quiet_requireGateway (blind w) conn) (fun _ h => h) fun _ => ?_
    refine Leads.bind_quiet (quiet_authorize (blind w) caller _ _) (fun _ h => h) fun _ => ?_
    exact (ih hinits).bind fun _ => Leads.pure _ fun _ h => h
  | shutdown => exact Leads.modify_bind (Q := R) (fun _ h => h) fun _ => Leads.pure _ fun _ h => h
  | _ => exact quiet_core _ R

/-! ## Health -/

theorem recordHealth_leads (hR : Closed inits R) (id : ContainerId) (ok : Bool) :
    Leads State.core R R (recordHealth w id ok) := by
  refine Leads.get_bind fun d hd => ?_
  have hsame (c : Core) (hc : c = d.core) : R c := hc ▸ hd
  split
  · exact Leads.pure _ hsame
  rename_i l hl
  have hlive := core_live_get? hl
  split
  · exact Leads.pure _ hsame
  rename_i t ht
  by_cases hstate : (t.record ok).state = t.state
  · refine Leads.modify_bind (Q := R) (fun d' hd' => ?_) fun _ => ?_
    · rw [core_live_touch]
      · exact hsame _ hd'
      · rw [hd', hlive]
        simp [Live.face, ht, hstate]
    · rw [if_neg (not_not.mpr hstate)]
      exact Leads.pure _ fun _ h => h
  · refine Leads.modify_bind (Q := Owed R) (fun d' hd' => ?_) fun _ => ?_
    · have hstep := hR _ _ (.verdict hlive (some (t.record ok).state)) hd
      rw [← hd'] at hstep
      rw [core_live_insert]
      exact hstep
    · rw [if_pos hstate]
      exact Leads.bind_silent (silent_tryAct (blind w) _ rfl) fun _ => Leads.modify fun _ h => h

theorem probe_leads (hR : Closed inits R) (now : Instant) (id : ContainerId) (hc : Healthcheck)
    (addr : Option Ipv4Addr) :
    Leads State.core R R (probe w now id hc addr) := by
  unfold probe
  split
  · exact Leads.bind_silent (silent_core _) fun ok => recordHealth_leads w hR id ok
  · exact Leads.bind_silent (silent_core _) fun ok => recordHealth_leads w hR id ok
  · exact Leads.pure _ fun _ h => h
  · exact Leads.pure _ fun _ h => h
  · refine Leads.bind_silent (silent_addTo (fun _ _ => rfl) _ _) fun _ => ?_
    refine Leads.bind_quiet (quiet_spawnProbe (blind w) _ _ _ _) (fun _ h => h) fun started => ?_
    exact Leads.ite (recordHealth_leads w hR id false) (Leads.pure _ fun _ h => h)
  · exact Leads.bind_silent (silent_core _) fun problem => recordHealth_leads w hR id _

theorem checkHealth_leads (hR : Closed inits R) (now : Instant) : Leads State.core R R (checkHealth w now) := by
  refine Leads.peek fun d => Leads.bind_silent (Silent.modify fun d' => ?_) fun _ => ?_
  · have hface (id : ContainerId) (l : Live) (p : Bool) :
        (if p then { l with lastCheck := now } else l).face = l.face := by
      cases p <;> rfl
    simp only [State.core, OrdMap.mapValues_mapValues fun id l => hface id l _]
  · exact Leads.forM _ fun e => probe_leads w hR now _ _ _

/-! ## The timer -/

theorem runTask_leads (hR : Closed inits R) (now : Instant) (task : Task) :
    Leads State.core (fun c => R c ∧ task ∈ c.due) R (runTask w now task) := by
  cases task with
  | relaunch id =>
    have hstored (d : State σ) (r : Result Spec) (d' : State σ) (h : Eff.attempt (storeGet w id) d = (.ok r, d'))
        (spec : Spec) (hr : r = .ok spec) : spec.id = id := by
      obtain ⟨hfst, hsnd⟩ := Prod.mk.inj h
      refine storeGet_id w (d := d) (Prod.ext ?_ hsnd)
      rw [← hr]
      exact Except.ok.inj hfst
    refine Leads.bind_quiet_result (quiet_storeGet (blind w) id).attempt.quiet hstored (fun _ h => h.1) fun r hr => ?_
    cases r with
    | error e => exact Leads.pure _ fun _ h => h.1
    | ok spec =>
      refine Leads.bind_quiet Quiet.get (fun _ h => h.1) fun d => Leads.ite ?_ (Leads.pure _ fun _ h => h.1)
      refine Leads.bind_sure ((launch_leads w hR spec).pre fun c hc => ?_).attempt fun _ => Leads.modify fun _ h => h
      rw [hr spec rfl]
      exact ⟨hc.1, Or.inr hc.2⟩
  | removeExited id =>
    refine Leads.pre (P := R) ?_ fun _ h => h.1
    refine Leads.peek fun d => Leads.ite ?_ (Leads.pure _ fun _ h => h)
    refine Leads.bind_silent (quiet_storeGet (blind w) id).attempt fun r => ?_
    cases r with
    | error e => exact Leads.pure _ fun _ h => h
    | ok spec =>
      refine Leads.ite ?_ (Leads.pure _ fun _ h => h)
      exact Leads.bind_silent (quiet_purge w id).attempt fun _ => Leads.pure _ fun _ h => h
  | reapIdle id =>
    refine Leads.pre (P := R) ?_ fun _ h => h.1
    refine Leads.peek fun d => Leads.ite ?_ (Leads.pure _ fun _ h => h)
    exact Leads.bind_silent (Silent.modify fun _ => rfl) fun _ => reapIdle_leads w hR id

theorem runDue_leads (hR : Preserved inits R) (now : Instant) (tasks : List Task) :
    Leads State.core (fun c => R c ∧ c.due = tasks) R (runDue w now tasks) := by
  induction tasks with
  | nil => exact Leads.pure _ fun _ h => h.1
  | cons task rest ih =>
    have htask := runTask_leads w (hR.step.at_due (task :: rest)) now task
    refine Leads.bind_via (htask.pre fun c hc => ⟨hc, ?_⟩) (fun _ h => h.1) fun _ => ?_
    · rw [hc.2]
      exact List.mem_cons_self
    · refine Leads.modify_bind (Q := fun c => R c ∧ c.due = rest) (fun d hd => ⟨?_, rfl⟩) fun _ => ih
      exact hR.done d.core task rest hd.2 hd.1

theorem pressStop_leads (now : Instant) (id : ContainerId) : Leads State.core R R (pressStop w now id) := by
  refine Leads.get_bind fun d hd => ?_
  split
  · exact Leads.pure _ fun c hc => hc ▸ hd
  rename_i l hl
  refine Leads.modify_bind (Q := R) (fun d' hd' => ?_) fun _ => ?_
  · rw [core_live_touch (by rw [hd', core_live_get? hl]; rfl), hd']
    exact hd
  · refine Leads.ite (Leads.bind_silent (silent_tryAct (blind w) _ rfl) fun _ => ?_) ?_
    all_goals exact Leads.ite ((silent_tryAct (blind w) _ rfl).quiet R) (Leads.pure _ fun _ h => h)

theorem onTimer_leads (hR : Preserved inits R) : Leads State.core R R (onTimer w) := by
  refine Leads.bind_silent (silent_tryAct (blind w) _ rfl) fun _ =>
    Leads.bind_silent (silent_instantNow (blind w)) fun now => ?_
  refine Leads.get_bind fun d hd => ?_
  let due := (d.schedule.filter fun e => decide (e.1 ≤ now)).map Prod.snd
  refine Leads.modify_bind (Q := fun c => R c ∧ c.due = due) (fun d' hd' => ⟨?_, rfl⟩) fun _ => ?_
  · refine hR.fired d'.core _ due (fun t ht => ?_) (hd' ▸ hd)
    rcases ht with ht | ht
    · obtain ⟨e, he, rfl⟩ := List.mem_map.mp ht
      exact List.mem_map_of_mem (List.mem_filter.mp he).1
    · obtain ⟨e, he, rfl⟩ := List.mem_map.mp ht
      rw [hd']
      exact List.mem_map_of_mem (List.mem_filter.mp he).1
  have hkill {α : Type} {a : α → Act} (as : List α) : Leads State.core R R (as.forM fun e => tryAct w (a e)) :=
    Leads.forM _ fun e => (silent_core_try w _).quiet R
  refine (runDue_leads w hR now due).bind fun _ => Leads.peek fun d => ?_
  refine (Leads.forM _ fun id => pressStop_leads w now id).bind fun _ => Leads.peek fun d => ?_
  refine (hkill _).bind fun _ => (hkill _).bind fun _ => Leads.ite ?_ (Leads.pure _ fun _ h => h)
  exact Leads.modify_bind (Q := R) (fun _ h => h) fun _ => checkHealth_leads w hR.step now

/-! ## Events -/

theorem onPidfd_leads (hR : Closed inits R) (tok : ℕ) : Leads State.core R R (onPidfd w tok) := by
  refine Leads.peek fun d => ?_
  split
  · split
    · exact Leads.pure _ fun _ h => h
    · refine Leads.bind_silent (silent_exitOf (blind w) tok _) fun r => ?_
      cases r with
      | none => exact Leads.pure _ fun _ h => h
      | some code => exact onExit_leads w hR _ code
  · split
    · refine Leads.bind_silent (quiet_core _).attempt fun r => ?_
      split
      · refine Leads.bind_silent (silent_tryAct (blind w) _ rfl) fun _ => ?_
        exact Leads.modify_bind (Q := R) (fun _ h => h) fun _ => (silent_send (blind w) _ _).quiet R
      · exact Leads.pure _ fun _ h => h
    · refine Leads.bind_silent (quiet_core _).attempt fun r => ?_
      split
      · refine Leads.bind_silent (silent_tryAct (blind w) _ rfl) fun _ =>
          Leads.modify_bind (Q := R) (fun _ h => h) fun _ => ?_
        split
        · exact recordHealth_leads w hR _ _
        · exact (silent_send (blind w) _ _).quiet R
      · exact Leads.pure _ fun _ h => h
    · exact Leads.pure _ fun _ h => h

def Event.isInit : Event → Bool
  | .request _ r => asksInit r
  | _ => false

theorem onEvent_leads (hR : Preserved inits R) (e : Event) (hinits : e.isInit = true → inits) :
    Leads State.core R R (onEvent w e) := by
  cases e with
  | connect => exact (silent_accept (blind w)).quiet R
  | request conn request =>
    refine Leads.peek fun d => Leads.ite ?_ (Leads.pure _ fun _ h => h)
    refine Leads.bind_sure (handle_leads w hR.step conn request hinits).attempt fun r => ?_
    rcases r with e | _ | response
    · exact (silent_send (blind w) conn _).quiet R
    · exact Leads.pure _ fun _ h => h
    · exact (silent_send (blind w) conn _).quiet R
  | garbled conn => exact (silent_send (blind w) conn _).quiet R
  | hangup conn =>
    exact Leads.peek fun d => Leads.ite ((silent_dropConn (blind w) conn).quiet R) (Leads.pure _ fun _ h => h)
  | pidfd tok => exact onPidfd_leads w hR.step tok
  | timer => exact onTimer_leads w hR
  | terminate => exact Leads.modify fun _ h => h

/-! ## Runs -/

/-- `R` survives the firewall being brought up to date. -/
def Flushed (σ : Type) (R : Core → Prop) : Prop :=
  ∀ d : State σ, R d.core → R { d.core with fwDirty := false, script := some d.ruleset.render }

theorem flushFirewall_leads (hflush : Flushed σ R) : Leads State.core R R (flushFirewall w) := by
  refine Eff.Triple.get_bind fun d hd => ?_
  split
  · refine Eff.Triple.bind (Q := fun _ d => R d.core) (Eff.Triple.modify fun d' hd' => ?_) fun _ => ?_
    · rw [hd']
      exact hflush d hd
    · exact (silent_tryAct (blind w) _ rfl).quiet R
  · exact Eff.Triple.pure fun d' hd' => hd' ▸ hd

theorem batch_leads (hR : Preserved inits R) (hflush : Flushed σ R) (events : List Event)
    (hinits : ∀ e ∈ events, e.isInit = true → inits) : Leads State.core R R (batch w events) := by
  refine Leads.peek fun d => Leads.ite ?_ (Leads.pure _ fun _ h => h)
  have hevents : Leads State.core R R (events.forM (onEvent w)) :=
    Eff.Keeps.forM events fun e he => onEvent_leads w hR e (hinits e he)
  exact hevents.bind fun _ => flushFirewall_leads w hflush

/-- Before the first event. -/
structure Booting (R : Core → Prop) (c : Core) : Prop where
  holds : R c
  dirty : c.fwDirty = true
  log : c.log = []

theorem Booting.step {c c' : Core} (hR : Closed inits R) (h : Booting R c) (hstep : Step inits c c'.dirty)
    (hdirty : c'.fwDirty = c.fwDirty) (hlog : c'.log = c.log) : Booting R c' := by
  have hc' : c'.dirty = c' := by
    obtain ⟨⟩ := c'
    cases hdirty.trans h.dirty
    rfl
  exact ⟨hc' ▸ hR _ _ hstep h.holds, hdirty.trans h.dirty, hlog.trans h.log⟩

theorem loadLb_leads (hR : Closed inits R) (lb : LbSpec) : Leads State.core (Booting R) (Booting R) (loadLb w lb) := by
  have hinsert : Leads State.core (Booting R) (Booting R) (Eff.modify fun d : State σ =>
      { d with lbs := d.lbs.insert (lbKey lb.project lb.name) lb } : Op σ Unit) :=
    Leads.modify fun d hd => hd.step hR (.balanced d.core _) rfl rfl
  unfold loadLb
  split
  · refine Leads.bind_silent (Silent.modify fun d => ?_) fun _ =>
      Leads.bind_silent (silent_tryAct (blind w) _ rfl) fun _ => hinsert
    split <;> rfl
  · exact hinsert

theorem adopt_leads (hR : Closed inits R) (spec : Spec) : Leads State.core (Booting R) (Booting R) (adopt w spec) := by
  refine Leads.bind_quiet (quiet_core _) (fun _ h => h) fun pid =>
    Leads.bind_silent (silent_token (blind w)) fun tok => ?_
  refine Leads.bind_quiet (quiet_act (blind w) _ rfl) (fun _ h => h) fun _ => ?_
  refine Leads.bind_silent (Silent.modify fun _ => rfl) fun _ => ?_
  refine Leads.bind_sure (Q := Booting R) (enter_face w _ _ _ _ fun c f hspec hstop hstops hc => ?_) fun _ => ?_
  · subst hspec
    exact hc.step hR (.adopted f hc.log hstop hstops) rfl rfl
  · refine Leads.of_sure (sure_scheduleIdleReap w _ _ fun c hc => ?_)
    exact ⟨hR.reapIdle _ _ hc.holds, hc.dirty, hc.log⟩

theorem takeStock_leads (hR : Closed inits R) (specs : List Spec) (action : Store.Action) :
    Leads State.core (Booting R) (Booting R) (takeStock w specs action) := by
  cases action with
  | adopt id =>
    dsimp only [takeStock]
    split
    · exact Leads.bind_sure (adopt_leads w hR _).attempt fun _ => Leads.pure _ fun _ h => h
    · exact Leads.pure _ fun _ h => h
  | removeSpec id =>
    exact Leads.bind_silent (quiet_storeRemove w id).attempt fun _ => Leads.modify fun _ h => h
  | cleanRuntime id => exact (silent_removeRuntimeDirs (blind w) id).quiet _
  | killCgroup | removeCgroup | deleteVeth => exact (silent_tryAct (blind w) _ rfl).quiet _
  | markStopped | deleteNftTag => exact Leads.pure _ fun _ h => h

theorem boot_leads (hR : Closed inits R) (hflush : Flushed σ R) : Leads State.core (Booting R) R (boot w) := by
  have hholds (c : Core) : Booting R c → R c := Booting.holds
  refine Leads.bind_quiet Quiet.get hholds fun d => Leads.bind_quiet (Quiet.lift _) hholds fun subnet => ?_
  refine Leads.bind_quiet (quiet_loadAll (blind w)) hholds fun specs =>
    Leads.bind_quiet (Quiet.lift _) hholds fun ipam => ?_
  refine Leads.bind_silent (Silent.modify fun _ => rfl) fun _ => Leads.bind_silent (silent_core _) fun lbs => ?_
  refine Leads.bind_via (Leads.forM _ (loadLb_leads w hR)) hholds fun _ => ?_
  have hreconcile : Leads State.core (Booting R) (Booting R) (reconcile w) := by
    refine Leads.bind_quiet (quiet_loadAll (blind w)) (fun _ h => h) fun specs => ?_
    refine Leads.bind_quiet (quiet_core _) (fun _ h => h) fun observed => ?_
    exact Leads.forM _ (takeStock_leads w hR specs)
  exact Leads.bind_via hreconcile hholds fun _ => (flushFirewall_leads w hflush).pre hholds

theorem lifetime_leads (hR : Preserved inits R) (hflush : Flushed σ R) (batches : List (List Event))
    (events : List Event) (hinits : ∀ e ∈ batches.flatten ++ events, e.isInit = true → inits) :
    Leads State.core R R (lifetime w batches events) := by
  have hbatches : Leads State.core R R (batches.forM (batch w)) := by
    refine Eff.Keeps.forM batches fun events hmem => batch_leads w hR hflush events fun e he => ?_
    exact hinits e (List.mem_append_left _ (List.mem_flatten_of_mem hmem he))
  refine hbatches.bind fun _ => ?_
  exact Eff.Keeps.forM events fun e he => onEvent_leads w hR e (hinits e (List.mem_append_right _ he))

/-- What every run preserves holds in every state that a daemon reaches. -/
theorem lifetime_holds (hR : Preserved inits R) (hflush : Flushed σ R) (outer : σ) (cfg : DaemonSettings)
    (store : SpecStore) (rootMode : RootMode) (hblank : R (blank outer cfg store rootMode).core)
    (batches : List (List Event)) (events : List Event)
    (hinits : ∀ e ∈ batches.flatten ++ events, e.isInit = true → inits) :
    R (lifetime w batches events (boot w (blank outer cfg store rootMode)).2).2.core := by
  have hboot : R (boot w (blank outer cfg store rootMode)).2.core :=
    (boot_leads w hR.step hflush).apply ⟨hblank, rfl, rfl⟩
  exact (lifetime_leads w hR hflush batches events hinits).apply hboot

end Programs
end Collocate.Daemon
