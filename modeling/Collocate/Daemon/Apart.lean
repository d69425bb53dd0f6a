import Collocate.Daemon.Quiet

/-! # What belongs to a container

On the host a container's resources go by names that are made from its id. Launching and ending a container
leaves alone whatever goes by other names. -/
namespace Collocate.Daemon
set_option autoImplicit false

/-! ## Programs for one container -/

/-- The action is for the container, or for none. -/
def Act.About (id : ContainerId) : Act → Prop
  | .createDirs id' | .fuseOverlay id' | .umountFuse id' | .writeHostFiles id' _ | .writeSecret id' _ _ |
    .createCgroup id' _
  | .killCgroup id' | .removeCgroup id' | .teardownVeth id' | .removeRuntimeDirs id' | .writeRuntime id' _ => id' = id
  | .deleteVeth _ => False
  | _ => True

/-- The view shows nothing of what is done for the container. -/
structure Apart {σ C : Type} (w : World σ) (view : State σ → C) (id : ContainerId) : Prop where
  now : ∀ d, view { d with outer := (w.now d.outer).2 } = view d
  acts : ∀ a d, a.About id → view { d with outer := (w.act a d.outer).2 } = view d
  write : ∀ change d, view { d with outer := (w.write change d.outer).2 } = view d
  roots : ∀ root d, view { d with outer := (w.lowers root d.outer).2 } = view d
  spawn : ∀ spec d, spec.id = id → view { d with outer := (w.spawn spec d.outer).2 } = view d
  wait : ∀ token d, view { d with outer := (w.wait token d.outer).2 } = view d
  within : ∀ d d' : State σ, d'.outer = d.outer → (∀ other, other ≠ id → d'.fuseProcs other = d.fuseProcs other) →
    (∀ owner, owner ≠ id.display → d'.ipam.byOwner owner = d.ipam.byOwner owner) → view d' = view d

section Addresses
variable {m m' : Ipam} {addr : Ipv4Addr} {owner other : String}

theorem reserve_elsewhere (h : m.reserve addr owner = .ok m') (hne : other ≠ owner) :
    m'.byOwner other = m.byOwner other := by
  unfold Ipam.reserve at h
  split at h
  · cases h
  split at h
  · cases h
  · cases h
    exact Function.update_of_ne hne ..

theorem release_elsewhere (hne : other ≠ owner) : (m.release owner).byOwner other = m.byOwner other := by
  unfold Ipam.release
  split
  · exact Function.update_of_ne hne ..
  · rfl

theorem allocateFrom_elsewhere {fuel : ℕ} {cur : UInt32} (h : m.allocateFrom owner fuel cur = .ok (addr, m'))
    (hne : other ≠ owner) :
    m'.byOwner other = m.byOwner other := by
  induction fuel generalizing cur with
  | zero => cases h
  | succ fuel ih =>
    unfold Ipam.allocateFrom at h
    split at h
    · obtain ⟨m'', hreserve, hdone⟩ := Result.bind_ok h
      cases hdone
      exact reserve_elsewhere hreserve hne
    · exact ih h

theorem allocate_elsewhere (h : m.allocate owner = .ok (addr, m')) (hne : other ≠ owner) :
    m'.byOwner other = m.byOwner other := by
  unfold Ipam.allocate at h
  split at h
  · cases h
    rfl
  · exact allocateFrom_elsewhere h hne

end Addresses

namespace Apart
variable {σ C : Type} {w : World σ} {view : State σ → C} {id : ContainerId} (h : Apart w view id)
include h

/-- A change of what no container goes by. -/
theorem inside (d d' : State σ) (houter : d'.outer = d.outer) (hfuse : d'.fuseProcs = d.fuseProcs)
    (hipam : d'.ipam = d.ipam) :
    view d' = view d :=
  h.within d d' houter (fun _ _ => by rw [hfuse]) fun _ _ => by rw [hipam]

theorem quiet_act (a : Act) (ha : a.About id) : Quiet view (act w a) :=
  Overlooks.quiet_outside fun d => h.acts a d ha

theorem silent_try (a : Act) (ha : a.About id) : Silent view (tryAct w a) :=
  (h.quiet_act a ha).attempt.bind fun _ => Silent.pure _

theorem silent_now : Silent view (instantNow w) := Overlooks.silent_ask h.now

theorem silent_note (n : Note) : Silent view (note n : Op σ Unit) := Silent.modify fun d => h.inside d _ rfl rfl rfl

theorem silent_mark (m : Mark) : Silent view (mark m : Op σ Unit) := Silent.modify fun d => h.inside d _ rfl rfl rfl

theorem silent_sum (now : Instant) (delay : ℕ) : Silent view (addTo now delay : Op σ Instant) :=
  silent_addTo (fun d _ => h.inside d _ rfl rfl rfl) now delay

theorem silent_token : Silent view (token : Op σ ℕ) :=
  Silent.modify_bind (fun d => h.inside d _ rfl rfl rfl) fun _ => Silent.get_bind fun _ => Silent.pure _

/-! ## Ending it -/

theorem silent_dropConn (conn : ℕ) : Silent view (dropConn w conn) := by
  refine Silent.get_bind fun d => Silent.ite ?_ (Silent.pure _)
  exact Silent.modify_bind (fun d => h.inside d _ rfl rfl rfl) fun _ => h.silent_try (.epollRemove conn) trivial

theorem silent_send (conn : ℕ) (response : Response) : Silent view (send w conn response) := by
  refine Silent.get_bind fun d => Silent.ite ?_ (Silent.pure _)
  refine (h.quiet_act (.send conn response) trivial).attempt.bind fun r => ?_
  cases r with
  | ok => exact Silent.pure _
  | error => exact h.silent_dropConn conn

theorem silent_answer (code : ℤ) (waiter : Waiter) : Silent view (answer w id code waiter) := by
  unfold answer
  cases waiter.kind with
  | wait => exact h.silent_send _ _
  | stop => exact Silent.modify_bind (fun d => h.inside d _ rfl rfl rfl) fun _ => h.silent_send _ _

theorem silent_removeRuntimeDirs : Silent view (removeRuntimeDirs w id) := by
  have hremove : Silent view (tryAct w (.removeRuntimeDirs id)) := h.silent_try _ rfl
  refine Silent.get_bind fun d => Silent.ite ?_ hremove
  refine Silent.modify_bind (fun d => ?_) fun _ => (h.silent_try (.umountFuse id) rfl).bind fun _ => hremove
  exact h.within _ _ rfl (fun other hother => Function.update_of_ne hother ..) fun _ _ => rfl

theorem silent_cleanupRuntime : Silent view (cleanupRuntime w id) := by
  refine (h.silent_try (.killCgroup id) rfl).bind fun _ => (h.silent_try (.removeCgroup id) rfl).bind fun _ => ?_
  exact (h.silent_try (.teardownVeth id) rfl).bind fun _ => h.silent_removeRuntimeDirs

theorem quiet_storeWrite (change : Write) (f : SpecStore → SpecStore) : Quiet view (storeWrite w change f) := by
  refine (Overlooks.silent_ask fun d => h.write change d).then fun r => ?_
  cases r with
  | done => exact Quiet.modify fun d => h.inside d _ rfl rfl rfl
  | failed e applied =>
    cases applied
    · exact Quiet.throw e
    · exact Quiet.modify_bind (fun d => h.inside d _ rfl rfl rfl) fun _ => Quiet.throw e

theorem quiet_storeUpdate (spec : Spec) : Quiet view (storeUpdate w spec) :=
  Quiet.get_bind fun _ => Quiet.ite (h.quiet_storeWrite _ _) (Quiet.throw _)

theorem quiet_storeRemove : Quiet view (storeRemove w id) :=
  Quiet.get_bind fun _ => Quiet.ite (h.quiet_storeWrite _ _) (Quiet.throw _)

theorem quiet_purge : Quiet view (purge w id) := by
  refine h.quiet_storeRemove.bind fun _ => (h.silent_try .purgeTrash trivial).then fun _ => ?_
  refine Quiet.modify_bind (fun d => ?_) fun _ => h.silent_removeRuntimeDirs.quiet
  exact h.within _ _ rfl (fun _ _ => rfl) fun owner howner => release_elsewhere howner

theorem silent_afterExit (spec : Spec) (code : ℤ) : Silent view (afterExit w id spec code) := by
  refine Silent.get_bind fun d => Silent.modify_bind (fun d => h.inside d _ rfl rfl rfl) fun _ => ?_
  refine Silent.ite (Silent.modify_bind (fun d => h.inside d _ rfl rfl rfl) fun _ => ?_) (Silent.ite ?_ (Silent.pure _))
  · refine h.silent_now.bind fun now => (h.silent_sum _ _).bind fun time => ?_
    exact Silent.modify fun d => h.inside d _ rfl rfl rfl
  · refine h.silent_now.bind fun now => (h.silent_sum _ _).bind fun time => ?_
    exact Silent.modify fun d => h.inside d _ rfl rfl rfl

theorem silent_onExit (code : Option ℤ) : Silent view (onExit w id code) := by
  refine Silent.get_bind fun d => ?_
  split
  · exact Silent.pure _
  rename_i l _
  refine Silent.modify_bind (fun d => h.inside d _ rfl rfl rfl) fun _ =>
    (h.silent_try (.epollRemove l.token) trivial).bind fun _ => ?_
  refine (h.quiet_storeUpdate _).attempt.bind fun _ => h.silent_cleanupRuntime.bind fun _ =>
    h.silent_now.bind fun now => ?_
  have hrest (code : ℤ) : Silent view (do
      l.waiters.forM (answer w id code)
      afterExit w id l.spec code
      Eff.modify fun d => { d with fwDirty := true }) := by
    refine (Silent.forM _ fun v => h.silent_answer code v).bind fun _ => (h.silent_afterExit _ _).bind fun _ => ?_
    exact Silent.modify fun d => h.inside d _ rfl rfl rfl
  refine (h.silent_mark _).bind fun _ => Silent.ite ?_ (hrest _)
  exact Silent.modify_bind (fun d => h.inside d _ rfl rfl rfl) fun _ => hrest _

theorem silent_reapLoop (deadline : Instant) (left : ℕ) : Silent view (reapLoop w id deadline left) := by
  induction left with
  | zero => exact h.silent_onExit none
  | succ left ih =>
    refine h.silent_now.bind fun now => Silent.ite (Silent.get_bind fun d => ?_) (h.silent_onExit none)
    split
    · exact Silent.pure _
    · refine (Overlooks.quiet_outside fun d => h.wait _ d).attempt.bind fun r => ?_
      split
      · exact h.silent_onExit _
      · exact ih
      · exact h.silent_onExit none

theorem silent_reapIdle : Silent view (reapIdle w id) := by
  have hreap : Silent view (reapBlocking w id) :=
    h.silent_now.bind fun now => (h.silent_sum _ _).bind fun deadline => h.silent_reapLoop deadline 500
  have hpurge : Silent view (Eff.attempt (purge w id) >>= fun _ => pure ()) := h.quiet_purge.attempt.bind fun _ =>
    Silent.pure _
  refine Silent.get_bind fun d => Silent.ite ?_ hpurge
  exact (h.silent_try (.killCgroup id) rfl).bind fun _ => hreap.bind fun _ => hpurge

/-! ## Launching it -/

theorem quiet_lowers (root : RootSource) : Quiet view (lowers w root) := by
  have hlowers : Quiet view (outside (w.lowers root)) := Overlooks.quiet_outside fun d => h.roots root d
  refine Quiet.get_bind fun d => ?_
  split
  · exact hlowers
  · exact Quiet.ite (Quiet.throw _) hlowers

omit h in
/-- A container's own address is reserved, or it gets one; no other's is touched. -/
theorem assignAddress_elsewhere (spec : Spec) (d : State σ) :
    ∃ ipam : Ipam, (assignAddress spec d).2 = { d with ipam } ∧
      ∀ owner, owner ≠ spec.id.display → ipam.byOwner owner = d.ipam.byOwner owner := by
  have hsame : ∃ ipam : Ipam, d = { d with ipam } ∧
      ∀ owner, owner ≠ spec.id.display → ipam.byOwner owner = d.ipam.byOwner owner := ⟨d.ipam, rfl, fun _ _ => rfl⟩
  unfold assignAddress
  rw [Eff.get_bind_apply]
  cases spec.net.addr with
  | some a =>
    dsimp only
    cases hreserve : d.ipam.reserve a spec.id.display with
    | ok ipam => exact ⟨ipam, rfl, fun _ hne => reserve_elsewhere hreserve hne⟩
    | error e => exact hsame
  | none =>
    dsimp only
    cases hallocate : d.ipam.allocate spec.id.display with
    | ok r => exact ⟨r.2, rfl, fun _ hne => allocate_elsewhere hallocate hne⟩
    | error e => exact hsame

theorem quiet_assignAddress {spec : Spec} (hid : spec.id = id) : Quiet view (assignAddress spec : Op σ Ipv4Addr) := by
  refine Quiet.of_eq fun d => ?_
  obtain ⟨ipam, hend, hipam⟩ := assignAddress_elsewhere spec d
  rw [hend]
  exact h.within d _ rfl (fun _ _ => rfl) fun owner howner => hipam owner (hid ▸ howner)

theorem quiet_prepareMount (project : String) (m : Mount) : Quiet view (prepareMount w id project m) := by
  cases m with
  | secret name target => exact h.quiet_act (.writeSecret id project name) rfl
  | volume name target => exact h.quiet_act (.createVolume name) trivial
  | _ => exact Quiet.pure _

theorem quiet_prepareRoot {spec : Spec} (hid : spec.id = id) : Quiet view (prepareRoot w spec) := by
  refine (h.quiet_lowers _).bind fun _ => (h.quiet_act (.createDirs spec.id) hid).bind fun _ =>
    Quiet.get_bind fun d => ?_
  refine Quiet.ite ((h.quiet_act (.fuseOverlay spec.id) hid).bind fun _ => Quiet.modify fun d => ?_) (Quiet.pure _)
  exact h.within _ _ rfl (fun other hother => Function.update_of_ne (hid ▸ hother) ..) fun _ _ => rfl

theorem quiet_place {spec : Spec} (hid : spec.id = id) : Quiet view (place w spec) := by
  have hhosts (addr : Ipv4Addr) : Quiet view (act w (.writeHostFiles spec.id addr) >>= fun _ => pure addr) :=
    (h.quiet_act (.writeHostFiles spec.id addr) hid).bind fun _ => Quiet.pure addr
  refine (h.quiet_assignAddress hid).bind fun addr => ?_
  exact Quiet.ite ((h.quiet_storeUpdate _).bind fun _ => hhosts addr) (hhosts addr)

theorem quiet_prepareLaunch {spec : Spec} (hid : spec.id = id) : Quiet view (prepareLaunch w spec) := by
  refine (h.quiet_prepareRoot hid).bind fun _ => (h.quiet_place hid).bind fun addr => ?_
  refine (Quiet.forM _ fun m => hid ▸ h.quiet_prepareMount _ m).bind fun _ => ?_
  refine (h.quiet_act (.createCgroup spec.id spec.limits) hid).bind fun _ => Quiet.get_bind fun d =>
    (Quiet.lift _).bind fun _ => ?_
  refine (Overlooks.quiet_outside fun d => h.spawn (placedAt spec addr) d hid).attempt.then fun r => ?_
  cases r with
  | ok pid => exact Quiet.pure _
  | error e => exact (hid ▸ h.silent_cleanupRuntime).then fun _ => Quiet.throw e

theorem silent_scheduleIdleReap (idleTimeoutSecs : Option UInt64) :
    Silent view (scheduleIdleReap w id idleTimeoutSecs) := by
  cases idleTimeoutSecs with
  | none => exact Silent.pure _
  | some t =>
    refine h.silent_now.bind fun now => (h.silent_sum _ _).bind fun time => ?_
    exact Silent.modify fun d => h.inside d _ rfl rfl rfl

theorem silent_enter (spec : Spec) (pid : ℤ) (tok : ℕ) (child : Bool) : Silent view (enter w spec pid tok child) := by
  refine h.silent_now.bind fun started => h.silent_now.bind fun lastCheck => h.silent_now.bind fun lastActivity => ?_
  exact Silent.modify fun d => h.inside d _ rfl rfl rfl

theorem quiet_launch {spec : Spec} (hid : spec.id = id) : Quiet view (launch w spec) := by
  refine (h.silent_note _).then fun _ => (h.quiet_prepareLaunch hid).bind fun placed =>
    h.silent_token.then fun tok => ?_
  refine (h.quiet_act (.epollAdd tok) trivial).bind fun _ =>
    Quiet.modify_bind (fun d => h.inside d _ rfl rfl rfl) fun _ => ?_
  refine (h.silent_try (.writeRuntime spec.id _) hid).then fun _ => (h.quiet_storeUpdate _).attempt.then fun _ => ?_
  refine (h.silent_enter _ _ _ _).then fun _ => (hid ▸ h.silent_scheduleIdleReap _).then fun _ => ?_
  exact Quiet.modify fun d => h.inside d _ rfl rfl rfl

end Apart
end Collocate.Daemon
