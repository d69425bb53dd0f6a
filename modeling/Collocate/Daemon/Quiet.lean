import Collocate.Lib.View
import Collocate.Daemon.Protocol

/-! # Programs that leave a view alone

Most of what the daemon does is not seen in the parts of its state that the statements are about. -/
namespace Collocate.Daemon
set_option autoImplicit false

/-! ## Views -/

/-- The action is on the file of a load balancer. -/
def Act.savesLb : Act → Bool
  | .writeLb _ | .removeLb _ => true
  | _ => false

/-- The request is about secrets or configuration files. -/
def asksFiles : Request → Bool
  | .secretEnsure .. | .secretReveal .. | .secretSet .. | .secretList _ | .secretRemove .. | .configPut .. => true
  | _ => false

/-- The view shows nothing of what the world does, the daemon's files apart, and nothing of connections
and helper processes. -/
structure Overlooks {σ C : Type} (w : World σ) (view : State σ → C) : Prop where
  now : ∀ d, view { d with outer := (w.now d.outer).2 } = view d
  act : ∀ a d, a.savesLb = false → view { d with outer := (w.act a d.outer).2 } = view d
  lowers : ∀ root d, view { d with outer := (w.lowers root d.outer).2 } = view d
  spawn : ∀ spec d, view { d with outer := (w.spawn spec d.outer).2 } = view d
  wait : ∀ token d, view { d with outer := (w.wait token d.outer).2 } = view d
  stats : ∀ id d, view { d with outer := (w.stats id d.outer).2 } = view d
  serve : ∀ request d, asksFiles request = false → view { d with outer := (w.serve request d.outer).2 } = view d
  token : ∀ d n, view { d with nextToken := n } = view d
  conns : ∀ d conns, view { d with conns := conns } = view d
  fuseProcs : ∀ d procs, view { d with fuseProcs := procs } = view d
  probes : ∀ d probes, view { d with probes := probes } = view d

section Programs
variable {σ C : Type} {w : World σ} {view : State σ → C}

theorem Overlooks.quiet_outside {α : Type} {m : Prog σ α}
    (hm : ∀ d : State σ, view { d with outer := (m d.outer).2 } = view d) : Quiet view (outside m) :=
  Quiet.zoom hm

theorem Overlooks.silent_ask {α : Type} {f : σ → α × σ}
    (hf : ∀ d : State σ, view { d with outer := (f d.outer).2 } = view d) : Silent view (ask f) :=
  fun P d hd => show P _ from (hf d).symm ▸ hd

variable (h : Overlooks w view)
include h

/-! ## The world -/

theorem quiet_act (a : Act) (ha : a.savesLb = false) : Quiet view (act w a) :=
  Overlooks.quiet_outside fun d => h.act a d ha

theorem silent_tryAct (a : Act) (ha : a.savesLb = false) : Silent view (tryAct w a) :=
  (quiet_act h a ha).attempt.bind fun _ => Silent.pure _

theorem silent_instantNow : Silent view (instantNow w) := Overlooks.silent_ask h.now

omit h in
theorem silent_addTo (hsums : ∀ (d : State σ) sums, view { d with sums := sums } = view d) (now : Instant) (delay : ℕ) :
    Silent view (addTo now delay : Op σ Instant) :=
  Silent.modify_bind (fun d => hsums d _) fun _ => Silent.pure _

omit h in
theorem silent_execDeadline (hsums : ∀ (d : State σ) sums, view { d with sums := sums } = view d) (now : Instant)
    (timeoutSecs : Option UInt64) : Silent view (execDeadline now timeoutSecs : Op σ (Option Instant)) := by
  cases timeoutSecs with
  | none => exact Silent.pure _
  | some t => exact (silent_addTo hsums _ _).bind fun _ => Silent.pure _

theorem silent_token : Silent view (token : Op σ ℕ) :=
  Silent.modify_bind (fun d => h.token d _) fun _ => Silent.get_bind fun _ => Silent.pure _

theorem quiet_loadAll : Quiet view (loadAll w) :=
  (quiet_act h _ rfl).bind fun _ => Quiet.get_bind fun _ => Quiet.pure _

theorem quiet_storeGet (id : ContainerId) : Quiet view (storeGet w id) := by
  refine Quiet.get_bind fun d => ?_
  split
  · exact Quiet.throw _
  · exact (quiet_act h _ rfl).bind fun _ => Quiet.pure _

theorem quiet_resolve (target : String) : Quiet view (resolve w target) :=
  (quiet_loadAll h).bind fun _ => Quiet.lift _

/-! ## Launching and ending -/

theorem silent_dropConn (conn : ℕ) : Silent view (dropConn w conn) := by
  refine Silent.get_bind fun d => Silent.ite ?_ (Silent.pure _)
  exact Silent.modify_bind (fun d => h.conns d _) fun _ => silent_tryAct h _ rfl

theorem silent_send (conn : ℕ) (response : Response) : Silent view (send w conn response) := by
  refine Silent.get_bind fun d => Silent.ite ?_ (Silent.pure _)
  refine (quiet_act h _ rfl).attempt.bind fun r => ?_
  cases r with
  | ok _ => exact Silent.pure _
  | error _ => exact silent_dropConn h conn

theorem silent_removeRuntimeDirs (id : ContainerId) : Silent view (removeRuntimeDirs w id) := by
  refine Silent.get_bind fun d => Silent.ite ?_ (silent_tryAct h _ rfl)
  refine Silent.modify_bind (fun d => h.fuseProcs d _) fun _ => ?_
  exact (silent_tryAct h _ rfl).bind fun _ => silent_tryAct h _ rfl

theorem silent_cleanupRuntime (id : ContainerId) : Silent view (cleanupRuntime w id) := by
  refine (silent_tryAct h _ rfl).bind fun _ => (silent_tryAct h _ rfl).bind fun _ => ?_
  exact (silent_tryAct h _ rfl).bind fun _ => silent_removeRuntimeDirs h id

theorem quiet_lowers (root : RootSource) : Quiet view (lowers w root) := by
  refine Quiet.get_bind fun d => ?_
  cases root with
  | base => exact Overlooks.quiet_outside (h.lowers _)
  | oci =>
    dsimp only
    split
    · exact Quiet.throw _
    · exact Overlooks.quiet_outside (h.lowers _)

theorem quiet_prepareMount (id : ContainerId) (project : String) (m : Mount) :
    Quiet view (prepareMount w id project m) := by
  cases m with
  | secret => exact quiet_act h _ rfl
  | volume => exact quiet_act h _ rfl
  | _ => exact Quiet.pure _

theorem quiet_prepareRoot (spec : Spec) : Quiet view (prepareRoot w spec) := by
  refine (quiet_lowers h _).bind fun _ => (quiet_act h _ rfl).bind fun _ => Quiet.get_bind fun d => ?_
  exact Quiet.ite ((quiet_act h _ rfl).bind fun _ => Quiet.modify fun d => h.fuseProcs d _) (Quiet.pure _)

/-- A process, or its traces cleared away. -/
theorem quiet_spawn (spec : Spec) (placed : Spec) (addr : Ipv4Addr) :
    Quiet view (do
      match ← Eff.attempt (outside (w.spawn placed)) with
      | .ok pid => pure (addr, pid)
      | .error e =>
        cleanupRuntime w spec.id
        Eff.throw e) := by
  refine (Overlooks.quiet_outside (h.spawn _)).attempt.then fun r => ?_
  cases r with
  | ok pid => exact Quiet.pure _
  | error e => exact (silent_cleanupRuntime h _).then fun _ => Quiet.throw e

theorem silent_exitOf (tok : ℕ) (l : Live) : Silent view (exitOf w tok l) := by
  refine Silent.ite ((Overlooks.quiet_outside (h.wait _)).attempt.bind fun r => ?_) (Silent.pure _)
  rcases r with e | code
  · exact Silent.pure _
  · cases code <;> exact Silent.pure _

/-! ## Requests -/

theorem quiet_pinned (root : RootSource) : Quiet view (pinned w root) := by
  cases root with
  | base => exact Quiet.ite ((quiet_lowers h _).bind fun _ => Quiet.pure _) (Quiet.pure _)
  | oci => exact Quiet.pure _

theorem quiet_opKill (target : String) (signal : ℤ) : Quiet view (opKill w target signal) := by
  refine (quiet_resolve h target).bind fun id => Quiet.get_bind fun d => ?_
  split
  · exact Quiet.throw _
  · exact Quiet.ite ((quiet_act h _ rfl).bind fun _ => Quiet.pure _) ((quiet_act h _ rfl).bind fun _ => Quiet.pure _)

theorem quiet_spawnProbe (id : ContainerId) (argv : List String) (deadline : Instant) (origin : ProbeOrigin) :
    Quiet view (spawnProbe w id argv deadline origin) := by
  refine Quiet.get_bind fun d => Quiet.ite (Quiet.pure _) ?_
  refine (quiet_act h _ rfl).attempt.then fun r => ?_
  cases r with
  | error _ => exact Quiet.pure _
  | ok _ =>
    refine (silent_token h).then fun tok => (quiet_act h _ rfl).attempt.then fun r => ?_
    cases r with
    | error _ => exact Quiet.pure _
    | ok _ => exact Quiet.modify_bind (fun d => h.probes d _) fun _ => Quiet.pure _

theorem quiet_opExecProbe (hsums : ∀ (d : State σ) sums, view { d with sums := sums } = view d) (conn : ℕ)
    (target : String)
    (argv : List String) (timeoutSecs : UInt64) : Quiet view (opExecProbe w conn target argv timeoutSecs) := by
  refine (quiet_resolve h target).bind fun id => (silent_instantNow h).then fun now => ?_
  refine (silent_addTo hsums _ _).then fun deadline => ?_
  exact (quiet_spawnProbe h _ _ _ _).bind fun _ => Quiet.ite (Quiet.pure _) (Quiet.throw _)

theorem quiet_opPs (all : Bool) (project : Option String) : Quiet view (opPs w all project) :=
  (quiet_loadAll h).bind fun _ => Quiet.get_bind fun _ => Quiet.pure _

theorem quiet_statsOf (l : Live) : Quiet view (statsOf w l) :=
  (Overlooks.quiet_outside (h.stats _)).attempt.then fun _ => Quiet.pure _

theorem quiet_opStats (project : Option String) : Quiet view (opStats w project) :=
  Quiet.get_bind fun _ => (Quiet.collect _ (quiet_statsOf h)).bind fun _ => Quiet.pure _

omit h in
theorem quiet_opLbList : Quiet view (opLbList : Op σ (Option Response)) := Quiet.get_bind fun _ => Quiet.pure _

omit h in
theorem quiet_requireConn (conn : ℕ) : Quiet view (requireConn conn : Op σ Unit) :=
  Quiet.get_bind fun _ => Quiet.ite (Quiet.pure _) (Quiet.throw _)

theorem quiet_targetProject (target : String) : Quiet view (targetProject w target) :=
  (quiet_resolve h target).bind fun _ => (quiet_storeGet h _).bind fun _ => Quiet.pure _

theorem quiet_requireGateway (conn : ℕ) : Quiet view (requireGateway w conn) := by
  refine (quiet_requireConn conn).bind fun _ => (quiet_act h _ rfl).attempt.then fun r => ?_
  cases r with
  | ok _ => exact Quiet.pure _
  | error _ => exact Quiet.throw _

omit h in
theorem quiet_forbidUnless (allowed : Bool) (message : String) :
    Quiet view (forbidUnless allowed message : Op σ Bool) :=
  Quiet.ite (Quiet.pure _) (Quiet.throw _)

theorem quiet_authorize (caller : Caller) (verb : String) (access : Access) :
    Quiet view (authorize caller verb access (targetProject w)) := by
  refine Quiet.ite (Quiet.throw _) (Quiet.ite (Quiet.throw _) ?_)
  cases access.scope with
  | «open» => exact Quiet.pure _
  | internal => exact Quiet.pure _
  | project p => exact quiet_forbidUnless _ _
  | filtered p =>
    cases p with
    | none => exact Quiet.pure _
    | some p => exact quiet_forbidUnless _ _
  | target t => exact Quiet.ite ((quiet_targetProject h t).bind fun _ => quiet_forbidUnless _ _) (Quiet.pure _)
  | unrestricted => exact quiet_forbidUnless _ _

theorem quiet_serve (request : Request) (hr : asksFiles request = false) :
    Quiet view (outside (w.serve request)) :=
  Overlooks.quiet_outside fun d => h.serve request d hr

theorem quiet_serveFor (target : String) (request : Request) (hr : asksFiles request = false) :
    Quiet view (serveFor w target request) :=
  (quiet_resolve h target).bind fun _ => (quiet_storeGet h _).bind fun _ => quiet_serve h request hr

theorem silent_accept : Silent view (accept w) := by
  refine (silent_token h).bind fun tok => (quiet_act h _ rfl).attempt.bind fun r => ?_
  cases r with
  | ok _ => exact Silent.modify fun d => h.conns d _
  | error _ => exact Silent.pure _

end Programs

/-! ## Inward views -/

/-- The view shows nothing of the world, and neither the stored specs nor the addresses. -/
structure Inward {σ C : Type} (view : State σ → C) : Prop where
  outer : ∀ d s, view { d with outer := s } = view d
  store : ∀ d store, view { d with store := store } = view d
  ipam : ∀ d ipam, view { d with ipam := ipam } = view d
  token : ∀ d n, view { d with nextToken := n } = view d
  conns : ∀ d conns, view { d with conns := conns } = view d
  fuseProcs : ∀ d procs, view { d with fuseProcs := procs } = view d
  probes : ∀ d probes, view { d with probes := probes } = view d

theorem inward_core {σ : Type} : Inward (State.core (σ := σ)) :=
  ⟨fun _ _ => rfl, fun _ _ => rfl, fun _ _ => rfl, fun _ _ => rfl, fun _ _ => rfl, fun _ _ => rfl, fun _ _ => rfl⟩

namespace Inward
variable {σ C : Type} {view : State σ → C} (h : Inward view) (w : World σ)
include h

theorem overlooks : Overlooks w view where
  now d := h.outer d _
  act _ d _ := h.outer d _
  lowers _ d := h.outer d _
  spawn _ d := h.outer d _
  wait _ d := h.outer d _
  stats _ d := h.outer d _
  serve _ d _ := h.outer d _
  token := h.token
  conns := h.conns
  fuseProcs := h.fuseProcs
  probes := h.probes

theorem quiet_outside {α : Type} (m : Prog σ α) : Quiet view (outside m) := Overlooks.quiet_outside fun d => h.outer d _

theorem silent_ask {α : Type} (f : σ → α × σ) : Silent view (ask f) := Overlooks.silent_ask fun d => h.outer d _

theorem silent_try (a : Act) : Silent view (tryAct w a) := (h.quiet_outside _).attempt.bind fun _ => Silent.pure _

theorem quiet_storeWrite (change : Write) (f : SpecStore → SpecStore) : Quiet view (storeWrite w change f) := by
  refine (h.silent_ask _).then fun r => ?_
  cases r with
  | done => exact Quiet.modify fun d => h.store d _
  | failed e applied =>
    cases applied
    · exact Quiet.throw e
    · exact Quiet.modify_bind (fun d => h.store d _) fun _ => Quiet.throw e

theorem quiet_storeCreate (spec : Spec) : Quiet view (storeCreate w spec) := by
  refine Quiet.get_bind fun d => ?_
  split
  · exact Quiet.throw _
  · dsimp only
    split
    · exact (Quiet.pure _).bind fun _ => Quiet.ite (Quiet.throw _) (h.quiet_storeWrite w _ _)
    · exact (quiet_loadAll (h.overlooks w)).bind fun _ => Quiet.ite (Quiet.throw _) (h.quiet_storeWrite w _ _)

theorem quiet_storeUpdate (spec : Spec) : Quiet view (storeUpdate w spec) :=
  Quiet.get_bind fun _ => Quiet.ite (h.quiet_storeWrite w _ _) (Quiet.throw _)

theorem quiet_storeRemove (id : ContainerId) : Quiet view (storeRemove w id) :=
  Quiet.get_bind fun _ => Quiet.ite (h.quiet_storeWrite w _ _) (Quiet.throw _)

theorem quiet_purge (id : ContainerId) : Quiet view (purge w id) := by
  refine (h.quiet_storeRemove w id).bind fun _ => (h.silent_try w _).then fun _ => ?_
  exact Quiet.modify_bind (fun d => h.ipam d _) fun _ => (silent_removeRuntimeDirs (h.overlooks w) id).quiet

theorem quiet_assignAddress (spec : Spec) : Quiet view (assignAddress spec : Op σ Ipv4Addr) := by
  refine Quiet.get_bind fun d => ?_
  split
  · exact (Quiet.lift _).bind fun _ => Quiet.modify_bind (fun d => h.ipam d _) fun _ => Quiet.pure _
  · exact (Quiet.lift _).bind fun _ => Quiet.modify_bind (fun d => h.ipam d _) fun _ => Quiet.pure _

theorem quiet_place (spec : Spec) : Quiet view (place w spec) := by
  have hhosts (addr : Ipv4Addr) : Quiet view (act w (.writeHostFiles spec.id addr) >>= fun _ => pure addr) :=
    (h.quiet_outside _).bind fun _ => Quiet.pure addr
  refine (h.quiet_assignAddress spec).bind fun addr => ?_
  exact Quiet.ite ((h.quiet_storeUpdate w _).bind fun _ => hhosts addr) (hhosts addr)

theorem quiet_prepareLaunch (spec : Spec) : Quiet view (prepareLaunch w spec) := by
  refine (quiet_prepareRoot (h.overlooks w) spec).bind fun _ => (h.quiet_place w spec).bind fun addr => ?_
  refine (Quiet.forM _ (quiet_prepareMount (h.overlooks w) _ _)).bind fun _ => ?_
  refine (h.quiet_outside _).bind fun _ => Quiet.get_bind fun d => (Quiet.lift _).bind fun _ => ?_
  exact quiet_spawn (h.overlooks w) spec _ addr

theorem quiet_assignVip (lb : LbSpec) : Quiet view (assignVip w lb) := by
  refine Quiet.get_bind fun d => ?_
  split
  · exact (Quiet.lift _).bind fun _ => Quiet.modify_bind (fun d => h.ipam d _) fun _ => Quiet.pure _
  · exact (Quiet.lift _).bind fun _ => Quiet.modify_bind (fun d => h.ipam d _) fun _ => Quiet.pure _

end Inward

/-! ## The core -/

section Core
variable {σ : Type} (w : World σ)

theorem blind : Overlooks w State.core := inward_core.overlooks w

theorem quiet_core {α : Type} (m : Prog σ α) : Quiet State.core (outside m) := inward_core.quiet_outside m

theorem silent_core {α : Type} (f : σ → α × σ) : Silent State.core (ask f) := inward_core.silent_ask f

theorem silent_core_try (a : Act) : Silent State.core (tryAct w a) := inward_core.silent_try w a

theorem quiet_storeCreate (spec : Spec) : Quiet State.core (storeCreate w spec) := inward_core.quiet_storeCreate w spec

theorem quiet_storeUpdate (spec : Spec) : Quiet State.core (storeUpdate w spec) := inward_core.quiet_storeUpdate w spec

theorem quiet_storeRemove (id : ContainerId) : Quiet State.core (storeRemove w id) := inward_core.quiet_storeRemove w id

theorem quiet_purge (id : ContainerId) : Quiet State.core (purge w id) := inward_core.quiet_purge w id

theorem quiet_prepareLaunch (spec : Spec) : Quiet State.core (prepareLaunch w spec) :=
  inward_core.quiet_prepareLaunch w spec

theorem quiet_assignVip (lb : LbSpec) : Quiet State.core (assignVip w lb) := inward_core.quiet_assignVip w lb

end Core
end Collocate.Daemon
