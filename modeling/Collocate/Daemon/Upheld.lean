import Collocate.Daemon.Books
import Collocate.Daemon.Refine

/-! # What runs uphold

A statement about the ledger that launching, ending and removing containers, the timer and the load
balancers keep is kept by every event, so it holds in every state that a run reaches. Some statements
are only kept by runs whose `Run` requests and due tasks meet a condition. -/
namespace Collocate.Daemon
set_option autoImplicit false

/-! ## Runs under conditions -/

/-- The spec that the request asks to run, perhaps on someone's behalf. -/
def runOf : Request → Option Spec
  | .run spec => some spec
  | .as _ request => runOf request
  | _ => none

section Runs
variable {σ : Type} (w : World σ) (mayRun : Spec → Books → Prop) (mayDo : Task → State σ → Prop)

/-- The first part of `onTimer`: the tasks that are due are taken off the schedule. -/
def fire : Op σ (Instant × List Task) := do
  tryAct w .reapWorkers
  let now ← instantNow w
  let d ← Eff.get
  let due := (d.schedule.filter fun e => decide (e.1 ≤ now)).map Prod.snd
  Eff.modify fun d => { d with schedule := d.schedule.filter fun e => !decide (e.1 ≤ now), due, timer := now }
  pure (now, due)

/-- The last part of `onTimer`: signals, deadlines and health. -/
def press (now : Instant) : Op σ Unit := do
  let d ← Eff.get
  d.live.keys.forM (pressStop w now)
  let d ← Eff.get
  (d.probes.entries.filter fun e => decide (e.2.deadline ≤ now)).forM fun e => tryAct w (.killProbe e.1)
  (d.execs.entries.filter fun e => e.2.deadline.any fun t => decide (t ≤ now)).forM fun e => tryAct w (.killExec e.1)
  if healthTick ≤ now - d.lastHealth then
    Eff.modify fun d => { d with lastHealth := now }
    checkHealth w now

theorem onTimer_fired {d d' : State σ} {now : Instant} {due : List Task} (h : fire w d = (.ok (now, due), d')) :
    onTimer w d = (runDue w now due >>= fun _ => press w now) d' := by
  cases h
  rfl

/-- Each due task meets the condition when its turn comes. -/
def DueMeets (now : Instant) : List Task → State σ → Prop
  | [], _ => True
  | task :: rest, d => mayDo task d ∧ DueMeets now rest { (runTask w now task d).2 with due := rest }

/-- The event meets the conditions on specs to run and tasks that are due. -/
def Meets : Event → State σ → Prop
  | .request _ request, d => ∀ spec, runOf request = some spec → mayRun spec d.books
  | .timer, d => ∀ now due d', fire w d = (.ok (now, due), d') → DueMeets w mayDo now due d'
  | _, _ => True

theorem dueMeets_of_all (hdo : ∀ task d, mayDo task d) (now : Instant) (tasks : List Task) (d : State σ) :
    DueMeets w mayDo now tasks d := by
  induction tasks generalizing d with
  | nil => trivial
  | cons task rest ih => exact ⟨hdo task d, ih _⟩

/-- Conditions that always hold are always met. -/
theorem meets_of_all (hrun : ∀ spec b, mayRun spec b) (hdo : ∀ task d, mayDo task d) (e : Event) (d : State σ) :
    Meets w mayRun mayDo e d := by
  cases e with
  | request => exact fun spec _ => hrun spec _
  | timer => exact fun now due d' _ => dueMeets_of_all w mayDo hdo now due d'
  | _ => trivial

/-- The states of a run from `d₀` between its events, when each event meets `may`. -/
inductive Reached (may : Event → State σ → Prop) (d₀ : State σ) : State σ → Prop
  | start : Reached may d₀ d₀
  | event {d : State σ} (e : Event) (hd : Reached may d₀ d) (he : may e d) : Reached may d₀ (onEvent w e d).2
  | flush {d : State σ} (hd : Reached may d₀ d) : Reached may d₀ (flushFirewall w d).2

/-- A run that meets a condition meets a weaker one. -/
theorem Reached.mono {w : World σ} {may may' : Event → State σ → Prop} {d₀ d : State σ} (h : Reached w may d₀ d)
    (hmay : ∀ e d, may e d → may' e d) : Reached w may' d₀ d := by
  induction h with
  | start => exact .start
  | event e _ he ih => exact .event e ih (hmay e _ he)
  | flush _ ih => exact .flush ih

end Runs

/-! ## Statements that are upheld -/

/-- `R due` is kept when containers end and are removed, while the timer has the tasks `due` still to do. -/
structure Ends {σ H : Type} (w : World σ) (record : σ → H) (R : List Task → Books × H → Prop) : Prop where
  exit : ∀ due id code, Surely (State.ledger record) (R due) (fun l => R due l ∧ l.1.live.get? id = none)
    (onExit w id code)
  purge : ∀ due id, Leads (State.ledger record) (fun l => R due l ∧ l.1.live.get? id = none) (R due) (purge w id)

/-- `R due` is kept by all else too, and survives the timer's finishing with a task. -/
structure Upholds {σ H : Type} (w : World σ) (record : σ → H) (mayRun : Spec → Books → Prop)
    (mayDo : Task → State σ → Prop) (R : List Task → Books × H → Prop) : Prop extends Ends w record R where
  run : ∀ due spec, Leads (State.ledger record) (fun l => R due l ∧ mayRun spec l.1) (R due) (opRun w spec)
  launch : ∀ due spec, Leads (State.ledger record)
    (fun l => R due l ∧ l.1.live.get? spec.id = none ∧ l.1.store.get? spec.id = some spec) (R due) (launch w spec)
  idle : ∀ due b r id, R due (b, r) → R due ({ b with schedule := b.schedule ++ [.reapIdle id] }, r)
  vip : ∀ due lb, Leads (State.ledger record) (R due) (R due) (assignVip w lb)
  unvip : ∀ due b r project name, R due (b, r) → R due ({ b with ipam := b.ipam.release (vipOwner project name) }, r)
  fired : ∀ b r schedule due, (∀ t ∈ b.schedule, t ∈ schedule ∨ t ∈ due) → R [] (b, r) →
    R due ({ b with schedule := schedule, due := due }, r)
  task : ∀ now task rest, Eff.Triple (fun d : State σ => R (task :: rest) (d.ledger record) ∧ mayDo task d)
    (runTask w now task) (fun _ d => R rest ({ d.books with due := rest }, record d.outer)) fun _ _ => False

section Programs
variable {σ H : Type} {w : World σ} {record : σ → H} {mayRun : Spec → Books → Prop} {mayDo : Task → State σ → Prop}
  {R : List Task → Books × H → Prop} (h : Records w record) (hR : Upholds w record mayRun mayDo R)
    (hE : Ends w record R)
  (due : List Task)

/-! ### Live containers of which only the spec counts -/

theorem ledger_live_touch {d : State σ} {id : ContainerId} {l : Live} (hl : d.books.live.get? id = some l.spec) :
    ({ d with live := d.live.insert id l } : State σ).ledger record = d.ledger record := by
  have hlive : (d.live.insert id l).mapValues (fun _ l => l.spec) = d.books.live := by
    rw [OrdMap.mapValues_insert]
    exact OrdMap.insert_of_get? hl
  unfold State.ledger State.books
  rw [hlive]
  rfl

theorem books_live {d : State σ} {id : ContainerId} {l : Live} (hl : d.live.get? id = some l) :
    d.books.live.get? id = some l.spec := by
  simp [State.books, hl]

theorem books_live_none {d : State σ} {id : ContainerId} (hl : d.live.get? id = none) :
    d.books.live.get? id = none := by
  simp [State.books, hl]

/-- Reading a live container and changing it in what does not count. -/
theorem Quiet.touch {α : Type} {d : State σ} {id : ContainerId} {l l' : Live} {f : State σ → State σ}
    {m : Unit → Op σ α} {P : Books × H → Prop} (hP : P (d.ledger record)) (hl : d.live.get? id = some l)
    (hf : ∀ d : State σ, (f d).ledger record = ({ d with live := d.live.insert id l' } : State σ).ledger record)
    (hspec : l'.spec = l.spec) (hm : ∀ u, Leads (State.ledger record) P P (m u)) :
    Leads (State.ledger record) (fun l => l = d.ledger record) P (Eff.modify f >>= m) := by
  refine Leads.modify_bind (Q := P) (fun d' hd' => ?_) hm
  have hbooks : d'.books = d.books := congrArg Prod.fst hd'
  rw [hf, ledger_live_touch (by rw [hbooks, books_live hl, hspec]), hd']
  exact hP

include h

theorem quiet_opStop (conn : ℕ) (target : String) (timeout : Option UInt64) :
    Quiet (State.ledger record) (opStop w conn target timeout) := by
  intro P
  have hnone : Leads (State.ledger record) P P (pure none : Op σ (Option Response)) := Leads.pure _ fun _ hl => hl
  refine Leads.bind_quiet (quiet_resolve h.overlooks target) (fun _ hl => hl) fun id => Leads.get_bind fun d hd => ?_
  split
  · exact Leads.modify_bind (Q := P) (fun _ hl => hl ▸ hd) fun _ => Leads.pure _ fun _ hl => hl
  rename_i l hl
  split
  · exact Quiet.touch hd hl (fun _ => rfl) rfl fun _ => hnone
  · refine Leads.bind_silent (silent_instantNow h.overlooks) fun now => ?_
    refine Leads.bind_silent (silent_addTo (fun _ _ => rfl) _ _) fun signalAt => ?_
    refine Leads.bind_silent (silent_addTo (fun _ _ => rfl) _ _) fun killAt => ?_
    exact Quiet.touch hd hl (fun _ => rfl) rfl fun _ => hnone

theorem quiet_opWait (conn : ℕ) (target : String) : Quiet (State.ledger record) (opWait w conn target) := by
  intro P
  refine Leads.bind_quiet (quiet_resolve h.overlooks target) (fun _ hl => hl) fun id => Leads.get_bind fun d hd => ?_
  split
  · rename_i l hl
    exact Quiet.touch hd hl (fun _ => rfl) rfl fun _ => Leads.pure _ fun _ hl => hl
  · exact ((quiet_storeGet h.overlooks id).bind fun _ => Quiet.pure _).leads fun _ hl => hl ▸ hd

theorem quiet_recordHealth (id : ContainerId) (ok : Bool) : Quiet (State.ledger record) (recordHealth w id ok) := by
  intro P
  refine Leads.get_bind fun d hd => ?_
  split
  · exact Leads.pure _ fun _ hl => hl ▸ hd
  rename_i l hl
  split
  · exact Leads.pure _ fun _ hl => hl ▸ hd
  refine Quiet.touch hd hl (fun _ => rfl) rfl fun _ => Leads.ite ?_ (Leads.pure _ fun _ hl => hl)
  exact Leads.bind_silent (silent_tryAct h.overlooks _ rfl) fun _ => Leads.modify fun _ hl => hl

theorem quiet_check {α : Type} {f : σ → α × σ} (hf : ∀ s, record (f s).2 = record s) :
    Silent (State.ledger record) (ask f) :=
  Overlooks.silent_ask fun d => ledger_outer (hf d.outer)

theorem quiet_probe (now : Instant) (id : ContainerId) (hc : Healthcheck) (addr : Option Ipv4Addr) :
    Quiet (State.ledger record) (probe w now id hc addr) := by
  unfold probe
  split
  · exact (quiet_check h (h.tcpCheck _ _)).then fun ok => quiet_recordHealth h id ok
  · exact (quiet_check h (h.httpCheck _ _ _)).then fun ok => quiet_recordHealth h id ok
  · exact Quiet.pure _
  · exact Quiet.pure _
  · refine (silent_addTo (fun _ _ => rfl) _ _).then fun deadline => ?_
    refine (quiet_spawnProbe h.overlooks _ _ _ _).bind fun started => ?_
    exact Quiet.ite (quiet_recordHealth h id false) (Quiet.pure _)
  · exact (quiet_check h (h.pebbleHealth _ _)).then fun problem => quiet_recordHealth h id _

theorem quiet_checkHealth (now : Instant) : Quiet (State.ledger record) (checkHealth w now) := by
  refine Quiet.get_bind fun d => Quiet.modify_bind (fun d' => ?_) fun _ => Quiet.forM _ fun e => quiet_probe h now _ _ _
  have hspec (l : Live) (p : Bool) : (if p then { l with lastCheck := now } else l).spec = l.spec := by
    cases p <;> rfl
  unfold State.ledger State.books
  rw [OrdMap.mapValues_mapValues fun id l => hspec l _]

theorem quiet_pressStop (now : Instant) (id : ContainerId) : Quiet (State.ledger record) (pressStop w now id) := by
  intro P
  refine Leads.get_bind fun d hd => ?_
  split
  · exact Leads.pure _ fun _ hl => hl ▸ hd
  rename_i l hl
  refine Quiet.touch hd hl (fun _ => rfl) rfl fun _ => ?_
  have hkill : Leads (State.ledger record) P P
      (if l.killAt.any fun t => decide (t ≤ now) then tryAct w (.killCgroup id) else pure ()) :=
    Leads.ite ((silent_tryAct h.overlooks _ rfl).quiet P) (Leads.pure _ fun _ hl => hl)
  exact Leads.ite (Leads.bind_silent (silent_tryAct h.overlooks _ rfl) fun _ => hkill) hkill

/-! ### Requests -/

theorem quiet_ledger_act (a : Act) : Quiet (State.ledger record) (act w a) :=
  Overlooks.quiet_outside fun d => ledger_outer (h.act a d.outer)

theorem silent_ledger_try (a : Act) : Silent (State.ledger record) (tryAct w a) :=
  (quiet_ledger_act h a).attempt.bind fun _ => Silent.pure _

section Ends
include hE

theorem reapLoop_upheld (id : ContainerId) (deadline : Instant) (left : ℕ) :
    Surely (State.ledger record) (R due) (fun l => R due l ∧ l.1.live.get? id = none)
      (reapLoop w id deadline left) := by
  have hexit (code : Option ℤ) := hE.exit due id code
  induction left with
  | zero => exact hexit none
  | succ left ih =>
    refine (silent_instantNow h.overlooks _).bind fun now => ?_
    split
    · refine Surely.get_bind fun d hd => ?_
      split
      · rename_i hlive
        exact Eff.Triple.pure fun d' hd' => hd' ▸ ⟨hd, books_live_none hlive⟩
      · refine Surely.pre (P := R due) ?_ fun _ hl => hl ▸ hd
        refine ((Overlooks.quiet_outside (h.overlooks.wait _)).attempt _).bind fun r => ?_
        rcases r with e | _ | code
        · exact hexit none
        · exact ih
        · exact hexit (some code)
    · exact hexit none

theorem reapBlocking_upheld (id : ContainerId) :
    Surely (State.ledger record) (R due) (fun l => R due l ∧ l.1.live.get? id = none) (reapBlocking w id) :=
  (silent_instantNow h.overlooks _).bind fun _ => (silent_addTo (fun _ _ => rfl) _ _ _).bind fun _ =>
    reapLoop_upheld h hE due id _ _

theorem evict_upheld (id : ContainerId) : Leads (State.ledger record) (R due) (R due) (evict w id) := by
  refine Leads.get_bind fun d hd => ?_
  split
  · refine Leads.bind_quiet (quiet_ledger_act h _) (fun _ hl => hl ▸ hd) fun _ => ?_
    exact Leads.bind_sure ((reapBlocking_upheld h hE due id).pre fun _ hl => hl ▸ hd) fun _ => hE.purge due id
  · rename_i hlive
    refine (hE.purge due id).pre fun l hl => hl ▸ ⟨hd, books_live_none ?_⟩
    simpa [OrdMap.contains] using hlive

theorem reapIdle_upheld (id : ContainerId) : Surely (State.ledger record) (R due) (R due) (reapIdle w id) := by
  have hpurge : Surely (State.ledger record) (fun l => R due l ∧ l.1.live.get? id = none) (R due)
      (Eff.attempt (purge w id) >>= fun _ => pure ()) :=
    (hE.purge due id).attempt.bind fun _ => Silent.pure _ _
  refine Surely.get_bind fun d hd => ?_
  split
  · refine Surely.pre (P := R due) ?_ fun _ hl => hl ▸ hd
    exact (silent_ledger_try h _ _).bind fun _ => (reapBlocking_upheld h hE due id).bind fun _ => hpurge
  · rename_i hlive
    refine hpurge.pre fun l hl => hl ▸ ⟨hd, books_live_none ?_⟩
    simpa [OrdMap.contains] using hlive

end Ends

include hR

theorem opRm_upheld (target : String) (force : Bool) :
    Leads (State.ledger record) (R due) (R due) (opRm w target force) := by
  have hok : Leads (State.ledger record) (R due) (R due) (pure (some Response.ok) : Op σ (Option Response)) :=
    Leads.pure _ fun _ hl => hl
  refine Leads.bind_quiet (quiet_resolve h.overlooks target) (fun _ hl => hl) fun id => Leads.get_bind fun d hd => ?_
  split
  · refine Leads.pre (P := R due) ?_ fun _ hl => hl ▸ hd
    refine Leads.ite (Leads.bind_quiet (Quiet.throw _) (fun _ hl => hl) fun _ => ?_) ?_
    all_goals
      refine Leads.bind_quiet (quiet_ledger_act h _) (fun _ hl => hl) fun _ => ?_
      exact Leads.bind_sure (reapBlocking_upheld h hR.toEnds due id) fun _ => (hR.purge due id).bind fun _ => hok
  · rename_i hlive
    refine ((hR.purge due id).bind fun _ => hok).pre fun l hl => hl ▸ ⟨hd, books_live_none ?_⟩
    simpa [OrdMap.contains] using hlive

/-- The launch of a stored container that is not live. -/
theorem launchStored_upheld (id : ContainerId) :
    Leads (State.ledger record) (fun l => R due l ∧ l.1.live.get? id = none) (R due) (do
      note (.asked id)
      launch w (← storeGet w id)
      pure (some Response.ok)) := by
  refine Leads.modify_bind (Q := fun l => R due l ∧ l.1.live.get? id = none) (fun _ hl => hl) fun _ => ?_
  have hget := Eff.Triple.conseq (storeGet_rule h (P := fun l => R due l ∧ l.1.live.get? id = none) id) (fun _ hd => hd)
    (fun _ _ hd => hd) fun _ _ hd => hd.1
  refine Eff.Triple.bind hget fun spec => ?_
  refine Eff.Triple.bind (Q := fun _ d => R due (d.ledger record)) ?_ fun _ => Eff.Triple.pure fun _ hd => hd
  rintro d ⟨⟨hd, hlive⟩, hstored, rfl⟩
  exact hR.launch due spec d ⟨hd, hlive, hstored⟩

theorem opStart_upheld (target : String) : Leads (State.ledger record) (R due) (R due) (opStart w target) := by
  refine Leads.bind_quiet (quiet_resolve h.overlooks target) (fun _ hl => hl) fun id => Leads.get_bind fun d hd => ?_
  split
  · exact Leads.throw _ fun _ hl => hl ▸ hd
  rename_i hlive
  refine Leads.modify_bind (Q := fun l => R due l ∧ l.1.live.get? id = none) (fun d' hd' => ?_) fun _ =>
    launchStored_upheld h hR due id
  have hd' : d'.ledger record = d.ledger record := hd'
  show R due (d'.ledger record) ∧ (d'.ledger record).1.live.get? id = none
  rw [hd']
  exact ⟨hd, books_live_none (by simpa [OrdMap.contains] using hlive)⟩

theorem opRestart_upheld (target : String) : Leads (State.ledger record) (R due) (R due) (opRestart w target) := by
  refine Leads.bind_quiet (quiet_resolve h.overlooks target) (fun _ hl => hl) fun id => Leads.get_bind fun d hd => ?_
  split
  · exact Leads.throw _ fun _ hl => hl ▸ hd
  rename_i hlive
  refine (launchStored_upheld h hR due id).pre fun l hl => hl ▸ ⟨hd, books_live_none ?_⟩
  simpa [OrdMap.contains] using hlive

theorem scheduleIdleReap_upheld (id : ContainerId) (t : Option UInt64) :
    Surely (State.ledger record) (R due) (R due) (scheduleIdleReap w id t) := by
  refine scheduleIdleReap_rule h fun b r later hlater hb => ?_
  rcases hlater with rfl | rfl
  · rw [List.append_nil]
    exact hb
  · exact hR.idle due b r id hb

theorem opExec_upheld (conn : ℕ) (target : String) (argv : List String) (timeoutSecs : Option UInt64)
    (service : Option String) :
    Leads (State.ledger record) (R due) (R due) (opExec w conn target argv timeoutSecs service) := by
  have ho := h.overlooks
  refine Leads.bind_quiet (quiet_resolve ho target) (fun _ hl => hl) fun id => ?_
  refine Leads.bind_quiet (quiet_act ho _ rfl) (fun _ hl => hl) fun _ => Leads.get_bind fun d hd => ?_
  split
  · exact Leads.throw _ fun _ hl => hl ▸ hd
  rename_i l hl
  refine Leads.ite (Leads.bind_quiet (Quiet.throw _) (fun _ hl => hl ▸ hd) fun _ => ?_) ?_
  all_goals
    refine Leads.bind_quiet (quiet_act ho _ rfl) (fun _ hl => hl ▸ hd) fun _ =>
      Leads.bind_silent (silent_instantNow ho) fun now => ?_
    refine Quiet.touch hd hl (fun _ => rfl) rfl fun _ => ?_
    refine Leads.bind_sure (scheduleIdleReap_upheld h hR due _ _) fun _ => ?_
    refine (((silent_token ho).then fun tok => (quiet_act ho _ rfl).bind fun _ => ?_)).leads fun _ hl => hl
    refine (silent_instantNow ho).then fun now => (silent_execDeadline (fun _ _ => rfl) _ _).then fun deadline => ?_
    exact Quiet.modify_bind (fun _ => rfl) fun _ => Quiet.pure _

theorem opLbSet_upheld (lb : LbSpec) : Leads (State.ledger record) (R due) (R due) (opLbSet w lb) := by
  refine (hR.vip due lb).bind fun vip => Leads.bind_quiet (quiet_ledger_act h _) (fun _ hl => hl) fun _ => ?_
  exact Leads.bind_quiet (quiet_ledger_act h _) (fun _ hl => hl) fun _ => Leads.modify fun _ hl => hl

theorem opLbRemove_upheld (project name : String) :
    Leads (State.ledger record) (R due) (R due) (opLbRemove w project name) := by
  refine Leads.peek fun d => ?_
  split
  · exact Leads.throw _ fun _ hl => hl
  refine Leads.modify_bind (Q := R due) (fun _ hl => hl) fun _ => Leads.bind_silent (silent_ledger_try h _) fun _ => ?_
  have hend : Leads (State.ledger record) (R due) (R due) (do
      Eff.modify fun d => { d with ipam := d.ipam.release (vipOwner project name), fwDirty := true }
      pure (some Response.ok) : Op σ (Option Response)) :=
    Leads.modify_bind (Q := R due) (fun d hd => hR.unvip due d.books _ project name hd) fun _ =>
      Leads.pure _ fun _ hl => hl
  split
  · exact Leads.bind_silent (silent_ledger_try h _) fun _ => hend
  · exact hend

theorem clearNode_upheld (force : Bool) : Leads (State.ledger record) (R due) (R due) (clearNode w force) := by
  refine Leads.bind_quiet (quiet_loadAll h.overlooks) (fun _ hl => hl) fun specs => Leads.peek fun d => ?_
  have hforget (lb : LbSpec) : Leads (State.ledger record) (R due) (R due) (forgetLb w lb) :=
    Leads.modify_bind (Q := R due) (fun _ hl => hl) fun _ => (silent_ledger_try h _).quiet _
  refine Leads.ite (Leads.bind_quiet (Quiet.throw _) (fun _ hl => hl) fun _ => ?_) ?_
  all_goals exact (Leads.forM _ fun s : Spec => evict_upheld h hR.toEnds due s.id).bind fun _ => Leads.forM _ hforget

theorem opInit_upheld (conn : ℕ) (settings : DaemonSettings) (force : Bool) :
    Leads (State.ledger record) (R due) (R due) (opInit w conn settings force) := by
  have hact {α : Type} {a : Act} {f : Unit → Op σ α} (hf : ∀ u, Leads (State.ledger record) (R due) (R due) (f u)) :
      Leads (State.ledger record) (R due) (R due) (act w a >>= f) :=
    Leads.bind_quiet (quiet_ledger_act h a) (fun _ hl => hl) hf
  have hok : Leads (State.ledger record) (R due) (R due) (pure (some Response.ok) : Op σ (Option Response)) :=
    Leads.pure _ fun _ hl => hl
  refine Leads.bind_quiet (quiet_requireConn conn) (fun _ hl => hl) fun _ => hact fun _ => hact fun _ => ?_
  refine Leads.peek fun d => Leads.ite (Leads.ite ?_ hok) ?_
  · refine hact fun _ => hact fun _ => Leads.modify_bind (Q := R due) (fun _ hl => hl) fun _ => ?_
    exact Leads.ite (hact fun _ => hok) hok
  · have hrestart : Leads (State.ledger record) (R due) (R due) (do
        act w (.updateNode settings)
        act w (.writeConfig settings)
        Eff.modify fun d => { d with shutdown := true }
        pure (some Response.ok)) :=
      hact fun _ => hact fun _ => Leads.modify_bind (Q := R due) (fun _ hl => hl) fun _ => hok
    exact hact fun _ => Leads.ite ((clearNode_upheld h hR due force).bind fun _ => hrestart) hrestart

/-- A request that meets the condition keeps what is upheld. -/
theorem handle_upheld (conn : ℕ) (request : Request) :
    Leads (State.ledger record) (fun l => R due l ∧ ∀ spec, runOf request = some spec → mayRun spec l.1) (R due)
      (handle w conn request) := by
  have ho := h.overlooks
  have hserve (request : Request) : Leads (State.ledger record) (R due) (R due) (outside (w.serve request)) :=
    Overlooks.quiet_outside (fun d => ledger_outer (h.serve request d.outer)) _
  induction request with
  | run spec =>
    refine ((hR.run due spec).bind fun _ => Leads.pure _ fun _ hl => hl).pre fun l hl => ⟨hl.1, hl.2 spec rfl⟩
  | as caller request ih =>
    refine Leads.bind_quiet (quiet_requireGateway ho conn) (fun _ hl => hl.1) fun _ => ?_
    refine Leads.bind_quiet (quiet_authorize ho caller _ _) (fun _ hl => hl.1) fun _ => ?_
    exact ih.bind fun _ => Leads.pure _ fun _ hl => hl
  | start => exact (opStart_upheld h hR due _).pre fun _ hl => hl.1
  | stop => exact (quiet_opStop h conn _ _ (R due)).pre fun _ hl => hl.1
  | restart => exact (opRestart_upheld h hR due _).pre fun _ hl => hl.1
  | kill => exact (quiet_opKill ho _ _ (R due)).pre fun _ hl => hl.1
  | rm => exact (opRm_upheld h hR due _ _).pre fun _ hl => hl.1
  | wait => exact (quiet_opWait h conn _ (R due)).pre fun _ hl => hl.1
  | logs => exact (quiet_serveFor ho _ _ rfl (R due)).pre fun _ hl => hl.1
  | exec => exact (opExec_upheld h hR due conn _ _ _ _).pre fun _ hl => hl.1
  | execProbe => exact (quiet_opExecProbe ho (fun _ _ => rfl) conn _ _ _ (R due)).pre fun _ hl => hl.1
  | commit => exact (quiet_serveFor ho _ _ rfl (R due)).pre fun _ hl => hl.1
  | ps => exact (quiet_opPs ho _ _ (R due)).pre fun _ hl => hl.1
  | stats => exact (quiet_opStats ho _ (R due)).pre fun _ hl => hl.1
  | lbSet lb => exact ((opLbSet_upheld h hR due lb).bind fun _ => Leads.pure _ fun _ hl => hl).pre fun _ hl => hl.1
  | lbRemove => exact (opLbRemove_upheld h hR due _ _).pre fun _ hl => hl.1
  | lbList => exact (quiet_opLbList (R due)).pre fun _ hl => hl.1
  | init => exact (opInit_upheld h hR due conn _ _).pre fun _ hl => hl.1
  | shutdown => exact Leads.modify_bind (Q := R due) (fun _ hl => hl.1) fun _ => Leads.pure _ fun _ hl => hl
  | _ => exact (hserve _).pre fun _ hl => hl.1

/-! ### Events -/

omit h in
theorem runDue_upheld (now : Instant) (tasks : List Task) :
    Eff.Triple (fun d => R tasks (d.ledger record) ∧ DueMeets w mayDo now tasks d) (runDue w now tasks)
      (fun _ d => R [] (d.ledger record)) fun _ _ => False := by
  induction tasks with
  | nil => exact Eff.Triple.pure fun _ hd => hd.1
  | cons task rest ih =>
    rintro d ⟨hd, hmay, hrest⟩
    unfold runDue
    have hend := hR.task now task rest d ⟨hd, hmay⟩
    rcases hr : runTask w now task d with ⟨_ | _, d'⟩
    · rw [hr] at hend
      exact hend.elim
    · rw [hr] at hend hrest
      rw [Eff.bind_of_ok hr]
      exact ih { d' with due := rest } ⟨hend, hrest⟩

theorem fire_upheld {d : State σ} (hd : R [] (d.ledger record)) :
    ∃ now due d', fire w d = (.ok (now, due), d') ∧ R due (d'.ledger record) := by
  refine ⟨_, _, _, rfl, ?_⟩
  have hrecord : record (w.now (w.act .reapWorkers d.outer).2).2 = record d.outer := (h.now _).trans (h.act _ _)
  show R _ ({ d.books with schedule := _, due := _ }, record (w.now (w.act .reapWorkers d.outer).2).2)
  rw [hrecord]
  refine hR.fired d.books _ _ _ (fun t ht => ?_) hd
  obtain ⟨e, he, rfl⟩ := List.mem_map.mp ht
  by_cases hnow : e.1 ≤ (w.now (w.act .reapWorkers d.outer).2).1
  · exact .inr (List.mem_map_of_mem (List.mem_filter.mpr ⟨he, decide_eq_true hnow⟩))
  · exact .inl (List.mem_map_of_mem (List.mem_filter.mpr ⟨he, by rw [Bool.not_eq_true']; exact decide_eq_false hnow⟩))

omit hR in
theorem quiet_press (now : Instant) : Quiet (State.ledger record) (press w now) := by
  have hkill {α : Type} {a : α → Act} (as : List α) : Quiet (State.ledger record) (as.forM fun e => tryAct w (a e)) :=
    Quiet.forM _ fun e => (silent_ledger_try h _).quiet
  refine Quiet.get_bind fun d => (Quiet.forM _ fun id => quiet_pressStop h now id).bind fun _ =>
    Quiet.get_bind fun d => ?_
  refine (hkill _).bind fun _ => (hkill _).bind fun _ => Quiet.ite ?_ (Quiet.pure _)
  exact Quiet.modify_bind (fun _ => rfl) fun _ => quiet_checkHealth h now

theorem onPidfd_upheld (tok : ℕ) : Leads (State.ledger record) (R due) (R due) (onPidfd w tok) := by
  have ho := h.overlooks
  have hsend (conn : ℕ) (response : Response) : Leads (State.ledger record) (R due) (R due) (send w conn response) :=
    (silent_send ho conn response).quiet _
  have hwait {α : Type} {f : Result (Option ℤ) → Op σ α} (hf : ∀ r, Leads (State.ledger record) (R due) (R due) (f r)) :
      Leads (State.ledger record) (R due) (R due) (Eff.attempt (outside (w.wait tok)) >>= f) :=
    Leads.bind_silent (Overlooks.quiet_outside (ho.wait _)).attempt hf
  refine Leads.peek fun d => ?_
  split
  · split
    · exact Leads.pure _ fun _ hl => hl
    · refine Leads.bind_silent (silent_exitOf ho tok _) fun r => ?_
      cases r with
      | none => exact Leads.pure _ fun _ hl => hl
      | some code => exact Leads.of_sure (Eff.Triple.post (hR.exit due _ code) fun _ _ hd => hd.1)
  · split
    · refine hwait fun r => ?_
      split
      · refine Leads.bind_silent (silent_tryAct ho _ rfl) fun _ => ?_
        exact Leads.modify_bind (Q := R due) (fun _ hl => hl) fun _ => hsend _ _
      · exact Leads.pure _ fun _ hl => hl
    · refine hwait fun r => ?_
      split
      · refine Leads.bind_silent (silent_tryAct ho _ rfl) fun _ =>
          Leads.modify_bind (Q := R due) (fun _ hl => hl) fun _ => ?_
        split
        · exact quiet_recordHealth h _ _ _
        · exact hsend _ _
      · exact Leads.pure _ fun _ hl => hl
    · exact Leads.pure _ fun _ hl => hl

/-- An event that meets the conditions keeps what is upheld. -/
theorem onEvent_upheld (e : Event) {d : State σ} (hd : R [] (d.ledger record)) (he : Meets w mayRun mayDo e d) :
    R [] ((onEvent w e d).2.ledger record) := by
  have ho := h.overlooks
  cases e with
  | connect => exact Leads.apply ((silent_accept ho).quiet _) hd
  | garbled conn => exact Leads.apply ((silent_send ho conn _).quiet _) hd
  | hangup conn =>
    have hdrop : Quiet (State.ledger record) (onEvent w (.hangup conn)) :=
      Quiet.get_bind fun d => Quiet.ite (silent_dropConn ho conn).quiet (Quiet.pure _)
    exact Leads.apply (hdrop _) hd
  | pidfd tok => exact Leads.apply (onPidfd_upheld h hR [] tok) hd
  | terminate => exact hd
  | request conn request =>
    have hsend (response : Response) : Leads (State.ledger record) (R []) (R []) (send w conn response) :=
      (silent_send ho conn response).quiet _
    have hrequest : Leads (State.ledger record)
        (fun l => R [] l ∧ ∀ spec, runOf request = some spec → mayRun spec l.1) (R [])
          (onEvent w (.request conn request)) := by
      refine Leads.bind_quiet Quiet.get (fun _ hl => hl.1) fun d => Leads.ite ?_ (Leads.pure _ fun _ hl => hl.1)
      refine Leads.bind_sure (handle_upheld h hR [] conn request).attempt fun r => ?_
      rcases r with e | _ | response
      · exact hsend _
      · exact Leads.pure _ fun _ hl => hl
      · exact hsend _
    exact Leads.apply hrequest ⟨hd, he⟩
  | timer =>
    obtain ⟨now, due, d', hfire, hd'⟩ := fire_upheld h hR hd
    show R [] ((onTimer w d).2.ledger record)
    rw [onTimer_fired w hfire]
    have hdone := runDue_upheld hR now due d' ⟨hd', he now due d' hfire⟩
    rcases hr : runDue w now due d' with ⟨_ | _, d''⟩
    · rw [hr] at hdone
      exact hdone.elim
    · rw [hr] at hdone
      rw [Eff.bind_of_ok hr]
      exact Leads.apply (quiet_press h now _) hdone

omit hR in
theorem quiet_flushFirewall : Quiet (State.ledger record) (flushFirewall w) := by
  refine Quiet.get_bind fun d => Quiet.ite ?_ (Quiet.pure _)
  exact Quiet.modify_bind (fun _ => rfl) fun _ => (silent_ledger_try h _).quiet

/-- What is upheld holds in every state that is reached. -/
theorem reached_upheld {d₀ d : State σ} (hd₀ : R [] (d₀.ledger record)) (hd : Reached w (Meets w mayRun mayDo) d₀ d) :
    R [] (d.ledger record) := by
  induction hd with
  | start => exact hd₀
  | event e _ he ih => exact onEvent_upheld h hR e ih he
  | flush _ ih => exact Leads.apply (quiet_flushFirewall h _) ih

end Programs
end Collocate.Daemon
