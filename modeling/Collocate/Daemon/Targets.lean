import Collocate.Daemon.Apart
import Collocate.Daemon.Descriptors
import Collocate.Daemon.Linked
import Collocate.Store.Views

/-! # What a request acts on (`collocated/src/daemon.rs`)

A request that names a container resolves the name once, and goes by the id from then on. Another container keeps all
that the daemon has of it, and no action on the host is for it. -/
namespace Collocate.Daemon
set_option autoImplicit false

/-! ## Actions on record -/

/-- The container that an action is for. -/
def Act.subject : Act → Option ContainerId
  | .createDirs id | .fuseOverlay id | .umountFuse id | .writeHostFiles id _ | .writeSecret id _ _ | .createCgroup id _
  | .killCgroup id | .removeCgroup id | .teardownVeth id | .removeRuntimeDirs id | .writeRuntime id _ | .readSpec id
  | .spawnExec id _ => some id
  | _ => none

def Task.subject : Task → ContainerId
  | .relaunch id | .removeExited id | .reapIdle id => id

/-- Any world, with a record of the actions. -/
def traced {σ : Type} (w : World σ) : World (List Act × σ) where
  now := beside w.now
  act a p := ((w.act a p.2).1, p.1 ++ [a], (w.act a p.2).2)
  write change := beside (w.write change)
  lowers root := beside (w.lowers root)
  spawn spec := beside (w.spawn spec)
  wait token := beside (w.wait token)
  tcpCheck addr port := beside (w.tcpCheck addr port)
  httpCheck addr port path := beside (w.httpCheck addr port path)
  pebbleHealth id level := beside (w.pebbleHealth id level)
  stats id := beside (w.stats id)
  adoptPid id := beside (w.adoptPid id)
  savedLbs := beside w.savedLbs
  observe := beside w.observe
  serve request := beside (w.serve request)
  cpusMilli := w.cpusMilli
  sha256 := w.sha256

/-- What there is of a container: the actions for it so far, and what the daemon has of it. -/
structure Share where
  actions : List Act
  spec : Option Spec
  live : Option Live
  userStopped : Bool
  restarts : Option UInt32
  fuse : Bool
  addr : Option Ipv4Addr
  tasks : List (Instant × Task)

def share {σ : Type} (id : ContainerId) (d : State (List Act × σ)) : Share where
  actions := d.outer.1.filter fun a => a.subject = some id
  spec := d.store.get? id
  live := d.live.get? id
  userStopped := d.userStopped id
  restarts := d.restarts id
  fuse := d.fuseProcs id
  addr := d.ipam.byOwner id.display
  tasks := d.schedule.filter fun e => e.2.subject = id

/-! ## Programs for one container -/

/-- The other container is as it was, and the one at hand is entered under its own id. -/
def Spared {σ : Type} (id other : ContainerId) (s₀ : Share) (d : State (List Act × σ)) : Prop :=
  share other d = s₀ ∧ ∀ l, d.live.get? id = some l → l.spec.id = id

section Spared
variable {σ : Type} {w : World σ} {id other : ContainerId} {s₀ : Share}

theorem spared_outside {α : Type} {m : Prog (List Act × σ) α} (hm : ∀ p, (m p).2.1 = p.1) :
    Eff.Keeps (Spared id other s₀) (outside m) := by
  refine Eff.Keeps.of_state fun d hd => ?_
  have hshare : share other { d with outer := (m d.outer).2 } = share other d := by
    unfold share
    rw [hm d.outer]
  exact ⟨hshare.trans hd.1, hd.2⟩

theorem spared_ask {α : Type} (f : σ → α × σ) : Eff.Keeps (Spared id other s₀) (ask (beside f)) :=
  spared_outside fun _ => rfl

theorem spared_now : Eff.Keeps (Spared id other s₀) (instantNow (traced w)) := spared_ask w.now

theorem spared_addTo (now : Instant) (delay : ℕ) :
    Eff.Keeps (Spared id other s₀) (addTo now delay : Op (List Act × σ) Instant) :=
  (Eff.Keeps.modify fun _ hd => ⟨hd.1, hd.2⟩).bind fun _ => Eff.Keeps.pure _

theorem spared_token : Eff.Keeps (Spared id other s₀) (token : Op (List Act × σ) ℕ) :=
  (Eff.Keeps.modify fun _ hd => ⟨hd.1, hd.2⟩).bind fun _ => Eff.Keeps.get.bind fun _ => Eff.Keeps.pure _

theorem spared_mark (m : Mark) : Eff.Keeps (Spared id other s₀) (mark m : Op (List Act × σ) Unit) :=
  Eff.Keeps.modify fun _ hd => ⟨hd.1, hd.2⟩

theorem spared_act (a : Act) (ha : a.subject ≠ some other) : Eff.Keeps (Spared id other s₀) (act (traced w) a) := by
  refine Eff.Keeps.of_state fun d hd => ?_
  have hshare : share other { d with outer := ((traced w).act a d.outer).2 } = share other d := by
    unfold share
    have hactions : ((d.outer.1 ++ [a]).filter fun a => a.subject = some other) =
        d.outer.1.filter fun a => a.subject = some other := by
      rw [List.filter_append, List.filter_singleton, decide_eq_false ha]
      exact List.append_nil _
    exact Share.mk.injEq .. ▸ ⟨hactions, rfl, rfl, rfl, rfl, rfl, rfl, rfl⟩
  exact ⟨hshare.trans hd.1, hd.2⟩

theorem spared_try (a : Act) (ha : a.subject ≠ some other) : Eff.Keeps (Spared id other s₀) (tryAct (traced w) a) :=
  (spared_act a ha).attempt.bind fun _ => Eff.Keeps.pure _

theorem spared_resolve (target : String) : Eff.Keeps (Spared id other s₀) (resolve (traced w) target) := by
  refine Eff.Keeps.bind ?_ fun _ => Eff.Keeps.lift _
  exact (spared_act .readSpecs (Option.some_ne_none other).symm).bind fun _ =>
    Eff.Keeps.get.bind fun _ => Eff.Keeps.pure _

theorem spared_send (conn : ℕ) (response : Response) :
    Eff.Keeps (Spared id other s₀) (send (traced w) conn response) := by
  have hdrop : Eff.Keeps (Spared id other s₀) (dropConn (traced w) conn) := by
    refine Eff.Keeps.get.bind fun d => ?_
    split
    · exact (Eff.Keeps.modify fun _ hd => ⟨hd.1, hd.2⟩).bind fun _ =>
        spared_try (.epollRemove conn) (Option.some_ne_none other).symm
    · exact Eff.Keeps.pure _
  refine Eff.Keeps.get.bind fun d => ?_
  split
  · refine (spared_act (.send conn response) (Option.some_ne_none other).symm).attempt.bind fun r => ?_
    cases r with
    | ok => exact Eff.Keeps.pure _
    | error => exact hdrop
  · exact Eff.Keeps.pure _

theorem spared_answer (code : ℤ) (waiter : Waiter) :
    Eff.Keeps (Spared id other s₀) (answer (traced w) id code waiter) := by
  unfold answer
  cases waiter.kind with
  | wait => exact spared_send _ _
  | stop => exact (Eff.Keeps.modify fun _ hd => ⟨hd.1, hd.2⟩).bind fun _ => spared_send _ _

variable (hne : other ≠ id)
include hne

/-- A change of what the daemon has of the container at hand. -/
theorem spared_update {d d' : State (List Act × σ)} (hd : Spared id other s₀ d) (houter : d'.outer = d.outer)
    (hstore : d'.store.get? other = d.store.get? other) (hlive : d'.live.get? other = d.live.get? other)
    (hstopped : d'.userStopped other = d.userStopped other) (hrestarts : d'.restarts other = d.restarts other)
    (hfuse : d'.fuseProcs other = d.fuseProcs other)
    (hipam : d'.ipam.byOwner other.display = d.ipam.byOwner other.display)
    (htasks : ∃ later, d'.schedule = d.schedule ++ later ∧ ∀ e ∈ later, e.2.subject = id)
    (hkeyed : ∀ l, d'.live.get? id = some l → l.spec.id = id) : Spared id other s₀ d' := by
  refine ⟨?_, hkeyed⟩
  obtain ⟨later, hschedule, hlater⟩ := htasks
  have htasks : (d'.schedule.filter fun e => e.2.subject = other) = d.schedule.filter fun e => e.2.subject = other := by
    have hnone : (later.filter fun e => e.2.subject = other) = [] := List.filter_eq_nil_iff.mpr fun e he hsubject =>
      hne ((of_decide_eq_true hsubject).symm.trans (hlater e he))
    rw [hschedule, List.filter_append, hnone, List.append_nil]
  rw [← hd.1]
  unfold share
  rw [houter, hstore, hlive, hstopped, hrestarts, hfuse, hipam, htasks]

theorem subject_ne : some id ≠ some other := fun heq => hne (Option.some.inj heq).symm

theorem spared_schedule {t : Task} (ht : t.subject = id) (time : Instant) (marks : List Mark) :
    Eff.Keeps (Spared id other s₀) (Eff.modify fun d : State (List Act × σ) =>
      { d with schedule := d.schedule ++ [(time, t)], marks := d.marks ++ marks } : Op (List Act × σ) Unit) := by
  refine Eff.Keeps.modify fun d hd => ?_
  refine spared_update hne hd rfl rfl rfl rfl rfl rfl rfl ⟨[(time, t)], rfl, fun e he => ?_⟩ hd.2
  rw [List.mem_singleton.mp he]
  exact ht

theorem spared_removeRuntimeDirs : Eff.Keeps (Spared id other s₀) (removeRuntimeDirs (traced w) id) := by
  have hremove : Eff.Keeps (Spared id other s₀) (tryAct (traced w) (.removeRuntimeDirs id)) :=
    spared_try (.removeRuntimeDirs id) (subject_ne hne)
  refine Eff.Keeps.get.bind fun d => ?_
  split
  · refine (Eff.Keeps.modify fun d hd => ?_).bind fun _ =>
      (spared_try (.umountFuse id) (subject_ne hne)).bind fun _ => hremove
    exact spared_update hne hd rfl rfl rfl rfl rfl (Function.update_of_ne hne ..) rfl
      ⟨[], (List.append_nil _).symm, fun _ he => absurd he List.not_mem_nil⟩ hd.2
  · exact hremove

theorem spared_cleanupRuntime : Eff.Keeps (Spared id other s₀) (cleanupRuntime (traced w) id) := by
  refine (spared_try (.killCgroup id) (subject_ne hne)).bind fun _ =>
    (spared_try (.removeCgroup id) (subject_ne hne)).bind fun _ => ?_
  exact (spared_try (.teardownVeth id) (subject_ne hne)).bind fun _ => spared_removeRuntimeDirs hne

theorem spared_storeWrite (change : Write) {f : SpecStore → SpecStore} (hf : ∀ s, (f s).get? other = s.get? other) :
    Eff.Keeps (Spared id other s₀) (storeWrite (traced w) change f) := by
  have hwrite : Eff.Keeps (Spared id other s₀)
      (Eff.modify fun d => { d with store := f d.store } : Op (List Act × σ) Unit) := by
    refine Eff.Keeps.modify fun d hd => ?_
    exact spared_update hne hd rfl (hf d.store) rfl rfl rfl rfl rfl
      ⟨[], (List.append_nil _).symm, fun _ he => absurd he List.not_mem_nil⟩ hd.2
  refine (spared_ask (w.write change)).bind fun r => ?_
  cases r with
  | done => exact hwrite
  | failed e applied =>
    cases applied
    · exact Eff.Keeps.throw e
    · exact hwrite.bind fun _ => Eff.Keeps.throw e

theorem spared_storeUpdate (spec : Spec) (hid : spec.id = id) :
    Eff.Keeps (Spared id other s₀) (storeUpdate (traced w) spec) := by
  refine Eff.Keeps.get.bind fun d => ?_
  split
  · refine spared_storeWrite hne _ fun s => ?_
    rw [SpecStore.get?_put, if_neg (hid ▸ hne)]
  · exact Eff.Keeps.throw _

theorem spared_purge : Eff.Keeps (Spared id other s₀) (purge (traced w) id) := by
  have hremove : Eff.Keeps (Spared id other s₀) (storeRemove (traced w) id) := by
    refine Eff.Keeps.get.bind fun d => ?_
    split
    · refine spared_storeWrite hne _ fun s => ?_
      rw [SpecStore.get?_erase, if_neg hne]
    · exact Eff.Keeps.throw _
  refine hremove.bind fun _ => (spared_try .purgeTrash (Option.some_ne_none other).symm).bind fun _ => ?_
  refine (Eff.Keeps.modify fun d hd => ?_).bind fun _ => spared_removeRuntimeDirs hne
  refine spared_update hne hd rfl rfl rfl rfl rfl rfl (release_elsewhere fun heq => hne (Store.display_injective heq))
    ⟨[], (List.append_nil _).symm, fun _ he => absurd he List.not_mem_nil⟩ hd.2

theorem spared_afterExit (spec : Spec) (code : ℤ) :
    Eff.Keeps (Spared id other s₀) (afterExit (traced w) id spec code) := by
  have hsame {d : State (List Act × σ)} : ∃ later, d.schedule = d.schedule ++ later ∧ ∀ e ∈ later, e.2.subject = id :=
    ⟨[], (List.append_nil _).symm, fun _ he => absurd he List.not_mem_nil⟩
  refine Eff.Keeps.get.bind fun d => (Eff.Keeps.modify fun d hd => ?_).bind fun _ => ?_
  · exact spared_update hne hd rfl rfl rfl (Function.update_of_ne hne ..) rfl rfl rfl hsame hd.2
  · split
    · refine (Eff.Keeps.modify fun d hd => ?_).bind fun _ => spared_now.bind fun now => ?_
      · exact spared_update hne hd rfl rfl rfl rfl (Function.update_of_ne hne ..) rfl rfl hsame hd.2
      · exact (spared_addTo _ _).bind fun time => spared_schedule hne (t := .relaunch id) rfl time _
    · split
      · refine spared_now.bind fun now => (spared_addTo _ _).bind fun time => ?_
        refine Eff.Keeps.modify fun d hd => ?_
        refine spared_update hne hd rfl rfl rfl rfl rfl rfl rfl ⟨[(time, .removeExited id)], rfl, fun e he => ?_⟩ hd.2
        rw [List.mem_singleton.mp he]
        rfl
      · exact Eff.Keeps.pure _

theorem spared_onExit (code : Option ℤ) : Eff.Keeps (Spared id other s₀) (onExit (traced w) id code) := by
  have hsame {d : State (List Act × σ)} : ∃ later, d.schedule = d.schedule ++ later ∧ ∀ e ∈ later, e.2.subject = id :=
    ⟨[], (List.append_nil _).symm, fun _ he => absurd he List.not_mem_nil⟩
  refine Eff.Triple.get_bind fun d hd => ?_
  cases hlive : d.live.get? id with
  | none => exact Eff.Triple.pure fun d' hd' => hd' ▸ hd
  | some l =>
    have hid : l.spec.id = id := hd.2 l hlive
    dsimp only
    refine Eff.Triple.bind (Q := fun _ => Spared id other s₀) (Eff.Triple.modify fun d' hd' => ?_) fun _ => ?_
    · subst hd'
      refine spared_update hne hd rfl rfl ?_ rfl rfl rfl rfl hsame fun l' hl' => ?_
      · rw [OrdMap.get?_erase, if_neg hne]
      · rw [OrdMap.get?_erase, if_pos rfl] at hl'
        cases hl'
    · have hrest (code : ℤ) : Eff.Keeps (Spared id other s₀) (do
          l.waiters.forM (answer (traced w) id code)
          afterExit (traced w) id l.spec code
          Eff.modify fun d => { d with fwDirty := true }) := by
        refine (Eff.Keeps.forM _ fun v _ => spared_answer code v).bind fun _ =>
          (spared_afterExit hne _ _).bind fun _ => ?_
        exact Eff.Keeps.modify fun _ hd => ⟨hd.1, hd.2⟩
      show Eff.Keeps (Spared id other s₀) _
      refine (spared_try (.epollRemove l.token) (Option.some_ne_none other).symm).bind fun _ => ?_
      refine (spared_storeUpdate hne { l.spec with exitStatus := some (code.getD (-1)) } hid).attempt.bind fun _ =>
        (spared_cleanupRuntime hne).bind fun _ => ?_
      refine spared_now.bind fun now => (spared_mark _).bind fun _ => ?_
      split
      · refine (Eff.Keeps.modify fun d hd => ?_).bind fun _ => hrest _
        exact spared_update hne hd rfl rfl rfl rfl (Function.update_of_ne hne ..) rfl rfl hsame hd.2
      · exact hrest _

theorem spared_reapLoop (deadline : Instant) (left : ℕ) :
    Eff.Keeps (Spared id other s₀) (reapLoop (traced w) id deadline left) := by
  induction left with
  | zero => exact spared_onExit hne none
  | succ left ih =>
    refine spared_now.bind fun now => ?_
    split
    · refine Eff.Keeps.get.bind fun d => ?_
      cases d.live.get? id with
      | none => exact Eff.Keeps.pure _
      | some l =>
        refine (spared_outside fun _ => rfl).attempt.bind fun r => ?_
        rcases r with e | _ | code
        · exact spared_onExit hne none
        · exact ih
        · exact spared_onExit hne _
    · exact spared_onExit hne none

theorem spared_reapBlocking : Eff.Keeps (Spared id other s₀) (reapBlocking (traced w) id) :=
  spared_now.bind fun _ => (spared_addTo _ _).bind fun _ => spared_reapLoop hne _ _

/-- A new entry for the container at hand. -/
theorem spared_insert {l : Live} {d d' : State (List Act × σ)} (hd : Spared id other s₀ d)
    (hlive : d'.live = d.live.insert id l) (hid : l.spec.id = id) (houter : d'.outer = d.outer)
    (hstore : d'.store = d.store) (hstopped : d'.userStopped other = d.userStopped other)
    (hrestarts : d'.restarts = d.restarts) (hfuse : d'.fuseProcs = d.fuseProcs) (hipam : d'.ipam = d.ipam)
    (hschedule : d'.schedule = d.schedule) : Spared id other s₀ d' := by
  refine spared_update hne hd houter (by rw [hstore]) ?_ hstopped (by rw [hrestarts]) (by rw [hfuse]) (by rw [hipam])
    ⟨[], by rw [hschedule, List.append_nil], fun _ he => absurd he List.not_mem_nil⟩ fun l' hl' => ?_
  · rw [hlive, OrdMap.get?_insert, if_neg hne]
  · rw [hlive, OrdMap.get?_insert, if_pos rfl] at hl'
    rw [← Option.some.inj hl']
    exact hid

theorem spared_idle (idleTimeoutSecs : Option UInt64) :
    Eff.Keeps (Spared id other s₀) (scheduleIdleReap (traced w) id idleTimeoutSecs) := by
  unfold scheduleIdleReap
  cases idleTimeoutSecs with
  | none => exact Eff.Keeps.pure _
  | some t =>
    refine spared_now.bind fun now => (spared_addTo _ _).bind fun time => Eff.Keeps.modify fun d hd => ?_
    refine spared_update hne hd rfl rfl rfl rfl rfl rfl rfl ⟨[(time, .reapIdle id)], rfl, fun e he => ?_⟩ hd.2
    rw [List.mem_singleton.mp he]
    rfl

end Spared

/-! ## The requests -/

/-- The requests that remove a container, end it or run a command in it. -/
inductive Deed
  | rm (force : Bool)
  | stop (conn : ℕ) (timeout : Option UInt64)
  | exec (conn : ℕ) (argv : List String) (timeoutSecs : Option UInt64) (service : Option String)

def Deed.run {σ : Type} (w : World σ) (target : String) : Deed → Op σ (Option Response)
  | .rm force => opRm w target force
  | .stop conn timeout => opStop w conn target timeout
  | .exec conn argv timeoutSecs service => opExec w conn target argv timeoutSecs service

/-- What has become of a container where the request did not fail. -/
def Deed.Done (before after : Share) (id : ContainerId) : Deed → Prop
  | .rm _ => after.spec = none ∧ after.live = none
  | .stop .. => before.live = none ∨ ∃ l, after.live = some l ∧ l.stopRequested = true
  | .exec _ argv .. => after.actions = before.actions ++ [.spawnExec id argv]

section Deeds
variable {σ : Type} {w : World σ} {id other : ContainerId} {s₀ : Share} {target : String}

theorem spared_start {d : State (List Act × σ)} (hlinked : Linked d.books) (id other : ContainerId) :
    Spared id other (share other d) d := by
  refine ⟨rfl, fun l hl => (hlinked id l.spec ?_).1⟩
  show (d.live.mapValues fun _ l => l.spec).get? id = some l.spec
  rw [OrdMap.get?_mapValues, hl]
  rfl

/-- From where the container is found. -/
theorem spared_found {d d' : State (List Act × σ)} (hlinked : Linked d.books)
    (hfound : resolve (traced w) target d = (.ok id, d')) : Spared id other (share other d) d' := by
  have hend := (spared_resolve (w := w) target).apply (spared_start hlinked id other)
  rw [hfound] at hend
  exact hend

theorem spared_stop (hne : other ≠ id) (conn : ℕ) (timeout : Option UInt64) {d d' : State (List Act × σ)}
    (hlinked : Linked d.books) (hfound : resolve (traced w) target d = (.ok id, d')) :
    share other (opStop (traced w) conn target timeout d).2 = share other d := by
  have hspared : Spared id other (share other d) d' := spared_found hlinked hfound
  have hpure : Eff.Keeps (Spared id other (share other d)) (pure none : Op (List Act × σ) (Option Response)) :=
    Eff.Keeps.pure _
  unfold opStop
  rw [Eff.bind_of_ok hfound]
  refine (Eff.Keeps.apply (I := Spared id other (share other d)) ?_ hspared).1
  refine Eff.Triple.get_bind fun d hd => ?_
  cases hlive : d.live.get? id with
  | none =>
    refine Eff.Triple.bind (Q := fun _ => Spared id other _) (Eff.Triple.modify fun d' hd' => ?_) fun _ =>
      Eff.Keeps.pure _
    exact ⟨hd' ▸ hd.1, hd' ▸ hd.2⟩
  | some l =>
    have hid := hd.2 l hlive
    dsimp only
    split
    · refine Eff.Triple.bind (Q := fun _ => Spared id other _) (Eff.Triple.modify fun d' hd' => ?_) fun _ => hpure
      subst hd'
      exact spared_insert hne hd rfl hid rfl rfl rfl rfl rfl rfl rfl
    · refine Eff.Triple.pre (P := Spared id other _) ?_ fun d' hd' => hd' ▸ hd
      show Eff.Keeps _ _
      refine spared_now.bind fun now => (spared_addTo _ _).bind fun signalAt => (spared_addTo _ _).bind fun killAt => ?_
      refine (Eff.Keeps.modify fun d' hd' => ?_).bind fun _ => hpure
      exact spared_insert hne hd' rfl hid rfl rfl (Function.update_of_ne hne ..) rfl rfl rfl rfl

theorem spared_rm (hne : other ≠ id) (force : Bool) {d d' : State (List Act × σ)} (hlinked : Linked d.books)
    (hfound : resolve (traced w) target d = (.ok id, d')) :
    share other (opRm (traced w) target force d).2 = share other d := by
  have hspared : Spared id other (share other d) d' := spared_found hlinked hfound
  have hpurge : Eff.Keeps (Spared id other (share other d)) (do
      purge (traced w) id
      pure (some Response.ok)) := (spared_purge hne).bind fun _ => Eff.Keeps.pure _
  have hend : Eff.Keeps (Spared id other (share other d)) (do
      act (traced w) (.killCgroup id)
      reapBlocking (traced w) id
      purge (traced w) id
      pure (some Response.ok)) :=
    (spared_act (.killCgroup id) (subject_ne hne)).bind fun _ => (spared_reapBlocking hne).bind fun _ => hpurge
  unfold opRm
  rw [Eff.bind_of_ok hfound]
  refine (Eff.Keeps.apply (I := Spared id other (share other d)) ?_ hspared).1
  refine Eff.Keeps.get.bind fun d => ?_
  split
  · split
    · exact (Eff.Keeps.throw _).bind fun _ => hend
    · exact hend
  · exact hpurge

theorem spared_execWith (hne : other ≠ id) (conn : ℕ) (argv : List String) (timeoutSecs : Option UInt64)
    (service : Option String) :
    Eff.Keeps (Spared id other s₀) (execWith (traced w) conn id target argv timeoutSecs service) := by
  refine Eff.Triple.get_bind fun d hd => ?_
  cases hlive : d.live.get? id with
  | none => exact Eff.Triple.throw fun d' hd' => hd' ▸ hd
  | some l =>
    have hid := hd.2 l hlive
    refine Eff.Triple.pre (P := Spared id other s₀) ?_ fun d' hd' => hd' ▸ hd
    have hend : Eff.Keeps (Spared id other s₀) (do
        act (traced w) (.spawnExec id argv)
        let now ← instantNow (traced w)
        Eff.modify fun d => { d with
          live := d.live.insert id { l with lastActivity := now }, marks := d.marks ++ [.active id now] }
        scheduleIdleReap (traced w) id l.spec.idleTimeoutSecs
        let tok ← token
        act (traced w) (.epollAdd tok)
        let now ← instantNow (traced w)
        let deadline ← execDeadline now timeoutSecs
        Eff.modify fun d => { d with execs := d.execs.insert tok { conn, deadline } }
        pure none : Op (List Act × σ) (Option Response)) := by
      refine (spared_act (.spawnExec id argv) (subject_ne hne)).bind fun _ => spared_now.bind fun now => ?_
      refine (Eff.Keeps.modify fun d hd => ?_).bind fun _ => (spared_idle hne _).bind fun _ => ?_
      · exact spared_insert hne hd rfl hid rfl rfl rfl rfl rfl rfl rfl
      refine spared_token.bind fun tok =>
        (spared_act (.epollAdd tok) (Option.some_ne_none other).symm).bind fun _ => spared_now.bind fun now => ?_
      refine Eff.Keeps.bind ?_ fun _ => (Eff.Keeps.modify fun _ hd => ⟨hd.1, hd.2⟩).bind fun _ => Eff.Keeps.pure _
      unfold execDeadline
      cases timeoutSecs with
      | none => exact Eff.Keeps.pure _
      | some t => exact (spared_addTo _ _).bind fun _ => Eff.Keeps.pure _
    dsimp only
    split
    · exact (Eff.Keeps.throw _).bind fun _ => hend
    · exact hend

theorem spared_exec (hne : other ≠ id) (conn : ℕ) (argv : List String) (timeoutSecs : Option UInt64)
    (service : Option String) {d d' : State (List Act × σ)} (hlinked : Linked d.books)
    (hfound : resolve (traced w) target d = (.ok id, d')) :
    share other (opExec (traced w) conn target argv timeoutSecs service d).2 = share other d := by
  have hspared : Spared id other (share other d) d' := spared_found hlinked hfound
  rw [opExec_eq, Eff.bind_of_ok hfound]
  refine (Eff.Keeps.apply (I := Spared id other (share other d)) ?_ hspared).1
  exact (spared_act (.takeDescriptors conn 3) (Option.some_ne_none other).symm).bind fun _ =>
    spared_execWith hne conn argv timeoutSecs service

end Deeds

/-! ## What has become of the container -/

section Done
variable {σ : Type} {w : World σ} {id : ContainerId} {target : String}

theorem inward_live : Inward (State.live (σ := σ)) :=
  ⟨fun _ _ => rfl, fun _ _ => rfl, fun _ _ => rfl, fun _ _ => rfl, fun _ _ => rfl, fun _ _ => rfl, fun _ _ => rfl⟩

theorem silent_afterExit (spec : Spec) (code : ℤ) : Silent State.live (afterExit w id spec code) := by
  have hnow : Silent State.live (instantNow w) := silent_instantNow (inward_live.overlooks w)
  refine Silent.get_bind fun d => Silent.modify_bind (fun _ => rfl) fun _ =>
    Silent.ite ?_ (Silent.ite ?_ (Silent.pure _))
  · refine Silent.modify_bind (fun _ => rfl) fun _ => hnow.bind fun now => ?_
    exact (silent_addTo (fun _ _ => rfl) _ _).bind fun time => Silent.modify fun _ => rfl
  · exact hnow.bind fun now => (silent_addTo (fun _ _ => rfl) _ _).bind fun time => Silent.modify fun _ => rfl

theorem onExit_gone (code : Option ℤ) :
    Surely State.live (fun _ => True) (fun live => live.get? id = none) (onExit w id code) := by
  have ho := inward_live.overlooks w
  refine Surely.get_bind fun d _ => ?_
  split
  · rename_i hnone
    exact Eff.Triple.pure fun d' hd' => hd' ▸ hnone
  · rename_i l hlive
    have hanswer (code : ℤ) (waiter : Waiter) : Silent State.live (answer w id code waiter) := by
      unfold answer
      cases waiter.kind with
      | wait => exact silent_send ho _ _
      | stop => exact Silent.modify_bind (fun _ => rfl) fun _ => silent_send ho _ _
    have hrest (code : ℤ) : Silent State.live (do
        l.waiters.forM (answer w id code)
        afterExit w id l.spec code
        Eff.modify fun d => { d with fwDirty := true }) :=
      (Silent.forM _ fun v => hanswer code v).bind fun _ =>
        (silent_afterExit _ _).bind fun _ => Silent.modify fun _ => rfl
    refine Surely.bind (Q := fun live => live.get? id = none) (Surely.modify fun d' _ => ?_) fun _ => ?_
    · show (d'.live.erase id).get? id = none
      rw [OrdMap.get?_erase, if_pos rfl]
    · refine (((silent_tryAct ho (.epollRemove l.token) rfl).bind fun _ => ?_) : Silent State.live _) _
      refine (inward_live.quiet_storeUpdate w _).attempt.bind fun _ => (silent_cleanupRuntime ho id).bind fun _ => ?_
      refine (silent_instantNow ho).bind fun now => Silent.modify_bind (fun _ => rfl) fun _ => ?_
      exact Silent.ite (Silent.modify_bind (fun _ => rfl) fun _ => hrest _) (hrest _)

theorem reapLoop_gone (deadline : Instant) (left : ℕ) :
    Surely State.live (fun _ => True) (fun live => live.get? id = none) (reapLoop w id deadline left) := by
  induction left with
  | zero => exact onExit_gone none
  | succ left ih =>
    refine (silent_instantNow (inward_live.overlooks w) _).bind fun now => Surely.ite ?_ (onExit_gone none)
    refine Surely.get_bind fun d _ => ?_
    split
    · rename_i hnone
      exact Eff.Triple.pure fun d' hd' => hd' ▸ hnone
    · refine Surely.bind (Q := fun _ => True) (((inward_live.quiet_outside _).attempt _).pre fun _ _ => trivial)
        fun r => ?_
      rcases r with e | _ | code
      · exact onExit_gone none
      · exact ih
      · exact onExit_gone _

theorem reapBlocking_gone {d d' : State σ} {u : Unit} (h : reapBlocking w id d = (.ok u, d')) :
    d'.live.get? id = none := by
  have hsure : Surely State.live (fun _ => True) (fun live => live.get? id = none) (reapBlocking w id) :=
    (silent_instantNow (inward_live.overlooks w) _).bind fun now =>
      (silent_addTo (fun _ _ => rfl) _ _ _).bind fun _ => reapLoop_gone _ _
  exact Eff.Triple.ok hsure trivial h

/-- What `purge` leaves of the container, when it does not fail. -/
theorem purge_done {d d' : State σ} {u : Unit} (h : purge w id d = (.ok u, d')) :
    d'.store.get? id = none ∧ d'.live = d.live := by
  obtain ⟨u₁, d₁, hremove, h⟩ := Eff.bind_ok h
  have ho : Overlooks w fun d : State σ => (d.store, d.live) :=
    ⟨fun _ => rfl, fun _ _ _ => rfl, fun _ _ => rfl, fun _ _ => rfl, fun _ _ => rfl, fun _ _ => rfl, fun _ _ _ => rfl,
      fun _ _ => rfl, fun _ _ => rfl, fun _ _ => rfl, fun _ _ => rfl⟩
  have hrest : (d'.store, d'.live) = (d₁.store, d₁.live) := by
    have hquiet : Quiet (fun d : State σ => (d.store, d.live)) (do
        tryAct w .purgeTrash
        Eff.modify fun d => { d with ipam := d.ipam.release id.display }
        removeRuntimeDirs w id) :=
      (silent_tryAct ho .purgeTrash rfl).then fun _ => Quiet.modify_bind (fun _ => rfl) fun _ =>
        (silent_removeRuntimeDirs ho id).quiet
    have hend := hquiet.eq d₁
    rw [h] at hend
    exact hend
  obtain ⟨hstore, hlive⟩ := Prod.mk.inj hrest
  rw [hstore, hlive]
  unfold storeRemove at hremove
  rw [Eff.get_bind_apply] at hremove
  split at hremove
  · obtain ⟨r, d₂, hask, hremove⟩ := Eff.bind_ok hremove
    obtain rfl : { d with outer := (w.write (.remove id) d.outer).2 } = d₂ := congrArg Prod.snd hask
    rcases r with _ | ⟨e, _ | _⟩
    · cases hremove
      exact ⟨by rw [SpecStore.get?_erase, if_pos rfl], rfl⟩
    · cases hremove
    · cases hremove
  · cases hremove

theorem rm_done {force : Bool} {d d₁ d' : State σ} {r : Option Response} (hfound : resolve w target d = (.ok id, d₁))
    (h : opRm w target force d = (.ok r, d')) : d'.store.get? id = none ∧ d'.live.get? id = none := by
  have hpurge {d₂ : State σ} (hgone : d₂.live.get? id = none)
      (h : (purge w id >>= fun _ => pure (some Response.ok)) d₂ = (.ok r, d')) :
      d'.store.get? id = none ∧ d'.live.get? id = none := by
    obtain ⟨u, d₃, hp, h⟩ := Eff.bind_ok h
    cases h
    obtain ⟨hstore, hlive⟩ := purge_done hp
    exact ⟨hstore, by rw [hlive, hgone]⟩
  unfold opRm at h
  rw [Eff.bind_of_ok hfound, Eff.get_bind_apply] at h
  split at h
  · split at h
    · cases h
    · obtain ⟨u, d₂, -, h⟩ := Eff.bind_ok h
      obtain ⟨u', d₃, hreap, h⟩ := Eff.bind_ok h
      exact hpurge (reapBlocking_gone hreap) h
  · rename_i hnot
    exact hpurge (Option.isNone_iff_eq_none.mp (Option.isSome_eq_false_iff.mp (Bool.not_eq_true _ ▸ hnot))) h

theorem stop_done {conn : ℕ} {timeout : Option UInt64} {d d₁ d' : State σ} {r : Option Response}
    (hfound : resolve w target d = (.ok id, d₁)) (h : opStop w conn target timeout d = (.ok r, d')) :
    d.live.get? id = none ∨ ∃ l, d'.live.get? id = some l ∧ l.stopRequested = true := by
  have hsame : d₁.live = d.live := by
    have hquiet := (quiet_resolve (inward_live.overlooks w) target).eq d
    rwa [hfound] at hquiet
  unfold opStop at h
  rw [Eff.bind_of_ok hfound, Eff.get_bind_apply, hsame] at h
  cases hlive : d.live.get? id with
  | none => exact .inl rfl
  | some l =>
    rw [hlive] at h
    refine .inr ?_
    dsimp only at h
    split at h
    · rename_i hstop
      cases h
      exact ⟨{ l with waiters := l.waiters ++ [⟨conn, .stop⟩] }, by rw [OrdMap.get?_insert, if_pos rfl], hstop⟩
    · obtain ⟨now, d₂, -, h⟩ := Eff.bind_ok h
      obtain ⟨signalAt, d₃, -, h⟩ := Eff.bind_ok h
      obtain ⟨killAt, d₄, -, h⟩ := Eff.bind_ok h
      cases h
      exact ⟨_, by rw [OrdMap.get?_insert, if_pos rfl], rfl⟩

/-- The actions for the container, without one that is for it. -/
theorem actions_act {a : Act} (ha : a.subject ≠ some id) :
    Quiet (fun d => (share id d).actions) (act (traced w) a : Op (List Act × σ) Unit) := by
  refine Quiet.of_eq fun d => ?_
  show ((d.outer.1 ++ [a]).filter fun a => a.subject = some id) = _
  rw [List.filter_append, List.filter_singleton, decide_eq_false ha]
  exact List.append_nil _

theorem exec_done {conn : ℕ} {argv : List String} {timeoutSecs : Option UInt64} {service : Option String}
    {d d₁ d' : State (List Act × σ)} {r : Option Response} (hfound : resolve (traced w) target d = (.ok id, d₁))
    (h : opExec (traced w) conn target argv timeoutSecs service d = (.ok r, d')) :
    (share id d').actions = (share id d).actions ++ [.spawnExec id argv] := by
  have hnone : (none : Option ContainerId) ≠ some id := (Option.some_ne_none id).symm
  have hresolve : (share id d₁).actions = (share id d).actions := by
    have hquiet : Quiet (fun d => (share id d).actions) (resolve (traced w) target) :=
      ((actions_act (a := .readSpecs) hnone).bind fun _ => Quiet.get_bind fun _ => Quiet.pure _).bind
        fun _ => Quiet.lift _
    have hend := hquiet.eq d
    rwa [hfound] at hend
  have hrest (l : Live) : Quiet (fun d => (share id d).actions) (do
      let now ← instantNow (traced w)
      Eff.modify fun d => { d with
        live := d.live.insert id { l with lastActivity := now }, marks := d.marks ++ [.active id now] }
      scheduleIdleReap (traced w) id l.spec.idleTimeoutSecs
      let tok ← token
      act (traced w) (.epollAdd tok)
      let now ← instantNow (traced w)
      let deadline ← execDeadline now timeoutSecs
      Eff.modify fun d => { d with execs := d.execs.insert tok { conn, deadline } }
      pure none : Op (List Act × σ) (Option Response)) := by
    refine (Quiet.of_eq fun _ => rfl).bind fun now => Quiet.modify_bind (fun _ => rfl) fun _ => ?_
    refine Quiet.bind (Quiet.of_eq fun d => ?_) fun _ => (Quiet.of_eq fun _ => rfl).bind fun tok => ?_
    · cases l.spec.idleTimeoutSecs <;> rfl
    refine (actions_act (a := .epollAdd tok) hnone).bind fun _ => (Quiet.of_eq fun _ => rfl).bind fun now => ?_
    refine Quiet.bind (Quiet.of_eq fun d => ?_) fun _ => Quiet.modify_bind (fun _ => rfl) fun _ => Quiet.pure _
    cases timeoutSecs <;> rfl
  rw [opExec_eq, Eff.bind_of_ok hfound] at h
  obtain ⟨u, d₂, htake, h⟩ := Eff.bind_ok h
  have htaken : (share id d₂).actions = (share id d₁).actions := by
    have hend := (actions_act (w := w) (a := .takeDescriptors conn 3) hnone).eq d₁
    rwa [htake] at hend
  unfold execWith at h
  rw [Eff.get_bind_apply] at h
  rw [← hresolve, ← htaken]
  cases hlive : d₂.live.get? id with
  | none =>
    rw [hlive] at h
    cases h
  | some l =>
    rw [hlive] at h
    dsimp only at h
    split at h
    · cases h
    · obtain ⟨u', d₃, hspawn, h⟩ := Eff.bind_ok h
      have hlast := (hrest l).eq d₃
      rw [h] at hlast
      have hacted : d₃.outer.1 = d₂.outer.1 ++ [.spawnExec id argv] := by
        rw [← show _ = d₃ from congrArg Prod.snd hspawn]
        rfl
      show (share id d').actions = _
      rw [hlast]
      show (d₃.outer.1.filter fun a => a.subject = some id) = _
      rw [hacted, List.filter_append, List.filter_singleton,
        decide_eq_true (show (Act.spawnExec id argv).subject = some id from rfl)]
      rfl

end Done

/-! ## What a request acts on -/

section Targets
variable {σ : Type} {w : World σ} {id : ContainerId} (target : String)

/-- A request to a daemon whose live containers are stored: when its container is not found nothing is touched, and
otherwise no other container is. -/
theorem deed_acts (deed : Deed) {d : State (List Act × σ)} (hlinked : Linked d.books) :
    (∀ e d₁, resolve (traced w) target d = (.error e, d₁) → (deed.run (traced w) target d).1 = .error e ∧
      ∀ other, share other (deed.run (traced w) target d).2 = share other d) ∧
    ∀ id d₁, resolve (traced w) target d = (.ok id, d₁) →
      (∀ other, other ≠ id → share other (deed.run (traced w) target d).2 = share other d) ∧
      ∀ r d', deed.run (traced w) target d = (.ok r, d') → deed.Done (share id d) (share id d') id := by
  refine ⟨fun e d₁ hmissing => ?_, fun id d₁ hfound => ⟨fun other hne => ?_, fun r d' h => ?_⟩⟩
  · have hrun : deed.run (traced w) target d = (.error e, d₁) := by
      cases deed with
      | rm force => exact Eff.bind_of_error hmissing _
      | stop conn timeout => exact Eff.bind_of_error hmissing _
      | exec conn argv timeoutSecs service => exact Eff.bind_of_error hmissing _
    rw [hrun]
    refine ⟨rfl, fun other => ?_⟩
    have hend := (spared_resolve (w := w) target).apply (spared_start hlinked other other)
    rw [hmissing] at hend
    exact hend.1
  · cases deed with
    | rm force => exact spared_rm hne force hlinked hfound
    | stop conn timeout => exact spared_stop hne conn timeout hlinked hfound
    | exec conn argv timeoutSecs service => exact spared_exec hne conn argv timeoutSecs service hlinked hfound
  · cases deed with
    | rm force => exact rm_done hfound h
    | stop conn timeout => exact stop_done hfound h
    | exec conn argv timeoutSecs service => exact exec_done hfound h

end Targets
end Collocate.Daemon
