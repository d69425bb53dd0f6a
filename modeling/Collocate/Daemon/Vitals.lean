import Collocate.Daemon.Quiet

/-! # Containers over time

`Vitals` is the part of the daemon's state that restarts, health and idle timeouts depend on, and `Move`
lists every change of it that a handler makes. -/
namespace Collocate.Daemon
set_option autoImplicit false

/-! ## The vitals -/

structure Vital where
  spec : Spec
  stopRequested : Bool
  tracker : Option HealthTracker
  lastActivity : Instant
  results : List Bool

def Live.vital (l : Live) : Vital where
  spec := l.spec
  stopRequested := l.stopRequested
  tracker := l.tracker
  lastActivity := l.lastActivity
  results := l.results

structure Vitals where
  live : OrdMap ContainerId Vital
  schedule : List (Instant × Task)
  due : List Task
  timer : Instant
  restarts : ContainerId → Option UInt32
  userStopped : ContainerId → Bool
  marks : List Mark

def State.vitals {σ : Type} (d : State σ) : Vitals where
  live := d.live.mapValues fun _ l => l.vital
  schedule := d.schedule
  due := d.due
  timer := d.timer
  restarts := d.restarts
  userStopped := d.userStopped
  marks := d.marks

section View
variable {σ : Type} {d : State σ} {id : ContainerId} {l : Live}

theorem inward_vitals : Inward (State.vitals (σ := σ)) :=
  ⟨fun _ _ => rfl, fun _ _ => rfl, fun _ _ => rfl, fun _ _ => rfl, fun _ _ => rfl, fun _ _ => rfl, fun _ _ => rfl⟩

theorem vitals_live (d : State σ) (id : ContainerId) : d.vitals.live.get? id = (d.live.get? id).map Live.vital :=
  OrdMap.get?_mapValues ..

theorem vitals_live_get? (h : d.live.get? id = some l) : d.vitals.live.get? id = some l.vital := by
  rw [vitals_live, h]
  rfl

theorem vitals_live_none (h : d.live.get? id = none) : d.vitals.live.get? id = none := by
  rw [vitals_live, h]
  rfl

theorem vitals_insert (d : State σ) (id : ContainerId) (l : Live) :
    ({ d with live := d.live.insert id l }).vitals = { d.vitals with live := d.vitals.live.insert id l.vital } := by
  simp only [State.vitals, OrdMap.mapValues_insert]

/-- A change of a live container that is not seen. -/
theorem vitals_touch (h : d.vitals.live.get? id = some l.vital) :
    ({ d with live := d.live.insert id l }).vitals = d.vitals := by
  rw [vitals_insert, OrdMap.insert_of_get? h]

end View

/-- A list with one more item at its end, taken apart at an item. -/
theorem concat_eq_append_cons {α : Type} {l pre post : List α} {a b : α} (h : l ++ [a] = pre ++ b :: post) :
    (pre = l ∧ b = a ∧ post = []) ∨ ∃ rest, post = rest ++ [a] ∧ l = pre ++ b :: rest := by
  rcases List.eq_nil_or_concat post with rfl | ⟨rest, last, rfl⟩
  · obtain ⟨hpre, hlast⟩ := List.append_inj' h rfl
    exact .inl ⟨hpre.symm, (List.cons.inj hlast).1.symm, rfl⟩
  · rw [List.concat_eq_append, ← List.cons_append, ← List.append_assoc] at h
    obtain ⟨hinit, hlast⟩ := List.append_inj' h rfl
    refine .inr ⟨rest, ?_, hinit⟩
    rw [List.concat_eq_append, (List.cons.inj hlast).1]

/-- `P` of every live container. -/
def Throughout (P : ContainerId → Vital → Prop) (live : OrdMap ContainerId Vital) : Prop :=
  ∀ id v, live.get? id = some v → P id v

section Throughout
variable {P : ContainerId → Vital → Prop} {live : OrdMap ContainerId Vital}

theorem Throughout.insert (h : Throughout P live) {id : ContainerId} {v : Vital} (hv : P id v) :
    Throughout P (live.insert id v) := by
  intro id' v' hget
  rw [OrdMap.get?_insert] at hget
  split at hget
  · rename_i hid
    cases hget
    exact hid ▸ hv
  · exact h id' v' hget

theorem Throughout.erase (h : Throughout P live) (id : ContainerId) : Throughout P (live.erase id) := by
  intro id' v' hget
  rw [OrdMap.get?_erase] at hget
  split at hget
  · cases hget
  · exact h id' v' hget

end Throughout

/-! ## Moves -/

namespace Vitals

/-- The container is out of the live ones, with its counter of restarts forgotten after a `long` run. -/
def left (c : Vitals) (id : ContainerId) (v : Vital) (long : Bool) : Vitals := { c with
  live := c.live.erase id
  restarts := if long then Function.update c.restarts id none else c.restarts
  userStopped := Function.update c.userStopped id false
  marks := c.marks ++ [.ended id v.spec.restart long v.stopRequested] }

def attempts (c : Vitals) (id : ContainerId) : UInt32 := (c.restarts id).getD 0

/-- A relaunch is on the schedule for `time`. -/
def restarting (c : Vitals) (id : ContainerId) (policy : RestartPolicy) (time : Instant) : Vitals := { c with
  restarts := Function.update c.restarts id (some (c.attempts id + 1))
  schedule := c.schedule ++ [(time, .relaunch id)]
  marks := c.marks ++ [.scheduled id policy] }

/-- The container has been idle for as long as it may. -/
def Idle (c : Vitals) (id : ContainerId) : Prop :=
  ∃ v idleSecs, c.live.get? id = some v ∧ v.spec.idleTimeoutSecs = some idleSecs ∧
    secs (max idleSecs 1) ≤ c.timer - v.lastActivity

end Vitals

/-- What an activity at `since` puts on the schedule; where the clock is `steady`, not for too early a time. -/
def Rests (steady : Prop) (id : ContainerId) (idleTimeoutSecs : Option UInt64) (since : Instant)
    (later : List (Instant × Task)) : Prop :=
  match idleTimeoutSecs with
  | none => later = []
  | some t => ∃ time, later = [(time, .reapIdle id)] ∧ (steady → since + secs (max t 1) ≤ time)

/-- A container that has just been launched or adopted. -/
structure Vital.Fresh (v : Vital) : Prop where
  stop : v.stopRequested = false
  tracker : v.tracker = v.spec.healthcheck.map fun h => HealthTracker.new h.retries
  results : v.results = []

inductive Move (steady : Prop) : Vitals → Vitals → Prop
  | stop {c : Vitals} {id : ContainerId} {v : Vital} (hlive : c.live.get? id = some v) :
    Move steady c { c with
      live := c.live.insert id { v with stopRequested := true }
      userStopped := Function.update c.userStopped id true }
  | pardoned {c : Vitals} {id : ContainerId} (hlive : c.live.get? id = none) :
    Move steady c { c with userStopped := Function.update c.userStopped id false }
  | entered {c : Vitals} {v : Vital} {later : List (Instant × Task)} (hv : v.Fresh)
    (hlater : Rests steady v.spec.id v.spec.idleTimeoutSecs v.lastActivity later) :
    Move steady c { c with
      live := c.live.insert v.spec.id v
      schedule := c.schedule ++ later
      marks := c.marks ++ [.active v.spec.id v.lastActivity] }
  | used {c : Vitals} {id : ContainerId} {v : Vital} {now : Instant} {later : List (Instant × Task)}
    (hlive : c.live.get? id = some v) (hlater : Rests steady id v.spec.idleTimeoutSecs now later) :
    Move steady c { c with
      live := c.live.insert id { v with lastActivity := now }
      schedule := c.schedule ++ later
      marks := c.marks ++ [.active id now] }
  | probed {c : Vitals} {id : ContainerId} {v : Vital} {t : HealthTracker} (hlive : c.live.get? id = some v)
    (ht : v.tracker = some t) (ok : Bool) :
    Move steady c { c with
      live := c.live.insert id { v with tracker := some (t.record ok), results := v.results ++ [ok] } }
  | restarting {c : Vitals} {id : ContainerId} {v : Vital} {long : Bool} {code : ℤ} (hlive : c.live.get? id = some v)
    (hrestart : shouldRestart v.spec.restart code ((c.left id v long).attempts id) (c.userStopped id) = true)
    (time : Instant) :
    Move steady c ((c.left id v long).restarting id v.spec.restart time)
  | ended {c : Vitals} {id : ContainerId} {v : Vital} {later : List (Instant × Task)} (hlive : c.live.get? id = some v)
    (long : Bool) (hlater : ∀ e ∈ later, ∀ id', e.2 ≠ .relaunch id') :
    Move steady c { c.left id v long with schedule := c.schedule ++ later }
  | reaped {c : Vitals} {id : ContainerId} {v : Vital} {idleSecs : UInt64} (hlive : c.live.get? id = some v)
    (hidle : v.spec.idleTimeoutSecs = some idleSecs) (hdue : secs (max idleSecs 1) ≤ c.timer - v.lastActivity) :
    Move steady c { c with marks := c.marks ++ [.reaped id idleSecs c.timer] }

theorem Move.timing {steady : Prop} {c c' : Vitals} (h : Move steady c c') : c'.due = c.due ∧ c'.timer = c.timer := by
  cases h <;> exact ⟨rfl, rfl⟩

/-- `R` survives every move. -/
def Stays (steady : Prop) (R : Vitals → Prop) : Prop := ∀ c c', Move steady c c' → R c → R c'

theorem Stays.timed {steady : Prop} {R : Vitals → Prop} (hR : Stays steady R) (due : List Task) (timer : Instant) :
    Stays steady fun c => R c ∧ c.due = due ∧ c.timer = timer :=
  fun c c' h hc => ⟨hR c c' h hc.1, h.timing.1.trans hc.2.1, h.timing.2.trans hc.2.2⟩

theorem Stays.rested {steady : Prop} {R : Vitals → Prop} (hR : Stays steady R) :
    Stays steady fun c => R c ∧ c.due = [] :=
  fun c c' h hc => ⟨hR c c' h hc.1, h.timing.1.trans hc.2⟩

/-- What a run preserves: `R` survives every move, and the timer taking tasks off the schedule and using
each of them. -/
structure Lasts (steady : Prop) (R : Vitals → Prop) : Prop where
  moved : Stays steady R
  fired : ∀ (c : Vitals) (now : Instant), c.due = [] → R c → R { c with
    schedule := c.schedule.filter fun e => !decide (e.1 ≤ now)
    due := (c.schedule.filter fun e => decide (e.1 ≤ now)).map Prod.snd
    timer := now }
  relaunched : ∀ (c : Vitals) (id : ContainerId) (rest : List Task), c.due = .relaunch id :: rest → R c →
    R { c with due := rest, marks := c.marks ++ [.relaunched id] }
  dropped : ∀ (c : Vitals) (task : Task) (rest : List Task), c.due = task :: rest →
    (∀ id, task = .reapIdle id → ¬ c.Idle id) → R c → R { c with due := rest }

end Collocate.Daemon
