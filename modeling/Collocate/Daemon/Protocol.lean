import Collocate.Daemon.Loop

/-! # What the daemon can do

`Core` is the part of the daemon's state that the firewall and the restarts depend on, and `Step` lists
every change of it that a handler makes, with what the handler has checked before. -/
namespace Collocate.Daemon
set_option autoImplicit false

/-! ## The core -/

/-- Of a live container what the firewall rules and the answers to `Stop` depend on. -/
structure Face where
  spec : Spec
  stopRequested : Bool
  health : Option HealthState
  stops : ℕ

def Live.face (l : Live) : Face where
  spec := l.spec
  stopRequested := l.stopRequested
  health := l.tracker.map (·.state)
  stops := l.waiters.countP fun v => v.kind == .stop

structure Core where
  cfg : DaemonSettings
  live : OrdMap ContainerId Face
  lbs : OrdMap String LbSpec
  schedule : List Task
  due : List Task
  userStopped : ContainerId → Bool
  fwDirty : Bool
  script : Option String
  log : List Note

def State.core {σ : Type} (d : State σ) : Core where
  cfg := d.cfg
  live := d.live.mapValues fun _ l => l.face
  lbs := d.lbs
  schedule := d.schedule.map Prod.snd
  due := d.due
  userStopped := d.userStopped
  fwDirty := d.fwDirty
  script := d.script
  log := d.log

namespace Core

def pending (c : Core) (id : ContainerId) : Bool :=
  c.schedule.any (fun t => t == .relaunch id) || c.due.any fun t => t == .relaunch id

/-- The firewall is out of date. -/
def dirty (c : Core) : Core := { c with fwDirty := true }

/-- A launch of the container may begin: it was asked for just now, or the timer is at a relaunch. -/
def Ready (c : Core) (id : ContainerId) : Prop := c.log.getLast? = some (.asked id) ∨ Task.relaunch id ∈ c.due

/-- The container is gone from the live ones and those who waited for its end have their answers; `later`
is what it left on the schedule. -/
def exited (c : Core) (id : ContainerId) (f : Face) (later : List Task) : Core := { c with
  live := c.live.erase id
  log := c.log ++ List.replicate f.stops (.stopped id (c.pending id))
  userStopped := Function.update c.userStopped id false
  schedule := c.schedule ++ later
  fwDirty := true }

end Core

section Core
variable {σ : Type} {d : State σ} {id : ContainerId} {l : Live}

theorem relaunchPending_core (d : State σ) (id : ContainerId) : d.relaunchPending id = d.core.pending id := by
  simp [State.relaunchPending, Core.pending, State.core, List.any_map, Function.comp_def]

theorem core_live_get? (h : d.live.get? id = some l) : d.core.live.get? id = some l.face := by
  simp [State.core, h]

theorem core_live_none (h : d.live.get? id = none) : d.core.live.get? id = none := by
  simp [State.core, h]

theorem core_live_insert (d : State σ) (id : ContainerId) (l : Live) :
    ({ d with live := d.live.insert id l }).core = { d.core with live := d.core.live.insert id l.face } := by
  simp only [State.core, OrdMap.mapValues_insert]

theorem core_schedule (d : State σ) (at' : Instant) (t : Task) :
    ({ d with schedule := d.schedule ++ [(at', t)] }).core = { d.core with schedule := d.core.schedule ++ [t] } := by
  simp [State.core]

/-- A change of a live container that its face does not show. -/
theorem core_live_touch (h : d.core.live.get? id = some l.face) :
    ({ d with live := d.live.insert id l }).core = d.core := by
  rw [core_live_insert, OrdMap.insert_of_get? h]

end Core

/-! ## Steps -/

/-- What happens to the core while an event is handled, one constructor for each kind of change. Those
under `inits` are made for an `Init` request only, and containers are adopted before anything else. -/
inductive Step (inits : Prop) : Core → Core → Prop
  | stop {c : Core} {id : ContainerId} {f : Face} (hlive : c.live.get? id = some f) (hstop : f.stopRequested = false) :
    Step inits c { c with
      live := c.live.insert id { f with stopRequested := true, stops := f.stops + 1 }
      userStopped := Function.update c.userStopped id true
      fwDirty := true }
  | join {c : Core} {id : ContainerId} {f : Face} (hlive : c.live.get? id = some f) (hstop : f.stopRequested = true) :
    Step inits c { c with live := c.live.insert id { f with stops := f.stops + 1 } }
  | answered {c : Core} {id : ContainerId} (hlive : c.live.get? id = none) :
    Step inits c { c with log := c.log ++ [.stopped id (c.pending id)] }
  | pardoned {c : Core} {id : ContainerId} (hlive : c.live.get? id = none) :
    Step inits c { c with userStopped := Function.update c.userStopped id false }
  | asked (c : Core) (id : ContainerId) : Step inits c { c with log := c.log ++ [.asked id] }
  | launching {c : Core} {id : ContainerId} (hready : c.Ready id) :
    Step inits c { c with log := c.log ++ [.launching id] }
  | launched {c : Core} {f : Face} (hlog : c.log.getLast? = some (.launching f.spec.id))
    (hstop : f.stopRequested = false) (hstops : f.stops = 0) :
    Step inits c { c with live := c.live.insert f.spec.id f, fwDirty := true }
  | adopted {c : Core} (f : Face) (hlog : c.log = []) (hstop : f.stopRequested = false) (hstops : f.stops = 0) :
    Step inits c { c with live := c.live.insert f.spec.id f, fwDirty := true }
  | later (c : Core) {t : Task} (ht : ∀ id, t ≠ .relaunch id) : Step inits c { c with schedule := c.schedule ++ [t] }
  | exited {c : Core} {id : ContainerId} {f : Face} {later : List Task} (hlive : c.live.get? id = some f)
    (hlater : ∀ id', Task.relaunch id' ∈ later → id' = id ∧ c.userStopped id = false) :
    Step inits c (c.exited id f later)
  | verdict {c : Core} {id : ContainerId} {f : Face} (hlive : c.live.get? id = some f) (health : Option HealthState) :
    Step inits c { c with live := c.live.insert id { f with health }, fwDirty := true }
  | balanced (c : Core) (lbs : OrdMap String LbSpec) : Step inits c { c with lbs, fwDirty := true }
  | forgot (hinits : inits) (c : Core) (lbs : OrdMap String LbSpec) : Step inits c { c with lbs }
  | configured (hinits : inits) (c : Core) (cfg : DaemonSettings) : Step inits c { c with cfg }

def Closed (inits : Prop) (R : Core → Prop) : Prop := ∀ c c', Step inits c c' → R c → R c'

section Closed
variable {inits : Prop} {R : Core → Prop} {c c' : Core}

theorem Step.due (h : Step inits c c') : c'.due = c.due := by
  cases h <;> rfl

/-- No step looks at the firewall's flag. -/
theorem Step.dirty (h : Step inits c c') : Step inits c.dirty c'.dirty := by
  cases h with
  | stop hlive hstop => exact .stop (c := c.dirty) hlive hstop
  | join hlive hstop => exact .join (c := c.dirty) hlive hstop
  | answered hlive => exact .answered (c := c.dirty) hlive
  | pardoned hlive => exact .pardoned (c := c.dirty) hlive
  | asked _ id => exact .asked c.dirty id
  | launching hready => exact .launching (c := c.dirty) hready
  | launched hlog hstop hstops => exact .launched (c := c.dirty) hlog hstop hstops
  | adopted f hlog hstop hstops => exact .adopted (c := c.dirty) f hlog hstop hstops
  | later _ ht => exact .later c.dirty ht
  | exited hlive hlater => exact .exited (c := c.dirty) hlive hlater
  | verdict hlive health => exact .verdict (c := c.dirty) hlive health
  | balanced _ lbs => exact .balanced c.dirty lbs
  | forgot hinits _ lbs => exact .forgot hinits c.dirty lbs
  | configured hinits _ cfg => exact .configured hinits c.dirty cfg

/-- `R` will hold once the flag is set, as the handlers do last. -/
def Owed (R : Core → Prop) (c : Core) : Prop := R c.dirty

theorem Closed.owed (hR : Closed inits R) : Closed inits (Owed R) :=
  fun _ _ h hc => hR _ _ h.dirty hc

theorem Closed.at_due (hR : Closed inits R) (due : List Task) : Closed inits fun c => R c ∧ c.due = due :=
  fun _ _ h hc => ⟨hR _ _ h hc.1, h.due.trans hc.2⟩

end Closed

/-- What a run preserves: `R` survives every step, and the timer taking tasks off the schedule and
finishing with them. -/
structure Preserved (inits : Prop) (R : Core → Prop) : Prop where
  step : Closed inits R
  fired : ∀ (c : Core) (schedule due : List Task), (∀ t, t ∈ schedule ∨ t ∈ due → t ∈ c.schedule) → R c →
    R { c with schedule, due }
  done : ∀ (c : Core) (t : Task) (rest : List Task), c.due = t :: rest → R c → R { c with due := rest }

end Collocate.Daemon
