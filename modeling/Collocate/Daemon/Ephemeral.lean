import Collocate.Daemon.Linked

/-! # Ephemeral containers

A container that is not persistent leaves nothing behind: while its spec is stored it is live, or a task on
the schedule will launch it again or remove it. The timer can lose one: the task is off the schedule when it
is done, also if the launch failed. -/
namespace Collocate.Daemon
set_option autoImplicit false

section Ephemeral
variable {σ : Type}

/-- Each stored container that is neither persistent nor live has a task on the schedule. -/
def EphemeralPending (d : State σ) : Prop :=
  ∀ id spec, d.store.get? id = some spec → spec.persistent = false → d.live.get? id = none →
    ∃ e ∈ d.schedule, e.2 = .relaunch id ∨ e.2 = .removeExited id

/-- The start took over every container that was running, and removed what it had to. -/
def Started (d : State σ) : Prop :=
  ∀ id spec, d.store.get? id = some spec → spec.persistent = false → d.live.get? id ≠ none

theorem settled_of_started {w : World σ} {outer : σ} {cfg : DaemonSettings} {store : SpecStore} {rootMode : RootMode}
    (h : Started (boot w (blank outer cfg store rootMode)).2) :
    Settled True [] ((boot w (blank outer cfg store rootMode)).2.ledger unrecorded) := by
  have hlinked := boot_linked (w := w) outer cfg store rootMode
  refine ⟨hlinked.linked, hlinked.due, fun _ id spec _ hspec hp hlive => absurd ?_ (h id spec hspec hp)⟩
  simpa [State.ledger, State.books] using hlive

theorem pending_of_settled {d : State σ} (h : Settled True [] (d.ledger unrecorded)) : EphemeralPending d := by
  intro id spec hspec hp hlive
  obtain ⟨t, ht, htask⟩ := h.covered trivial id spec (fun hid => hid) hspec hp (books_live_none hlive)
  rw [h.due, List.append_nil] at ht
  obtain ⟨e, he, rfl⟩ := List.mem_map.mp ht
  exact ⟨e, he, htask⟩

/-- No ephemeral container is forgotten in a run whose due tasks do their work. -/
theorem ephemeral_pending {w : World σ} (hw : Reliable w) {outer : σ} {cfg : DaemonSettings} {store : SpecStore}
    {rootMode : RootMode} (hstart : Started (boot w (blank outer cfg store rootMode)).2) {d : State σ}
    (hd : Reached w (Meets w (fun _ _ => True) (TaskWorks w)) (boot w (blank outer cfg store rootMode)).2 d) :
    EphemeralPending d := by
  have hupheld : Upholds w unrecorded (fun _ _ => True) (TaskWorks w) (Settled True) :=
    sound_upheld (fun _ => hw) fun _ _ _ hworks => hworks
  exact pending_of_settled (reached_upheld (records_nothing w) hupheld (settled_of_started hstart) hd)

end Ephemeral

/-! ## A launch that fails -/

/-- A web server that leaves nothing behind. -/
def briefSpec : Spec := { webSpec with persistent := false }

/-- A working world in which only the first process can be started. -/
def onceWorld : World ℕ := { workingWorld with
  spawn := fun _ t => if t = 0 then (.ok 42, t) else (.error (.internal "spawn failed"), t) }

theorem onceWorld_reliable : Reliable onceWorld := ⟨fun _ _ _ h => (by cases h), fun _ _ => rfl⟩

def onceStart : State ℕ := (boot onceWorld (blank 0 {} .empty .overlay)).2

theorem onceStart_started : Started onceStart := by
  have hempty : onceStart.store.specs.entries = [] := by decide +kernel
  intro id spec hspec
  have hmem := OrdMap.get?_eq_some.mp hspec
  rw [hempty] at hmem
  cases hmem

/-- The server runs and ends. -/
def onceEnded : State ℕ :=
  let d := (onEvent onceWorld .connect onceStart).2
  let d := (onEvent onceWorld (.request 101 (.run briefSpec)) d).2
  (onEvent onceWorld (.pidfd 102) d).2

theorem onceEnded_reached (may : Event → State ℕ → Prop) (hmay : ∀ e d, e ≠ .timer → may e d) :
    Reached onceWorld may onceStart onceEnded :=
  .event _ (.event _ (.event _ .start (hmay _ _ nofun)) (hmay _ _ nofun)) (hmay _ _ nofun)

theorem ephemeral_pending_once : EphemeralPending onceEnded ∧ onceEnded.store.contains 7 = true ∧
    onceEnded.live.contains 7 = false := by
  refine ⟨ephemeral_pending onceWorld_reliable onceStart_started (onceEnded_reached _ fun e d he => ?_),
    by decide +kernel, by decide +kernel⟩
  cases e with
  | timer => exact absurd rfl he
  | request => exact fun _ _ => trivial
  | _ => trivial

/-- When the timer comes to launch the server again that fails, and nothing is left to remove it. -/
theorem ephemeral_forgotten : Reliable onceWorld ∧ Started onceStart ∧
    ¬ ∀ d, Reached onceWorld (fun _ _ => True) onceStart d → EphemeralPending d := by
  refine ⟨onceWorld_reliable, onceStart_started, fun h => ?_⟩
  have hreached : Reached onceWorld (fun _ _ => True) onceStart (onEvent onceWorld .timer onceEnded).2 :=
    .event _ (onceEnded_reached _ fun _ _ _ => trivial) trivial
  have hstored : (((onEvent onceWorld .timer onceEnded).2.store.get? 7).map (·.persistent)) = some false := by
    decide +kernel
  have hlive : (onEvent onceWorld .timer onceEnded).2.live.get? 7 = none := by decide +kernel
  have hschedule : (onEvent onceWorld .timer onceEnded).2.schedule = [] := by decide +kernel
  obtain ⟨spec, hspec, hp⟩ := Option.map_eq_some_iff.mp hstored
  obtain ⟨e, he, -⟩ := h _ hreached 7 spec hspec hp hlive
  rw [hschedule] at he
  cases he

end Collocate.Daemon
