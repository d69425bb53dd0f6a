import Collocate.Controller.Refine
import Collocate.Lib.Along

/-! # Runs of a controller

A run is any sequence of file changes, pauses, resumptions and ticks. `Invariant.exec` is the induction
over it: a property of the past ticks, the controller and the log of the current tick that survives
every step and every command holds after every run. -/
namespace Collocate.Control
open Compose Autoscaler Rollout
set_option autoImplicit false

/-- A property of runs: of the logs of the ticks so far, and of the view in the current one. `allowed`
says which commands the run is made of. -/
structure Invariant (fl : Floats) (allowed : Command → Prop) (I : List (List Event) → View → Prop) : Prop where
  step : ∀ {past now who v v'}, allowed (.tick now) → Step fl now who v v' → I past v → I past v'
  close : ∀ {past c log}, I past ⟨c, log⟩ → I (past ++ [log]) ⟨c, []⟩
  setFile : ∀ {past c file}, allowed (.setFile file) → I past ⟨c, []⟩ → I past ⟨c.setFile file, []⟩
  pause : ∀ {past c svc}, I past ⟨c, []⟩ → I past ⟨c.pause svc, []⟩
  resume : ∀ {past c svc}, I past ⟨c, []⟩ → I past ⟨c.resume svc, []⟩

section Exec
variable {σ : Type} {x : Extern} {fl : Floats} {o : Host σ} {allowed : Command → Prop}
  {I : List (List Event) → View → Prop}

theorem Invariant.path (hI : Invariant fl allowed I) {past : List (List Event)} {now : UInt64} {v v' : View}
    (hnow : allowed (.tick now)) (hp : Path fl now v v') (h : I past v) : I past v' := by
  induction hp with
  | refl => exact h
  | tail _ hs ih =>
    obtain ⟨_, hs⟩ := hs
    exact hI.step hnow hs ih

/-- Also at the end of a tick, before its log is put aside. -/
theorem Invariant.tick (hI : Invariant fl allowed I) {r : Run σ} (h : I r.ticks ⟨r.ctl, []⟩) {now : UInt64}
    (hnow : allowed (.tick now)) : I r.ticks (Control.tick x fl o now r.machine).2.view :=
  hI.path hnow (tick_path (x := x) (o := o) (m := r.machine) rfl) h

theorem Invariant.runStep (hI : Invariant fl allowed I) {r : Run σ} (h : I r.ticks ⟨r.ctl, []⟩) {cmd : Command}
    (hcmd : allowed cmd) : I (r.step x fl o cmd).ticks ⟨(r.step x fl o cmd).ctl, []⟩ := by
  cases cmd with
  | setFile file => exact hI.setFile hcmd h
  | pause svc => exact hI.pause h
  | resume svc => exact hI.resume h
  | tick now => exact hI.close (hI.tick h hcmd)

theorem Invariant.exec (hI : Invariant fl allowed I) {r : Run σ} (h : I r.ticks ⟨r.ctl, []⟩) {cmds : List Command}
    (hcmds : ∀ cmd ∈ cmds, allowed cmd) : I (r.exec x fl o cmds).ticks ⟨(r.exec x fl o cmds).ctl, []⟩ := by
  induction cmds generalizing r with
  | nil => exact h
  | cons cmd cmds ih =>
    exact ih (hI.runStep h (hcmds cmd (List.mem_cons_self ..))) fun c hc => hcmds c (List.mem_cons_of_mem _ hc)

end Exec

/-- A controller that has just been made. -/
structure Started {σ : Type} (r : Run σ) (file : ComposeFile) (opts : UpOptions) : Prop where
  made : Controller.new file opts = .ok r.ctl
  ticks : r.ticks = []

theorem Started.ctl {σ : Type} {r : Run σ} {file : ComposeFile} {opts : UpOptions} (h : Started r file opts) :
    r.ctl = { file, opts } ∧ file.validate = .ok () := by
  have hm := h.made
  unfold Controller.new at hm
  cases hv : file.validate with
  | error e =>
    rw [hv] at hm
    cases hm
  | ok u =>
    rw [hv] at hm
    exact ⟨(Except.ok.inj hm).symm, rfl⟩

/-! ## Events and the ticks before them -/

/-- `P` holds of every event, with the ticks before its own. -/
def Throughout (P : List (List Event) → Event → Prop) (ticks : List (List Event)) : Prop :=
  Along (fun past log => ∀ e ∈ log, P past e) ticks

instance (P : List (List Event) → Event → Prop) [∀ past e, Decidable (P past e)] (ticks : List (List Event)) :
    Decidable (Throughout P ticks) :=
  inferInstanceAs (Decidable (Along (fun past log => ∀ e ∈ log, P past e) ticks))

variable {P : List (List Event) → Event → Prop}

theorem throughout_add {past : List (List Event)} {log : List Event} {e : Event} :
    Throughout P (past ++ [log ++ [e]]) ↔ Throughout P (past ++ [log]) ∧ P past e := by
  unfold Throughout
  rw [along_concat, along_concat]
  simp only [List.mem_append, List.mem_singleton]
  constructor
  · rintro ⟨hp, hl⟩
    exact ⟨⟨hp, fun e' he' => hl e' (Or.inl he')⟩, hl e (Or.inr rfl)⟩
  · rintro ⟨⟨hp, hl⟩, he⟩
    refine ⟨hp, ?_⟩
    rintro e' (he' | rfl)
    · exact hl e' he'
    · exact he

theorem throughout_close {past : List (List Event)} : Throughout P (past ++ [[]]) ↔ Throughout P past := by
  unfold Throughout
  rw [along_concat]
  exact and_iff_left fun e he => absurd he List.not_mem_nil

/-! ## An API in memory

It runs and removes what it is told and lists it. A container whose command is `bad` is never healthy. -/

def listedAs (s : Spec) : ContainerInfo where
  id := s.id
  name := s.name
  state := .running
  project := s.labels.project
  service := s.labels.service
  revision := s.labels.revision
  health := if s.process.argv = ["bad"] then some .unhealthy else none

def memoryHost : Host (List ContainerInfo) where
  call req list := match req with
    | .ps _ _ => (.ok (.containers list), list)
    | .run s => (.ok (.id s.id), list ++ [listedAs s])
    | .rm name _ _ => (.ok .ok, list.filter fun c => c.name ≠ name)
    | .stats _ => (.ok (.stats []), list)
    | _ => (.ok .ok, list)
  readToString _ := Eff.throw (.io "no such file")
  newId := pure 0
  now := pure 0

/-- A codec that tells commands apart, and a digest of 32 bytes that keeps the first ones. -/
def plainExtern : Extern where
  sha256 bytes := (bytes ++ List.replicate 32 0).take 32
  specJson s := s.process.argv.flatMap fun a => a.toByteArray.data.toList
  decodeMeta _ := .error (.json "not an image")
  debugResponse _ := ""
  cpusMilli _ := 0

def plainFloats : Floats := ⟨fun _ _ _ current => current, fun _ => ⟨0⟩, fun _ => ⟨0⟩⟩

/-- One service `web` that runs `command`. -/
def webFile (command : String) (replicas : UInt32) : ComposeFile where
  project := "p"
  services := OrdMap.empty.insert "web" { series := some "noble", command := [command], replicas }

def plainOpts : UpOptions where
  subnet := "10.0.0.0/24"
  baseDir := ""

def freshRun (file : ComposeFile) (list : List ContainerInfo) : Run (List ContainerInfo) where
  outer := list
  ctl := { file, opts := plainOpts }

def memoryRun (file : ComposeFile) (list : List ContainerInfo) (cmds : List Command) : Run (List ContainerInfo) :=
  (freshRun file list).exec plainExtern plainFloats memoryHost cmds

theorem freshRun_started {file : ComposeFile} (h : file.validate = .ok ()) (list : List ContainerInfo) :
    Started (freshRun file list) file plainOpts := by
  refine ⟨?_, rfl⟩
  unfold Controller.new
  rw [h]
  rfl

end Collocate.Control
