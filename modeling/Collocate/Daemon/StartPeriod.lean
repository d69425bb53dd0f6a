import Mathlib.Data.List.Induction
import Collocate.Daemon.Moves

/-! # The start period of health checks

The tracker of a live container follows the results of its probes, each of them alike: nothing looks at
the start period. A container is starting as long as no probe worked and fewer failed than it has retries. -/
namespace Collocate.Daemon
set_option autoImplicit false

/-! ## The tracker and its results -/

def HealthTracker.after (retries : UInt32) (results : List Bool) : HealthTracker :=
  results.foldl HealthTracker.record (.new retries)

section Tracker
variable {retries : UInt32} {results : List Bool} {ok : Bool}

theorem after_concat : HealthTracker.after retries (results ++ [ok]) =
    (HealthTracker.after retries results).record ok :=
  List.foldl_concat ..

theorem record_retries (t : HealthTracker) (ok : Bool) : (t.record ok).retries = t.retries := by
  cases ok <;> rfl

theorem after_retries : (HealthTracker.after retries results).retries = max retries 1 := by
  induction results using List.reverseRecOn with
  | nil => rfl
  | append_singleton results ok ih => rw [after_concat, record_retries, ih]

theorem record_starting_iff {t : HealthTracker} :
    (t.record ok).state = .starting ↔ ok = false ∧ ¬ t.retries ≤ t.consecutiveFailures + 1 ∧ t.state = .starting := by
  unfold HealthTracker.record
  cases ok with
  | true => simp
  | false => by_cases hmany : t.retries ≤ t.consecutiveFailures + 1 <;> simp [hmany]

/-- The failures of a tracker that is starting are all the results there are. -/
theorem after_failures (h : (HealthTracker.after retries results).state = .starting) :
    (HealthTracker.after retries results).consecutiveFailures.toNat = results.length ∧
      results.length < (max retries 1).toNat := by
  have hpositive : 0 < (max retries 1).toNat := by
    show 0 < (if retries ≤ 1 then 1 else retries : UInt32).toNat
    split
    · decide
    · rename_i hmany
      rw [UInt32.not_le, UInt32.lt_iff_toNat_lt] at hmany
      exact Nat.zero_lt_of_lt hmany
  induction results using List.reverseRecOn with
  | nil => exact ⟨rfl, hpositive⟩
  | append_singleton results ok ih =>
    rw [after_concat, record_starting_iff, after_retries] at h
    obtain ⟨rfl, hfew, hstarting⟩ := h
    obtain ⟨hcount, hlength⟩ := ih hstarting
    have hbound := (max retries 1).toNat_lt
    have hnext : ((HealthTracker.after retries results).consecutiveFailures + 1).toNat = results.length + 1 := by
      rw [UInt32.toNat_add, hcount]
      exact Nat.mod_eq_of_lt (by simpa using by omega)
    rw [after_concat, List.length_append]
    rw [UInt32.le_iff_toNat_le, hnext] at hfew
    exact ⟨hnext, by simpa using hfew⟩

/-- A tracker is starting while no probe worked and fewer failed than there are retries. -/
theorem starting_iff : (HealthTracker.after retries results).state = .starting ↔
    (∀ ok ∈ results, ok = false) ∧ results.length < (max retries 1).toNat := by
  induction results using List.reverseRecOn with
  | nil =>
    refine ⟨fun h => ⟨nofun, (after_failures h).2⟩, fun _ => rfl⟩
  | append_singleton results ok ih =>
    rw [after_concat, record_starting_iff, after_retries]
    constructor
    · rintro ⟨rfl, hfew, hstarting⟩
      have hall : (HealthTracker.after retries (results ++ [false])).state = .starting := by
        rw [after_concat, record_starting_iff, after_retries]
        exact ⟨rfl, hfew, hstarting⟩
      refine ⟨fun ok hok => ?_, (after_failures hall).2⟩
      rcases List.mem_append.mp hok with hok | hok
      · exact (ih.mp hstarting).1 ok hok
      · exact List.mem_singleton.mp hok
    · rintro ⟨hfailed, hlength⟩
      have hlast : ok = false := hfailed ok (List.mem_append_right _ (List.mem_singleton.mpr rfl))
      rw [List.length_append, List.length_singleton] at hlength
      have hstarting := ih.mpr ⟨fun ok hok => hfailed ok (List.mem_append_left _ hok), by omega⟩
      have hcount := (after_failures hstarting).1
      refine ⟨hlast, fun hmany => ?_, hstarting⟩
      have hbound := (max retries 1).toNat_lt
      rw [UInt32.le_iff_toNat_le, UInt32.toNat_add, hcount] at hmany
      have hsmall : (results.length + 1) % 2 ^ 32 = results.length + 1 := Nat.mod_eq_of_lt (by omega)
      have hone : (1 : UInt32).toNat = 1 := rfl
      rw [hone, hsmall] at hmany
      omega

end Tracker

/-! ## Runs -/

/-- The tracker is what the results make of it. -/
def Vital.Followed (v : Vital) : Prop :=
  v.tracker = v.spec.healthcheck.map fun h => HealthTracker.after h.retries v.results

theorem followed_lasts : Lasts False fun c => Throughout (fun _ v => v.Followed) c.live where
  moved c c' h hc := by
    cases h with
    | stop hlive =>
      have hv : Vital.Followed _ := hc _ _ hlive
      exact hc.insert hv
    | pardoned | reaped => exact hc
    | entered hv hlater =>
      refine hc.insert ?_
      unfold Vital.Followed
      rw [hv.tracker, hv.results]
      rfl
    | used hlive hlater =>
      have hv : Vital.Followed _ := hc _ _ hlive
      exact hc.insert hv
    | probed hlive ht ok =>
      refine hc.insert ?_
      have hbefore : Vital.Followed _ := hc _ _ hlive
      unfold Vital.Followed at hbefore ⊢
      rw [ht] at hbefore
      obtain ⟨hc', hcheck, rfl⟩ := Option.map_eq_some_iff.mp hbefore.symm
      dsimp only
      rw [hcheck, Option.map_some, after_concat]
    | restarting | ended => exact hc.erase _
  fired _ _ _ hc := hc
  relaunched _ _ _ _ hc := hc
  dropped _ _ _ _ _ hc := hc

/-- No probe of the container has worked, and its start period is not over. -/
def InStartPeriod {σ : Type} (w : World σ) (d : State σ) (l : Live) (hc : Healthcheck) : Prop :=
  (∀ ok ∈ l.results, ok = false) ∧ (w.now d.outer).1 < l.started + secs hc.startPeriodSecs

/-- In every state that a run reaches, a container in its start period is starting if and only if fewer
probes of it have failed than it has retries. -/
theorem start_period_iff {σ : Type} (w : World σ) (outer : σ) (cfg : DaemonSettings) (store : SpecStore)
    (rootMode : RootMode) (batches : List (List Event)) (events : List Event) (id : ContainerId) (l : Live)
    (hc : Healthcheck) :
    let d := (lifetime w batches events (boot w (blank outer cfg store rootMode)).2).2
    d.live.get? id = some l → l.spec.healthcheck = some hc →
      ((InStartPeriod w d l hc → l.tracker.map (·.state) = some .starting) ↔
        (InStartPeriod w d l hc → l.results.length < (max hc.retries 1).toNat)) := by
  intro d hl hcheck
  have hblank : Throughout (fun _ v => v.Followed) (blank outer cfg store rootMode).vitals.live := fun _ _ h =>
    (by cases h)
  have hfollowed : l.vital.Followed := lifetime_lasts (w := w) False.elim followed_lasts outer cfg store rootMode hblank
    batches events id l.vital
    (vitals_live_get? hl)
  have htracker : l.tracker = some (.after hc.retries l.results) := by
    have h := hfollowed
    unfold Vital.Followed at h
    rw [show l.vital.spec = l.spec from rfl, hcheck] at h
    exact h
  rw [htracker, Option.map_some, Option.some.injEq, starting_iff]
  exact ⟨fun h hin => (h hin).2, fun h hin => ⟨hin.1, h hin⟩⟩

/-- A server that may take a minute to start; three failed probes make it unhealthy. -/
def slowCheck : Healthcheck where
  kind := .tcp 80
  intervalSecs := 1
  timeoutSecs := 1
  retries := 3
  startPeriodSecs := 60

def slowSpec : Spec := { webSpec with healthcheck := some slowCheck }

/-- Nothing listens in any container yet. -/
def silentWorld : World ℕ := { workingWorld with tcpCheck := fun _ _ t => (false, t) }

def slowRun (ticks : ℕ) : List (List Event) :=
  [[.connect], [.request 101 (.run slowSpec)], List.replicate ticks .timer]

def slowState (ticks : ℕ) : State ℕ :=
  (lifetime silentWorld (slowRun ticks) [] (boot silentWorld (blank 0 {} .empty .overlay)).2).2

theorem slow_server_starting :
    ∃ l, (slowState 1).live.get? 7 = some l ∧ InStartPeriod silentWorld (slowState 1) l slowCheck ∧
      l.tracker.map (·.state) = some .starting := by
  have hlive : ((slowState 1).live.get? 7).map (fun l => (l.results, l.started, l.spec.healthcheck)) =
      some ([false], 0, some slowCheck) := by decide +kernel
  obtain ⟨l, hl, hfacts⟩ := Option.map_eq_some_iff.mp hlive
  obtain ⟨hresults, hstarted, hcheck⟩ : l.results = [false] ∧ l.started = 0 ∧ l.spec.healthcheck = some slowCheck := by
    simpa using hfacts
  have hin : InStartPeriod silentWorld (slowState 1) l slowCheck := by
    unfold InStartPeriod
    rw [hresults, hstarted]
    exact ⟨by simp, by decide +kernel⟩
  unfold slowState at hl hin ⊢
  refine ⟨l, hl, hin, (start_period_iff silentWorld 0 {} .empty .overlay (slowRun 1) [] 7 l slowCheck hl hcheck).mpr
    ?_ hin⟩
  intro _
  rw [hresults]
  decide

/-- After three probes in five seconds it is unhealthy. -/
theorem slow_server_unhealthy :
    ∃ l, (slowState 3).live.get? 7 = some l ∧ InStartPeriod silentWorld (slowState 3) l slowCheck ∧
      l.tracker.map (·.state) = some .unhealthy := by
  have hlive : ((slowState 3).live.get? 7).map (fun l => (l.results, l.started, l.tracker.map (·.state))) =
      some ([false, false, false], 0, some .unhealthy) := by decide +kernel
  obtain ⟨l, hl, hfacts⟩ := Option.map_eq_some_iff.mp hlive
  obtain ⟨hresults, hstarted, hstate⟩ :
      l.results = [false, false, false] ∧ l.started = 0 ∧ l.tracker.map (·.state) = some .unhealthy := by
    simpa using hfacts
  refine ⟨l, hl, ?_, hstate⟩
  unfold InStartPeriod
  rw [hresults, hstarted]
  exact ⟨by simp, by decide +kernel⟩

end Collocate.Daemon
