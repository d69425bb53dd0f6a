import Collocate.Lib.Along
import Collocate.Daemon.Refine

/-! # Stopped containers

A container whose `Stop` was answered while no relaunch of it was pending stays down until it is asked
for again: it is not live, and only an exit of a live container puts a relaunch on the schedule. A
relaunch that is pending already is not taken back, and goes ahead. -/
namespace Collocate.Daemon
set_option autoImplicit false

/-! ## Down for good -/

/-- What a note makes of whether the container is to stay down. -/
def quieten (id : ContainerId) (down : Bool) (n : Note) : Bool :=
  if n = .stopped id false then true
  else if n = .asked id then false
  else down

/-- The container is to stay down: its `Stop` was answered with nothing pending, and nobody has asked for
it since. -/
def calm (id : ContainerId) (log : List Note) : Bool := log.foldl (quieten id) false

theorem calm_concat (id : ContainerId) (log : List Note) (n : Note) :
    calm id (log ++ [n]) = quieten id (calm id log) n := by
  simp [calm]

theorem quieten_launching (id id' : ContainerId) (down : Bool) : quieten id down (.launching id') = down := by
  simp [quieten]

theorem calm_of_stopped {id : ContainerId} {pre mid : List Note} (h : .asked id ∉ mid) :
    calm id (pre ++ .stopped id false :: mid) = true := by
  have hkeeps (down : Bool) (hdown : down = true) (l : List Note) (hl : .asked id ∉ l) :
      l.foldl (quieten id) down = true := by
    induction l generalizing down with
    | nil => exact hdown
    | cons n l ih =>
      refine ih _ ?_ fun hmem => hl (List.mem_cons_of_mem _ hmem)
      have hn : n ≠ .asked id := fun heq => hl (heq ▸ List.mem_cons_self)
      simp [quieten, hn, hdown]
  unfold calm
  rw [List.foldl_append, List.foldl_cons]
  exact hkeeps _ (by simp [quieten]) mid h

/-! ## The invariant -/

/-- No launch of a container that is to stay down. -/
def StaysDown (past : List Note) (n : Note) : Prop := ∀ id, n = .launching id → calm id past = false

structure Obeys (c : Core) : Prop where
  marked : ∀ id f, c.live.get? id = some f → f.stopRequested = true ∨ 0 < f.stops → c.userStopped id = true
  down : ∀ id, calm id c.log = true → c.live.get? id = none ∧ c.pending id = false
  past : Along StaysDown c.log

theorem pending_false {c : Core} {id : ContainerId} :
    c.pending id = false ↔ Task.relaunch id ∉ c.schedule ∧ Task.relaunch id ∉ c.due := by
  have hany (l : List Task) : (l.any fun t => t == .relaunch id) = false ↔ Task.relaunch id ∉ l := by
    rw [← Bool.not_eq_true, List.any_beq']
    simp
  rw [Core.pending, Bool.or_eq_false_iff, hany, hany]

theorem ready_not_calm {c : Core} {id : ContainerId} (hc : Obeys c) (h : c.Ready id) : calm id c.log = false := by
  rcases h with hasked | hdue
  · obtain ⟨log, hlog⟩ := List.getLast?_eq_some_iff.mp hasked
    simp [hlog, calm_concat, quieten]
  · by_contra hcalm
    have hdown := (hc.down id (by simpa using hcalm)).2
    exact (pending_false.mp hdown).2 hdue

theorem launching_not_calm {c : Core} {id : ContainerId} (hc : Obeys c) (h : c.log.getLast? = some (.launching id)) :
    calm id c.log = false := by
  obtain ⟨log, hlog⟩ := List.getLast?_eq_some_iff.mp h
  have hpast := hc.past
  rw [hlog, along_concat] at hpast
  rw [hlog, calm_concat, quieten_launching]
  exact hpast.2 id rfl

/-- A container comes up that does not have to stay down. -/
theorem Obeys.insert {c : Core} {id : ContainerId} {f : Face} (hc : Obeys c) (hstop : f.stopRequested = false)
    (hstops : f.stops = 0) (hcalm : calm id c.log = false) :
    Obeys { c with live := c.live.insert id f, fwDirty := true } where
  marked id' f' h := by
    rw [OrdMap.get?_insert] at h
    split at h
    · cases h
      simp [hstop, hstops]
    · exact hc.marked id' f' h
  down id' h := by
    have hne : id' ≠ id := by
      rintro rfl
      rw [hcalm] at h
      cases h
    rw [OrdMap.get?_insert, if_neg hne]
    exact hc.down id' h
  past := hc.past

/-- A live container changes, and is marked if it is being stopped. -/
theorem Obeys.change {c : Core} {id : ContainerId} {f f' : Face} {user : ContainerId → Bool} {dirty : Bool}
    (hc : Obeys c) (hlive : c.live.get? id = some f) (huser : ∀ id', c.userStopped id' = true → user id' = true)
    (hmarked : f'.stopRequested = true ∨ 0 < f'.stops → user id = true) :
    Obeys { c with live := c.live.insert id f', userStopped := user, fwDirty := dirty } where
  marked id' f'' h hstopped := by
    rw [OrdMap.get?_insert] at h
    split at h
    · rename_i hid
      cases h
      exact hid ▸ hmarked hstopped
    · exact huser id' (hc.marked id' f'' h hstopped)
  down id' h := by
    have hdown := hc.down id' h
    have hne : id' ≠ id := by
      rintro rfl
      rw [hlive] at hdown
      cases hdown.1
    rw [OrdMap.get?_insert, if_neg hne]
    exact hdown
  past := hc.past

/-- A note that is no launch. -/
theorem staysDown_concat {log : List Note} {n : Note} (h : Along StaysDown log) (hn : ∀ id, n ≠ .launching id) :
    Along StaysDown (log ++ [n]) :=
  along_concat.mpr ⟨h, fun id heq => absurd heq (hn id)⟩

/-! ## Answers to those who waited -/

theorem calm_replicate {id id' : ContainerId} {pending : Bool} {log : List Note} {n : ℕ}
    (h : calm id' (log ++ List.replicate n (.stopped id pending)) = true) :
    calm id' log = true ∨ id' = id ∧ pending = false ∧ 0 < n := by
  induction n with
  | zero => exact Or.inl (by simpa using h)
  | succ n ih =>
    rw [List.replicate_succ', ← List.append_assoc, calm_concat] at h
    unfold quieten at h
    split at h
    · rename_i heq
      cases heq
      exact Or.inr ⟨rfl, rfl, Nat.succ_pos n⟩
    · rw [if_neg (by simp)] at h
      exact (ih h).imp (fun hlog => hlog) fun hn => ⟨hn.1, hn.2.1, Nat.succ_pos n⟩

theorem staysDown_replicate {id : ContainerId} {pending : Bool} {log : List Note} (h : Along StaysDown log) (n : ℕ) :
    Along StaysDown (log ++ List.replicate n (.stopped id pending)) := by
  induction n with
  | zero => simpa using h
  | succ n ih =>
    rw [List.replicate_succ', ← List.append_assoc]
    exact staysDown_concat ih fun _ => by simp

theorem Obeys.exited {c : Core} {id : ContainerId} {f : Face} {later : List Task} (hc : Obeys c)
    (hlive : c.live.get? id = some f)
    (hlater : ∀ id', Task.relaunch id' ∈ later → id' = id ∧ c.userStopped id = false) :
    Obeys (c.exited id f later) where
  marked id' f' h hstopped := by
    rw [Core.exited, OrdMap.get?_erase] at h
    split at h
    · cases h
    · rename_i hne
      simp only [Core.exited, Function.update_of_ne hne]
      exact hc.marked id' f' h hstopped
  down id' h := by
    have hpending (hc : c.pending id' = false) (hl : Task.relaunch id' ∉ later) :
      (c.exited id f later).pending id' = false := by
      rw [pending_false] at hc ⊢
      exact ⟨fun hmem => (List.mem_append.mp hmem).elim hc.1 hl, hc.2⟩
    rcases calm_replicate h with hcalm | ⟨rfl, hquiet, hstops⟩
    · obtain ⟨hnone, hclear⟩ := hc.down id' hcalm
      have hne : id' ≠ id := by
        rintro rfl
        rw [hlive] at hnone
        cases hnone
      refine ⟨?_, hpending hclear fun hmem => hne (hlater id' hmem).1⟩
      rw [Core.exited, OrdMap.get?_erase, if_neg hne]
      exact hnone
    · refine ⟨by rw [Core.exited, OrdMap.get?_erase, if_pos rfl], hpending hquiet fun hmem => ?_⟩
      -- Somebody waited for the stop, so the exit was wanted.
      have huser := hc.marked id' f hlive (Or.inr hstops)
      rw [(hlater id' hmem).2] at huser
      cases huser
  past := staysDown_replicate hc.past f.stops

/-! ## Every step obeys -/

theorem obeys_preserved (inits : Prop) : Preserved inits Obeys where
  step c c' h hc := by
    cases h with
    | @stop _ id f hlive hstop =>
      refine hc.change hlive (fun id' h => ?_) fun _ => Function.update_self ..
      by_cases hid : id' = id
      · rw [hid, Function.update_self]
      · rw [Function.update_of_ne hid, h]
    | @join _ id f hlive hstop =>
      exact hc.change hlive (fun _ h => h) fun _ => hc.marked id f hlive (Or.inl hstop)
    | @answered _ id hlive =>
      refine ⟨hc.marked, fun id' h => ?_, staysDown_concat hc.past fun _ => by simp⟩
      rw [calm_concat] at h
      unfold quieten at h
      split at h
      · rename_i heq
        obtain ⟨rfl, hpending⟩ := Note.stopped.inj heq
        exact ⟨hlive, hpending⟩
      · rw [if_neg (by simp)] at h
        exact hc.down id' h
    | @pardoned _ id hlive =>
      refine ⟨fun id' f h hstopped => ?_, hc.down, hc.past⟩
      have hne : id' ≠ id := by
        rintro rfl
        rw [hlive] at h
        cases h
      simp only [Function.update_of_ne hne]
      exact hc.marked id' f h hstopped
    | asked _ id =>
      refine ⟨hc.marked, fun id' h => ?_, staysDown_concat hc.past fun _ => by simp⟩
      rw [calm_concat] at h
      unfold quieten at h
      rw [if_neg (by simp)] at h
      split at h
      · cases h
      · exact hc.down id' h
    | @launching _ id hready =>
      refine ⟨hc.marked, fun id' h => ?_, along_concat.mpr ⟨hc.past, fun id' heq => ?_⟩⟩
      · rw [calm_concat, quieten_launching] at h
        exact hc.down id' h
      · cases heq
        exact ready_not_calm hc hready
    | launched hlog hstop hstops => exact hc.insert hstop hstops (launching_not_calm hc hlog)
    | adopted f hlog hstop hstops => exact hc.insert hstop hstops (by rw [hlog]; rfl)
    | @later _ t ht =>
      refine ⟨hc.marked, fun id h => ⟨(hc.down id h).1, ?_⟩, hc.past⟩
      have hclear := (hc.down id h).2
      rw [pending_false] at hclear ⊢
      refine ⟨fun hmem => (List.mem_append.mp hmem).elim hclear.1 fun hlast => ?_, hclear.2⟩
      exact ht id (List.mem_singleton.mp hlast).symm
    | exited hlive hlater => exact hc.exited hlive hlater
    | @verdict _ id f hlive health => exact hc.change hlive (fun _ h => h) fun h => hc.marked id f hlive h
    | balanced | forgot | configured => exact ⟨hc.marked, hc.down, hc.past⟩
  fired c schedule due hsub hc := by
    refine ⟨hc.marked, fun id h => ⟨(hc.down id h).1, ?_⟩, hc.past⟩
    have hclear := (hc.down id h).2
    rw [pending_false] at hclear ⊢
    exact ⟨fun hmem => hclear.1 (hsub _ (Or.inl hmem)), fun hmem => hclear.1 (hsub _ (Or.inr hmem))⟩
  done c t rest hdue hc := by
    refine ⟨hc.marked, fun id h => ⟨(hc.down id h).1, ?_⟩, hc.past⟩
    have hclear := (hc.down id h).2
    rw [pending_false] at hclear ⊢
    refine ⟨hclear.1, fun hmem => hclear.2 ?_⟩
    rw [hdue]
    exact List.mem_cons_of_mem _ hmem

/-! ## Whole runs -/

/-- Whenever the container is launched after its `Stop` was answered, somebody asked for it in between. -/
def StoppedUntilAsked (answered : ContainerId → Note) (log : List Note) : Prop :=
  ∀ id pre mid post, log = pre ++ answered id :: (mid ++ .launching id :: post) → .asked id ∈ mid

/-- In every run, a container whose `Stop` is answered while no relaunch of it is pending is not launched
again before it is asked for. -/
theorem stopped_until_asked {σ : Type} (w : World σ) (outer : σ) (cfg : DaemonSettings) (store : SpecStore)
    (rootMode : RootMode) (batches : List (List Event)) (events : List Event) :
    StoppedUntilAsked (fun id => .stopped id false)
      (lifetime w batches events (boot w (blank outer cfg store rootMode)).2).2.log := by
  have hblank : Obeys (blank outer cfg store rootMode).core :=
    ⟨fun id f h => (by cases h), fun id h => (by cases h), along_nil⟩
  have hflush : Flushed σ Obeys := fun d hd => ⟨hd.marked, hd.down, hd.past⟩
  have hobeys := lifetime_holds w (obeys_preserved True) hflush outer cfg store rootMode hblank batches events
    fun _ _ _ => trivial
  intro id pre mid post hlog
  by_contra hasked
  have hdown := hobeys.past (pre ++ .stopped id false :: mid) (.launching id) post
    (by simpa [State.core] using hlog) id rfl
  rw [calm_of_stopped hasked] at hdown
  cases hdown

/-- The web server ends, is stopped during the back-off, and then the timer fires. -/
def backOffRun : List (List Event) :=
  [[.connect], [.request 101 (.run webSpec)], [.pidfd 102], [.request 101 (.stop "web" none)], [.timer]]

theorem stopped_in_back_off_relaunched :
    ¬ ∀ pending : Bool, StoppedUntilAsked (fun id => .stopped id pending)
      (lifetime workingWorld backOffRun [] (boot workingWorld (blank 0 {} .empty .overlay)).2).2.log := by
  have hlog : (lifetime workingWorld backOffRun [] (boot workingWorld (blank 0 {} .empty .overlay)).2).2.log =
      [.asked 7, .launching 7, .stopped 7 true, .launching 7] := by decide +kernel
  intro h
  have hstopped := h true
  rw [hlog] at hstopped
  exact absurd (hstopped 7 [.asked 7, .launching 7] [] [] rfl) List.not_mem_nil

end Collocate.Daemon
