import Collocate.Controller.Runs

/-! # Revisions over whole runs

`applied`, `previous` and `rejected` of a controller, whatever files it is given and whatever the API
answers. A rejected revision is not run again before the next rollback. A rollback goes to a revision
that once completed as long as no revision is replaced before it completed; without that it may go to
one that never did. -/
namespace Collocate.Control
open Compose Autoscaler Rollout
set_option autoImplicit false

variable {σ : Type} {x : Extern} {fl : Floats} {o : Host σ}

/-! ## Rollback targets -/

/-- The planner found the rollout of the revision complete in one of the ticks. -/
def Completed (past : List (List Event)) (svc revision : String) : Prop :=
  ∃ log ∈ past, .completed svc revision ∈ log

instance (past : List (List Event)) (svc revision : String) : Decidable (Completed past svc revision) :=
  inferInstanceAs (Decidable (∃ log ∈ past, .completed svc revision ∈ log))

/-- A revision is only replaced once its rollout completed in an earlier tick. -/
def Finished (past : List (List Event)) : Event → Prop
  | .superseded svc old _ => Completed past svc old
  | _ => True

/-- A rollback goes to a revision whose rollout completed in an earlier tick. -/
def Worked (past : List (List Event)) : Event → Prop
  | .rolledBack svc _ restored => Completed past svc restored
  | _ => True

instance (past : List (List Event)) : (e : Event) → Decidable (Finished past e)
  | .superseded svc old _ => inferInstanceAs (Decidable (Completed past svc old))
  | .call .. | .prepared _ | .built .. | .kept .. | .decided .. | .planned .. | .rolledBack ..
  | .completed .. => .isTrue trivial

instance (past : List (List Event)) : (e : Event) → Decidable (Worked past e)
  | .rolledBack svc _ restored => inferInstanceAs (Decidable (Completed past svc restored))
  | .call .. | .prepared _ | .built .. | .kept .. | .decided .. | .planned .. | .superseded ..
  | .completed .. => .isTrue trivial

theorem Completed.mono {past : List (List Event)} {svc revision : String} (h : Completed past svc revision)
    (log : List Event) : Completed (past ++ [log]) svc revision := by
  obtain ⟨l, hl, he⟩ := h
  exact ⟨l, List.mem_append_left _ hl, he⟩

/-- Under the condition on replaced revisions, what is kept as `previous` has completed. -/
def TargetsCompleted (past : List (List Event)) (v : View) : Prop :=
  Throughout Finished (past ++ [v.log]) → Throughout Worked (past ++ [v.log]) ∧
    ∀ svc p, v.ctl.previous svc = some p → Completed past svc p.revision

theorem TargetsCompleted.add {past : List (List Event)} {v : View} {e : Event} (h : TargetsCompleted past v)
    (he : Worked past e) : TargetsCompleted past (v.add e) := by
  intro hf
  obtain ⟨hw, hp⟩ := h (throughout_add.mp hf).1
  exact ⟨throughout_add.mpr ⟨hw, he⟩, hp⟩

theorem targetsCompleted_invariant : Invariant fl (fun _ => True) TargetsCompleted where
  step := by
    intro past now who v v' _ hs h
    cases hs with
    | tidy hc =>
      intro hf
      obtain ⟨hw, hp⟩ := h hf
      exact ⟨hw, fun svc p hprev => hp svc p (by rw [← hc.previous]; exact hprev)⟩
    | completed _ _ hc =>
      intro hf
      obtain ⟨hw, hp⟩ := h (throughout_add.mp hf).1
      exact ⟨throughout_add.mpr ⟨hw, trivial⟩, fun svc p hprev => hp svc p (by rw [← hc.previous]; exact hprev)⟩
    | adopt _ _ => exact h
    | @supersede svc dfn cur rev _ ha _ _ =>
      intro hf
      obtain ⟨hf, hcur⟩ := throughout_add.mp hf
      obtain ⟨hw, hp⟩ := h hf
      refine ⟨throughout_add.mpr ⟨hw, trivial⟩, fun svc' p hprev => ?_⟩
      simp only [Controller.supersede_previous] at hprev
      split at hprev
      · rename_i heq
        cases hprev
        exact heq ▸ hcur
      · exact hp svc' p hprev
    | decided _ _ _ _ => exact TargetsCompleted.add h trivial
    | @rollback svc a prev st revision hplan hs hprev =>
      intro hf
      obtain ⟨hw, hp⟩ := h (throughout_add.mp hf).1
      have htarget : prev.revision = revision := by
        have hst := (rollback_mem hs).1
        rw [hplan.previous, hprev] at hst
        exact Option.some.inj hst
      refine ⟨throughout_add.mpr ⟨hw, htarget ▸ hp svc prev hprev⟩, fun svc' p hprev' => ?_⟩
      simp only [Controller.rollBack_previous] at hprev'
      split at hprev'
      · cases hprev'
      · exact hp svc' p hprev'
    | _ => exact h.add trivial
  close := by
    intro past c log h hf
    obtain ⟨hw, hp⟩ := h (throughout_close.mp hf)
    exact ⟨throughout_close.mpr hw, fun svc p hprev => (hp svc p hprev).mono log⟩
  setFile := fun _ h => h
  pause := fun h => h
  resume := fun h => h

/-- If no revision is replaced before it completed, every rollback goes to a completed revision. -/
theorem rollback_target_completed {r : Run σ} {file : ComposeFile} {opts : UpOptions} (hr : Started r file opts)
    (cmds : List Command) (hfin : Throughout Finished (r.exec x fl o cmds).ticks) :
    Throughout Worked (r.exec x fl o cmds).ticks := by
  have h₀ : TargetsCompleted r.ticks ⟨r.ctl, []⟩ := by
    intro _
    rw [hr.ticks, hr.ctl.1]
    exact ⟨throughout_close.mpr along_nil, fun svc p hp => by cases hp⟩
  have h : TargetsCompleted (r.exec x fl o cmds).ticks ⟨(r.exec x fl o cmds).ctl, []⟩ :=
    targetsCompleted_invariant.exec h₀ fun _ _ => trivial
  exact throughout_close.mp (h (throughout_close.mpr hfin)).1

/-- The revision `a` completes, `bad` replaces it and fails, and the rollback goes to `a`. -/
def orderlyRun : List Command :=
  [.tick 0, .tick 20, .tick 40, .setFile (webFile "bad" 1), .tick 60, .tick 65]

theorem orderly_rollback :
    .rolledBack "web" "626164000000" "610000000000" ∈ (memoryRun (webFile "a" 1) [] orderlyRun).ticks.flatten ∧
      Throughout Worked (memoryRun (webFile "a" 1) [] orderlyRun).ticks := by
  have hrun : .rolledBack "web" "626164000000" "610000000000" ∈
        (memoryRun (webFile "a" 1) [] orderlyRun).ticks.flatten ∧
      Throughout Finished (memoryRun (webFile "a" 1) [] orderlyRun).ticks := by decide +kernel
  exact ⟨hrun.1, rollback_target_completed (freshRun_started (by decide +kernel) []) orderlyRun hrun.2⟩

/-- The revision `b` is replaced while its rollout is going on, and the rollback goes to it. -/
def hastyRun : List Command :=
  [.tick 0, .tick 20, .tick 40, .setFile (webFile "b" 1), .tick 60, .setFile (webFile "bad" 1), .tick 65, .tick 70,
    .tick 75]

theorem hasty_rollback :
    Started (freshRun (webFile "a" 1) []) (webFile "a" 1) plainOpts ∧
      .rolledBack "web" "626164000000" "620000000000" ∈ (memoryRun (webFile "a" 1) [] hastyRun).ticks.flatten ∧
        ¬ Throughout Worked (memoryRun (webFile "a" 1) [] hastyRun).ticks := by
  refine ⟨freshRun_started (by decide +kernel) [], ?_⟩
  decide +kernel

/-! ## Rejected revisions -/

/-- The revision the last rollback of the service rejected. -/
def lastRejected (svc : String) : List Event → Option String
  | [] => none
  | e :: rest => (lastRejected svc rest).orElse fun _ => match e with
    | .rolledBack svc' old _ => if svc' = svc then some old else none
    | _ => none

def IsRollback (svc : String) (e : Event) : Prop := ∃ old restored, e = .rolledBack svc old restored

instance (svc : String) : (e : Event) → Decidable (IsRollback svc e)
  | .rolledBack svc' old restored =>
    decidable_of_iff (svc' = svc) ⟨fun h => ⟨old, restored, by rw [h]⟩, fun ⟨_, _, h⟩ => by cases h; rfl⟩
  | .call .. | .prepared _ | .built .. | .kept .. | .decided .. | .planned .. | .superseded ..
  | .completed .. => .isFalse fun ⟨_, _, h⟩ => by cases h

theorem lastRejected_append (svc : String) (l l' : List Event) :
    lastRejected svc (l ++ l') = (lastRejected svc l').orElse fun _ => lastRejected svc l := by
  induction l with
  | nil =>
    rw [List.nil_append]
    cases lastRejected svc l' <;> rfl
  | cons e l ih =>
    simp only [List.cons_append, lastRejected, ih]
    cases lastRejected svc l' <;> rfl

theorem lastRejected_none {svc : String} {l : List Event} (h : ∀ e ∈ l, ¬ IsRollback svc e) :
    lastRejected svc l = none := by
  induction l with
  | nil => rfl
  | cons e l ih =>
    have ih := ih fun e' he' => h e' (List.mem_cons_of_mem _ he')
    simp only [lastRejected, ih, Option.orElse_none]
    split
    · rename_i svc' old restored
      split
      · rename_i heq
        exact absurd ⟨old, restored, by rw [heq]⟩ (h _ (List.mem_cons_self ..))
      · rfl
    · rfl

/-- If all rollbacks of the service in a list reject the same revision, so does the last. -/
theorem lastRejected_all {svc revision : String} {l : List Event}
    (hall : ∀ old restored, .rolledBack svc old restored ∈ l → old = revision)
    (hex : ∃ e ∈ l, IsRollback svc e) : lastRejected svc l = some revision := by
  induction l with
  | nil =>
    obtain ⟨e, he, -⟩ := hex
    cases he
  | cons e l ih =>
    have hall' : ∀ old restored, .rolledBack svc old restored ∈ l → old = revision :=
      fun old restored h => hall old restored (List.mem_cons_of_mem _ h)
    by_cases hl : ∃ e' ∈ l, IsRollback svc e'
    · simp only [lastRejected, ih hall' hl, Option.orElse_some]
    · push Not at hl
      obtain ⟨e', he', old, restored, rfl⟩ := hex
      rcases List.mem_cons.mp he' with rfl | he'
      · simp only [lastRejected, lastRejected_none hl, Option.orElse_none, if_true]
        exact congrArg some (hall old restored (List.mem_cons_self ..))
      · exact absurd ⟨old, restored, rfl⟩ (hl _ he')

/-- A `Run` does not carry the revision the last rollback of its service rejected. -/
def NoRetry (before : List Event) (e : Event) : Prop :=
  ∀ turn spec res svc revision, e = .call turn (.run spec) res → spec.labels.service = some svc →
    lastRejected svc before = some revision → spec.labels.revision ≠ some revision

def Planned (log : List Event) (svc : String) (a : Applied) (st : Rollout.State) : Prop :=
  ∃ dfn fileRev, .planned svc dfn fileRev a st ∈ log

/-- A `Run` and a rollback come from a plan in the log. -/
def Justified (log : List Event) : Event → Prop
  | .call _ (.run spec) _ => ∀ svc, spec.labels.service = some svc →
      ∃ idx revision a st, Planned log svc a st ∧ .start idx revision ∈ nextStep st
  | .rolledBack svc old restored => ∃ a st, Planned log svc a st ∧ old = a.revision ∧ .rollback restored ∈ nextStep st
  | _ => True

/-- What one tick does for a service comes from one plan. -/
structure OnePlan (log : List Event) : Prop where
  unique : ∀ svc a st a' st', Planned log svc a st → Planned log svc a' st' → a = a' ∧ st = st'
  justified : ∀ e ∈ log, Justified log e

theorem OnePlan.exclusive {log : List Event} (h : OnePlan log) {svc old restored : String}
    (hb : .rolledBack svc old restored ∈ log) {turn : Option String} {spec : Spec} {res : Result Response}
    (hr : .call turn (.run spec) res ∈ log) : spec.labels.service ≠ some svc := by
  intro hsvc
  obtain ⟨idx, revision, a, st, hp, hs⟩ := h.justified _ hr svc hsvc
  obtain ⟨a', st', hp', -, hback⟩ := h.justified _ hb
  obtain ⟨-, rfl⟩ := h.unique svc _ _ _ _ hp hp'
  rw [(rollback_mem hback).2] at hs
  simp at hs

theorem OnePlan.same_rejected {log : List Event} (h : OnePlan log) {svc old restored old' restored' : String}
    (hb : .rolledBack svc old restored ∈ log) (hb' : .rolledBack svc old' restored' ∈ log) : old = old' := by
  obtain ⟨a, st, hp, hold, -⟩ := h.justified _ hb
  obtain ⟨a', st', hp', hold', -⟩ := h.justified _ hb'
  obtain ⟨rfl, -⟩ := h.unique svc _ _ _ _ hp hp'
  rw [hold, hold']

theorem OnePlan.nil : OnePlan [] where
  unique := by
    rintro svc a st a' st' ⟨_, _, h⟩
    cases h
  justified := fun _ h => by cases h

theorem Justified.mono {log log' : List Event} (hl : log ⊆ log') {e : Event} (h : Justified log e) :
    Justified log' e := by
  unfold Justified at h ⊢
  split
  · intro svc hsvc
    obtain ⟨idx, revision, a, st, ⟨dfn, rev, hp⟩, hs⟩ := h svc hsvc
    exact ⟨idx, revision, a, st, ⟨dfn, rev, hl hp⟩, hs⟩
  · obtain ⟨a, st, ⟨dfn, rev, hp⟩, hold⟩ := h
    exact ⟨a, st, ⟨dfn, rev, hl hp⟩, hold⟩
  · trivial

theorem OnePlan.add {log : List Event} (h : OnePlan log) {e : Event} (he : Justified log e)
    (hnew : ∀ svc dfn rev a st, e = .planned svc dfn rev a st → ∀ a' st', ¬ Planned log svc a' st') :
    OnePlan (log ++ [e]) where
  unique := by
    rintro svc a st a' st' ⟨dfn, rev, hp⟩ ⟨dfn', rev', hp'⟩
    simp only [List.mem_append, List.mem_singleton] at hp hp'
    rcases hp with hp | hp <;> rcases hp' with hp' | hp'
    · exact h.unique svc _ _ _ _ ⟨dfn, rev, hp⟩ ⟨dfn', rev', hp'⟩
    · exact absurd ⟨dfn, rev, hp⟩ (hnew svc _ _ _ _ hp'.symm a st)
    · exact absurd ⟨dfn', rev', hp'⟩ (hnew svc _ _ _ _ hp.symm a' st')
    · rw [← hp] at hp'
      cases hp'
      exact ⟨rfl, rfl⟩
  justified := by
    intro e' he'
    rcases List.mem_append.mp he' with he' | he'
    · exact (h.justified e' he').mono (List.subset_append_left _ _)
    · rw [List.mem_singleton.mp he']
      exact he.mono (List.subset_append_left _ _)

theorem onePlan_step {now : UInt64} {who : Option String} {v v' : View} (hs : Step fl now who v v')
    (h : OnePlan v.log) : OnePlan v'.log := by
  cases hs with
  | @call turn req res hq =>
    refine h.add ?_ fun _ _ _ _ _ he => by cases he
    cases req <;> trivial
  | tidy _ => exact h
  | adopt _ _ => exact h
  | planned _ hfresh _ =>
    refine h.add trivial fun _ _ _ _ _ he a' st' hp => ?_
    cases he
    obtain ⟨dfn, rev, hp⟩ := hp
    exact hfresh dfn rev a' st' hp
  | @run svc a st idx spec res hp hstart _ hsvc =>
    refine h.add (fun svc' hsvc' => ?_) fun _ _ _ _ _ he => by cases he
    rw [hsvc] at hsvc'
    cases hsvc'
    exact ⟨idx, a.revision, a, st, hp.planned, hstart⟩
  | @rollback svc a prev st revision hp hback _ =>
    exact h.add ⟨a, st, hp.planned, rfl, hback⟩ fun _ _ _ _ _ he => by cases he
  | _ => exact h.add trivial fun _ _ _ _ _ he => by cases he

/-- What `applied`, `previous` and `rejected` always satisfy. -/
structure Bookkeeping (c : Controller) : Prop where
  fresh : ∀ svc, c.applied svc = none → c.previous svc = none ∧ c.rejected svc = none
  previous_ne : ∀ svc a p, c.applied svc = some a → c.previous svc = some p → p.revision ≠ a.revision
  rejected_ne : ∀ svc a, c.applied svc = some a → c.rejected svc ≠ some a.revision

theorem Bookkeeping.new (file : ComposeFile) (opts : UpOptions) : Bookkeeping { file, opts } where
  fresh := fun _ _ => ⟨rfl, rfl⟩
  previous_ne := fun _ _ _ ha => by cases ha
  rejected_ne := fun _ _ ha => by cases ha

theorem Bookkeeping.same {c c' : Controller} (h : Bookkeeping c) (hc : SameRevisions c c') : Bookkeeping c' where
  fresh := by
    rw [hc.applied, hc.previous, hc.rejected]
    exact h.fresh
  previous_ne := by
    rw [hc.applied, hc.previous]
    exact h.previous_ne
  rejected_ne := by
    rw [hc.applied, hc.rejected]
    exact h.rejected_ne

theorem Bookkeeping.adopt {c : Controller} (h : Bookkeeping c) {svc : String} (ha : c.applied svc = none)
    (a : Applied) : Bookkeeping (c.adopt svc a) := by
  obtain ⟨hprev, hrej⟩ := h.fresh svc ha
  refine ⟨fun svc' ha' => ?_, fun svc' a' p ha' hp => ?_, fun svc' a' ha' hr => ?_⟩ <;>
    rw [Controller.adopt_applied] at ha' <;> split at ha'
  · cases ha'
  · exact h.fresh svc' ha'
  · rename_i heq
    have hp : c.previous svc' = some p := hp
    rw [heq, hprev] at hp
    cases hp
  · exact h.previous_ne svc' a' p ha' hp
  · rename_i heq
    have hr : c.rejected svc' = some a'.revision := hr
    rw [heq, hrej] at hr
    cases hr
  · exact h.rejected_ne svc' a' ha' hr

theorem Bookkeeping.supersede {c : Controller} (h : Bookkeeping c) {now : UInt64} {svc : String} {cur a : Applied}
    (hne : cur.revision ≠ a.revision) (hr : c.rejected svc ≠ some a.revision) :
    Bookkeeping (c.supersede now svc cur a) := by
  refine ⟨fun svc' ha' => ?_, fun svc' a' p ha' hp => ?_, fun svc' a' ha' hr' => ?_⟩ <;>
    rw [Controller.supersede_applied] at ha' <;> split at ha'
  · cases ha'
  · rename_i hsvc
    rw [Controller.supersede_previous, if_neg hsvc]
    exact h.fresh svc' ha'
  · rename_i hsvc
    rw [Controller.supersede_previous, if_pos hsvc] at hp
    cases ha'
    cases hp
    exact hne
  · rename_i hsvc
    rw [Controller.supersede_previous, if_neg hsvc] at hp
    exact h.previous_ne svc' a' p ha' hp
  · rename_i hsvc
    cases ha'
    exact hr (hsvc ▸ hr')
  · exact h.rejected_ne svc' a' ha' hr'

theorem Bookkeeping.rollBack {c : Controller} (h : Bookkeeping c) {now : UInt64} {svc : String} {a prev : Applied}
    (ha : c.applied svc = some a) (hprev : c.previous svc = some prev) :
    Bookkeeping (c.rollBack now svc a.revision prev) := by
  refine ⟨fun svc' ha' => ?_, fun svc' a' p ha' hp => ?_, fun svc' a' ha' hr' => ?_⟩ <;>
    rw [Controller.rollBack_applied] at ha' <;> split at ha'
  · cases ha'
  · rename_i hsvc
    rw [Controller.rollBack_previous, Controller.rollBack_rejected, if_neg hsvc, if_neg hsvc]
    exact h.fresh svc' ha'
  · rename_i hsvc
    rw [Controller.rollBack_previous, if_pos hsvc] at hp
    cases hp
  · rename_i hsvc
    rw [Controller.rollBack_previous, if_neg hsvc] at hp
    exact h.previous_ne svc' a' p ha' hp
  · rename_i hsvc
    rw [Controller.rollBack_rejected, if_pos hsvc] at hr'
    cases ha'
    exact h.previous_ne svc a _ ha hprev (Option.some.inj hr').symm
  · rename_i hsvc
    rw [Controller.rollBack_rejected, if_neg hsvc] at hr'
    exact h.rejected_ne svc' a' ha' hr'

theorem bookkeeping_step {now : UInt64} {who : Option String} {v v' : View} (hs : Step fl now who v v')
    (h : Bookkeeping v.ctl) : Bookkeeping v'.ctl := by
  cases hs with
  | tidy hc => exact h.same hc.toSameRevisions
  | completed _ _ hc => exact h.same hc.toSameRevisions
  | adopt _ ha => exact h.adopt ha _
  | supersede _ _ hne hr => exact h.supersede hne hr
  | decided _ _ _ _ => exact h.same ⟨rfl, rfl, rfl, rfl⟩
  | rollback hp _ hprev => exact h.rollBack hp.applied hprev
  | _ => exact h

/-- The controller remembers the last rejected revision of every service and did not run it since. -/
structure Remembers (past : List (List Event)) (v : View) : Prop where
  book : Bookkeeping v.ctl
  last : ∀ svc, v.ctl.rejected svc = lastRejected svc (past.flatten ++ v.log)
  noRetry : Along NoRetry (past.flatten ++ v.log)
  onePlan : OnePlan v.log
  ticks : ∀ log ∈ past, OnePlan log

theorem Remembers.add {past : List (List Event)} {v v' : View} (h : Remembers past v) {now : UInt64}
    {who : Option String} (hs : Step fl now who v v') {e : Event} (hlog : v'.log = v.log ++ [e])
    (hrej : ∀ svc, v'.ctl.rejected svc = (lastRejected svc [e]).orElse fun _ => v.ctl.rejected svc)
    (he : NoRetry (past.flatten ++ v.log) e) : Remembers past v' where
  book := bookkeeping_step hs h.book
  last := by
    intro svc
    rw [hrej, hlog, ← List.append_assoc, lastRejected_append, h.last]
  noRetry := by
    rw [hlog, ← List.append_assoc]
    exact along_concat.mpr ⟨h.noRetry, he⟩
  onePlan := onePlan_step hs h.onePlan
  ticks := h.ticks

/-- An event that is neither a `Run` nor a rollback. -/
theorem Remembers.plain {past : List (List Event)} {v v' : View} (h : Remembers past v) {now : UInt64}
    {who : Option String} (hs : Step fl now who v v') {e : Event} (hlog : v'.log = v.log ++ [e])
    (hrej : v'.ctl.rejected = v.ctl.rejected) (hb : ∀ svc, lastRejected svc [e] = none)
    (hr : ∀ turn spec res, e ≠ .call turn (.run spec) res) : Remembers past v' := by
  refine h.add hs hlog (fun svc => ?_) fun turn spec res _ _ he => absurd he (hr turn spec res)
  rw [hrej, hb, Option.orElse_none]

theorem remembers_invariant : Invariant fl (fun _ => True) Remembers where
  step := by
    intro past now who v v' _ hs h
    have hs' := hs
    cases hs with
    | @call turn req res hq =>
      refine h.plain hs' rfl rfl (fun _ => rfl) fun turn' spec res' he => ?_
      cases he
      exact hq
    | tidy hc =>
      refine ⟨bookkeeping_step hs' h.book, fun svc => ?_, h.noRetry, h.onePlan, h.ticks⟩
      rw [hc.rejected]
      exact h.last svc
    | adopt _ _ => exact ⟨bookkeeping_step hs' h.book, h.last, h.noRetry, h.onePlan, h.ticks⟩
    | completed _ _ hc => exact h.plain hs' rfl hc.rejected (fun _ => rfl) fun _ _ _ he => by cases he
    | @run svc a st idx spec res hp _ hrev hsvc =>
      refine h.add hs' rfl (fun _ => rfl) ?_
      rintro turn spec' res' svc' revision ⟨⟩ hsvc' hlast
      rw [hsvc] at hsvc'
      cases hsvc'
      intro hrev'
      rw [hrev] at hrev'
      rw [← h.last, ← Option.some.inj hrev'] at hlast
      exact h.book.rejected_ne svc a hp.applied hlast
    | @rollback svc a prev st revision hp hback hprev =>
      refine h.add hs' rfl (fun svc' => ?_) fun _ _ _ _ _ he => by cases he
      simp only [Controller.rollBack_rejected, lastRejected, Option.orElse_none]
      by_cases hsvc : svc' = svc
      · rw [if_pos hsvc, if_pos hsvc.symm]
        rfl
      · rw [if_neg hsvc, if_neg (Ne.symm hsvc)]
        rfl
    | _ => exact h.plain hs' rfl rfl (fun _ => rfl) fun _ _ _ he => by cases he
  close := by
    intro past c log h
    have hflat : (past ++ [log]).flatten ++ [] = past.flatten ++ log := by simp
    refine ⟨h.book, fun svc => ?_, ?_, .nil, ?_⟩
    · rw [hflat]
      exact h.last svc
    · rw [hflat]
      exact h.noRetry
    · intro l hl
      rcases List.mem_append.mp hl with hl | hl
      · exact h.ticks l hl
      · rw [List.mem_singleton.mp hl]
        exact h.onePlan
  setFile := fun _ h => ⟨⟨h.book.fresh, h.book.previous_ne, h.book.rejected_ne⟩, h.last, h.noRetry, h.onePlan, h.ticks⟩
  pause := fun h => ⟨h.book.same ⟨rfl, rfl, rfl, rfl⟩, h.last, h.noRetry, h.onePlan, h.ticks⟩
  resume := fun h => ⟨h.book.same ⟨rfl, rfl, rfl, rfl⟩, h.last, h.noRetry, h.onePlan, h.ticks⟩

/-- From a rollback on, up to the next one, the last rejected revision stays the same. -/
theorem lastRejected_since {ticks : List (List Event)} (hone : ∀ log ∈ ticks, OnePlan log)
    {svc revision restored : String}
    {i : ℕ} {log : List Event} (hi : ticks[i]? = some log) (hb : .rolledBack svc revision restored ∈ log) {j : ℕ}
    (hij : i + 1 ≤ j) (hnext : ∀ k l, i < k → k < j → ticks[k]? = some l → ∀ e ∈ l, ¬ IsRollback svc e) :
    lastRejected svc (ticks.take j).flatten = some revision := by
  induction j, hij using Nat.le_induction with
  | base =>
    have hlast : lastRejected svc log = some revision :=
      lastRejected_all (fun old restored' h => (hone log (List.mem_of_getElem? hi)).same_rejected h hb)
        ⟨_, hb, revision, restored, rfl⟩
    rw [List.take_add_one, hi, Option.toList_some, List.flatten_append, lastRejected_append, List.flatten_singleton,
      hlast]
    rfl
  | succ j hij ih =>
    have ih := ih fun k l hk hkj => hnext k l hk (Nat.lt_succ_of_lt hkj)
    rw [List.take_add_one, List.flatten_append, lastRejected_append, ih]
    cases hj : ticks[j]? with
    | none => rfl
    | some l =>
      rw [Option.toList_some, List.flatten_singleton, lastRejected_none (hnext j l hij (Nat.lt_succ_self j) hj)]
      rfl

/-- From a rollback of a service until the next one, no `Run` for the service carries the rejected
revision. -/
theorem rejected_revision_not_rerun {r : Run σ} {file : ComposeFile} {opts : UpOptions} (hr : Started r file opts)
    (cmds : List Command) {i j : ℕ} (hij : i ≤ j) {logi logj : List Event}
    (hi : (r.exec x fl o cmds).ticks[i]? = some logi) (hj : (r.exec x fl o cmds).ticks[j]? = some logj)
    {svc revision restored : String} (hb : .rolledBack svc revision restored ∈ logi)
    (hnext : ∀ k log, i < k → k < j → (r.exec x fl o cmds).ticks[k]? = some log →
      ∀ e ∈ log, ¬ IsRollback svc e)
    {turn : Option String} {spec : Spec} {res : Result Response} (hrun : .call turn (.run spec) res ∈ logj)
    (hsvc : spec.labels.service = some svc) : spec.labels.revision ≠ some revision := by
  have h₀ : Remembers r.ticks ⟨r.ctl, []⟩ := by
    rw [hr.ticks, hr.ctl.1]
    exact ⟨.new file opts, fun _ => rfl, along_nil, .nil, fun _ h => absurd h List.not_mem_nil⟩
  have h : Remembers (r.exec x fl o cmds).ticks ⟨(r.exec x fl o cmds).ctl, []⟩ :=
    remembers_invariant.exec h₀ fun _ _ => trivial
  generalize (r.exec x fl o cmds).ticks = ticks at hi hj hnext h
  have hone := h.ticks logj (List.mem_of_getElem? hj)
  have hquiet : ∀ e ∈ logj, ¬ IsRollback svc e := by
    rintro e he ⟨old, restored', rfl⟩
    exact hone.exclusive he hrun hsvc
  rcases hij.eq_or_lt with rfl | hlt
  · rw [hi] at hj
    cases hj
    exact absurd ⟨revision, restored, rfl⟩ (hquiet _ hb)
  obtain ⟨pre, post, rfl⟩ := List.append_of_mem hrun
  obtain ⟨hlen, hget⟩ := List.getElem?_eq_some_iff.mp hj
  have hsplit : ticks.flatten ++ [] =
      ((ticks.take j).flatten ++ pre) ++ .call turn (.run spec) res :: (post ++ (ticks.drop (j + 1)).flatten) := by
    conv_lhs => rw [← List.take_append_drop j ticks, List.drop_eq_getElem_cons hlen, hget]
    simp
  refine h.noRetry _ _ _ hsplit turn spec res svc revision rfl hsvc ?_
  have hpre : ∀ e ∈ pre, ¬ IsRollback svc e := fun e he => hquiet e (List.mem_append_left _ he)
  rw [lastRejected_append, lastRejected_none hpre, lastRejected_since h.ticks hi hb hlt hnext]
  rfl

/-- As `orderlyRun`; then the file asks for `c` and, while that is rolled out, again for `bad`. -/
def insistentRun : List Command :=
  orderlyRun ++ [.setFile (webFile "c" 1), .tick 70, .setFile (webFile "bad" 1), .tick 90]

def runsFor (svc : String) : Event → Bool
  | .call _ (.run spec) _ => spec.labels.service = some svc
  | _ => false

def insistentLog (i : ℕ) : List Event := (memoryRun (webFile "a" 1) [] insistentRun).ticks.getD i []

/-- The ticks of the run: the rollback in the fifth, a `Run` in the last, and no rollback between them. -/
theorem insistentRun_ticks : (memoryRun (webFile "a" 1) [] insistentRun).ticks.length = 7 ∧
    .rolledBack "web" "626164000000" "610000000000" ∈ insistentLog 4 ∧
      (∀ e ∈ insistentLog 5, ¬ IsRollback "web" e) ∧ (insistentLog 6).any (runsFor "web") = true := by
  decide +kernel

theorem insistentLog_get {i : ℕ} (hi : i < 7) :
    (memoryRun (webFile "a" 1) [] insistentRun).ticks[i]? = some (insistentLog i) := by
  have hlen := insistentRun_ticks.1
  rw [insistentLog, List.getD_eq_getElem?_getD, List.getElem?_eq_getElem (by omega)]
  rfl

theorem rejected_while_another_runs :
    .rolledBack "web" "626164000000" "610000000000" ∈ insistentLog 4 ∧ (insistentLog 6).any (runsFor "web") = true ∧
      ∀ turn spec res, .call turn (.run spec) res ∈ insistentLog 6 → spec.labels.service = some "web" →
        spec.labels.revision ≠ some "626164000000" := by
  obtain ⟨-, hb, hquiet, hruns⟩ := insistentRun_ticks
  refine ⟨hb, hruns, fun turn spec res hrun hsvc => ?_⟩
  refine rejected_revision_not_rerun (freshRun_started (by decide +kernel) []) insistentRun (i := 4) (j := 6) (by omega)
    (insistentLog_get (by omega)) (insistentLog_get (by omega)) hb (fun k log hk hk' hlog => ?_) hrun hsvc
  have hk : k = 5 := by omega
  subst hk
  rw [← memoryRun, insistentLog_get (by omega)] at hlog
  rw [← Option.some.inj hlog]
  exact hquiet

end Collocate.Control
