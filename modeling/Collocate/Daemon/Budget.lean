import Collocate.Daemon.Moves

/-! # The budget of restarts

A relaunch goes on the schedule right after an exit that nobody asked for, the counter of restarts bounds
how many do after one long run, and each task starts at most one. -/
namespace Collocate.Daemon
set_option autoImplicit false

/-! ## Relaunches on record -/

def isSchedule (id : ContainerId) : Mark → Bool
  | .scheduled id' _ => id' = id
  | _ => false

def isRelaunch (id : ContainerId) : Mark → Bool
  | .relaunched id' => id' = id
  | _ => false

def isTask (id : ContainerId) : Task → Bool
  | .relaunch id' => id' = id
  | _ => false

/-- How often a relaunch of the container went on the schedule. -/
def schedules (id : ContainerId) (marks : List Mark) : ℕ := marks.countP (isSchedule id)

/-- How many relaunches of the container were started. -/
def relaunches (id : ContainerId) (marks : List Mark) : ℕ := marks.countP (isRelaunch id)

/-- How many relaunches of the container are still to come. -/
def pending (id : ContainerId) (schedule : List (Instant × Task)) : ℕ := schedule.countP fun e => isTask id e.2

/-- No run of the container for more than ten seconds ends in the segment, and the container has the policy
whenever it is to be relaunched. -/
structure Stretch (id : ContainerId) (policy : RestartPolicy) (segment : List Mark) : Prop where
  short : ∀ policy' stopped, .ended id policy' true stopped ∉ segment
  policy : ∀ policy', .scheduled id policy' ∈ segment → policy' = policy

section Marks
variable {id : ContainerId} {policy : RestartPolicy} {marks segment : List Mark} {m : Mark}

theorem schedules_concat (id : ContainerId) (marks : List Mark) (m : Mark) :
    schedules id (marks ++ [m]) = schedules id marks + (if isSchedule id m then 1 else 0) := by
  simp [schedules, List.countP_append, List.countP_singleton]

theorem relaunches_concat (id : ContainerId) (marks : List Mark) (m : Mark) :
    relaunches id (marks ++ [m]) = relaunches id marks + (if isRelaunch id m then 1 else 0) := by
  simp [relaunches, List.countP_append, List.countP_singleton]

theorem Stretch.front (h : Stretch id policy (segment ++ [m])) : Stretch id policy segment where
  short policy' stopped hmem := h.short policy' stopped (List.mem_append_left _ hmem)
  policy policy' hmem := h.policy policy' (List.mem_append_left _ hmem)

theorem Stretch.last (h : Stretch id policy (segment ++ [m])) : Stretch id policy [m] where
  short policy' stopped hmem := h.short policy' stopped (List.mem_append_right _ hmem)
  policy policy' hmem := h.policy policy' (List.mem_append_right _ hmem)

/-! ## The counter -/

/-- The counter bounds the relaunches that went on the schedule since the last long run. -/
def Counted (attempts : ContainerId → UInt32) (marks : List Mark) : Prop :=
  ∀ id max pre segment, marks = pre ++ segment → 0 < max → Stretch id (.onFailure max) segment →
    schedules id segment ≤ (attempts id).toNat ∧ schedules id segment ≤ max.toNat

/-- Between two long runs no more relaunches went on the schedule than the policy allows. -/
def Budgeted (marks : List Mark) : Prop :=
  ∀ id max pre segment post, marks = pre ++ segment ++ post → 0 < max → Stretch id (.onFailure max) segment →
    schedules id segment ≤ max.toNat

theorem Budgeted.concat {attempts : ContainerId → UInt32} (h : Budgeted marks) (hm : Counted attempts (marks ++ [m])) :
    Budgeted (marks ++ [m]) := by
  intro id max pre segment post heq hmax hstretch
  obtain rfl | ⟨rest, last, rfl⟩ := List.eq_nil_or_concat post
  · rw [List.append_nil] at heq
    exact (hm id max pre segment heq hmax hstretch).2
  · rw [List.concat_eq_append, ← List.append_assoc] at heq
    exact h id max pre segment rest (List.append_inj' heq rfl).1 hmax hstretch

/-- A mark that schedules nothing, with counters that are not lower, but for a container whose long run it ends. -/
theorem Counted.concat {attempts attempts' : ContainerId → UInt32} (h : Counted attempts marks)
    (hm : ∀ id max, 0 < max → Stretch id (.onFailure max) [m] →
      schedules id [m] + (attempts id).toNat ≤ (attempts' id).toNat ∧
      (attempts' id ≤ max ∨ schedules id [m] = 0)) : Counted attempts' (marks ++ [m]) := by
  intro id max pre segment heq hmax hstretch
  obtain rfl | ⟨rest, last, rfl⟩ := List.eq_nil_or_concat segment
  · exact ⟨Nat.zero_le _, Nat.zero_le _⟩
  rw [List.concat_eq_append] at hstretch ⊢
  rw [List.concat_eq_append, ← List.append_assoc] at heq
  obtain ⟨hmarks, hlast⟩ := List.append_inj' heq rfl
  cases hlast
  obtain ⟨hcounter, hspent⟩ := h id max pre rest hmarks hmax hstretch.front
  obtain ⟨hnext, hroom⟩ := hm id max hmax hstretch.last
  have hsum : schedules id (rest ++ [m]) = schedules id rest + schedules id [m] := List.countP_append
  rw [UInt32.le_iff_toNat_le] at hroom
  omega

/-! ## Grounds -/

/-- A relaunch goes on the schedule only at an exit that nobody asked for, and never with the policy `no`. -/
def Grounded (marks : List Mark) : Prop :=
  ∀ id policy pre post, marks = pre ++ .scheduled id policy :: post →
    policy ≠ .no ∧ ∃ before long, pre = before ++ [.ended id policy long false]

theorem Grounded.concat (h : Grounded marks) (hm : ∀ id policy, m = .scheduled id policy →
    policy ≠ .no ∧ ∃ before long, marks = before ++ [.ended id policy long false]) : Grounded (marks ++ [m]) := by
  intro id policy pre post heq
  obtain ⟨rfl, hlast, -⟩ | ⟨rest, -, hmarks⟩ := concat_eq_append_cons heq
  · exact hm id policy hlast.symm
  · exact h id policy pre rest hmarks

/-- At no time more relaunches were started than had gone on the schedule. -/
def Backed (marks : List Mark) : Prop := ∀ id pre post, marks = pre ++ post → relaunches id pre ≤ schedules id pre

theorem Backed.concat (h : Backed marks) (hm : ∀ id, relaunches id (marks ++ [m]) ≤ schedules id (marks ++ [m])) :
    Backed (marks ++ [m]) := by
  intro id pre post heq
  obtain rfl | ⟨rest, last, rfl⟩ := List.eq_nil_or_concat post
  · rw [List.append_nil] at heq
    exact heq ▸ hm id
  · rw [List.concat_eq_append, ← List.append_assoc] at heq
    exact h id pre rest (List.append_inj' heq rfl).1

end Marks

/-! ## The record as a whole -/

/-- What lasts of the marks, beside the counters of restarts. -/
structure Record (attempts : ContainerId → UInt32) (marks : List Mark) : Prop where
  grounded : Grounded marks
  counted : Counted attempts marks
  budgeted : Budgeted marks
  backed : Backed marks

section Record
variable {attempts : ContainerId → UInt32} {marks : List Mark} {m : Mark} {c : Vitals} {id : ContainerId} {v : Vital}

theorem record_nil (attempts : ContainerId → UInt32) : Record attempts [] where
  grounded _ _ pre _ h := by cases pre <;> cases h
  counted _ _ pre segment h _ _ := by
    obtain ⟨rfl, rfl⟩ := List.append_eq_nil_iff.mp h.symm
    exact ⟨Nat.zero_le _, Nat.zero_le _⟩
  budgeted _ _ pre segment post h _ _ := by
    obtain ⟨hfront, rfl⟩ := List.append_eq_nil_iff.mp h.symm
    obtain ⟨rfl, rfl⟩ := List.append_eq_nil_iff.mp hfront
    exact Nat.zero_le _
  backed _ pre post h := by
    obtain ⟨rfl, rfl⟩ := List.append_eq_nil_iff.mp h.symm
    exact Nat.zero_le _

/-- A mark that is of no relaunch. -/
theorem Record.other (h : Record attempts marks) {attempts' : ContainerId → UInt32}
    (hattempts : ∀ id policy, Stretch id policy [m] → attempts' id = attempts id)
    (hschedule : ∀ id, isSchedule id m = false) (hrelaunch : ∀ id, isRelaunch id m = false) :
    Record attempts' (marks ++ [m]) := by
  have hnone (id : ContainerId) : schedules id [m] = 0 := by
    simp [schedules, hschedule id]
  have hcounted : Counted attempts' (marks ++ [m]) := by
    refine h.counted.concat fun id max _ hstretch => ⟨?_, .inr (hnone id)⟩
    rw [hnone, hattempts id _ hstretch, Nat.zero_add]
  refine ⟨h.grounded.concat fun id policy hm => ?_, hcounted, h.budgeted.concat hcounted, h.backed.concat fun id => ?_⟩
  · have hself := hschedule id
    rw [hm] at hself
    simp [isSchedule] at hself
  · have hbefore := h.backed id marks [] (List.append_nil marks).symm
    rw [relaunches_concat, schedules_concat, hschedule, hrelaunch]
    exact hbefore

theorem Record.active (h : Record attempts marks) (id : ContainerId) (at' : Instant) :
    Record attempts (marks ++ [.active id at']) :=
  h.other (fun _ _ _ => rfl) (fun _ => rfl) fun _ => rfl

theorem Record.reaped (h : Record attempts marks) (id : ContainerId) (idleSecs : UInt64) (at' : Instant) :
    Record attempts (marks ++ [.reaped id idleSecs at']) :=
  h.other (fun _ _ _ => rfl) (fun _ => rfl) fun _ => rfl

/-- After a long run the counter starts again, and with it the stretch. -/
theorem Record.left (h : Record c.attempts c.marks) (id : ContainerId) (v : Vital) (long : Bool) :
    Record (c.left id v long).attempts (c.left id v long).marks := by
  refine h.other (fun id' policy hstretch => ?_) (fun _ => rfl) fun _ => rfl
  cases long with
  | false => rfl
  | true =>
    have hother : id' ≠ id := by
      rintro rfl
      exact hstretch.short _ _ List.mem_cons_self
    show (Function.update c.restarts id none id').getD 0 = _
    rw [Function.update_of_ne hother]
    rfl

theorem room_of_restart {max attempts : UInt32} {code : ℤ} {stopped : Bool}
    (h : shouldRestart (.onFailure max) code attempts stopped = true) (hmax : 0 < max) : attempts < max := by
  have hpositive : max ≠ 0 := by
    rintro rfl
    exact absurd hmax (by decide)
  cases stopped with
  | true => cases h
  | false =>
    simp [shouldRestart, hpositive] at h
    exact h.2

theorem toNat_succ_of_lt {n m : UInt32} (h : n < m) : (n + 1).toNat = n.toNat + 1 := by
  have hbound := m.toNat_lt
  rw [UInt32.lt_iff_toNat_lt] at h
  rw [UInt32.toNat_add]
  exact Nat.mod_eq_of_lt (by simpa using by omega)

/-- An exit that nobody asked for puts a relaunch on the schedule, if the policy has room for it. -/
theorem Record.restarting (h : Record c.attempts c.marks) {policy : RestartPolicy} {code : ℤ} {stopped : Bool}
    (hended : ∃ before long, c.marks = before ++ [.ended id policy long false])
    (hrestart : shouldRestart policy code (c.attempts id) stopped = true) (time : Instant) :
    Record (c.restarting id policy time).attempts (c.restarting id policy time).marks := by
  have hself : (c.restarting id policy time).attempts id = c.attempts id + 1 := by
    show (Function.update c.restarts id (some (c.attempts id + 1)) id).getD 0 = _
    rw [Function.update_self]
    rfl
  have hcounted : Counted (c.restarting id policy time).attempts (c.marks ++ [.scheduled id policy]) := by
    refine h.counted.concat fun id' max hmax hstretch => ?_
    by_cases hid : id' = id
    · subst hid
      obtain rfl := hstretch.policy policy List.mem_cons_self
      have hroom := room_of_restart hrestart hmax
      have hone : schedules id' [.scheduled id' (.onFailure max)] = 1 := by simp [schedules, isSchedule]
      have hnext := toNat_succ_of_lt hroom
      rw [UInt32.lt_iff_toNat_lt] at hroom
      rw [UInt32.le_iff_toNat_le, hself, hone]
      omega
    · have hsame : (c.restarting id policy time).attempts id' = c.attempts id' := by
        show (Function.update c.restarts id (some (c.attempts id + 1)) id').getD 0 = _
        rw [Function.update_of_ne hid]
        rfl
      have hnone : schedules id' [.scheduled id policy] = 0 := by simp [schedules, isSchedule, Ne.symm hid]
      rw [hsame, hnone]
      exact ⟨Nat.le_of_eq (Nat.zero_add _), .inr rfl⟩
  refine ⟨h.grounded.concat fun id' policy' hm => ?_, hcounted, h.budgeted.concat hcounted,
    h.backed.concat fun id' => ?_⟩
  · cases hm
    refine ⟨?_, hended⟩
    rintro rfl
    cases stopped <;> cases hrestart
  · have hbefore := h.backed id' c.marks [] (List.append_nil _).symm
    rw [relaunches_concat, schedules_concat]
    exact Nat.le_trans hbefore (Nat.le_add_right _ _)

theorem Record.relaunched (h : Record attempts marks) (id : ContainerId)
    (hroom : relaunches id marks + 1 ≤ schedules id marks) :
    Record attempts (marks ++ [.relaunched id]) := by
  have hcounted : Counted attempts (marks ++ [.relaunched id]) := by
    refine h.counted.concat fun id' max _ _ => ⟨Nat.le_of_eq (Nat.zero_add _), .inr rfl⟩
  refine ⟨h.grounded.concat nofun, hcounted, h.budgeted.concat hcounted, h.backed.concat fun id' => ?_⟩
  have hbefore := h.backed id' marks [] (List.append_nil _).symm
  rw [relaunches_concat, schedules_concat]
  by_cases hid : id = id'
  · subst hid
    simpa [isRelaunch, isSchedule] using hroom
  · simpa [isRelaunch, isSchedule, hid] using hbefore

end Record

/-! ## What lasts -/

structure Rationed (c : Vitals) : Prop where
  stopped : Throughout (fun id v => v.stopRequested = true → c.userStopped id = true) c.live
  record : Record c.attempts c.marks
  accounted : ∀ id, relaunches id c.marks + pending id c.schedule + c.due.countP (isTask id) ≤ schedules id c.marks

section Rationed
variable {c : Vitals} {id : ContainerId} {v : Vital}

theorem pending_append (id : ContainerId) (schedule later : List (Instant × Task)) :
    pending id (schedule ++ later) = pending id schedule + pending id later := List.countP_append

theorem pending_none {later : List (Instant × Task)} (h : ∀ e ∈ later, ∀ id, e.2 ≠ .relaunch id) (id : ContainerId) :
    pending id later = 0 := by
  refine List.countP_eq_zero.mpr fun e he htask => ?_
  have hother := h e he
  cases htask' : e.2 with
  | relaunch id' => exact hother id' htask'
  | removeExited | reapIdle =>
    rw [htask'] at htask
    cases htask

theorem Rests.no_relaunch {steady : Prop} {idleSecs : Option UInt64} {since : Instant} {later : List (Instant × Task)}
    (h : Rests steady id idleSecs since later) : ∀ e ∈ later, ∀ id', e.2 ≠ .relaunch id' := by
  cases idleSecs with
  | none =>
    rw [show later = [] from h]
    exact fun _ he => (by cases he)
  | some t =>
    obtain ⟨time, rfl, -⟩ := h
    simp

/-- The stopped containers that stay live are known to be stopped. -/
theorem Throughout.left (h : Throughout (fun id v => v.stopRequested = true → c.userStopped id = true) c.live)
    (id : ContainerId) (v : Vital) (long : Bool) :
    Throughout (fun id' v' => v'.stopRequested = true → (c.left id v long).userStopped id' = true)
      (c.left id v long).live := by
  intro id' v' hv' hstop
  have hget : (c.live.erase id).get? id' = some v' := hv'
  rw [OrdMap.get?_erase] at hget
  split at hget
  · cases hget
  · rename_i hid
    show Function.update c.userStopped id false id' = true
    rw [Function.update_of_ne hid]
    exact h id' v' hget hstop

theorem accounted_left
    (h : relaunches id c.marks + pending id c.schedule + c.due.countP (isTask id) ≤ schedules id c.marks)
    (id' : ContainerId) (v : Vital) (long : Bool) :
    relaunches id (c.left id' v long).marks + pending id c.schedule + c.due.countP (isTask id) ≤ schedules id
      (c.left id' v long).marks := by
  show relaunches id (c.marks ++ [_]) + _ + _ ≤ schedules id (c.marks ++ [_])
  rw [relaunches_concat, schedules_concat]
  exact h

end Rationed

theorem rationed_lasts : Lasts False Rationed where
  moved c c' h hc := by
    cases h with
    | @stop id v hlive =>
      refine ⟨fun id' v' hv' hstop => ?_, hc.record, hc.accounted⟩
      show Function.update c.userStopped id true id' = true
      rw [OrdMap.get?_insert] at hv'
      by_cases hid : id' = id
      · rw [hid, Function.update_self]
      · rw [if_neg hid] at hv'
        rw [Function.update_of_ne hid]
        exact hc.stopped id' v' hv' hstop
    | @pardoned id hlive =>
      refine ⟨fun id' v' hv' hstop => ?_, hc.record, hc.accounted⟩
      have hid : id' ≠ id := by
        rintro rfl
        rw [show c.live.get? id' = some v' from hv'] at hlive
        cases hlive
      show Function.update c.userStopped id false id' = true
      rw [Function.update_of_ne hid]
      exact hc.stopped id' v' hv' hstop
    | entered hv hlater =>
      refine ⟨hc.stopped.insert fun hstop => ?_, hc.record.active _ _, fun id => ?_⟩
      · rw [hv.stop] at hstop
        cases hstop
      · rw [relaunches_concat, schedules_concat, pending_append, pending_none hlater.no_relaunch]
        exact hc.accounted id
    | used hlive hlater =>
      have hv := hc.stopped _ _ hlive
      refine ⟨hc.stopped.insert hv, hc.record.active _ _, fun id => ?_⟩
      rw [relaunches_concat, schedules_concat, pending_append, pending_none hlater.no_relaunch]
      exact hc.accounted id
    | probed hlive ht ok =>
      have hv := hc.stopped _ _ hlive
      exact ⟨hc.stopped.insert hv, hc.record, hc.accounted⟩
    | @restarting id v long code hlive hrestart time =>
      have hstop : v.stopRequested = false := by
        have hv := hc.stopped _ _ hlive
        cases hasked : v.stopRequested with
        | false => rfl
        | true =>
          rw [hv hasked] at hrestart
          cases hrestart
      have hended : (c.left id v long).marks = c.marks ++ [.ended id v.spec.restart long false] := by
        rw [← hstop]
        rfl
      refine ⟨hc.stopped.left id v long, (hc.record.left id v long).restarting ⟨_, long, hended⟩ hrestart time,
        fun id' => ?_⟩
      have hbefore := accounted_left (hc.accounted id') id v long
      show relaunches id' ((c.left id v long).marks ++ [.scheduled id v.spec.restart]) +
        pending id' (c.schedule ++ [(time, .relaunch id)]) + c.due.countP (isTask id') ≤
          schedules id' ((c.left id v long).marks ++ [.scheduled id v.spec.restart])
      rw [relaunches_concat, schedules_concat, pending_append]
      have htask : pending id' [(time, .relaunch id)] = if isSchedule id' (.scheduled id v.spec.restart) then 1
        else 0 :=
        List.countP_singleton
      rw [htask]
      have hnone : (if isRelaunch id' (.scheduled id v.spec.restart) then 1 else 0 : ℕ) = 0 := rfl
      omega
    | @ended id v later hlive long hlater =>
      refine ⟨hc.stopped.left id v long, hc.record.left id v long, fun id' => ?_⟩
      show _ + pending id' (c.schedule ++ later) + _ ≤ _
      rw [pending_append, pending_none hlater]
      exact accounted_left (hc.accounted id') id v long
    | reaped hlive hidle hdue =>
      refine ⟨hc.stopped, hc.record.reaped _ _ _, fun id => ?_⟩
      rw [relaunches_concat, schedules_concat]
      exact hc.accounted id
  fired c now hdue hc := by
    refine ⟨hc.stopped, hc.record, fun id => ?_⟩
    have hsplit : pending id c.schedule = pending id (c.schedule.filter fun e => decide (e.1 ≤ now)) +
        pending id (c.schedule.filter fun e => !decide (e.1 ≤ now)) := List.countP_eq_countP_filter_add _ _ _
    have hbefore := hc.accounted id
    have hfired : ((c.schedule.filter fun e => decide (e.1 ≤ now)).map Prod.snd).countP (isTask id) =
        pending id (c.schedule.filter fun e => decide (e.1 ≤ now)) := List.countP_map
    rw [hdue, List.countP_nil] at hbefore
    show relaunches id c.marks + pending id (c.schedule.filter fun e => !decide (e.1 ≤ now)) + _ ≤ schedules id c.marks
    rw [hfired]
    omega
  relaunched c id rest hdue hc := by
    have hcount (id' : ContainerId) :
      c.due.countP (isTask id') = rest.countP (isTask id') + (if id = id' then 1 else 0) := by
      rw [hdue, List.countP_cons]
      simp [isTask]
    refine ⟨hc.stopped, hc.record.relaunched id ?_, fun id' => ?_⟩
    · have hbefore := hc.accounted id
      rw [hcount, if_pos rfl] at hbefore
      omega
    · have hbefore := hc.accounted id'
      rw [hcount] at hbefore
      show relaunches id' (c.marks ++ [.relaunched id]) + pending id' c.schedule + rest.countP (isTask id') ≤
        schedules id' (c.marks ++ [.relaunched id])
      rw [relaunches_concat, schedules_concat]
      have hmark : (if isRelaunch id' (.relaunched id) then 1 else 0 : ℕ) = if id = id' then 1 else 0 :=
        by simp [isRelaunch]
      rw [hmark]
      have hnone : (if isSchedule id' (.relaunched id) then 1 else 0 : ℕ) = 0 := rfl
      omega
  dropped c task rest hdue hspared hc := by
    refine ⟨hc.stopped, hc.record, fun id => ?_⟩
    have hbefore := hc.accounted id
    rw [hdue, List.countP_cons] at hbefore
    show relaunches id c.marks + pending id c.schedule + rest.countP (isTask id) ≤ schedules id c.marks
    omega

/-! ## Runs -/

/-- In every run, no more relaunches of a container go on the schedule between two runs of more than ten
seconds than its policy allows; none does with the policy `no` or at an exit that was asked for; and the
relaunches that were started, with those still to come, are no more than went on the schedule. -/
theorem restart_budget {σ : Type} (w : World σ) (outer : σ) (cfg : DaemonSettings) (store : SpecStore)
    (rootMode : RootMode) (batches : List (List Event)) (events : List Event) :
    let d := (lifetime w batches events (boot w (blank outer cfg store rootMode)).2).2
    (∀ id max pre segment post, d.marks = pre ++ segment ++ post → 0 < max → Stretch id (.onFailure max) segment →
      schedules id segment ≤ max.toNat) ∧
    (∀ id policy pre post, d.marks = pre ++ .scheduled id policy :: post →
      policy ≠ .no ∧ ∃ before long, pre = before ++ [.ended id policy long false]) ∧
    (∀ id pre post, d.marks = pre ++ post → relaunches id pre ≤ schedules id pre) ∧
    ∀ id, relaunches id d.marks + pending id d.schedule ≤ schedules id d.marks := by
  have hblank : Rationed (blank outer cfg store rootMode).vitals :=
    ⟨fun _ _ h => (by cases h), record_nil _, fun _ => Nat.le_refl 0⟩
  obtain ⟨hrationed, hdue⟩ := lifetime_rests (w := w) False.elim rationed_lasts outer cfg store rootMode hblank batches
    events
  refine ⟨hrationed.record.budgeted, hrationed.record.grounded, hrationed.record.backed, fun id => ?_⟩
  have haccounted := hrationed.accounted id
  rw [hdue] at haccounted
  exact haccounted

end Collocate.Daemon
