import Collocate.Daemon.Upheld

/-! # Live containers are stored

Every live container is stored, under its own id and with the labels it was launched with. -/
namespace Collocate.Daemon
set_option autoImplicit false

/-! ## Books that link -/

/-- Two specs of one container: labels and persistence are for good. -/
def SameKind (s t : Spec) : Prop := s.labels = t.labels ∧ s.persistent = t.persistent

def Linked (b : Books) : Prop :=
  ∀ id spec, b.live.get? id = some spec → spec.id = id ∧ ∃ s, b.store.get? id = some s ∧ SameKind s spec

section Linked
variable {b : Books}

theorem Linked.put (hb : Linked b) {t : Spec} (ht : ∀ spec, b.live.get? t.id = some spec → SameKind t spec) :
    Linked { b with store := b.store.put t } := by
  intro id spec hlive
  obtain ⟨hid, s, hs, hkind⟩ := hb id spec hlive
  refine ⟨hid, ?_⟩
  simp only [SpecStore.get?_put]
  by_cases heq : id = t.id
  · subst heq
    exact ⟨t, if_pos rfl, ht spec hlive⟩
  · exact ⟨s, by rw [if_neg heq]; exact hs, hkind⟩

theorem Linked.forget (hb : Linked b) {id : ContainerId} (hlive : b.live.get? id = none) :
    Linked { b with store := b.store.erase id } := by
  intro id' spec hlive'
  obtain ⟨hid, s, hs, hkind⟩ := hb id' spec hlive'
  have hne : id' ≠ id := by
    rintro rfl
    rw [show b.live.get? id' = some spec from hlive'] at hlive
    cases hlive
  refine ⟨hid, s, ?_, hkind⟩
  rw [SpecStore.get?_erase, if_neg hne]
  exact hs

theorem Linked.end (hb : Linked b) (id : ContainerId) : Linked { b with live := b.live.erase id } := by
  intro id' spec hlive
  refine hb id' spec ?_
  have hlive : (b.live.erase id).get? id' = some spec := hlive
  rw [OrdMap.get?_erase] at hlive
  split at hlive
  · cases hlive
  · exact hlive

theorem Linked.enter (hb : Linked b) {t : Spec} (ht : ∃ s, b.store.get? t.id = some s ∧ SameKind s t) :
    Linked { b with live := b.live.insert t.id t } := by
  intro id spec hlive
  have hlive : (b.live.insert t.id t).get? id = some spec := hlive
  rw [OrdMap.get?_insert] at hlive
  split at hlive
  · rename_i heq
    cases hlive
    exact ⟨heq.symm, heq ▸ ht⟩
  · exact hb id spec hlive

theorem Linked.not_stored (hb : Linked b) {id : ContainerId} (h : b.store.get? id = none) : b.live.get? id = none := by
  cases hlive : b.live.get? id with
  | none => rfl
  | some spec =>
    obtain ⟨-, s, hs, -⟩ := hb id spec hlive
    rw [h] at hs
    cases hs

end Linked

theorem Running.kind {spec t : Spec} {a : Ipv4Addr} (h : Running spec a t) : t.id = spec.id ∧ SameKind t spec := by
  rcases h with rfl | rfl <;> exact ⟨rfl, rfl, rfl⟩

/-! ## Ephemeral containers

With `covers` the books also say what becomes of every stored container that is not persistent: it is
live, or a task will see to it. -/

/-- A task for the container is on the schedule, or the timer still has it to do. -/
def Books.Pending (b : Books) (id : ContainerId) : Prop :=
  ∃ t ∈ b.schedule ++ b.due, t = .relaunch id ∨ t = .removeExited id

/-- Sound books, while the timer has `due` to do; an operation is at the containers in `skip`. -/
structure Sound (covers : Prop) (skip : ContainerId → Prop) (due : List Task) (b : Books) : Prop where
  linked : Linked b
  due : b.due = due
  covered : covers → ∀ id s, ¬ skip id → b.store.get? id = some s → s.persistent = false → b.live.get? id = none →
    b.Pending id

def noSkip : ContainerId → Prop := fun _ => False

section Sound
variable {covers : Prop} {skip : ContainerId → Prop} {due : List Task} {b : Books}

theorem Books.Pending.mono {b' : Books} {id : ContainerId} (h : b.Pending id)
    (hsub : ∀ t, t ∈ b.schedule ++ b.due → t ∈ b'.schedule ++ b'.due) : b'.Pending id := by
  obtain ⟨t, ht, heq⟩ := h
  exact ⟨t, hsub t ht, heq⟩

/-- The addresses do not matter. -/
theorem Sound.ipam (hb : Sound covers skip due b) (ipam : Ipam) : Sound covers skip due { b with ipam := ipam } :=
  ⟨hb.linked, hb.due, hb.covered⟩

theorem Sound.later (hb : Sound covers skip due b) (later : List Task) :
    Sound covers skip due { b with schedule := b.schedule ++ later } where
  linked := hb.linked
  due := hb.due
  covered hc id s hskip hs hp hlive := by
    refine (hb.covered hc id s hskip hs hp hlive).mono fun t ht => ?_
    simp only [List.mem_append] at ht ⊢
    tauto

/-- A stored spec is replaced by one of its kind. -/
theorem Sound.put (hb : Sound covers skip due b) {s t : Spec} (hs : b.store.get? t.id = some s) (hkind : SameKind t s)
    (hlive : b.live.get? t.id = none) : Sound covers skip due { b with store := b.store.put t } where
  linked := hb.linked.put fun spec hspec => by rw [hlive] at hspec; cases hspec
  due := hb.due
  covered hc id s' hskip hs' hp hlive' := by
    have hs' : (b.store.put t).get? id = some s' := hs'
    rw [SpecStore.get?_put] at hs'
    split at hs'
    · rename_i heq
      cases hs'
      subst heq
      exact hb.covered hc _ s hskip hs (hkind.2 ▸ hp) hlive
    · exact hb.covered hc id s' hskip hs' hp hlive'

/-- The container becomes live. -/
theorem Sound.enter (hb : Sound covers skip due b) {t : Spec} (hskip : ∀ id, skip id → id = t.id)
    (ht : ∃ s, b.store.get? t.id = some s ∧ SameKind s t) :
    Sound covers noSkip due { b with live := b.live.insert t.id t } where
  linked := hb.linked.enter ht
  due := hb.due
  covered hc id s _ hs hp hlive := by
    have hlive : (b.live.insert t.id t).get? id = none := hlive
    rw [OrdMap.get?_insert] at hlive
    split at hlive
    · cases hlive
    · rename_i hne
      exact hb.covered hc id s (fun hid => hne (hskip id hid)) hs hp hlive

/-- The container is removed. -/
theorem Sound.forget (hb : Sound covers skip due b) {id : ContainerId} (hskip : ∀ id', skip id' → id' = id)
    (hlive : b.live.get? id = none) : Sound covers noSkip due { b with store := b.store.erase id } where
  linked := hb.linked.forget hlive
  due := hb.due
  covered hc id' s _ hs hp hlive' := by
    have hs : (b.store.erase id).get? id' = some s := hs
    rw [SpecStore.get?_erase] at hs
    split at hs
    · cases hs
    · rename_i hne
      exact hb.covered hc id' s (fun hid => hne (hskip id' hid)) hs hp hlive'

/-- The container ends. -/
theorem Sound.end (hb : Sound covers noSkip due b) (id : ContainerId) :
    Sound covers (· = id) due { b with live := b.live.erase id } where
  linked := hb.linked.end id
  due := hb.due
  covered hc id' s hskip hs hp hlive := by
    have hlive : (b.live.erase id).get? id' = none := hlive
    rw [OrdMap.get?_erase, if_neg hskip] at hlive
    exact hb.covered hc id' s (fun h => h) hs hp hlive

/-- The container that the operation was at needs no task, or has one. -/
theorem Sound.settle (hb : Sound covers skip due b)
    (h : covers → ∀ id s, skip id → b.store.get? id = some s → s.persistent = false → b.live.get? id = none →
      b.Pending id) :
    Sound covers noSkip due b where
  linked := hb.linked
  due := hb.due
  covered hc id s _ hs hp hlive := by
    by_cases hid : skip id
    · exact h hc id s hid hs hp hlive
    · exact hb.covered hc id s hid hs hp hlive

end Sound

/-! ## The programs -/

/-- Nothing goes on record. -/
def unrecorded {σ : Type} : σ → Unit := fun _ => ()

/-- Specs can be removed, and one that cannot be created leaves nothing. -/
structure Reliable {σ : Type} (w : World σ) : Prop where
  create : ∀ spec s e, (w.write (.create spec) s).1 ≠ .failed e true
  remove : ∀ id s, (w.write (.remove id) s).1 = .done

/-- The timer's task for a container that is not persistent and not live does its work. -/
def TaskWorks {σ : Type} (w : World σ) : Task → State σ → Prop
  | .relaunch id, d => ∀ spec, d.store.get? id = some spec → spec.persistent = false → d.live.get? id = none →
    ∃ d' d'', storeGet w id d = (.ok spec, d') ∧ launch w spec d' = (.ok (), d'')
  | .removeExited id, d => ∀ spec, d.store.get? id = some spec → spec.persistent = false → d.live.get? id = none →
    ∃ d', storeGet w id d = (.ok spec, d')
  | .reapIdle _, _ => True

theorem records_nothing {σ : Type} (w : World σ) : Records w unrecorded :=
  ⟨fun _ => rfl, fun _ _ => rfl, fun _ _ => rfl, fun _ _ => rfl, fun _ _ => rfl, fun _ _ _ => rfl, fun _ _ _ _ => rfl,
    fun _ _ _ => rfl, fun _ _ => rfl, fun _ _ => rfl, fun _ => rfl, fun _ => rfl, fun _ _ => rfl⟩

section Programs
variable {σ : Type} {w : World σ} {covers : Prop} {skip : ContainerId → Prop} {due : List Task}

/-- The container is stored and about to be launched, or its launch failed. -/
def AtLaunch (covers : Prop) (skip : ContainerId → Prop) (due : List Task) (spec : Spec) (l : Books × Unit) : Prop :=
  Sound covers skip due l.1 ∧ l.1.live.get? spec.id = none ∧ ∃ s, l.1.store.get? spec.id = some s ∧ SameKind s spec

theorem launch_sound {spec : Spec} (hskip : ∀ id, skip id → id = spec.id) :
    Eff.Triple (fun d : State σ => AtLaunch covers skip due spec (d.ledger unrecorded)) (launch w spec)
      (fun _ d => Sound covers noSkip due d.books ∧ d.books.live.get? spec.id ≠ none)
      fun _ d => AtLaunch covers skip due spec (d.ledger unrecorded) := by
  refine launch_rule (records_nothing w) (P := AtLaunch covers skip due spec) (E := AtLaunch covers skip due spec)
    (Q := fun _ => AtLaunch covers skip due spec)
    (R := fun l => Sound covers noSkip due l.1 ∧ l.1.live.get? spec.id ≠ none)
    (fun _ hl => hl) (fun _ _ hl => hl) ?_ ?_ ?_
  · rintro b r a ipam ⟨hb, hlive, hstored⟩ -
    exact ⟨hb.ipam ipam, hlive, hstored⟩
  · intro a t ht
    obtain ⟨hid, hkind⟩ := ht.kind
    refine storeUpdate_rule (fun d hd _ _ => ?_) fun d hd _ => hd
    obtain ⟨hb, hlive, s, hs, hsame⟩ := hd
    have hkinds : SameKind t s := ⟨hkind.1.trans hsame.1.symm, hkind.2.trans hsame.2.symm⟩
    refine ⟨hb.put (hid ▸ hs) hkinds (hid ▸ hlive), hlive, t, ?_, hkind⟩
    show (d.store.put t).get? spec.id = some t
    rw [SpecStore.get?_put, if_pos hid.symm]
  · rintro a b r later - ⟨hb, hlive, s, hs, hkind⟩
    refine ⟨(hb.enter (t := { placedAt spec a with exitStatus := none }) hskip ⟨s, hs, hkind⟩).later later, ?_⟩
    show (b.live.insert spec.id _).get? spec.id ≠ none
    rw [OrdMap.get?_insert, if_pos rfl]
    exact Option.some_ne_none _

/-- The container is not live, and perhaps about to be removed. -/
def AtRemoval (covers : Prop) (skip : ContainerId → Prop) (due : List Task) (id : ContainerId) (l : Books × Unit) :
    Prop :=
  Sound covers skip due l.1 ∧ l.1.live.get? id = none

/-- Sound books between two operations. -/
def Settled (covers : Prop) (due : List Task) (l : Books × Unit) : Prop := Sound covers noSkip due l.1

theorem storeRemove_sound (hw : covers → Reliable w) {id : ContainerId} (hskip : ∀ id', skip id' → id' = id) :
    Leads (State.ledger unrecorded) (AtRemoval covers skip due id) (Settled covers due) (storeRemove w id) := by
  refine storeRemove_rule (P := AtRemoval covers skip due id) (Q := Settled covers due) (E := Settled covers due)
    (fun l hl hgone => hl.1.settle fun _ id' s hid hs => ?_) (fun d hd _ _ => hd.1.forget hskip hd.2)
    (fun d e hd _ _ => hd.1.forget hskip hd.2) fun d hd hnot => hd.1.settle fun hc => ?_
  · rw [hskip id' hid, SpecStore.contains_eq_false.mp hgone] at hs
    cases hs
  · rw [(hw hc).remove id d.outer] at hnot
    cases hnot

theorem purge_sound (hw : covers → Reliable w) {id : ContainerId} (hskip : ∀ id', skip id' → id' = id) :
    Leads (State.ledger unrecorded) (AtRemoval covers skip due id) (Settled covers due) (purge w id) :=
  purge_rule (P := AtRemoval covers skip due id) (Q := Settled covers due) (E := Settled covers due)
    (R := Settled covers due)
    (records_nothing w) (storeRemove_sound hw hskip) fun _ _ hb => Sound.ipam hb _

theorem storeCreate_sound (hw : covers → Reliable w) (t : Spec) :
    Eff.Triple (fun d : State σ => Settled covers due (d.ledger unrecorded)) (storeCreate w t)
      (fun _ d => AtLaunch covers (· = t.id) due t (d.ledger unrecorded))
      fun _ d => Settled covers due (d.ledger unrecorded) := by
  have hput (d : State σ) (hd : Sound covers noSkip due d.books) (hnew : d.store.contains t.id = false) :
      AtLaunch covers (· = t.id) due t (d.wrote w unrecorded (.create t) (d.store.put t)) := by
    have hlive := hd.linked.not_stored (SpecStore.contains_eq_false.mp hnew)
    have hstored : (d.store.put t).get? t.id = some t := by rw [SpecStore.get?_put, if_pos rfl]
    refine ⟨⟨hd.linked.put fun spec hspec => ?_, hd.due, fun hc id s hne hs hp hlive' => ?_⟩, hlive, t, hstored,
      rfl, rfl⟩
    · rw [hlive] at hspec
      cases hspec
    · have hs : (d.store.put t).get? id = some s := hs
      rw [SpecStore.get?_put, if_neg hne] at hs
      exact hd.covered hc id s (fun h => h) hs hp hlive'
  refine storeCreate_rule (P := Settled covers due) (Q := AtLaunch covers (· = t.id) due t) (E := Settled covers due)
    (records_nothing w).overlooks (fun _ hl => hl) (fun d hd hnew _ => hput d hd hnew) (fun d e hd hnew happlied => ?_)
    fun d hd _ => hd
  exact (hput d hd hnew).1.settle fun hc => absurd happlied ((hw hc).create t d.outer e)

theorem opRun_sound (hw : covers → Reliable w) (spec : Spec) :
    Leads (State.ledger unrecorded) (Settled covers due) (Settled covers due) (opRun w spec) := by
  refine opRun_rule (records_nothing w) (fun t => AtLaunch covers (· = t.id) due t)
    (fun t => AtRemoval covers (· = t.id) due t.id) (fun _ hl => hl) ?_ ?_ ?_
  · exact fun t _ => storeCreate_sound hw t
  · exact fun t _ => Eff.Triple.conseq (launch_sound fun _ hid => hid) (fun _ hd => hd) (fun _ _ hd => hd.1)
      fun _ _ hd => ⟨hd.1, hd.2.1⟩
  · exact fun t _ => purge_sound hw fun _ hid => hid

theorem onExit_sound (id : ContainerId) (code : Option ℤ) :
    Surely (State.ledger unrecorded) (Settled covers due) (AtRemoval covers noSkip due id) (onExit w id code) := by
  let Ended (spec : Spec) (l : Books × Unit) : Prop :=
    AtRemoval covers (· = id) due id l ∧ spec.id = id ∧ ∃ s, l.1.store.get? id = some s ∧ SameKind s spec
  refine onExit_rule (records_nothing w) (P := Settled covers due) (Q := AtRemoval covers noSkip due id) (G := Ended)
    (fun l hl hnone => ⟨hl, hnone⟩) ?_ ?_ ?_
  · intro b r spec hb hlive
    obtain ⟨hid, s, hs, hkind⟩ := hb.linked id spec hlive
    refine ⟨⟨hb.end id, ?_⟩, hid, s, hs, hkind⟩
    show (b.live.erase id).get? id = none
    rw [OrdMap.get?_erase, if_pos rfl]
  · intro spec code
    refine storeUpdate_rule (fun d hd _ _ => ?_) fun d hd _ => hd
    obtain ⟨⟨hb, hlive⟩, rfl, s, hs, hkind⟩ := hd
    refine ⟨⟨hb.put (t := { spec with exitStatus := some code }) hs ⟨hkind.1.symm, hkind.2.symm⟩ hlive, hlive⟩, rfl,
      { spec with exitStatus := some code }, ?_, rfl, rfl⟩
    show (d.store.put _).get? spec.id = _
    rw [SpecStore.get?_put, if_pos rfl]
  · rintro spec b r later ⟨⟨hb, hlive⟩, rfl, s, hs, hkind⟩ hlater
    refine ⟨(hb.later later).settle fun hc id' s' hid hs' hp _ => ?_, hlive⟩
    subst hid
    rcases hlater with rfl | rfl | ⟨-, hpersistent⟩
    · exact ⟨.relaunch spec.id, by simp, .inl rfl⟩
    · exact ⟨.removeExited spec.id, by simp, .inr rfl⟩
    · have hsame : s' = s := Option.some.inj (hs'.symm.trans hs)
      rw [hsame, hkind.2, hpersistent] at hp
      cases hp

/-! ## The timer -/

/-- A container that is removed, persistent or live needs no task. -/
def Done (id : ContainerId) (b : Books) : Prop :=
  ∀ s, b.store.get? id = some s → s.persistent = false → b.live.get? id ≠ none

theorem Sound.done {t : Task} {b : Books} (hb : Sound covers noSkip (t :: due) b)
    (ht : covers → ∀ id, t = .relaunch id ∨ t = .removeExited id → Done id b) :
    Sound covers noSkip due { b with due := due } where
  linked := hb.linked
  due := rfl
  covered hc id s hskip hs hp hlive := by
    obtain ⟨t', ht', htask⟩ := hb.covered hc id s hskip hs hp hlive
    refine ⟨t', ?_, htask⟩
    rw [hb.due, List.mem_append, List.mem_cons] at ht'
    rcases ht' with ht' | rfl | ht'
    · exact List.mem_append_left _ ht'
    · exact absurd hlive (ht hc id htask s hs hp)
    · exact List.mem_append_right _ ht'

theorem ends_sound (hw : covers → Reliable w) : Ends w unrecorded (Settled covers) where
  exit _ id code := onExit_sound id code
  purge _ _ := purge_sound hw fun _ hid => hid.elim

/-- A removed container is gone. -/
theorem purge_gone (hw : Reliable w) (id : ContainerId) :
    Leads (State.ledger unrecorded) (fun _ => True) (fun l => l.1.store.get? id = none) (purge w id) := by
  let Gone (l : Books × Unit) : Prop := l.1.store.get? id = none
  have herased (d : State σ) : Gone (d.wrote w unrecorded (.remove id) (d.store.erase id)) := by
    show (d.store.erase id).get? id = none
    rw [SpecStore.get?_erase, if_pos rfl]
  refine purge_rule (P := fun _ => True) (Q := Gone) (E := Gone) (R := Gone) (records_nothing w) ?_ fun _ _ hb => hb
  refine storeRemove_rule (P := fun _ => True) (Q := Gone) (E := Gone) (fun l _ => SpecStore.contains_eq_false.mp)
    (fun d _ _ _ => herased d) (fun d e _ _ _ => herased d) fun d _ hnot => ?_
  rw [hw.remove id d.outer] at hnot
  cases hnot

/-- Where the task of a container that is not persistent and not live works, its spec can be read. -/
theorem read_of_works {task : Task} {id : ContainerId} {d : State σ}
    (ht : task = .relaunch id ∨ task = .removeExited id)
    (hworks : TaskWorks w task d) {s : Spec} (hs : d.books.store.get? id = some s) (hp : s.persistent = false)
    (hlive : d.books.live.get? id = none) : ∃ d', storeGet w id d = (.ok s, d') := by
  have hlive : d.live.get? id = none := by simpa [State.books] using hlive
  rcases ht with rfl | rfl
  · obtain ⟨d', -, hget, -⟩ := hworks s hs hp hlive
    exact ⟨d', hget⟩
  · exact hworks s hs hp hlive

section Tasks
variable {now : Instant} {id : ContainerId} {d d' d'' : State σ} {spec : Spec}

theorem runTask_unread {e : Error} (hget : storeGet w id d = (.error e, d')) :
    runTask w now (.relaunch id) d = (.ok (), d') := by
  show (Eff.attempt (storeGet w id) >>= _) d = _
  rw [Eff.bind_of_ok (Eff.attempt_of hget)]
  rfl

theorem runTask_live (hget : storeGet w id d = (.ok spec, d')) (hlive : d'.live.contains id = true) :
    runTask w now (.relaunch id) d = (.ok (), d') := by
  show (Eff.attempt (storeGet w id) >>= _) d = _
  rw [Eff.bind_of_ok (Eff.attempt_of hget)]
  dsimp only
  rw [Eff.get_bind_apply, hlive]
  rfl

theorem runTask_launch {r : Result Unit} (hget : storeGet w id d = (.ok spec, d')) (hlive : d'.live.contains id = false)
    (hlaunch : launch w spec d' = (r, d'')) :
    runTask w now (.relaunch id) d = (.ok (), { d'' with marks := d''.marks ++ [.relaunched id] }) := by
  show (Eff.attempt (storeGet w id) >>= _) d = _
  rw [Eff.bind_of_ok (Eff.attempt_of hget)]
  dsimp only
  rw [Eff.get_bind_apply, hlive]
  show (Eff.attempt (launch w spec) >>= _) d' = _
  rw [Eff.bind_of_ok (Eff.attempt_of hlaunch)]
  rfl

theorem relaunch_sound (rest : List Task) (hd : Sound covers noSkip (.relaunch id :: rest) d.books)
    (hmay : covers → TaskWorks w (.relaunch id) d) :
    ∃ d', runTask w now (.relaunch id) d = (.ok (), d') ∧ Sound covers noSkip rest { d'.books with due := rest } := by
  have hread := storeGet_rule (records_nothing w) (P := fun l => l.1 = d.books) id d rfl
  rcases hget : storeGet w id d with ⟨e | spec, d'⟩ <;> rw [hget] at hread
  · have hbooks : d'.books = d.books := hread
    refine ⟨d', runTask_unread hget, ?_⟩
    rw [hbooks]
    refine hd.done fun hc id' htask s hs hp hlive => ?_
    obtain rfl : id = id' := by simpa using htask
    obtain ⟨d₁, hd₁⟩ := read_of_works (.inl rfl) (hmay hc) hs hp hlive
    rw [hget] at hd₁
    cases hd₁
  · obtain ⟨hbooks, hstored, rfl⟩ : d'.books = d.books ∧ d'.books.store.get? id = some spec ∧ spec.id = id := hread
    cases hlive : d'.live.contains spec.id with
    | true =>
      refine ⟨d', runTask_live hget hlive, ?_⟩
      refine (hbooks ▸ hd : Sound _ _ _ d'.books).done fun hc id' htask s hs hp hnone => ?_
      obtain rfl : spec.id = id' := by simpa using htask
      obtain ⟨l, hl⟩ := Option.isSome_iff_exists.mp hlive
      rw [books_live hl] at hnone
      cases hnone
    | false =>
      have hnone : d'.books.live.get? spec.id = none := books_live_none (by simpa [OrdMap.contains] using hlive)
      have hlaunch := launch_sound (w := w) (fun _ hid => hid.elim) d'
        ⟨(hbooks ▸ hd : Sound covers noSkip _ d'.books), hnone, spec, hstored, rfl, rfl⟩
      rcases hr : launch w spec d' with ⟨e | _, d''⟩ <;> rw [hr] at hlaunch
      · obtain ⟨hsound, -, s', hs', hkind⟩ := hlaunch
        refine ⟨_, runTask_launch hget hlive hr, hsound.done fun hc id' htask s hs hp _ => ?_⟩
        obtain rfl : spec.id = id' := by simpa using htask
        -- A launch that fails is of a persistent container.
        have hsame : s = s' := Option.some.inj (hs.symm.trans hs')
        have hephemeral : spec.persistent = false := by rw [← hkind.2, ← hsame]; exact hp
        obtain ⟨d₁, d₂, hget', hlaunched⟩ := hmay hc spec (by rw [hbooks] at hstored; exact hstored) hephemeral
          (by rw [hbooks] at hnone; simpa [State.books] using hnone)
        rw [hget] at hget'
        cases hget'
        rw [hr] at hlaunched
        cases hlaunched
      · refine ⟨_, runTask_launch hget hlive hr, hlaunch.1.done fun hc id' htask s hs hp hnone => ?_⟩
        obtain rfl : spec.id = id' := by simpa using htask
        exact hlaunch.2 hnone

theorem removeExited_sound (hw : covers → Reliable w) (rest : List Task)
    (hd : Sound covers noSkip (.removeExited id :: rest) d.books) (hmay : covers → TaskWorks w (.removeExited id) d) :
    ∃ d', runTask w now (.removeExited id) d = (.ok (), d') ∧
      Sound covers noSkip rest { d'.books with due := rest } := by
  have hread := storeGet_rule (records_nothing w) (P := fun l => l.1 = d.books) id d rfl
  show ∃ d', (Eff.get >>= _) d = _ ∧ _
  rw [Eff.get_bind_apply]
  cases hlive : d.live.contains id with
  | true =>
    refine ⟨d, rfl, hd.done fun hc id' htask s hs hp hnone => ?_⟩
    obtain rfl : id = id' := by simpa using htask
    obtain ⟨l, hl⟩ := Option.isSome_iff_exists.mp hlive
    rw [books_live hl] at hnone
    cases hnone
  | false =>
    have hnone : d.books.live.get? id = none := books_live_none (by simpa [OrdMap.contains] using hlive)
    show ∃ d', (Eff.attempt (storeGet w id) >>= _) d = _ ∧ _
    rcases hget : storeGet w id d with ⟨e | spec, d'⟩ <;> rw [hget] at hread <;> rw
      [Eff.bind_of_ok (Eff.attempt_of hget)]
    · have hbooks : d'.books = d.books := hread
      refine ⟨d', rfl, ?_⟩
      rw [hbooks]
      refine hd.done fun hc id' htask s hs hp _ => ?_
      obtain rfl : id = id' := by simpa using htask
      obtain ⟨d₁, hd₁⟩ := read_of_works (.inr rfl) (hmay hc) hs hp hnone
      rw [hget] at hd₁
      cases hd₁
    · obtain ⟨hbooks, hstored, -⟩ : d'.books = d.books ∧ d'.books.store.get? id = some spec ∧ spec.id = id := hread
      have hd' : Sound covers noSkip _ d'.books := hbooks ▸ hd
      dsimp only
      cases hp : spec.persistent with
      | true =>
        refine ⟨d', rfl, hd'.done fun hc id' htask s hs hephemeral _ => ?_⟩
        obtain rfl : id = id' := by simpa using htask
        rw [hstored] at hs
        cases hs
        rw [hp] at hephemeral
        cases hephemeral
      | false =>
        refine ⟨(purge w id d').2, rfl, ?_⟩
        have hpurged : Settled covers _ _ := Leads.apply (purge_sound hw fun _ hid => hid.elim) ⟨hd', hbooks ▸ hnone⟩
        refine Sound.done hpurged fun hc id' htask s hs _ _ => ?_
        obtain rfl : id = id' := by simpa using htask
        have hgone := Leads.apply (purge_gone (hw hc) id) (d := d') trivial
        rw [show (purge w id d').2.books.store.get? id = none from hgone] at hs
        cases hs

theorem runTask_sound (hw : covers → Reliable w) (now : Instant) (task : Task) (rest : List Task) :
    Eff.Triple (fun d => Settled covers (task :: rest) (d.ledger unrecorded) ∧ (covers → TaskWorks w task d))
      (runTask w now task) (fun _ d => Settled covers rest ({ d.books with due := rest }, ())) fun _ _ => False := by
  rintro d ⟨hd, hmay⟩
  cases task with
  | relaunch id =>
    obtain ⟨d', hrun, hd'⟩ := relaunch_sound rest hd hmay
    rw [hrun]
    exact hd'
  | removeExited id =>
    obtain ⟨d', hrun, hd'⟩ := removeExited_sound hw rest hd hmay
    rw [hrun]
    exact hd'
  | reapIdle id =>
    have hidle : Surely (State.ledger unrecorded) (Settled covers (.reapIdle id :: rest))
        (Settled covers (.reapIdle id :: rest)) (runTask w now (.reapIdle id)) := by
      refine Surely.peek fun d => ?_
      dsimp only
      split
      · refine Surely.bind (Surely.modify fun _ hd => hd) fun _ => ?_
        exact reapIdle_upheld (records_nothing w) (ends_sound hw) _ id
      · exact Silent.pure _ _
    refine Eff.Triple.post hidle (fun _ d' hd' => Sound.done hd' fun hc id' htask => ?_) d hd
    rcases htask with htask | htask <;> cases htask

end Tasks

/-- Sound books are upheld, and with `covers` no ephemeral container is forgotten where the tasks work. -/
theorem sound_upheld (hw : covers → Reliable w) {mayDo : Task → State σ → Prop}
    (hmay : covers → ∀ task d, mayDo task d → TaskWorks w task d) :
    Upholds w unrecorded (fun _ _ => True) mayDo (Settled covers) where
  toEnds := ends_sound hw
  run due spec := (opRun_sound hw spec).pre fun _ hl => hl.1
  launch due spec := by
    refine Eff.Triple.conseq (launch_sound fun _ hid => hid.elim) ?_ (fun _ _ hd => hd.1)
      fun _ _ hd => hd.1
    exact fun d hd => ⟨hd.1, hd.2.1, spec, hd.2.2, rfl, rfl⟩
  idle _ _ _ _ hb := Sound.later hb _
  vip due lb := by
    refine Leads.peek fun d => ?_
    split
    · refine Leads.bind_quiet (Quiet.lift _) (fun _ hl => hl) fun _ => ?_
      exact Leads.modify_bind (Q := Settled covers due) (fun _ hd => Sound.ipam hd _) fun _ =>
        Leads.pure _ fun _ hl => hl
    · refine Leads.bind_quiet (Quiet.lift _) (fun _ hl => hl) fun _ => ?_
      exact Leads.modify_bind (Q := Settled covers due) (fun _ hd => Sound.ipam hd _) fun _ =>
        Leads.pure _ fun _ hl => hl
  unvip _ _ _ _ _ hb := Sound.ipam hb _
  fired b _ schedule due hsplit hb := by
    refine ⟨hb.linked, rfl, fun hc id s hskip hs hp hlive => (hb.covered hc id s hskip hs hp hlive).mono fun t ht => ?_⟩
    rw [hb.due, List.append_nil] at ht
    exact List.mem_append.mpr (hsplit t ht)
  task now task rest :=
    Eff.Triple.pre (runTask_sound hw now task rest) fun d hd => ⟨hd.1, fun hc => hmay hc task d hd.2⟩

/-! ## The start -/

/-- What the host says of the containers it was asked about. -/
def Populated (observed : Store.Observed) (id : ContainerId) : Prop := observed.cgroups.get? id = some true

theorem mem_planLeftovers {adopted cleaned leftovers : List ContainerId} {action : Store.Action}
    (h : action ∈ Store.planLeftovers adopted cleaned leftovers) : ∃ id, action = .cleanRuntime id := by
  induction leftovers generalizing cleaned with
  | nil => cases h
  | cons id rest ih =>
    unfold Store.planLeftovers at h
    split at h
    · exact ih h
    · rcases List.mem_cons.mp h with rfl | h
      · exact ⟨id, rfl⟩
      · exact ih h

/-- What is adopted has processes, and specs are removed of what has none. -/
theorem mem_plan {specs : List Spec} {observed : Store.Observed} {action : Store.Action}
    (h : action ∈ Store.plan specs observed) :
    (∀ id, action = .adopt id → Populated observed id) ∧ ∀ id, action = .removeSpec id → ¬ Populated observed id := by
  simp only [Store.plan, List.mem_append, List.mem_flatMap, List.mem_map] at h
  rcases h with (((⟨spec, -, h⟩ | ⟨id, -, h⟩) | ⟨v, -, rfl⟩) | ⟨t, -, rfl⟩) | h
  · unfold Store.planSpec at h
    split at h
    · rename_i hpopulated
      obtain rfl := List.mem_singleton.mp h
      refine ⟨fun id heq => ?_, fun id heq => by cases heq⟩
      cases heq
      exact hpopulated
    · rename_i hnot
      refine ⟨fun id heq => ?_, fun id heq => ?_⟩
      · subst heq
        simp only [List.mem_append, List.mem_ite_nil_right, List.mem_cons] at h
        rcases h with ⟨-, h⟩ | h | h | h
        · simp at h
        · split at h <;> cases h
        · cases h
        · cases h
      · subst heq
        have hid : id = spec.id := by
          simp only [List.mem_append, List.mem_ite_nil_right, List.mem_cons] at h
          rcases h with ⟨-, h⟩ | h | h | h
          · simp at h
          · split at h <;> cases h
            rfl
          · cases h
          · cases h
        rw [hid]
        exact fun hpopulated => hnot hpopulated
  · rcases List.mem_cons.mp h with rfl | h
    · exact ⟨fun _ heq => (by cases heq), fun _ heq => (by cases heq)⟩
    · obtain rfl := List.mem_singleton.mp h
      exact ⟨fun _ heq => (by cases heq), fun _ heq => (by cases heq)⟩
  · exact ⟨fun _ heq => (by cases heq), fun _ heq => (by cases heq)⟩
  · exact ⟨fun _ heq => (by cases heq), fun _ heq => (by cases heq)⟩
  · obtain ⟨id, rfl⟩ := mem_planLeftovers h
    exact ⟨fun _ heq => (by cases heq), fun _ heq => (by cases heq)⟩

/-- Taking stock: the live containers are populated, and the specs of those stay stored. -/
structure Stocked (specs : List Spec) (observed : Store.Observed) (l : Books × Unit) : Prop where
  linked : Linked l.1
  due : l.1.due = []
  live : ∀ id spec, l.1.live.get? id = some spec → Populated observed id
  stored : ∀ spec ∈ specs, Populated observed spec.id → l.1.store.get? spec.id = some spec

section Stocked
variable {specs : List Spec} {observed : Store.Observed}

theorem adopt_stocked {spec : Spec} (hspec : spec ∈ specs) (hpop : Populated observed spec.id) :
    Leads (State.ledger unrecorded) (Stocked specs observed) (Stocked specs observed) (adopt w spec) := by
  have h := records_nothing w
  have ho := h.overlooks
  refine Leads.bind_quiet (Overlooks.quiet_outside fun d => ledger_outer (h.adoptPid _ d.outer))
    (fun _ hl => hl) fun pid => ?_
  refine Leads.bind_silent (silent_token ho) fun tok => Leads.bind_quiet (quiet_act ho _ rfl)
    (fun _ hl => hl) fun _ => ?_
  refine Leads.modify_bind (Q := Stocked specs observed) (fun _ hl => hl) fun _ => ?_
  refine Leads.bind_sure (Q := Stocked specs observed) (enter_rule h fun b r hb => ?_) fun _ => ?_
  · refine ⟨hb.linked.enter ⟨spec, hb.stored spec hspec hpop, rfl, rfl⟩, hb.due, fun id t hlive => ?_, hb.stored⟩
    have hlive : (b.live.insert spec.id spec).get? id = some t := hlive
    rw [OrdMap.get?_insert] at hlive
    split at hlive
    · rename_i heq
      rw [heq]
      exact hpop
    · exact hb.live id t hlive
  · refine Leads.of_sure (scheduleIdleReap_rule h fun b r later _ hb => ?_)
    exact ⟨hb.linked, hb.due, hb.live, hb.stored⟩

theorem removeSpec_stocked {id : ContainerId} (hpop : ¬ Populated observed id) :
    Leads (State.ledger unrecorded) (Stocked specs observed) (Stocked specs observed) (storeRemove w id) := by
  have herase (d : State σ) (hd : Stocked specs observed (d.ledger unrecorded)) :
      Stocked specs observed (d.wrote w unrecorded (.remove id) (d.store.erase id)) := by
    have hlive : d.books.live.get? id = none := by
      cases hl : d.books.live.get? id with
      | none => rfl
      | some spec => exact absurd (hd.live id spec hl) hpop
    refine ⟨hd.linked.forget hlive, hd.due, hd.live, fun spec hspec hpop' => ?_⟩
    show (d.store.erase id).get? spec.id = some spec
    rw [SpecStore.get?_erase, if_neg (by rintro rfl; exact hpop hpop')]
    exact hd.stored spec hspec hpop'
  exact storeRemove_rule (P := Stocked specs observed) (Q := Stocked specs observed) (E := Stocked specs observed)
    (fun _ hl _ => hl) (fun d hd _ _ => herase d hd) (fun d _ hd _ _ => herase d hd) fun d hd _ => hd

theorem takeStock_stocked {action : Store.Action} (hmem : action ∈ Store.plan specs observed) :
    Leads (State.ledger unrecorded) (Stocked specs observed) (Stocked specs observed) (takeStock w specs action) := by
  have ho := (records_nothing w).overlooks
  obtain ⟨hadopt, hremove⟩ := mem_plan hmem
  cases action with
  | adopt id =>
    dsimp only [takeStock]
    split
    · rename_i spec hfound
      have hid : spec.id = id := by simpa using List.find?_some hfound
      have hpop : Populated observed spec.id := hid ▸ hadopt id rfl
      refine Leads.bind_sure (adopt_stocked (List.mem_of_find?_eq_some hfound) hpop).attempt fun _ => ?_
      exact Leads.pure _ fun _ hl => hl
    · exact Leads.pure _ fun _ hl => hl
  | removeSpec id =>
    refine Leads.bind_sure (removeSpec_stocked (hremove id rfl)).attempt fun _ => Leads.modify fun d hd => ?_
    exact ⟨hd.linked, hd.due, hd.live, hd.stored⟩
  | cleanRuntime id => exact (silent_removeRuntimeDirs ho id).quiet _
  | killCgroup | removeCgroup | deleteVeth => exact (silent_tryAct ho _ rfl).quiet _
  | markStopped | deleteNftTag => exact Leads.pure _ fun _ hl => hl

end Stocked

/-- Before `reconcile` nothing is live. -/
def Fresh (l : Books × Unit) : Prop := l.1.live = .empty ∧ l.1.due = []

theorem Fresh.linked {l : Books × Unit} (h : Fresh l) : Settled False [] l := by
  refine ⟨fun id spec hlive => ?_, h.2, fun hc => hc.elim⟩
  rw [h.1] at hlive
  cases hlive

theorem reconcile_linked : Leads (State.ledger unrecorded) Fresh (Settled False []) (reconcile w) := by
  have h := records_nothing w
  have hsettled (l : Books × Unit) : Fresh l → Settled False [] l := Fresh.linked
  refine Eff.Triple.bind (Eff.Triple.conseq (loadAll_rule h) (fun _ hd => hd) (fun _ _ hd => hd)
    fun _ d => hsettled (d.ledger unrecorded)) fun specs => ?_
  let Loaded (l : Books × Unit) : Prop := Fresh l ∧ specs = l.1.store.specs.values.insertionSort earlier
  refine Quiet.first (P := Loaded) (Overlooks.quiet_outside fun d => ledger_outer (h.observe d.outer))
    (fun l hl => hsettled l hl.1) fun observed => ?_
  have hplan : Leads (State.ledger unrecorded) (Stocked specs observed) (Stocked specs observed)
      ((Store.plan specs observed).forM (takeStock w specs)) :=
    Eff.Keeps.forM _ fun action hmem => takeStock_stocked hmem
  refine Eff.Triple.conseq hplan ?_ (fun _ d hd => ⟨hd.linked, hd.due, fun hc => hc.elim⟩)
    fun _ d hd => ⟨hd.linked, hd.due, fun hc => hc.elim⟩
  rintro d ⟨hfresh, hspecs⟩
  refine ⟨hfresh.linked.linked, hfresh.2, fun id spec hlive => ?_, fun spec hmem _ => ?_⟩
  · rw [hfresh.1] at hlive
    cases hlive
  · rw [hspecs] at hmem
    exact (SpecStore.mem_values _).mp ((List.mem_insertionSort _).mp hmem)

theorem loadLb_fresh (lb : LbSpec) : Leads (State.ledger unrecorded) Fresh Fresh (loadLb w lb) := by
  have hinsert : Leads (State.ledger unrecorded) Fresh Fresh
      (Eff.modify fun d => { d with lbs := d.lbs.insert (lbKey lb.project lb.name) lb } : Op σ Unit) :=
    Leads.modify fun _ hl => hl
  unfold loadLb
  split
  · refine Leads.modify_bind (Q := Fresh) (fun d hd => ?_) fun _ => ?_
    · split <;> exact hd
    · exact Leads.bind_silent (silent_tryAct (records_nothing w).overlooks _ rfl) fun _ => hinsert
  · exact hinsert

theorem boot_linked (outer : σ) (cfg : DaemonSettings) (store : SpecStore) (rootMode : RootMode) :
    Settled False [] ((boot w (blank outer cfg store rootMode)).2.ledger unrecorded) := by
  have h := records_nothing w
  have hsettled (l : Books × Unit) : Fresh l → Settled False [] l := Fresh.linked
  have hboot : Leads (State.ledger unrecorded) Fresh (Settled False []) (boot w) := by
    refine Leads.bind_quiet Quiet.get hsettled fun d => Leads.bind_quiet (Quiet.lift _) hsettled fun subnet => ?_
    refine Leads.bind_quiet (quiet_loadAll h.overlooks) hsettled fun specs => ?_
    refine Leads.bind_quiet (Quiet.lift _) hsettled fun ipam =>
      Leads.modify_bind (Q := Fresh) (fun _ hl => hl) fun _ => ?_
    refine Leads.bind_silent (Overlooks.silent_ask fun d => ledger_outer (h.savedLbs d.outer)) fun lbs => ?_
    refine Leads.bind_via (Leads.forM _ loadLb_fresh) hsettled fun _ => reconcile_linked.bind fun _ => ?_
    exact quiet_flushFirewall h _
  exact Leads.apply hboot ⟨rfl, rfl⟩

/-- Every live container of a running daemon is stored. -/
theorem reached_linked {may : Event → State σ → Prop} {outer : σ} {cfg : DaemonSettings} {store : SpecStore}
    {rootMode : RootMode} {d : State σ} (hd : Reached w may (boot w (blank outer cfg store rootMode)).2 d) :
    Linked d.books := by
  have hupheld : Upholds w unrecorded (fun _ _ => True) (fun _ _ => True) (Settled False) :=
    sound_upheld (fun hc => hc.elim) fun hc => hc.elim
  have hreached := hd.mono fun e d' _ => meets_of_all w (fun _ _ => True) (fun _ _ => True) (fun _ _ => trivial)
    (fun _ _ => trivial) e d'
  exact (reached_upheld (records_nothing w) hupheld (boot_linked outer cfg store rootMode) hreached).linked

end Programs
end Collocate.Daemon
