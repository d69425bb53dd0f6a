import Collocate.Daemon.Quiet

/-! # The books

What the daemon has on its books about containers: the stored specs, the live ones, the tasks and the
addresses. `State.ledger` shows the books together with a record that the world may keep of the writes
of specs; the rules below say what launching, ending and removing a container enter in them. -/
namespace Collocate.Daemon
set_option autoImplicit false

structure Books where
  store : SpecStore
  live : OrdMap ContainerId Spec
  schedule : List Task
  due : List Task
  ipam : Ipam

section Ledger
variable {σ H : Type} {w : World σ} {record : σ → H}

def State.books (d : State σ) : Books where
  store := d.store
  live := d.live.mapValues fun _ l => l.spec
  schedule := d.schedule.map Prod.snd
  due := d.due
  ipam := d.ipam

/-- The books, and what the world has on record. -/
def State.ledger (record : σ → H) (d : State σ) : Books × H := (d.books, record d.outer)

/-- Only writes of specs go on record. -/
structure Records (w : World σ) (record : σ → H) : Prop where
  now : ∀ s, record (w.now s).2 = record s
  act : ∀ a s, record (w.act a s).2 = record s
  lowers : ∀ root s, record (w.lowers root s).2 = record s
  spawn : ∀ spec s, record (w.spawn spec s).2 = record s
  wait : ∀ token s, record (w.wait token s).2 = record s
  tcpCheck : ∀ addr port s, record (w.tcpCheck addr port s).2 = record s
  httpCheck : ∀ addr port path s, record (w.httpCheck addr port path s).2 = record s
  pebbleHealth : ∀ id level s, record (w.pebbleHealth id level s).2 = record s
  stats : ∀ id s, record (w.stats id s).2 = record s
  adoptPid : ∀ id s, record (w.adoptPid id s).2 = record s
  savedLbs : ∀ s, record (w.savedLbs s).2 = record s
  observe : ∀ s, record (w.observe s).2 = record s
  serve : ∀ request s, record (w.serve request s).2 = record s

theorem ledger_outer {d : State σ} {s : σ} (h : record s = record d.outer) :
    ({ d with outer := s } : State σ).ledger record = d.ledger record :=
  Prod.ext rfl h

theorem Records.overlooks (h : Records w record) : Overlooks w (State.ledger record) where
  now d := ledger_outer (h.now d.outer)
  act a d _ := ledger_outer (h.act a d.outer)
  lowers root d := ledger_outer (h.lowers root d.outer)
  spawn spec d := ledger_outer (h.spawn spec d.outer)
  wait token d := ledger_outer (h.wait token d.outer)
  stats id d := ledger_outer (h.stats id d.outer)
  serve request d _ := ledger_outer (h.serve request d.outer)
  token _ _ := rfl
  conns _ _ := rfl
  fuseProcs _ _ := rfl
  probes _ _ := rfl

end Ledger

/-! ## Writes -/

/-- The write took effect. -/
def Written.applied : Written → Bool
  | .done => true
  | .failed _ applied => applied

section Rules
variable {σ H : Type} {w : World σ} {record : σ → H} {P Q E : Books × H → Prop}

/-- The ledger after a write that was asked for, with the specs then stored. -/
def State.wrote (w : World σ) (record : σ → H) (change : Write) (d : State σ) (store : SpecStore) : Books × H :=
  ({ d.books with store := store }, record (w.write change d.outer).2)

theorem storeWrite_rule {change : Write} {f : SpecStore → SpecStore}
    (hdone : ∀ d : State σ, P (d.ledger record) → (w.write change d.outer).1 = .done →
      Q (d.wrote w record change (f d.store)))
    (happlied : ∀ (d : State σ) e, P (d.ledger record) → (w.write change d.outer).1 = .failed e true →
      E (d.wrote w record change (f d.store)))
    (hnot : ∀ d : State σ, P (d.ledger record) → (w.write change d.outer).1.applied = false →
      E (d.wrote w record change d.store)) :
    Eff.Triple (fun d => P (d.ledger record)) (storeWrite w change f) (fun _ d => Q (d.ledger record))
      fun _ d => E (d.ledger record) := by
  intro d hd
  have hdone := hdone d hd
  have happlied (e : Error) := happlied d e hd
  have hnot := hnot d hd
  unfold storeWrite
  have hask : ask (w.write change) d = (.ok (w.write change d.outer).1,
    { d with outer := (w.write change d.outer).2 }) :=
    rfl
  rw [Eff.bind_of_ok hask]
  rcases hr : (w.write change d.outer).1 with _ | ⟨e, _ | _⟩
  · exact hdone hr
  · exact hnot (by rw [hr]; rfl)
  · exact happlied e hr

theorem storeUpdate_rule {t : Spec}
    (happlied : ∀ d : State σ, P (d.ledger record) → d.store.contains t.id = true →
      (w.write (.update t) d.outer).1.applied = true → P (d.wrote w record (.update t) (d.store.put t)))
    (hnot : ∀ d : State σ, P (d.ledger record) → (w.write (.update t) d.outer).1.applied = false →
      P (d.wrote w record (.update t) d.store)) :
    Leads (State.ledger record) P P (storeUpdate w t) := by
  unfold storeUpdate
  refine Leads.get_bind fun d hd => ?_
  split
  · rename_i hthere
    have hstore {d' : State σ} (hd' : d'.ledger record = d.ledger record) : d'.store = d.store :=
      congrArg (fun l => l.1.store) hd'
    refine storeWrite_rule (P := fun l => l = d.ledger record) (Q := P) (E := P) (fun d' hd' hdone => ?_)
      (fun d' e hd' happly => ?_) fun d' hd' hleft => ?_
    · refine happlied d' (hd' ▸ hd) (hstore hd' ▸ hthere) ?_
      rw [hdone]
      rfl
    · refine happlied d' (hd' ▸ hd) (hstore hd' ▸ hthere) ?_
      rw [happly]
      rfl
    · exact hnot d' (hd' ▸ hd) hleft
  · exact Leads.throw _ fun l hl => hl ▸ hd

theorem storeCreate_rule {t : Spec} (ho : Overlooks w (State.ledger record)) (hPE : ∀ l, P l → E l)
    (hdone : ∀ d : State σ, P (d.ledger record) → d.store.contains t.id = false →
      (w.write (.create t) d.outer).1 = .done → Q (d.wrote w record (.create t) (d.store.put t)))
    (happlied : ∀ (d : State σ) e, P (d.ledger record) → d.store.contains t.id = false →
      (w.write (.create t) d.outer).1 = .failed e true → E (d.wrote w record (.create t) (d.store.put t)))
    (hnot : ∀ d : State σ, P (d.ledger record) → (w.write (.create t) d.outer).1.applied = false →
      E (d.wrote w record (.create t) d.store)) :
    Eff.Triple (fun d => P (d.ledger record)) (storeCreate w t) (fun _ d => Q (d.ledger record))
      fun _ d => E (d.ledger record) := by
  unfold storeCreate
  refine Eff.Triple.get_bind fun d hd => ?_
  split
  · exact Eff.Triple.throw fun d' hd' => hd' ▸ hPE _ hd
  rename_i hnew
  let Free (l : Books × H) : Prop := P l ∧ l.1.store.contains t.id = false
  have hfree : Free (d.ledger record) := ⟨hd, by simpa [State.ledger, State.books] using hnew⟩
  have hFE (l : Books × H) (hl : Free l) : E l := hPE l hl.1
  have hwrite (all : List Spec) : Eff.Triple (fun d => Free (d.ledger record))
      (if all.any fun s => s.name == t.name then Eff.throw (.conflict s!"name {t.name} is already in use")
        else storeWrite w (.create t) fun s => s.put t)
      (fun _ d => Q (d.ledger record)) fun _ d => E (d.ledger record) := by
    split
    · exact Eff.Triple.throw fun d hd => hFE _ hd
    · exact storeWrite_rule (fun d hd => hdone d hd.1 hd.2) (fun d e hd => happlied d e hd.1 hd.2) fun d hd =>
        hnot d hd.1
  refine Eff.Triple.pre (P := fun d => Free (d.ledger record)) ?_ fun d' hd' => hd' ▸ hfree
  dsimp only
  split
  · exact Quiet.first (Quiet.pure _) hFE hwrite
  · exact Quiet.first (quiet_loadAll ho) hFE hwrite

theorem storeRemove_rule {id : ContainerId} (hmissing : ∀ l, P l → l.1.store.contains id = false → E l)
    (hdone : ∀ d : State σ, P (d.ledger record) → d.store.contains id = true →
      (w.write (.remove id) d.outer).1 = .done → Q (d.wrote w record (.remove id) (d.store.erase id)))
    (happlied : ∀ (d : State σ) e, P (d.ledger record) → d.store.contains id = true →
      (w.write (.remove id) d.outer).1 = .failed e true → E (d.wrote w record (.remove id) (d.store.erase id)))
    (hnot : ∀ d : State σ, P (d.ledger record) → (w.write (.remove id) d.outer).1.applied = false →
      E (d.wrote w record (.remove id) d.store)) :
    Eff.Triple (fun d => P (d.ledger record)) (storeRemove w id) (fun _ d => Q (d.ledger record))
      fun _ d => E (d.ledger record) := by
  unfold storeRemove
  refine Eff.Triple.get_bind fun d hd => ?_
  split
  · rename_i hthere
    have hwrite : Eff.Triple (fun d => P (d.ledger record) ∧ (d.ledger record).1.store.contains id = true)
        (storeWrite w (.remove id) fun s => s.erase id) (fun _ d => Q (d.ledger record))
        fun _ d => E (d.ledger record) :=
      storeWrite_rule (P := fun l => P l ∧ l.1.store.contains id = true) (fun d hd => hdone d hd.1 hd.2)
        (fun d e hd => happlied d e hd.1 hd.2) fun d hd => hnot d hd.1
    exact Eff.Triple.pre hwrite fun d' hd' => hd' ▸ ⟨hd, hthere⟩
  · rename_i hgone
    exact Eff.Triple.throw fun d' hd' => hd' ▸ hmissing _ hd (by simpa [State.ledger, State.books] using hgone)

/-! ## Launching -/

/-- The address `a` is assigned to the container. -/
def Assigns (spec : Spec) (ipam : Ipam) (a : Ipv4Addr) (ipam' : Ipam) : Prop :=
  spec.net.addr = some a ∧ ipam.reserve a spec.id.display = .ok ipam' ∨
    spec.net.addr = none ∧ ipam.allocate spec.id.display = .ok (a, ipam')

theorem assignAddress_rule {spec : Spec} {Q : Ipv4Addr → Books × H → Prop}
    (hQ : ∀ b r a ipam, P (b, r) → Assigns spec b.ipam a ipam → Q a ({ b with ipam := ipam }, r)) :
    Eff.Triple (fun d : State σ => P (d.ledger record)) (assignAddress spec) (fun a d => Q a (d.ledger record))
      fun _ d => P (d.ledger record) := by
  intro d hd
  unfold assignAddress
  rw [Eff.get_bind_apply]
  cases ha : spec.net.addr with
  | some a =>
    dsimp only
    rcases hr : d.ipam.reserve a spec.id.display with e | ipam
    · exact hd
    · exact hQ d.books _ a ipam hd (.inl ⟨ha, hr⟩)
  | none =>
    dsimp only
    rcases hr : d.ipam.allocate spec.id.display with e | ⟨a, ipam⟩
    · exact hd
    · exact hQ d.books _ a ipam hd (.inr ⟨ha, hr⟩)

/-- A spec that `launch` stores for the container at `a`. -/
def Running (spec : Spec) (a : Ipv4Addr) (t : Spec) : Prop :=
  t = placedAt spec a ∨ t = { placedAt spec a with exitStatus := none }

variable (h : Records w record)
include h

/-- Everything up to a process: `Q a` holds from when the container has its address `a`. -/
theorem prepareLaunch_rule {spec : Spec} {Q : Ipv4Addr → Books × H → Prop} (hPE : ∀ l, P l → E l)
    (hQE : ∀ a l, Q a l → E l)
    (hassign : ∀ b r a ipam, P (b, r) → Assigns spec b.ipam a ipam → Q a ({ b with ipam := ipam }, r))
    (hupdate : ∀ a t, Running spec a t → Leads (State.ledger record) (Q a) (Q a) (storeUpdate w t)) :
    Eff.Triple (fun d => P (d.ledger record)) (prepareLaunch w spec) (fun r d => Q r.1 (d.ledger record))
      fun _ d => E (d.ledger record) := by
  have ho := h.overlooks
  unfold prepareLaunch
  refine Quiet.first (quiet_prepareRoot ho spec) hPE fun _ => ?_
  have hplace : Eff.Triple (fun d : State σ => P (d.ledger record)) (place w spec) (fun a d => Q a (d.ledger record))
      fun _ d => E (d.ledger record) := by
    have hassigned := Eff.Triple.conseq (assignAddress_rule (σ := σ) hassign) (fun _ hd => hd)
      (fun _ _ hd => hd) fun _ d => hPE (d.ledger record)
    refine Eff.Triple.bind hassigned fun a => ?_
    have hhosts : Eff.Triple (fun d => Q a (d.ledger record)) (act w (.writeHostFiles spec.id a) >>= fun _ => pure a)
        (fun a d => Q a (d.ledger record)) fun _ d => E (d.ledger record) :=
      Quiet.first (quiet_act ho _ rfl) (hQE a) fun _ => Eff.Triple.pure fun _ hd => hd
    split
    · have hput := Eff.Triple.conseq (hupdate a _ (.inl rfl)) (fun _ hd => hd) (fun _ _ hd => hd)
        fun _ d => hQE a (d.ledger record)
      exact Eff.Triple.bind hput fun _ => hhosts
    · exact hhosts
  refine Eff.Triple.bind hplace fun a => ?_
  refine Quiet.first (Quiet.forM _ (quiet_prepareMount ho _ _)) (hQE a) fun _ => ?_
  refine Quiet.first (quiet_act ho _ rfl) (hQE a) fun _ => Quiet.first Quiet.get (hQE a) fun d => ?_
  refine Quiet.first (Quiet.lift _) (hQE a) fun _ => ?_
  refine Silent.first (Overlooks.quiet_outside (ho.spawn _)).attempt fun r => ?_
  cases r with
  | ok pid => exact Eff.Triple.pure fun _ hd => hd
  | error e =>
    exact Silent.first (silent_cleanupRuntime ho _) fun _ => Eff.Triple.throw fun d => hQE a (d.ledger record)

theorem enter_rule {spec : Spec} {pid : ℤ} {tok : ℕ} {child : Bool}
    (hQ : ∀ b r, P (b, r) → Q ({ b with live := b.live.insert spec.id spec }, r)) :
    Surely (State.ledger record) P Q (enter w spec pid tok child) := by
  have hnow := silent_instantNow h.overlooks P
  unfold enter
  refine hnow.bind fun started => hnow.bind fun lastCheck => hnow.bind fun lastActivity => Surely.modify fun d hd => ?_
  have hlive := OrdMap.mapValues_insert (fun _ l => l.spec) d.live spec.id
    { spec, pid, token := tok, child, started, tracker := spec.healthcheck.map fun h => HealthTracker.new h.retries,
      lastCheck, lastActivity }
  show Q ({ d.books with live := _ }, _)
  rw [hlive]
  exact hQ d.books _ hd

theorem scheduleIdleReap_rule {id : ContainerId} {t : Option UInt64}
    (hQ : ∀ b r later, (later = [] ∨ later = [.reapIdle id]) → P (b, r) →
      Q ({ b with schedule := b.schedule ++ later }, r)) :
    Surely (State.ledger record) P Q (scheduleIdleReap w id t) := by
  cases t with
  | none =>
    refine Eff.Triple.pure fun d hd => ?_
    have hsame := hQ d.books _ [] (.inl rfl) hd
    rw [List.append_nil] at hsame
    exact hsame
  | some t =>
    refine (silent_instantNow h.overlooks P).bind fun now => Surely.modify fun d hd => ?_
    have hpushed := hQ d.books _ [.reapIdle id] (.inr rfl) hd
    have hschedule : (d.schedule ++ [(now + secs (max t 1), Task.reapIdle id)]).map Prod.snd =
        d.books.schedule ++ [.reapIdle id] := List.map_append
    show Q ({ d.books with schedule := _ }, _)
    rw [hschedule]
    exact hpushed

/-- Launching: `Q a` holds from when the container has its address `a` until it is live. -/
theorem launch_rule {spec : Spec} {Q : Ipv4Addr → Books × H → Prop} {R : Books × H → Prop} (hPE : ∀ l, P l → E l)
    (hQE : ∀ a l, Q a l → E l)
    (hassign : ∀ b r a ipam, P (b, r) → Assigns spec b.ipam a ipam → Q a ({ b with ipam := ipam }, r))
    (hupdate : ∀ a t, Running spec a t → Leads (State.ledger record) (Q a) (Q a) (storeUpdate w t))
    (henter : ∀ a b r later, (later = [] ∨ later = [.reapIdle spec.id]) → Q a (b, r) →
      R ({ b with live := b.live.insert spec.id { placedAt spec a with exitStatus := none }
                  schedule := b.schedule ++ later }, r)) :
    Eff.Triple (fun d => P (d.ledger record)) (launch w spec) (fun _ d => R (d.ledger record))
      fun _ d => E (d.ledger record) := by
  have ho := h.overlooks
  unfold launch
  refine Silent.first (Silent.modify fun _ => rfl) fun _ => ?_
  refine Eff.Triple.bind (prepareLaunch_rule h hPE hQE hassign hupdate) fun (a, pid) => ?_
  refine Silent.first (silent_token ho) fun tok => Quiet.first (quiet_act ho _ rfl) (hQE a) fun _ => ?_
  refine Silent.first (Silent.modify fun _ => rfl) fun _ => Silent.first (silent_tryAct ho _ rfl) fun _ => ?_
  refine Surely.first (Leads.attempt (hupdate a _ (.inr rfl))) fun _ => ?_
  -- From here nothing fails.
  let Entered (l : Books × H) : Prop := ∃ b, Q a (b, l.2) ∧
    l.1 = { b with live := b.live.insert spec.id { placedAt spec a with exitStatus := none } }
  refine Surely.first (enter_rule h (Q := Entered) fun b r hb => ⟨b, hb, rfl⟩) fun _ => ?_
  refine Surely.first (scheduleIdleReap_rule h (P := Entered) (Q := R) ?_) fun _ => ?_
  · rintro b' r later hlater ⟨b, hb, hentered⟩
    dsimp only at hentered
    subst hentered
    exact henter a b r later hlater hb
  · exact Eff.Triple.modify fun _ hd => hd

/-! ## Ending -/

theorem silent_answer (id : ContainerId) (code : ℤ) (waiter : Waiter) :
    Silent (State.ledger record) (answer w id code waiter) := by
  unfold answer
  cases waiter.kind with
  | wait => exact silent_send h.overlooks _ _
  | stop => exact Silent.modify_bind (fun _ => rfl) fun _ => silent_send h.overlooks _ _

/-- What the end of a container leaves on the schedule. -/
def Aftermath (id : ContainerId) (spec : Spec) (later : List Task) : Prop :=
  later = [.relaunch id] ∨ later = [.removeExited id] ∨ later = [] ∧ spec.persistent = true

theorem afterExit_rule {id : ContainerId} {spec : Spec} {code : ℤ}
    (hQ : ∀ b r later, P (b, r) → Aftermath id spec later → Q ({ b with schedule := b.schedule ++ later }, r)) :
    Surely (State.ledger record) P Q (afterExit w id spec code) := by
  have hnow := silent_instantNow h.overlooks P
  have hpush (t : Task) (ht : Aftermath id spec [t]) (at' : Instant) : Surely (State.ledger record) P Q
      (Eff.modify fun d => { d with schedule := d.schedule ++ [(at', t)] } : Op σ Unit) := by
    refine Surely.modify fun d hd => ?_
    have hpushed := hQ d.books _ [t] hd ht
    have hschedule : (d.schedule ++ [(at', t)]).map Prod.snd = d.books.schedule ++ [t] := List.map_append
    show Q ({ d.books with schedule := _ }, _)
    rw [hschedule]
    exact hpushed
  unfold afterExit
  refine Surely.peek fun d => Surely.bind (Surely.modify fun _ hd => hd) fun _ => ?_
  split
  · refine Surely.bind (Surely.modify fun _ hd => hd) fun _ => hnow.bind fun now => ?_
    exact hpush _ (.inl rfl) _
  · split
    · exact hnow.bind fun now => hpush _ (.inr (.inl rfl)) _
    · rename_i hpersistent
      refine Eff.Triple.pure fun d hd => ?_
      have hsame := hQ d.books _ [] hd (.inr (.inr ⟨rfl, by simpa using hpersistent⟩))
      rw [List.append_nil] at hsame
      exact hsame

/-- Ending: `G spec` holds while the container is off the live ones and its end is not settled. -/
theorem onExit_rule {id : ContainerId} {code : Option ℤ} {G : Spec → Books × H → Prop}
    (hnone : ∀ l, P l → l.1.live.get? id = none → Q l)
    (hgone : ∀ b r spec, P (b, r) → b.live.get? id = some spec → G spec ({ b with live := b.live.erase id }, r))
    (hupdate : ∀ spec code, Leads (State.ledger record) (G spec) (G spec)
      (storeUpdate w { spec with exitStatus := some code }))
    (hlater : ∀ spec b r later, G spec (b, r) → Aftermath id spec later →
      Q ({ b with schedule := b.schedule ++ later }, r)) :
    Surely (State.ledger record) P Q (onExit w id code) := by
  have ho := h.overlooks
  unfold onExit
  refine Surely.get_bind fun d hd => ?_
  split
  · rename_i hlive
    refine Eff.Triple.pure fun d' hd' => hnone _ (hd' ▸ hd) ?_
    rw [hd']
    simp [State.ledger, State.books, hlive]
  rename_i l hl
  have hspec : d.books.live.get? id = some l.spec := by simp [State.books, hl]
  refine Surely.bind (Q := G l.spec) (Surely.modify fun d' hd' => ?_) fun _ => ?_
  · have hbooks : d'.books = d.books := congrArg Prod.fst hd'
    have hgone := hgone _ _ l.spec (show P (d'.books, _) from hd' ▸ hd) (hbooks ▸ hspec)
    show G l.spec ({ d'.books with live := _ }, _)
    rw [OrdMap.mapValues_erase]
    exact hgone
  refine (silent_tryAct ho _ rfl _).bind fun _ => Surely.bind (Leads.attempt (hupdate _ _)) fun _ => ?_
  refine (silent_cleanupRuntime ho id _).bind fun _ => (silent_instantNow ho _).bind fun now => ?_
  have hend : Surely (State.ledger record) (G l.spec) Q (do
      l.waiters.forM (answer w id (code.getD (-1)))
      afterExit w id l.spec (code.getD (-1))
      Eff.modify fun d => { d with fwDirty := true }) := by
    refine (Silent.forM _ (silent_answer h id _) _).bind fun _ => ?_
    exact (afterExit_rule h (hlater l.spec)).bind fun _ => Surely.modify fun _ hd => hd
  refine Surely.bind (Q := G l.spec) (Surely.modify fun _ hd => hd) fun _ => ?_
  split
  · exact Surely.bind (Surely.modify fun _ hd => hd) fun _ => hend
  · exact hend

theorem purge_rule {id : ContainerId} {R : Books × H → Prop}
    (hremove : Eff.Triple (fun d => P (d.ledger record)) (storeRemove w id) (fun _ d => Q (d.ledger record))
      fun _ d => E (d.ledger record))
    (hrelease : ∀ b r, Q (b, r) → R ({ b with ipam := b.ipam.release id.display }, r)) :
    Eff.Triple (fun d => P (d.ledger record)) (purge w id) (fun _ d => R (d.ledger record))
      fun _ d => E (d.ledger record) := by
  unfold purge
  refine Eff.Triple.bind hremove fun _ => Silent.first (silent_tryAct h.overlooks _ rfl) fun _ => ?_
  refine Surely.first (Q := R) (Surely.modify fun d hd => hrelease d.books _ hd) fun _ => ?_
  exact Eff.Triple.conseq (silent_removeRuntimeDirs h.overlooks id R) (fun _ hd => hd) (fun _ _ hd => hd)
    fun _ _ hd => hd.elim

/-! ## Running -/

theorem loadAll_rule :
    Eff.Triple (fun d => P (d.ledger record)) (loadAll w)
      (fun specs d => P (d.ledger record) ∧ specs = (d.ledger record).1.store.specs.values.insertionSort earlier)
      fun _ d => P (d.ledger record) := by
  refine Quiet.first (quiet_act h.overlooks _ rfl) (fun _ hl => hl) fun _ => Eff.Triple.get_bind fun d hd => ?_
  refine Eff.Triple.pure fun d' hd' => ?_
  subst hd'
  exact ⟨hd, rfl⟩

theorem storeGet_rule (id : ContainerId) :
    Eff.Triple (fun d => P (d.ledger record)) (storeGet w id)
      (fun spec d => P (d.ledger record) ∧ (d.ledger record).1.store.get? id = some spec ∧ spec.id = id)
      fun _ d => P (d.ledger record) := by
  unfold storeGet
  refine Eff.Triple.get_bind fun d hd => ?_
  split
  · exact Eff.Triple.throw fun d' hd' => hd' ▸ hd
  · rename_i spec hspec
    let Same (l : Books × H) : Prop := P l ∧ l.1.store = d.store
    refine Eff.Triple.pre (P := fun d => Same (d.ledger record)) ?_ fun d' hd' => hd' ▸ ⟨hd, rfl⟩
    refine Quiet.first (quiet_act h.overlooks _ rfl) (fun _ hl => hl.1) fun _ => Eff.Triple.pure fun d' hd' => ?_
    exact ⟨hd'.1, by rw [hd'.2]; exact hspec, d.store.keyed id spec hspec⟩

/-- The spec that a `Run` stores is the one of the request but for its name, limits and root. -/
def Derived (spec t : Spec) : Prop :=
  t.id = spec.id ∧ t.net = spec.net ∧ t.labels = spec.labels ∧ t.persistent = spec.persistent

omit h in
theorem derived_of_named (spec : Spec) (limits : Limits) (root : RootSource) :
    Derived spec { named spec with limits, root } := by
  unfold named
  split <;> exact ⟨rfl, rfl, rfl, rfl⟩

theorem opRun_rule {spec : Spec} {R : Books × H → Prop} (Stored Failed : Spec → Books × H → Prop) (hPR : ∀ l, P l → R l)
    (hcreate : ∀ t, Derived spec t → Eff.Triple (fun d => P (d.ledger record)) (storeCreate w t)
      (fun _ d => Stored t (d.ledger record)) fun _ d => R (d.ledger record))
    (hlaunch : ∀ t, Derived spec t → Eff.Triple (fun d => Stored t (d.ledger record)) (launch w t)
      (fun _ d => R (d.ledger record)) fun _ d => Failed t (d.ledger record))
    (hpurge : ∀ t, Derived spec t → Leads (State.ledger record) (Failed t) R (purge w t.id)) :
    Leads (State.ledger record) P R (opRun w spec) := by
  have ho := h.overlooks
  unfold opRun
  refine Silent.first (Silent.modify fun _ => rfl) fun _ => Quiet.first Quiet.get hPR fun d => ?_
  refine Quiet.first (Quiet.lift _) hPR fun limits => Quiet.first (Quiet.lift _) hPR fun _ => ?_
  refine Quiet.first (quiet_pinned ho _) hPR fun root => ?_
  have hderived := derived_of_named spec limits root
  generalize { named spec with limits, root } = t at hderived ⊢
  have hfailed (e : Error) : Leads (State.ledger record) (Failed t) R (do
      let _ ← Eff.attempt (purge w t.id)
      Eff.throw e : Op σ ContainerId) :=
    Leads.bind_sure (Leads.attempt (hpurge t hderived)) fun _ => Leads.throw e fun _ hl => hl
  refine Eff.Triple.bind (hcreate t hderived) fun _ d hd => ?_
  have hend := hlaunch t hderived d hd
  rcases hr : launch w t d with ⟨e | _, d'⟩
  · rw [hr] at hend
    rw [Eff.bind_of_ok (Eff.attempt_of hr)]
    exact hfailed e d' hend
  · rw [hr] at hend
    rw [Eff.bind_of_ok (Eff.attempt_of hr)]
    exact hend

end Rules
end Collocate.Daemon
