import Collocate.Daemon.Refine

/-! # Deadlines

The daemon adds times that clients give to the clock. Such a sum must stay below the last moment an
`Instant` can name: the standard library panics otherwise, and a release build ends on a panic. -/
namespace Collocate.Daemon
set_option autoImplicit false

/-! ## Times that fit -/

/-- The first moment past all an `Instant` can name, whose seconds are a signed 64-bit number. -/
def instantLimit : ℕ := 2 ^ 63 * 10 ^ 9

/-- What the clock reads at most, the longest drain of a load balancer and the longest other time, which
together fit; the daemon's own times come to a minute at most. -/
structure Bounds where
  clock : ℕ
  drain : ℕ
  grace : ℕ
  fits : clock + drain + grace < instantLimit
  minute : clock + secs 60 < instantLimit

namespace Bounds

/-- The times of the spec are no longer than the bound. -/
structure Allows (b : Bounds) (spec : Spec) : Prop where
  idle : ∀ t, spec.idleTimeoutSecs = some t → secs t ≤ b.grace
  stop : secs spec.process.stopTimeoutSecs ≤ b.grace
  probe : ∀ hc, spec.healthcheck = some hc → secs hc.timeoutSecs ≤ b.grace

/-- The times of the request, or of what it asks to run, are no longer than the bounds. -/
def Asked (b : Bounds) : Request → Prop
  | .run spec => b.Allows spec
  | .stop _ timeoutSecs => ∀ t, timeoutSecs = some t → secs t ≤ b.grace
  | .exec _ _ _ _ _ _ timeoutSecs _ => ∀ t, timeoutSecs = some t → secs t ≤ b.grace
  | .execProbe _ _ timeoutSecs => secs timeoutSecs ≤ b.grace
  | .lbSet lb => secs lb.drainSecs ≤ b.drain
  | .as _ request => b.Asked request
  | _ => True

def Meets (b : Bounds) : Event → Prop
  | .request _ request => b.Asked request
  | _ => True

/-- A time of at least a second fits on top of the clock. -/
theorem fits_max (b : Bounds) {now : ℕ} {t : UInt64} (hnow : now ≤ b.clock) (ht : secs t ≤ b.grace) :
    now + secs (max t 1) < instantLimit := by
  have hfits := b.fits
  have hminute := b.minute
  have hsecs : secs (max t 1) = secs t ∨ secs (max t 1) = 10 ^ 9 := by
    by_cases h : t ≤ 1
    · exact .inr (congrArg secs (if_pos h))
    · exact .inl (congrArg secs (if_neg h))
  have hlong : secs 60 = 60 * 10 ^ 9 := rfl
  rcases hsecs with h | h <;> rw [h] <;> omega

/-- One of the daemon's own times fits on top of the clock. -/
theorem fits_minute (b : Bounds) {now delay : ℕ} (hnow : now ≤ b.clock) (hdelay : delay ≤ secs 60) :
    now + delay < instantLimit := by
  have hminute := b.minute
  omega

end Bounds

theorem restartDelay_le (attempt : UInt32) : restartDelay attempt ≤ secs 60 := by
  unfold restartDelay
  split
  · exact Nat.le_refl _
  · exact Nat.min_le_right _ _

theorem Bounds.Allows.named {b : Bounds} {spec : Spec} (h : b.Allows spec) : b.Allows (named spec) := by
  unfold Daemon.named
  dsimp only
  split
  · exact ⟨h.idle, h.stop, h.probe⟩
  · exact h

/-! ## What deadlines are computed from -/

structure Sources where
  store : SpecStore
  live : OrdMap ContainerId Live
  lbs : OrdMap String LbSpec
  sums : List Instant

def State.sources {σ : Type} (d : State σ) : Sources := ⟨d.store, d.live, d.lbs, d.sums⟩

/-- Every sum so far fits, and what later ones are computed from is within the bounds. -/
structure Fits (b : Bounds) (s : Sources) : Prop where
  stored : ∀ id spec, s.store.get? id = some spec → b.Allows spec
  live : ∀ id l, s.live.get? id = some l → b.Allows l.spec
  drain : ∀ key lb, s.lbs.get? key = some lb → secs lb.drainSecs ≤ b.drain
  sums : ∀ t ∈ s.sums, t < instantLimit

section Sources
variable {b : Bounds} {s : Sources}

theorem Fits.put (h : Fits b s) {spec : Spec} (hspec : b.Allows spec) :
    Fits b { s with store := s.store.put spec } where
  stored id found hfound := by
    rw [SpecStore.get?_put] at hfound
    split at hfound
    · cases hfound
      exact hspec
    · exact h.stored id found hfound
  live := h.live
  drain := h.drain
  sums := h.sums

theorem Fits.unput (h : Fits b s) (id : ContainerId) : Fits b { s with store := s.store.erase id } where
  stored id' found hfound := by
    rw [SpecStore.get?_erase] at hfound
    split at hfound
    · cases hfound
    · exact h.stored id' found hfound
  live := h.live
  drain := h.drain
  sums := h.sums

theorem Fits.enter (h : Fits b s) {l : Live} (hl : b.Allows l.spec) (id : ContainerId) :
    Fits b { s with live := s.live.insert id l } where
  stored := h.stored
  live id' found hfound := by
    rw [OrdMap.get?_insert] at hfound
    split at hfound
    · cases hfound
      exact hl
    · exact h.live id' found hfound
  drain := h.drain
  sums := h.sums

theorem Fits.leave (h : Fits b s) (id : ContainerId) : Fits b { s with live := s.live.erase id } where
  stored := h.stored
  live id' found hfound := by
    rw [OrdMap.get?_erase] at hfound
    split at hfound
    · cases hfound
    · exact h.live id' found hfound
  drain := h.drain
  sums := h.sums

theorem Fits.balance (h : Fits b s) {lb : LbSpec} (hlb : secs lb.drainSecs ≤ b.drain) (key : String) :
    Fits b { s with lbs := s.lbs.insert key lb } where
  stored := h.stored
  live := h.live
  drain key' found hfound := by
    rw [OrdMap.get?_insert] at hfound
    split at hfound
    · cases hfound
      exact hlb
    · exact h.drain key' found hfound
  sums := h.sums

theorem Fits.unbalance (h : Fits b s) (key : String) : Fits b { s with lbs := s.lbs.erase key } where
  stored := h.stored
  live := h.live
  drain key' found hfound := by
    rw [OrdMap.get?_erase] at hfound
    split at hfound
    · cases hfound
    · exact h.drain key' found hfound
  sums := h.sums

theorem Fits.sum (h : Fits b s) {t : Instant} (ht : t < instantLimit) : Fits b { s with sums := s.sums ++ [t] } where
  stored := h.stored
  live := h.live
  drain := h.drain
  sums t' hmem := by
    rcases List.mem_append.mp hmem with hold | hnew
    · exact h.sums t' hold
    · rw [List.mem_singleton.mp hnew]
      exact ht

/-- The longest drain of a service is that of one of the load balancers, or none. -/
theorem Fits.drainFor (h : Fits b s) (spec : Spec) : drainFor s.lbs spec ≤ b.drain := by
  have hmax (times : List ℕ) (hle : ∀ t ∈ times, t ≤ b.drain) (start : ℕ) (hstart : start ≤ b.drain) :
      times.foldl max start ≤ b.drain := by
    induction times generalizing start with
    | nil => exact hstart
    | cons t times ih =>
      exact ih (fun t' h => hle t' (List.mem_cons_of_mem _ h)) _ (Nat.max_le.mpr ⟨hstart, hle t List.mem_cons_self⟩)
  refine hmax _ (fun t ht => ?_) 0 (Nat.zero_le _)
  obtain ⟨lb, hlb, rfl⟩ := List.mem_map.mp ht
  obtain ⟨⟨key, lb⟩, hentry, rfl⟩ := List.mem_map.mp (List.mem_filter.mp hlb).1
  exact h.drain key lb (OrdMap.get?_eq_some.mpr hentry)

end Sources

/-! ## Programs -/

/-- The program leaves every sum fitting. -/
abbrev Within {σ α : Type} (b : Bounds) (m : Op σ α) : Prop := Leads State.sources (Fits b) (Fits b) m

theorem sources_overlook {σ : Type} (w : World σ) : Overlooks w (State.sources (σ := σ)) where
  now _ := rfl
  act _ _ _ := rfl
  lowers _ _ := rfl
  spawn _ _ := rfl
  wait _ _ := rfl
  stats _ _ := rfl
  serve _ _ _ := rfl
  token _ _ := rfl
  conns _ _ := rfl
  fuseProcs _ _ := rfl
  probes _ _ := rfl

section Programs
variable {σ α : Type} {w : World σ} {b : Bounds}

theorem within_pure (a : α) : Within b (pure a : Op σ α) := Leads.pure a fun _ h => h

theorem within_throw (e : Error) : Within b (Eff.throw e : Op σ α) := Leads.throw e fun _ h => h

theorem within_outside (m : Prog σ α) : Within b (outside m) :=
  (Overlooks.quiet_outside (fun _ => rfl) : Quiet State.sources (outside m)) _

theorem Within.then {β : Type} {m : Op σ α} {f : α → Op σ β} (hm : Quiet State.sources m) (hf : ∀ a, Within b (f a)) :
    Within b (m >>= f) :=
  Leads.bind_quiet hm (fun _ h => h) hf

theorem Within.modify_bind {f : State σ → State σ} {g : Unit → Op σ α}
    (hf : ∀ d : State σ, Fits b d.sources → Fits b (f d).sources)
    (hg : ∀ u, Within b (g u)) : Within b (Eff.modify f >>= g) :=
  Leads.modify_bind hf hg

theorem Within.tried {β : Type} {m : Op σ α} {f : Result α → Op σ β} (hm : Within b m) (hf : ∀ r, Within b (f r)) :
    Within b (Eff.attempt m >>= f) :=
  Leads.bind_sure hm.attempt hf

theorem quiet_sources_act (a : Act) : Quiet State.sources (act w a) := Overlooks.quiet_outside fun _ => rfl

theorem quiet_sources_try (a : Act) : Quiet State.sources (tryAct w a) :=
  ((quiet_sources_act a).attempt.bind fun _ => Silent.pure _).quiet

/-- A sum that fits. -/
theorem within_addTo {now : Instant} {delay : ℕ} (hsum : now + delay < instantLimit) {f : Instant → Op σ α}
    (hf : Within b (f (now + delay))) : Within b (addTo now delay >>= f) :=
  Within.modify_bind (f := fun d => { d with sums := d.sums ++ [now + delay] }) (fun _ hd => hd.sum hsum) fun _ => hf

/-! ### Stored specs -/

theorem within_storeWrite {change : Write} {f : SpecStore → SpecStore}
    (hf : ∀ s : Sources, Fits b s → Fits b { s with store := f s.store }) : Within b (storeWrite w change f) := by
  refine Within.then (Overlooks.silent_ask fun _ => rfl).quiet fun r => ?_
  cases r with
  | done => exact Leads.modify fun d hd => hf d.sources hd
  | failed e applied =>
    cases applied
    · exact within_throw e
    · exact Within.modify_bind (fun d hd => hf d.sources hd) fun _ => within_throw e

theorem within_storeCreate {spec : Spec} (hspec : b.Allows spec) : Within b (storeCreate w spec) := by
  have hput : Within b (storeWrite w (.create spec) fun s => s.put spec) := within_storeWrite fun s hs => hs.put hspec
  refine Leads.peek fun d => Leads.ite (within_throw _) ?_
  dsimp only
  split
  · exact Within.then (Quiet.pure _) fun _ => Leads.ite (within_throw _) hput
  · exact Within.then (quiet_loadAll (sources_overlook w)) fun _ => Leads.ite (within_throw _) hput

theorem within_storeUpdate {spec : Spec} (hspec : b.Allows spec) : Within b (storeUpdate w spec) :=
  Leads.peek fun _ => Leads.ite (within_storeWrite fun _ hs => hs.put hspec) (within_throw _)

theorem within_storeRemove (id : ContainerId) : Within b (storeRemove w id) :=
  Leads.peek fun _ => Leads.ite (within_storeWrite fun _ hs => hs.unput id) (within_throw _)

/-- What is read from the store is within the bounds. -/
theorem storeGet_within (id : ContainerId) : Eff.Triple (fun d : State σ => Fits b d.sources) (storeGet w id)
    (fun spec d => b.Allows spec ∧ Fits b d.sources) fun _ d => Fits b d.sources := by
  refine Eff.Triple.get_bind fun d hd => Eff.Triple.pre (P := fun d : State σ => Fits b d.sources) ?_ fun d' hd' =>
    hd' ▸ hd
  split
  · exact Eff.Triple.throw fun _ hd' => hd'
  · rename_i spec hspec
    exact Eff.Triple.bind (within_outside _) fun _ => Eff.Triple.pure fun _ hd' => ⟨hd.stored id spec hspec, hd'⟩

theorem within_storeGet {id : ContainerId} {f : Spec → Op σ α} (hf : ∀ spec, b.Allows spec → Within b (f spec)) :
    Within b (storeGet w id >>= f) :=
  Eff.Triple.bind (storeGet_within id) fun spec d hd => hf spec hd.1 d hd.2

theorem within_purge (id : ContainerId) : Within b (purge w id) := by
  refine (within_storeRemove id).bind fun _ => Within.then (quiet_sources_try _) fun _ => ?_
  exact Within.modify_bind (fun _ hd => hd) fun _ => (silent_removeRuntimeDirs (sources_overlook w) id).quiet _

/-! ### Launching -/

theorem quiet_assignAddress_sources (spec : Spec) : Quiet State.sources (assignAddress spec : Op σ Ipv4Addr) := by
  refine Quiet.get_bind fun d => ?_
  split
  · exact (Quiet.lift _).bind fun _ => Quiet.modify_bind (fun _ => rfl) fun _ => Quiet.pure _
  · exact (Quiet.lift _).bind fun _ => Quiet.modify_bind (fun _ => rfl) fun _ => Quiet.pure _

theorem within_place {spec : Spec} (hspec : b.Allows spec) : Within b (place w spec) := by
  have hplaced (addr : Ipv4Addr) : b.Allows (placedAt spec addr) := ⟨hspec.idle, hspec.stop, hspec.probe⟩
  have hhosts (addr : Ipv4Addr) := Within.then (b := b) (quiet_sources_act (w := w) (.writeHostFiles spec.id addr))
    fun _ => within_pure addr
  refine Within.then (quiet_assignAddress_sources spec) fun addr => ?_
  exact Leads.ite ((within_storeUpdate (hplaced addr)).bind fun _ => hhosts addr) (hhosts addr)

theorem within_prepareLaunch {spec : Spec} (hspec : b.Allows spec) : Within b (prepareLaunch w spec) := by
  have ho := sources_overlook w
  refine Within.then (quiet_prepareRoot ho spec) fun _ => (within_place hspec).bind fun addr => ?_
  refine Within.then (Quiet.forM _ (quiet_prepareMount ho _ _)) fun _ => Within.then (quiet_sources_act _) fun _ => ?_
  exact Leads.peek fun d => Within.then (Quiet.lift _) fun _ => quiet_spawn ho spec _ addr _

/-- The clock stays below the bound. -/
def Slow (w : World σ) (b : Bounds) : Prop := ∀ s, (w.now s).1 ≤ b.clock

variable (hclock : Slow w b)
include hclock

theorem within_instantNow {f : Instant → Op σ α} (hf : ∀ now, now ≤ b.clock → Within b (f now)) :
    Within b (instantNow w >>= f) := by
  refine Leads.bind_quiet_result (F := fun now : Instant => now ≤ b.clock)
    (silent_instantNow (sources_overlook w)).quiet
    (fun d now d' hnow => ?_) (fun _ h => h) hf
  cases hnow
  exact hclock d.outer

theorem within_scheduleIdleReap (id : ContainerId) {idle : Option UInt64}
    (hidle : ∀ t, idle = some t → secs t ≤ b.grace) :
    Within b (scheduleIdleReap w id idle) := by
  cases idle with
  | none => exact within_pure _
  | some t =>
    refine within_instantNow hclock fun now hnow => within_addTo (b.fits_max hnow (hidle t rfl)) ?_
    exact Leads.modify fun _ hd => hd

theorem within_enter {spec : Spec} (hspec : b.Allows spec) (pid : ℤ) (token : ℕ) (child : Bool) :
    Within b (enter w spec pid token child) := by
  refine within_instantNow hclock fun started _ => within_instantNow hclock fun lastCheck _ => ?_
  refine within_instantNow hclock fun lastActivity _ => Leads.modify fun d hd => ?_
  exact hd.enter (l := ⟨spec, pid, token, child, started, _, _, _, _, _, lastCheck, lastActivity, _⟩) hspec spec.id

theorem within_launch {spec : Spec} (hspec : b.Allows spec) : Within b (launch w spec) := by
  have ho := sources_overlook w
  refine Within.modify_bind (fun _ hd => hd) fun _ => (within_prepareLaunch hspec).bind fun (addr, pid) => ?_
  have hrunning : b.Allows { placedAt spec addr with exitStatus := none } := ⟨hspec.idle, hspec.stop, hspec.probe⟩
  refine Within.then (silent_token ho).quiet fun tok => Within.then (quiet_sources_act _) fun _ => ?_
  refine Within.modify_bind (fun _ hd => hd) fun _ => Within.then (quiet_sources_try _) fun _ => ?_
  refine Within.tried (within_storeUpdate hrunning) fun _ =>
    (within_enter hclock hrunning pid tok true).bind fun _ => ?_
  exact (within_scheduleIdleReap hclock spec.id hspec.idle).bind fun _ => Leads.modify fun _ hd => hd

/-! ### Ending -/

theorem within_afterExit (id : ContainerId) (spec : Spec) (code : ℤ) : Within b (afterExit w id spec code) := by
  have hlater (delay : ℕ) (hdelay : delay ≤ secs 60) (push : Instant → State σ → State σ)
      (hpush : ∀ time d, (push time d).sources = d.sources) : Within b (do
      let now ← instantNow w
      let time ← addTo now delay
      Eff.modify (push time)) :=
    within_instantNow hclock fun now hnow => within_addTo (b.fits_minute hnow hdelay)
      (Leads.modify fun d hd => by rw [hpush]; exact hd)
  refine Leads.peek fun d => Within.modify_bind (fun _ hd => hd) fun _ => ?_
  split
  · exact Within.modify_bind (fun _ hd => hd) fun _ => hlater _ (restartDelay_le _) _ fun _ _ => rfl
  · exact Leads.ite (hlater _ (by decide) _ fun _ _ => rfl) (within_pure _)

theorem within_onExit (id : ContainerId) (code : Option ℤ) : Within b (onExit w id code) := by
  have ho := sources_overlook w
  refine Leads.look fun d hd => ?_
  split
  · exact within_pure _
  rename_i l hl
  have hspec : b.Allows { l.spec with exitStatus := some (code.getD (-1)) } :=
    ⟨(hd.live id l hl).idle, (hd.live id l hl).stop, (hd.live id l hl).probe⟩
  refine Within.modify_bind (fun _ hd => hd.leave id) fun _ => Within.then (quiet_sources_try _) fun _ => ?_
  refine Within.tried (within_storeUpdate hspec) fun _ => Within.then (silent_cleanupRuntime ho id).quiet fun _ => ?_
  refine within_instantNow hclock fun now _ => ?_
  have hend : Within b (do
      l.waiters.forM (answer w id (code.getD (-1)))
      afterExit w id l.spec (code.getD (-1))
      Eff.modify fun d => { d with fwDirty := true }) := by
    refine (Leads.forM _ fun waiter => ?_).bind fun _ => (within_afterExit hclock id l.spec _).bind fun _ =>
      Leads.modify fun _ hd => hd
    unfold answer
    split
    · exact (silent_send ho _ _).quiet _
    · exact Within.modify_bind (fun _ hd => hd) fun _ => (silent_send ho _ _).quiet _
  refine Within.modify_bind (fun _ hd => hd) fun _ => ?_
  split
  · exact Within.modify_bind (fun _ hd => hd) fun _ => hend
  · exact hend

theorem within_reapLoop (id : ContainerId) (deadline : Instant) (left : ℕ) :
    Within b (reapLoop w id deadline left) := by
  induction left with
  | zero => exact within_onExit hclock id none
  | succ left ih =>
    refine within_instantNow hclock fun now _ => Leads.ite ?_ (within_onExit hclock id none)
    refine Leads.peek fun d => ?_
    split
    · exact within_pure _
    · refine Within.tried (within_outside _) fun r => ?_
      rcases r with e | _ | code
      · exact within_onExit hclock id none
      · exact ih
      · exact within_onExit hclock id (some code)

theorem within_reapBlocking (id : ContainerId) : Within b (reapBlocking w id) :=
  within_instantNow hclock fun _ hnow => within_addTo (b.fits_minute hnow (by decide)) (within_reapLoop hclock id _ _)

theorem within_reapIdle (id : ContainerId) : Within b (reapIdle w id) := by
  have hpurge : Within b (Eff.attempt (purge w id) >>= fun _ => pure ()) :=
    Within.tried (within_purge id) fun _ => within_pure _
  refine Leads.peek fun d => Leads.ite ?_ hpurge
  exact Within.then (quiet_sources_try _) fun _ => (within_reapBlocking hclock id).bind fun _ => hpurge

/-! ### Requests -/

theorem within_opRun {spec : Spec} (hspec : b.Allows spec) : Within b (opRun w spec) := by
  have ho := sources_overlook w
  refine Within.modify_bind (fun _ hd => hd) fun _ => Leads.peek fun d => Within.then (Quiet.lift _) fun limits => ?_
  refine Within.then (Quiet.lift _) fun _ => ?_
  have hpinned : Quiet State.sources (pinned w (named spec).root) := by
    unfold pinned
    split
    · exact Quiet.ite ((quiet_lowers ho _).bind fun _ => Quiet.pure _) (Quiet.pure _)
    · exact Quiet.pure _
  refine Within.then hpinned fun root => ?_
  have hnamed : b.Allows { named spec with limits, root } := ⟨hspec.named.idle, hspec.named.stop, hspec.named.probe⟩
  refine (within_storeCreate hnamed).bind fun _ => Within.tried (within_launch hclock hnamed) fun r => ?_
  cases r with
  | ok _ => exact within_pure _
  | error e => exact Within.tried (within_purge _) fun _ => within_throw e

/-- The launch of a stored container. -/
theorem within_relaunch (id : ContainerId) : Within b (do
    note (.asked id)
    launch w (← storeGet w id)
    pure (some Response.ok)) :=
  Within.modify_bind (fun _ hd => hd) fun _ => within_storeGet fun _ hspec =>
    (within_launch hclock hspec).bind fun _ => within_pure _

theorem within_opStart (target : String) : Within b (opStart w target) := by
  refine Within.then (quiet_resolve (sources_overlook w) target) fun id => Leads.peek fun d =>
    Leads.ite (within_throw _) ?_
  exact Within.modify_bind (fun _ hd => hd) fun _ => within_relaunch hclock id

theorem within_opRestart (target : String) : Within b (opRestart w target) := by
  refine Within.then (quiet_resolve (sources_overlook w) target) fun id => ?_
  exact Leads.peek fun d => Leads.ite (within_throw _) (within_relaunch hclock id)

theorem within_opStop (conn : ℕ) (target : String) {timeout : Option UInt64}
    (htimeout : ∀ t, timeout = some t → secs t ≤ b.grace) : Within b (opStop w conn target timeout) := by
  refine Within.then (quiet_resolve (sources_overlook w) target) fun id => Leads.look fun d hd => ?_
  split
  · exact Within.modify_bind (fun _ hd => hd) fun _ => within_pure _
  rename_i l hl
  have hspec := hd.live id l hl
  refine Leads.ite (Within.modify_bind (fun _ hd => hd.enter (by exact hspec) id) fun _ => within_pure _) ?_
  have hgrace : secs (timeout.getD l.spec.process.stopTimeoutSecs) ≤ b.grace := by
    cases timeout with
    | none => exact hspec.stop
    | some t => exact htimeout t rfl
  have hdrain : drainFor d.lbs l.spec ≤ b.drain := hd.drainFor l.spec
  refine within_instantNow hclock fun now hnow => ?_
  have hkill : now + drainFor d.lbs l.spec + secs (timeout.getD l.spec.process.stopTimeoutSecs) < instantLimit :=
    Nat.lt_of_le_of_lt (Nat.add_le_add (Nat.add_le_add hnow hdrain) hgrace) b.fits
  refine within_addTo (Nat.lt_of_le_of_lt (Nat.le_add_right _ _) hkill) (within_addTo hkill ?_)
  exact Within.modify_bind (fun _ hd => hd.enter (by exact hspec) id) fun _ => within_pure _

theorem within_opRm (target : String) (force : Bool) : Within b (opRm w target force) := by
  have hpurge (id : ContainerId) : Within b (purge w id >>= fun _ => pure (some Response.ok)) :=
    (within_purge id).bind fun _ => within_pure _
  refine Within.then (quiet_resolve (sources_overlook w) target) fun id => Leads.peek fun d => Leads.ite ?_ (hpurge id)
  refine Leads.ite (Within.then (Quiet.throw _) fun _ => ?_) ?_
  all_goals
    refine Within.then (quiet_sources_act _) fun _ => ?_
    exact (within_reapBlocking hclock id).bind fun _ => hpurge id

omit hclock in
theorem within_execDeadline {now : Instant} (hnow : now ≤ b.clock) {timeoutSecs : Option UInt64}
    (htimeout : ∀ t, timeoutSecs = some t → secs t ≤ b.grace) :
    Within b (execDeadline now timeoutSecs : Op σ (Option Instant)) := by
  cases timeoutSecs with
  | none => exact within_pure _
  | some t => exact within_addTo (b.fits_max hnow (htimeout t rfl)) (within_pure _)

theorem within_opExec (conn : ℕ) (target : String) (argv : List String) {timeoutSecs : Option UInt64}
    (service : Option String) (htimeout : ∀ t, timeoutSecs = some t → secs t ≤ b.grace) :
    Within b (opExec w conn target argv timeoutSecs service) := by
  have ho := sources_overlook w
  refine Within.then (quiet_resolve ho target) fun id => Within.then (quiet_sources_act _) fun _ =>
    Leads.look fun d hd => ?_
  split
  · exact within_throw _
  rename_i l hl
  have hspec := hd.live id l hl
  refine Leads.ite (Within.then (Quiet.throw _) fun _ => ?_) ?_
  all_goals
    refine Within.then (quiet_sources_act _) fun _ => within_instantNow hclock fun now _ => ?_
    refine Within.modify_bind (fun _ hd => hd.enter (by exact hspec) id) fun _ => ?_
    refine (within_scheduleIdleReap hclock id hspec.idle).bind fun _ =>
      Within.then (silent_token ho).quiet fun tok => ?_
    refine Within.then (quiet_sources_act _) fun _ => within_instantNow hclock fun now hnow => ?_
    refine (within_execDeadline hnow htimeout).bind fun deadline => ?_
    exact Within.modify_bind (fun _ hd => hd) fun _ => within_pure _

theorem within_opExecProbe (conn : ℕ) (target : String) (argv : List String) {timeoutSecs : UInt64}
    (htimeout : secs timeoutSecs ≤ b.grace) : Within b (opExecProbe w conn target argv timeoutSecs) := by
  have ho := sources_overlook w
  refine Within.then (quiet_resolve ho target) fun id => within_instantNow hclock fun now hnow => ?_
  refine within_addTo (b.fits_max hnow htimeout) (Within.then (quiet_spawnProbe ho _ _ _ _) fun started => ?_)
  exact Leads.ite (within_pure _) (within_throw _)

omit hclock in
theorem within_opWait (conn : ℕ) (target : String) : Within b (opWait w conn target) := by
  refine Within.then (quiet_resolve (sources_overlook w) target) fun id => Leads.look fun d hd => ?_
  split
  · rename_i l hl
    exact Within.modify_bind (fun _ h => h.enter (by exact hd.live id l hl) id) fun _ => within_pure _
  · exact within_storeGet fun _ _ => within_pure _

omit hclock in
theorem quiet_assignVip_sources (lb : LbSpec) : Quiet State.sources (assignVip w lb) := by
  refine Quiet.get_bind fun d => ?_
  split
  · exact (Quiet.lift _).bind fun _ => Quiet.modify_bind (fun _ => rfl) fun _ => Quiet.pure _
  · exact (Quiet.lift _).bind fun _ => Quiet.modify_bind (fun _ => rfl) fun _ => Quiet.pure _

omit hclock in
theorem within_opLbSet {lb : LbSpec} (hlb : secs lb.drainSecs ≤ b.drain) : Within b (opLbSet w lb) := by
  refine Within.then (quiet_assignVip_sources lb) fun vip => Within.then (quiet_sources_act _) fun _ => ?_
  refine Within.then (quiet_sources_act _) fun _ => Leads.modify fun d hd => ?_
  exact hd.balance (show secs ({ lb with vip := some vip } : LbSpec).drainSecs ≤ b.drain from hlb) _

omit hclock in
theorem within_opLbRemove (project name : String) : Within b (opLbRemove w project name) := by
  refine Leads.peek fun d => ?_
  split
  · exact within_throw _
  refine Within.modify_bind (fun _ hd => hd.unbalance _) fun _ => Within.then (quiet_sources_try _) fun _ => ?_
  have hend : Within b (do
      Eff.modify fun d => { d with ipam := d.ipam.release (vipOwner project name), fwDirty := true }
      pure (some Response.ok) : Op σ (Option Response)) :=
    Within.modify_bind (fun _ hd => hd) fun _ => within_pure _
  split
  · exact Within.then (quiet_sources_try _) fun _ => hend
  · exact hend

theorem within_evict (id : ContainerId) : Within b (evict w id) := by
  refine Leads.peek fun d => Leads.ite (Within.then (quiet_sources_act _) fun _ => ?_) (within_purge id)
  exact (within_reapBlocking hclock id).bind fun _ => within_purge id

theorem within_clearNode (force : Bool) : Within b (clearNode w force) := by
  have hforget (lb : LbSpec) : Within b (forgetLb w lb) :=
    Within.modify_bind (fun _ hd => hd.unbalance _) fun _ => quiet_sources_try _ _
  refine Within.then (quiet_loadAll (sources_overlook w)) fun specs => Leads.peek fun d => ?_
  refine Leads.ite (Within.then (Quiet.throw _) fun _ => ?_) ?_
  all_goals exact (Leads.forM _ fun s : Spec => within_evict hclock s.id).bind fun _ => Leads.forM _ hforget

theorem within_opInit (conn : ℕ) (settings : DaemonSettings) (force : Bool) :
    Within b (opInit w conn settings force) := by
  have hok : Within b (pure (some Response.ok) : Op σ (Option Response)) := within_pure _
  have hrestart : Within b (do
      act w (.updateNode settings)
      act w (.writeConfig settings)
      Eff.modify fun d => { d with shutdown := true }
      pure (some Response.ok)) :=
    Within.then (quiet_sources_act _) fun _ => Within.then (quiet_sources_act _) fun _ =>
      Within.modify_bind (fun _ hd => hd) fun _ => hok
  refine Within.then (quiet_requireConn conn) fun _ => Within.then (quiet_sources_act _) fun _ => ?_
  refine Within.then (quiet_sources_act _) fun _ => Leads.peek fun d => Leads.ite (Leads.ite ?_ hok) ?_
  · refine Within.then (quiet_sources_act _) fun _ => Within.then (quiet_sources_act _) fun _ => ?_
    refine Within.modify_bind (fun _ hd => hd) fun _ => Leads.ite (Within.then (quiet_sources_act _) fun _ => hok) hok
  · refine Within.then (quiet_sources_act _) fun _ => Leads.ite ?_ hrestart
    exact (within_clearNode hclock force).bind fun _ => hrestart

/-- A request within the bounds leaves every sum fitting. -/
theorem within_handle (conn : ℕ) {request : Request} (hasked : b.Asked request) : Within b (handle w conn request) := by
  have ho := sources_overlook w
  induction request with
  | run spec => exact (within_opRun hclock hasked).bind fun _ => within_pure _
  | start => exact within_opStart hclock _
  | stop => exact within_opStop hclock conn _ hasked
  | restart => exact within_opRestart hclock _
  | kill => exact quiet_opKill ho _ _ _
  | rm => exact within_opRm hclock _ _
  | wait => exact within_opWait conn _
  | logs => exact quiet_serveFor ho _ _ rfl _
  | exec => exact within_opExec hclock conn _ _ _ hasked
  | execProbe => exact within_opExecProbe hclock conn _ _ hasked
  | commit => exact quiet_serveFor ho _ _ rfl _
  | ps => exact quiet_opPs ho _ _ _
  | stats => exact quiet_opStats ho _ _
  | lbSet lb => exact (within_opLbSet hasked).bind fun _ => within_pure _
  | lbRemove => exact within_opLbRemove _ _
  | lbList => exact quiet_opLbList _
  | init => exact within_opInit hclock conn _ _
  | as caller request ih =>
    refine Within.then (quiet_requireGateway ho conn) fun _ => Within.then (quiet_authorize ho caller _ _) fun _ => ?_
    exact (ih hasked).bind fun _ => within_pure _
  | shutdown => exact Within.modify_bind (fun _ hd => hd) fun _ => within_pure _
  | _ => exact within_outside _

/-! ### Health and the timer -/

omit hclock in
theorem within_recordHealth (id : ContainerId) (ok : Bool) : Within b (recordHealth w id ok) := by
  refine Leads.look fun d hd => ?_
  split
  · exact within_pure _
  rename_i l hl
  split
  · exact within_pure _
  refine Within.modify_bind (fun _ h => h.enter (by exact hd.live id l hl) id) fun _ => Leads.ite ?_ (within_pure _)
  exact Within.then (quiet_sources_try _) fun _ => Leads.modify fun _ hd => hd

omit hclock in
theorem within_probe {now : Instant} (hnow : now ≤ b.clock) (id : ContainerId) {hc : Healthcheck}
    (hprobe : secs hc.timeoutSecs ≤ b.grace) (addr : Option Ipv4Addr) : Within b (probe w now id hc addr) := by
  have hasked {β : Type} {f : σ → β × σ} {g : β → Op σ Unit} (hg : ∀ r, Within b (g r)) : Within b (ask f >>= g) :=
    Within.then (Overlooks.quiet_outside fun _ => rfl) hg
  unfold probe
  split
  · exact hasked fun ok => within_recordHealth id ok
  · exact hasked fun ok => within_recordHealth id ok
  · exact within_pure _
  · exact within_pure _
  · refine within_addTo (b.fits_max hnow hprobe)
      (Within.then (quiet_spawnProbe (sources_overlook w) _ _ _ _) fun started => ?_)
    exact Leads.ite (within_recordHealth id false) (within_pure _)
  · exact hasked fun problem => within_recordHealth id _

omit hclock in
theorem within_checkHealth {now : Instant} (hnow : now ≤ b.clock) : Within b (checkHealth w now) := by
  refine Leads.look fun d hd => Within.modify_bind (fun d' hd' => ?_) fun _ => ?_
  · refine { stored := hd'.stored, live := fun id l hl => ?_, drain := hd'.drain, sums := hd'.sums }
    have hl : (d'.live.mapValues fun id l => if probeDue _ now id l then { l with lastCheck := now } else l).get? id =
      some l := hl
    rw [OrdMap.get?_mapValues] at hl
    obtain ⟨l', hl', rfl⟩ := Option.map_eq_some_iff.mp hl
    have hspec := hd'.live id l' hl'
    split <;> exact hspec
  · refine Eff.Keeps.forM _ fun e he => ?_
    obtain ⟨⟨id, l⟩, hentry, hdue⟩ := List.mem_filterMap.mp he
    have hspec := hd.live id l (OrdMap.get?_eq_some.mpr hentry)
    dsimp only at hdue
    split at hdue
    · obtain ⟨hc, hhc, rfl⟩ := Option.map_eq_some_iff.mp hdue
      exact within_probe hnow id (hspec.probe hc hhc) _
    · cases hdue

omit hclock in
/-- What is read from the store, if it can be read, is within the bounds. -/
theorem within_tryGet {id : ContainerId} {f : Result Spec → Op σ α}
    (hok : ∀ spec, b.Allows spec → Within b (f (.ok spec)))
    (herror : ∀ e, Within b (f (.error e))) : Within b (Eff.attempt (storeGet w id) >>= f) := by
  refine Eff.Triple.bind (Q := fun r d => (∀ spec, r = .ok spec → b.Allows spec) ∧ Fits b d.sources) ?_ fun r => ?_
  · refine Eff.Triple.attempt
      (Eff.Triple.conseq (storeGet_within id) (fun _ hd => hd) (fun spec d hd => ⟨?_, hd.2⟩) fun e d hd => ⟨?_, hd⟩)
    · rintro _ ⟨⟩
      exact hd.1
    · rintro _ ⟨⟩
  · rintro d ⟨hr, hd⟩
    cases r with
    | ok spec => exact hok spec (hr spec rfl) d hd
    | error e => exact herror e d hd

theorem within_runTask (now : Instant) (task : Task) : Within b (runTask w now task) := by
  cases task with
  | relaunch id =>
    refine within_tryGet (fun spec hspec => Leads.peek fun d => ?_) fun _ => within_pure _
    refine Leads.ite (Within.tried (within_launch hclock hspec) fun _ => ?_) (within_pure _)
    exact Leads.modify fun _ hd => hd
  | removeExited id =>
    refine Leads.peek fun d => Leads.ite (within_tryGet (fun spec _ => ?_) fun _ => within_pure _) (within_pure _)
    exact Leads.ite (Within.tried (within_purge id) fun _ => within_pure _) (within_pure _)
  | reapIdle id =>
    refine Leads.peek fun d => Leads.ite ?_ (within_pure _)
    exact Within.modify_bind (fun _ hd => hd) fun _ => within_reapIdle hclock id

theorem within_runDue (now : Instant) (tasks : List Task) : Within b (runDue w now tasks) := by
  induction tasks with
  | nil => exact within_pure _
  | cons task rest ih =>
    exact (within_runTask hclock now task).bind fun _ => Within.modify_bind (fun _ hd => hd) fun _ => ih

omit hclock in
theorem within_pressStop (now : Instant) (id : ContainerId) : Within b (pressStop w now id) := by
  refine Leads.look fun d hd => ?_
  split
  · exact within_pure _
  rename_i l hl
  refine Within.modify_bind (fun _ h => h.enter (by exact hd.live id l hl) id) fun _ => ?_
  have hkill : Within b (if l.killAt.any fun t => decide (t ≤ now) then tryAct w (.killCgroup id) else pure ()) :=
    Leads.ite (quiet_sources_try _ _) (within_pure _)
  exact Leads.ite (Within.then (quiet_sources_try _) fun _ => hkill) hkill

theorem within_onTimer : Within b (onTimer w) := by
  refine Within.then (quiet_sources_try _) fun _ => within_instantNow hclock fun now hnow => Leads.peek fun d => ?_
  refine Within.modify_bind (fun _ hd => hd) fun _ => (within_runDue hclock now _).bind fun _ => Leads.peek fun d => ?_
  refine (Leads.forM _ fun id => within_pressStop now id).bind fun _ => Leads.peek fun d => ?_
  refine (Leads.forM _ fun e => quiet_sources_try _ _).bind fun _ =>
    (Leads.forM _ fun e => quiet_sources_try _ _).bind fun _ => ?_
  exact Leads.ite (Within.modify_bind (fun _ hd => hd) fun _ => within_checkHealth hnow) (within_pure _)

/-! ### Events -/

theorem within_onPidfd (tok : ℕ) : Within b (onPidfd w tok) := by
  have ho := sources_overlook w
  refine Leads.peek fun d => ?_
  split
  · split
    · exact within_pure _
    · refine Within.then (silent_exitOf ho tok _).quiet fun r => ?_
      cases r with
      | none => exact within_pure _
      | some code => exact within_onExit hclock _ code
  · split
    · refine Within.tried (within_outside _) fun r => ?_
      split
      · refine Within.then (quiet_sources_try _) fun _ => Within.modify_bind (fun _ hd => hd) fun _ => ?_
        exact (silent_send ho _ _).quiet _
      · exact within_pure _
    · refine Within.tried (within_outside _) fun r => ?_
      split
      · refine Within.then (quiet_sources_try _) fun _ => Within.modify_bind (fun _ hd => hd) fun _ => ?_
        split
        · exact within_recordHealth _ _
        · exact (silent_send ho _ _).quiet _
      · exact within_pure _
    · exact within_pure _

/-- An event within the bounds leaves every sum fitting. -/
theorem within_onEvent {e : Event} (he : b.Meets e) : Within b (onEvent w e) := by
  have ho := sources_overlook w
  have hsend (conn : ℕ) (response : Response) : Within b (send w conn response) :=
    (silent_send ho conn response).quiet _
  cases e with
  | connect => exact (silent_accept ho).quiet _
  | garbled conn => exact hsend conn _
  | hangup conn => exact Leads.peek fun d => Leads.ite ((silent_dropConn ho conn).quiet _) (within_pure _)
  | pidfd tok => exact within_onPidfd hclock tok
  | timer => exact within_onTimer hclock
  | terminate => exact Leads.modify fun _ hd => hd
  | request conn request =>
    refine Leads.peek fun d => Leads.ite (Within.tried (within_handle hclock conn he) fun r => ?_) (within_pure _)
    rcases r with e | _ | response
    · exact hsend _ _
    · exact within_pure _
    · exact hsend _ _

omit hclock in
theorem within_flushFirewall : Within b (flushFirewall w) := by
  refine Leads.peek fun d => Leads.ite ?_ (within_pure _)
  exact Within.modify_bind (fun _ hd => hd) fun _ => quiet_sources_try _ _

theorem within_batch {events : List Event} (hevents : ∀ e ∈ events, b.Meets e) : Within b (batch w events) := by
  refine Leads.peek fun d => Leads.ite ?_ (within_pure _)
  have hrun : Within b (events.forM (onEvent w)) := Eff.Keeps.forM events fun e he =>
    within_onEvent hclock (hevents e he)
  exact hrun.bind fun _ => within_flushFirewall

/-! ### Start -/

omit hclock in
theorem within_loadLb {lb : LbSpec} (hlb : secs lb.drainSecs ≤ b.drain) : Within b (loadLb w lb) := by
  have hend : Within b (Eff.modify fun d : State σ => { d with lbs := d.lbs.insert (lbKey lb.project lb.name) lb }) :=
    Leads.modify fun _ hd => hd.balance hlb _
  unfold loadLb
  split
  · refine Within.modify_bind (fun d hd => ?_) fun _ => Within.then (quiet_sources_try _) fun _ => hend
    split <;> exact hd
  · exact hend

theorem within_adopt {spec : Spec} (hspec : b.Allows spec) : Within b (adopt w spec) := by
  refine Within.then (Overlooks.quiet_outside fun _ => rfl) fun pid =>
    Within.then (silent_token (sources_overlook w)).quiet fun tok => ?_
  refine Within.then (quiet_sources_act _) fun _ => Within.modify_bind (fun _ hd => hd) fun _ => ?_
  exact (within_enter hclock hspec pid tok false).bind fun _ => within_scheduleIdleReap hclock spec.id hspec.idle

theorem within_takeStock {specs : List Spec} (hspecs : ∀ spec ∈ specs, b.Allows spec) (action : Store.Action) :
    Within b (takeStock w specs action) := by
  cases action with
  | adopt id =>
    cases hfind : specs.find? fun s => s.id == id with
    | some spec =>
      simp only [takeStock, hfind]
      exact Within.tried (within_adopt hclock (hspecs spec (List.mem_of_find?_eq_some hfind))) fun _ => within_pure _
    | none =>
      simp only [takeStock, hfind]
      exact within_pure _
  | markStopped id => exact within_pure _
  | deleteNftTag id => exact within_pure _
  | removeSpec id => exact Within.tried (within_storeRemove id) fun _ => Leads.modify fun _ hd => hd
  | cleanRuntime id => exact (silent_removeRuntimeDirs (sources_overlook w) id).quiet _
  | killCgroup id => exact quiet_sources_try _ _
  | removeCgroup id => exact quiet_sources_try _ _
  | deleteVeth name => exact quiet_sources_try _ _

omit hclock in
/-- All that is loaded from the store is within the bounds. -/
theorem within_loadAll {f : List Spec → Op σ α} (hf : ∀ specs, (∀ spec ∈ specs, b.Allows spec) → Within b (f specs)) :
    Within b (loadAll w >>= f) := by
  have hload : Eff.Triple (fun d : State σ => Fits b d.sources) (loadAll w)
      (fun specs d => (∀ spec ∈ specs, b.Allows spec) ∧ Fits b d.sources) fun _ d => Fits b d.sources := by
    refine Eff.Triple.bind (quiet_sources_act _ (Fits b)) fun _ => Eff.Triple.get_bind fun d hd =>
      Eff.Triple.pure fun d' hd' => ?_
    refine ⟨fun spec hmem => hd.stored spec.id spec ?_, hd' ▸ hd⟩
    exact (SpecStore.mem_values d.store).mp ((List.mem_insertionSort _).mp hmem)
  exact Eff.Triple.bind hload fun specs d hd => hf specs hd.1 d hd.2

theorem within_reconcile : Within b (reconcile w) := by
  refine within_loadAll fun specs hspecs => (within_outside _).bind fun observed => ?_
  exact Leads.forM _ fun action => within_takeStock hclock hspecs action

theorem within_boot (hsaved : ∀ s, ∀ lb ∈ (w.savedLbs s).1, secs lb.drainSecs ≤ b.drain) : Within b (boot w) := by
  refine Leads.peek fun d => Within.then (Quiet.lift _) fun subnet =>
    Within.then (quiet_loadAll (sources_overlook w)) fun specs => ?_
  refine Within.then (Quiet.lift _) fun ipam => Within.modify_bind (fun _ hd => hd) fun _ => ?_
  refine Leads.bind_quiet_result (F := fun lbs => ∀ lb ∈ lbs, secs lb.drainSecs ≤ b.drain)
    (Overlooks.quiet_outside fun _ => rfl) (fun d lbs d' hlbs => ?_) (fun _ h => h) fun lbs hlbs => ?_
  · cases hlbs
    exact hsaved d.outer
  · have hload : Within b (lbs.forM (loadLb w)) := Eff.Keeps.forM lbs fun lb hlb => within_loadLb (hlbs lb hlb)
    exact hload.bind fun _ => (within_reconcile hclock).bind fun _ => within_flushFirewall

theorem within_lifetime {batches : List (List Event)} {events : List Event}
    (hevents : ∀ e ∈ batches.flatten ++ events, b.Meets e) : Within b (lifetime w batches events) := by
  have hbatches : Within b (batches.forM (batch w)) := by
    refine Eff.Keeps.forM batches fun batch hmem => within_batch hclock fun e he => ?_
    exact hevents e (List.mem_append_left _ (List.mem_flatten_of_mem hmem he))
  refine hbatches.bind fun _ => ?_
  exact Eff.Keeps.forM events fun e he => within_onEvent hclock (hevents e (List.mem_append_right _ he))

end Programs

/-! ## Runs -/

/-- In a run where the clock, the saved load balancers, the stored specs and all requests keep within
bounds that fit together, no sum of a moment and a time overflows. -/
theorem deadlines_fit {σ : Type} (b : Bounds) (w : World σ) (outer : σ) (cfg : DaemonSettings) (store : SpecStore)
    (rootMode : RootMode) (batches : List (List Event)) (events : List Event) (hclock : Slow w b)
    (hsaved : ∀ s, ∀ lb ∈ (w.savedLbs s).1, secs lb.drainSecs ≤ b.drain)
    (hstored : ∀ id spec, store.get? id = some spec → b.Allows spec)
    (hevents : ∀ e ∈ batches.flatten ++ events, b.Meets e) :
    ∀ t ∈ (lifetime w batches events (boot w (blank outer cfg store rootMode)).2).2.sums, t < instantLimit := by
  have hblank : Fits b (blank outer cfg store rootMode).sources :=
    ⟨hstored, fun _ _ h => (by cases h), fun _ _ h => (by cases h), fun _ h => (by cases h)⟩
  have hboot : Fits b (boot w (blank outer cfg store rootMode)).2.sources := (within_boot hclock hsaved).apply hblank
  have hend := (within_lifetime hclock hevents).apply hboot
  exact hend.sums

/-- The working world on a host that is up for an hour. -/
def hourWorld : World ℕ := { workingWorld with now := fun t => (min t (secs 3600), t + secs 1) }

/-- A client runs the web server and stops it. -/
def stopRun (timeoutSecs : UInt64) : List (List Event) :=
  [[.connect], [.request 101 (.run webSpec)], [.request 101 (.stop "web" (some timeoutSecs))]]

def hourBounds : Bounds := ⟨secs 3600, secs 30, secs 3600, by decide, by decide⟩

theorem web_deadlines_fit :
    let d := (lifetime hourWorld (stopRun 30) [] (boot hourWorld (blank 0 {} .empty .overlay)).2).2
    d.sums.length = 2 ∧ ∀ t ∈ d.sums, t < instantLimit := by
  have hweb : hourBounds.Allows webSpec :=
    ⟨fun t ht => (by cases ht), by decide, fun hc hhc => (by cases hhc)⟩
  have hstop : ∀ t : UInt64, some 30 = some t → secs t ≤ hourBounds.grace := by
    rintro _ ⟨⟩
    decide
  have hevents : ∀ e ∈ (stopRun 30).flatten ++ [], hourBounds.Meets e := by
    intro e he
    simp only [stopRun, List.flatten_cons, List.flatten_nil, List.append_nil, List.cons_append, List.nil_append,
      List.mem_cons, List.not_mem_nil, or_false] at he
    rcases he with rfl | rfl | rfl
    · trivial
    · exact hweb
    · exact hstop
  refine ⟨by decide +kernel, deadlines_fit hourBounds hourWorld 0 {} .empty .overlay (stopRun 30) [] ?_ ?_ ?_ hevents⟩
  · exact fun s => Nat.min_le_right _ _
  · exact fun s lb hlb => by cases hlb
  · exact fun id spec h => by cases h

/-- A client that gives a container all the seconds of 64 bits to stop ends the daemon. -/
theorem stop_overflows :
    ¬ ∀ t ∈ (lifetime hourWorld (stopRun 18446744073709551615) []
      (boot hourWorld (blank 0 {} .empty .overlay)).2).2.sums, t < instantLimit := by
  decide +kernel

end Collocate.Daemon
