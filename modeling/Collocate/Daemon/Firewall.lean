import Collocate.Daemon.Refine

/-! # The applied firewall is never stale

The rules are a function of the load balancers and of each live container's standing. A step that changes
one of these marks the firewall as out of date, so while the mark is not set the last script handed to
`nft` is the one the current state renders to. -/
namespace Collocate.Daemon
set_option autoImplicit false

/-! ## What the rules depend on -/

/-- What decides the rules for a container. -/
structure Standing where
  spec : Spec
  stopRequested : Bool
  health : Option HealthState

def Live.standing (l : Live) : Standing := ⟨l.spec, l.stopRequested, l.tracker.map (·.state)⟩

def Face.standing (f : Face) : Standing := ⟨f.spec, f.stopRequested, f.health⟩

structure Routes where
  live : OrdMap ContainerId Standing
  lbs : OrdMap String LbSpec

def State.routes {σ : Type} (d : State σ) : Routes := ⟨d.live.mapValues fun _ l => l.standing, d.lbs⟩

def Core.routes (c : Core) : Routes := ⟨c.live.mapValues fun _ f => f.standing, c.lbs⟩

theorem core_routes {σ : Type} (d : State σ) : d.core.routes = d.routes := by
  simp only [Core.routes, State.routes, State.core, Routes.mk.injEq, and_true]
  exact OrdMap.mapValues_mapValues (fun _ _ => rfl) d.live

/-- A function of the standing gives the same on containers with the same standings. -/
theorem filterMap_of_standing {β : Type} {f : Live → Option β}
    (hf : ∀ l l' : Live, l.standing = l'.standing → f l = f l')
    {xs ys : List Live} (h : xs.map Live.standing = ys.map Live.standing) : xs.filterMap f = ys.filterMap f := by
  induction xs generalizing ys with
  | nil => rw [List.map_eq_nil_iff.mp h.symm]
  | cons x xs ih =>
    cases ys with
    | nil => cases h
    | cons y ys =>
      obtain ⟨hhead, htail⟩ := List.cons.inj h
      rw [List.filterMap_cons, List.filterMap_cons, hf x y hhead, ih htail]

theorem takesTraffic_of_standing (lb : LbSpec) {l l' : Live} (h : l.standing = l'.standing) :
    takesTraffic lb l = takesTraffic lb l' := by
  obtain ⟨hspec, hstop, hhealth⟩ := Standing.mk.inj h
  have hall (t : Option HealthTracker) :
    (t.all fun t => t.state == .healthy) = (t.map (·.state)).all (· == .healthy) := by
    cases t <;> rfl
  simp only [takesTraffic, hspec, hstop, hall, hhealth]

theorem rulesetOf_of_standing (cfg : DaemonSettings) {live live' : OrdMap ContainerId Live} (lbs : OrdMap String LbSpec)
    (h : (live.mapValues fun _ l => l.standing) = live'.mapValues fun _ l => l.standing) :
    rulesetOf cfg live lbs = rulesetOf cfg live' lbs := by
  have hvalues : live.values.map Live.standing = live'.values.map Live.standing := by
    simpa [OrdMap.values, OrdMap.mapValues, Function.comp_def] using congrArg OrdMap.values h
  have hspec {l l' : Live} (h : l.standing = l'.standing) : l.spec = l'.spec := (Standing.mk.inj h).1
  have hports : live.values.filterMap containerPorts = live'.values.filterMap containerPorts :=
    filterMap_of_standing (fun l l' h => by simp only [containerPorts, hspec h]) hvalues
  have hbackends (lb : LbSpec) : backends live lb = backends live' lb := by
    simp only [backends, List.filterMap_filter]
    exact filterMap_of_standing (fun l l' h => by rw [takesTraffic_of_standing lb h, hspec h]) hvalues
  have hrule : lbRule live = lbRule live' := funext fun lb => by simp only [lbRule, hbackends]
  simp only [rulesetOf, hports, hrule]

/-! ## The invariant -/

/-- Nothing that the rules depend on changed. -/
structure Undisturbed (c c' : Core) : Prop where
  routes : c'.routes = c.routes
  cfg : c'.cfg = c.cfg
  fwDirty : c'.fwDirty = c.fwDirty
  script : c'.script = c.script

theorem routes_of_standing {c : Core} {id : ContainerId} {f f' : Face} (hlive : c.live.get? id = some f)
    (h : f'.standing = f.standing) : ({ c with live := c.live.insert id f' }).routes = c.routes := by
  have hget : (c.live.mapValues fun _ f => f.standing).get? id = some f'.standing := by
    rw [OrdMap.get?_mapValues, hlive, h]
    rfl
  simp only [Core.routes, OrdMap.mapValues_insert, OrdMap.insert_of_get? hget]

/-- A step marks the firewall or leaves what the rules depend on alone. -/
theorem Step.marks {c c' : Core} (h : Step False c c') : c'.fwDirty = true ∨ Undisturbed c c' := by
  cases h with
  | stop | launched | adopted | exited | verdict | balanced => exact Or.inl rfl
  | join hlive => exact Or.inr ⟨routes_of_standing hlive rfl, rfl, rfl, rfl⟩
  | answered | pardoned | asked | launching | later => exact Or.inr ⟨rfl, rfl, rfl, rfl⟩
  | forgot hinits | configured hinits => exact hinits.elim

/-- While the mark is not set, the last script is the one for the current state. -/
def Current (c : Core) : Prop :=
  c.fwDirty = false → ∃ live : OrdMap ContainerId Live, (live.mapValues fun _ l => l.standing) = c.routes.live ∧
    c.script = some (rulesetOf c.cfg live c.lbs).render

theorem Current.of_undisturbed {c c' : Core} (hc : Current c) (h : Undisturbed c c') : Current c' := by
  intro hclean
  obtain ⟨live, hlive, hscript⟩ := hc (h.fwDirty ▸ hclean)
  have hlbs : c'.lbs = c.lbs := congrArg Routes.lbs h.routes
  refine ⟨live, hlive.trans (congrArg Routes.live h.routes).symm, ?_⟩
  rw [h.script, hscript, h.cfg, hlbs]

theorem current_preserved : Preserved False Current where
  step c c' h hc := by
    rcases h.marks with hdirty | hsame
    · intro hclean
      rw [hdirty] at hclean
      cases hclean
    · exact hc.of_undisturbed hsame
  fired _ _ _ _ hc := hc.of_undisturbed ⟨rfl, rfl, rfl, rfl⟩
  done _ _ _ _ hc := hc.of_undisturbed ⟨rfl, rfl, rfl, rfl⟩

theorem current_flushed (σ : Type) : Flushed σ Current := by
  intro d _ _
  refine ⟨d.live, ?_, rfl⟩
  have hroutes := congrArg Routes.live (core_routes d)
  exact hroutes.symm

theorem Current.script {σ : Type} {d : State σ} (h : Current d.core) (hclean : d.fwDirty = false) :
    d.script = some d.ruleset.render := by
  obtain ⟨live, hlive, hscript⟩ := h hclean
  rw [core_routes] at hlive
  rw [State.ruleset, ← rulesetOf_of_standing d.cfg d.lbs hlive]
  exact hscript

/-- The mark is set, or nothing has changed since `c`. -/
def MarkedSince (c c' : Core) : Prop := c'.fwDirty = true ∨ Undisturbed c c'

theorem MarkedSince.of_undisturbed {c c₁ c₂ : Core} (hc : MarkedSince c c₁) (h : Undisturbed c₁ c₂) :
    MarkedSince c c₂ := by
  rcases hc with hdirty | hsame
  · exact Or.inl (h.fwDirty.trans hdirty)
  · exact Or.inr ⟨h.routes.trans hsame.routes, h.cfg.trans hsame.cfg, h.fwDirty.trans hsame.fwDirty,
      h.script.trans hsame.script⟩

theorem markedSince_preserved (c : Core) : Preserved False (MarkedSince c) where
  step c₁ c₂ h hc := by
    rcases h.marks with hdirty | hsame
    · exact Or.inl hdirty
    · exact hc.of_undisturbed hsame
  fired _ _ _ _ hc := hc.of_undisturbed ⟨rfl, rfl, rfl, rfl⟩
  done _ _ _ _ hc := hc.of_undisturbed ⟨rfl, rfl, rfl, rfl⟩

/-- In every state a daemon reaches without an `Init` request, the script last handed to `nft` is the one
for this state unless the firewall is marked as out of date; and an event that changes the live containers,
what decides their rules or the load balancers leaves it marked. -/
theorem firewall_current {σ : Type} (w : World σ) (outer : σ) (cfg : DaemonSettings) (store : SpecStore)
    (rootMode : RootMode) (batches : List (List Event)) (events : List Event)
    (hinit : ∀ e ∈ batches.flatten ++ events, e.isInit = false) :
    let d := (lifetime w batches events (boot w (blank outer cfg store rootMode)).2).2
    (d.fwDirty = false → d.script = some d.ruleset.render) ∧
      ∀ e : Event, e.isInit = false → (onEvent w e d).2.routes ≠ d.routes → (onEvent w e d).2.fwDirty = true := by
  intro d
  have hblank : Current (blank outer cfg store rootMode).core := fun hclean => by cases hclean
  have hcurrent : Current d.core :=
    lifetime_holds w current_preserved (current_flushed σ) outer cfg store rootMode hblank batches events
      fun e he htrue => by simp [hinit e he] at htrue
  refine ⟨hcurrent.script, fun e he hchanged => ?_⟩
  have hmarked : MarkedSince d.core (onEvent w e d).2.core :=
    (onEvent_leads w (markedSince_preserved d.core) e fun htrue => by simp [he] at htrue).apply
      (Or.inr ⟨rfl, rfl, rfl, rfl⟩)
  rcases hmarked with hdirty | hsame
  · exact hdirty
  · refine absurd ?_ hchanged
    rw [← core_routes, ← core_routes, hsame.routes]

/-- A client runs the web server. -/
def webRun : List (List Event) := [[.connect], [.request 101 (.run webSpec)]]

theorem firewall_current_web :
    let d := (lifetime workingWorld webRun [] (boot workingWorld (blank 0 {} .empty .overlay)).2).2
    d.live.contains 7 = true ∧ d.fwDirty = false ∧ d.script = some d.ruleset.render := by
  intro d
  have hclean : d.fwDirty = false := by decide +kernel
  have hcurrent := firewall_current workingWorld 0 {} .empty .overlay webRun [] (by decide)
  exact ⟨by decide +kernel, hclean, hcurrent.1 hclean⟩

end Collocate.Daemon
