import Collocate.Net.Tokens
import Collocate.Daemon.Quiet

/-! # Names of load balancers in the firewall script

Any name may be given to a load balancer, and it stands in quotation marks in the script. -/
namespace Collocate.Daemon
set_option autoImplicit false
open Lexing

section Requests
variable {σ : Type} (w : World σ)

/-- The load balancers that are accepted when they are set one after the other. -/
def setAll : List LbSpec → State σ → List LbSpec × State σ
  | [], d => ([], d)
  | lb :: rest, d =>
    match opLbSet w lb d with
    | (.ok _, d') => (lb :: (setAll rest d').1, (setAll rest d').2)
    | (.error _, d') => setAll rest d'

/-- The part of the state that the names depend on. -/
def State.balancing (d : State σ) : DaemonSettings × OrdMap String LbSpec := (d.cfg, d.lbs)

theorem inward_balancing : Inward (State.balancing (σ := σ)) :=
  ⟨fun _ _ => rfl, fun _ _ => rfl, fun _ _ => rfl, fun _ _ => rfl, fun _ _ => rfl, fun _ _ => rfl, fun _ _ => rfl⟩

theorem opLbSet_balancing (lb : LbSpec) (c : DaemonSettings × OrdMap String LbSpec) :
    Eff.Triple (fun d => d.balancing = c) (opLbSet w lb)
      (fun _ d => ∃ vip, d.balancing = (c.1, c.2.insert (lbKey lb.project lb.name) { lb with vip := some vip }))
      fun _ d => d.balancing = c := by
  have hin := inward_balancing (σ := σ)
  let Same (c' : DaemonSettings × OrdMap String LbSpec) : Prop := c' = c
  have hassign : Leads State.balancing Same Same (assignVip w lb) := hin.quiet_assignVip w lb Same
  have hact (a : Act) : Leads State.balancing Same Same (act w a) := hin.quiet_outside _ Same
  refine Eff.Triple.bind hassign fun vip => Eff.Triple.bind (hact _) fun _ => Eff.Triple.bind (hact _) fun _ => ?_
  refine Eff.Triple.modify fun d hd => ⟨vip, ?_⟩
  rw [← show d.balancing = c from hd]
  rfl

/-- What is held after `accepted`: each of them is there under its key, and nothing else is. -/
structure Held (accepted : List LbSpec) (lbs : OrdMap String LbSpec) : Prop where
  present : ∀ lb ∈ accepted, ∃ lb', lbs.get? (lbKey lb.project lb.name) = some lb'
  origin : ∀ key lb', lbs.get? key = some lb' → key = lbKey lb'.project lb'.name ∧ lb'.vip.isSome = true ∧
    ∃ lb ∈ accepted, lb.project = lb'.project ∧ lb.name = lb'.name

theorem Held.set {accepted : List LbSpec} {lbs : OrdMap String LbSpec} (h : Held accepted lbs) (lb : LbSpec)
    (vip : Ipv4Addr) :
    Held (accepted ++ [lb]) (lbs.insert (lbKey lb.project lb.name) { lb with vip := some vip }) where
  present lb' hlb' := by
    rw [OrdMap.get?_insert]
    split
    · exact ⟨_, rfl⟩
    · rename_i hkey
      obtain hlb' | hlb' := List.mem_append.mp hlb'
      · exact h.present lb' hlb'
      · exact absurd (List.mem_singleton.mp hlb' ▸ rfl) hkey
  origin key lb' hget := by
    rw [OrdMap.get?_insert] at hget
    split at hget
    · rename_i hkey
      cases hget
      exact ⟨hkey, rfl, lb, List.mem_append_right _ List.mem_cons_self, rfl, rfl⟩
    · obtain ⟨hkey, hvip, lb₀, hmem, hsame⟩ := h.origin key lb' hget
      exact ⟨hkey, hvip, lb₀, List.mem_append_left _ hmem, hsame⟩

theorem setAll_held (requests : List LbSpec) (d : State σ) (accepted : List LbSpec) (h : Held accepted d.lbs) :
    (setAll w requests d).2.cfg = d.cfg ∧ Held (accepted ++ (setAll w requests d).1) (setAll w requests d).2.lbs := by
  induction requests generalizing d accepted with
  | nil => exact ⟨rfl, by simpa [setAll] using h⟩
  | cons lb rest ih =>
    have hstep := opLbSet_balancing w lb d.balancing d rfl
    unfold setAll
    rcases hr : opLbSet w lb d with ⟨e | _, d'⟩
    · rw [hr] at hstep
      obtain ⟨hcfg, hlbs⟩ := Prod.mk.inj hstep
      obtain ⟨hrest, hheld⟩ := ih d' accepted (hlbs ▸ h)
      exact ⟨hrest.trans hcfg, hheld⟩
    · rw [hr] at hstep
      obtain ⟨vip, hset⟩ := hstep
      obtain ⟨hcfg, hlbs⟩ := Prod.mk.inj hset
      obtain ⟨hrest, hheld⟩ := ih d' (accepted ++ [lb]) (hlbs ▸ h.set lb vip)
      refine ⟨hrest.trans hcfg, ?_⟩
      rw [List.append_assoc] at hheld
      exact hheld

end Requests

/-! ## Quotation marks -/

/-- The names of the load balancer have no quotation mark in them. -/
def UnquotedNames (lb : LbSpec) : Prop := '"' ∉ lb.project.toList ∧ '"' ∉ lb.name.toList

theorem quote_mem_key (project name : String) :
    '"' ∈ (lbKey project name).toList ↔ '"' ∈ project.toList ∨ '"' ∈ name.toList := by
  simp [lbKey]

theorem rule_names_iff {accepted : List LbSpec} {lbs : OrdMap String LbSpec} (h : Held accepted lbs)
    (cfg : DaemonSettings) (live : OrdMap ContainerId Live) :
    (∀ rule ∈ (rulesetOf cfg live lbs).lbs, '"' ∉ rule.name.toList) ↔ ∀ lb ∈ accepted, UnquotedNames lb := by
  constructor
  · intro hnames lb hlb
    obtain ⟨kept, hget⟩ := h.present lb hlb
    obtain ⟨hkey, hvip, -⟩ := h.origin _ kept hget
    obtain ⟨vip, hvip⟩ := Option.isSome_iff_exists.mp hvip
    have hvalue : kept ∈ lbs.values := List.mem_map.mpr ⟨_, OrdMap.get?_eq_some.mp hget, rfl⟩
    obtain ⟨rule, hrule, hname⟩ : ∃ rule, lbRule live kept = some rule ∧
      rule.name = s!"{kept.project}/{kept.name}" := by
      unfold lbRule
      rw [hvip]
      exact ⟨_, rfl, rfl⟩
    have hclean := hnames rule (List.mem_filterMap.mpr ⟨kept, hvalue, hrule⟩)
    have hkept : '"' ∉ (lbKey kept.project kept.name).toList := by
      rw [quote_mem_key]
      simpa [hname, toString_self] using hclean
    rw [← hkey, quote_mem_key, not_or] at hkept
    exact hkept
  · intro haccepted rule hrule
    obtain ⟨kept, hvalue, hkept⟩ := List.mem_filterMap.mp hrule
    obtain ⟨⟨key, entry⟩, hentry, rfl⟩ := List.mem_map.mp hvalue
    obtain ⟨-, -, lb, hlb, hproject, hname⟩ := h.origin key entry (OrdMap.get?_eq_some.mpr hentry)
    have hclean := haccepted lb hlb
    unfold UnquotedNames at hclean
    rw [hproject, hname] at hclean
    obtain ⟨vip, -, rfl⟩ := Option.map_eq_some_iff.mp hkept
    simpa [toString_self] using hclean

/-- Whatever load balancers are set and whatever is live, the rules are the same but for their tags under any
other names, and the script is read back as it was meant if and only if no name has a quotation mark in it. -/
theorem names_inject_iff {σ : Type} (w : World σ) (d : State σ) (requests : List LbSpec)
    (live : OrdMap ContainerId Live) :
    let set := setAll w requests { d with lbs := .empty }
    let rs := rulesetOf set.2.cfg live set.2.lbs
    (∀ name, (rs.renamed name).prerouting.map Ruleset.anonymous = rs.prerouting.map Ruleset.anonymous ∧
      (rs.renamed name).output.map Ruleset.anonymous = rs.output.map Ruleset.anonymous ∧
      (rs.renamed name).postrouting.map Masquerade.addrs = rs.postrouting.map Masquerade.addrs ∧
      (rs.renamed name).input.map Ruleset.anonymous = rs.input.map Ruleset.anonymous) ∧
    (tokenise rs.render.toList = some (rs.script.map Line.tokens) ↔
      '"' ∉ d.cfg.bridge.toList ∧ ∀ lb ∈ set.1, UnquotedNames lb) := by
  intro set rs
  have hempty : Held [] ({ d with lbs := .empty } : State σ).lbs := ⟨fun _ h => (by cases h), fun _ _ h => (by cases h)⟩
  obtain ⟨hcfg, hheld⟩ := setAll_held w requests { d with lbs := .empty } [] hempty
  rw [List.nil_append] at hheld
  refine ⟨fun name => Ruleset.rules_renamed name rs, ?_⟩
  rw [Ruleset.read_back_iff, rule_names_iff hheld]
  have hbridge : rs.bridge = d.cfg.bridge := congrArg DaemonSettings.bridge hcfg
  rw [hbridge]

/-- A load balancer whose name ends the comment and goes on with a rule of its own. -/
def smugglerLb : LbSpec where
  project := "shop"
  name := "web\"\n    tcp dport 22 accept comment \"x"
  proto := .tcp
  listen := 80
  publish := []
  backendService := "web"
  backendPort := 80
  algorithm := .roundRobin
  onNoBackends := .reject
  drainSecs := 0
  vip := none

def smuggled : List LbSpec × State ℕ := setAll workingWorld [smugglerLb] (blank 0 {} .empty .overlay)

def smuggledRules : Ruleset := rulesetOf smuggled.2.cfg .empty smuggled.2.lbs

/-- It is accepted, and the script has one more rule than was meant. -/
theorem rule_smuggled : smuggled.1 = [smugglerLb] ∧ smuggledRules.input.length = 1 ∧
    (tokenise smuggledRules.render.toList).map List.length = some (smuggledRules.script.length + 1) ∧
    (tokenise smuggledRules.render.toList).any (fun lines =>
      lines.contains ((["tcp", "dport", "22", "accept", "comment"]).map word ++ [quoted "x"])) = true := by
  rw [render_eq]
  refine ⟨?_, ?_, ?_, ?_⟩
  all_goals decide +kernel

end Collocate.Daemon
