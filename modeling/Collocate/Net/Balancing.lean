import Collocate.Net.Script

/-! # The rules of a load balancer

A load balancer with a backend spreads the connections of each of its entries over all of them. One
without has its verdict for its address, but none for the ports it publishes. -/
namespace Collocate
set_option autoImplicit false
open Lexing

def LbRule.entries (lb : LbRule) : List Entry := .vip lb.vip lb.listen :: lb.publish.map .host

/-- How often the backend is in the map. -/
def Backend.share (b : Backend) : ℕ := (min b.weight 100).toNat

def Backend.target (b : Backend) : Ipv4Addr × UInt16 := (b.addr, b.port)

namespace Ruleset

/-- All rules of the script that say what is done with the connections of an entry. -/
def rules (rs : Ruleset) : List Rule := rs.prerouting ++ rs.output ++ rs.input

/-- The map has a target for each key below the sum of the shares, and each backend as often as its share. -/
structure Spread (backends : List Backend) (modulus : ℕ) (map : List (ℕ × Ipv4Addr × UInt16)) : Prop where
  total : modulus = (backends.map Backend.share).sum
  keys : map.map Prod.fst = List.range modulus
  targets : ∀ t, (map.map Prod.snd).count t = ((backends.filter fun b => b.target = t).map Backend.share).sum

/-- The chain has one rule for each entry of the load balancer, which looks its target up in the map. -/
def Dispatched (lb : LbRule) (modulus : ℕ) (map : List (ℕ × Ipv4Addr × UInt16)) (chain : List Rule) : Prop :=
  ∃ before rules after, chain = before ++ rules ++ after ∧ rules.map Rule.entry = lb.entries ∧
    ∀ r ∈ rules, r.proto = lb.proto ∧ r.treatment = .balance lb.algorithm modulus map ∧ r.tag = lbTag lb

/-- The connections of each entry are spread over the backends, and masqueraded on the way to them. -/
def Spreads (rs : Ruleset) (lb : LbRule) : Prop :=
  ∃ modulus map, Spread lb.backends modulus map ∧ Dispatched lb modulus map rs.prerouting ∧
    Dispatched lb modulus map rs.output ∧
    ∃ m ∈ rs.postrouting, m.tag = lbTag lb ∧ ∀ a, a ∈ m.addrs ↔ ∃ key port, (key, a, port) ∈ map

/-- The connections of each entry get the verdict. -/
def Refuses (rs : Ruleset) (lb : LbRule) : Prop :=
  ∀ e ∈ lb.entries, ∃ r ∈ rs.rules, r.entry = e ∧ r.proto = lb.proto ∧ r.treatment = .stop lb.onNoBackends

/-- The rules of the load balancer are complete. -/
def Complete (rs : Ruleset) (lb : LbRule) : Prop :=
  if ∃ b ∈ lb.backends, 0 < b.weight then rs.Spreads lb else rs.Refuses lb

/-! ## With backends -/

section Spread
variable {rs : Ruleset} {lb : LbRule}

theorem expand_ne_nil_iff {backends : List Backend} : expand backends ≠ [] ↔ ∃ b ∈ backends, 0 < b.weight := by
  constructor
  · intro h
    obtain ⟨b, hb⟩ := List.exists_mem_of_ne_nil _ h
    exact ⟨b, mem_expand.mp hb⟩
  · rintro ⟨b, hb⟩
    exact List.ne_nil_of_mem (mem_expand.mpr hb)

theorem expand_length (backends : List Backend) : (expand backends).length = (backends.map Backend.share).sum := by
  unfold expand
  rw [List.length_flatMap]
  congr 1
  refine List.map_congr_left fun b _ => ?_
  rw [List.length_replicate]
  rfl

theorem expand_targets (backends : List Backend) (t : Ipv4Addr × UInt16) :
    ((expand backends).map Backend.target).count t =
      ((backends.filter fun b => b.target = t).map Backend.share).sum := by
  induction backends with
  | nil => rfl
  | cons b backends ih =>
    have hsplit : expand (b :: backends) = List.replicate b.share b ++ expand backends := rfl
    rw [hsplit, List.map_append, List.count_append, ih, List.map_replicate, List.count_replicate]
    by_cases hb : b.target = t
    · simp [hb]
    · simp [hb]

theorem spread_balance (lb : LbRule) : ∃ modulus map, balance lb = .balance lb.algorithm modulus map ∧
    Spread lb.backends modulus map ∧
    ∀ a, a ∈ addresses lb.backends ↔ ∃ key port, (key, a, port) ∈ map := by
  refine ⟨_, _, rfl, ⟨expand_length _, ?_, fun t => ?_⟩, fun a => ?_⟩
  · have hkeys := List.zipIdx_map_snd 0 (expand lb.backends)
    rw [List.map_map, List.range_eq_range', ← hkeys]
    rfl
  · have htargets := List.zipIdx_map_fst 0 (expand lb.backends)
    have hmap {f : Backend × ℕ → Ipv4Addr × UInt16} (hf : ∀ e, f e = e.1.target) :
        (expand lb.backends).zipIdx.map f = (expand lb.backends).map Backend.target := by
      conv_rhs => rw [← htargets, List.map_map]
      exact List.map_congr_left fun e _ => hf e
    rw [List.map_map, hmap, expand_targets]
    exact fun _ => rfl
  · rw [mem_addresses]
    constructor
    · rintro ⟨b, hb, hweight, rfl⟩
      have hmem : b ∈ (expand lb.backends).zipIdx.map Prod.fst := by
        rw [List.zipIdx_map_fst]
        exact mem_expand.mpr ⟨hb, hweight⟩
      obtain ⟨⟨b', key⟩, he, rfl⟩ := List.mem_map.mp hmem
      exact ⟨key, b'.port, List.mem_map.mpr ⟨_, he, rfl⟩⟩
    · rintro ⟨key, port, hmem⟩
      obtain ⟨⟨b, key'⟩, he, heq⟩ := List.mem_map.mp hmem
      cases heq
      have hb : b ∈ (expand lb.backends).zipIdx.map Prod.fst := List.mem_map.mpr ⟨_, he, rfl⟩
      rw [List.zipIdx_map_fst] at hb
      obtain ⟨hb, hweight⟩ := mem_expand.mp hb
      exact ⟨b, hb, hweight, rfl⟩

theorem balanced_dispatched (foreign : Bool) {modulus : ℕ} {map : List (ℕ × Ipv4Addr × UInt16)}
    (hne : expand lb.backends ≠ []) (hbalance : balance lb = .balance lb.algorithm modulus map) (hlb : lb ∈ rs.lbs)
    (first : List Rule) :
    Dispatched lb modulus map (first ++ rs.lbs.flatMap (balanced foreign)) := by
  obtain ⟨before, after, hlbs⟩ := List.append_of_mem hlb
  refine ⟨first ++ before.flatMap (balanced foreign), balanced foreign lb, after.flatMap (balanced foreign), ?_, ?_, ?_⟩
  · rw [hlbs, List.flatMap_append, List.flatMap_cons]
    simp only [List.append_assoc]
  · unfold balanced
    rw [if_neg (by simpa using hne), List.map_cons, List.map_map]
    rfl
  · intro r hr
    unfold balanced at hr
    rw [if_neg (by simpa using hne)] at hr
    obtain rfl | hr := List.mem_cons.mp hr
    · exact ⟨rfl, hbalance, rfl⟩
    · obtain ⟨port, -, rfl⟩ := List.mem_map.mp hr
      exact ⟨rfl, hbalance, rfl⟩

theorem spreads_of_backend (hlb : lb ∈ rs.lbs) (hbackend : ∃ b ∈ lb.backends, 0 < b.weight) : rs.Spreads lb := by
  have hne := expand_ne_nil_iff.mpr hbackend
  obtain ⟨modulus, map, hbalance, hspread, haddrs⟩ := spread_balance lb
  refine ⟨modulus, map, hspread, balanced_dispatched true hne hbalance hlb _,
    balanced_dispatched false hne hbalance hlb _, ?_⟩
  refine ⟨⟨addresses lb.backends, lbTag lb⟩, List.mem_flatMap.mpr ⟨lb, hlb, ?_⟩, rfl, haddrs⟩
  unfold masqueraded
  rw [if_neg (by simpa using hne)]
  exact List.mem_cons_self

end Spread

/-! ## Without -/

section Refusal
variable {rs : Ruleset} {lb : LbRule}

/-- Only connections to the address of a load balancer get a verdict. -/
theorem stop_entry {r : Rule} (hr : r ∈ rs.rules) {policy : NoBackends} (hstop : r.treatment = .stop policy) :
    ∃ addr port, r.entry = .vip addr port := by
  have hchain (foreign : Bool) : r ∉ rs.containers.flatMap (fun c => c.publish.map (forwarded foreign c)) ++
      rs.lbs.flatMap (balanced foreign) := by
    intro hmem
    obtain hmem | hmem := List.mem_append.mp hmem
    · obtain ⟨c, -, hmem⟩ := List.mem_flatMap.mp hmem
      obtain ⟨p, -, rfl⟩ := List.mem_map.mp hmem
      cases hstop
    · obtain ⟨lb, -, hmem⟩ := List.mem_flatMap.mp hmem
      unfold balanced at hmem
      split at hmem
      · cases hmem
      · obtain rfl | hmem := List.mem_cons.mp hmem
        · cases hstop
        · obtain ⟨port, -, rfl⟩ := List.mem_map.mp hmem
          cases hstop
  obtain hr | hr := List.mem_append.mp hr
  · exact ((List.mem_append.mp hr).elim (hchain true) (hchain false)).elim
  · obtain ⟨lb, -, hr⟩ := List.mem_flatMap.mp hr
    unfold stopped at hr
    split at hr
    · obtain rfl := List.mem_singleton.mp hr
      exact ⟨_, _, rfl⟩
    · cases hr

theorem refuses_iff (hlb : lb ∈ rs.lbs) (hnone : expand lb.backends = []) : rs.Refuses lb ↔ lb.publish = [] := by
  constructor
  · intro h
    cases hpublish : lb.publish with
    | nil => rfl
    | cons port ports =>
      have hmem : Entry.host port ∈ lb.entries := by simp [LbRule.entries, hpublish]
      obtain ⟨r, hr, hentry, -, hstop⟩ := h _ hmem
      obtain ⟨addr, listen, hvip⟩ := stop_entry hr hstop
      rw [hentry] at hvip
      cases hvip
  · intro hpublish e he
    have hvip : e = .vip lb.vip lb.listen := by simpa [LbRule.entries, hpublish] using he
    refine ⟨⟨false, .vip lb.vip lb.listen, lb.proto, .stop lb.onNoBackends, lbTag lb⟩, ?_, hvip.symm, rfl, rfl⟩
    refine List.mem_append_right _ (List.mem_flatMap.mpr ⟨lb, hlb, ?_⟩)
    unfold stopped
    rw [if_pos (by simpa using hnone)]
    exact List.mem_cons_self

end Refusal

/-- The script is made of its lines, and the rules of a load balancer in it are complete if and only if it has
a backend or publishes nothing. -/
theorem lb_complete_iff (rs : Ruleset) : rs.render.toList = write rs.script ∧
    ∀ lb ∈ rs.lbs, rs.Complete lb ↔ (∃ b ∈ lb.backends, 0 < b.weight) ∨ lb.publish = [] := by
  refine ⟨render_eq rs, fun lb hlb => ?_⟩
  unfold Complete
  by_cases hbackend : ∃ b ∈ lb.backends, 0 < b.weight
  · rw [if_pos hbackend]
    exact ⟨fun _ => .inl hbackend, fun _ => spreads_of_backend hlb hbackend⟩
  · rw [if_neg hbackend]
    have hnone : expand lb.backends = [] := by
      by_contra hne
      exact hbackend (expand_ne_nil_iff.mp hne)
    rw [refuses_iff hlb hnone]
    exact ⟨.inr, fun h => h.resolve_left hbackend⟩

/-- A load balancer that publishes a port and has no backend yet. -/
def idleLb : LbRule where
  name := "app/web"
  vip := ⟨0xac1eff01⟩
  proto := .tcp
  listen := 80
  publish := [8080]
  algorithm := .roundRobin
  backends := []
  onNoBackends := .reject

def idleRuleset : Ruleset where
  bridge := "collocate0"
  subnet := ⟨0xac1e0000, 16⟩
  containers := []
  lbs := [idleLb]

/-- Connections to the port are left alone: the script has no rule for it. -/
theorem published_port_open : idleLb ∈ idleRuleset.lbs ∧ ¬ idleRuleset.Complete idleLb ∧
    (idleRuleset.rules.filter fun r => r.entry = .host 8080) = [] := by
  refine ⟨List.mem_cons_self, fun h => ?_, by decide⟩
  have hnone : ¬ ∃ b ∈ idleLb.backends, 0 < b.weight := by simp [idleLb]
  unfold Complete at h
  rw [if_neg hnone, refuses_iff List.mem_cons_self rfl] at h
  cases h

end Ruleset
end Collocate
