import Mathlib.Data.List.MinMax
import Collocate.Compose.Plan

/-! # Which graphs can be ordered

`topo_order` gives an order exactly when every dependency is a service and ranks can be given that every dependency
lies below. -/
namespace Collocate.Compose
set_option autoImplicit false

/-- Every dependency is a service. -/
def Closed (deps : Graph) : Prop := ∀ svc ds, deps.get? svc = some ds → ∀ d ∈ ds, deps.contains d = true

/-- Every service ranks above its dependencies. -/
def Ranks (rank : String → ℕ) (deps : Graph) : Prop := ∀ svc ds, deps.get? svc = some ds → ∀ d ∈ ds, rank d < rank svc

theorem unknownDependency_eq_none {deps : Graph} : unknownDependency deps = none ↔ Closed deps := by
  unfold unknownDependency
  rw [List.findSome?_eq_none_iff]
  constructor
  · intro h svc ds hds d hd
    have hnone := h (svc, ds) (OrdMap.get?_eq_some.mp hds)
    rw [Option.map_eq_none_iff, List.find?_eq_none] at hnone
    simpa using hnone d hd
  · intro h e he
    rw [Option.map_eq_none_iff, List.find?_eq_none]
    intro d hd
    simpa using h e.1 e.2 (OrdMap.get?_eq_some.mpr he) d hd

/-- What is left needs only what is left, and ranks above it. -/
structure Orderable (rank : String → ℕ) (remaining : Remaining) : Prop where
  closed : ∀ e ∈ remaining, ∀ d ∈ e.2, d ∈ remaining.map Prod.fst
  ranked : ∀ e ∈ remaining, ∀ d ∈ e.2, rank d < rank e.1

theorem Orderable.settleAll {rank : String → ℕ} {remaining : Remaining} (h : Orderable rank remaining)
    (rs : List String) :
    Orderable rank (rs.foldl settle remaining) := by
  have hmem : ∀ e ∈ rs.foldl settle remaining, ∃ e' ∈ remaining, e'.1 = e.1 ∧ e.2 = e'.2.filter fun d => d ∉ rs := by
    intro e he
    rw [settleAll_eq, List.mem_map] at he
    obtain ⟨e', he', rfl⟩ := he
    exact ⟨e', List.mem_of_mem_filter he', rfl, rfl⟩
  constructor
  · intro e he d hd
    obtain ⟨e', he', -, hdeps⟩ := hmem e he
    rw [hdeps, List.mem_filter] at hd
    rw [settleAll_keys, List.mem_filter]
    exact ⟨h.closed e' he' d hd.1, hd.2⟩
  · intro e he d hd
    obtain ⟨e', he', hkey, hdeps⟩ := hmem e he
    rw [hdeps, List.mem_filter] at hd
    rw [← hkey]
    exact h.ranked e' he' d hd.1

/-- Something of what is left needs nothing. -/
theorem Orderable.ready {rank : String → ℕ} {remaining : Remaining} (h : Orderable rank remaining)
    (hne : remaining ≠ []) :
    readyOf remaining ≠ [] := by
  obtain ⟨e, hargmin⟩ := Option.ne_none_iff_exists'.mp fun hnone =>
    hne (List.argmin_eq_none (f := fun e : String × List String => rank e.1) |>.mp hnone)
  have he : e ∈ remaining := List.argmin_mem hargmin
  have hempty : e.2 = [] := by
    rw [List.eq_nil_iff_forall_not_mem]
    intro d hd
    obtain ⟨e', he', rfl⟩ := List.mem_map.mp (h.closed e he d hd)
    have hle : rank e.1 ≤ rank e'.1 := List.le_of_mem_argmin (f := fun e : String × List String => rank e.1) he' hargmin
    exact absurd (h.ranked e he e'.1 hd) (Nat.not_lt.mpr hle)
  have hready : e.1 ∈ readyOf remaining := by
    rw [readyOf, List.mem_map]
    exact ⟨e, List.mem_filter.mpr ⟨he, by rw [hempty]; rfl⟩, rfl⟩
  exact List.ne_nil_of_mem hready

theorem peel_orderable {rank : String → ℕ} (fuel : ℕ) (remaining : Remaining) (order : List String)
    (h : Orderable rank remaining) (hfuel : remaining.length ≤ fuel) : (peel fuel remaining order).1 = [] := by
  induction fuel generalizing remaining order with
  | zero => exact List.length_eq_zero_iff.mp (Nat.le_zero.mp hfuel)
  | succ fuel ih =>
    unfold peel
    split
    · rename_i hready
      by_contra hne
      exact h.ready hne hready
    · rename_i r rs hready
      refine ih _ _ (h.settleAll (r :: rs)) ?_
      have hmem : r ∈ remaining.map Prod.fst := by
        have hr : r ∈ readyOf remaining := by rw [hready]; exact List.mem_cons_self ..
        exact (List.filter_sublist.map _).subset hr
      have hkeys := congrArg List.length (settleAll_keys (r :: rs) remaining)
      have hlt : ((remaining.map Prod.fst).filter fun k => k ∉ r :: rs).length < (remaining.map Prod.fst).length :=
        List.length_filter_lt_length_iff_exists.mpr ⟨r, hmem, by simp⟩
      rw [List.length_map] at hkeys hlt
      omega

theorem topoOrder_of_ranks {deps : Graph} (hclosed : Closed deps) {rank : String → ℕ} (hranks : Ranks rank deps) :
    ∃ order, topoOrder deps = .ok order := by
  have horderable : Orderable rank (deps.entries.map fun e => (e.1, sortedSet e.2)) := by
    constructor
    · intro e he d hd
      obtain ⟨e', he', rfl⟩ := List.mem_map.mp he
      have hcontains := hclosed e'.1 e'.2 (OrdMap.get?_eq_some.mpr he') d (mem_sortedSet.mp hd)
      obtain ⟨ds, hds⟩ := Option.isSome_iff_exists.mp hcontains
      rw [List.map_map]
      exact List.mem_map.mpr ⟨(d, ds), OrdMap.get?_eq_some.mp hds, rfl⟩
    · intro e he d hd
      obtain ⟨e', he', rfl⟩ := List.mem_map.mp he
      exact hranks e'.1 e'.2 (OrdMap.get?_eq_some.mpr he') d (mem_sortedSet.mp hd)
  have hpeel := peel_orderable ((deps.entries.map fun e => (e.1, sortedSet e.2)).length + 1) _ [] horderable
    (Nat.le_succ _)
  unfold topoOrder
  rw [unknownDependency_eq_none.mpr hclosed]
  dsimp only
  split
  · exact ⟨_, rfl⟩
  · rename_i heq
    rw [heq] at hpeel
    cases hpeel

/-- An order ranks the services by their places. -/
theorem Ordered.ranks {deps : Graph} {order : List String} (h : Ordered deps order) (hnodup : order.Nodup)
    (hall : ∀ svc, svc ∈ order ↔ svc ∈ deps.keys) : Ranks (fun svc => order.idxOf svc) deps := by
  intro svc ds hds d hd
  have hsvc : svc ∈ order := (hall svc).mpr (OrdMap.mem_keys.mpr ⟨ds, hds⟩)
  obtain ⟨before, after, rfl⟩ := List.append_of_mem hsvc
  have hdep := h before svc after rfl ds hds d hd
  have hnot : svc ∉ before := by
    rw [List.nodup_append] at hnodup
    intro hin
    exact hnodup.2.2 svc hin svc (List.mem_cons_self ..) rfl
  show List.idxOf d (before ++ svc :: after) < List.idxOf svc (before ++ svc :: after)
  rw [List.idxOf_append_of_mem hdep, List.idxOf_append_of_notMem hnot, List.idxOf_cons_self]
  exact (List.idxOf_lt_length_of_mem hdep).trans_le (Nat.le_add_right ..)

theorem topoOrder_ok_iff {deps : Graph} :
    (∃ order, topoOrder deps = .ok order) ↔ Closed deps ∧ ∃ rank, Ranks rank deps := by
  constructor
  · intro h
    obtain ⟨order, horder⟩ := h
    obtain ⟨hnodup, hall⟩ := topoOrder_spec horder
    have hclosed : unknownDependency deps = none := by
      unfold topoOrder at horder
      split at horder
      · cases horder
      · assumption
    exact ⟨unknownDependency_eq_none.mp hclosed, _, (topoOrder_ordered horder).ranks hnodup hall⟩
  · intro h
    obtain ⟨hclosed, rank, hranks⟩ := h
    exact topoOrder_of_ranks hclosed hranks

end Collocate.Compose
