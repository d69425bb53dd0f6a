import Collocate.Lib.OrdMap
import Collocate.Core.Error

/-! # Dependency order (`collocate-compose/src/plan.rs`) -/
namespace Collocate.Compose
set_option autoImplicit false

/-- A dependency graph: every service with the services it needs. -/
abbrev Graph := OrdMap String (List String)

/-- The first dependency that is not a service. -/
def unknownDependency (deps : Graph) : Option (String × String) :=
  deps.entries.findSome? fun (svc, ds) => (ds.find? fun d => !deps.contains d).map fun d => (svc, d)

/-- What is left to order: each service with its dependencies still to come. The sets are kept as
sorted lists without repetition. -/
abbrev Remaining := List (String × List String)

/-- `remaining.remove(r)` and the removal of `r` from every set. -/
def settle (remaining : Remaining) (r : String) : Remaining :=
  (remaining.filter fun e => e.1 ≠ r).map fun e => (e.1, e.2.filter fun d => d ≠ r)

def readyOf (remaining : Remaining) : List String :=
  (remaining.filter fun e => e.2.isEmpty).map Prod.fst

/-- The loop of `topo_order`: all services without open dependencies go next. Every turn but the
last removes one, so the number of services is enough fuel. -/
def peel : ℕ → Remaining → List String → Remaining × List String
  | 0, remaining, order => (remaining, order)
  | fuel + 1, remaining, order =>
    match readyOf remaining with
    | [] => (remaining, order)
    | r :: rs => peel fuel ((r :: rs).foldl settle remaining) (order ++ r :: rs)

/-- The walk that names a cycle among the services that are left. -/
def walkCycle (leftover : Remaining) (start : String) : ℕ → List String → String → List String
  | 0, path, _ => path
  | fuel + 1, path, cur =>
    let next := ((leftover.find? fun e => e.1 = cur).bind fun e => e.2.head?).getD start
    if next ∈ path then path.dropWhile (· ≠ next) ++ [next]
    else walkCycle leftover start fuel (path ++ [next]) next

def sortedSet (l : List String) : List String :=
  (OrdMap.ofList (l.map fun d => (d, ()))).keys

def topoOrder (deps : Graph) : Result (List String) :=
  match unknownDependency deps with
  | some (svc, d) => .error (.invalidSpec s!"service {svc} depends on unknown service {d}")
  | none =>
    let remaining := deps.entries.map fun e => (e.1, sortedSet e.2)
    match peel (remaining.length + 1) remaining [] with
    | ([], order) => .ok order
    | ((start, ds) :: rest, _) =>
      let cycle := walkCycle ((start, ds) :: rest) start (rest.length + 2) [start] start
      .error (.invalidSpec ("cycle among services " ++ Text.joinWith " -> " cycle))

def shutdownOrder (order : List String) : List String := order.reverse

/-! ## The order is one of the services -/

theorem settle_keys (remaining : Remaining) (r : String) :
    (settle remaining r).map Prod.fst = (remaining.map Prod.fst).filter fun k => k ≠ r := by
  simp [settle, List.filter_map, Function.comp_def]

theorem settleAll_keys (rs : List String) (remaining : Remaining) :
    (rs.foldl settle remaining).map Prod.fst = (remaining.map Prod.fst).filter fun k => k ∉ rs := by
  induction rs generalizing remaining with
  | nil => simp
  | cons r rs ih =>
    rw [List.foldl_cons, ih, settle_keys, List.filter_filter]
    congr 1
    funext k
    simp [List.mem_cons, not_or, Bool.and_comm]

/-- What `peel` may assume and keeps: nothing is both ordered and left, and nothing twice. -/
theorem peel_nodup (fuel : ℕ) (remaining : Remaining) (order : List String)
    (h : (order ++ remaining.map Prod.fst).Nodup) :
    ((peel fuel remaining order).2 ++ (peel fuel remaining order).1.map Prod.fst).Nodup := by
  induction fuel generalizing remaining order with
  | zero => exact h
  | succ fuel ih =>
    unfold peel
    split
    · exact h
    · rename_i r rs hready
      apply ih
      have hsub : (r :: rs).Sublist (remaining.map Prod.fst) := by
        rw [← hready]
        exact List.filter_sublist.map _
      rw [settleAll_keys, List.append_assoc]
      obtain ⟨ho, hr, hdisj⟩ := List.nodup_append.mp h
      refine List.nodup_append.mpr ⟨ho, ?_, ?_⟩
      · refine List.nodup_append.mpr ⟨hr.sublist hsub, hr.filter _, ?_⟩
        rintro x hx _ hx' rfl
        simp only [List.mem_filter, decide_eq_true_eq] at hx'
        exact hx'.2 hx
      · rintro x hx y hy
        rcases List.mem_append.mp hy with hy | hy
        · exact hdisj x hx y (hsub.subset hy)
        · exact hdisj x hx y (List.mem_filter.mp hy).1

theorem peel_mem (fuel : ℕ) (remaining : Remaining) (order : List String) (x : String) :
    (x ∈ (peel fuel remaining order).2 ∨ x ∈ (peel fuel remaining order).1.map Prod.fst) ↔
      (x ∈ order ∨ x ∈ remaining.map Prod.fst) := by
  induction fuel generalizing remaining order with
  | zero => rfl
  | succ fuel ih =>
    unfold peel
    split
    · rfl
    · rename_i r rs hready
      have hsub : ∀ y ∈ r :: rs, y ∈ remaining.map Prod.fst := by
        intro y hy
        rw [← hready] at hy
        exact (List.filter_sublist.map _).subset hy
      rw [ih, settleAll_keys, List.mem_append, List.mem_filter]
      constructor
      · rintro ((hx | hx) | hx)
        · exact Or.inl hx
        · exact Or.inr (hsub x hx)
        · exact Or.inr hx.1
      · rintro (hx | hx)
        · exact Or.inl (Or.inl hx)
        · by_cases hr : x ∈ r :: rs
          · exact Or.inl (Or.inr hr)
          · exact Or.inr ⟨hx, by simpa using hr⟩

theorem topoOrder_spec {deps : Graph} {order : List String} (h : topoOrder deps = .ok order) :
    order.Nodup ∧ ∀ svc, svc ∈ order ↔ svc ∈ deps.keys := by
  unfold topoOrder at h
  split at h
  · cases h
  · simp only at h
    split at h
    · rename_i o hpeel
      cases h
      have hkeys : ((deps.entries.map fun e => (e.1, sortedSet e.2)).map Prod.fst) = deps.keys := by
        simp [OrdMap.keys, Function.comp_def]
      have hn := peel_nodup ((deps.entries.map fun e => (e.1, sortedSet e.2)).length + 1)
        (deps.entries.map fun e => (e.1, sortedSet e.2)) [] (by
          rw [List.nil_append, hkeys]
          exact deps.keys_nodup)
      have hm := peel_mem ((deps.entries.map fun e => (e.1, sortedSet e.2)).length + 1)
        (deps.entries.map fun e => (e.1, sortedSet e.2)) []
      rw [hpeel] at hn hm
      refine ⟨by simpa using hn, fun svc => ?_⟩
      have hsvc := hm svc
      rw [hkeys] at hsvc
      simpa using hsvc
    · cases h

/-! ## Dependencies come first -/

theorem mem_sortedSet {l : List String} {d : String} : d ∈ sortedSet l ↔ d ∈ l := by
  have hfold : ∀ (l : List String) (m : OrdMap String Unit),
      (∃ v, ((l.map fun d => (d, ())).foldl (fun m e => m.insert e.1 e.2) m).get? d = some v) ↔
        d ∈ l ∨ ∃ v, m.get? d = some v := by
    intro l
    induction l with
    | nil => simp
    | cons a l ih =>
      intro m
      rw [List.map_cons, List.foldl_cons, ih, OrdMap.get?_insert, List.mem_cons]
      by_cases hd : d = a
      · simp [hd]
      · simp [hd]
  rw [sortedSet, OrdMap.mem_keys, OrdMap.ofList, hfold]
  simp

theorem settleAll_eq (rs : List String) (remaining : Remaining) :
    rs.foldl settle remaining =
      (remaining.filter fun e => e.1 ∉ rs).map fun e => (e.1, e.2.filter fun d => d ∉ rs) := by
  induction rs generalizing remaining with
  | nil => simp
  | cons r rs ih =>
    rw [List.foldl_cons, ih, settle, List.filter_map, List.map_map, List.filter_filter]
    congr 1
    · funext e
      simp [List.filter_filter, Bool.and_comm]
    · congr 1
      funext e
      simp [Function.comp_def, Bool.and_comm]

/-- Everything ordered comes behind its dependencies. -/
def Ordered (deps : Graph) (order : List String) : Prop :=
  ∀ before svc after, order = before ++ svc :: after → ∀ ds, deps.get? svc = some ds → ∀ d ∈ ds, d ∈ before

/-- What is left still has the dependencies that are not ordered. -/
def Open (deps : Graph) (remaining : Remaining) (order : List String) : Prop :=
  ∀ e ∈ remaining, ∀ ds, deps.get? e.1 = some ds → ∀ d ∈ ds, d ∈ e.2 ∨ d ∈ order

theorem ordered_append {deps : Graph} {order rs : List String} (h : Ordered deps order)
    (hrs : ∀ r ∈ rs, ∀ ds, deps.get? r = some ds → ∀ d ∈ ds, d ∈ order) : Ordered deps (order ++ rs) := by
  intro before svc after hsplit ds hds d hd
  rcases List.append_eq_append_iff.mp hsplit with ⟨more, hbefore, hrest⟩ | ⟨more, horder, hrest⟩
  · rw [hbefore]
    have hmem : svc ∈ rs := by rw [hrest]; simp
    exact List.mem_append_left _ (hrs svc hmem ds hds d hd)
  · cases more with
    | nil =>
      have hmem : svc ∈ rs := by rw [List.nil_append] at hrest; rw [← hrest]; exact List.mem_cons_self ..
      rw [List.append_nil] at horder
      rw [← horder]
      exact hrs svc hmem ds hds d hd
    | cons s more =>
      obtain ⟨rfl, -⟩ := List.cons.inj hrest
      exact h before svc more horder ds hds d hd

theorem peel_ordered {deps : Graph} (fuel : ℕ) (remaining : Remaining) (order : List String)
    (hopen : Open deps remaining order) (horder : Ordered deps order) : Ordered deps (peel fuel remaining order).2 := by
  induction fuel generalizing remaining order with
  | zero => exact horder
  | succ fuel ih =>
    unfold peel
    split
    · exact horder
    · rename_i r rs hready
      apply ih
      · intro e he ds hds d hd
        rw [settleAll_eq, List.mem_map] at he
        obtain ⟨e', he', rfl⟩ := he
        cases hopen e' (List.mem_of_mem_filter he') ds hds d hd with
        | inl hleft =>
          by_cases hgone : d ∈ r :: rs
          · exact Or.inr (List.mem_append_right _ hgone)
          · exact Or.inl (List.mem_filter.mpr ⟨hleft, by simpa using hgone⟩)
        | inr hdone => exact Or.inr (List.mem_append_left _ hdone)
      · apply ordered_append horder
        intro r' hr' ds hds d hd
        rw [← hready, readyOf, List.mem_map] at hr'
        obtain ⟨e, he, rfl⟩ := hr'
        obtain ⟨he, hempty⟩ := List.mem_filter.mp he
        cases hopen e he ds hds d hd with
        | inl hleft => rw [List.isEmpty_iff.mp hempty] at hleft; cases hleft
        | inr hdone => exact hdone

theorem topoOrder_ordered {deps : Graph} {order : List String} (h : topoOrder deps = .ok order) :
    Ordered deps order := by
  unfold topoOrder at h
  split at h
  · cases h
  · simp only at h
    split at h
    · rename_i o hpeel
      cases h
      have hopen : Open deps (deps.entries.map fun e => (e.1, sortedSet e.2)) [] := by
        intro e he ds hds d hd
        obtain ⟨e', he', rfl⟩ := List.mem_map.mp he
        have hget := OrdMap.get?_eq_some.mpr he'
        rw [hget] at hds
        cases hds
        exact Or.inl (mem_sortedSet.mpr hd)
      have hnone : Ordered deps [] := by
        intro before svc after hsplit
        simp at hsplit
      have hall := peel_ordered ((deps.entries.map fun e => (e.1, sortedSet e.2)).length + 1) _ [] hopen hnone
      rw [hpeel] at hall
      exact hall
    · cases h

end Collocate.Compose
