import Mathlib.Data.List.Chain
import Mathlib.Data.List.Nodup
import Mathlib.Data.List.Perm.Subperm
import Mathlib.Data.List.TakeWhile
import Mathlib.Logic.Relation
import Collocate.Compose.Order

/-! # The cycle that is named

When `topo_order` gives no order though every dependency is a service, what is left over needs only what is left
over, so the walk from service to dependency comes back to where it has been. -/
namespace Collocate.Compose
set_option autoImplicit false

/-- The service lists the other among its dependencies. -/
def NeedsNext (deps : Graph) (svc d : String) : Prop := ∃ ds, deps.get? svc = some ds ∧ d ∈ ds

def Acyclic (deps : Graph) : Prop := ∀ svc, ¬Relation.TransGen (NeedsNext deps) svc svc

/-- Services of which each needs the next, and the last is the first. -/
structure Cycle (deps : Graph) (path : List String) : Prop where
  chain : path.IsChain (NeedsNext deps)
  long : 2 ≤ path.length
  closes : path.getLast? = path.head?

/-! ## What is left over -/

/-- What is left needs only what is left, and really needs it. -/
structure Tied (deps : Graph) (remaining : Remaining) : Prop where
  closed : ∀ e ∈ remaining, ∀ d ∈ e.2, d ∈ remaining.map Prod.fst
  real : ∀ e ∈ remaining, ∀ d ∈ e.2, NeedsNext deps e.1 d

theorem Tied.settleAll {deps : Graph} {remaining : Remaining} (h : Tied deps remaining) (rs : List String) :
    Tied deps (rs.foldl settle remaining) := by
  have hmem : ∀ e ∈ rs.foldl settle remaining, ∃ e' ∈ remaining, e'.1 = e.1 ∧ e.2 = e'.2.filter fun d => d ∉ rs := by
    intro e he
    rw [settleAll_eq, List.mem_map] at he
    obtain ⟨e', he', rfl⟩ := he
    exact ⟨e', List.mem_of_mem_filter he', rfl, rfl⟩
  constructor
  · intro e he d hd
    obtain ⟨e', he', -, hdeps⟩ := hmem e he
    rw [hdeps, List.mem_filter] at hd
    rw [settleAll_keys, List.mem_filter]
    exact ⟨h.closed e' he' d hd.1, hd.2⟩
  · intro e he d hd
    obtain ⟨e', he', hkey, hdeps⟩ := hmem e he
    rw [hdeps, List.mem_filter] at hd
    rw [← hkey]
    exact h.real e' he' d hd.1

theorem peel_tied {deps : Graph} (fuel : ℕ) (remaining : Remaining) (order : List String) (h : Tied deps remaining) :
    Tied deps (peel fuel remaining order).1 := by
  induction fuel generalizing remaining order with
  | zero => exact h
  | succ fuel ih =>
    unfold peel
    split
    · exact h
    · exact ih _ _ (h.settleAll _)

/-- With a turn for each service, the loop ends because nothing is ready. -/
theorem peel_ends (fuel : ℕ) (remaining : Remaining) (order : List String) (hfuel : remaining.length < fuel) :
    readyOf (peel fuel remaining order).1 = [] := by
  induction fuel generalizing remaining order with
  | zero => omega
  | succ fuel ih =>
    unfold peel
    split
    · assumption
    · rename_i r rs hready
      refine ih _ _ ?_
      have hmem : r ∈ remaining.map Prod.fst := by
        have hr : r ∈ readyOf remaining := by rw [hready]; exact List.mem_cons_self ..
        exact (List.filter_sublist.map _).subset hr
      have hkeys := congrArg List.length (settleAll_keys (r :: rs) remaining)
      have hlt : ((remaining.map Prod.fst).filter fun k => k ∉ r :: rs).length < (remaining.map Prod.fst).length :=
        List.length_filter_lt_length_iff_exists.mpr ⟨r, hmem, by simp⟩
      rw [List.length_map] at hkeys hlt
      omega

/-! ## The walk -/

section Walk
variable {deps : Graph} {leftover : Remaining} {start : String}

/-- What the walk goes to next. -/
def nextOf (leftover : Remaining) (start cur : String) : String :=
  ((leftover.find? fun e => e.1 = cur).bind fun e => e.2.head?).getD start

theorem nextOf_real (htied : Tied deps leftover) (hready : readyOf leftover = []) {cur : String}
    (hcur : cur ∈ leftover.map Prod.fst) :
    NeedsNext deps cur (nextOf leftover start cur) ∧ nextOf leftover start cur ∈ leftover.map Prod.fst := by
  obtain ⟨e, he, hkey⟩ := List.mem_map.mp hcur
  have hsome : (leftover.find? fun e => e.1 = cur).isSome := List.find?_isSome.mpr ⟨e, he, decide_eq_true hkey⟩
  obtain ⟨found, hfound⟩ := Option.isSome_iff_exists.mp hsome
  have hmem := List.mem_of_find?_eq_some hfound
  have hname : found.1 = cur := by
    have hfits := List.find?_some hfound
    exact of_decide_eq_true hfits
  have hnonempty : found.2 ≠ [] := by
    intro hnil
    have hin : found.1 ∈ readyOf leftover :=
      List.mem_map.mpr ⟨found, List.mem_filter.mpr ⟨hmem, by rw [hnil]; rfl⟩, rfl⟩
    rw [hready] at hin
    cases hin
  obtain ⟨d, ds, hdeps⟩ := List.exists_cons_of_ne_nil hnonempty
  have hnext : nextOf leftover start cur = d := by
    unfold nextOf
    rw [hfound, Option.bind_some, hdeps]
    rfl
  have hd : d ∈ found.2 := by rw [hdeps]; exact List.mem_cons_self
  rw [hnext]
  exact ⟨hname ▸ htied.real found hmem d hd, htied.closed found hmem d hd⟩

/-- Where the walk has been: along dependencies, through services that are left over, to none of them twice. -/
structure Walked (deps : Graph) (leftover : Remaining) (path : List String) (cur : String) : Prop where
  chain : path.IsChain (NeedsNext deps)
  last : path.getLast? = some cur
  within : ∀ p ∈ path, p ∈ leftover.map Prod.fst
  nodup : path.Nodup

theorem Walked.length_le {path : List String} {cur : String} (h : Walked deps leftover path cur) :
    path.length ≤ leftover.length := by
  have hle := (h.nodup.subperm h.within).length_le
  rwa [List.length_map] at hle

theorem Walked.extend {path : List String} {cur next : String} (h : Walked deps leftover path cur)
    (hreal : NeedsNext deps cur next) (hmem : next ∈ leftover.map Prod.fst) (hnew : next ∉ path) :
    Walked deps leftover (path ++ [next]) next where
  chain := by
    refine h.chain.append (List.isChain_singleton next) ?_
    intro a ha b hb
    rw [h.last] at ha
    cases ha
    cases hb
    exact hreal
  last := List.getLast?_concat
  within p hp := by
    cases List.mem_append.mp hp with
    | inl hp => exact h.within p hp
    | inr hp => rwa [List.mem_singleton.mp hp]
  nodup := List.nodup_append.mpr ⟨h.nodup, List.nodup_singleton next, fun a ha b hb hab => by
    rw [List.mem_singleton.mp hb] at hab
    exact hnew (hab ▸ ha)⟩

/-- From where it comes back to, the walk is a cycle. -/
theorem Walked.cycle {path : List String} {cur next : String} (h : Walked deps leftover path cur)
    (hreal : NeedsNext deps cur next) (hold : next ∈ path) : Cycle deps (path.dropWhile (· ≠ next) ++ [next]) := by
  have hne : path.dropWhile (· ≠ next) ≠ [] := by
    intro hnil
    rw [List.dropWhile_eq_nil_iff] at hnil
    have hall := hnil next hold
    simp at hall
  have hhead : (path.dropWhile (· ≠ next)).head? = some next := by
    have hfirst := List.head_dropWhile_not (fun p => decide (p ≠ next)) hne
    rw [List.head?_eq_some_head hne]
    simpa using hfirst
  have hsuffix : path.dropWhile (· ≠ next) <:+ path := List.dropWhile_suffix _
  have hlast : (path.dropWhile (· ≠ next)).getLast? = some cur := by
    rw [← h.last]
    obtain ⟨front, hfront⟩ := hsuffix
    conv_rhs => rw [← hfront]
    rw [List.getLast?_append_of_ne_nil _ hne]
  constructor
  · refine (h.chain.suffix hsuffix).append (List.isChain_singleton next) ?_
    intro a ha b hb
    rw [hlast] at ha
    cases ha
    cases hb
    exact hreal
  · have hpos := List.length_pos_iff.mpr hne
    rw [List.length_append, List.length_singleton]
    omega
  · rw [List.getLast?_concat, List.head?_append_of_ne_nil _ hne, hhead]

/-- The walk ends, and what it names is a cycle: its loop from a path and where that has come to. -/
inductive Named (leftover : Remaining) (start : String) : List String → String → List String → Prop
  | back (path : List String) (cur : String) (hold : nextOf leftover start cur ∈ path) :
      Named leftover start path cur
        (path.dropWhile (· ≠ nextOf leftover start cur) ++ [nextOf leftover start cur])
  | on (path : List String) (cur : String) (cycle : List String) (hnew : nextOf leftover start cur ∉ path)
      (hrest : Named leftover start (path ++ [nextOf leftover start cur]) (nextOf leftover start cur) cycle) :
      Named leftover start path cur cycle

theorem walkCycle_named (htied : Tied deps leftover) (hready : readyOf leftover = []) (fuel : ℕ) {path : List String}
    {cur : String} (h : Walked deps leftover path cur) (hfuel : leftover.length < fuel + path.length) :
    Named leftover start path cur (walkCycle leftover start fuel path cur) ∧
      Cycle deps (walkCycle leftover start fuel path cur) := by
  induction fuel generalizing path cur with
  | zero =>
    have hle := h.length_le
    omega
  | succ fuel ih =>
    have hcur := h.within cur (List.mem_of_getLast? h.last)
    obtain ⟨hreal, hmem⟩ := @nextOf_real deps leftover start htied hready cur hcur
    have hturn : walkCycle leftover start (fuel + 1) path cur =
        if nextOf leftover start cur ∈ path then
          path.dropWhile (· ≠ nextOf leftover start cur) ++ [nextOf leftover start cur]
        else walkCycle leftover start fuel (path ++ [nextOf leftover start cur]) (nextOf leftover start cur) := rfl
    rw [hturn]
    split
    · rename_i hold
      exact ⟨.back path cur hold, h.cycle hreal hold⟩
    · rename_i hnew
      have hlen : leftover.length < fuel + (path ++ [nextOf leftover start cur]).length := by
        rw [List.length_append, List.length_singleton]
        omega
      obtain ⟨hnamed, hcycle⟩ := ih (h.extend hreal hmem hnew) hlen
      exact ⟨.on path cur _ hnew hnamed, hcycle⟩

end Walk

/-! ## Ranks and cycles -/

theorem Ranks.acyclic {deps : Graph} {rank : String → ℕ} (h : Ranks rank deps) : Acyclic deps := by
  have hlt : ∀ svc d, Relation.TransGen (NeedsNext deps) svc d → rank d < rank svc := by
    intro svc d hpath
    induction hpath with
    | single hstep =>
      obtain ⟨ds, hds, hd⟩ := hstep
      exact h svc ds hds _ hd
    | tail _ hstep ih =>
      obtain ⟨ds, hds, hd⟩ := hstep
      exact (h _ ds hds _ hd).trans ih
  intro svc hcycle
  exact Nat.lt_irrefl _ (hlt svc svc hcycle)

theorem chain_reaches {deps : Graph} (path : List String) (first : String)
    (hchain : (first :: path).IsChain (NeedsNext deps))
    (last : String) (hlast : path.getLast? = some last) : Relation.TransGen (NeedsNext deps) first last := by
  induction path generalizing first with
  | nil => cases hlast
  | cons next rest ih =>
    obtain ⟨hstep, hrest⟩ := List.isChain_cons_cons.mp hchain
    cases rest with
    | nil =>
      cases hlast
      exact .single hstep
    | cons third rest =>
      rw [List.getLast?_cons_cons] at hlast
      exact .head hstep (ih next hrest hlast)

theorem Cycle.not_acyclic {deps : Graph} {path : List String} (h : Cycle deps path) : ¬Acyclic deps := by
  intro hacyclic
  obtain ⟨chain, long, closes⟩ := h
  cases path with
  | nil => simp at long
  | cons first rest =>
    cases rest with
    | nil => simp at long
    | cons second rest =>
      rw [List.getLast?_cons_cons, List.head?_cons] at closes
      exact hacyclic first (chain_reaches _ first chain first closes)

/-! ## The order decides -/

/-- The services and their dependencies as the ordering begins. -/
def openOf (deps : Graph) : Remaining := deps.entries.map fun e => (e.1, sortedSet e.2)

/-- What the ordering leaves over. -/
def leftOver (deps : Graph) : Remaining := (peel ((openOf deps).length + 1) (openOf deps) []).1

theorem openOf_tied {deps : Graph} (hclosed : Closed deps) : Tied deps (openOf deps) := by
  constructor
  · intro e he d hd
    obtain ⟨e', he', rfl⟩ := List.mem_map.mp he
    have hcontains := hclosed e'.1 e'.2 (OrdMap.get?_eq_some.mpr he') d (mem_sortedSet.mp hd)
    obtain ⟨ds, hds⟩ := Option.isSome_iff_exists.mp hcontains
    rw [openOf, List.map_map]
    exact List.mem_map.mpr ⟨(d, ds), OrdMap.get?_eq_some.mp hds, rfl⟩
  · intro e he d hd
    obtain ⟨e', he', rfl⟩ := List.mem_map.mp he
    exact ⟨e'.2, OrdMap.get?_eq_some.mpr he', mem_sortedSet.mp hd⟩

/-- Where the graph is closed, what is left over decides. -/
theorem topoOrder_cases {deps : Graph} (hclosed : Closed deps) :
    (leftOver deps = [] ∧ ∃ order, topoOrder deps = .ok order) ∨
      ∃ start ds rest, leftOver deps = (start, ds) :: rest ∧
        topoOrder deps = .error (.invalidSpec ("cycle among services " ++
          Text.joinWith " -> " (walkCycle (leftOver deps) start (rest.length + 2) [start] start))) := by
  have hopen : (deps.entries.map fun e => (e.1, sortedSet e.2)) = openOf deps := rfl
  unfold topoOrder leftOver
  simp only [unknownDependency_eq_none.mpr hclosed, hopen]
  generalize peel ((openOf deps).length + 1) (openOf deps) [] = left
  obtain ⟨remaining, order⟩ := left
  cases remaining with
  | nil => exact Or.inl ⟨rfl, order, rfl⟩
  | cons e rest => exact Or.inr ⟨e.1, e.2, rest, rfl, rfl⟩

/-- Both loops end; the order there is exactly for closed graphs without a cycle, and a closed graph with one has one
named. -/
theorem topoOrder_decides (deps : Graph) :
    ((∃ order, topoOrder deps = .ok order) ↔ Closed deps ∧ Acyclic deps) ∧
    (∀ order, topoOrder deps = .ok order →
      order.Nodup ∧ (∀ svc, svc ∈ order ↔ svc ∈ deps.keys) ∧ Ordered deps order) ∧
    readyOf (leftOver deps) = [] ∧
    (Closed deps → ¬Acyclic deps → ∃ start cycle, Named (leftOver deps) start [start] start cycle ∧
      Cycle deps cycle ∧
      topoOrder deps = .error (.invalidSpec ("cycle among services " ++ Text.joinWith " -> " cycle))) := by
  have hends : readyOf (leftOver deps) = [] := peel_ends _ _ _ (Nat.lt_succ_self _)
  have hnamed : ∀ start ds rest, Closed deps → leftOver deps = (start, ds) :: rest →
      Named (leftOver deps) start [start] start (walkCycle (leftOver deps) start (rest.length + 2) [start] start) ∧
        Cycle deps (walkCycle (leftOver deps) start (rest.length + 2) [start] start) := by
    intro start ds rest hclosed hleft
    have hwalked : Walked deps (leftOver deps) [start] start := by
      refine ⟨List.isChain_singleton start, rfl, fun p hp => ?_, List.nodup_singleton start⟩
      rw [List.mem_singleton.mp hp, hleft]
      exact List.mem_cons_self
    have htied : Tied deps (leftOver deps) := peel_tied _ _ _ (openOf_tied hclosed)
    refine walkCycle_named htied hends _ hwalked ?_
    rw [hleft, List.length_cons, List.length_singleton]
    omega
  have hok : (∃ order, topoOrder deps = .ok order) ↔ Closed deps ∧ Acyclic deps := by
    constructor
    · intro h
      obtain ⟨hclosed, rank, hranks⟩ := topoOrder_ok_iff.mp h
      exact ⟨hclosed, hranks.acyclic⟩
    · intro h
      cases topoOrder_cases h.1 with
      | inl hdone => exact hdone.2
      | inr hleft =>
        obtain ⟨start, ds, rest, hleft, -⟩ := hleft
        exact absurd h.2 (hnamed start ds rest h.1 hleft).2.not_acyclic
  refine ⟨hok, ?_, hends, ?_⟩
  · intro order horder
    obtain ⟨hnodup, hall⟩ := topoOrder_spec horder
    exact ⟨hnodup, hall, topoOrder_ordered horder⟩
  · intro hclosed hcyclic
    cases topoOrder_cases hclosed with
    | inl hdone => exact absurd (hok.mp hdone.2).2 hcyclic
    | inr hleft =>
      obtain ⟨start, ds, rest, hleft, herror⟩ := hleft
      obtain ⟨hfound, hcycle⟩ := hnamed start ds rest hclosed hleft
      exact ⟨start, _, hfound, hcycle, herror⟩

end Collocate.Compose
