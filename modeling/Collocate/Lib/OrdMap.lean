import Mathlib.Data.String.Basic
import Mathlib.Data.List.Pairwise
import Mathlib.Order.Basic

/-! # Ordered maps

`OrdMap K V` is an association list sorted by key, the sortedness a field: what `BTreeMap` is to a
program that only looks up, inserts, removes and iterates in key order. -/
namespace Collocate
set_option autoImplicit false

structure OrdMap (K V : Type) [LinearOrder K] where
  entries : List (K × V)
  sorted : entries.Pairwise fun a b => a.1 < b.1

namespace OrdMap

variable {K V W : Type} [LinearOrder K]

instance [DecidableEq V] : DecidableEq (OrdMap K V) := fun a b =>
  decidable_of_iff (a.entries = b.entries) ⟨fun h => by cases a; cases b; cases h; rfl, fun h => h ▸ rfl⟩

/-! ## Operations -/

def lookup (k : K) : List (K × V) → Option V
  | [] => none
  | (k', v) :: rest => if k = k' then some v else lookup k rest

def insertList (k : K) (v : V) : List (K × V) → List (K × V)
  | [] => [(k, v)]
  | (k', v') :: rest =>
    if k < k' then (k, v) :: (k', v') :: rest
    else if k = k' then (k, v) :: rest
    else (k', v') :: insertList k v rest

theorem insertList_key {k : K} {v : V} {l : List (K × V)} {e : K × V} (h : e ∈ insertList k v l) :
    e = (k, v) ∨ e ∈ l := by
  induction l with
  | nil => exact Or.inl (List.mem_singleton.mp h)
  | cons x l ih =>
    unfold insertList at h
    split at h
    · rcases List.mem_cons.mp h with h | h
      · exact Or.inl h
      · exact Or.inr h
    · split at h
      · rcases List.mem_cons.mp h with h | h
        · exact Or.inl h
        · exact Or.inr (List.mem_cons_of_mem _ h)
      · rcases List.mem_cons.mp h with h | h
        · exact Or.inr (h ▸ List.mem_cons_self ..)
        · exact (ih h).imp id (List.mem_cons_of_mem _)

theorem insertList_sorted (k : K) (v : V) {l : List (K × V)} (h : l.Pairwise fun a b => a.1 < b.1) :
    (insertList k v l).Pairwise fun a b => a.1 < b.1 := by
  induction l with
  | nil => exact List.pairwise_singleton _ _
  | cons x l ih =>
    obtain ⟨hx, hl⟩ := List.pairwise_cons.mp h
    unfold insertList
    split
    · rename_i hlt
      refine List.pairwise_cons.mpr ⟨fun e he => ?_, h⟩
      rcases List.mem_cons.mp he with rfl | he
      · exact hlt
      · exact lt_trans hlt (hx e he)
    · rename_i hnlt
      split
      · rename_i heq
        exact List.pairwise_cons.mpr ⟨fun e he => heq ▸ hx e he, hl⟩
      · rename_i hne
        refine List.pairwise_cons.mpr ⟨fun e he => ?_, ih hl⟩
        rcases insertList_key he with rfl | he
        · exact lt_of_le_of_ne (not_lt.mp hnlt) (fun h => hne h.symm)
        · exact hx e he

def empty : OrdMap K V := ⟨[], List.Pairwise.nil⟩

instance : Inhabited (OrdMap K V) := ⟨empty⟩

def get? (m : OrdMap K V) (k : K) : Option V := lookup k m.entries

def contains (m : OrdMap K V) (k : K) : Bool := (m.get? k).isSome

def insert (m : OrdMap K V) (k : K) (v : V) : OrdMap K V :=
  ⟨insertList k v m.entries, insertList_sorted k v m.sorted⟩

def erase (m : OrdMap K V) (k : K) : OrdMap K V :=
  ⟨m.entries.filter fun e => e.1 ≠ k, m.sorted.sublist List.filter_sublist⟩

/-- `BTreeMap::retain`. -/
def retain (p : K → V → Bool) (m : OrdMap K V) : OrdMap K V :=
  ⟨m.entries.filter fun e => p e.1 e.2, m.sorted.sublist List.filter_sublist⟩

def keys (m : OrdMap K V) : List K := m.entries.map Prod.fst

def values (m : OrdMap K V) : List V := m.entries.map Prod.snd

def isEmpty (m : OrdMap K V) : Bool := m.entries.isEmpty

def mapValues (f : K → V → W) (m : OrdMap K V) : OrdMap K W :=
  ⟨m.entries.map fun e => (e.1, f e.1 e.2), List.pairwise_map.mpr m.sorted⟩

/-- `BTreeMap::from_iter`: a later value for a key replaces an earlier one. -/
def ofList (l : List (K × V)) : OrdMap K V := l.foldl (fun m e => m.insert e.1 e.2) empty

/-! ## Lookup -/

theorem lookup_insertList (k k' : K) (v : V) (l : List (K × V)) :
    lookup k' (insertList k v l) = if k' = k then some v else lookup k' l := by
  induction l with
  | nil => rfl
  | cons x l ih =>
    obtain ⟨y, w⟩ := x
    unfold insertList
    split
    · rfl
    · split
      · rename_i heq
        subst heq
        by_cases h : k' = k <;> simp [lookup, h]
      · rename_i hne
        simp only [lookup, ih]
        by_cases h : k' = y
        · subst h
          simp [Ne.symm hne]
        · simp [h]

@[simp] theorem get?_insert (m : OrdMap K V) (k k' : K) (v : V) :
    (m.insert k v).get? k' = if k' = k then some v else m.get? k' :=
  lookup_insertList k k' v m.entries

@[simp] theorem get?_empty (k : K) : (empty : OrdMap K V).get? k = none := rfl

theorem lookup_eq_some {k : K} {v : V} {l : List (K × V)} (h : l.Pairwise fun a b => a.1 < b.1) :
    lookup k l = some v ↔ (k, v) ∈ l := by
  induction l with
  | nil => simp [lookup]
  | cons x l ih =>
    obtain ⟨y, w⟩ := x
    obtain ⟨hx, hl⟩ := List.pairwise_cons.mp h
    by_cases hk : k = y
    · subst hk
      simp only [lookup, if_true, Option.some.injEq, List.mem_cons, Prod.mk.injEq, true_and]
      constructor
      · intro hw
        exact Or.inl hw.symm
      · rintro (hv | hmem)
        · exact hv.symm
        · exact absurd (hx _ hmem) (lt_irrefl _)
    · simp [lookup, hk, ih hl]

theorem get?_eq_some {m : OrdMap K V} {k : K} {v : V} : m.get? k = some v ↔ (k, v) ∈ m.entries :=
  lookup_eq_some m.sorted

theorem mem_keys {m : OrdMap K V} {k : K} : k ∈ m.keys ↔ ∃ v, m.get? k = some v := by
  simp only [keys, List.mem_map, get?_eq_some]
  constructor
  · rintro ⟨⟨a, v⟩, hmem, rfl⟩
    exact ⟨v, hmem⟩
  · rintro ⟨v, hv⟩
    exact ⟨(k, v), hv, rfl⟩

theorem keys_nodup (m : OrdMap K V) : m.keys.Nodup := by
  have h : m.keys.Pairwise (· < ·) := List.pairwise_map.mpr m.sorted
  exact h.imp fun hlt => ne_of_lt hlt

@[simp] theorem keys_mapValues (f : K → V → W) (m : OrdMap K V) : (m.mapValues f).keys = m.keys := by
  simp [keys, mapValues, Function.comp_def]

/-! ## Extensionality -/

theorem ext_get? {m m' : OrdMap K V} (h : ∀ k, m.get? k = m'.get? k) : m = m' := by
  have hnodup (n : OrdMap K V) : n.entries.Nodup := n.sorted.imp fun hlt heq => by simp [heq] at hlt
  have hperm : m.entries.Perm m'.entries := by
    refine (List.perm_ext_iff_of_nodup (hnodup m) (hnodup m')).mpr fun e => ?_
    rw [← get?_eq_some, ← get?_eq_some, h e.1]
  have heq : m.entries = m'.entries :=
    hperm.eq_of_pairwise (fun _ _ _ _ hlt hgt => absurd hgt (lt_asymm hlt)) m.sorted m'.sorted
  cases m
  cases m'
  cases heq
  rfl

/-- Maps that agree on the values of one kind list them alike. -/
theorem filter_values_congr {m m' : OrdMap K V} {p : V → Bool}
    (h : ∀ k v, p v = true → (m.get? k = some v ↔ m'.get? k = some v)) : m.values.filter p = m'.values.filter p := by
  have hnodup (n : OrdMap K V) : n.entries.Nodup := n.sorted.imp fun hlt heq => by simp [heq] at hlt
  have hperm : (m.entries.filter fun e => p e.2).Perm (m'.entries.filter fun e => p e.2) := by
    refine (List.perm_ext_iff_of_nodup ((hnodup m).filter _) ((hnodup m').filter _)).mpr fun e => ?_
    rw [List.mem_filter, List.mem_filter, ← get?_eq_some, ← get?_eq_some]
    exact and_congr_left fun hp => h e.1 e.2 hp
  have heq := hperm.eq_of_pairwise (fun _ _ _ _ hlt hgt => absurd hgt (lt_asymm hlt))
    (m.sorted.filter _) (m'.sorted.filter _)
  have hmap (n : OrdMap K V) : n.values.filter p = (n.entries.filter fun e => p e.2).map Prod.snd := by
    unfold values
    rw [List.filter_map]
    rfl
  rw [hmap, hmap, heq]

@[simp] theorem get?_erase (m : OrdMap K V) (k k' : K) :
    (m.erase k).get? k' = if k' = k then none else m.get? k' := by
  refine Option.ext fun v => ?_
  rw [get?_eq_some]
  by_cases hk : k' = k
  · simp [erase, hk]
  · simp [erase, hk, get?_eq_some]

@[simp] theorem get?_retain (p : K → V → Bool) (m : OrdMap K V) (k : K) :
    (m.retain p).get? k = (m.get? k).filter (p k) := by
  refine Option.ext fun v => ?_
  rw [get?_eq_some, Option.filter_eq_some_iff, get?_eq_some]
  exact List.mem_filter

@[simp] theorem get?_mapValues (f : K → V → W) (m : OrdMap K V) (k : K) :
    (m.mapValues f).get? k = (m.get? k).map (f k) := by
  refine Option.ext fun v => ?_
  simp only [get?_eq_some, mapValues, List.mem_map, Option.map_eq_some_iff, Prod.exists, Prod.mk.injEq]
  constructor
  · rintro ⟨a, b, hmem, rfl, rfl⟩
    exact ⟨b, hmem, rfl⟩
  · rintro ⟨b, hmem, rfl⟩
    exact ⟨k, b, hmem, rfl, rfl⟩

theorem insert_of_get? {m : OrdMap K V} {k : K} {v : V} (h : m.get? k = some v) : m.insert k v = m := by
  refine ext_get? fun k' => ?_
  rw [get?_insert]
  split
  · rename_i hk
    rw [hk, h]
  · rfl

theorem mapValues_insert (f : K → V → W) (m : OrdMap K V) (k : K) (v : V) :
    (m.insert k v).mapValues f = (m.mapValues f).insert k (f k v) := by
  refine ext_get? fun k' => ?_
  simp only [get?_mapValues, get?_insert]
  split
  · rename_i hk
    rw [hk]
    rfl
  · rfl

theorem mapValues_erase (f : K → V → W) (m : OrdMap K V) (k : K) :
    (m.erase k).mapValues f = (m.mapValues f).erase k := by
  refine ext_get? fun k' => ?_
  simp only [get?_mapValues, get?_erase]
  split <;> rfl

theorem mapValues_mapValues {X : Type} {f : K → V → W} {g : K → W → X} {h : K → V → X}
    (hgf : ∀ k v, g k (f k v) = h k v) (m : OrdMap K V) : (m.mapValues f).mapValues g = m.mapValues h := by
  refine ext_get? fun k => ?_
  simp only [get?_mapValues, Option.map_map]
  exact congrArg (fun f => (m.get? k).map f) (funext fun v => hgf k v)

end OrdMap
end Collocate
