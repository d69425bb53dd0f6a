import Mathlib.Data.List.Perm.Subperm
import Mathlib.Data.Finset.Card

/-! # Lists whose elements carry pairwise distinct keys

A table of rows with a key column `key`, no two rows sharing a key. The facts here let a proof pass
from "the row with this key" to the row itself, and bound how many rows a set of chosen keys hits.
-/
namespace Collocate.Distinct
set_option autoImplicit false

variable {α κ : Type}

/-! ## Rows and keys -/

/-- A row whose key is the key of a chosen row is that row. -/
theorem mem_of_key_mem {key : α → κ} {l ds : List α} (hl : (l.map key).Nodup) (hds : ds ⊆ l)
    {a : α} (ha : a ∈ l) (hk : key a ∈ ds.map key) : a ∈ ds := by
  obtain ⟨d, hd, he⟩ := List.mem_map.mp hk
  have hda : d = a := List.inj_on_of_nodup_map hl (hds hd) ha he
  exact hda ▸ hd

/-- The rows hit by the keys of the chosen rows are no more than the chosen rows. -/
theorem countP_key_mem_le [DecidableEq κ] {key : α → κ} {l ds : List α} (hl : (l.map key).Nodup)
    (hds : ds ⊆ l) (p : α → Bool) :
    l.countP (fun a => p a && decide (key a ∈ ds.map key)) ≤ ds.countP p := by
  rw [List.countP_eq_length_filter, List.countP_eq_length_filter]
  have hnd : (l.filter fun a => p a && decide (key a ∈ ds.map key)).Nodup :=
    (List.Nodup.of_map key hl).filter _
  refine (hnd.subperm ?_).length_le
  intro a ha
  simp only [List.mem_filter, Bool.and_eq_true, decide_eq_true_eq] at ha ⊢
  exact ⟨mem_of_key_mem hl hds ha.1 ha.2.2, ha.2.1⟩

/-- Counting splits on any second predicate. -/
theorem countP_split (p q : α → Bool) (l : List α) :
    l.countP p = l.countP (fun a => p a && q a) + l.countP (fun a => p a && !q a) := by
  induction l with
  | nil => rfl
  | cons a l ih =>
    simp only [List.countP_cons, ih]
    cases p a <;> cases q a <;> simp <;> omega

theorem nodup_map_concat {key : α → κ} {l : List α} {a : α} (hl : (l.map key).Nodup)
    (ha : ∀ b ∈ l, key b ≠ key a) : ((l ++ [a]).map key).Nodup := by
  rw [List.map_append, List.map_singleton, List.nodup_append]
  refine ⟨hl, List.nodup_singleton _, fun x hx y hy => ?_⟩
  obtain ⟨b, hb, rfl⟩ := List.mem_map.mp hx
  rw [List.mem_singleton.mp hy]
  exact ha b hb

/-- Entries that give the same key are one entry. -/
theorem eq_of_nodup_filterMap {key : α → Option κ} {l : List α} (hl : (l.filterMap key).Nodup) {a b : α} {k : κ}
    (ha : a ∈ l) (hb : b ∈ l) (hka : key a = some k) (hkb : key b = some k) : a = b := by
  induction l with
  | nil => cases ha
  | cons x l ih =>
    have hmem : ∀ {y}, y ∈ l → key y = some k → k ∈ l.filterMap key := fun hy hk => List.mem_filterMap.mpr ⟨_, hy, hk⟩
    cases hx : key x with
    | none =>
      rw [List.filterMap_cons_none hx] at hl
      have hne : ∀ {y}, key y = some k → y ≠ x := fun hk heq => by rw [heq, hx] at hk; cases hk
      exact ih hl ((List.mem_cons.mp ha).resolve_left (hne hka)) ((List.mem_cons.mp hb).resolve_left (hne hkb))
    | some k' =>
      rw [List.filterMap_cons_some hx, List.nodup_cons] at hl
      rcases List.mem_cons.mp ha with rfl | ha' <;> rcases List.mem_cons.mp hb with rfl | hb'
      · rfl
      · rw [hx] at hka
        cases hka
        exact absurd (hmem hb' hkb) hl.1
      · rw [hx] at hkb
        cases hkb
        exact absurd (hmem ha' hka) hl.1
      · exact ih hl.2 ha' hb'

/-! ## Free keys -/

/-- Fewer occupied keys than candidates leave a candidate free. -/
theorem exists_lt_not_mem {l : List ℕ} {n : ℕ} (h : l.length < n) : ∃ i < n, i ∉ l := by
  by_contra hc
  push Not at hc
  have hsub : Finset.range n ⊆ l.toFinset := by
    intro i hi
    exact List.mem_toFinset.mpr (hc i (Finset.mem_range.mp hi))
  have hcard := Finset.card_le_card hsub
  rw [Finset.card_range] at hcard
  have := l.toFinset_card_le
  omega

/-- Distinct naturals below `n` are at most `n` many. -/
theorem length_le_of_nodup_lt {l : List ℕ} {n : ℕ} (hl : l.Nodup) (hlt : ∀ i ∈ l, i < n) :
    l.length ≤ n := by
  have hsub : l ⊆ List.range n := fun i hi => List.mem_range.mpr (hlt i hi)
  simpa using (hl.subperm hsub).length_le

/-- Distinct naturals below `n`, `n` of them, are all of them. -/
theorem mem_of_nodup_full {l : List ℕ} {n : ℕ} (hl : l.Nodup) (hlt : ∀ i ∈ l, i < n)
    (hn : l.length = n) {i : ℕ} (hi : i < n) : i ∈ l := by
  have hsub : l ⊆ List.range n := fun i hi => List.mem_range.mpr (hlt i hi)
  have hp : l.Perm (List.range n) :=
    (hl.subperm hsub).perm_of_length_le (by simp [hn])
  exact hp.mem_iff.mpr (List.mem_range.mpr hi)

end Collocate.Distinct
