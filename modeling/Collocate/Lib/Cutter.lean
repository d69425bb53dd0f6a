import Mathlib.Data.List.Basic

/-! # Items cut from the front of a growing sequence

A cutter looks at what has arrived so far. At its front it finds an item, with what comes after it, or
nothing yet, or something it refuses; more arriving behind never changes an item or a refusal. Cutting what
has arrived in pieces, with what is left over kept for the next piece, then gives the items of the whole. -/
namespace Collocate
set_option autoImplicit false

inductive Front (β ι : Type)
  | item (i : ι) (rest : List β)
  | wait
  | refuse

/-- The front with more behind it. -/
def Front.append {β ι : Type} (t : List β) : Front β ι → Front β ι
  | .item i r => .item i (r ++ t)
  | .wait => .wait
  | .refuse => .refuse

structure Cutter (β ι : Type) where
  front : List β → Front β ι
  shorter : ∀ s i r, front s = .item i r → r.length < s.length
  stable : ∀ s t, front s ≠ .wait → front (s ++ t) = (front s).append t

namespace Cutter

variable {β ι : Type} (c : Cutter β ι)

/-- The items in what has arrived, up to the first refusal, and what is left. -/
def cut (s : List β) : List ι × List β :=
  match _h : c.front s with
  | .item i r => (i :: (cut r).1, (cut r).2)
  | .wait => ([], s)
  | .refuse => ([], s)
  termination_by s.length
  decreasing_by exact c.shorter s i r _h

def items (s : List β) : List ι := (c.cut s).1

def left (s : List β) : List β := (c.cut s).2

variable {c} {s t r : List β} {i : ι}

theorem cut_item (h : c.front s = .item i r) : c.cut s = (i :: c.items r, c.left r) := by
  rw [cut]
  split
  · rename_i h'
    rw [h] at h'
    cases h'
    rfl
  · rename_i h'
    rw [h] at h'
    cases h'
  · rename_i h'
    rw [h] at h'
    cases h'

theorem cut_stop (h : ∀ i r, c.front s ≠ .item i r) : c.cut s = ([], s) := by
  rw [cut]
  split
  · rename_i i r h'
    exact absurd h' (h i r)
  · rfl
  · rfl

theorem items_item (h : c.front s = .item i r) : c.items s = i :: c.items r := congrArg Prod.fst (cut_item h)

theorem left_item (h : c.front s = .item i r) : c.left s = c.left r := by
  unfold left
  rw [cut_item h]
  rfl

theorem items_stop (h : ∀ i r, c.front s ≠ .item i r) : c.items s = [] := congrArg Prod.fst (cut_stop h)

theorem left_stop (h : ∀ i r, c.front s ≠ .item i r) : c.left s = s := congrArg Prod.snd (cut_stop h)

@[simp] theorem items_nil : c.items [] = [] :=
  items_stop fun i r h => Nat.not_lt_zero _ (c.shorter [] i r h)

@[simp] theorem left_nil : c.left [] = [] :=
  left_stop fun i r h => Nat.not_lt_zero _ (c.shorter [] i r h)

theorem front_append (h : c.front s = .item i r) (t : List β) : c.front (s ++ t) = .item i (r ++ t) := by
  rw [c.stable s t (by simp [h]), h]
  rfl

/-- Cutting in two pieces, with what the first leaves kept in front of the second. -/
theorem cut_append (s t : List β) :
    c.cut (s ++ t) = (c.items s ++ c.items (c.left s ++ t), c.left (c.left s ++ t)) := by
  induction hn : s.length using Nat.strongRecOn generalizing s with
  | ind n ih =>
    by_cases h : ∃ i r, c.front s = .item i r
    · obtain ⟨i, r, h⟩ := h
      have hr := ih r.length (hn ▸ c.shorter s i r h) r rfl
      rw [cut_item (front_append h t), items_item h, left_item h]
      unfold items left at hr ⊢
      rw [hr]
      rfl
    · have hs : ∀ i r, c.front s ≠ .item i r := fun i r hf => h ⟨i, r, hf⟩
      rw [items_stop hs, left_stop hs]
      rfl

theorem items_append (s t : List β) : c.items (s ++ t) = c.items s ++ c.items (c.left s ++ t) :=
  congrArg Prod.fst (cut_append s t)

theorem left_append (s t : List β) : c.left (s ++ t) = c.left (c.left s ++ t) := by
  rw [left, cut_append]

/-- When an item tells the bytes it was cut from, nothing is lost. -/
theorem flatMap_items_append_left {bytes : ι → List β} (h : ∀ s i r, c.front s = .item i r → s = bytes i ++ r)
    (s : List β) : (c.items s).flatMap bytes ++ c.left s = s := by
  induction hn : s.length using Nat.strongRecOn generalizing s with
  | ind n ih =>
    by_cases hf : ∃ i r, c.front s = .item i r
    · obtain ⟨i, r, hf⟩ := hf
      have hr := ih r.length (hn ▸ c.shorter s i r hf) r rfl
      rw [items_item hf, left_item hf, List.flatMap_cons, List.append_assoc, hr]
      exact (h s i r hf).symm
    · have hs : ∀ i r, c.front s ≠ .item i r := fun i r hf' => hf ⟨i, r, hf'⟩
      rw [items_stop hs, left_stop hs]
      rfl

end Cutter
end Collocate
