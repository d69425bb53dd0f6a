import Mathlib.Data.List.Basic

/-! # Properties of a history

A history is a list that grows at its end. `Along P` says that `P` holds of every entry with the
entries before it, which is how a statement about what has happened so far is made. -/
namespace Collocate
set_option autoImplicit false

variable {α : Type} {P : List α → α → Prop}

/-- `P` holds of every entry, with the entries before it. -/
def Along (P : List α → α → Prop) (l : List α) : Prop := ∀ pre e post, l = pre ++ e :: post → P pre e

theorem along_nil : Along P [] := by
  intro pre e post h
  cases pre <;> cases h

theorem along_concat {l : List α} {e : α} : Along P (l ++ [e]) ↔ Along P l ∧ P l e := by
  constructor
  · intro h
    exact ⟨fun pre e' post heq => h pre e' (post ++ [e]) (by simp [heq]), h l e [] rfl⟩
  · rintro ⟨hl, he⟩ pre e' post heq
    rcases List.eq_nil_or_concat post with rfl | ⟨post', last, rfl⟩
    · obtain ⟨rfl, hl⟩ := List.append_inj' heq rfl
      cases hl
      exact he
    · have hsplit : l ++ [e] = (pre ++ e' :: post') ++ [last] := by simp [heq]
      obtain ⟨rfl, -⟩ := List.append_inj' hsplit rfl
      exact hl pre e' post' rfl

/-- `Along`, evaluated from the first entry on. -/
def alongFrom (P : List α → α → Prop) [∀ pre e, Decidable (P pre e)] : List α → List α → Bool
  | _, [] => true
  | past, e :: rest => decide (P past e) && alongFrom P (past ++ [e]) rest

theorem alongFrom_iff [∀ pre e, Decidable (P pre e)] (past l : List α) :
    alongFrom P past l = true ↔ ∀ pre e post, l = pre ++ e :: post → P (past ++ pre) e := by
  induction l generalizing past with
  | nil => simp [alongFrom]
  | cons first rest ih =>
    simp only [alongFrom, Bool.and_eq_true, decide_eq_true_eq, ih]
    constructor
    · rintro ⟨hfirst, hrest⟩ pre e post heq
      cases pre with
      | nil =>
        cases heq
        simpa using hfirst
      | cons first' pre =>
        cases heq
        simpa using hrest pre e post rfl
    · intro h
      refine ⟨by simpa using h [] first rest rfl, fun pre e post heq => ?_⟩
      simpa using h (first :: pre) e post (by rw [heq]; rfl)

instance [∀ pre e, Decidable (P pre e)] (l : List α) : Decidable (Along P l) :=
  decidable_of_iff (alongFrom P [] l = true) (by simpa [Along] using alongFrom_iff (P := P) [] l)

end Collocate
