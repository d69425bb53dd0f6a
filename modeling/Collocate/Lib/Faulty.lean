import Mathlib.Data.Nat.Notation
import Collocate.Lib.Effect

/-! # Storage that may fail

`Faulty S` is something kept on storage together with what becomes of the next operations on it: each
takes one entry of `fate`, and fails if that is `false`. Operations beyond the list work, so with
`fate = []` nothing ever fails. -/
namespace Collocate
set_option autoImplicit false

structure Faulty (S : Type) where
  it : S
  fate : List Bool := []

namespace Faulty

variable {S ε α : Type}

/-- The next `n` operations work. -/
def lasts : ℕ → List Bool → Bool
  | n + 1, works :: fate => works && lasts n fate
  | _, _ => true

/-- One operation: it looks and changes, or fails with `e`. -/
def op (e : ε) (f : S → α × S) : Eff (Faulty S) ε α := fun s =>
  match s.fate with
  | [] => (.ok (f s.it).1, ⟨(f s.it).2, []⟩)
  | true :: fate => (.ok (f s.it).1, ⟨(f s.it).2, fate⟩)
  | false :: fate => (.error e, ⟨s.it, fate⟩)

def look (e : ε) (f : S → α) : Eff (Faulty S) ε α := op e fun s => (f s, s)

def change (e : ε) (f : S → S) : Eff (Faulty S) ε Unit := op e fun s => ((), f s)

theorem op_nil (e : ε) (f : S → α × S) (it : S) : op e f ⟨it, []⟩ = (.ok (f it).1, ⟨(f it).2, []⟩) := rfl

theorem look_nil (e : ε) (f : S → α) (it : S) : look e f ⟨it, []⟩ = (.ok (f it), ⟨it, []⟩) := rfl

theorem change_nil (e : ε) (f : S → S) (it : S) : change e f ⟨it, []⟩ = (.ok (), ⟨f it, []⟩) := rfl

/-- The storage holds `it`, and unless there may be `faults` nothing fails. -/
def At (faults : Prop) (it : S) (s : Faulty S) : Prop := s.it = it ∧ (¬ faults → s.fate = [])

theorem op_at {faults : Prop} {it : S} (e : ε) (f : S → α × S) :
    Eff.Triple (At faults it) (op e f) (fun a s => At faults (f it).2 s ∧ a = (f it).1)
      fun e' s => At faults it s ∧ e' = e ∧ faults := by
  rintro ⟨_, fate⟩ ⟨rfl, hfate⟩
  rcases fate with _ | ⟨_ | _, fate⟩
  · exact ⟨⟨rfl, fun _ => rfl⟩, rfl⟩
  · have hfaults : faults := Classical.byContradiction fun hnone => nomatch hfate hnone
    exact ⟨⟨rfl, fun hnone => absurd hfaults hnone⟩, rfl, hfaults⟩
  · exact ⟨⟨rfl, fun hnone => nomatch hfate hnone⟩, rfl⟩

/-- Looking does the same whatever is looked at. -/
theorem look_cases (e : ε) (s : Faulty S) :
    (∃ fate, ∀ {α : Type} (f : S → α), (look e f : Eff (Faulty S) ε α) s = (.ok (f s.it), ⟨s.it, fate⟩)) ∨
      ∃ s', ∀ {α : Type} (f : S → α), (look e f : Eff (Faulty S) ε α) s = (.error e, s') := by
  rcases s with ⟨it, _ | ⟨_ | _, fate⟩⟩
  · exact .inl ⟨[], fun _ => rfl⟩
  · exact .inr ⟨⟨it, fate⟩, fun _ => rfl⟩
  · exact .inl ⟨fate, fun _ => rfl⟩

end Faulty
end Collocate
