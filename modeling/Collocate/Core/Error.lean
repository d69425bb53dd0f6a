import Collocate.Lib.Text
import Collocate.Lib.Effect

/-! # Errors (`collocate-core/src/error.rs`)

The error type every crate shares, with its `Display` text, the payload that travels over the wire
and the exit code. I/O and JSON errors are carried by their text. -/
namespace Collocate
set_option autoImplicit false

inductive Error
  | invalidSize (s : String)
  | invalidId (s : String)
  | invalidPublish (s : String)
  | invalidVolume (s : String)
  | invalidSpec (s : String)
  | invalid (s : String)
  | parse (s : String)
  | frameTooLarge (n : ℕ)
  | eof
  | io (e : String)
  | json (e : String)
  | notFound (s : String)
  | ambiguous (candidates : List String)
  | conflict (s : String)
  | timeout (s : String)
  | unreachable (s : String)
  | internal (s : String)
  | notInitialized (s : String)
  | denied (s : String)
  | forbidden (s : String)
  deriving DecidableEq, Repr

abbrev Result (α : Type) := Except Error α

/-- A computation of this program: it has a state and fails with an `Error`. -/
abbrev Prog (S α : Type) := Eff S Error α

instance {α : Type} [DecidableEq α] : DecidableEq (Result α)
  | .ok a, .ok b => decidable_of_iff (a = b) ⟨fun h => h ▸ rfl, fun h => Except.ok.inj h⟩
  | .error a, .error b => decidable_of_iff (a = b) ⟨fun h => h ▸ rfl, fun h => Except.error.inj h⟩
  | .ok _, .error _ => isFalse (by simp)
  | .error _, .ok _ => isFalse (by simp)

namespace Error

def payload : Error → String
  | invalidSize s | invalidId s | invalidPublish s | invalidVolume s | invalidSpec s | invalid s
  | parse s | notFound s | conflict s | timeout s | unreachable s | internal s | notInitialized s
  | denied s | forbidden s => s
  | frameTooLarge n => toString n
  | eof => ""
  | io e => e
  | json e => e
  | ambiguous v => Text.debugStrs v

/-- The `Display` text. -/
def display : Error → String
  | invalidSize s => "invalid size: " ++ s
  | invalidId s => "invalid container id: " ++ s
  | invalidPublish s => "invalid publish mapping: " ++ s
  | invalidVolume s => "invalid volume: " ++ s
  | invalidSpec s => "invalid spec: " ++ s
  | invalid s => "invalid value: " ++ s
  | parse s => "parse error: " ++ s
  | frameTooLarge n => s!"frame of {n} bytes exceeds the limit"
  | eof => "connection closed"
  | io e => "io: " ++ e
  | json e => "json: " ++ e
  | notFound s => "not found: " ++ s
  | ambiguous v => "ambiguous reference, candidates: " ++ Text.debugStrs v
  | conflict s => "conflict: " ++ s
  | timeout s => "timed out: " ++ s
  | unreachable s => "daemon unreachable: " ++ s
  | internal s => "internal error: " ++ s
  | notInitialized s => s
  | denied s => "permission denied: " ++ s
  | forbidden s => "forbidden: " ++ s

def exitCode : Error → ℤ
  | invalidSize _ | invalidId _ | invalidPublish _ | invalidVolume _ | invalidSpec _ | invalid _
  | ambiguous _ => 2
  | notFound _ => 3
  | unreachable _ | eof => 4
  | conflict _ => 5
  | timeout _ => 6
  | notInitialized _ => 7
  | denied _ => 8
  | forbidden _ => 9
  | _ => 1

end Error

theorem Result.bind_ok {α β : Type} {m : Result α} {f : α → Result β} {b : β} (h : m >>= f = .ok b) :
    ∃ a, m = .ok a ∧ f a = .ok b := by
  cases m with
  | error e => cases h
  | ok a => exact ⟨a, rfl, h⟩

/-- A check that throws lets only what passes it go on. -/
theorem Result.throw_ok_iff {α : Type} {c : Prop} [Decidable c] {e : Error} {f : Unit → Result α} {r : Result α}
    {a : α} : (if c then (throw e : Result Unit) >>= f else r) = .ok a ↔ ¬c ∧ r = .ok a := by
  by_cases hc : c
  · rw [if_pos hc]
    exact iff_of_false nofun fun h => h.1 hc
  · rw [if_neg hc]
    exact ⟨fun h => ⟨hc, h⟩, fun h => h.2⟩

theorem Result.then_ok_iff {α : Type} {m : Result Unit} {r : Result α} {a : α} :
    (m >>= fun _ => r) = .ok a ↔ m = .ok () ∧ r = .ok a := by
  cases m with
  | error e => exact iff_of_false nofun fun h => nomatch h.1
  | ok u => exact ⟨fun h => ⟨rfl, h⟩, fun h => h.2⟩

theorem Result.mapM_cons_ok {α β : Type} {f : α → Result β} {a : α} {l : List α} {bs : List β}
    (h : (a :: l).mapM f = .ok bs) : ∃ b rest, f a = .ok b ∧ l.mapM f = .ok rest ∧ bs = b :: rest := by
  rw [List.mapM_cons] at h
  obtain ⟨b, hb, h⟩ := Result.bind_ok h
  obtain ⟨rest, hrest, h⟩ := Result.bind_ok h
  cases h
  exact ⟨b, rest, hb, hrest, rfl⟩

/-- The results are those of the elements. -/
theorem Result.mapM_ok_mem {α β : Type} {f : α → Result β} {l : List α} {bs : List β} (h : l.mapM f = .ok bs) :
    (∀ b ∈ bs, ∃ a ∈ l, f a = .ok b) ∧ ∀ a ∈ l, ∃ b ∈ bs, f a = .ok b := by
  induction l generalizing bs with
  | nil =>
    cases h
    exact ⟨fun b hmem => absurd hmem List.not_mem_nil, fun a hmem => absurd hmem List.not_mem_nil⟩
  | cons a l ih =>
    obtain ⟨b, rest, hb, hrest, rfl⟩ := Result.mapM_cons_ok h
    have hih := ih hrest
    constructor
    · intro b' hb'
      cases hb' with
      | head => exact ⟨a, List.mem_cons_self, hb⟩
      | tail _ hmem =>
        obtain ⟨a', ha', heq⟩ := hih.1 b' hmem
        exact ⟨a', List.mem_cons_of_mem _ ha', heq⟩
    · intro a' ha'
      cases ha' with
      | head => exact ⟨b, List.mem_cons_self, hb⟩
      | tail _ hmem =>
        obtain ⟨b', hb', heq⟩ := hih.2 a' hmem
        exact ⟨b', List.mem_cons_of_mem _ hb', heq⟩

theorem Result.foldlM_ok {α β : Type} {f : β → α → Result β} {l : List α} {b b' : β}
    (h : l.foldlM f b = .ok b') : ∀ a ∈ l, ∃ c c', f c a = .ok c' := by
  induction l generalizing b with
  | nil => exact fun _ ha => absurd ha List.not_mem_nil
  | cons first l ih =>
    rw [List.foldlM_cons] at h
    obtain ⟨c, hc, h⟩ := Result.bind_ok h
    intro a ha
    rcases List.mem_cons.mp ha with rfl | ha
    · exact ⟨b, c, hc⟩
    · exact ih h a ha

end Collocate
