import Collocate.Lib.Along
import Collocate.Lib.Text
import Collocate.Lib.Utf8
import Mathlib.Data.List.Induction

/-! # Captured logs (`collocated/src/daemon.rs`, `collocate/src/commands.rs`, `collocate-gateway/src/lib.rs`)

The daemon answers a `Logs` request from the file that the container writes to, and says where the file
ended. A follower polls, each time from where the last answer ended, and shows what it is given. -/
namespace Collocate.Daemon
set_option autoImplicit false

/-- `Response::Log`. -/
structure LogAnswer where
  data : String
  nextOffset : ℕ
  deriving DecidableEq, Repr

/-- The last `n` lines, each with its end. -/
def lastLines (n : ℕ) (all : String) : String :=
  let lines := Text.lines all
  let t := Text.joinWith "\n" (lines.drop (lines.length - n))
  if t.isEmpty then t else t ++ "\n"

/-- `Daemon::captured_logs`; a file that cannot be read counts as empty. -/
def capturedLogs (file : Option (List UInt8)) (tail offset : Option ℕ) : LogAnswer :=
  let bytes := file.getD []
  let total := bytes.length
  let text := match offset with
    | some o => Utf8.lossy (bytes.drop (min o total))
    | none =>
      let all := Utf8.lossy bytes
      match tail with
      | some n => lastLines n all
      | none => all
  { data := text, nextOffset := total }

/-! ## Following -/

/-- A follower with the log it follows: where its last answer ended, and what it has shown. -/
structure Follower where
  log : List UInt8 := []
  offset : Option ℕ := none
  shown : String := ""
  deriving DecidableEq, Repr

inductive LogEvent
  | append (block : List UInt8)
  | poll
  deriving DecidableEq, Repr

namespace Follower

def step (f : Follower) : LogEvent → Follower
  | .append block => { f with log := f.log ++ block }
  | .poll =>
    let answer := capturedLogs (some f.log) none f.offset
    { f with offset := some answer.nextOffset, shown := f.shown ++ answer.data }

def follow (events : List LogEvent) : Follower := events.foldl step {}

/-- What the log held at the last poll, and what has come since. -/
def seen (f : Follower) : List UInt8 := f.log.take (f.offset.getD 0)

def fresh (f : Follower) : List UInt8 := f.log.drop (f.offset.getD 0)

/-- The last poll fell into a character: what has come since goes on with it. -/
def cut (f : Follower) : Bool := Utf8.splits f.seen f.fresh

theorem seen_append_fresh (f : Follower) : f.seen ++ f.fresh = f.log := List.take_append_drop ..

theorem follow_concat (events : List LogEvent) (e : LogEvent) : follow (events ++ [e]) = (follow events).step e := by
  simp [follow]

theorem offset_le (events : List LogEvent) : (follow events).offset.getD 0 ≤ (follow events).log.length := by
  induction events using List.reverseRecOn with
  | nil => exact Nat.le_refl _
  | append_singleton events e ih =>
    rw [follow_concat]
    cases e with
    | append block =>
      show (follow events).offset.getD 0 ≤ ((follow events).log ++ block).length
      rw [List.length_append]
      omega
    | poll => exact Nat.le_refl _

theorem seen_append (events : List LogEvent) (block : List UInt8) :
    ((follow events).step (.append block)).seen = (follow events).seen :=
  List.take_append_of_le_length (offset_le events)

theorem seen_poll (f : Follower) : (f.step .poll).seen = f.log := List.take_length

/-- What a poll adds: what has come since the last, decoded for itself. -/
theorem shown_poll (f : Follower) (h : f.offset.getD 0 ≤ f.log.length) :
    (f.step .poll).shown = f.shown ++ Utf8.lossy f.fresh := by
  show f.shown ++ (capturedLogs (some f.log) none f.offset).data = _
  congr 1
  unfold capturedLogs fresh
  cases ho : f.offset with
  | none => rfl
  | some o =>
    rw [ho] at h
    show Utf8.lossy (f.log.drop (min o f.log.length)) = _
    rw [show min o f.log.length = o from Nat.min_eq_left h]
    rfl

/-- A poll that goes on where a whole character ended. -/
def Clean (past : List LogEvent) (e : LogEvent) : Prop := e = .poll → (follow past).cut = false

instance (past : List LogEvent) (e : LogEvent) : Decidable (Clean past e) :=
  inferInstanceAs (Decidable (e = .poll → (follow past).cut = false))

/-- While every poll is clean, what is shown is the log decoded as a whole; from the first that is not, it is longer. -/
theorem shown_run (events : List LogEvent) :
    (Along Clean events → (follow events).shown = Utf8.lossy (follow events).seen) ∧
      (¬Along Clean events → (Utf8.text none (follow events).seen).length < (follow events).shown.toList.length) := by
  induction events using List.reverseRecOn with
  | nil => exact ⟨fun _ => rfl, fun h => absurd along_nil h⟩
  | append_singleton events e ih =>
    obtain ⟨hclean, hcut⟩ := ih
    rw [follow_concat, along_concat]
    cases e with
    | append block =>
      have hnow : Clean events (.append block) := fun h => nomatch h
      rw [seen_append]
      exact ⟨fun h => hclean h.1, fun h => hcut fun hall => h ⟨hall, hnow⟩⟩
    | poll =>
      rw [seen_poll, shown_poll _ (offset_le events), ← seen_append_fresh]
      have hshown : ((follow events).shown ++ Utf8.lossy (follow events).fresh).toList.length =
          (follow events).shown.toList.length + (Utf8.text none (follow events).fresh).length := by
        rw [String.toList_append, List.length_append, Utf8.lossy, String.toList_ofList]
      constructor
      · rintro ⟨hall, hnow⟩
        rw [hclean hall, Utf8.lossy_append_of_not_splits (hnow rfl)]
      · intro h
        rw [hshown]
        by_cases hall : Along Clean events
        · have hsplits : Utf8.splits (follow events).seen (follow events).fresh = true := by
            by_contra hne
            exact h ⟨hall, fun _ => Bool.eq_false_iff.mpr hne⟩
          have hlt := Utf8.length_text_append_lt hsplits
          rw [hclean hall, Utf8.lossy, String.toList_ofList]
          exact hlt
        · have hlt := hcut hall
          have hle := Utf8.length_text_append_le (follow events).seen (follow events).fresh
          omega

/-- In every run, what a follower has shown is the log up to the last poll, decoded as a whole, exactly when no poll
went on in the middle of a character. -/
theorem shown_iff (events : List LogEvent) :
    (follow events).shown = Utf8.lossy (follow events).seen ↔ Along Clean events := by
  obtain ⟨hclean, hcut⟩ := shown_run events
  constructor
  · intro hshown
    by_contra h
    have hlt := hcut h
    rw [hshown, Utf8.lossy, String.toList_ofList] at hlt
    exact Nat.lt_irrefl _ hlt
  · exact hclean

/-- A euro sign of which the first two bytes are polled before the third is written. -/
def euroInTwo : List LogEvent := [.append [0xE2, 0x82], .poll, .append [0xAC], .poll]

theorem euro_lost : ¬∀ events : List LogEvent, (follow events).shown = Utf8.lossy (follow events).seen := by
  intro h
  exact absurd (h euroInTwo) (by decide +kernel)

end Follower
end Collocate.Daemon
