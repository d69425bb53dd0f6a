import Collocate.Daemon.Logs
import Collocate.Core.Request

/-! # Pebble's logs (`collocated/src/daemon.rs`, `collocate-pebble/src/client.rs`, `time.rs`)

A poll of Pebble's logs gets all entries that Pebble has, shows those later than the offset that the poll before
gave, and gives the latest time that it has seen. -/
namespace Collocate.Daemon
set_option autoImplicit false

/-! ## Times -/

/-- `i64::from_str`. -/
def parseI64 (s : String) : Option Int64 :=
  match s.toList with
  | '+' :: cs => (Text.parseDigits (2 ^ 63) cs).map Int64.ofNat
  | '-' :: cs => (Text.parseDigits (2 ^ 63 + 1) cs).map fun n => -Int64.ofNat n
  | cs => (Text.parseDigits (2 ^ 63) cs).map Int64.ofNat

def daysFromCivil (y m d : Int64) : Int64 :=
  let y := if m ≤ 2 then y - 1 else y
  let era := (if 0 ≤ y then y else y - 399) / 400
  let yoe := y - era * 400
  let mp := (m + 9) % 12
  let doy := (153 * mp + 2) / 5 + d - 1
  let doe := yoe * 365 + yoe / 4 - yoe / 100 + doy
  era * 146097 + doe - 719468

/-- The first three pieces, each an `i64`. -/
def threeI64 (c : Char) (s : String) : Option (Int64 × Int64 × Int64) :=
  match Text.split c s with
  | a :: b :: d :: _ => do
    let a ← parseI64 a
    let b ← parseI64 b
    let d ← parseI64 d
    pure (a, b, d)
  | _ => none

/-- The digits of a fraction of a second, the first of them worth `unit`; no more than nine count. -/
def fractionNanos : List Char → ℕ → Option Int64
  | [], _ => some 0
  | _ :: _, 0 => some 0
  | c :: cs, left + 1 => do
    let digit ← Text.digitVal c
    let rest ← fractionNanos cs left
    pure (Int64.ofNat (digit * 10 ^ left) + rest)

/-- A zone: `Z`, or a sign with hours and minutes. -/
def zoneSecs : List Char → Option Int64
  | [] => none
  | 'Z' :: _ | 'z' :: _ => some 0
  | sign :: zone => do
    let (hours, minutes) ← Text.splitOnce ':' (String.ofList zone)
    let hours ← parseI64 hours
    let minutes ← parseI64 minutes
    let secs := hours * 3600 + minutes * 60
    pure (if sign = '-' then -secs else secs)

/-- `rfc3339_nanos`; sums wrap, as in a release build. -/
def rfc3339Nanos (s : String) : Option UInt64 := do
  let (date, rest) ← Text.splitOnce 'T' s
  let (y, mo, d) ← threeI64 '-' date
  let clock := rest.toList.takeWhile fun c => !(['Z', 'z', '+', '-'].contains c)
  let zone := rest.toList.dropWhile fun c => !(['Z', 'z', '+', '-'].contains c)
  if zone.isEmpty then none
  else do
    let clock := String.ofList clock
    let (hms, frac) := (Text.splitOnce '.' clock).getD (clock, "")
    let (h, mi, sec) ← threeI64 ':' hms
    let nanos ← fractionNanos frac.toList 9
    let offset ← zoneSecs zone
    let secs := daysFromCivil y mo d * 86400 + h * 3600 + mi * 60 + sec - offset
    let all := secs * 1000000000 + nanos
    if all < 0 then none else pure all.toUInt64

/-! ## Entries -/

structure LogEntry where
  time : String
  service : String
  message : String
  deriving DecidableEq, Repr

namespace LogEntry

def nanos (e : LogEntry) : UInt64 := (rfc3339Nanos e.time).getD 0

def render (e : LogEntry) : String :=
  let line := s!"{e.time} [{e.service}] {e.message}"
  if Text.endsWith line "\n" then line else line ++ "\n"

end LogEntry

/-- `logs` of the client: the entries of these services, of all of them if there are none, and only so many. -/
abbrev PebbleClient := List String → Option ℕ → Except String (List LogEntry)

/-- The entries that an answer shows, and the offset it gives. -/
def shownAfter (after : UInt64) (entries : List LogEntry) : List LogEntry := entries.filter fun e => after < e.nanos

def nextAfter (after : UInt64) (entries : List LogEntry) : UInt64 :=
  (shownAfter after entries).foldl (fun next e => max next e.nanos) after

/-- `Daemon::op_logs`, with the container's log file and the client for its Pebble, which a live container has. -/
def opLogs (spec : Spec) (file : Option (List UInt8)) (client : Option PebbleClient) (tail : Option ℕ)
    (offset : Option UInt64) (source : LogSource) (services : List String) : Result Response :=
  let captured : Response :=
    let answer := capturedLogs file tail (offset.map UInt64.toNat)
    .log answer.data (UInt64.ofNat answer.nextOffset) .captured
  let wantPebble := match source with
    | .captured => false
    | .pebble => true
    | .auto => decide (spec.imageKind = .pebble) || !services.isEmpty
  if !wantPebble then .ok captured
  else if spec.imageKind ≠ .pebble then
    .error (.invalid s!"{spec.name} is not a rock, so it has no Pebble services")
  else
    let fetched : Result (List LogEntry) := match client with
      | none => .error (.conflict s!"{spec.name} is not running")
      | some logs => match logs services (if offset.isSome then none else tail) with
        | .ok entries => .ok entries
        | .error e => .error (.unreachable e)
    match fetched with
    | .ok entries =>
      let after := offset.getD 0
      .ok (.log (String.join ((shownAfter after entries).map LogEntry.render)) (nextAfter after entries) .pebble)
    | .error e => if source = .auto ∧ services = [] then .ok captured else .error e

/-! ## Following -/

/-- What Pebble records, and what of it, by position, each poll gets to see: an entry that is seen stays, and those
of one service come in their order. -/
structure Watch where
  recorded : List LogEntry
  polls : List (List ℕ)
  within : ∀ seen ∈ polls, ∀ i ∈ seen, i < recorded.length
  distinct : ∀ seen ∈ polls, seen.Nodup
  grows : polls.Pairwise fun earlier later => earlier ⊆ later
  inOrder : ∀ seen ∈ polls, ∀ j ∈ seen, ∀ i < j,
    (recorded[i]?.map LogEntry.service) = recorded[j]?.map LogEntry.service → i ∈ seen

namespace Watch

def entriesAt (recorded : List LogEntry) (seen : List ℕ) : List LogEntry := seen.filterMap fun i => recorded[i]?

/-- The offset that the last of the polls gave. -/
def cursor (recorded : List LogEntry) (polls : List (List ℕ)) : UInt64 :=
  polls.foldl (fun after seen => nextAfter after (entriesAt recorded seen)) 0

/-- The positions of the entries that a poll shows, behind these polls. -/
def given (recorded : List LogEntry) (past : List (List ℕ)) (seen : List ℕ) : List ℕ :=
  seen.filter fun i => recorded[i]?.any fun e => cursor recorded past < e.nanos

/-- What is shown in each of the polls. -/
def deliveries (recorded : List LogEntry) : List (List ℕ) → List (List ℕ) → List (List ℕ)
  | _, [] => []
  | past, seen :: polls => given recorded past seen :: deliveries recorded (past ++ [seen]) polls

/-- What a client that follows the logs is answered, poll after poll, each with the offset that the one before gave. -/
def followed (spec : Spec) (file : Option (List UInt8)) (services : List String) (recorded : List LogEntry) :
    Option UInt64 → List (List ℕ) → List (Result Response)
  | _, [] => []
  | offset, seen :: polls =>
    match opLogs spec file (some fun _ _ => .ok (entriesAt recorded seen)) none offset .pebble services with
    | .ok (.log data next source) =>
      .ok (.log data next source) :: followed spec file services recorded (some next) polls
    | answer => [answer]

/-- The text of an answer. -/
def logText : Result Response → Option String
  | .ok (.log data _ _) => some data
  | _ => none

/-- Some poll sees the entry, and exactly one shows it. -/
def DeliveredOnce (w : Watch) (i : ℕ) : Prop := (deliveries w.recorded [] w.polls).countP (fun shown => i ∈ shown) = 1

instance (w : Watch) (i : ℕ) : Decidable (w.DeliveredOnce i) :=
  inferInstanceAs (Decidable (_ = _))

/-- Wherever an entry is seen for the first time, it is later than all that was seen before, and not at the epoch. -/
def ComesLater (w : Watch) (i : ℕ) : Prop :=
  ∀ past seen later, w.polls = past ++ seen :: later → i ∈ seen → (∀ s ∈ past, i ∉ s) →
    ∀ e, w.recorded[i]? = some e → 0 < e.nanos ∧
      ∀ s ∈ past, ∀ j ∈ s, ∀ e', w.recorded[j]? = some e' → e'.nanos < e.nanos

end Watch

/-! ## What a poll answers -/

theorem fold_max (next : UInt64) (entries : List LogEntry) :
    next ≤ entries.foldl (fun next e => max next e.nanos) next ∧
      (∀ e ∈ entries, e.nanos ≤ entries.foldl (fun next e => max next e.nanos) next) ∧
      (entries.foldl (fun next e => max next e.nanos) next = next ∨
        ∃ e ∈ entries, entries.foldl (fun next e => max next e.nanos) next = e.nanos) := by
  induction entries generalizing next with
  | nil => exact ⟨UInt64.le_refl _, fun e he => absurd he List.not_mem_nil, Or.inl rfl⟩
  | cons e entries ih =>
    have hmax : max next e.nanos = if next ≤ e.nanos then e.nanos else next := rfl
    rw [List.foldl_cons, hmax]
    by_cases hle : next ≤ e.nanos
    · rw [if_pos hle]
      obtain ⟨hfrom, hall, hsome⟩ := ih e.nanos
      refine ⟨UInt64.le_trans hle hfrom, ?_, Or.inr ?_⟩
      · intro e' he'
        cases he' with
        | head => exact hfrom
        | tail _ hmem => exact hall e' hmem
      · cases hsome with
        | inl heq => exact ⟨e, List.mem_cons_self .., heq⟩
        | inr hex =>
          obtain ⟨e', he', heq⟩ := hex
          exact ⟨e', List.mem_cons_of_mem _ he', heq⟩
    · rw [if_neg hle]
      obtain ⟨hfrom, hall, hsome⟩ := ih next
      refine ⟨hfrom, ?_, ?_⟩
      · intro e' he'
        cases he' with
        | head => exact UInt64.le_trans (UInt64.le_of_lt (UInt64.not_le.mp hle)) hfrom
        | tail _ hmem => exact hall e' hmem
      · cases hsome with
        | inl heq => exact Or.inl heq
        | inr hex =>
          obtain ⟨e', he', heq⟩ := hex
          exact Or.inr ⟨e', List.mem_cons_of_mem _ he', heq⟩

theorem le_nextAfter (after : UInt64) (entries : List LogEntry) : after ≤ nextAfter after entries := (fold_max _ _).1

theorem nanos_le_nextAfter {after : UInt64} {entries : List LogEntry} {e : LogEntry} (he : e ∈ entries) :
    e.nanos ≤ nextAfter after entries := by
  by_cases hlt : after < e.nanos
  · exact (fold_max _ _).2.1 e (List.mem_filter.mpr ⟨he, decide_eq_true hlt⟩)
  · exact UInt64.le_trans (UInt64.not_lt.mp hlt) (le_nextAfter after entries)

theorem nextAfter_cases (after : UInt64) (entries : List LogEntry) :
    nextAfter after entries = after ∨ ∃ e ∈ entries, nextAfter after entries = e.nanos := by
  cases (fold_max after (shownAfter after entries)).2.2 with
  | inl heq => exact Or.inl heq
  | inr hex =>
    obtain ⟨e, he, heq⟩ := hex
    exact Or.inr ⟨e, List.mem_of_mem_filter he, heq⟩

namespace Watch

variable {recorded : List LogEntry}

theorem mem_entriesAt {seen : List ℕ} {e : LogEntry} :
    e ∈ entriesAt recorded seen ↔ ∃ i ∈ seen, recorded[i]? = some e := List.mem_filterMap

theorem cursor_concat (past : List (List ℕ)) (seen : List ℕ) :
    cursor recorded (past ++ [seen]) = nextAfter (cursor recorded past) (entriesAt recorded seen) := by
  simp [cursor]

theorem shown_given (past : List (List ℕ)) (seen : List ℕ) :
    shownAfter (cursor recorded past) (entriesAt recorded seen) = entriesAt recorded (given recorded past seen) := by
  unfold shownAfter entriesAt given
  induction seen with
  | nil => rfl
  | cons i seen ih =>
    cases hi : recorded[i]? with
    | none => simp [hi, ih]
    | some e =>
      by_cases hlt : cursor recorded past < e.nanos
      · simp [hi, hlt, ih]
      · simp [hi, hlt, ih]

/-- A poll of Pebble's logs, behind the polls before it, shows the entries that `given` says and gives the cursor. -/
theorem opLogs_poll (spec : Spec) (hspec : spec.imageKind = .pebble) (file : Option (List UInt8))
    (services : List String) (logs : PebbleClient) (past : List (List ℕ)) (seen : List ℕ)
    (hlogs : logs services none = .ok (entriesAt recorded seen)) :
    opLogs spec file (some logs) none (if past = [] then none else some (cursor recorded past)) .pebble services =
      .ok (.log (String.join ((entriesAt recorded (given recorded past seen)).map LogEntry.render))
        (cursor recorded (past ++ [seen])) .pebble) := by
  have hafter : (if past = [] then none else some (cursor recorded past)).getD 0 = cursor recorded past := by
    cases past with
    | nil => rfl
    | cons => rfl
  unfold opLogs
  simp only [Bool.not_true, Bool.false_eq_true, if_false, hspec, ne_eq, not_true_eq_false, ite_self, hlogs, hafter,
    shown_given, ← cursor_concat]

/-- The answers show what `deliveries` says. -/
theorem followed_texts (spec : Spec) (hspec : spec.imageKind = .pebble) (file : Option (List UInt8))
    (services : List String) (past polls : List (List ℕ)) :
    (followed spec file services recorded (if past = [] then none else some (cursor recorded past)) polls).map logText =
      (deliveries recorded past polls).map fun shown =>
        some (String.join ((entriesAt recorded shown).map LogEntry.render)) := by
  induction polls generalizing past with
  | nil => rfl
  | cons seen polls ih =>
    have hnext := ih (past ++ [seen])
    rw [if_neg (List.concat_ne_nil seen past)] at hnext
    unfold followed deliveries
    rw [opLogs_poll spec hspec file services _ past seen rfl]
    dsimp only
    rw [List.map_cons, List.map_cons, hnext]
    rfl

/-- The cursor is the latest time that was seen. -/
theorem nanos_le_cursor {past : List (List ℕ)} {s : List ℕ} (hs : s ∈ past) {j : ℕ} (hj : j ∈ s) {e : LogEntry}
    (he : recorded[j]? = some e) : e.nanos ≤ cursor recorded past := by
  induction past using List.reverseRecOn with
  | nil => cases hs
  | append_singleton past seen ih =>
    rw [cursor_concat]
    rw [List.mem_append, List.mem_singleton] at hs
    cases hs with
    | inl hbefore => exact UInt64.le_trans (ih hbefore) (le_nextAfter _ _)
    | inr hlast =>
      subst hlast
      exact nanos_le_nextAfter (mem_entriesAt.mpr ⟨j, hj, he⟩)

theorem cursor_cases (past : List (List ℕ)) :
    cursor recorded past = 0 ∨
      ∃ s ∈ past, ∃ j ∈ s, ∃ e, recorded[j]? = some e ∧ cursor recorded past = e.nanos := by
  induction past using List.reverseRecOn with
  | nil => exact Or.inl rfl
  | append_singleton past seen ih =>
    rw [cursor_concat]
    cases nextAfter_cases (cursor recorded past) (entriesAt recorded seen) with
    | inl hsame =>
      rw [hsame]
      cases ih with
      | inl hzero => exact Or.inl hzero
      | inr hex =>
        obtain ⟨s, hs, hrest⟩ := hex
        exact Or.inr ⟨s, List.mem_append_left _ hs, hrest⟩
    | inr hex =>
      obtain ⟨e, he, heq⟩ := hex
      obtain ⟨j, hj, hrec⟩ := mem_entriesAt.mp he
      exact Or.inr ⟨seen, List.mem_append_right _ (List.mem_singleton_self _), j, hj, e, hrec, heq⟩

theorem cursor_lt_iff {past : List (List ℕ)} {t : UInt64} :
    cursor recorded past < t ↔ 0 < t ∧ ∀ s ∈ past, ∀ j ∈ s, ∀ e, recorded[j]? = some e → e.nanos < t := by
  constructor
  · intro hlt
    refine ⟨UInt64.lt_of_le_of_lt (UInt64.zero_le) hlt, ?_⟩
    intro s hs j hj e he
    exact UInt64.lt_of_le_of_lt (nanos_le_cursor hs hj he) hlt
  · rintro ⟨hpos, hall⟩
    have hcases : cursor recorded past = 0 ∨
        ∃ s ∈ past, ∃ j ∈ s, ∃ e, recorded[j]? = some e ∧ cursor recorded past = e.nanos := cursor_cases past
    cases hcases with
    | inl hzero => rw [hzero]; exact hpos
    | inr hex =>
      obtain ⟨s, hs, j, hj, e, he, heq⟩ := hex
      rw [heq]
      exact hall s hs j hj e he

theorem mem_given {past : List (List ℕ)} {seen : List ℕ} {i : ℕ} {e : LogEntry} (he : recorded[i]? = some e) :
    i ∈ given recorded past seen ↔ i ∈ seen ∧ cursor recorded past < e.nanos := by
  simp [given, he]

theorem deliveries_append (past before later : List (List ℕ)) :
    deliveries recorded past (before ++ later) =
      deliveries recorded past before ++ deliveries recorded (past ++ before) later := by
  induction before generalizing past with
  | nil => rw [List.nil_append, List.append_nil]; rfl
  | cons seen before ih =>
    rw [List.cons_append, deliveries, deliveries, ih, List.append_assoc]
    rfl

theorem not_delivered_unseen {past before : List (List ℕ)} {i : ℕ} (h : ∀ s ∈ before, i ∉ s) :
    ∀ shown ∈ deliveries recorded past before, i ∉ shown := by
  induction before generalizing past with
  | nil => exact fun shown hshown => absurd hshown List.not_mem_nil
  | cons seen before ih =>
    intro shown hshown
    cases hshown with
    | head => exact fun hmem => h seen (List.mem_cons_self ..) (List.mem_of_mem_filter hmem)
    | tail _ hrest => exact ih (fun s hs => h s (List.mem_cons_of_mem _ hs)) shown hrest

/-- What one poll has seen, no later one shows. -/
theorem not_delivered_again {past later : List (List ℕ)} {i : ℕ} {e : LogEntry} (he : recorded[i]? = some e)
    {s : List ℕ} (hs : s ∈ past) (hi : i ∈ s) : ∀ shown ∈ deliveries recorded past later, i ∉ shown := by
  induction later generalizing past with
  | nil => exact fun shown hshown => absurd hshown List.not_mem_nil
  | cons seen later ih =>
    intro shown hshown
    cases hshown with
    | head =>
      rw [mem_given he]
      exact fun hlt => UInt64.not_lt.mpr (nanos_le_cursor hs hi he) hlt.2
    | tail _ hrest => exact ih (List.mem_append_left _ hs) shown hrest

/-- An entry is shown by the poll that sees it first or by none. -/
theorem count_deliveries {past later : List (List ℕ)} {seen : List ℕ} {i : ℕ} {e : LogEntry}
    (he : recorded[i]? = some e) (hseen : i ∈ seen) (hfirst : ∀ s ∈ past, i ∉ s) :
    (deliveries recorded [] (past ++ seen :: later)).countP (fun shown => i ∈ shown) =
      if cursor recorded past < e.nanos then 1 else 0 := by
  have hbefore : (deliveries recorded [] past).countP (fun shown => i ∈ shown) = 0 :=
    List.countP_eq_zero.mpr fun shown hshown => by simpa using not_delivered_unseen hfirst shown hshown
  have hafter : (deliveries recorded (past ++ [seen]) later).countP (fun shown => i ∈ shown) = 0 := by
    have hmem : seen ∈ past ++ [seen] := List.mem_append_right _ (List.mem_singleton_self _)
    exact List.countP_eq_zero.mpr fun shown hshown => by simpa using not_delivered_again he hmem hseen shown hshown
  rw [deliveries_append, List.countP_append, hbefore, List.nil_append, deliveries, List.countP_cons, hafter]
  simp [mem_given he, hseen]

theorem exists_first {polls : List (List ℕ)} {i : ℕ} (h : ∃ s ∈ polls, i ∈ s) :
    ∃ past seen later, polls = past ++ seen :: later ∧ i ∈ seen ∧ ∀ s ∈ past, i ∉ s := by
  obtain ⟨s, hs, hi⟩ := h
  cases hfind : polls.find? fun s => decide (i ∈ s) with
  | none => exact absurd hi (by simpa using List.find?_eq_none.mp hfind s hs)
  | some seen =>
    obtain ⟨hseen, past, later, hsplit, hpast⟩ := List.find?_eq_some_iff_append.mp hfind
    exact ⟨past, seen, later, hsplit, by simpa using hseen, by simpa using hpast⟩

theorem deliveredOnce_iff (w : Watch) {i : ℕ} (hseen : ∃ s ∈ w.polls, i ∈ s) : w.DeliveredOnce i ↔ w.ComesLater i := by
  obtain ⟨past, seen, later, hsplit, hi, hfirst⟩ := exists_first hseen
  have hwithin : i < w.recorded.length :=
    w.within seen (by rw [hsplit]; exact List.mem_append_right _ (List.mem_cons_self ..)) i hi
  have he : w.recorded[i]? = some w.recorded[i] := List.getElem?_eq_getElem hwithin
  have hcount : w.DeliveredOnce i ↔ cursor w.recorded past < (w.recorded[i]).nanos := by
    unfold DeliveredOnce
    rw [hsplit, count_deliveries he hi hfirst]
    simp
  rw [hcount, cursor_lt_iff]
  constructor
  · intro hlater past' seen' later' hsplit' hi' hfirst' e he'
    -- Both splits are at the first poll that sees the entry.
    obtain rfl : past' = past := by
      have hfind : ∀ {a b : List (List ℕ)} {t : List ℕ}, w.polls = a ++ t :: b → i ∈ t → (∀ s ∈ a, i ∉ s) →
          w.polls.takeWhile (fun s => decide (i ∉ s)) = a := by
        intro a b t hab ht ha
        rw [hab, List.takeWhile_append_of_pos (by simpa using ha), List.takeWhile_cons_of_neg (by simpa using ht),
          List.append_nil]
      rw [← hfind hsplit' hi' hfirst', hfind hsplit hi hfirst]
    rw [he] at he'
    cases he'
    exact hlater
  · exact fun hlater => hlater past seen later hsplit hi hfirst _ he

/-- The answers of `op_logs` to a client that follows Pebble's logs show what is delivered; and every entry that a poll
sees is delivered exactly once if and only if each, where it is first seen, is later than all that was seen before. -/
theorem pebble_once_iff (w : Watch) :
    (∀ (spec : Spec) (file : Option (List UInt8)) (services : List String), spec.imageKind = .pebble →
      (followed spec file services w.recorded none w.polls).map logText =
        (deliveries w.recorded [] w.polls).map fun shown =>
          some (String.join ((entriesAt w.recorded shown).map LogEntry.render))) ∧
      ((∀ i, (∃ s ∈ w.polls, i ∈ s) → w.DeliveredOnce i) ↔ ∀ i, w.ComesLater i) := by
  refine ⟨fun spec file services hspec => followed_texts spec hspec file services [] w.polls, ?_, ?_⟩
  · intro honce i past seen later hsplit hi
    have hmem : seen ∈ w.polls := by rw [hsplit]; exact List.mem_append_right _ (List.mem_cons_self ..)
    have hseen : ∃ s ∈ w.polls, i ∈ s := ⟨seen, hmem, hi⟩
    exact (deliveredOnce_iff w hseen).mp (honce i hseen) past seen later hsplit hi
  · exact fun hlater i hseen => (deliveredOnce_iff w hseen).mpr (hlater i)

/-- A rock with two services. -/
def rockSpec : Spec where
  id := 5
  name := "rock"
  root := .oci "sha256:rock" []
  process := { argv := ["pebble"] }
  hostname := "rock"
  imageKind := .pebble
  created := 0

/-- One of them writes a tenth of a second after the other. -/
def laterTime : Watch where
  recorded := [⟨"2026-01-01T00:00:00.5Z", "web", "up"⟩, ⟨"2026-01-01T00:00:00.6Z", "db", "up"⟩]
  polls := [[0], [0, 1]]
  within := by decide
  distinct := by decide
  grows := by decide
  inOrder := by decide +kernel

theorem laterTime_followed : (followed rockSpec none [] laterTime.recorded none laterTime.polls).map logText =
      [some "2026-01-01T00:00:00.5Z [web] up\n", some "2026-01-01T00:00:00.6Z [db] up\n"] ∧
    ∀ i, laterTime.ComesLater i := by
  obtain ⟨htexts, hiff⟩ := pebble_once_iff laterTime
  refine ⟨(htexts rockSpec none [] rfl).trans (by decide +kernel), hiff.mp fun i hseen => ?_⟩
  obtain ⟨s, hs, hi⟩ := hseen
  have hlt : i < 2 := laterTime.within s hs i hi
  have hall : ∀ i < 2, laterTime.DeliveredOnce i := by decide +kernel
  exact hall i hlt

/-- Two services write at the same time, and a poll falls between the two entries. -/
def sameTime : Watch where
  recorded := [⟨"2026-01-01T00:00:00.5Z", "web", "up"⟩, ⟨"2026-01-01T00:00:00.5Z", "db", "up"⟩]
  polls := [[0], [0, 1]]
  within := by decide
  distinct := by decide
  grows := by decide
  inOrder := by decide +kernel

theorem same_time_lost : ¬∀ w : Watch, ∀ i, (∃ s ∈ w.polls, i ∈ s) → w.DeliveredOnce i := by
  intro h
  exact absurd (h sameTime 1 ⟨[0, 1], by decide, by decide⟩) (by decide +kernel)

end Watch
end Collocate.Daemon
