import Mathlib.Tactic.Common
import Collocate.Lib.Effect
import Collocate.Lib.Text
import Collocate.Lib.Utf8

/-! # Replies from a Pebble socket (`collocate-pebble/src/http.rs`)

The peer is a process of the container, which may send anything. A reply is read as lines, and its body as chunks,
as a number of bytes or up to the end. Next to the errors that `get` returns stand the crashes, which end the daemon:
a sum of lengths that does not fit, a slice out of range, a buffer larger than any can be. -/
namespace Collocate.Pebble
set_option autoImplicit false

/-- The errors of `get`; those that Pebble reports itself come from elsewhere. -/
inductive Error
  | io (text : String)
  | protocol (text : String)
  deriving DecidableEq, Repr

inductive Crash
  | overflow
  | slice
  | capacity
  deriving DecidableEq, Repr

/-- How a read of a reply ends when it does not succeed. -/
inductive Failure
  | err (e : Error)
  | crash (c : Crash)
  deriving DecidableEq, Repr

/-- The bytes of a reply that have not been read, and what a read behind them gives: nothing once the peer has
closed, and otherwise an error. -/
structure Socket where
  unread : List UInt8
  ending : Option Error := none
  deriving DecidableEq

/-- Reads of a reply. -/
abbrev Reader (α : Type) := Socket → Except Failure α × Socket

structure Response where
  status : UInt16
  contentType : String
  body : List UInt8
  deriving DecidableEq, Repr

def isizeMax : ℕ := 2 ^ 63 - 1

/-! ## Lines -/

/-- The bytes up to and with the first line feed, and those behind it. -/
def cutLine : List UInt8 → Option (List UInt8 × List UInt8)
  | [] => none
  | b :: rest => if b = 10 then some ([b], rest) else (cutLine rest).map fun cut => (b :: cut.1, cut.2)

/-- A line without its end. -/
def lineText (line : List UInt8) : Option String :=
  (Utf8.strict line).map (Text.trimEndMatches fun c => c == '\r' || c == '\n')

/-- What `read_line` makes of the bytes it has read. -/
def readText (line : List UInt8) : Except Failure String :=
  match lineText line with
  | none => .error (.err (.io "stream did not contain valid UTF-8"))
  | some text => .ok text

def readLine : Reader String := fun s =>
  match cutLine s.unread, s.ending with
  | some (line, rest), _ => (readText line, { s with unread := rest })
  | none, some e => (.error (.err e), { s with unread := [] })
  | none, none =>
    if s.unread = [] then (.error (.err (.protocol "connection closed mid-response")), s)
    else (readText s.unread, { s with unread := [] })

theorem cutLine_some {bytes line rest : List UInt8} (h : cutLine bytes = some (line, rest)) :
    ∃ text, line = text ++ [10] ∧ 10 ∉ text ∧ bytes = text ++ 10 :: rest := by
  induction bytes generalizing line with
  | nil => cases h
  | cons b bytes ih =>
    unfold cutLine at h
    split at h
    · rename_i hb
      obtain ⟨rfl, rfl⟩ := Prod.mk.inj (Option.some.inj h)
      exact ⟨[], by rw [hb]; rfl, List.not_mem_nil, by rw [hb]; rfl⟩
    · rename_i hb
      obtain ⟨⟨line', rest'⟩, hcut, heq⟩ := Option.map_eq_some_iff.mp h
      obtain ⟨rfl, rfl⟩ := Prod.mk.inj heq
      obtain ⟨text, rfl, hnot, rfl⟩ := ih hcut
      refine ⟨b :: text, rfl, ?_, rfl⟩
      rw [List.mem_cons, not_or]
      exact ⟨Ne.symm hb, hnot⟩

theorem cutLine_append {text rest : List UInt8} (h : 10 ∉ text) :
    cutLine (text ++ 10 :: rest) = some (text ++ [10], rest) := by
  induction text with
  | nil => rfl
  | cons b text ih =>
    rw [List.mem_cons, not_or] at h
    rw [List.cons_append, cutLine, if_neg (Ne.symm h.1), ih h.2]
    rfl

theorem cutLine_none {bytes : List UInt8} : cutLine bytes = none ↔ 10 ∉ bytes := by
  constructor
  · intro h hmem
    obtain ⟨text, rest, rfl, hnot⟩ := List.eq_append_cons_of_mem hmem
    rw [cutLine_append hnot] at h
    cases h
  · intro h
    cases hcut : cutLine bytes with
    | none => rfl
    | some cut =>
      obtain ⟨text, -, -, rfl⟩ := cutLine_some hcut
      exact absurd (List.mem_append_right _ (List.mem_cons_self ..)) h

/-- A line stands in front, with its end or as the last bytes before the close, and reads as `text`; `s'` is the
reply behind it. -/
structure Line (s : Socket) (text : String) (s' : Socket) : Prop where
  ending : s'.ending = s.ending
  split : ∃ line, 10 ∉ line ∧
    ((s.unread = line ++ 10 :: s'.unread ∧ lineText (line ++ [10]) = some text) ∨
      (s.ending = none ∧ s.unread = line ∧ line ≠ [] ∧ s'.unread = [] ∧ lineText line = some text))

theorem readText_ok {line : List UInt8} {text : String} : readText line = .ok text ↔ lineText line = some text := by
  unfold readText
  cases lineText line <;> simp

theorem readText_error {line : List UInt8} {f : Failure} (h : readText line = .error f) : ∃ e, f = .err e := by
  unfold readText at h
  split at h
  · exact ⟨_, (Except.error.inj h).symm⟩
  · cases h

theorem readLine_ok {s s' : Socket} {text : String} : readLine s = (.ok text, s') ↔ Line s text s' := by
  constructor
  · intro h
    unfold readLine at h
    split at h
    · rename_i _ line rest hcut
      obtain ⟨htext, rfl⟩ := Prod.mk.inj h
      obtain ⟨front, rfl, hnot, hunread⟩ := cutLine_some hcut
      exact ⟨rfl, front, hnot, Or.inl ⟨hunread, readText_ok.mp htext⟩⟩
    · cases h
    · rename_i hcut hending
      split at h
      · cases h
      · rename_i hne
        obtain ⟨htext, rfl⟩ := Prod.mk.inj h
        exact ⟨rfl, s.unread, cutLine_none.mp hcut, Or.inr ⟨hending, rfl, hne, rfl, readText_ok.mp htext⟩⟩
  · intro h
    obtain ⟨line, hnot, hcase⟩ := h.split
    obtain ⟨unread', ending'⟩ := s'
    obtain rfl : ending' = s.ending := h.ending
    cases hcase with
    | inl hline =>
      obtain ⟨hunread, htext⟩ := hline
      have hcut : cutLine s.unread = some (line ++ [10], unread') := by rw [hunread, cutLine_append hnot]
      unfold readLine
      rw [hcut]
      simp only [readText_ok.mpr htext]
    | inr hlast =>
      obtain ⟨hending, hunread, hne, hrest, htext⟩ := hlast
      obtain rfl : unread' = [] := hrest
      have hcut : cutLine s.unread = none := by rw [hunread, cutLine_none]; exact hnot
      unfold readLine
      rw [hcut, hending]
      simp only [hunread, if_neg hne, readText_ok.mpr htext]

theorem readLine_error {s s' : Socket} {f : Failure} (h : readLine s = (.error f, s')) : ∃ e, f = .err e := by
  unfold readLine at h
  split at h
  · exact readText_error (Prod.mk.inj h).1
  · cases h
    exact ⟨_, rfl⟩
  · split at h
    · cases h
      exact ⟨_, rfl⟩
    · exact readText_error (Prod.mk.inj h).1

theorem Line.shorter {s s' : Socket} {text : String} (h : Line s text s') : s'.unread.length < s.unread.length := by
  obtain ⟨line, -, hcase⟩ := h.split
  cases hcase with
  | inl hline =>
    rw [hline.1, List.length_append, List.length_cons]
    omega
  | inr hlast =>
    rw [hlast.2.2.2.1, hlast.2.1]
    exact List.length_pos_iff.mpr hlast.2.2.1

/-- What stands in front reads in one way. -/
theorem Line.unique {s s₁ s₂ : Socket} {text₁ text₂ : String} (h₁ : Line s text₁ s₁) (h₂ : Line s text₂ s₂) :
    text₁ = text₂ ∧ s₁ = s₂ := by
  have heq := (readLine_ok.mpr h₁).symm.trans (readLine_ok.mpr h₂)
  obtain ⟨htext, hs⟩ := Prod.mk.inj heq
  exact ⟨Except.ok.inj htext, hs⟩

/-! ## Exact numbers of bytes -/

def readExact (n : ℕ) : Reader (List UInt8) := fun s =>
  if n ≤ s.unread.length then (.ok (s.unread.take n), { s with unread := s.unread.drop n })
  else (.error (.err (s.ending.getD (.io "failed to fill whole buffer"))), { s with unread := [] })

def readToEnd : Reader (List UInt8) := fun s =>
  match s.ending with
  | some e => (.error (.err e), { s with unread := [] })
  | none => (.ok s.unread, { s with unread := [] })

theorem readExact_ok {n : ℕ} {s s' : Socket} {data : List UInt8} (h : readExact n s = (.ok data, s')) :
    s.unread = data ++ s'.unread ∧ data.length = n ∧ s'.ending = s.ending := by
  unfold readExact at h
  split at h
  · rename_i hle
    obtain ⟨hdata, rfl⟩ := Prod.mk.inj h
    cases hdata
    exact ⟨(List.take_append_drop ..).symm, List.length_take_of_le hle, rfl⟩
  · cases h

theorem readExact_error {n : ℕ} {s s' : Socket} {f : Failure} (h : readExact n s = (.error f, s')) :
    ∃ e, f = .err e := by
  unfold readExact at h
  split at h
  · cases h
  · cases h
    exact ⟨_, rfl⟩

theorem readExact_append {data : List UInt8} {s s' : Socket} (hunread : s.unread = data ++ s'.unread)
    (hending : s'.ending = s.ending) : readExact data.length s = (.ok data, s') := by
  obtain ⟨unread', ending'⟩ := s'
  obtain rfl : ending' = s.ending := hending
  have hunread : s.unread = data ++ unread' := hunread
  unfold readExact
  rw [hunread, if_pos (by simp), List.take_left, List.drop_left]

/-! ## Chunks -/

/-- The length of a buffer with room for `size` bytes behind the first `start` (`resize(start + size, 0)`). -/
def resized (start size : ℕ) : Except Failure ℕ :=
  if 2 ^ 64 ≤ start + size then .error (.crash .overflow)
  else if isizeMax < start + size then .error (.crash .capacity)
  else .ok (start + size)

/-- The length of the slice from `start` of a buffer. -/
def sliceFrom (start length : ℕ) : Except Failure ℕ :=
  if length < start then .error (.crash .slice) else .ok (length - start)

/-- Room for a chunk behind what the body has. -/
def room (body : List UInt8) (size : ℕ) : Except Failure ℕ :=
  match resized body.length size with
  | .error f => .error f
  | .ok length => sliceFrom body.length length

def chunkSize (line : String) : Option ℕ := Text.parseHex (2 ^ 64) (Text.trim ((Text.split ';' line).headD ""))

/-- The lines behind the last chunk, up to an empty one. -/
def skipTrailers (s : Socket) : Except Failure Unit × Socket :=
  match _h : readLine s with
  | (.error f, s') => (.error f, s')
  | (.ok line, s') => if line.isEmpty then (.ok (), s') else skipTrailers s'
  termination_by s.unread.length
  decreasing_by exact (readLine_ok.mp _h).shorter

/-- A chunk of which the size has been read, with the line behind its data; gives the body with it. -/
def readChunk (body : List UInt8) (size : ℕ) : Reader (List UInt8) := fun s =>
  match room body size with
  | .error f => (.error f, s)
  | .ok n => match readExact n s with
    | (.error f, s₁) => (.error f, s₁)
    | (.ok data, s₁) => match readLine s₁ with
      | (.error f, s₂) => (.error f, s₂)
      | (.ok _, s₂) => (.ok (body ++ data), s₂)

/-- A size line. -/
def readSize : Reader ℕ := fun s =>
  match readLine s with
  | (.error f, s') => (.error f, s')
  | (.ok line, s') => match chunkSize line with
    | none => (.error (.err (.protocol s!"bad chunk size {Text.debugStr line}")), s')
    | some size => (.ok size, s')

theorem readSize_ok {s s' : Socket} {size : ℕ} :
    readSize s = (.ok size, s') ↔ ∃ line, Line s line s' ∧ chunkSize line = some size := by
  constructor
  · intro h
    unfold readSize at h
    split at h
    · cases h
    · rename_i line s₁ hline
      split at h
      · cases h
      · rename_i hsize
        cases h
        exact ⟨line, readLine_ok.mp hline, hsize⟩
  · intro h
    obtain ⟨line, hline, hsize⟩ := h
    unfold readSize
    rw [readLine_ok.mpr hline]
    simp only [hsize]

theorem readSize_error {s s' : Socket} {f : Failure} (h : readSize s = (.error f, s')) : ∃ e, f = .err e := by
  unfold readSize at h
  split at h
  · rename_i hline
    cases h
    exact readLine_error hline
  · split at h
    · cases h
      exact ⟨_, rfl⟩
    · cases h

theorem readChunk_ok {body out : List UInt8} {size : ℕ} {s s' : Socket} (h : readChunk body size s = (.ok out, s')) :
    ∃ n data s₁ ending, room body size = .ok n ∧ readExact n s = (.ok data, s₁) ∧ Line s₁ ending s' ∧
      out = body ++ data := by
  unfold readChunk at h
  split at h
  · cases h
  · rename_i n hroom
    split at h
    · cases h
    · rename_i data s₁ hdata
      split at h
      · cases h
      · rename_i ending s₂ hline
        cases h
        exact ⟨n, data, s₁, ending, hroom, hdata, readLine_ok.mp hline, rfl⟩

theorem readChunk_shorter {body out : List UInt8} {size : ℕ} {s s' : Socket}
    (h : readChunk body size s = (.ok out, s')) : s'.unread.length < s.unread.length := by
  obtain ⟨n, data, s₁, ending, -, hdata, hline, -⟩ := readChunk_ok h
  have hsplit := congrArg List.length (readExact_ok hdata).1
  rw [List.length_append] at hsplit
  exact hline.shorter.trans_le (by omega)

/-- The loop of `read_chunked`, with the body so far. -/
def readChunkedFrom (body : List UInt8) (s : Socket) : Except Failure (List UInt8) × Socket :=
  match _hsize : readSize s with
  | (.error f, s₁) => (.error f, s₁)
  | (.ok size, s₁) =>
    if size = 0 then
      match skipTrailers s₁ with
      | (.error f, s₂) => (.error f, s₂)
      | (.ok (), s₂) => (.ok body, s₂)
    else
      match _hchunk : readChunk body size s₁ with
      | (.error f, s₂) => (.error f, s₂)
      | (.ok body, s₂) => readChunkedFrom body s₂
  termination_by s.unread.length
  decreasing_by
    obtain ⟨line, hline, -⟩ := readSize_ok.mp _hsize
    exact (readChunk_shorter _hchunk).trans hline.shorter

def readChunked : Reader (List UInt8) := readChunkedFrom []

/-! ## Heads -/

structure Headers where
  contentLength : Option ℕ := none
  chunked : Bool := false
  contentType : String := ""
  deriving DecidableEq, Repr

/-- What a header line changes; a later one of the same name stands for the earlier. -/
def Headers.note (h : Headers) (line : String) : Headers :=
  match Text.splitOnce ':' line with
  | none => h
  | some (k, v) =>
    let v := Text.trim v
    match Text.toAsciiLowercase (Text.trim k) with
    | "content-length" => { h with contentLength := Text.parseUnsigned (2 ^ 64) v }
    | "transfer-encoding" => { h with chunked := Text.toAsciiLowercase v == "chunked" }
    | "content-type" => { h with contentType := v }
    | _ => h

/-- The loop over the header lines, up to an empty one. -/
def readHeaders (h : Headers) (s : Socket) : Except Failure Headers × Socket :=
  match _h : readLine s with
  | (.error f, s') => (.error f, s')
  | (.ok line, s') => if line.isEmpty then (.ok h, s') else readHeaders (h.note line) s'
  termination_by s.unread.length
  decreasing_by exact (readLine_ok.mp _h).shorter

def statusOf (line : String) : Option UInt16 := (Text.splitWhitespace line)[1]?.bind Text.parseU16

/-- The status of the first line. -/
def readStatus : Reader UInt16 := fun s =>
  match readLine s with
  | (.error f, s') => (.error f, s')
  | (.ok line, s') => match statusOf line with
    | none => (.error (.err (.protocol s!"bad status line {Text.debugStr line}")), s')
    | some status => (.ok status, s')

/-- A buffer of `n` bytes, filled. -/
def readLength (n : ℕ) : Reader (List UInt8) := fun s =>
  if isizeMax < n then (.error (.crash .capacity), s) else readExact n s

def readBody (h : Headers) : Reader (List UInt8) :=
  if h.chunked then readChunked
  else match h.contentLength with
    | some n => readLength n
    | none => readToEnd

def requestText (path : String) : String := s!"GET {path} HTTP/1.1\r\nHost: localhost\r\nConnection: close\r\n\r\n"

/-- `get`, where `send` connects with the timeouts set and writes the request. -/
def get (send : String → Except Error Unit) (path : String) : Reader Response := fun s =>
  match send (requestText path) with
  | .error e => (.error (.err e), s)
  | .ok () => match readStatus s with
    | (.error f, s₁) => (.error f, s₁)
    | (.ok status, s₁) => match readHeaders {} s₁ with
      | (.error f, s₂) => (.error f, s₂)
      | (.ok h, s₂) => match readBody h s₂ with
        | (.error f, s₃) => (.error f, s₃)
        | (.ok body, s₃) => (.ok ⟨status, h.contentType, body⟩, s₃)

end Collocate.Pebble
