import Collocate.Core.Wire
import Collocate.Lib.Utf8

/-! # HTTP/1.1 messages (`collocate-remote/src/http.rs`)

A connection is read through a buffer. How much each read of the underlying stream gives, or that it fails,
is decided outside: the stream carries a script for its next reads. A body is read as its framing says, and
leaves the connection behind what it has read. -/
namespace Collocate.Remote
set_option autoImplicit false

def maxHead : ℕ := 64 * 1024

/-- A `Read` with the bytes it will still give, and what becomes of the next reads: at most one byte more than
a number, or an error; without a script a read gives all it has room for. -/
structure Source where
  bytes : List UInt8
  script : List (Except Error ℕ) := []
  deriving DecidableEq

/-- A read into room for `room` bytes; it gives none once the stream has ended. -/
def Source.read (room : ℕ) : Prog Source (List UInt8) := fun s =>
  match s.script with
  | [] => (.ok (s.bytes.take room), { s with bytes := s.bytes.drop room })
  | .ok n :: script => (.ok (s.bytes.take (min room (n + 1))), ⟨s.bytes.drop (min room (n + 1)), script⟩)
  | .error e :: script => (.error e, { s with script })

/-! ## Buffered reads -/

structure Buffered where
  inner : Source
  buf : List UInt8 := []
  pos : ℕ := 0
  deriving DecidableEq

namespace Buffered

def pending (c : Buffered) : List UInt8 := c.buf.drop c.pos

/-- All that has not been read yet. -/
def unread (c : Buffered) : List UInt8 := c.pending ++ c.inner.bytes

def fromInner (room : ℕ) : Prog Buffered (List UInt8) :=
  Eff.zoom inner (fun inner c => { c with inner }) (Source.read room)

def read (room : ℕ) : Prog Buffered (List UInt8) := do
  let c ← Eff.get
  if c.pos < c.buf.length then
    let n := min room (c.buf.length - c.pos)
    let pos := c.pos + n
    Eff.modify fun c => if pos = c.buf.length then { c with buf := [], pos := 0 } else { c with pos }
    pure ((c.buf.drop c.pos).take n)
  else fromInner room

/-- Where the blank line behind a head ends. -/
def findEnd : List UInt8 → Option ℕ
  | [] => none
  | b :: rest =>
    if [13, 10, 13, 10].isPrefixOf (b :: rest) then some 4 else (findEnd rest).map (· + 1)

/-- The loop of `read_head_bytes`: `none` when the stream ends before a head begins. -/
def fillHead (max : ℕ) (c : Buffered) : Result (Option (List UInt8)) × Buffered :=
  match findEnd c.buf with
  | some n => (.ok (some (c.buf.take n)), { c with buf := c.buf.drop n })
  | none =>
    if h : max < c.buf.length then (.error (.invalid "request headers are too large"), c)
    else match fromInner 4096 c with
      | (.error e, c) => (.error e, c)
      | (.ok [], c) => (if c.buf.isEmpty then .ok none else .error .eof, c)
      | (.ok (b :: chunk), c') => fillHead max { c' with buf := c.buf ++ b :: chunk }
  termination_by max + 1 - c.buf.length
  decreasing_by
    simp only [List.length_append, List.length_cons]
    omega

def readHeadBytes (max : ℕ) : Prog Buffered (Option (List UInt8)) := fun c =>
  fillHead max (if 0 < c.pos then { c with buf := c.pending, pos := 0 } else c)

end Buffered

/-! ## Heads -/

/-- `Head` without the query, which nothing here looks at. -/
structure Head where
  method : String
  path : String
  headers : List (String × String)
  http10 : Bool
  deriving DecidableEq, Repr

/-- `eq_ignore_ascii_case`. -/
def sameName (a b : String) : Bool := Text.toAsciiUppercase a == Text.toAsciiUppercase b

namespace Head

def header (h : Head) (name : String) : Option String :=
  (h.headers.find? fun kv => sameName kv.1 name).map Prod.snd

def hasToken (h : Head) (name token : String) : Bool :=
  (h.header name).any fun v => (Text.split ',' v).any fun t => sameName (Text.trim t) token

def contentLength (h : Head) : Result (Option UInt64) :=
  match h.header "content-length" with
  | none => .ok none
  | some v => match Text.parseU64 (Text.trim v) with
    | none => .error (.invalid "bad content-length")
    | some n => .ok (some n)

def chunked (h : Head) : Bool := h.hasToken "transfer-encoding" "chunked"

def keepAlive (h : Head) : Bool :=
  if h.http10 then h.hasToken "connection" "keep-alive" else !h.hasToken "connection" "close"

end Head

/-! ## What a read leaves -/

theorem Source.read_ok {room : ℕ} {s s' : Source} {out : List UInt8} (h : Source.read room s = (.ok out, s')) :
    s.bytes = out ++ s'.bytes ∧ out.length ≤ room ∧ (out = [] → 0 < room → s.bytes = []) := by
  unfold Source.read at h
  split at h
  · cases h
    refine ⟨(List.take_append_drop ..).symm, List.length_take_le .., ?_⟩
    intro hout hroom
    exact (List.take_eq_nil_iff.mp hout).resolve_left (by omega)
  · cases h
    refine ⟨(List.take_append_drop ..).symm, (List.length_take_le ..).trans (Nat.min_le_left ..), ?_⟩
    intro hout hroom
    exact (List.take_eq_nil_iff.mp hout).resolve_left (by omega)
  · cases h

theorem Source.read_error {room : ℕ} {s s' : Source} {e : Error} (h : Source.read room s = (.error e, s')) :
    s'.bytes = s.bytes := by
  unfold Source.read at h
  split at h
  · cases h
  · cases h
  · cases h
    rfl

namespace Buffered

theorem fromInner_ok {room : ℕ} {c c' : Buffered} {out : List UInt8} (h : fromInner room c = (.ok out, c')) :
    c.inner.bytes = out ++ c'.inner.bytes ∧ out.length ≤ room ∧ (out = [] → 0 < room → c.inner.bytes = []) ∧
      c'.buf = c.buf ∧ c'.pos = c.pos := by
  unfold fromInner Eff.zoom at h
  rcases hr : Source.read room c.inner with ⟨e | out', inner⟩ <;> rw [hr] at h <;> cases h
  obtain ⟨hbytes, hroom, hend⟩ := Source.read_ok hr
  exact ⟨hbytes, hroom, hend, rfl, rfl⟩

theorem fromInner_error {room : ℕ} {c c' : Buffered} {e : Error} (h : fromInner room c = (.error e, c')) :
    c'.inner.bytes = c.inner.bytes ∧ c'.buf = c.buf ∧ c'.pos = c.pos := by
  unfold fromInner Eff.zoom at h
  rcases hr : Source.read room c.inner with ⟨e' | out', inner⟩ <;> rw [hr] at h <;> cases h
  exact ⟨Source.read_error hr, rfl, rfl⟩

theorem read_buffered {room : ℕ} {c : Buffered} (h : c.pos < c.buf.length) :
    read room c = (.ok (c.pending.take (min room c.pending.length)),
      if c.pos + min room c.pending.length = c.buf.length then { c with buf := [], pos := 0 }
      else { c with pos := c.pos + min room c.pending.length }) := by
  have hlength : c.pending.length = c.buf.length - c.pos := List.length_drop
  rw [read, Eff.get_bind_apply, if_pos h, hlength]
  rfl

theorem read_inner {room : ℕ} {c : Buffered} (h : ¬c.pos < c.buf.length) : read room c = fromInner room c := by
  rw [read, Eff.get_bind_apply, if_neg h]

theorem pending_nil {c : Buffered} (h : ¬c.pos < c.buf.length) : c.pending = [] :=
  List.drop_eq_nil_of_le (by omega)

/-- A read gives the next bytes, at least one unless there are none. -/
theorem read_ok {room : ℕ} {c c' : Buffered} {out : List UInt8} (h : read room c = (.ok out, c')) :
    c.unread = out ++ c'.unread ∧ out.length ≤ room ∧ (out = [] → 0 < room → c.unread = []) := by
  by_cases hpos : c.pos < c.buf.length
  · rw [read_buffered hpos] at h
    have hlength : c.pending.length = c.buf.length - c.pos := List.length_drop
    obtain ⟨rfl, rfl⟩ := Prod.mk.inj h |>.imp_left Except.ok.inj
    refine ⟨?_, by rw [List.length_take]; omega, ?_⟩
    · have hrest : (if c.pos + min room c.pending.length = c.buf.length then ({ c with buf := [], pos := 0 } : Buffered)
          else { c with pos := c.pos + min room c.pending.length }).unread =
          c.pending.drop (min room c.pending.length) ++ c.inner.bytes := by
        split
        · rw [List.drop_eq_nil_of_le (by omega)]
          rfl
        · rw [pending, List.drop_drop]
          rfl
      rw [hrest, ← List.append_assoc, List.take_append_drop]
      rfl
    · intro hout hroom
      rcases List.take_eq_nil_iff.mp hout with hzero | hnil
      · omega
      · rw [hnil] at hlength
        simp at hlength
        omega
  · rw [read_inner hpos] at h
    obtain ⟨hbytes, hroom, hend, hbuf, hposeq⟩ := fromInner_ok h
    have hnil := pending_nil hpos
    have hnil' : c'.pending = [] := by rw [pending, hbuf, hposeq]; exact hnil
    refine ⟨by rw [unread, unread, hnil, hnil']; exact hbytes, hroom, ?_⟩
    intro hout hr
    rw [unread, hnil, hend hout hr]
    rfl

theorem read_error {room : ℕ} {c c' : Buffered} {e : Error} (h : read room c = (.error e, c')) :
    c'.unread = c.unread := by
  by_cases hpos : c.pos < c.buf.length
  · rw [read_buffered hpos] at h
    cases h
  · rw [read_inner hpos] at h
    obtain ⟨hbytes, hbuf, hposeq⟩ := fromInner_error h
    rw [unread, unread, pending, pending, hbytes, hbuf, hposeq]

end Buffered

/-! ## Bodies -/

inductive Framing
  | length (left : ℕ)
  | chunked (remaining : ℕ) (done : Bool)
  | untilClose
  deriving DecidableEq, Repr

/-- `Body::new`, for the body of a request or of a response. -/
def framing (h : Head) (request : Bool) : Result Framing :=
  if h.chunked then .ok (.chunked 0 false)
  else match h.contentLength with
    | .error e => .error e
    | .ok (some n) => .ok (.length n.toNat)
    | .ok none => .ok (if request then .length 0 else .untilClose)

structure Body where
  conn : Buffered
  framing : Framing
  deriving DecidableEq

namespace Body

def unread (b : Body) : List UInt8 := b.conn.unread

/-- A read of the connection. -/
def raw (room : ℕ) : Prog Body (List UInt8) := Eff.zoom conn (fun conn b => { b with conn }) (Buffered.read room)

def maxLine : ℕ := 4096

/-- The loop of `read_line`, with what it has read of the line. -/
def readLineFrom (line : List UInt8) (b : Body) : Result String × Body :=
  match raw 1 b with
  | (.error e, b) => (.error e, b)
  | (.ok [], b) => (.error unexpectedEof, b)
  | (.ok (c :: _), b) =>
    if c = 10 then (.ok (Text.trim (Utf8.lossy line)), b)
    else if h : maxLine < line.length then (.error (.io "chunk header too long"), b)
    else readLineFrom (line ++ [c]) b
  termination_by maxLine + 1 - line.length
  decreasing_by
    simp only [List.length_append, List.length_singleton]
    omega

def readLine : Prog Body String := readLineFrom []

/-- The size at the head of a chunk. -/
def chunkSize (line : String) : Result ℕ :=
  match Text.parseHex (2 ^ 64) (Text.trim ((Text.split ';' line).headD "")) with
  | some n => .ok n
  | none => .error (.io "bad chunk size")

theorem raw_ok {room : ℕ} {b b' : Body} {out : List UInt8} (h : raw room b = (.ok out, b')) :
    b.unread = out ++ b'.unread ∧ out.length ≤ room ∧ (out = [] → 0 < room → b.unread = []) ∧
      b'.framing = b.framing := by
  unfold raw Eff.zoom at h
  rcases hr : Buffered.read room b.conn with ⟨e | out', c⟩ <;> rw [hr] at h <;> cases h
  obtain ⟨hunread, hroom, hend⟩ := Buffered.read_ok hr
  exact ⟨hunread, hroom, hend, rfl⟩

/-- A line read from what is unread, with its end. -/
theorem readLineFrom_ok {line : List UInt8} {b b' : Body} {text : String} (h : readLineFrom line b = (.ok text, b')) :
    ∃ more, b.unread = more ++ 10 :: b'.unread ∧ 10 ∉ more ∧ text = Text.trim (Utf8.lossy (line ++ more)) ∧
      b'.framing = b.framing := by
  fun_induction readLineFrom line b with
  | case1 => cases h
  | case2 => cases h
  | case3 line b rest b₁ hraw =>
    simp only [Prod.mk.injEq, Except.ok.injEq] at h
    obtain ⟨rfl, rfl⟩ := h
    obtain ⟨hunread, hroom, -, hframing⟩ := raw_ok hraw
    obtain rfl : rest = [] := List.length_eq_zero_iff.mp (by simpa using hroom)
    exact ⟨[], hunread, List.not_mem_nil, by rw [List.append_nil], hframing⟩
  | case4 => cases h
  | case5 line b c rest b₁ hraw hc hline ih =>
    obtain ⟨hunread, hroom, -, hframing⟩ := raw_ok hraw
    obtain rfl : rest = [] := List.length_eq_zero_iff.mp (by simpa using hroom)
    obtain ⟨more, hmore, hnot, htext, hframing'⟩ := ih h
    refine ⟨c :: more, ?_, ?_, ?_, hframing'.trans hframing⟩
    · rw [hunread, hmore]
      rfl
    · rw [List.mem_cons]
      rintro (rfl | hmem)
      · exact hc rfl
      · exact hnot hmem
    · rw [htext, List.append_assoc]
      rfl

theorem readLine_shorter {b b' : Body} {text : String} (h : readLine b = (.ok text, b')) :
    b'.unread.length < b.unread.length := by
  obtain ⟨more, hunread, -⟩ := readLineFrom_ok h
  rw [hunread, List.length_append, List.length_cons]
  omega

/-- The lines behind the last chunk, up to an empty one. -/
def skipTrailers (b : Body) : Result Unit × Body :=
  match _h : readLine b with
  | (.error e, b') => (.error e, b')
  | (.ok line, b') => if line.isEmpty then (.ok (), b') else skipTrailers b'
  termination_by b.unread.length
  decreasing_by exact readLine_shorter _h

/-- A read of a chunk that has `remaining` bytes left; its last byte is followed by the end of a line. -/
def readData (room remaining : ℕ) (b : Body) : Result (List UInt8) × Body :=
  match raw (min room remaining) b with
  | (.error e, b) => (.error e, b)
  | (.ok [], b) => (.error unexpectedEof, b)
  | (.ok (c :: out), b) =>
    let remaining := remaining - (c :: out).length
    if remaining = 0 then
      match readLine b with
      | (.error e, b) => (.error e, b)
      | (.ok _, b) => (.ok (c :: out), { b with framing := .chunked 0 false })
    else (.ok (c :: out), { b with framing := .chunked remaining false })

def read (room : ℕ) (b : Body) : Result (List UInt8) × Body :=
  match b.framing with
  | .length 0 => (.ok [], b)
  | .length left =>
    match raw (min room left) b with
    | (.error e, b) => (.error e, b)
    | (.ok [], b) => (.error unexpectedEof, b)
    | (.ok (c :: out), b) => (.ok (c :: out), { b with framing := .length (left - (c :: out).length) })
  | .untilClose => raw room b
  | .chunked _ true => (.ok [], b)
  | .chunked 0 false =>
    match readLine b with
    | (.error e, b) => (.error e, b)
    | (.ok line, b) => match chunkSize line with
      | .error e => (.error e, b)
      | .ok 0 => match skipTrailers b with
        | (.error e, b) => (.error e, b)
        | (.ok _, b) => (.ok [], { b with framing := .chunked 0 true })
      | .ok size => readData room size b
  | .chunked remaining false => readData room remaining b

theorem readData_shorter {room remaining : ℕ} {b b' : Body} {c : UInt8} {out : List UInt8}
    (h : readData room remaining b = (.ok (c :: out), b')) : b'.unread.length < b.unread.length := by
  unfold readData at h
  split at h
  · cases h
  · cases h
  · rename_i c' out' b₁ hraw
    obtain ⟨hunread, -⟩ := raw_ok hraw
    have hlt : b₁.unread.length < b.unread.length := by
      rw [hunread, List.length_append, List.length_cons]
      omega
    dsimp only at h
    split at h
    · split at h
      · cases h
      · rename_i line b₂ hline
        cases h
        exact (readLine_shorter hline).trans hlt
    · cases h
      exact hlt

/-- A read that gives something leaves less. -/
theorem read_shorter {room : ℕ} {b b' : Body} {c : UInt8} {out : List UInt8} (h : read room b = (.ok (c :: out), b')) :
    b'.unread.length < b.unread.length := by
  unfold read at h
  split at h
  · cases h
  · split at h
    · cases h
    · cases h
    · rename_i c' out' b₁ hraw
      obtain ⟨hunread, -⟩ := raw_ok hraw
      have hlt : b₁.unread.length < b.unread.length := by
        rw [hunread, List.length_append, List.length_cons]
        omega
      cases h
      exact hlt
  · obtain ⟨hunread, -⟩ := raw_ok h
    rw [hunread, List.length_append, List.length_cons]
    omega
  · cases h
  · split at h
    · cases h
    · rename_i line b₁ hline
      have hlt := readLine_shorter hline
      split at h
      · cases h
      · split at h <;> cases h
      · exact (readData_shorter h).trans hlt
  · exact readData_shorter h

/-- The loop of `read_all`, with what it has read. -/
def readAllFrom (limit : ℕ) (out : List UInt8) (b : Body) : Result (List UInt8) × Body :=
  match _h : read 16384 b with
  | (.error e, b') => (.error e, b')
  | (.ok [], b') => (.ok out, b')
  | (.ok (c :: chunk), b') =>
    if limit < out.length + (c :: chunk).length then (.error (.frameTooLarge (out.length + (c :: chunk).length)), b')
    else readAllFrom limit (out ++ c :: chunk) b'
  termination_by b.unread.length
  decreasing_by exact read_shorter _h

def readAll (limit : ℕ) : Prog Body (List UInt8) := readAllFrom limit []

def drain (b : Body) : Result Unit × Body :=
  match _h : read 16384 b with
  | (.error e, b') => (.error e, b')
  | (.ok [], b') => (.ok (), b')
  | (.ok (_ :: _), b') => drain b'
  termination_by b.unread.length
  decreasing_by exact read_shorter _h

end Body

/-! ## Chunks -/

def writeChunk (data : List UInt8) : List UInt8 :=
  if data.isEmpty then [] else Utf8.ascii (Text.hexText data.length) ++ [13, 10] ++ data ++ [13, 10]

def finishChunks : List UInt8 := Utf8.ascii "0\r\n\r\n"

end Collocate.Remote
