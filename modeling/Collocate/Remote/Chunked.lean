import Mathlib.Data.PNat.Basic
import Collocate.Remote.Http

/-! # What the body of a message is (`collocate-remote/src/http.rs`)

`Declared` says which bytes are the body that a framing announces, and what data they carry, without saying how
they are read. Reading such a body, in whatever pieces it arrives and into whatever room, gives its data
and stops behind it. -/
namespace Collocate.Remote
set_option autoImplicit false

/-! ## Bodies -/

/-- A line without its end. -/
def IsLine (line : List UInt8) : Prop := 10 ∉ line ∧ line.length ≤ Body.maxLine + 1

def lineText (line : List UInt8) : String := Text.trim (Utf8.lossy line)

/-- The lines behind the last chunk: any, then an empty one. -/
inductive Trailers : List UInt8 → Prop
  | last (line : List UInt8) (h : IsLine line) (hempty : (lineText line).isEmpty = true) : Trailers (line ++ [10])
  | more (line rest : List UInt8) (h : IsLine line) (hsome : (lineText line).isEmpty = false) (hrest : Trailers rest) :
      Trailers (line ++ 10 :: rest)

/-- Chunks up to the last, with the data in them. -/
inductive Chunks : List UInt8 → List UInt8 → Prop
  | last (line trailers : List UInt8) (h : IsLine line) (hsize : Body.chunkSize (lineText line) = .ok 0)
      (htrailers : Trailers trailers) : Chunks (line ++ 10 :: trailers) []
  | chunk (line data ending rest more : List UInt8) (h : IsLine line)
      (hsize : Body.chunkSize (lineText line) = .ok data.length) (hdata : data ≠ []) (hending : IsLine ending)
      (hrest : Chunks rest more) : Chunks (line ++ 10 :: (data ++ (ending ++ 10 :: rest))) (data ++ more)

/-- The bytes that a framing still has to come, with the data in them. -/
inductive Declared : Framing → List UInt8 → List UInt8 → Prop
  | length (bytes : List UInt8) : Declared (.length bytes.length) bytes bytes
  | chunks (bytes data : List UInt8) (h : Chunks bytes data) : Declared (.chunked 0 false) bytes data
  | within (data ending rest more : List UInt8) (hdata : data ≠ []) (hending : IsLine ending)
    (hrest : Chunks rest more) :
      Declared (.chunked data.length false) (data ++ (ending ++ 10 :: rest)) (data ++ more)
  | done (remaining : ℕ) : Declared (.chunked remaining true) [] []

/-- What was taken from the front is the beginning of what stands there, when it is no longer than that. -/
theorem took {data more out left : List UInt8} (h : data ++ more = out ++ left) (hlength : out.length ≤ data.length) :
    ∃ tail, data = out ++ tail ∧ left = tail ++ more := by
  obtain ⟨tail, rfl⟩ := List.prefix_of_prefix_length_le ⟨left, h.symm⟩ (List.prefix_append data more) hlength
  rw [List.append_assoc] at h
  exact ⟨tail, rfl, (List.append_cancel_left h).symm⟩

/-! ## Reads that do not fail -/

def Source.Faultless (s : Source) : Prop := ∀ r ∈ s.script, ∃ n, r = .ok n

def Body.Faultless (b : Body) : Prop := b.conn.inner.Faultless

theorem Source.read_faultless {s : Source} (h : s.Faultless) (room : ℕ) :
    ∃ out s', Source.read room s = (.ok out, s') ∧ s'.Faultless := by
  unfold Source.read
  cases hs : s.script with
  | nil => exact ⟨_, _, rfl, fun r hr => by simp at hr⟩
  | cons r script =>
    obtain ⟨n, rfl⟩ := h r (by rw [hs]; exact List.mem_cons_self ..)
    exact ⟨_, _, rfl, fun r hr => h r (by rw [hs]; exact List.mem_cons_of_mem _ hr)⟩

theorem Buffered.read_faultless {c : Buffered} (h : c.inner.Faultless) (room : ℕ) :
    ∃ out c', Buffered.read room c = (.ok out, c') ∧ c'.inner.Faultless := by
  by_cases hpos : c.pos < c.buf.length
  · rw [Buffered.read_buffered hpos]
    refine ⟨_, _, rfl, ?_⟩
    split <;> exact h
  · obtain ⟨out, inner, hread, hinner⟩ := Source.read_faultless h room
    rw [Buffered.read_inner hpos]
    refine ⟨out, { c with inner }, ?_, hinner⟩
    unfold Buffered.fromInner Eff.zoom
    rw [hread]

namespace Body

/-- A read that has room and something to read. -/
theorem raw_faultless {b : Body} (h : b.Faultless) (room : ℕ) (hroom : 0 < room) (hne : b.unread ≠ []) :
    ∃ c out b', raw room b = (.ok (c :: out), b') ∧ b'.Faultless := by
  obtain ⟨out, conn, hread, hconn⟩ := Buffered.read_faultless h room
  have hraw : raw room b = (.ok out, { b with conn }) := by
    unfold raw Eff.zoom
    rw [hread]
  cases out with
  | nil => exact absurd ((raw_ok hraw).2.2.1 rfl hroom) hne
  | cons c out => exact ⟨c, out, _, hraw, hconn⟩

/-- Reading on in a line. -/
theorem readLineFrom_line {b : Body} (h : b.Faultless) {line more rest : List UInt8} (hnot : 10 ∉ more)
    (hlength : (line ++ more).length ≤ maxLine + 1) (hunread : b.unread = more ++ 10 :: rest) :
    ∃ b', readLineFrom line b = (.ok (lineText (line ++ more)), b') ∧ b'.unread = rest ∧ b'.framing = b.framing ∧
      b'.Faultless := by
  induction more generalizing b line with
  | nil =>
    obtain ⟨c, out, b', hraw, hb'⟩ := raw_faultless h 1 Nat.one_pos (by rw [hunread]; simp)
    obtain ⟨hsplit, hroom, -, hframing⟩ := raw_ok hraw
    obtain rfl : out = [] := List.length_eq_zero_iff.mp (by simpa using hroom)
    rw [hunread] at hsplit
    obtain ⟨rfl, hrest⟩ := List.cons.inj hsplit
    refine ⟨b', ?_, hrest.symm, hframing, hb'⟩
    rw [readLineFrom, hraw]
    simp only [if_pos, List.append_nil]
    rfl
  | cons d more ih =>
    obtain ⟨c, out, b', hraw, hb'⟩ := raw_faultless h 1 Nat.one_pos (by rw [hunread]; simp)
    obtain ⟨hsplit, hroom, -, hframing⟩ := raw_ok hraw
    obtain rfl : out = [] := List.length_eq_zero_iff.mp (by simpa using hroom)
    rw [hunread] at hsplit
    obtain ⟨rfl, hrest⟩ := List.cons.inj hsplit
    rw [List.mem_cons, not_or] at hnot
    have hshort : ¬maxLine < line.length := by
      simp only [List.length_append, List.length_cons] at hlength
      omega
    have hlength' : (line ++ [d] ++ more).length ≤ maxLine + 1 := by simpa using hlength
    obtain ⟨b'', hline, hunread'', hframing'', hb''⟩ := ih hb' hnot.2 hlength' hrest.symm
    refine ⟨b'', ?_, hunread'', hframing''.trans hframing, hb''⟩
    rw [readLineFrom, hraw]
    simp only [if_neg (Ne.symm hnot.1), dif_neg hshort]
    rw [hline, List.append_assoc]
    rfl

theorem readLine_line {b : Body} (h : b.Faultless) {line rest : List UInt8} (hline : IsLine line)
    (hunread : b.unread = line ++ 10 :: rest) :
    ∃ b', readLine b = (.ok (lineText line), b') ∧ b'.unread = rest ∧ b'.framing = b.framing ∧ b'.Faultless :=
  readLineFrom_line h hline.1 (by simpa using hline.2) hunread

theorem skipTrailers_trailers {b : Body} (h : b.Faultless) {trailers rest : List UInt8} (ht : Trailers trailers)
    (hunread : b.unread = trailers ++ rest) :
    ∃ b', skipTrailers b = (.ok (), b') ∧ b'.unread = rest ∧ b'.Faultless := by
  induction ht generalizing b with
  | last line hline hempty =>
    obtain ⟨b', hread, hrest, -, hb'⟩ := readLine_line h hline (by rw [hunread, List.append_assoc]; rfl)
    refine ⟨b', ?_, hrest, hb'⟩
    rw [skipTrailers]
    split
    · rename_i heq
      rw [hread] at heq
      cases heq
    · rename_i text b'' heq
      rw [hread] at heq
      obtain ⟨htext, rfl⟩ := Prod.mk.inj heq
      rw [← Except.ok.inj htext, if_pos hempty]
  | more line rest' hline hsome _ ih =>
    obtain ⟨b', hread, hrest, -, hb'⟩ := readLine_line h hline (by rw [hunread, List.append_assoc]; rfl)
    obtain ⟨b'', hskip, hrest'', hb''⟩ := ih hb' hrest
    refine ⟨b'', ?_, hrest'', hb''⟩
    rw [skipTrailers]
    split
    · rename_i heq
      rw [hread] at heq
      cases heq
    · rename_i text b₁ heq
      rw [hread] at heq
      obtain ⟨htext, rfl⟩ := Prod.mk.inj heq
      rw [← Except.ok.inj htext, if_neg (by rw [hsome]; exact Bool.false_ne_true)]
      exact hskip

/-- What a read of a declared body gives: nothing when all is read, and otherwise the next of the data. -/
structure Reads (b : Body) (rest data : List UInt8) (out : List UInt8) (b' : Body) : Prop where
  faultless : b'.Faultless
  left : ∃ bytes data', b'.unread = bytes ++ rest ∧ Declared b'.framing bytes data' ∧ data = out ++ data'
  finished : out = [] → b'.unread = rest ∧ data = [] ∧ Declared b'.framing [] []

theorem readData_within {b : Body} (h : b.Faultless) {room : ℕ} (hroom : 0 < room)
    {data ending chunks more rest : List UInt8} (hdata : data ≠ []) (hending : IsLine ending)
    (hchunks : Chunks chunks more) (hunread : b.unread = data ++ (ending ++ 10 :: chunks) ++ rest) :
    ∃ out b', readData room data.length b = (.ok out, b') ∧ out.length ≤ room ∧ Reads b rest (data ++ more) out b' := by
  have hpos : 0 < data.length := List.length_pos_iff.mpr hdata
  obtain ⟨c, out, b', hraw, hb'⟩ := raw_faultless h (min room data.length) (by omega)
    (by rw [hunread]; simp [hdata])
  obtain ⟨hsplit, hlength, -, hframing⟩ := raw_ok hraw
  rw [hunread, List.append_assoc] at hsplit
  obtain ⟨tail, hdata', hrest⟩ := took hsplit (by omega)
  have hremaining : data.length - (c :: out).length = tail.length := by rw [hdata', List.length_append]; omega
  unfold readData
  simp only [hraw, hremaining]
  by_cases hall : tail.length = 0
  · obtain rfl : tail = [] := List.length_eq_zero_iff.mp hall
    rw [List.nil_append, List.append_assoc] at hrest
    obtain ⟨b'', hline, hunread'', hframing'', hb''⟩ := readLine_line hb' hending hrest
    rw [if_pos hall]
    simp only [hline]
    refine ⟨c :: out, _, rfl, by omega, hb'', ⟨chunks, more, hunread'', Declared.chunks _ _ hchunks, ?_⟩, ?_⟩
    · rw [hdata', List.append_nil]
    · intro hnil
      cases hnil
  · rw [if_neg hall]
    have hne : tail ≠ [] := fun hnil => hall (by rw [hnil]; rfl)
    refine ⟨c :: out, _, rfl, by omega, hb', ⟨tail ++ (ending ++ 10 :: chunks), tail ++ more, ?_, ?_, ?_⟩, ?_⟩
    · rw [List.append_assoc]
      exact hrest
    · exact Declared.within _ _ _ _ hne hending hchunks
    · rw [hdata', List.append_assoc]
    · intro hnil
      cases hnil

theorem read_length {b : Body} (h : b.Faultless) {room : ℕ} (hroom : 0 < room) {bytes rest : List UInt8}
    (hf : b.framing = .length bytes.length) (hunread : b.unread = bytes ++ rest) :
    ∃ out b', read room b = (.ok out, b') ∧ out.length ≤ room ∧ Reads b rest bytes out b' := by
  cases hbytes : bytes with
  | nil =>
    rw [hbytes] at hf hunread
    have hdeclared : Declared b.framing [] [] := by rw [hf]; exact Declared.length []
    refine ⟨[], b, ?_, Nat.zero_le _, h, ⟨[], [], hunread, hdeclared, rfl⟩, fun _ => ⟨hunread, rfl, hdeclared⟩⟩
    unfold read
    rw [hf]
    rfl
  | cons d bytes' =>
    rw [← hbytes]
    have hpos : 0 < bytes.length := by rw [hbytes]; exact Nat.succ_pos _
    obtain ⟨c, out, b', hraw, hb'⟩ := raw_faultless h (min room bytes.length) (by omega)
      (by rw [hunread, hbytes]; simp)
    obtain ⟨hsplit, hlength, -, hframing⟩ := raw_ok hraw
    rw [hunread] at hsplit
    obtain ⟨tail, hbytes', hrest⟩ := took hsplit (by omega)
    have hleft : bytes.length - (c :: out).length = tail.length := by rw [hbytes', List.length_append]; omega
    refine ⟨c :: out, { b' with framing := .length tail.length }, ?_, by omega, hb',
      ⟨tail, tail, hrest, Declared.length tail, hbytes'⟩, ?_⟩
    · obtain ⟨n, hn⟩ : ∃ n, bytes.length = n + 1 := Nat.exists_eq_succ_of_ne_zero hpos.ne'
      rw [hn] at hf hraw hleft
      unfold read
      rw [hf]
      simp only [hraw, hleft]
    · intro hnil
      cases hnil

theorem read_chunks {b : Body} (h : b.Faultless) {room : ℕ} (hroom : 0 < room) {bytes data rest : List UInt8}
    (hf : b.framing = .chunked 0 false) (hchunks : Chunks bytes data) (hunread : b.unread = bytes ++ rest) :
    ∃ out b', read room b = (.ok out, b') ∧ out.length ≤ room ∧ Reads b rest data out b' := by
  unfold read
  rw [hf]
  cases hchunks with
  | last line trailers hline hsize htrailers =>
    rw [List.append_assoc] at hunread
    obtain ⟨b', hread, hrest, -, hb'⟩ := readLine_line h hline hunread
    obtain ⟨b'', hskip, hrest', hb''⟩ := skipTrailers_trailers hb' htrailers hrest
    simp only [hread, hsize, hskip]
    have hdeclared : Declared (.chunked 0 true) [] [] := Declared.done 0
    exact ⟨[], _, rfl, Nat.zero_le _, hb'', ⟨[], [], hrest', hdeclared, rfl⟩, fun _ => ⟨hrest', rfl, hdeclared⟩⟩
  | chunk line data ending chunks more hline hsize hdata hending hrest =>
    rw [List.append_assoc] at hunread
    obtain ⟨b', hread, hunread', -, hb'⟩ := readLine_line h hline hunread
    obtain ⟨out, b'', hreads, hlength, hafter⟩ := readData_within hb' hroom hdata hending hrest hunread'
    obtain ⟨n, hn⟩ : ∃ n, data.length = n + 1 := Nat.exists_eq_succ_of_ne_zero (List.length_pos_iff.mpr hdata).ne'
    refine ⟨out, b'', ?_, hlength, hafter.1, hafter.2, hafter.3⟩
    simp only [hread, hsize]
    rw [hn] at hreads ⊢
    exact hreads

/-- One read of a declared body. -/
theorem read_declared {b : Body} (h : b.Faultless) {room : ℕ} (hroom : 0 < room) {bytes data rest : List UInt8}
    (hdeclared : Declared b.framing bytes data) (hunread : b.unread = bytes ++ rest) :
    ∃ out b', read room b = (.ok out, b') ∧ out.length ≤ room ∧ Reads b rest data out b' := by
  generalize hf : b.framing = f at hdeclared
  cases hdeclared with
  | length => exact read_length h hroom hf hunread
  | chunks _ _ hchunks => exact read_chunks h hroom hf hchunks hunread
  | within part ending chunks more hdata hending hrest =>
    obtain ⟨out, b', hread, hlength, hafter⟩ := readData_within h hroom hdata hending hrest hunread
    obtain ⟨n, hn⟩ : ∃ n, part.length = n + 1 := Nat.exists_eq_succ_of_ne_zero (List.length_pos_iff.mpr hdata).ne'
    refine ⟨out, b', ?_, hlength, hafter⟩
    unfold read
    rw [hf]
    rw [hn] at hread ⊢
    exact hread
  | done remaining =>
    have hdeclared : Declared b.framing [] [] := by rw [hf]; exact Declared.done remaining
    refine ⟨[], b, ?_, Nat.zero_le _, h, ⟨[], [], hunread, hdeclared, rfl⟩, fun _ => ⟨hunread, rfl, hdeclared⟩⟩
    unfold read
    rw [hf]

/-! ## Many reads -/

/-- Reads into room after room. -/
def readEach : List ℕ+ → Prog Body (List (List UInt8))
  | [] => pure []
  | room :: rooms => do
    let out ← read room
    let outs ← readEach rooms
    pure (out :: outs)

theorem readEach_cons {b b' b'' : Body} {room : ℕ+} {rooms : List ℕ+} {out : List UInt8} {outs : List (List UInt8)}
    (hread : read room b = (.ok out, b')) (hreads : readEach rooms b' = (.ok outs, b'')) :
    readEach (room :: rooms) b = (.ok (out :: outs), b'') := by
  rw [readEach, Eff.bind_of_ok hread, Eff.bind_of_ok hreads]
  rfl

/-- After the end a read gives nothing and takes nothing. -/
theorem readEach_finished {b : Body} (h : b.Faultless) {rest : List UInt8} (hdeclared : Declared b.framing [] [])
    (hunread : b.unread = rest) (rooms : List ℕ+) :
    ∃ b', readEach rooms b = (.ok (List.replicate rooms.length []), b') ∧ b'.unread = rest := by
  induction rooms generalizing b with
  | nil => exact ⟨b, rfl, hunread⟩
  | cons room rooms ih =>
    have hnone : b.unread = [] ++ rest := hunread
    obtain ⟨out, b', hread, -, hb'⟩ := read_declared h room.pos hdeclared hnone
    obtain ⟨bytes, data', -, -, hdata⟩ := hb'.left
    obtain ⟨rfl, -⟩ := List.append_eq_nil_iff.mp hdata.symm
    obtain ⟨hunread', -, hdeclared'⟩ := hb'.finished rfl
    obtain ⟨b'', hreads, hunread''⟩ := ih hb'.faultless hdeclared' hunread'
    exact ⟨b'', readEach_cons hread hreads, hunread''⟩

theorem readEach_declared {b : Body} (h : b.Faultless) {bytes data rest : List UInt8}
    (hdeclared : Declared b.framing bytes data) (hunread : b.unread = bytes ++ rest) (rooms : List ℕ+) :
    ∃ outs b', readEach rooms b = (.ok outs, b') ∧
      (([] ∉ outs ∧ rooms.length ≤ data.length) ∨
        ∃ front n, outs = front ++ [] :: List.replicate n [] ∧
          [] ∉ front ∧ front.flatten = data ∧ b'.unread = rest) := by
  induction rooms generalizing b bytes data with
  | nil => exact ⟨[], b, rfl, Or.inl ⟨List.not_mem_nil, Nat.zero_le _⟩⟩
  | cons room rooms ih =>
    obtain ⟨out, b', hread, -, hb'⟩ := read_declared h room.pos hdeclared hunread
    by_cases hout : out = []
    · obtain ⟨hunread', hdata, hdeclared'⟩ := hb'.finished hout
      obtain ⟨b'', hreads, hunread''⟩ := readEach_finished hb'.faultless hdeclared' hunread' rooms
      exact ⟨_, b'', readEach_cons hread hreads,
        Or.inr ⟨[], rooms.length, by rw [hout]; rfl, List.not_mem_nil, hdata.symm, hunread''⟩⟩
    · obtain ⟨bytes', data', hunread', hdeclared', hdata⟩ := hb'.left
      have hpos := List.length_pos_iff.mpr hout
      obtain ⟨outs, b'', hreads, hcase⟩ := ih hb'.faultless hdeclared' hunread'
      refine ⟨out :: outs, b'', readEach_cons hread hreads, ?_⟩
      cases hcase with
      | inl hsome =>
        refine Or.inl ⟨?_, ?_⟩
        · rw [List.mem_cons, not_or]
          exact ⟨Ne.symm hout, hsome.1⟩
        · rw [hdata, List.length_append, List.length_cons]
          have := hsome.2
          omega
      | inr hall =>
        obtain ⟨front, n, houts, hfront, hflat, hrest⟩ := hall
        refine Or.inr ⟨out :: front, n, by rw [houts]; rfl, ?_, ?_, hrest⟩
        · rw [List.mem_cons, not_or]
          exact ⟨Ne.symm hout, hfront⟩
        · rw [hdata, ← hflat]
          rfl

/-- `read_all` gives the data and stops behind the body, or fails when there is more than its limit. -/
theorem readAllFrom_declared {b : Body} (h : b.Faultless) {limit : ℕ} {sofar bytes data rest : List UInt8}
    (hdeclared : Declared b.framing bytes data) (hunread : b.unread = bytes ++ rest) (hsofar : sofar.length ≤ limit) :
    (sofar.length + data.length ≤ limit → ∃ b', readAllFrom limit sofar b = (.ok (sofar ++ data), b') ∧
      b'.unread = rest ∧ b'.Faultless) ∧
    (limit < sofar.length + data.length → ∃ n b', readAllFrom limit sofar b = (.error (.frameTooLarge n), b')) := by
  induction hn : data.length using Nat.strong_induction_on generalizing b sofar bytes data with
  | _ n ih =>
    subst hn
    obtain ⟨out, b', hread, -, hb'⟩ := read_declared h (Nat.succ_pos 16383) hdeclared hunread
    cases out with
    | nil =>
      obtain ⟨hunread', rfl, -⟩ := hb'.finished rfl
      refine ⟨fun _ => ⟨b', ?_, hunread', hb'.faultless⟩, fun hmore => absurd hmore (by simpa using hsofar)⟩
      rw [readAllFrom]
      split <;> rename_i heq <;> rw [hread] at heq <;> cases heq
      rw [List.append_nil]
    | cons c chunk =>
      obtain ⟨bytes', data', hunread', hdeclared', hdata⟩ := hb'.left
      have hlength : data.length = (c :: chunk).length + data'.length := by rw [hdata, List.length_append]
      have hstep : readAllFrom limit sofar b =
          if limit < sofar.length + (c :: chunk).length
          then (.error (.frameTooLarge (sofar.length + (c :: chunk).length)), b')
          else readAllFrom limit (sofar ++ c :: chunk) b' := by
        rw [readAllFrom]
        split <;> rename_i heq <;> rw [hread] at heq <;> cases heq
        rfl
      rw [hstep]
      by_cases hover : limit < sofar.length + (c :: chunk).length
      · rw [if_pos hover]
        exact ⟨fun hle => absurd hover (by omega), fun _ => ⟨_, b', rfl⟩⟩
      · rw [if_neg hover]
        have hsofar' : (sofar ++ c :: chunk).length ≤ limit := by rw [List.length_append]; omega
        have hih := ih data'.length (by rw [hlength, List.length_cons]; omega) hb'.faultless hdeclared' hunread'
          hsofar' rfl
        rw [List.length_append, Nat.add_assoc, ← hlength, List.append_assoc, ← hdata] at hih
        exact hih

theorem readAll_declared {b : Body} (h : b.Faultless) {limit : ℕ} {bytes data rest : List UInt8}
    (hdeclared : Declared b.framing bytes data) (hunread : b.unread = bytes ++ rest) (hlimit : data.length ≤ limit) :
    ∃ b', readAll limit b = (.ok data, b') ∧ b'.unread = rest ∧ b'.Faultless :=
  (readAllFrom_declared h hdeclared hunread (Nat.zero_le limit)).1 (by simpa using hlimit)

theorem readAll_over {b : Body} (h : b.Faultless) {limit : ℕ} {bytes data rest : List UInt8}
    (hdeclared : Declared b.framing bytes data) (hunread : b.unread = bytes ++ rest) (hlimit : limit < data.length) :
    ∃ n b', readAll limit b = (.error (.frameTooLarge n), b') :=
  (readAllFrom_declared h hdeclared hunread (Nat.zero_le limit)).2 (by simpa using hlimit)

/-- `drain` stops behind the body. -/
theorem drain_declared {b : Body} (h : b.Faultless) {bytes data rest : List UInt8}
    (hdeclared : Declared b.framing bytes data) (hunread : b.unread = bytes ++ rest) :
    ∃ b', drain b = (.ok (), b') ∧ b'.unread = rest ∧ b'.Faultless := by
  induction hn : data.length using Nat.strong_induction_on generalizing b bytes data with
  | _ n ih =>
    subst hn
    obtain ⟨out, b', hread, -, hb'⟩ := read_declared h (Nat.succ_pos 16383) hdeclared hunread
    cases out with
    | nil =>
      refine ⟨b', ?_, (hb'.finished rfl).1, hb'.faultless⟩
      rw [drain]
      split <;> rename_i heq <;> rw [hread] at heq <;> cases heq
      rfl
    | cons c chunk =>
      obtain ⟨bytes', data', hunread', hdeclared', hdata⟩ := hb'.left
      have hlength : data.length = (c :: chunk).length + data'.length := by rw [hdata, List.length_append]
      obtain ⟨b'', hdrain, hrest⟩ := ih data'.length (by rw [hlength, List.length_cons]; omega) hb'.faultless hdeclared'
        hunread' rfl
      refine ⟨b'', ?_, hrest⟩
      rw [drain]
      split <;> rename_i heq <;> rw [hread] at heq <;> cases heq
      exact hdrain

/-! Whatever becomes of a read, it takes nothing but the front of what is unread. -/

theorem raw_le (room : ℕ) (b : Body) : (raw room b).2.unread.length ≤ b.unread.length := by
  rcases hraw : raw room b with ⟨e | out, b'⟩
  · have hsame : b'.unread = b.unread := by
      unfold raw Eff.zoom at hraw
      rcases hr : Buffered.read room b.conn with ⟨e' | out', c⟩ <;> rw [hr] at hraw <;> cases hraw
      exact Buffered.read_error hr
    rw [hsame]
  · rw [(raw_ok hraw).1, List.length_append]
    exact Nat.le_add_left _ _

theorem raw_eq_le {room : ℕ} {b b' : Body} {r : Result (List UInt8)} (h : raw room b = (r, b')) :
    b'.unread.length ≤ b.unread.length := by
  have hle := raw_le room b
  rwa [h] at hle

theorem readLineFrom_le (line : List UInt8) (b : Body) : (readLineFrom line b).2.unread.length ≤ b.unread.length := by
  fun_induction readLineFrom line b with
  | case1 line b e b' hraw => exact raw_eq_le hraw
  | case2 line b b' hraw => exact raw_eq_le hraw
  | case3 line b rest b' hraw => exact raw_eq_le hraw
  | case4 line b c rest b' hraw hc hlong => exact raw_eq_le hraw
  | case5 line b c rest b' hraw hc hshort ih => exact ih.trans (raw_eq_le hraw)

theorem readLine_eq_le {b b' : Body} {r : Result String} (h : readLine b = (r, b')) :
    b'.unread.length ≤ b.unread.length := by
  have hle := readLineFrom_le [] b
  rwa [show readLineFrom [] b = (r, b') from h] at hle

theorem skipTrailers_le (b : Body) : (skipTrailers b).2.unread.length ≤ b.unread.length := by
  fun_induction skipTrailers b with
  | case1 b e b' hline => exact readLine_eq_le hline
  | case2 b line b' hline hempty => exact readLine_eq_le hline
  | case3 b line b' hline hempty ih => exact ih.trans (readLine_eq_le hline)

theorem skipTrailers_eq_le {b b' : Body} {r : Result Unit} (h : skipTrailers b = (r, b')) :
    b'.unread.length ≤ b.unread.length := by
  have hle := skipTrailers_le b
  rwa [h] at hle

theorem readData_le (room remaining : ℕ) (b : Body) :
    (readData room remaining b).2.unread.length ≤ b.unread.length := by
  unfold readData
  split
  · rename_i hraw
    exact raw_eq_le hraw
  · rename_i hraw
    exact raw_eq_le hraw
  · rename_i hraw
    have hle := raw_eq_le hraw
    dsimp only
    split
    · split
      · rename_i hline
        exact (readLine_eq_le hline).trans hle
      · rename_i hline
        exact (readLine_eq_le hline).trans hle
    · exact hle

/-- A read takes from the front of what is unread, or nothing. -/
theorem read_le (room : ℕ) (b : Body) : (read room b).2.unread.length ≤ b.unread.length := by
  unfold read
  split
  · exact Nat.le_refl _
  · split
    · rename_i hraw
      exact raw_eq_le hraw
    · rename_i hraw
      exact raw_eq_le hraw
    · rename_i hraw
      have hle := raw_eq_le hraw
      exact hle
  · exact raw_le room b
  · exact Nat.le_refl _
  · split
    · rename_i hline
      exact readLine_eq_le hline
    · rename_i hline
      have hle := readLine_eq_le hline
      split
      · exact hle
      · split
        · rename_i hskip
          exact (skipTrailers_eq_le hskip).trans hle
        · rename_i hskip
          exact (skipTrailers_eq_le hskip).trans hle
      · exact (readData_le _ _ _).trans hle
  · exact readData_le _ _ _

theorem read_eq_le {room : ℕ} {b b' : Body} {r : Result (List UInt8)} (h : read room b = (r, b')) :
    b'.unread.length ≤ b.unread.length := by
  have hle := read_le room b
  rwa [h] at hle

theorem readAllFrom_le (limit : ℕ) (out : List UInt8) (b : Body) :
    (readAllFrom limit out b).2.unread.length ≤ b.unread.length := by
  fun_induction readAllFrom limit out b with
  | case1 out b e b' hread => exact read_eq_le hread
  | case2 out b b' hread => exact read_eq_le hread
  | case3 out b c chunk b' hread hlong => exact read_eq_le hread
  | case4 out b c chunk b' hread hshort ih => exact ih.trans (read_eq_le hread)

theorem drain_le (b : Body) : (drain b).2.unread.length ≤ b.unread.length := by
  fun_induction drain b with
  | case1 b e b' hread => exact read_eq_le hread
  | case2 b b' hread => exact read_eq_le hread
  | case3 b c chunk b' hread ih => exact ih.trans (read_eq_le hread)

end Body

/-! ## What the writers write -/

/-- A byte slice: its length is a `usize`. -/
abbrev Slice := {bytes : List UInt8 // bytes.length < 2 ^ 64}

/-- What `write_chunk` for each of the slices and then `finish_chunks` write. -/
def encode (slices : List Slice) : List UInt8 := slices.flatMap (fun slice => writeChunk slice.val) ++ finishChunks

def concat (slices : List Slice) : List UInt8 := slices.flatMap fun slice => slice.val

theorem hexText_chars {n : ℕ} {c : Char} (h : c ∈ (Text.hexText n).toList) :
    c.toNat < 128 ∧ Text.isWhitespace c = false ∧ c ≠ ';' ∧ c ≠ '\n' := by
  rw [Text.hexText, String.toList_ofList] at h
  obtain ⟨d, hd, rfl⟩ := Text.mem_toDigits_hex h
  have hall : ∀ i : Fin 16, (Nat.digitChar i).toNat < 128 ∧ Text.isWhitespace (Nat.digitChar i) = false ∧
      Nat.digitChar i ≠ ';' ∧ Nat.digitChar i ≠ '\n' := by decide
  exact hall ⟨d, hd⟩

theorem ascii_return (s : String) : Utf8.ascii s ++ [13] = Utf8.ascii (s ++ "\r") := by
  unfold Utf8.ascii
  rw [String.toList_append, List.map_append]
  rfl

theorem lineText_return {s : String} (hs : ∀ c ∈ s.toList, c.toNat < 128 ∧ Text.isWhitespace c = false) :
    lineText (Utf8.ascii s ++ [13]) = s := by
  have hascii : ∀ c ∈ (s ++ "\r").toList, c.toNat < 128 := by
    intro c hc
    rw [String.toList_append, List.mem_append] at hc
    cases hc with
    | inl hmem => exact (hs c hmem).1
    | inr hmem =>
      obtain rfl : c = '\r' := by simpa using hmem
      decide
  rw [ascii_return, lineText, Utf8.lossy_ascii hascii]
  exact Text.trim_append_return fun c hc => (hs c hc).2

theorem isLine_return {s : String} (hs : ∀ c ∈ s.toList, c.toNat < 128 ∧ c ≠ '\n')
    (hlength : s.toList.length ≤ Body.maxLine) : IsLine (Utf8.ascii s ++ [13]) := by
  refine ⟨?_, ?_⟩
  · intro hmem
    rw [List.mem_append, Utf8.ascii, List.mem_map] at hmem
    cases hmem with
    | inl hin =>
      obtain ⟨c, hc, heq⟩ := hin
      obtain ⟨hlt, hne⟩ := hs c hc
      have hnat : c.toNat = 10 := by
        have hten : c.toNat % 2 ^ 8 = 10 := by
          rw [← UInt8.toNat_ofNat', heq]
          rfl
        omega
      exact hne (by rw [← Char.ofNat_toNat c, hnat])
    | inr hin => exact absurd hin (by decide)
  · rw [List.length_append, Utf8.ascii, List.length_map]
    exact Nat.succ_le_succ hlength

theorem chunkSize_hexText {n : ℕ} (hn : n < 2 ^ 64) : Body.chunkSize (Text.hexText n) = .ok n := by
  have hwhite : ∀ c ∈ (Text.hexText n).toList, Text.isWhitespace c = false := fun c hc => (hexText_chars hc).2.1
  have hnot : ';' ∉ (Text.hexText n).toList := fun hmem => (hexText_chars hmem).2.2.1 rfl
  unfold Body.chunkSize
  simp only [Text.split_of_not_mem hnot, List.headD_cons, Text.trim_eq_self hwhite, Text.parseHex_hexText hn]

/-- The line ahead of a chunk. -/
theorem size_line {n : ℕ} (hn : n < 2 ^ 64) :
    IsLine (Utf8.ascii (Text.hexText n) ++ [13]) ∧
      Body.chunkSize (lineText (Utf8.ascii (Text.hexText n) ++ [13])) = .ok n := by
  have hlength : (Text.hexText n).toList.length ≤ 16 := by
    rw [Text.hexText, String.toList_ofList, Nat.length_toDigits_le_iff (by omega) (by omega)]
    exact hn
  have hmax : 16 ≤ Body.maxLine := by decide
  refine ⟨isLine_return (fun c hc => ⟨(hexText_chars hc).1, (hexText_chars hc).2.2.2⟩) (hlength.trans hmax), ?_⟩
  rw [lineText_return fun c hc => ⟨(hexText_chars hc).1, (hexText_chars hc).2.1⟩, chunkSize_hexText hn]

theorem chunks_finish : Chunks finishChunks [] := by
  have htrailers : Trailers ([13] ++ [10]) := Trailers.last [13] ⟨by decide, by decide⟩ (by decide +kernel)
  obtain ⟨hline, hsize⟩ := size_line (n := 0) (by omega)
  exact Chunks.last _ _ hline hsize htrailers

theorem chunks_encode (slices : List Slice) : Chunks (encode slices) (concat slices) := by
  induction slices with
  | nil => exact chunks_finish
  | cons slice slices ih =>
    have hencode : encode (slice :: slices) = writeChunk slice ++ encode slices := by
      rw [encode, List.flatMap_cons, List.append_assoc]
      rfl
    have hconcat : concat (slice :: slices) = slice.val ++ concat slices := List.flatMap_cons
    rw [hencode, hconcat]
    unfold writeChunk
    by_cases hnil : slice.val = []
    · rw [hnil]
      exact ih
    · rw [if_neg (by simpa using hnil)]
      obtain ⟨hline, hsize⟩ := size_line slice.property
      have hchunk := Chunks.chunk _ slice.val [13] (encode slices) (concat slices) hline hsize hnil
        ⟨by decide, by decide⟩ ih
      simpa only [List.append_assoc, List.cons_append, List.nil_append] using hchunk

theorem encode_declared (slices : List Slice) : Declared (.chunked 0 false) (encode slices) (concat slices) :=
  Declared.chunks _ _ (chunks_encode slices)

/-- What the writers write is read back, whatever of it is in the buffer already, however the reads of the stream
cut it, and into whatever room: up to the first read that gives nothing come the slices, behind it comes
nothing more, and the connection stands behind the last chunk. -/
theorem chunks_round_trip (slices : List Slice) (trailing : List UInt8) (conn : Buffered)
    (hconn : conn.unread = encode slices ++ trailing) (hreads : conn.inner.Faultless) :
    (∀ rooms : List ℕ+, ∃ outs b', Body.readEach rooms ⟨conn, .chunked 0 false⟩ = (.ok outs, b') ∧
      ((concat slices).length < rooms.length → [] ∈ outs) ∧
      ([] ∈ outs → (outs.takeWhile fun out => !out.isEmpty).flatten = concat slices ∧
        (∀ out ∈ outs.dropWhile fun out => !out.isEmpty, out = []) ∧ b'.unread = trailing)) ∧
    ∀ limit, (Body.readAll limit ⟨conn, .chunked 0 false⟩).1 = .ok (concat slices) ↔
      (concat slices).length ≤ limit := by
  have hdeclared := encode_declared slices
  have hb : (⟨conn, .chunked 0 false⟩ : Body).Faultless := hreads
  refine ⟨fun rooms => ?_, fun limit => ⟨fun hok => ?_, fun hlimit => ?_⟩⟩
  · obtain ⟨outs, b', hread, hcase⟩ := Body.readEach_declared hb hdeclared hconn rooms
    refine ⟨outs, b', hread, fun hmany => ?_, fun hend => ?_⟩
    · cases hcase with
      | inl hsome => exact absurd hsome.2 (by omega)
      | inr hall =>
        obtain ⟨front, n, rfl, -⟩ := hall
        exact List.mem_append_right _ (List.mem_cons_self ..)
    · cases hcase with
      | inl hsome => exact absurd hend hsome.1
      | inr hall =>
        obtain ⟨front, n, rfl, hfront, hflat, hrest⟩ := hall
        have hne : ∀ out ∈ front, (!out.isEmpty) = true := by
          intro out hout
          cases out with
          | nil => exact absurd hout hfront
          | cons => rfl
        refine ⟨?_, ?_, hrest⟩
        · rw [List.takeWhile_append_of_pos hne, List.takeWhile_cons_of_neg (by simp), List.append_nil, hflat]
        · rw [List.dropWhile_append_of_pos hne, List.dropWhile_cons_of_neg (by simp)]
          intro out hout
          cases hout with
          | head => rfl
          | tail _ hmem => exact List.eq_of_mem_replicate hmem
  · by_contra hover
    obtain ⟨n, b', herror⟩ := Body.readAll_over hb hdeclared hconn (Nat.lt_of_not_le hover)
    rw [herror] at hok
    cases hok
  · obtain ⟨b', hall, -⟩ := Body.readAll_declared hb hdeclared hconn hlimit
    rw [hall]

/-- The chunks of `ab`, nothing and `c`, with a byte of another message in the buffer ahead of them. -/
def abcSlices : List Slice := [⟨[97, 98], by decide⟩, ⟨[], by decide⟩, ⟨[99], by decide⟩]

def abcConn : Buffered where
  inner := ⟨[98, 13, 10, 49, 13, 10, 99, 13, 10, 48, 13, 10, 13, 10, 120], [.ok 0, .ok 3, .ok 0]⟩
  buf := [120, 50, 13, 10, 97]
  pos := 1

theorem abc_round_trip : (Body.readAll 3 ⟨abcConn, .chunked 0 false⟩).1 = .ok [97, 98, 99] := by
  have hconn : abcConn.unread = encode abcSlices ++ [120] := by decide +kernel
  have hreads : abcConn.inner.Faultless := by
    intro r hr
    simp only [abcConn, List.mem_cons, List.not_mem_nil, or_false] at hr
    obtain rfl | rfl | rfl := hr <;> exact ⟨_, rfl⟩
  exact ((chunks_round_trip abcSlices [120] abcConn hconn hreads).2 3).mpr (by decide)

end Collocate.Remote
