import Collocate.Pebble.Http

/-! # Which replies a daemon survives

What a reply is made of is said without how it is read: the lines of a head, the chunks of a body and the size that is
asked for behind them. A read of a reply crashes exactly when a length in it is larger than any buffer. -/
namespace Collocate.Pebble
set_option autoImplicit false

/-! ## Heads -/

/-- Lines up to an empty one. -/
inductive Head : Socket → List String → Socket → Prop
  | last (s s' : Socket) (h : Line s "" s') : Head s [] s'
  | more (s s₁ s' : Socket) (line : String) (lines : List String) (h : Line s line s₁) (hsome : line ≠ "")
      (hrest : Head s₁ lines s') : Head s (line :: lines) s'

theorem isEmpty_iff (line : String) : line.isEmpty = true ↔ line = "" := String.isEmpty_iff

theorem skipTrailers_ok {s s' : Socket} : skipTrailers s = (.ok (), s') ↔ ∃ lines, Head s lines s' := by
  constructor
  · intro h
    fun_induction skipTrailers s with
    | case1 s f s₁ hline => cases h
    | case2 s line s₁ hline hempty =>
      cases h
      rw [isEmpty_iff] at hempty
      exact ⟨[], Head.last s _ (hempty ▸ readLine_ok.mp hline)⟩
    | case3 s line s₁ hline hempty ih =>
      obtain ⟨lines, hlines⟩ := ih h
      rw [isEmpty_iff] at hempty
      exact ⟨line :: lines, Head.more s s₁ s' line lines (readLine_ok.mp hline) hempty hlines⟩
  · intro h
    obtain ⟨lines, hlines⟩ := h
    induction hlines with
    | last s s' hline =>
      unfold skipTrailers
      split
      · rename_i heq
        rw [readLine_ok.mpr hline] at heq
        cases heq
      · rename_i heq
        rw [readLine_ok.mpr hline] at heq
        cases heq
        rfl
    | more s s₁ s' line lines hline hsome _ ih =>
      unfold skipTrailers
      split
      · rename_i heq
        rw [readLine_ok.mpr hline] at heq
        cases heq
      · rename_i heq
        rw [readLine_ok.mpr hline] at heq
        cases heq
        rw [if_neg (by rw [isEmpty_iff]; exact hsome)]
        exact ih

theorem skipTrailers_error {s s' : Socket} {f : Failure} (h : skipTrailers s = (.error f, s')) : ∃ e, f = .err e := by
  fun_induction skipTrailers s with
  | case1 s f' s₁ hline =>
    cases h
    exact readLine_error hline
  | case2 => cases h
  | case3 s line s₁ hline hempty ih => exact ih h

theorem readHeaders_ok {h h' : Headers} {s s' : Socket} :
    readHeaders h s = (.ok h', s') ↔ ∃ lines, Head s lines s' ∧ lines.foldl Headers.note h = h' := by
  constructor
  · intro hread
    fun_induction readHeaders h s with
    | case1 h s f s₁ hline => cases hread
    | case2 h s line s₁ hline hempty =>
      cases hread
      rw [isEmpty_iff] at hempty
      exact ⟨[], Head.last s _ (hempty ▸ readLine_ok.mp hline), rfl⟩
    | case3 h s line s₁ hline hempty ih =>
      obtain ⟨lines, hlines, hfold⟩ := ih hread
      rw [isEmpty_iff] at hempty
      exact ⟨line :: lines, Head.more s s₁ s' line lines (readLine_ok.mp hline) hempty hlines, hfold⟩
  · intro hlines
    obtain ⟨lines, hlines, hfold⟩ := hlines
    induction hlines generalizing h with
    | last s s' hline =>
      unfold readHeaders
      split
      · rename_i heq
        rw [readLine_ok.mpr hline] at heq
        cases heq
      · rename_i heq
        rw [readLine_ok.mpr hline] at heq
        cases heq
        rw [if_pos ((isEmpty_iff "").mpr rfl), ← hfold]
        rfl
    | more s s₁ s' line lines hline hsome _ ih =>
      unfold readHeaders
      split
      · rename_i heq
        rw [readLine_ok.mpr hline] at heq
        cases heq
      · rename_i heq
        rw [readLine_ok.mpr hline] at heq
        cases heq
        rw [if_neg (by rw [isEmpty_iff]; exact hsome)]
        exact ih hfold

theorem readHeaders_error {h : Headers} {s s' : Socket} {f : Failure} (hread : readHeaders h s = (.error f, s')) :
    ∃ e, f = .err e := by
  fun_induction readHeaders h s with
  | case1 h s f' s₁ hline =>
    cases hread
    exact readLine_error hline
  | case2 => cases hread
  | case3 h s line s₁ hline hempty ih => exact ih hread

/-! ## Chunks -/

/-- Chunks in a row, each a size line, as much data and a line, with the data of each. -/
inductive Chunks : Socket → List (List UInt8) → Socket → Prop
  | none (s : Socket) : Chunks s [] s
  | more (s s₁ s₂ s₃ s' : Socket) (line ending : String) (data : List UInt8) (rest : List (List UInt8))
      (hline : Line s line s₁) (hsize : chunkSize line = some data.length) (hdata : data ≠ [])
      (hunread : s₁.unread = data ++ s₂.unread) (hending : s₂.ending = s₁.ending) (hend : Line s₂ ending s₃)
      (hrest : Chunks s₃ rest s') : Chunks s (data :: rest) s'

/-- Every size asked for behind chunks leaves the body, with what it has of `before`, within any buffer. -/
def ChunksFit (before : ℕ) (s : Socket) : Prop :=
  ∀ chunks s₁ line s₂ size, Chunks s chunks s₁ → Line s₁ line s₂ → chunkSize line = some size →
    before + chunks.flatten.length + size ≤ isizeMax

/-- There is room for a chunk unless the body gets larger than any buffer. -/
theorem room_ok {body : List UInt8} {size : ℕ} (h : body.length + size ≤ isizeMax) : room body size = .ok size := by
  have hmax : isizeMax < 2 ^ 64 := by decide
  have hresized : resized body.length size = .ok (body.length + size) := by
    unfold resized
    rw [if_neg (by omega), if_neg (by omega)]
  unfold room sliceFrom
  rw [hresized]
  simp only [if_neg (Nat.not_lt.mpr (Nat.le_add_right body.length size)), Nat.add_sub_cancel_left]

theorem room_over {body : List UInt8} {size : ℕ} (h : isizeMax < body.length + size) :
    ∃ c, room body size = .error (.crash c) := by
  unfold room resized
  by_cases hover : 2 ^ 64 ≤ body.length + size
  · rw [if_pos hover]
    exact ⟨_, rfl⟩
  · rw [if_neg hover, if_pos h]
    exact ⟨_, rfl⟩

/-- A chunk is read as it stands there, and nothing else is read. -/
theorem readChunk_iff {body out : List UInt8} {size : ℕ} {s s' : Socket} (hfits : body.length + size ≤ isizeMax) :
    readChunk body size s = (.ok out, s') ↔ ∃ data s₁ ending, data.length = size ∧ s.unread = data ++ s₁.unread ∧
      s₁.ending = s.ending ∧ Line s₁ ending s' ∧ out = body ++ data := by
  constructor
  · intro h
    obtain ⟨n, data, s₁, ending, hroom, hdata, hline, hout⟩ := readChunk_ok h
    rw [room_ok hfits] at hroom
    cases hroom
    obtain ⟨hunread, hlength, hending⟩ := readExact_ok hdata
    exact ⟨data, s₁, ending, hlength, hunread, hending, hline, hout⟩
  · intro h
    obtain ⟨data, s₁, ending, rfl, hunread, hending, hline, rfl⟩ := h
    unfold readChunk
    simp only [room_ok hfits, readExact_append hunread hending, readLine_ok.mpr hline]

theorem readChunk_error {body : List UInt8} {size : ℕ} {s s' : Socket} {f : Failure}
    (hfits : body.length + size ≤ isizeMax) (h : readChunk body size s = (.error f, s')) : ∃ e, f = .err e := by
  unfold readChunk at h
  rw [room_ok hfits] at h
  simp only at h
  split at h
  · rename_i hdata
    cases h
    exact readExact_error hdata
  · split at h
    · rename_i hline
      cases h
      exact readLine_error hline
    · cases h

theorem readChunk_over {body : List UInt8} {size : ℕ} (s : Socket) (h : isizeMax < body.length + size) :
    ∃ c, readChunk body size s = (.error (.crash c), s) := by
  obtain ⟨c, hc⟩ := room_over h
  refine ⟨c, ?_⟩
  unfold readChunk
  rw [hc]

/-- A read crashes. -/
def Crashes {α : Type} (r : Except Failure α × Socket) : Prop := ∃ c, r.1 = .error (.crash c)

theorem not_crashes_error {α : Type} {r : Except Failure α × Socket} {f : Failure} {s' : Socket}
    (hr : r = (.error f, s')) (hf : ∃ e, f = .err e) : ¬Crashes r := by
  intro h
  obtain ⟨c, hc⟩ := h
  obtain ⟨e, rfl⟩ := hf
  rw [hr] at hc
  cases hc

theorem not_crashes_ok {α : Type} {r : Except Failure α × Socket} {a : α} {s' : Socket} (hr : r = (.ok a, s')) :
    ¬Crashes r := by
  intro h
  obtain ⟨c, hc⟩ := h
  rw [hr] at hc
  cases hc

theorem readSize_unique {s s₁ s₂ : Socket} {size : ℕ} {line : String} (h : readSize s = (.ok size, s₁))
    (hline : Line s line s₂) : s₂ = s₁ ∧ chunkSize line = some size := by
  obtain ⟨line', hline', hsize⟩ := readSize_ok.mp h
  obtain ⟨rfl, rfl⟩ := hline.unique hline'
  exact ⟨rfl, hsize⟩

/-- Without a size in front there is nothing that could be too large. -/
theorem chunksFit_unsized {before : ℕ} {s s' : Socket} {f : Failure} (h : readSize s = (.error f, s')) :
    ChunksFit before s := by
  have hnone : ∀ line s₁ size, Line s line s₁ → chunkSize line = some size → False := by
    intro line s₁ size hline hsize
    rw [readSize_ok.mpr ⟨line, hline, hsize⟩] at h
    cases h
  intro chunks s₁ line s₂ size hchunks hline hsize
  cases hchunks with
  | none => exact (hnone _ _ _ hline hsize).elim
  | more _ s₁' _ _ _ line' _ _ _ hline' hsize' => exact (hnone _ _ _ hline' hsize').elim

/-- The size in front fits, and so do those behind its chunk. -/
theorem chunksFit_sized {before size : ℕ} {s s₁ : Socket} (h : readSize s = (.ok size, s₁)) :
    ChunksFit before s ↔ before + size ≤ isizeMax ∧
      ∀ data s₂ ending s₃, data.length = size → data ≠ [] → s₁.unread = data ++ s₂.unread → s₂.ending = s₁.ending →
        Line s₂ ending s₃ → ChunksFit (before + size) s₃ := by
  constructor
  · intro hfit
    obtain ⟨line, hline, hsize⟩ := readSize_ok.mp h
    refine ⟨by simpa using hfit [] s line s₁ size (Chunks.none s) hline hsize, ?_⟩
    intro data s₂ ending s₃ hlength hdata hunread hending hend chunks s₄ line' s₅ size' hchunks hline' hsize'
    have hmore := Chunks.more s s₁ s₂ s₃ s₄ line ending data chunks hline (hlength ▸ hsize) hdata hunread hending hend
      hchunks
    have hall := hfit (data :: chunks) s₄ line' s₅ size' hmore hline' hsize'
    rw [List.flatten_cons, List.length_append] at hall
    omega
  · intro hfit chunks s₂ line s₃ size' hchunks hline hsize
    cases hchunks with
    | none =>
      obtain ⟨-, hsize'⟩ := readSize_unique h hline
      obtain rfl : size' = size := Option.some.inj (hsize.symm.trans hsize')
      simpa using hfit.1
    | more _ s₁' s₂' s₃' _ line' ending data rest hline' hsize' hdata hunread hending hend hrest =>
      obtain ⟨rfl, hsize''⟩ := readSize_unique h hline'
      have hlength : data.length = size := Option.some.inj (hsize'.symm.trans hsize'')
      have hall := hfit.2 data s₂' ending s₃' hlength hdata hunread hending hend rest s₂ line s₃ size' hrest hline hsize
      rw [List.flatten_cons, List.length_append]
      omega

/-- The loop crashes when it comes to a size that does not fit. -/
theorem readChunkedFrom_crashes {body : List UInt8} {s : Socket} (hbody : body.length ≤ isizeMax) :
    Crashes (readChunkedFrom body s) ↔ ¬ChunksFit body.length s := by
  fun_induction readChunkedFrom body s with
  | case1 body s f s₁ hsize =>
    exact iff_of_false (not_crashes_error rfl (readSize_error hsize)) (not_not.mpr (chunksFit_unsized hsize))
  | case2 body s s₁ f s₂ hskip hsize =>
    refine iff_of_false (not_crashes_error rfl (skipTrailers_error hskip)) (not_not.mpr ?_)
    exact (chunksFit_sized hsize).mpr ⟨hbody, fun data _ _ _ hlength hdata =>
      absurd (List.length_eq_zero_iff.mp hlength) hdata⟩
  | case3 body s s₁ s₂ hskip hsize =>
    refine iff_of_false (not_crashes_ok rfl) (not_not.mpr ?_)
    exact (chunksFit_sized hsize).mpr ⟨hbody, fun data _ _ _ hlength hdata =>
      absurd (List.length_eq_zero_iff.mp hlength) hdata⟩
  | case4 body s size s₁ hsize hne f s₂ hchunk =>
    rw [chunksFit_sized hsize]
    by_cases hfits : body.length + size ≤ isizeMax
    · refine iff_of_false (not_crashes_error rfl (readChunk_error hfits hchunk)) (not_not.mpr ⟨hfits, ?_⟩)
      intro data s₃ ending s₄ hlength _ hunread hending hend
      have hread := (readChunk_iff hfits).mpr ⟨data, s₃, ending, hlength, hunread, hending, hend, rfl⟩
      rw [hchunk] at hread
      cases hread
    · obtain ⟨c, hc⟩ := readChunk_over s₁ (Nat.lt_of_not_le hfits)
      rw [hchunk] at hc
      cases hc
      exact iff_of_true ⟨c, rfl⟩ fun hall => hfits hall.1
  | case5 body s size s₁ hsize hne out s₂ hchunk ih =>
    have hfits : body.length + size ≤ isizeMax := by
      by_contra hover
      obtain ⟨c, hc⟩ := readChunk_over s₁ (Nat.lt_of_not_le hover)
      rw [hchunk] at hc
      cases hc
    obtain ⟨data, s₃, ending, hlength, hunread, hending, hend, rfl⟩ := (readChunk_iff hfits).mp hchunk
    have hbody' : (body ++ data).length = body.length + size := by rw [List.length_append, hlength]
    rw [ih (hbody' ▸ hfits), chunksFit_sized hsize, hbody', not_iff_not]
    have hdata : data ≠ [] := fun hnil => hne (by rw [← hlength, hnil]; rfl)
    constructor
    · intro hrest
      refine ⟨hfits, ?_⟩
      intro data' s₃' ending' s₄ hlength' hdata' hunread' hending' hend'
      have hread := (readChunk_iff hfits).mpr ⟨data', s₃', ending', hlength', hunread', hending', hend', rfl⟩
      obtain ⟨-, rfl⟩ := Prod.mk.inj (hchunk.symm.trans hread)
      exact hrest
    · exact fun hall => hall.2 data s₃ ending s₂ hlength hdata hunread hending hend

/-- The bytes of a chunked body: chunks, a size of zero and the lines behind it. -/
def ChunkedBody (s : Socket) (chunks : List (List UInt8)) (s' : Socket) : Prop :=
  ∃ s₁ line s₂ trailers, Chunks s chunks s₁ ∧ Line s₁ line s₂ ∧ chunkSize line = some 0 ∧ Head s₂ trailers s'

theorem readChunkedFrom_ok {body out : List UInt8} {s s' : Socket} (hbody : body.length ≤ isizeMax)
    (h : readChunkedFrom body s = (.ok out, s')) : ∃ chunks, ChunkedBody s chunks s' ∧ out = body ++
      chunks.flatten := by
  fun_induction readChunkedFrom body s with
  | case1 => cases h
  | case2 => cases h
  | case3 body s s₁ s₂ hskip hsize =>
    cases h
    obtain ⟨line, hline, hzero⟩ := readSize_ok.mp hsize
    obtain ⟨trailers, htrailers⟩ := skipTrailers_ok.mp hskip
    exact ⟨[], ⟨s, line, s₁, trailers, Chunks.none s, hline, hzero, htrailers⟩, (List.append_nil _).symm⟩
  | case4 => cases h
  | case5 body s size s₁ hsize hne out' s₂ hchunk ih =>
    have hfits : body.length + size ≤ isizeMax := by
      by_contra hover
      obtain ⟨c, hc⟩ := readChunk_over s₁ (Nat.lt_of_not_le hover)
      rw [hchunk] at hc
      cases hc
    obtain ⟨data, s₃, ending, hlength, hunread, hending, hend, rfl⟩ := (readChunk_iff hfits).mp hchunk
    obtain ⟨line, hline, hsome⟩ := readSize_ok.mp hsize
    have hdata : data ≠ [] := fun hnil => hne (by rw [← hlength, hnil]; rfl)
    obtain ⟨chunks, ⟨s₄, last, s₅, trailers, hchunks, hlast⟩, hout⟩ :=
      ih (by rw [List.length_append, hlength]; exact hfits) h
    refine ⟨data :: chunks, ⟨s₄, last, s₅, trailers, ?_, hlast⟩, ?_⟩
    · exact Chunks.more s s₁ s₃ s₂ s₄ line ending data chunks hline (hlength ▸ hsome) hdata hunread hending hend hchunks
    · rw [hout, List.flatten_cons, List.append_assoc]

/-! ## Replies -/

/-- The headers that the lines of a head give. -/
def headers (lines : List String) : Headers := lines.foldl Headers.note {}

/-- A reply up to its body: a status line and the lines of the head. -/
def Begins (s : Socket) (status : UInt16) (lines : List String) (s' : Socket) : Prop :=
  ∃ line s₁, Line s line s₁ ∧ statusOf line = some status ∧ Head s₁ lines s'

/-- The body at `s` asks for no length beyond that of any buffer. -/
def BodyFits (h : Headers) (s : Socket) : Prop :=
  if h.chunked then ChunksFit 0 s else ∀ n, h.contentLength = some n → n ≤ isizeMax

theorem readToEnd_survives (s : Socket) : ¬Crashes (readToEnd s) := by
  unfold readToEnd
  split
  · exact not_crashes_error rfl ⟨_, rfl⟩
  · exact not_crashes_ok rfl

theorem readLength_crashes (n : ℕ) (s : Socket) : Crashes (readLength n s) ↔ isizeMax < n := by
  unfold readLength
  by_cases hn : isizeMax < n
  · rw [if_pos hn]
    exact iff_of_true ⟨_, rfl⟩ hn
  · rw [if_neg hn]
    refine iff_of_false ?_ hn
    rcases hread : readExact n s with ⟨f | data, s'⟩
    · exact not_crashes_error rfl (readExact_error hread)
    · exact not_crashes_ok rfl

theorem readBody_crashes (h : Headers) (s : Socket) : Crashes (readBody h s) ↔ ¬BodyFits h s := by
  unfold readBody BodyFits
  cases h.chunked with
  | true => exact readChunkedFrom_crashes (Nat.zero_le _)
  | false =>
    cases h.contentLength with
    | none => exact iff_of_false (readToEnd_survives s) (not_not.mpr fun n hn => by cases hn)
    | some n =>
      have hall : (∀ m, some n = some m → m ≤ isizeMax) ↔ n ≤ isizeMax := by simp
      show Crashes (readLength n s) ↔ ¬∀ m, some n = some m → m ≤ isizeMax
      rw [readLength_crashes, hall, Nat.not_le]

theorem readStatus_ok {s s' : Socket} {status : UInt16} :
    readStatus s = (.ok status, s') ↔ ∃ line, Line s line s' ∧ statusOf line = some status := by
  constructor
  · intro h
    unfold readStatus at h
    split at h
    · cases h
    · rename_i line s₁ hline
      split at h
      · cases h
      · rename_i hstatus
        cases h
        exact ⟨line, readLine_ok.mp hline, hstatus⟩
  · intro h
    obtain ⟨line, hline, hstatus⟩ := h
    unfold readStatus
    rw [readLine_ok.mpr hline]
    simp only [hstatus]

theorem readStatus_error {s s' : Socket} {f : Failure} (h : readStatus s = (.error f, s')) : ∃ e, f = .err e := by
  unfold readStatus at h
  split at h
  · rename_i hline
    cases h
    exact readLine_error hline
  · split at h
    · cases h
      exact ⟨_, rfl⟩
    · cases h

theorem Head.unique {s s₁ s₂ : Socket} {lines₁ lines₂ : List String} (h₁ : Head s lines₁ s₁) (h₂ : Head s lines₂ s₂) :
    lines₁ = lines₂ ∧ s₁ = s₂ := by
  induction h₁ generalizing lines₂ s₂ with
  | last s s₁ hline =>
    cases h₂ with
    | last _ _ hline' => exact ⟨rfl, (hline.unique hline').2⟩
    | more _ _ _ line lines hline' hsome => exact absurd (hline.unique hline').1.symm hsome
  | more s s' s₁ line lines hline hsome _ ih =>
    cases h₂ with
    | last _ _ hline' => exact absurd (hline.unique hline').1 hsome
    | more _ s'' _ line' lines' hline' _ hrest =>
      obtain ⟨rfl, rfl⟩ := hline.unique hline'
      obtain ⟨rfl, rfl⟩ := ih hrest
      exact ⟨rfl, rfl⟩

theorem Begins.unique {s s₁ s₂ : Socket} {status₁ status₂ : UInt16} {lines₁ lines₂ : List String}
    (h₁ : Begins s status₁ lines₁ s₁) (h₂ : Begins s status₂ lines₂ s₂) :
    status₁ = status₂ ∧ lines₁ = lines₂ ∧ s₁ = s₂ := by
  obtain ⟨line, s', hline, hstatus, hhead⟩ := h₁
  obtain ⟨line', s'', hline', hstatus', hhead'⟩ := h₂
  obtain ⟨rfl, rfl⟩ := hline.unique hline'
  obtain ⟨rfl, rfl⟩ := hhead.unique hhead'
  exact ⟨Option.some.inj (hstatus.symm.trans hstatus'), rfl, rfl⟩

/-- No length in the reply is beyond that of any buffer. -/
def Fits (s : Socket) : Prop := ∀ status lines s', Begins s status lines s' → BodyFits (headers lines) s'

variable {send : String → Except Error Unit} {path : String}

/-- Once the request is written and the head is read, the outcome is that of the body. -/
theorem get_of_begins (hsend : send (requestText path) = .ok ()) {s s' : Socket} {status : UInt16} {lines : List String}
    (h : Begins s status lines s') :
    get send path s = match readBody (headers lines) s' with
      | (.error f, s₃) => (.error f, s₃)
      | (.ok body, s₃) => (.ok ⟨status, (headers lines).contentType, body⟩, s₃) := by
  obtain ⟨line, s₁, hline, hstatus, hhead⟩ := h
  unfold get
  simp only [hsend, readStatus_ok.mpr ⟨line, hline, hstatus⟩, readHeaders_ok.mpr ⟨lines, hhead, rfl⟩]
  rfl

/-- Without a head the request fails with an error. -/
theorem get_of_not_begins {s : Socket}
    (h : send (requestText path) ≠ .ok () ∨ ∀ status lines s', ¬Begins s status lines s') :
    ∃ e s', get send path s = (.error (.err e), s') := by
  unfold get
  cases hsend : send (requestText path) with
  | error e => exact ⟨e, s, rfl⟩
  | ok _ =>
    have hnone := h.resolve_left (fun hne => hne hsend)
    rcases hstatus : readStatus s with ⟨f | status, s₁⟩
    · obtain ⟨e, rfl⟩ := readStatus_error hstatus
      exact ⟨e, s₁, rfl⟩
    · rcases hheaders : readHeaders {} s₁ with ⟨f | headers, s₂⟩
      · obtain ⟨e, rfl⟩ := readHeaders_error hheaders
        refine ⟨e, s₂, ?_⟩
        simp only [hheaders]
      · obtain ⟨line, hline, hsome⟩ := readStatus_ok.mp hstatus
        obtain ⟨lines, hlines, -⟩ := readHeaders_ok.mp hheaders
        exact absurd ⟨line, s₁, hline, hsome, hlines⟩ (hnone status lines s₂)

theorem get_crashes (hsend : send (requestText path) = .ok ()) {s : Socket} : Crashes (get send path s) ↔ ¬Fits s := by
  by_cases hbegins : ∃ status lines s', Begins s status lines s'
  · obtain ⟨status, lines, s', hbegins⟩ := hbegins
    have hfits : Fits s ↔ BodyFits (headers lines) s' := by
      constructor
      · exact fun h => h status lines s' hbegins
      · intro h status' lines' s'' hbegins'
        obtain ⟨-, rfl, rfl⟩ := hbegins.unique hbegins'
        exact h
    rw [hfits, ← readBody_crashes, get_of_begins hsend hbegins]
    rcases readBody (headers lines) s' with ⟨f | body, s₃⟩
    · exact exists_congr fun c => by simp only [Except.error.injEq]
    · exact iff_of_false (not_crashes_ok rfl) (not_crashes_ok rfl)
  · have hnone : ∀ status lines s', ¬Begins s status lines s' := fun status lines s' h => hbegins ⟨status, lines, s', h⟩
    have hgot : ∃ e s', get send path s = (.error (.err e), s') := get_of_not_begins (Or.inr hnone)
    obtain ⟨e, s', hget⟩ := hgot
    refine iff_of_false (not_crashes_error hget ⟨e, rfl⟩) (not_not.mpr ?_)
    exact fun status lines s' h => absurd h (hnone status lines s')

/-- A response to a reply with chunked coding: its body is the data of the chunks, one behind the other. -/
theorem get_chunked {s s' : Socket} {r : Response} (h : get send path s = (.ok r, s')) {status : UInt16}
    {lines : List String} {s₁ : Socket} (hbegins : Begins s status lines s₁)
    (hchunked : (headers lines).chunked = true) :
    ∃ chunks, ChunkedBody s₁ chunks s' ∧ r.body = chunks.flatten := by
  have hsend : send (requestText path) = .ok () := by
    by_contra hne
    obtain ⟨e, s'', hget⟩ := get_of_not_begins (s := s) (Or.inl hne)
    rw [h] at hget
    cases hget
  rw [get_of_begins hsend hbegins] at h
  split at h
  · cases h
  · rename_i body s₃ hbody
    cases h
    unfold readBody at hbody
    rw [if_pos hchunked] at hbody
    exact readChunkedFrom_ok (Nat.zero_le _) hbody

/-- The read of a reply ends with a response or an error, and with a response to a reply in chunks its body is what
the chunks hold. -/
def Survives (send : String → Except Error Unit) (path : String) (s : Socket) : Prop :=
  ¬Crashes (get send path s) ∧ ∀ r s', get send path s = (.ok r, s') → ∀ status lines s₁, Begins s status lines s₁ →
    (headers lines).chunked = true → ∃ chunks, ChunkedBody s₁ chunks s' ∧ r.body = chunks.flatten

/-- Exactly the replies in which no length is beyond that of any buffer are survived. -/
theorem survives_iff (send : String → Except Error Unit) (path : String) (s : Socket) :
    Survives send path s ↔ (send (requestText path) = .ok () → Fits s) := by
  have hchunked : ∀ r s', get send path s = (.ok r, s') → ∀ status lines s₁, Begins s status lines s₁ →
      (headers lines).chunked = true → ∃ chunks, ChunkedBody s₁ chunks s' ∧ r.body = chunks.flatten :=
    fun r s' h status lines s₁ hbegins hc => get_chunked h hbegins hc
  by_cases hsend : send (requestText path) = .ok ()
  · constructor
    · intro h _
      by_contra hover
      exact h.1 ((get_crashes hsend).mpr hover)
    · exact fun h => ⟨fun hc => (get_crashes hsend).mp hc (h hsend), hchunked⟩
  · obtain ⟨e, s', hget⟩ := get_of_not_begins (s := s) (Or.inl hsend)
    exact iff_of_true ⟨not_crashes_error hget ⟨e, rfl⟩, hchunked⟩ fun h => absurd h hsend

/-- A byte, then a chunk of as many as a `usize` can say. -/
def hugeChunk : Socket :=
  { unread := Utf8.ascii "HTTP/1.1 200 OK\r\nTransfer-Encoding: chunked\r\n\r\n1\r\na\r\nffffffffffffffff\r\n" }

/-- The daemon does not survive it. -/
theorem hugeChunk_crashes : ¬Survives (fun _ => .ok ()) "/v1/checks" hugeChunk := by
  have hcrash : (get (fun _ => .ok ()) "/v1/checks" hugeChunk).1 = .error (.crash .overflow) := by decide +kernel
  exact fun h => h.1 ⟨_, hcrash⟩

end Collocate.Pebble
