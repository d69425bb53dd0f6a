import Mathlib.Data.List.Basic

/-! # Lines of words and quoted strings

A text is read line by line into words, which end at a blank, and quoted strings, which end at the next
quotation mark, wherever it stands. -/
namespace Collocate.Lexing
set_option autoImplicit false

inductive Token
  | word (content : List Char)
  | quoted (content : List Char)
  deriving DecidableEq, Repr

def Token.content : Token → List Char
  | .word content | .quoted content => content

/-! ## Reading -/

/-- The lines that have ended, the tokens of the line that is being read, and the token that has not ended. -/
structure Lexer where
  lines : List (List Token) := []
  line : List Token := []
  part : Option Token := none
  deriving DecidableEq

def isBlank (c : Char) : Bool := c == ' ' || c == '\t'

namespace Lexer

/-- The token has ended. -/
def close (s : Lexer) (t : Token) : Lexer := { s with line := s.line ++ [t], part := none }

def endLine (s : Lexer) : Lexer := { s with lines := s.lines ++ [s.line], line := [] }

/-- A character outside of every token. -/
def start (s : Lexer) (c : Char) : Lexer :=
  if c = '"' then { s with part := some (.quoted []) }
  else if c = '\n' then s.endLine
  else if isBlank c then s
  else { s with part := some (.word [c]) }

def step (s : Lexer) (c : Char) : Lexer :=
  match s.part with
  | none => s.start c
  | some (.quoted content) =>
    if c = '"' then s.close (.quoted content) else { s with part := some (.quoted (content ++ [c])) }
  | some (.word content) =>
    if c = '"' ∨ c = '\n' ∨ isBlank c then (s.close (.word content)).start c
    else { s with part := some (.word (content ++ [c])) }

def feed (s : Lexer) (cs : List Char) : Lexer := cs.foldl step s

end Lexer

/-- The tokens of each line; nothing where the text ends inside a line. -/
def tokenise (cs : List Char) : Option (List (List Token)) :=
  match Lexer.feed {} cs with
  | ⟨lines, [], none⟩ => some lines
  | _ => none

/-! ## Writing -/

def Token.text : Token → List Char
  | .word content => content
  | .quoted content => '"' :: content ++ ['"']

/-- The tokens with a blank between each two of them. -/
def spell : List Token → List Char
  | [] => []
  | [t] => t.text
  | t :: ts => t.text ++ ' ' :: spell ts

structure Line where
  indent : ℕ
  tokens : List Token

def Line.text (l : Line) : List Char := List.replicate l.indent ' ' ++ spell l.tokens ++ ['\n']

def write (lines : List Line) : List Char := lines.flatMap Line.text

theorem spell_cons {t : Token} {ts : List Token} (h : ts ≠ []) : spell (t :: ts) = t.text ++ ' ' :: spell ts := by
  cases ts with
  | nil => exact absurd rfl h
  | cons => rfl

theorem spell_append {ts us : List Token} (hts : ts ≠ []) (hus : us ≠ []) :
    spell (ts ++ us) = spell ts ++ ' ' :: spell us := by
  induction ts with
  | nil => exact absurd rfl hts
  | cons t ts ih =>
    cases ts with
    | nil => exact spell_cons hus
    | cons t' ts =>
      have hrest : (t' :: ts) ++ us ≠ [] := by simp
      rw [List.cons_append, spell_cons hrest, ih (List.cons_ne_nil _ _), spell_cons (List.cons_ne_nil t' ts)]
      simp

/-! ## What is written is read back -/

/-- A word is not empty and has no blank, line break or quotation mark in it. -/
def Plain (content : List Char) : Prop := content ≠ [] ∧ ∀ c ∈ content, c ≠ '"' ∧ c ≠ '\n' ∧ isBlank c = false

/-- The token can be read back. -/
def Token.Clean : Token → Prop
  | .word content => Plain content
  | .quoted content => '"' ∉ content

section Reading
variable {lines : List (List Token)} {line : List Token}

theorem feed_append (s : Lexer) (cs ds : List Char) : s.feed (cs ++ ds) = (s.feed cs).feed ds := List.foldl_append

theorem feed_quoted (before content : List Char) (h : '"' ∉ content) :
    Lexer.feed ⟨lines, line, some (.quoted before)⟩ content = ⟨lines, line, some (.quoted (before ++ content))⟩ := by
  induction content generalizing before with
  | nil => simp [Lexer.feed]
  | cons c content ih =>
    obtain ⟨hc, hcontent⟩ := not_or.mp (mt List.mem_cons.mpr h)
    have hstep : Lexer.step ⟨lines, line, some (.quoted before)⟩ c = ⟨lines, line, some (.quoted (before ++ [c]))⟩ :=
      if_neg (Ne.symm hc)
    show Lexer.feed (Lexer.step _ c) content = _
    rw [hstep, ih _ hcontent, List.append_assoc]
    rfl

theorem feed_word (before content : List Char) (h : ∀ c ∈ content, c ≠ '"' ∧ c ≠ '\n' ∧ isBlank c = false) :
    Lexer.feed ⟨lines, line, some (.word before)⟩ content = ⟨lines, line, some (.word (before ++ content))⟩ := by
  induction content generalizing before with
  | nil => simp [Lexer.feed]
  | cons c content ih =>
    obtain ⟨hquote, hbreak, hblank⟩ := h c List.mem_cons_self
    have hstep : Lexer.step ⟨lines, line, some (.word before)⟩ c = ⟨lines, line, some (.word (before ++ [c]))⟩ :=
      if_neg (by simp [hquote, hbreak, hblank])
    show Lexer.feed (Lexer.step _ c) content = _
    rw [hstep, ih _ fun c' hc' => h c' (List.mem_cons_of_mem c hc'), List.append_assoc]
    rfl

/-- A clean token followed by what ends it. -/
theorem feed_token {t : Token} (ht : t.Clean) {c : Char} (hc : c = '\n' ∨ isBlank c = true) :
    Lexer.feed ⟨lines, line, none⟩ (t.text ++ [c]) = Lexer.start ⟨lines, line ++ [t], none⟩ c := by
  have hquote : c ≠ '"' := by
    rintro rfl
    rcases hc with hc | hc <;> cases hc
  cases t with
  | quoted content =>
    have hopen : Lexer.step ⟨lines, line, none⟩ '"' = ⟨lines, line, some (.quoted [])⟩ := rfl
    show Lexer.feed (Lexer.step _ '"') (content ++ ['"'] ++ [c]) = _
    rw [hopen, feed_append, feed_append, feed_quoted [] content ht]
    rfl
  | word content =>
    obtain ⟨hne, hplain⟩ := ht
    cases content with
    | nil => exact absurd rfl hne
    | cons d content =>
      obtain ⟨hdquote, hbreak, hblank⟩ := hplain d List.mem_cons_self
      have hopen : Lexer.step ⟨lines, line, none⟩ d = ⟨lines, line, some (.word [d])⟩ := by
        show Lexer.start _ d = _
        unfold Lexer.start
        rw [if_neg hdquote, if_neg hbreak, hblank]
        rfl
      show Lexer.feed (Lexer.step _ d) (content ++ [c]) = _
      rw [hopen, feed_append, feed_word [d] content fun c' hc' => hplain c' (List.mem_cons_of_mem d hc')]
      exact if_pos (.inr hc)

theorem feed_spell {ts : List Token} (hne : ts ≠ []) (hts : ∀ t ∈ ts, t.Clean) :
    Lexer.feed ⟨lines, line, none⟩ (spell ts ++ ['\n']) = ⟨lines ++ [line ++ ts], [], none⟩ := by
  induction ts generalizing line with
  | nil => exact absurd rfl hne
  | cons t ts ih =>
    have ht := hts t List.mem_cons_self
    cases ts with
    | nil => exact feed_token ht (.inl rfl)
    | cons u ts =>
      have hsplit : spell (t :: u :: ts) ++ ['\n'] = (t.text ++ [' ']) ++ (spell (u :: ts) ++ ['\n']) := by
        rw [spell_cons (by simp)]
        simp
      rw [hsplit, feed_append, feed_token ht (.inr rfl)]
      show Lexer.feed ⟨lines, line ++ [t], none⟩ _ = _
      rw [ih (by simp) fun t' ht' => hts t' (List.mem_cons_of_mem t ht'), List.append_assoc]
      rfl

theorem feed_blanks (n : ℕ) : Lexer.feed ⟨lines, line, none⟩ (List.replicate n ' ') = ⟨lines, line, none⟩ := by
  induction n with
  | zero => rfl
  | succ n ih => exact ih

/-- Every line has tokens, and each of them can be read back. -/
def Readable (lines : List Line) : Prop := ∀ l ∈ lines, l.tokens ≠ [] ∧ ∀ t ∈ l.tokens, t.Clean

theorem feed_write {written : List Line} (h : Readable written) :
    Lexer.feed ⟨lines, [], none⟩ (write written) = ⟨lines ++ written.map Line.tokens, [], none⟩ := by
  induction written generalizing lines with
  | nil => simp [write, Lexer.feed]
  | cons l written ih =>
    obtain ⟨hne, hclean⟩ := h l List.mem_cons_self
    have hsplit : write (l :: written) = List.replicate l.indent ' ' ++
      ((spell l.tokens ++ ['\n']) ++ write written) := by
      simp [write, Line.text]
    rw [hsplit, feed_append, feed_blanks, feed_append, feed_spell hne hclean, List.nil_append,
      ih fun l' hl' => h l' (List.mem_cons_of_mem l hl'), List.append_assoc]
    rfl

theorem tokenise_write {written : List Line} (h : Readable written) :
    tokenise (write written) = some (written.map Line.tokens) := by
  unfold tokenise
  rw [feed_write h]
  rfl

end Reading

/-! ## No token has a quotation mark in it -/

def Unquoted (t : Token) : Prop := '"' ∉ t.content

structure Lexer.Sound (s : Lexer) : Prop where
  lines : ∀ line ∈ s.lines, ∀ t ∈ line, Unquoted t
  line : ∀ t ∈ s.line, Unquoted t
  part : ∀ t, s.part = some t → Unquoted t

namespace Lexer.Sound
variable {s : Lexer}

theorem close (h : s.Sound) {t : Token} (ht : Unquoted t) : (s.close t).Sound where
  lines := h.lines
  line t' ht' := by
    rcases List.mem_append.mp ht' with ht' | ht'
    · exact h.line t' ht'
    · exact List.mem_singleton.mp ht' ▸ ht
  part t' ht' := by cases ht'

theorem reading (h : s.Sound) {t : Token} (ht : Unquoted t) : ({ s with part := some t } : Lexer).Sound where
  lines := h.lines
  line := h.line
  part t' ht' := by
    cases ht'
    exact ht

theorem start (h : s.Sound) (c : Char) : (s.start c).Sound := by
  unfold Lexer.start
  split
  · exact h.reading (by simp [Unquoted, Token.content])
  rename_i hquote
  split
  · refine ⟨fun line hline => ?_, fun t ht => (by cases ht), h.part⟩
    rcases List.mem_append.mp hline with hline | hline
    · exact h.lines line hline
    · exact List.mem_singleton.mp hline ▸ h.line
  split
  · exact h
  · exact h.reading (by simpa [Unquoted, Token.content] using Ne.symm hquote)

theorem step (h : s.Sound) (c : Char) : (s.step c).Sound := by
  have hgrow {content : List Char} (hcontent : '"' ∉ content) (hc : c ≠ '"') : '"' ∉ content ++ [c] := by
    simpa using ⟨hcontent, Ne.symm hc⟩
  unfold Lexer.step
  split
  · exact h.start c
  · rename_i content hpart
    have ht := h.part _ hpart
    split
    · exact h.close ht
    · rename_i hc
      exact h.reading (hgrow ht hc)
  · rename_i content hpart
    have ht := h.part _ hpart
    split
    · exact (h.close ht).start c
    · rename_i hc
      exact h.reading (hgrow ht fun hquote => hc (.inl hquote))

theorem feed (h : s.Sound) (cs : List Char) : (s.feed cs).Sound := by
  induction cs generalizing s with
  | nil => exact h
  | cons c cs ih => exact ih (h.step c)

end Lexer.Sound

theorem tokenise_unquoted {cs : List Char} {lines : List (List Token)} (h : tokenise cs = some lines) :
    ∀ line ∈ lines, ∀ t ∈ line, Unquoted t := by
  have hsound : Lexer.Sound {} := ⟨fun _ h => (by cases h), fun _ h => (by cases h), fun _ h => by cases h⟩
  have hend := hsound.feed cs
  unfold tokenise at h
  split at h
  · rename_i lines' heq
    cases h
    rw [heq] at hend
    exact hend.lines
  · cases h

/-- Lines whose words are plain are read back if and only if no quoted string has a quotation mark in it. -/
theorem tokenise_write_iff {written : List Line} (hne : ∀ l ∈ written, l.tokens ≠ [])
    (hwords : ∀ l ∈ written, ∀ content, .word content ∈ l.tokens → Plain content) :
    tokenise (write written) = some (written.map Line.tokens) ↔
      ∀ l ∈ written, ∀ content, .quoted content ∈ l.tokens → '"' ∉ content := by
  constructor
  · intro h l hl content hcontent
    exact tokenise_unquoted h l.tokens (List.mem_map_of_mem hl) _ hcontent
  · intro h
    refine tokenise_write fun l hl => ⟨hne l hl, fun t ht => ?_⟩
    cases t with
    | word content => exact hwords l hl content ht
    | quoted content => exact h l hl content ht

end Collocate.Lexing
