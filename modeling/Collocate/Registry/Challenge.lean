import Collocate.Registry.Client

/-! # Bearer challenges (`collocate-registry/src/auth.rs`)

A challenge of quoted parameters gives back their values, whatever stands between the quotes. -/
namespace Collocate.Registry
set_option autoImplicit false

/-! ## Challenges -/

/-- A character of a lower-case token. -/
def tokenChar (c : Char) : Bool := Text.isLower c || Text.isDigit c || "!#$%&'*+-.^_`|~".toList.contains c

structure Param where
  name : String
  value : String
  named : name ≠ ""
  token : ∀ c ∈ name.toList, tokenChar c = true
  unquoted : '"' ∉ value.toList

/-- What may stand after a comma. -/
abbrev Blanks := { gap : String // ∀ c ∈ gap.toList, Text.isWhitespace c = true }

namespace Param

def chars (p : Param) : List Char := p.name.toList ++ '=' :: '"' :: (p.value.toList ++ ['"'])

def following : List (Blanks × Param) → List Char
  | [] => []
  | (gap, p) :: rest => ',' :: (gap.val.toList ++ (p.chars ++ following rest))

def valueOf (params : List Param) (name : String) : Option String :=
  (params.find? fun p => p.name == name).map Param.value

end Param

/-- A challenge with its parameters in this order. -/
def challenge (first : Param) (rest : List (Blanks × Param)) : String :=
  "Bearer " ++ String.ofList (first.chars ++ Param.following rest)

/-! ## Tokens -/

theorem tokenChar_ne {c d : Char} (h : tokenChar c = true) (hd : tokenChar d = false) : c ≠ d := by
  intro heq
  rw [heq, hd] at h
  cases h

theorem tokenChar_lt {c : Char} (h : tokenChar c = true) : 32 < c.toNat ∧ c.toNat < 127 := by
  unfold tokenChar at h
  rw [Bool.or_eq_true, Bool.or_eq_true] at h
  obtain (hlower | hdigit) | hother := h
  · obtain ⟨hlow, hhigh⟩ : 97 ≤ c.toNat ∧ c.toNat ≤ 122 := of_decide_eq_true hlower
    omega
  · obtain ⟨hlow, hhigh⟩ : 48 ≤ c.toNat ∧ c.toNat ≤ 57 := of_decide_eq_true hdigit
    omega
  · have hall : ("!#$%&'*+-.^_`|~".toList.all fun d => decide (32 < d.toNat ∧ d.toNat < 127)) = true := by
      decide +kernel
    exact of_decide_eq_true (List.all_eq_true.mp hall c (List.contains_iff_mem.mp hother))

theorem isWhitespace_tokenChar {c : Char} (h : tokenChar c = true) : Text.isWhitespace c = false := by
  obtain ⟨hlow, hhigh⟩ := tokenChar_lt h
  unfold Text.isWhitespace
  simp only [Bool.or_eq_false_iff, decide_eq_false_iff_not, beq_eq_false_iff_ne]
  omega

/-! ## Splitting -/

theorem splitQuoted_plain {cs : List Char} (h : ∀ c ∈ cs, c ≠ '"' ∧ c ≠ ',') (rest piece : List Char) :
    splitQuoted (cs ++ rest) false piece = splitQuoted rest false (cs.reverse ++ piece) := by
  induction cs generalizing piece with
  | nil => rfl
  | cons c cs ih =>
    obtain ⟨hquote, hcomma⟩ := h c List.mem_cons_self
    rw [List.cons_append, splitQuoted, if_neg hquote, if_neg fun hc => hcomma hc.1,
      ih (fun d hd => h d (List.mem_cons_of_mem _ hd)), List.reverse_cons, List.append_assoc]
    rfl

theorem splitQuoted_quoted {cs : List Char} (h : '"' ∉ cs) (rest piece : List Char) :
    splitQuoted (cs ++ rest) true piece = splitQuoted rest true (cs.reverse ++ piece) := by
  induction cs generalizing piece with
  | nil => rfl
  | cons c cs ih =>
    have hquote : c ≠ '"' := fun hc => h (hc ▸ List.mem_cons_self)
    rw [List.cons_append, splitQuoted, if_neg hquote, if_neg fun hc => Bool.noConfusion hc.2,
      ih (fun hmem => h (List.mem_cons_of_mem _ hmem)), List.reverse_cons, List.append_assoc]
    rfl

theorem splitQuoted_quote (rest piece : List Char) (inQuotes : Bool) :
    splitQuoted ('"' :: rest) inQuotes piece = splitQuoted rest (!inQuotes) ('"' :: piece) := by
  rw [splitQuoted, if_pos rfl]

theorem splitQuoted_param (p : Param) (rest piece : List Char) :
    splitQuoted (p.chars ++ rest) false piece = splitQuoted rest false (p.chars.reverse ++ piece) := by
  have hname : ∀ c ∈ p.name.toList ++ ['='], c ≠ '"' ∧ c ≠ ',' := by
    intro c hc
    rw [List.mem_append, List.mem_singleton] at hc
    obtain hc | rfl := hc
    · exact ⟨tokenChar_ne (p.token c hc) (by decide +kernel), tokenChar_ne (p.token c hc) (by decide +kernel)⟩
    · exact ⟨by decide, by decide⟩
  have hchars : p.chars = (p.name.toList ++ ['=']) ++ '"' :: (p.value.toList ++ '"' :: []) := by
    unfold Param.chars
    rw [List.append_assoc]
    rfl
  rw [hchars, List.append_assoc, splitQuoted_plain hname, List.cons_append, splitQuoted_quote, List.append_assoc,
    Bool.not_false, splitQuoted_quoted p.unquoted, List.cons_append, splitQuoted_quote]
  simp only [List.nil_append, Bool.not_true, List.reverse_append, List.reverse_cons, List.reverse_nil,
    List.append_assoc, List.cons_append]

theorem splitQuoted_following (rest : List (Blanks × Param)) (piece : List Char) :
    splitQuoted (Param.following rest) false piece =
      piece.reverse :: rest.map fun e => e.1.val.toList ++ e.2.chars := by
  induction rest generalizing piece with
  | nil => rfl
  | cons e rest ih =>
    obtain ⟨gap, p⟩ := e
    have hgap : ∀ c ∈ gap.val.toList, c ≠ '"' ∧ c ≠ ',' := by
      intro c hc
      have hblank := gap.property c hc
      constructor
      · intro heq
        rw [heq] at hblank
        exact absurd hblank (by decide)
      · intro heq
        rw [heq] at hblank
        exact absurd hblank (by decide)
    have hcomma : (',' : Char) ≠ '"' := by decide
    rw [Param.following, splitQuoted, if_neg hcomma, if_pos ⟨rfl, rfl⟩, splitQuoted_plain hgap, splitQuoted_param,
      ih]
    simp only [List.append_nil, List.reverse_append, List.reverse_reverse, List.map_cons]

/-! ## Trimming -/

theorem trim_blanks {gap cs : List Char} {first last : Char} (hgap : ∀ c ∈ gap, Text.isWhitespace c = true)
    (hfirst : Text.isWhitespace first = false) (hlast : Text.isWhitespace last = false) :
    Text.trim (String.ofList (gap ++ first :: (cs ++ [last]))) = String.ofList (first :: (cs ++ [last])) := by
  have hfront : (gap ++ first :: (cs ++ [last])).dropWhile Text.isWhitespace = first :: (cs ++ [last]) := by
    rw [List.dropWhile_append_of_pos hgap, List.dropWhile_cons_of_neg (by rw [hfirst]; exact Bool.false_ne_true)]
  have hback : (first :: (cs ++ [last])).reverse = last :: (first :: cs).reverse := by
    rw [← List.cons_append, List.reverse_append]
    rfl
  unfold Text.trim Text.trimEndMatches
  rw [String.toList_ofList, String.toList_ofList, hfront, hback,
    List.dropWhile_cons_of_neg (by rw [hlast]; exact Bool.false_ne_true), ← hback, List.reverse_reverse]

theorem trim_param {gap : List Char} (hgap : ∀ c ∈ gap, Text.isWhitespace c = true) (p : Param) :
    Text.trim (String.ofList (gap ++ p.chars)) = String.ofList p.chars := by
  have hne : p.name.toList ≠ [] := fun hnil => p.named (String.toList_eq_nil_iff.mp hnil)
  obtain ⟨c, name, hname⟩ := List.exists_cons_of_ne_nil hne
  have hc := isWhitespace_tokenChar (p.token c (hname ▸ List.mem_cons_self))
  have hchars : p.chars = c :: ((name ++ '=' :: '"' :: p.value.toList) ++ ['"']) := by
    unfold Param.chars
    rw [hname, List.cons_append, List.append_assoc]
    rfl
  rw [hchars]
  exact trim_blanks hgap hc (by decide)

theorem trimQuotes_quoted {s : String} (h : '"' ∉ s.toList) :
    trimQuotes (String.ofList ('"' :: (s.toList ++ ['"']))) = s := by
  have hkeep {cs : List Char} (hcs : '"' ∉ cs) : cs.dropWhile (· == '"') = cs := by
    cases cs with
    | nil => rfl
    | cons c cs =>
      have hc : ¬(c == '"') = true := fun heq => hcs (beq_iff_eq.mp heq ▸ List.mem_cons_self)
      exact List.dropWhile_cons_of_neg (p := (· == '"')) hc
  have hquote (cs : List Char) : ('"' :: cs).dropWhile (· == '"') = cs.dropWhile (· == '"') :=
    List.dropWhile_cons_of_pos rfl
  unfold trimQuotes Text.trimEndMatches
  rw [String.toList_ofList, String.toList_ofList, hquote]
  cases hs : s.toList with
  | nil =>
    rw [← String.ofList_toList (s := s), hs]
    rfl
  | cons c cs =>
    have hc : ¬(c == '"') = true := fun heq => h (by rw [hs, beq_iff_eq.mp heq]; exact List.mem_cons_self)
    rw [List.cons_append, List.dropWhile_cons_of_neg (p := (· == '"')) hc, ← List.cons_append,
      ← hs, List.reverse_append, List.reverse_singleton, List.singleton_append, hquote,
      hkeep fun hmem => h (List.mem_reverse.mp hmem), List.reverse_reverse, String.ofList_toList]

/-! ## Parameters -/

theorem splitOnce_param (p : Param) :
    Text.splitOnce '=' (String.ofList p.chars) = some (p.name, String.ofList ('"' :: (p.value.toList ++ ['"']))) := by
  have hname : '=' ∉ p.name.toList := fun hmem => tokenChar_ne (p.token '=' hmem) (by decide +kernel) rfl
  unfold Text.splitOnce
  rw [String.toList_ofList, Param.chars, Text.cutAt_append hname, Option.map_some]
  show some (String.ofList p.name.toList, _) = some (p.name, _)
  rw [String.ofList_toList]

theorem trim_name (p : Param) : Text.trim p.name = p.name :=
  Text.trim_eq_self fun c hc => isWhitespace_tokenChar (p.token c hc)

theorem trim_value (p : Param) :
    trimQuotes (Text.trim (String.ofList ('"' :: (p.value.toList ++ ['"'])))) = p.value := by
  have hquote : Text.isWhitespace '"' = false := by decide
  have htrim : Text.trim (String.ofList ('"' :: (p.value.toList ++ ['"']))) =
      String.ofList ('"' :: (p.value.toList ++ ['"'])) :=
    @trim_blanks [] p.value.toList '"' '"' (fun _ hc => absurd hc List.not_mem_nil) hquote hquote
  rw [htrim, trimQuotes_quoted p.unquoted]

theorem splitParams_challenge (first : Param) (rest : List (Blanks × Param)) :
    splitParams (String.ofList (first.chars ++ Param.following rest)) =
      (first :: rest.map Prod.snd).map fun p => String.ofList p.chars := by
  have hfirst : Text.trim (String.ofList first.chars) = String.ofList first.chars :=
    @trim_param [] (fun _ hc => absurd hc List.not_mem_nil) first
  unfold splitParams
  rw [String.toList_ofList, splitQuoted_param, splitQuoted_following, List.append_nil, List.reverse_reverse,
    List.map_cons, List.map_map, List.map_cons, List.map_map, hfirst]
  have hrest : ∀ e ∈ rest, Text.trim (String.ofList (e.1.val.toList ++ e.2.chars)) = String.ofList e.2.chars :=
    fun e _ => trim_param e.1.property e.2
  exact congrArg (String.ofList first.chars :: ·) (List.map_congr_left hrest)

theorem parseParams_challenge (first : Param) (rest : List (Blanks × Param)) :
    parseParams (String.ofList (first.chars ++ Param.following rest)) =
      (first :: rest.map Prod.snd).foldl (fun out p => out.insert p.name p.value) OrdMap.empty := by
  unfold parseParams
  rw [splitParams_challenge]
  generalize first :: rest.map Prod.snd = params
  generalize (OrdMap.empty : OrdMap String String) = out
  induction params generalizing out with
  | nil => rfl
  | cons p params ih =>
    rw [List.map_cons, List.foldl_cons, List.foldl_cons, splitOnce_param]
    dsimp only
    rw [trim_name, trim_value]
    exact ih (out.insert p.name p.value)

theorem Param.valueOf_cons (p : Param) (params : List Param) (name : String) :
    Param.valueOf (p :: params) name = if p.name = name then some p.value else Param.valueOf params name := by
  unfold Param.valueOf
  by_cases h : p.name = name
  · simp [h]
  · simp [h]

theorem Param.valueOf_eq_none {params : List Param} {name : String} (h : name ∉ params.map Param.name) :
    Param.valueOf params name = none := by
  unfold Param.valueOf
  rw [Option.map_eq_none_iff, List.find?_eq_none]
  intro q hq heq
  exact h (List.mem_map.mpr ⟨q, hq, beq_iff_eq.mp heq⟩)

theorem get?_inserted {params : List Param} (hdistinct : (params.map Param.name).Nodup) (m : OrdMap String String)
    (name : String) :
    (params.foldl (fun out p => out.insert p.name p.value) m).get? name =
      (Param.valueOf params name).or (m.get? name) := by
  induction params generalizing m with
  | nil => rfl
  | cons p params ih =>
    rw [List.map_cons, List.nodup_cons] at hdistinct
    rw [List.foldl_cons, ih hdistinct.2, OrdMap.get?_insert, Param.valueOf_cons]
    by_cases hname : p.name = name
    · rw [if_pos hname, if_pos hname.symm, Param.valueOf_eq_none (hname ▸ hdistinct.1)]
      rfl
    · rw [if_neg hname, if_neg (Ne.symm hname)]

/-- A challenge whose parameters have distinct names, among them the realm, is read as it was written. -/
theorem challenge_parsed (first : Param) (rest : List (Blanks × Param))
    (hdistinct : ((first :: rest.map Prod.snd).map Param.name).Nodup) (realm : String)
    (hrealm : Param.valueOf (first :: rest.map Prod.snd) "realm" = some realm) :
    parseBearerChallenge (challenge first rest) =
      .ok { realm, service := Param.valueOf (first :: rest.map Prod.snd) "service",
            scope := Param.valueOf (first :: rest.map Prod.snd) "scope" } := by
  have hget (name : String) : (parseParams (String.ofList (first.chars ++ Param.following rest))).get? name =
      Param.valueOf (first :: rest.map Prod.snd) name := by
    rw [parseParams_challenge, get?_inserted hdistinct, OrdMap.get?_empty, Option.or_none]
  have hbearer : Text.stripPrefix "Bearer " (challenge first rest) =
      some (String.ofList (first.chars ++ Param.following rest)) := Text.stripPrefix_eq_some.mpr rfl
  unfold parseBearerChallenge
  rw [hbearer]
  simp only [hget, hrealm]

def realmParam : Param :=
  ⟨"realm", "https://auth.example/token?a=1,b=2", by decide, List.all_eq_true.mp (by decide +kernel), by decide +kernel⟩

def scopeParam : Param :=
  ⟨"scope", "repository:library/alpine:pull,push", by decide, List.all_eq_true.mp (by decide +kernel),
    by decide +kernel⟩

def space : Blanks := ⟨" ", List.all_eq_true.mp (by decide)⟩

/-- A comma in a scope and an equal sign in a realm, with no service. -/
theorem scoped_challenge_parsed : parseBearerChallenge (challenge scopeParam [(space, realmParam)]) =
    .ok { realm := realmParam.value, service := none, scope := some scopeParam.value } :=
  challenge_parsed scopeParam [(space, realmParam)] (by decide) realmParam.value (by decide)

end Collocate.Registry
