import Mathlib.Data.String.Basic
import Collocate.Compose.Template

/-! # Templates as segments (`collocate-compose/src/template.rs`)

A template that is written from literal texts and references resolves to the texts and the values, one behind the
other. A value is put in as it is: what comes behind it is read from the template. -/
namespace Collocate.Compose
set_option autoImplicit false

/-! ## What is written -/

def Reference.name : Reference → String
  | .secret n | .serviceAddress n | .serviceAddresses n | .lbAddress n => n

/-- A name that a reference can be written with. -/
def Reference.WellNamed (r : Reference) : Prop := r.name ≠ "" ∧ '.' ∉ r.name.toList ∧ '\x7d' ∉ r.name.toList

def Reference.parts : Reference → List String
  | .secret n => ["secrets", n]
  | .serviceAddress n => ["services", n, "address"]
  | .serviceAddresses n => ["services", n, "addresses"]
  | .lbAddress n => ["loadbalancers", n, "address"]

/-- What stands between the braces. -/
def Reference.body (r : Reference) : String := Text.joinWith "." r.parts

/-- A piece of a template: literal text, or a reference. -/
inductive Segment
  | text (literal : String)
  | ref (r : Reference) (named : r.WellNamed)

def escapeChar (c : Char) : List Char := if c = '$' then ['$', '$'] else [c]

def Segment.written : Segment → String
  | .text literal => String.ofList (literal.toList.flatMap escapeChar)
  | .ref r _ => quoteRef r.body

/-- What the context has for a reference. -/
def Context.value (ctx : Context) : Reference → Option String
  | .secret n => ctx.secrets n
  | .serviceAddress n => ((ctx.addresses n).bind List.head?).map Ipv4Addr.display
  | .serviceAddresses n => ((ctx.addresses n).filter fun l => !l.isEmpty).map fun l =>
    Text.joinWith "," (l.map Ipv4Addr.display)
  | .lbAddress n => (ctx.lbAddresses n).map Ipv4Addr.display

def Segment.value (ctx : Context) : Segment → Option String
  | .text literal => some literal
  | .ref r _ => ctx.value r

theorem lookupRef_value (ctx : Context) (r : Reference) : (lookupRef ctx r).toOption = ctx.value r := by
  cases r with
  | secret n =>
    rw [lookupRef, Context.value]
    cases ctx.secrets n <;> rfl
  | serviceAddress n =>
    rw [lookupRef, Context.value]
    cases (ctx.addresses n).bind List.head? <;> rfl
  | serviceAddresses n =>
    rw [Context.value]
    simp only [lookupRef]
    cases ctx.addresses n with
    | none => rfl
    | some l => cases l <;> rfl
  | lbAddress n =>
    rw [lookupRef, Context.value]
    cases ctx.lbAddresses n <;> rfl

/-! ## Reading what is written -/

/-- The name stands among the parts, between words of the language. -/
theorem Reference.parts_mem {r : Reference} {p : String} (hp : p ∈ r.parts) :
    p = r.name ∨ p ∈ ["secrets", "services", "loadbalancers", "address", "addresses"] := by
  cases r <;> simp only [Reference.parts, Reference.name, List.mem_cons, List.not_mem_nil] at hp ⊢ <;> tauto

/-- What the words have, and the name has, the parts have. -/
theorem Reference.parts_have {r : Reference} {P : String → Prop} (hname : P r.name)
    (hwords : ∀ w ∈ ["secrets", "services", "loadbalancers", "address", "addresses"], P w) : ∀ p ∈ r.parts, P p := by
  intro p hp
  cases Reference.parts_mem hp with
  | inl h => exact h ▸ hname
  | inr h => exact hwords p h

theorem parseReference_body {r : Reference} (h : r.WellNamed) : parseReference r.body = .ok r := by
  obtain ⟨hne, hdot, -⟩ := h
  have hsplit : Text.split '.' r.body = r.parts :=
    Text.split_joinWith rfl (Reference.parts_have hdot (by decide)) (by cases r <;> exact List.cons_ne_nil _ _)
  have hempty : r.parts.any String.isEmpty = false := by
    rw [List.any_eq_false]
    exact Reference.parts_have (P := fun p => ¬p.isEmpty = true) (by simpa using hne) (by decide)
  unfold parseReference
  rw [hsplit]
  dsimp only
  rw [hempty]
  cases r <;> rfl

/-- No brace ends a reference before its own. -/
theorem Reference.WellNamed.body {r : Reference} (h : r.WellNamed) : '\x7d' ∉ r.body.toList :=
  Text.joinWith_not_mem (by decide) (Reference.parts_have h.2.2 (by decide))

/-! ## Scanning what is written -/

/-- A turn with a character before it that is no dollar sign. -/
def Turn.behind (c : Char) : Turn → Turn
  | .stop text => .stop (c :: text)
  | .skip text rest => .skip (c :: text) rest
  | .bad e => .bad e
  | .ref before r rest => .ref (c :: before) r rest

theorem turnOf_brace {rest before after : List Char} (h : Text.cutAt '$' rest = some (before, '\x7b' :: after)) :
    turnOf rest = match Text.cutAt '\x7d' after with
      | none => .bad (.invalid "unterminated $\x7b reference")
      | some (body, after') => match parseReference (String.ofList body) with
        | .error e => .bad e
        | .ok r => .ref before r after' := by
  unfold turnOf
  rw [h]
  rfl

theorem turnOf_cons {c : Char} (hc : c ≠ '$') (rest : List Char) : turnOf (c :: rest) = (turnOf rest).behind c := by
  have hcut : Text.cutAt '$' (c :: rest) = (Text.cutAt '$' rest).map fun p => (c :: p.1, p.2) := by
    rw [Text.cutAt, if_neg hc]
  cases hrest : Text.cutAt '$' rest with
  | none =>
    unfold turnOf
    rw [hcut, hrest]
    rfl
  | some p =>
    obtain ⟨before, after⟩ := p
    rw [hrest, Option.map_some] at hcut
    -- The character after the dollar sign says what the turn does; it is the same one.
    cases after with
    | nil =>
      unfold turnOf
      rw [hcut, hrest]
      rfl
    | cons d after =>
      by_cases hbrace : d = '\x7b'
      · subst hbrace
        rw [turnOf_brace hcut, turnOf_brace hrest]
        cases Text.cutAt '\x7d' after with
        | none => rfl
        | some q =>
          dsimp only
          cases parseReference (String.ofList q.1) <;> rfl
      · unfold turnOf
        rw [hcut, hrest]
        by_cases hdollar : d = '$'
        · subst hdollar
          rfl
        · simp [hdollar, hbrace, Turn.behind]

section Scan
variable {S : Type} (onRef : Reference → Prog S String)

theorem Turn.run_behind (next : List Char → List Char → Prog S String) (c : Char) (out : List Char) (t : Turn) :
    (t.behind c).run onRef next out = t.run onRef next (out ++ [c]) := by
  cases t <;> simp [Turn.behind, Turn.run]

theorem scanFrom_char {c : Char} (hc : c ≠ '$') (fuel : ℕ) (rest out : List Char) :
    scanFrom onRef fuel (c :: rest) out = scanFrom onRef fuel rest (out ++ [c]) := by
  cases fuel with
  | zero =>
    unfold scanFrom
    rw [List.append_assoc]
    rfl
  | succ fuel => rw [scanFrom_succ, scanFrom_succ, turnOf_cons hc, Turn.run_behind]

/-- Literal text comes out as it was before it was escaped. -/
theorem scanFrom_escaped (literal : List Char) (fuel : ℕ) (rest out : List Char)
    (hfuel : (literal.flatMap escapeChar ++ rest).length < fuel) :
    ∃ fuel', rest.length < fuel' ∧
      scanFrom onRef fuel (literal.flatMap escapeChar ++ rest) out = scanFrom onRef fuel' rest (out ++ literal) := by
  induction literal generalizing fuel out with
  | nil => exact ⟨fuel, hfuel, by rw [List.append_nil]; rfl⟩
  | cons c literal ih =>
    rw [List.flatMap_cons, List.append_assoc] at hfuel ⊢
    by_cases hc : c = '$'
    · subst hc
      cases fuel with
      | zero => exact absurd hfuel (Nat.not_lt_zero _)
      | succ fuel =>
        have hrest : (literal.flatMap escapeChar ++ rest).length < fuel := by
          have hlen : (escapeChar '$' ++ (literal.flatMap escapeChar ++ rest)).length =
            2 + (literal.flatMap escapeChar ++ rest).length := List.length_append
          omega
        obtain ⟨fuel', hfuel', heq⟩ := ih fuel (out ++ ['$']) hrest
        refine ⟨fuel', hfuel', ?_⟩
        have hturn : turnOf (escapeChar '$' ++ (literal.flatMap escapeChar ++ rest)) =
          .skip ['$'] (literal.flatMap escapeChar ++ rest) := rfl
        rw [scanFrom_succ, hturn]
        show scanFrom onRef fuel _ (out ++ ['$']) = _
        rw [heq, List.append_assoc]
        rfl
    · have hone : escapeChar c = [c] := if_neg hc
      rw [hone] at hfuel ⊢
      have hrest : (literal.flatMap escapeChar ++ rest).length < fuel := by
        have hlen : ([c] ++ (literal.flatMap escapeChar ++ rest)).length =
          1 + (literal.flatMap escapeChar ++ rest).length := List.length_append
        omega
      obtain ⟨fuel', hfuel', heq⟩ := ih fuel (out ++ [c]) hrest
      refine ⟨fuel', hfuel', ?_⟩
      rw [List.singleton_append, scanFrom_char onRef hc, heq, List.append_assoc]
      rfl

/-- A reference is looked up, and the scan goes on behind it. -/
theorem scanFrom_ref {r : Reference} (h : r.WellNamed) (fuel : ℕ) (rest out : List Char) :
    scanFrom onRef (fuel + 1) ((quoteRef r.body).toList ++ rest) out = (do
      let text ← onRef r
      scanFrom onRef fuel rest (out ++ text.toList)) := by
  have hchars : (quoteRef r.body).toList ++ rest = '$' :: '\x7b' :: (r.body.toList ++ '\x7d' :: rest) := by
    unfold quoteRef
    rw [String.toList_append, String.toList_append, List.append_assoc, List.append_assoc]
    rfl
  have hturn : turnOf ('$' :: '\x7b' :: (r.body.toList ++ '\x7d' :: rest)) = .ref [] r rest := by
    have hcut : Text.cutAt '$' ('$' :: '\x7b' :: (r.body.toList ++ '\x7d' :: rest)) =
      some ([], '\x7b' :: (r.body.toList ++ '\x7d' :: rest)) := rfl
    rw [turnOf_brace hcut, Text.cutAt_append h.body]
    dsimp only
    rw [String.ofList_toList, parseReference_body h]
  rw [hchars, scanFrom_succ, hturn]
  unfold Turn.run
  simp only [List.append_nil]

end Scan

/-! ## Resolving -/

def render (segments : List Segment) : String := String.join (segments.map Segment.written)

theorem scanFrom_rendered (ctx : Context) (segments : List Segment) (fuel : ℕ) (out : List Char)
    (hfuel : (render segments).toList.length < fuel) :
    (scanFrom (resolveWith ctx) fuel (render segments).toList out ()).1.toOption =
      (segments.mapM (Segment.value ctx)).map fun texts => String.ofList (out ++ (String.join texts).toList) := by
  induction segments generalizing fuel out with
  | nil =>
    cases fuel with
    | zero => exact absurd hfuel (Nat.not_lt_zero _)
    | succ fuel => rfl
  | cons segment segments ih =>
    have hchars : (render (segment :: segments)).toList = segment.written.toList ++ (render segments).toList := by
      unfold render
      rw [List.map_cons, String.join_cons, String.toList_append]
    rw [hchars] at hfuel ⊢
    rw [List.mapM_cons]
    cases segment with
    | text literal =>
      have hwritten : (Segment.text literal).written.toList = literal.toList.flatMap escapeChar := String.toList_ofList
      rw [hwritten] at hfuel ⊢
      obtain ⟨fuel', hfuel', heq⟩ := scanFrom_escaped (resolveWith ctx) literal.toList fuel _ out hfuel
      rw [heq, ih fuel' _ hfuel']
      cases segments.mapM (Segment.value ctx) with
      | none => rfl
      | some texts =>
        show some (String.ofList (out ++ literal.toList ++ (String.join texts).toList)) =
          some (String.ofList (out ++ (String.join (literal :: texts)).toList))
        rw [String.join_cons, String.toList_append, List.append_assoc]
    | ref r named =>
      have hwritten : (Segment.ref r named).written = quoteRef r.body := rfl
      rw [hwritten] at hfuel ⊢
      cases fuel with
      | zero => exact absurd hfuel (Nat.not_lt_zero _)
      | succ fuel =>
        have hrest : (render segments).toList.length < fuel := by
          have hlen : 0 < (quoteRef r.body).toList.length := by
            unfold quoteRef
            rw [String.toList_append, String.toList_append, List.append_assoc]
            exact Nat.succ_pos _
          rw [List.length_append] at hfuel
          omega
        rw [scanFrom_ref (resolveWith ctx) named]
        have hvalue := lookupRef_value ctx r
        have hsegment : Segment.value ctx (.ref r named) = ctx.value r := rfl
        rw [hsegment, ← hvalue]
        cases hlookup : lookupRef ctx r with
        | error e =>
          have hthrow : resolveWith ctx r () = (.error e, ()) := by rw [resolveWith, hlookup]; rfl
          rw [Eff.bind_of_error hthrow]
          rfl
        | ok v =>
          have hpure : resolveWith ctx r () = (.ok v, ()) := by rw [resolveWith, hlookup]; rfl
          rw [Eff.bind_of_ok hpure, ih fuel _ hrest]
          cases segments.mapM (Segment.value ctx) with
          | none => rfl
          | some texts =>
            show some (String.ofList (out ++ v.toList ++ (String.join texts).toList)) =
              some (String.ofList (out ++ (String.join (v :: texts)).toList))
            rw [String.join_cons, String.toList_append, List.append_assoc]

/-- A template of segments resolves to the texts and values in their order, and to nothing when one has no value; any
text resolves exactly when its references are well formed and all have values. -/
theorem resolve_concatenates (ctx : Context) :
    (∀ segments, (resolve (render segments) ctx).toOption =
      (segments.mapM (Segment.value ctx)).map String.join) ∧
    ∀ input, (∃ text, resolve input ctx = .ok text) ↔
      ∃ refs, references input = .ok refs ∧ ∀ r ∈ refs, ∃ v, ctx.value r = some v := by
  constructor
  · intro segments
    have hscan := scanFrom_rendered ctx segments _ [] (Nat.lt_succ_self _)
    have hjoin : (fun texts => String.ofList ([] ++ (String.join texts).toList)) = String.join := by
      funext texts
      rw [List.nil_append, String.ofList_toList]
    rw [hjoin] at hscan
    exact hscan
  · intro input
    rw [resolve_ok_iff]
    have hvalue : ∀ r, (∃ v, lookupRef ctx r = .ok v) ↔ ∃ v, ctx.value r = some v := by
      intro r
      rw [← lookupRef_value]
      cases lookupRef ctx r with
      | error e => exact ⟨fun h => absurd h.choose_spec nofun, fun h => absurd h.choose_spec nofun⟩
      | ok v => exact ⟨fun _ => ⟨v, rfl⟩, fun _ => ⟨v, rfl⟩⟩
    simp only [hvalue]

end Collocate.Compose
