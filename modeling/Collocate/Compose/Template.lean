import Collocate.Core.Net

/-! # Templates (`collocate-compose/src/template.rs`)

`$$` is a dollar sign, `$` and a name in braces a reference, and any other text stands for itself.
The three maps of the context are only looked up. -/
namespace Collocate.Compose
set_option autoImplicit false

structure Context where
  secrets : String → Option String
  addresses : String → Option (List Ipv4Addr)
  lbAddresses : String → Option Ipv4Addr

inductive Reference
  | secret (name : String)
  | serviceAddress (name : String)
  | serviceAddresses (name : String)
  | lbAddress (name : String)
  deriving DecidableEq, Repr

/-- The text of a reference, as error messages quote it. -/
def quoteRef (body : String) : String := "$\x7b" ++ body ++ "\x7d"

def parseReference (body : String) : Result Reference :=
  let parts := Text.split '.' body
  if parts.any String.isEmpty then .error (.invalid ("malformed reference " ++ quoteRef body))
  else match parts with
    | ["secrets", name] => .ok (.secret name)
    | ["services", name, "address"] => .ok (.serviceAddress name)
    | ["services", name, "addresses"] => .ok (.serviceAddresses name)
    | ["loadbalancers", name, "address"] => .ok (.lbAddress name)
    | _ => .error (.invalid ("unsupported reference " ++ quoteRef body))

variable {S : Type}

/-- The loop of `scan`; every turn consumes a `$`, so the length of the text is enough fuel. -/
def scanFrom (onRef : Reference → Prog S String) : ℕ → List Char → List Char → Prog S String
  | 0, rest, out => pure (String.ofList (out ++ rest))
  | fuel + 1, rest, out =>
    match Text.cutAt '$' rest with
    | none => pure (String.ofList (out ++ rest))
    | some (before, '$' :: after) => scanFrom onRef fuel after (out ++ before ++ ['$'])
    | some (before, '\x7b' :: after) =>
      match Text.cutAt '\x7d' after with
      | none => Eff.throw (.invalid "unterminated $\x7b reference")
      | some (body, after') => do
        let r ← Eff.lift (parseReference (String.ofList body))
        let text ← onRef r
        scanFrom onRef fuel after' (out ++ before ++ text.toList)
    | some (before, after) => scanFrom onRef fuel after (out ++ before ++ ['$'])

def scan (input : String) (onRef : Reference → Prog S String) : Prog S String :=
  scanFrom onRef (input.toList.length + 1) input.toList []

/-- The references of a text, in order. -/
def references (input : String) : Result (List Reference) :=
  let collect : Reference → Prog (List Reference) String := fun r => do
    Eff.modify (· ++ [r])
    pure ""
  match scan input collect [] with
  | (.ok _, found) => .ok found
  | (.error e, _) => .error e

def lookupRef (ctx : Context) : Reference → Result String
  | .secret n => match ctx.secrets n with
    | some v => .ok v
    | none => .error (.invalid s!"unknown secret {n}")
  | .serviceAddress n => match (ctx.addresses n).bind List.head? with
    | some a => .ok a.display
    | none => .error (.invalid s!"no address known for service {n}")
  | .serviceAddresses n => match ctx.addresses n with
    | some (a :: rest) => .ok (Text.joinWith "," ((a :: rest).map Ipv4Addr.display))
    | _ => .error (.invalid s!"no addresses known for service {n}")
  | .lbAddress n => match ctx.lbAddresses n with
    | some a => .ok a.display
    | none => .error (.invalid s!"no address known for load balancer {n}")

def resolve (input : String) (ctx : Context) : Result String :=
  (scan (S := Unit) input (fun r => Eff.lift (lookupRef ctx r)) ()).1

/-! ## What can be resolved -/

/-- Collecting the references of a text. -/
def collectRef (r : Reference) : Prog (List Reference) String := do
  Eff.modify (· ++ [r])
  pure ""

def resolveWith (ctx : Context) (r : Reference) : Prog Unit String := Eff.lift (lookupRef ctx r)

/-- What a turn of `scan` does, whatever is done with a reference. -/
inductive Turn
  | stop (text : List Char)
  | skip (text rest : List Char)
  | bad (e : Error)
  | ref (before : List Char) (r : Reference) (rest : List Char)

def Turn.run (onRef : Reference → Prog S String) (next : List Char → List Char → Prog S String) (out : List Char) :
    Turn → Prog S String
  | .stop text => pure (String.ofList (out ++ text))
  | .skip text rest => next rest (out ++ text)
  | .bad e => Eff.throw e
  | .ref before r rest => do
    let text ← onRef r
    next rest (out ++ before ++ text.toList)

def turnOf (rest : List Char) : Turn :=
  match Text.cutAt '$' rest with
  | none => .stop rest
  | some (before, '$' :: after) => .skip (before ++ ['$']) after
  | some (before, '\x7b' :: after) =>
    match Text.cutAt '\x7d' after with
    | none => .bad (.invalid "unterminated $\x7b reference")
    | some (body, after') => match parseReference (String.ofList body) with
      | .error e => .bad e
      | .ok r => .ref before r after'
  | some (before, after) => .skip (before ++ ['$']) after

theorem scanFrom_succ (onRef : Reference → Prog S String) (fuel : ℕ) (rest out : List Char) :
    scanFrom onRef (fuel + 1) rest out = (turnOf rest).run onRef (scanFrom onRef fuel) out := by
  unfold scanFrom turnOf
  split
  · rfl
  · simp [Turn.run]
  · split
    · rfl
    · cases parseReference _ with
      | error e => rfl
      | ok r => rfl
  · simp [Turn.run]

/-- Scanning for references and scanning to resolve them go the same way. -/
theorem scanFrom_resolve (ctx : Context) (fuel : ℕ) (rest out out' : List Char) (found : List Reference) :
    match scanFrom collectRef fuel rest out found with
    | (.ok _, found') => ∃ new, found' = found ++ new ∧
        ((∃ text, (scanFrom (resolveWith ctx) fuel rest out' ()).1 = .ok text) ↔
          ∀ r ∈ new, ∃ v, lookupRef ctx r = .ok v)
    | (.error _, _) => ¬∃ text, (scanFrom (resolveWith ctx) fuel rest out' ()).1 = .ok text := by
  induction fuel generalizing rest out out' found with
  | zero => exact ⟨[], (List.append_nil _).symm, fun _ r hr => absurd hr List.not_mem_nil, fun _ => ⟨_, rfl⟩⟩
  | succ fuel ih =>
    rw [scanFrom_succ, scanFrom_succ]
    cases turnOf rest with
    | stop text => exact ⟨[], (List.append_nil _).symm, fun _ r hr => absurd hr List.not_mem_nil, fun _ => ⟨_, rfl⟩⟩
    | skip text rest => exact ih rest _ _ found
    | bad e =>
      rintro ⟨text, htext⟩
      cases htext
    | ref before r rest =>
      have hcollect : Turn.run collectRef (scanFrom collectRef fuel) out (.ref before r rest) found =
          scanFrom collectRef fuel rest (out ++ before ++ "".toList) (found ++ [r]) := rfl
      rw [hcollect]
      cases hlookup : lookupRef ctx r with
      | error e =>
        have hno : ¬∃ text, (Turn.run (resolveWith ctx) (scanFrom (resolveWith ctx) fuel) out'
            (.ref before r rest) ()).1 = .ok text := by
          rintro ⟨text, htext⟩
          have hthrow : resolveWith ctx r () = (.error e, ()) := by rw [resolveWith, hlookup]; rfl
          simp only [Turn.run] at htext
          rw [Eff.bind_of_error hthrow] at htext
          cases htext
        have hrest := ih rest (out ++ before ++ "".toList) [] (found ++ [r])
        rcases hr : scanFrom collectRef fuel rest (out ++ before ++ "".toList) (found ++ [r]) with ⟨_ | _, found'⟩
        · exact hno
        · rw [hr] at hrest
          obtain ⟨new, hfound, -⟩ := hrest
          refine ⟨r :: new, by rw [hfound, List.append_assoc]; rfl, fun hsome => absurd hsome hno, fun hall => ?_⟩
          obtain ⟨v, hv⟩ := hall r (List.mem_cons_self ..)
          rw [hlookup] at hv
          cases hv
      | ok v =>
        have hpure : resolveWith ctx r () = (.ok v, ()) := by rw [resolveWith, hlookup]; rfl
        have hstep : Turn.run (resolveWith ctx) (scanFrom (resolveWith ctx) fuel) out' (.ref before r rest) () =
            scanFrom (resolveWith ctx) fuel rest (out' ++ before ++ v.toList) () := by
          simp only [Turn.run]
          rw [Eff.bind_of_ok hpure]
        rw [hstep]
        have hrest := ih rest (out ++ before ++ "".toList) (out' ++ before ++ v.toList) (found ++ [r])
        rcases hr : scanFrom collectRef fuel rest (out ++ before ++ "".toList) (found ++ [r]) with ⟨_ | _, found'⟩
        · rw [hr] at hrest
          exact hrest
        · rw [hr] at hrest
          obtain ⟨new, hfound, hiff⟩ := hrest
          refine ⟨r :: new, by rw [hfound, List.append_assoc]; rfl, hiff.trans ⟨fun hall => ?_, fun hall => ?_⟩⟩
          · intro r' hr'
            cases hr' with
            | head => exact ⟨v, hlookup⟩
            | tail _ hmem => exact hall r' hmem
          · exact fun r' hr' => hall r' (List.mem_cons_of_mem _ hr')

/-- A text resolves when its references are well formed and each has a value. -/
theorem resolve_ok_iff {input : String} {ctx : Context} :
    (∃ text, resolve input ctx = .ok text) ↔
      ∃ refs, references input = .ok refs ∧ ∀ r ∈ refs, ∃ v, lookupRef ctx r = .ok v := by
  have h := scanFrom_resolve ctx (input.toList.length + 1) input.toList [] [] []
  have hrefs : references input = match scanFrom collectRef (input.toList.length + 1) input.toList [] [] with
      | (.ok _, found) => .ok found
      | (.error e, _) => .error e := rfl
  have hresolve : resolve input ctx = (scanFrom (resolveWith ctx) (input.toList.length + 1) input.toList [] ()).1 := rfl
  rw [hrefs, hresolve]
  rcases hr : scanFrom collectRef (input.toList.length + 1) input.toList [] [] with ⟨e | text, found⟩ <;> rw [hr] at h
  · constructor
    · exact fun hsome => absurd hsome h
    · rintro ⟨refs, hbad, -⟩
      cases hbad
  · obtain ⟨new, hfound, hiff⟩ := h
    rw [List.nil_append] at hfound
    subst hfound
    constructor
    · exact fun hsome => ⟨found, rfl, hiff.mp hsome⟩
    · rintro ⟨refs, hok, hall⟩
      cases hok
      exact hiff.mpr hall

end Collocate.Compose
