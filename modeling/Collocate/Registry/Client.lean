import Collocate.Registry.Manifest
import Collocate.Registry.Reference

/-! # The registry client (`collocate-registry/src/client.rs`, `auth.rs`, `error.rs`)

A registry is an arbitrary function from a request and its own state to an answer: any bytes, any
content type, redirects included, and another answer the next time. -/
namespace Collocate.Registry
set_option autoImplicit false

inductive Error
  | invalidReference (s : String)
  | http (s : String)
  | digestMismatch (expected actual : String)
  | noMatchingPlatform (os arch : String)
  | auth (s : String)
  | json (s : String)
  | io (s : String)
  deriving DecidableEq, Repr

/-- The `Display` text. -/
def Error.display : Error → String
  | invalidReference s => "invalid reference " ++ Text.debugStr s
  | http s => "http: " ++ s
  | digestMismatch expected actual => s!"digest mismatch: expected {expected}, got {actual}"
  | noMatchingPlatform os arch => s!"no manifest for platform {os}/{arch}"
  | auth s => "unexpected auth challenge: " ++ s
  | json s => "json: " ++ s
  | io s => "io: " ++ s

/-! ## What the client talks to -/

structure HttpRequest where
  method : String
  url : String
  query : List (String × String) := []
  accept : Option String := none
  authorization : Option String := none
  deriving DecidableEq, Repr

/-- An answer: the headers the client reads, the body, and the error its reader ends with, if any. -/
structure HttpResponse where
  contentType : Option String := none
  wwwAuthenticate : Option String := none
  body : List UInt8 := []
  broken : Option String := none
  deriving DecidableEq, Repr

inductive HttpFailure
  | status (code : ℕ) (resp : HttpResponse) (text : String)
  | transport (text : String)
  deriving DecidableEq, Repr

def HttpFailure.display : HttpFailure → String
  | status _ _ text => text
  | transport text => text

/-- The answer to a request, from a registry in state `σ`. -/
abbrev Http (σ : Type) := HttpRequest → σ → Except HttpFailure HttpResponse × σ

/-- The fields of a token response: `none` where the field is missing, `some none` where it is no string. -/
structure TokenBody where
  token : Option (Option String)
  accessToken : Option (Option String)
  deriving DecidableEq, Repr

/-- The third-party code of the client, and the architecture it was built for. -/
structure Codec where
  sha256 : List UInt8 → List UInt8
  decodeIndex : List UInt8 → Except String Index
  decodeManifest : List UInt8 → Except String Manifest
  decodeToken : List UInt8 → Except String TokenBody
  arch : String

def Codec.digestOf (x : Codec) (bytes : List UInt8) : String := Registry.digestOf x.sha256 bytes

structure Client where
  registry : String
  deriving DecidableEq, Repr

abbrev Credentials := String → Option (String × String)

/-- The token cell of the client, and the other side of the connection. -/
structure Conn (σ : Type) where
  token : Option String := none
  net : σ

abbrev Call (σ α : Type) := Eff (Conn σ) Error α

/-! ## Authentication -/

structure BearerChallenge where
  realm : String
  service : Option String
  scope : Option String
  deriving DecidableEq, Repr

/-- The pieces between the commas that stand outside quotes. -/
def splitQuoted : List Char → Bool → List Char → List (List Char)
  | [], _, piece => [piece.reverse]
  | c :: cs, inQuotes, piece =>
    if c = '"' then splitQuoted cs (!inQuotes) (c :: piece)
    else if c = ',' ∧ inQuotes = false then piece.reverse :: splitQuoted cs inQuotes []
    else splitQuoted cs inQuotes (c :: piece)

def splitParams (rest : String) : List String :=
  (splitQuoted rest.toList false []).map fun piece => Text.trim (String.ofList piece)

/-- `trim_matches` with the quote. -/
def trimQuotes (s : String) : String :=
  Text.trimEndMatches (· == '"') (String.ofList (s.toList.dropWhile (· == '"')))

def parseParams (rest : String) : OrdMap String String :=
  (splitParams rest).foldl (fun out part => match Text.splitOnce '=' part with
    | some (k, v) => out.insert (Text.trim k) (trimQuotes (Text.trim v))
    | none => out) OrdMap.empty

def parseBearerChallenge (header : String) : Except Error BearerChallenge :=
  match Text.stripPrefix "Bearer " header with
  | none => .error (.auth ("unsupported auth scheme: " ++ header))
  | some rest =>
    let params := parseParams rest
    match params.get? "realm" with
    | none => .error (.auth "bearer challenge missing realm")
    | some realm => .ok { realm, service := params.get? "service", scope := params.get? "scope" }

def b64 : List Char := "ABCDEFGHIJKLMNOPQRSTUVWXYZabcdefghijklmnopqrstuvwxyz0123456789+/".toList

def b64Digit (n : ℕ) : Char := b64.getD n '='

def base64Chars : List UInt8 → List Char
  | [] => []
  | [b0] => [b64Digit (b0.toNat / 4), b64Digit (b0.toNat % 4 * 16), '=', '=']
  | [b0, b1] =>
    [b64Digit (b0.toNat / 4), b64Digit (b0.toNat % 4 * 16 + b1.toNat / 16), b64Digit (b1.toNat % 16 * 4), '=']
  | b0 :: b1 :: b2 :: rest =>
    b64Digit (b0.toNat / 4) :: b64Digit (b0.toNat % 4 * 16 + b1.toNat / 16) ::
      b64Digit (b1.toNat % 16 * 4 + b2.toNat / 64) :: b64Digit (b2.toNat % 64) :: base64Chars rest

def base64 (input : List UInt8) : String := String.ofList (base64Chars input)

def basicAuth (user pass : String) : String := "Basic " ++ base64 (user ++ ":" ++ pass).toUTF8.data.toList

/-! ## Requests -/

namespace Client

def scheme (c : Client) : String :=
  let host := (Text.split ':' c.registry).headD c.registry
  if host == "localhost" || host == "127.0.0.1" then "http" else "https"

def url (c : Client) (repo kind id : String) : String :=
  s!"{c.scheme}://{c.registry}/v2/{repo}/{kind}/{id}"

variable {σ : Type}

/-- One request on the wire. -/
def send (http : Http σ) (req : HttpRequest) : Call σ (Except HttpFailure HttpResponse) := fun conn =>
  (.ok (http req conn.net).1, { conn with net := (http req conn.net).2 })

/-- `read_to_end` on the body. -/
def readToEnd (resp : HttpResponse) : Except Error (List UInt8) :=
  match resp.broken with
  | some e => .error (.io e)
  | none => .ok resp.body

def tokenOf (body : TokenBody) : Option String := (body.token.orElse fun _ => body.accessToken).join

def authenticate (x : Codec) (http : Http σ) (c : Client) (wwwAuthenticate : String) (creds : Credentials) :
    Call σ Unit := do
  let challenge ← Eff.lift (parseBearerChallenge wwwAuthenticate)
  let query := (challenge.service.map fun s => ("service", s)).toList ++
    (challenge.scope.map fun s => ("scope", s)).toList
  let authorization := (creds c.registry).map fun (user, pass) => basicAuth user pass
  match ← send http { method := "GET", url := challenge.realm, query, authorization } with
  | .error e => Eff.throw (.auth e.display)
  | .ok response =>
    match response.broken with
    | some e => Eff.throw (.auth e)
    | none => match x.decodeToken response.body with
      | .error e => Eff.throw (.auth e)
      | .ok body => match tokenOf body with
        | none => Eff.throw (.auth "token response missing token field")
        | some token => Eff.modify fun conn => { conn with token := some token }

/-- The request with the token of the client, if it has one. -/
def build (method url : String) (accept token : Option String) : HttpRequest :=
  { method, url, accept, authorization := token.map ("Bearer " ++ ·) }

def request (x : Codec) (http : Http σ) (c : Client) (method url : String) (accept : Option String)
    (creds : Credentials) : Call σ HttpResponse := do
  let conn ← Eff.get
  match ← send http (build method url accept conn.token) with
  | .ok resp => pure resp
  | .error (.status 401 resp _) =>
    match resp.wwwAuthenticate with
    | none => Eff.throw (.auth "401 without WWW-Authenticate")
    | some challenge =>
      authenticate x http c challenge creds
      let conn ← Eff.get
      match ← send http (build method url accept conn.token) with
      | .ok resp => pure resp
      | .error e => Eff.throw (.http e.display)
  | .error e => Eff.throw (.http e.display)

/-! ## Manifests and blobs -/

/-- What is decoded from bytes received, with the error of the client. -/
def decoded {α : Type} (r : Except String α) : Except Error α := r.mapError Error.json

def fetchManifestByDigest (x : Codec) (http : Http σ) (c : Client) (repo digest : String) (creds : Credentials) :
    Call σ (String × Manifest) := do
  let resp ← request x http c "GET" (c.url repo "manifests" digest) (some acceptManifestTypes) creds
  let bytes ← Eff.lift (readToEnd resp)
  let actual := x.digestOf bytes
  if actual ≠ digest then
    Eff.throw (.digestMismatch digest actual)
  else
    let manifest ← Eff.lift (decoded (x.decodeManifest bytes))
    pure (actual, manifest)

/-- Whether the content type of an answer announces an index. -/
def isIndex (resp : HttpResponse) : Bool :=
  let contentType := resp.contentType.getD ""
  Text.startsWith contentType dockerManifestList || Text.startsWith contentType ociIndex

/-- What an answer that is no index is accepted as. -/
def acceptManifest (x : Codec) (selector : Selector) (bytes : List UInt8) : Except Error (String × Manifest) :=
  let digest := x.digestOf bytes
  let checked : Except Error Unit := match selector with
    | .digest expected => if expected ≠ digest then .error (.digestMismatch expected digest) else .ok ()
    | .tag _ => .ok ()
  checked.bind fun _ => (decoded (x.decodeManifest bytes)).map fun manifest => (digest, manifest)

def resolveManifest (x : Codec) (http : Http σ) (c : Client) (repo : String) (selector : Selector)
    (creds : Credentials) : Call σ (String × Manifest) := do
  let id := match selector with
    | .tag t => t
    | .digest d => d
  let resp ← request x http c "GET" (c.url repo "manifests" id) (some acceptManifestTypes) creds
  let bytes ← Eff.lift (readToEnd resp)
  if isIndex resp then
    let index ← Eff.lift (decoded (x.decodeIndex bytes))
    match selectPlatform index "linux" (hostArch x.arch) with
    | none => Eff.throw (.noMatchingPlatform "linux" (hostArch x.arch))
    | some desc => fetchManifestByDigest x http c repo desc.digest creds
  else
    Eff.lift (acceptManifest x selector bytes)

/-- `get_blob`, with what it wrote as its value: on failure every caller drops what was written. -/
def getBlob (x : Codec) (http : Http σ) (c : Client) (repo digest : String) (creds : Credentials) :
    Call σ (List UInt8) := do
  let resp ← request x http c "GET" (c.url repo "blobs" digest) none creds
  let bytes ← Eff.lift (readToEnd resp)
  let actual := x.digestOf bytes
  if actual ≠ digest then
    Eff.throw (.digestMismatch digest actual)
  else
    pure bytes

end Client

end Collocate.Registry
