import Collocate.Trust.Store

/-! # Calls on the trust store

What each operation can do to the two files, however far it gets, and sequences of calls. -/
namespace Collocate.Trust
set_option autoImplicit false

/-! ## Comparing hashes -/

theorem or_eq_zero_iff (a b : UInt8) : a ||| b = 0 ↔ a = 0 ∧ b = 0 := by
  simp only [← UInt8.toNat_inj, UInt8.toNat_or, UInt8.toNat_zero]
  exact Nat.or_eq_zero_iff

theorem xorBytes_eq_zero {acc : UInt8} {as bs : List UInt8} (hlen : as.length = bs.length) :
    xorBytes acc as bs = 0 ↔ acc = 0 ∧ as = bs := by
  induction as generalizing acc bs with
  | nil => simp [xorBytes, List.eq_nil_of_length_eq_zero hlen.symm]
  | cons a as ih =>
    cases bs with
    | nil => cases hlen
    | cons b bs =>
      rw [xorBytes, ih (Nat.succ.inj hlen), or_eq_zero_iff, UInt8.xor_eq_zero_iff, List.cons.injEq, and_assoc]

theorem constantTimeEq_iff (a b : String) : constantTimeEq a b = true ↔ a = b := by
  unfold constantTimeEq
  rw [Bool.and_eq_true, decide_eq_true_eq, beq_iff_eq]
  constructor
  · rintro ⟨hlen, hzero⟩
    have hbytes := ((xorBytes_eq_zero hlen).mp hzero).2
    refine String.toByteArray_inj.mp ?_
    cases ha : a.toByteArray
    cases hb : b.toByteArray
    rw [ha, hb] at hbytes
    exact congrArg _ (Array.toList_inj.mp hbytes)
  · rintro rfl
    exact ⟨rfl, (xorBytes_eq_zero rfl).mpr ⟨rfl, rfl⟩⟩

theorem takeToken_eq_some {hash : String} {list : List PendingToken} {token : PendingToken} {rest : List PendingToken}
    (h : takeToken hash list = some (token, rest)) :
    token.secretHash = hash ∧ ∃ before after, list = before ++ token :: after ∧ rest = before ++ after := by
  induction list generalizing rest with
  | nil => cases h
  | cons t list ih =>
    unfold takeToken at h
    split at h
    · rename_i heq
      cases h
      exact ⟨(constantTimeEq_iff _ _).mp heq, [], list, rfl, rfl⟩
    · obtain ⟨⟨found, left⟩, hfound, heq⟩ := Option.map_eq_some_iff.mp h
      cases heq
      obtain ⟨hhash, before, after, rfl, rfl⟩ := ih hfound
      exact ⟨hhash, t :: before, after, rfl, rfl⟩

/-! ## Reading and writing -/

section Files
open Faulty (At)
variable {F : Files} {faults : Prop}

theorem look_at {α : Type} (f : Files → α) :
    Eff.Triple (At faults F) (Faulty.look ioError f) (fun a s => At faults F s ∧ a = f F)
      fun e s => At faults F s ∧ e = ioError ∧ faults :=
  Faulty.op_at ioError _

/-- The file is replaced by the last of the operations, if they all work. -/
theorem writePrivate_at (put : Files → Files) :
    Eff.Triple (At faults F) (writePrivate put) (fun _ => At faults (put F))
      fun e s => At faults F s ∧ e = ioError ∧ faults := by
  have hchange : ∀ f : Files → Files, Eff.Triple (At faults F) (Faulty.change ioError f)
      (fun _ => At faults (f F)) fun e s => At faults F s ∧ e = ioError ∧ faults :=
    fun f => (Faulty.op_at ioError _).post fun _ _ h => h.1
  exact (hchange id).bind fun _ => (hchange id).bind fun _ => (hchange id).bind fun _ => hchange put

end Files

/-! ## Calls -/

inductive Call
  | createToken (name : String) (role : Role) (projects : List String) (expirySecs : Option UInt64) (now : UInt64)
      (secret : String)
  | revokeToken (name : String)
  | addCertificate (name pem : String) (role : Role) (projects : List String) (now : UInt64)
  | enroll (secret pem : String) (name : Option String) (now : UInt64)
  | remove (key : String)
  deriving DecidableEq, Repr

inductive Reply
  | token (token : PendingToken)
  | done
  | certificate (cert : TrustedCertificate)
  deriving DecidableEq, Repr

variable (c : Crypto)

def runCall : Call → Op Reply
  | .createToken name role projects expirySecs now secret => do
    let token ← createToken c name role projects expirySecs now secret
    pure (.token token)
  | .revokeToken name => do
    revokeToken name
    pure .done
  | .addCertificate name pem role projects now => do
    let cert ← addCertificate c name pem role projects now
    pure (.certificate cert)
  | .enroll secret pem name now => do
    let cert ← enroll c secret pem name now
    pure (.certificate cert)
  | .remove key => do
    let cert ← remove key
    pure (.certificate cert)

/-- The token that `create_token` makes. -/
def newToken (name : String) (role : Role) (projects : List String) (expirySecs : Option UInt64) (now : UInt64)
    (secret : String) : PendingToken where
  name := name
  secretHash := c.hashSecret secret
  role := role
  projects := projects
  createdAt := now
  expiresAt := (expirySecs.filter (0 < ·)).map fun s => now + s

/-- The name an enrolment asks for: its own, or else the token's. -/
def wantedName (name : Option String) (token : PendingToken) : String :=
  (name.filter fun n => !n.isEmpty).getD token.name

/-- The certificate is readable and new, and the name is valid and free. -/
structure Admissible (certs : List TrustedCertificate) (pem name : String) (cert : TrustedCertificate) : Prop where
  fingerprint : c.fingerprintPem pem = .ok cert.fingerprint
  fresh : ∀ other ∈ certs, other.fingerprint ≠ cert.fingerprint
  valid : checkName name = .ok ()
  named : cert.name = name
  free : ∀ other ∈ certs, other.name ≠ name

/-- What a call can do to the files and reply: one constructor for each way it can end. -/
inductive Step (faults : Prop) (F : Files) : Call → Result Reply → Files → Prop
  | refused (call : Call) {e : Error} (he : e ≠ expiredError) : Step faults F call (.error e) F
  | issued {name : String} {role : Role} {projects : List String} {expirySecs : Option UInt64} {now : UInt64}
    {secret : String} (hcerts : ∀ cert ∈ F.certificates, cert.name ≠ name) (htokens : ∀ t ∈ F.tokens, t.name ≠ name) :
    Step faults F (.createToken name role projects expirySecs now secret)
      (.ok (.token (newToken c name role projects expirySecs now secret)))
      { F with tokens := F.tokens ++ [newToken c name role projects expirySecs now secret] }
  | revoked (name : String) :
    Step faults F (.revokeToken name) (.ok .done) { F with tokens := F.tokens.filter fun t => t.name ≠ name }
  | added {name pem : String} {role : Role} {projects : List String} {now : UInt64} {cert : TrustedCertificate}
    (hcert : Admissible c F.certificates pem name cert) (htokens : ∀ t ∈ F.tokens, t.name ≠ name)
    (hrole : cert.role = role) (hprojects : cert.projects = projects) :
    Step faults F (.addCertificate name pem role projects now) (.ok (.certificate cert))
      { F with certificates := F.certificates ++ [cert] }
  | expired {secret pem : String} {name : Option String} {now : UInt64} {token : PendingToken}
    {rest : List PendingToken}
    (htake : takeToken (c.hashSecret secret) F.tokens = some (token, rest)) (hexpired : token.expired now = true) :
    Step faults F (.enroll secret pem name now) (.error expiredError) { F with tokens := rest }
  | half (hfaults : faults) {secret pem : String} {name : Option String} {now : UInt64} {token : PendingToken}
    {rest : List PendingToken} {cert : TrustedCertificate}
    (htake : takeToken (c.hashSecret secret) F.tokens = some (token, rest)) (hexpired : token.expired now = false)
    (hcert : Admissible c F.certificates pem (wantedName name token) cert) :
    Step faults F (.enroll secret pem name now) (.error ioError) { F with certificates := F.certificates ++ [cert] }
  | enrolled {secret pem : String} {name : Option String} {now : UInt64} {token : PendingToken}
    {rest : List PendingToken} {cert : TrustedCertificate}
    (htake : takeToken (c.hashSecret secret) F.tokens = some (token, rest)) (hexpired : token.expired now = false)
    (hcert : Admissible c F.certificates pem (wantedName name token) cert)
    (hrole : cert.role = token.role) (hprojects : cert.projects = token.projects) :
    Step faults F (.enroll secret pem name now) (.ok (.certificate cert))
      { certificates := F.certificates ++ [cert], tokens := rest }
  | removed (key : String) (cert : TrustedCertificate) :
    Step faults F (.remove key) (.ok (.certificate cert))
      { F with certificates := F.certificates.filter fun c => !goesBy key c }

/-! ## Every call is a step -/

section Steps
open Faulty (At)
variable {c} {faults : Prop} {F : Files}

theorem checkName_error {name : String} {e : Error} (h : checkName name = .error e) : e ≠ expiredError := by
  unfold checkName at h
  split at h <;> cases h
  exact nofun

theorem validProjects_error {projects : List String} {e : Error} (h : validProjects projects = .error e) :
    e ≠ expiredError := by
  induction projects with
  | nil => cases h
  | cons p ps ih =>
    unfold validProjects at h
    split at h
    · exact ih h
    · cases h
      exact nofun

theorem certificateDer_error {pem : String} {e : Error} (h : c.certificateDer pem = .error e) : e ≠ expiredError := by
  unfold Crypto.certificateDer at h
  split at h <;> cases h
  exact nofun

theorem fingerprintPem_error {pem : String} {e : Error} (h : c.fingerprintPem pem = .error e) : e ≠ expiredError := by
  unfold Crypto.fingerprintPem at h
  cases hder : c.certificateDer pem with
  | ok der => rw [hder] at h; cases h
  | error e' =>
    rw [hder] at h
    cases h
    exact certificateDer_error hder

theorem any_eq_false {α : Type} {p : α → Bool} {l : List α} (h : ¬ l.any p = true) : ∀ a ∈ l, p a = false := by
  intro a ha
  rw [Bool.eq_false_iff]
  exact fun hp => h (List.any_eq_true.mpr ⟨a, ha, hp⟩)

theorem grant_error {certs : List TrustedCertificate} {token : PendingToken} {pem fingerprint : String}
    {name : Option String} {now : UInt64} {e : Error} (h : grant c certs token pem fingerprint name now = .error e) :
    e ≠ expiredError := by
  unfold grant at h
  simp only [bind, Except.bind, throw, throwThe, MonadExceptOf.throw, pure, Except.pure] at h
  split at h
  · cases h
    exact nofun
  · split at h
    · rename_i e' hname
      cases h
      exact checkName_error hname
    · split at h
      · cases h
        exact nofun
      · split at h
        · rename_i e' hder
          cases h
          exact certificateDer_error hder
        · cases h

theorem grant_ok {certs : List TrustedCertificate} {token : PendingToken} {pem fingerprint : String}
    {name : Option String} {now : UInt64} {cert : TrustedCertificate}
    (h : grant c certs token pem fingerprint name now = .ok cert) (hfp : c.fingerprintPem pem = .ok fingerprint) :
    Admissible c certs pem (wantedName name token) cert ∧ cert.role = token.role ∧ cert.projects = token.projects := by
  unfold grant at h
  simp only [bind, Except.bind, throw, throwThe, MonadExceptOf.throw, pure, Except.pure] at h
  split at h
  · cases h
  · rename_i hfresh
    split at h
    · cases h
    · rename_i hvalid
      split at h
      · cases h
      · rename_i hfree
        split at h
        · cases h
        · cases h
          refine ⟨⟨hfp, fun o ho => ?_, hvalid, rfl, fun o ho => ?_⟩, rfl, rfl⟩
          · exact beq_eq_false_iff_ne.mp (any_eq_false hfresh o ho)
          · exact beq_eq_false_iff_ne.mp (any_eq_false hfree o ho)

section Rules
variable {α β : Type} {Q : β → Faulty Files → Prop} {E : Error → Faulty Files → Prop}
  (hE : ∀ e s, At faults F s → e ≠ expiredError → E e s)
include hE

theorem look_bind {f : Files → α} {k : α → Op β} (hk : Eff.Triple (At faults F) (k (f F)) Q E) :
    Eff.Triple (At faults F) (Faulty.look ioError f >>= k) Q E := by
  refine Eff.Triple.bind (Q := fun a s => At faults F s ∧ a = f F)
    ((look_at f).conseq (fun _ h => h) (fun _ _ h => h) ?_) ?_
  · rintro e s ⟨hs, rfl, -⟩
    exact hE _ s hs nofun
  · rintro a s ⟨hs, rfl⟩
    exact hk s hs

theorem lift_bind {r : Result α} {k : α → Op β} (hne : ∀ e, r = .error e → e ≠ expiredError)
    (hk : ∀ a, r = .ok a → Eff.Triple (At faults F) (k a) Q E) : Eff.Triple (At faults F) (Eff.lift r >>= k) Q E := by
  cases r with
  | ok a => exact hk a rfl
  | error e => exact fun s hs => hE e s hs (hne e rfl)

theorem throw_ends {e : Error} (he : e ≠ expiredError) : Eff.Triple (At faults F) (Eff.throw e : Op β) Q E :=
  Eff.Triple.throw fun s hs => hE e s hs he

/-- A write that only returns what it is given, at the end of an operation. -/
theorem write_bind {put : Files → Files} {k : Unit → Op β} (hk : Eff.Triple (At faults (put F)) (k ()) Q E) :
    Eff.Triple (At faults F) (writePrivate put >>= k) Q E := by
  refine Eff.Triple.bind ((writePrivate_at put).conseq (fun _ h => h) (fun _ _ h => h) ?_) fun _ => hk
  rintro e s ⟨hs, rfl, -⟩
  exact hE _ s hs nofun

theorem nameTaken_bind {name : String} {k : Bool → Op β} (hyes : Eff.Triple (At faults F) (k true) Q E)
    (hno : (∀ cert ∈ F.certificates, cert.name ≠ name) → (∀ t ∈ F.tokens, t.name ≠ name) →
      Eff.Triple (At faults F) (k false) Q E) :
    Eff.Triple (At faults F) (nameTaken name >>= k) Q E := by
  let Free : Prop := (∀ cert ∈ F.certificates, cert.name ≠ name) ∧ ∀ t ∈ F.tokens, t.name ≠ name
  have hname : Eff.Triple (At faults F) (nameTaken name) (fun b s => At faults F s ∧ (b = false → Free)) E := by
    refine look_bind hE ?_
    split
    · exact Eff.Triple.pure fun s hs => ⟨hs, nofun⟩
    · rename_i hcerts
      refine look_bind hE (Eff.Triple.pure fun s hs => ⟨hs, fun htokens => ⟨fun cert hc => ?_, fun t ht => ?_⟩⟩)
      · exact beq_eq_false_iff_ne.mp (any_eq_false hcerts cert hc)
      · exact beq_eq_false_iff_ne.mp (any_eq_false (Bool.eq_false_iff.mp htokens) t ht)
  refine Eff.Triple.bind hname fun b => ?_
  rintro s ⟨hs, hfree⟩
  cases b with
  | true => exact hyes s hs
  | false => exact hno (hfree rfl).1 (hfree rfl).2 s hs

end Rules

variable (faults) in
theorem refused_ends (call : Call) (e : Error) (s : Faulty Files) (hs : At faults F s) (he : e ≠ expiredError) :
    Step c faults F call (.error e) s.it := by
  rw [hs.1]
  exact Step.refused call he

theorem createToken_steps (name : String) (role : Role) (projects : List String) (expirySecs : Option UInt64)
    (now : UInt64) (secret : String) :
    Eff.Triple (At faults F) (createToken c name role projects expirySecs now secret)
      (fun t s => Step c faults F (.createToken name role projects expirySecs now secret) (.ok (.token t)) s.it)
      fun e s => Step c faults F (.createToken name role projects expirySecs now secret) (.error e) s.it := by
  have hE := fun e s => refused_ends (c := c) (F := F) faults
    (.createToken name role projects expirySecs now secret) e s
  refine lift_bind hE (fun e => checkName_error) fun _ _ => ?_
  refine lift_bind hE (fun e => validProjects_error) fun _ _ => ?_
  refine nameTaken_bind hE (throw_ends hE nofun) fun hcerts htokens => ?_
  refine look_bind hE (write_bind hE (Eff.Triple.pure ?_))
  rintro s ⟨hs, -⟩
  rw [hs]
  exact Step.issued hcerts htokens

theorem revokeToken_steps (name : String) :
    Eff.Triple (At faults F) (revokeToken name) (fun _ s => Step c faults F (.revokeToken name) (.ok .done) s.it)
      fun e s => Step c faults F (.revokeToken name) (.error e) s.it := by
  have hE := fun e s => refused_ends (c := c) (F := F) faults (.revokeToken name) e s
  refine look_bind hE ?_
  dsimp only
  split
  · exact throw_ends hE nofun
  · refine (writePrivate_at _).conseq (fun _ h => h) ?_ ?_
    · rintro _ s ⟨hs, -⟩
      rw [hs]
      exact Step.revoked name
    · rintro e s ⟨hs, rfl, -⟩
      exact hE _ s hs nofun

theorem addCertificate_steps (name pem : String) (role : Role) (projects : List String) (now : UInt64) :
    Eff.Triple (At faults F) (addCertificate c name pem role projects now)
      (fun cert s => Step c faults F (.addCertificate name pem role projects now) (.ok (.certificate cert)) s.it)
      fun e s => Step c faults F (.addCertificate name pem role projects now) (.error e) s.it := by
  have hE := fun e s => refused_ends (c := c) (F := F) faults (.addCertificate name pem role projects now) e s
  refine lift_bind hE (fun e => checkName_error) fun _ hvalid => ?_
  refine lift_bind hE (fun e => validProjects_error) fun _ _ => ?_
  refine lift_bind hE (fun e => fingerprintPem_error) fun fingerprint hfp => ?_
  refine look_bind hE ?_
  split
  · exact throw_ends hE nofun
  · rename_i hfresh
    refine nameTaken_bind hE (throw_ends hE nofun) fun hcerts htokens => ?_
    refine lift_bind hE (fun e => certificateDer_error) fun der _ => ?_
    refine write_bind hE (Eff.Triple.pure ?_)
    rintro s ⟨hs, -⟩
    rw [hs]
    refine Step.added ⟨hfp, fun other ho => ?_, hvalid, rfl, hcerts⟩ htokens rfl rfl
    exact beq_eq_false_iff_ne.mp (any_eq_false hfresh other ho)

theorem enroll_steps (secret pem : String) (name : Option String) (now : UInt64) :
    Eff.Triple (At faults F) (enroll c secret pem name now)
      (fun cert s => Step c faults F (.enroll secret pem name now) (.ok (.certificate cert)) s.it)
      fun e s => Step c faults F (.enroll secret pem name now) (.error e) s.it := by
  have hE := fun e s => refused_ends (c := c) (F := F) faults (.enroll secret pem name now) e s
  refine look_bind hE ?_
  split
  · exact throw_ends hE (by decide)
  · rename_i token rest htake
    split
    · rename_i hexpired
      refine write_bind hE (Eff.Triple.throw ?_)
      rintro s ⟨hs, -⟩
      rw [hs]
      exact Step.expired htake hexpired
    · rename_i hexpired
      rw [Bool.not_eq_true] at hexpired
      refine lift_bind hE (fun e => fingerprintPem_error) fun fingerprint hfp => ?_
      refine look_bind hE (lift_bind hE (fun e => grant_error) fun cert hgrant => ?_)
      obtain ⟨hcert, hrole, hprojects⟩ := grant_ok hgrant hfp
      refine write_bind hE
        (Eff.Triple.bind ((writePrivate_at _).conseq (fun _ h => h) (fun _ _ h => h) ?_) fun _ => Eff.Triple.pure ?_)
      · rintro e s ⟨⟨hs, -⟩, rfl, hfaults⟩
        rw [hs]
        exact Step.half hfaults htake hexpired hcert
      · rintro s ⟨hs, -⟩
        rw [hs]
        exact Step.enrolled htake hexpired hcert hrole hprojects

theorem remove_steps (key : String) :
    Eff.Triple (At faults F) (remove key)
      (fun cert s => Step c faults F (.remove key) (.ok (.certificate cert)) s.it)
      fun e s => Step c faults F (.remove key) (.error e) s.it := by
  have hE := fun e s => refused_ends (c := c) (F := F) faults (.remove key) e s
  refine look_bind hE ?_
  split
  · exact throw_ends hE nofun
  · refine write_bind hE (Eff.Triple.pure ?_)
    rintro s ⟨hs, -⟩
    rw [hs]
    exact Step.removed key _
  · exact throw_ends hE nofun

variable (faults) in
/-- Whatever fails, a call ends in one of the ways `Step` lists. -/
theorem runCall_steps (call : Call) :
    Eff.Triple (At faults F) (runCall c call) (fun r s => Step c faults F call (.ok r) s.it)
      fun e s => Step c faults F call (.error e) s.it := by
  cases call with
  | createToken name role projects expirySecs now secret =>
    exact (createToken_steps name role projects expirySecs now secret).bind fun _ => Eff.Triple.pure fun _ h => h
  | revokeToken name => exact (revokeToken_steps name).bind fun _ => Eff.Triple.pure fun _ h => h
  | addCertificate name pem role projects now =>
    exact (addCertificate_steps name pem role projects now).bind fun _ => Eff.Triple.pure fun _ h => h
  | enroll secret pem name now =>
    exact (enroll_steps secret pem name now).bind fun _ => Eff.Triple.pure fun _ h => h
  | remove key => exact (remove_steps key).bind fun _ => Eff.Triple.pure fun _ h => h

end Steps

/-! ## Sequences of calls -/

/-- A call, and which of its file operations work; a process that stops is one whose storage fails. -/
structure Attempt where
  call : Call
  fate : List Bool := []
  deriving DecidableEq, Repr

def perform (F : Files) (a : Attempt) : Result Reply × Files :=
  let out := runCall c a.call ⟨F, a.fate⟩
  (out.1, out.2.it)

abbrev Log := List (Call × Result Reply)

/-- The files after the attempts. -/
def after (F : Files) : List Attempt → Files
  | [] => F
  | a :: rest => after (perform c F a).2 rest

/-- Each call with its reply. -/
def history (F : Files) : List Attempt → Log
  | [] => []
  | a :: rest => (a.call, (perform c F a).1) :: history (perform c F a).2 rest

/-- With storage that works. -/
def healthy (calls : List Call) : List Attempt := calls.map fun call => { call }

inductive Run (faults : Prop) : Log → Files → Prop
  | start : Run faults [] {}
  | next {log : Log} {F F' : Files} {call : Call} {reply : Result Reply} (hrun : Run faults log F)
    (hstep : Step c faults F call reply F') : Run faults (log ++ [(call, reply)]) F'

section Run
variable {c} {faults : Prop} {F : Files}

variable (faults) in
theorem perform_step (a : Attempt) (hfate : ¬ faults → a.fate = []) :
    Step c faults F a.call (perform c F a).1 (perform c F a).2 := by
  have h := runCall_steps (c := c) (F := F) faults a.call ⟨F, a.fate⟩ ⟨rfl, hfate⟩
  unfold perform
  rcases hrun : runCall c a.call ⟨F, a.fate⟩ with ⟨_ | _, s⟩ <;> rw [hrun] at h <;> exact h

theorem Run.extend {log : Log} (hrun : Run c faults log F) (attempts : List Attempt)
    (hfate : ¬ faults → ∀ a ∈ attempts, a.fate = []) :
    Run c faults (log ++ history c F attempts) (after c F attempts) := by
  induction attempts generalizing log F with
  | nil => simpa [history, after] using hrun
  | cons a rest ih =>
    have hstep := perform_step (c := c) (F := F) faults a fun h => hfate h a (List.mem_cons_self ..)
    have hrest := ih (hrun.next hstep) fun h b hb => hfate h b (List.mem_cons_of_mem _ hb)
    simpa [history, after] using hrest

theorem run_attempts (attempts : List Attempt) : Run c True (history c {} attempts) (after c {} attempts) :=
  Run.start.extend attempts fun h => absurd trivial h

theorem run_healthy (calls : List Call) : Run c False (history c {} (healthy calls)) (after c {} (healthy calls)) := by
  refine Run.start.extend _ fun _ a ha => ?_
  obtain ⟨call, -, rfl⟩ := List.mem_map.mp ha
  rfl

theorem after_append (a b : List Attempt) : after c F (a ++ b) = after c (after c F a) b := by
  induction a generalizing F with
  | nil => rfl
  | cons x a ih => exact ih

/-! ## An enrolment that is accepted -/

section Enroll
variable {secret pem : String} {name : Option String} {now : UInt64} {token : PendingToken} {rest : List PendingToken}
  {cert : TrustedCertificate}

theorem grant_of_admissible (h : Admissible c F.certificates pem (wantedName name token) cert) (now : UInt64) :
    ∃ cert', grant c F.certificates token pem cert.fingerprint name now = .ok cert' := by
  obtain ⟨hfp, hfresh, hvalid, -, hfree⟩ := h
  have hfresh' : (F.certificates.any fun c => c.fingerprint == cert.fingerprint) = false := by simpa using hfresh
  have hfree' : (F.certificates.any fun c => c.name == (name.filter fun n => !n.isEmpty).getD token.name) = false := by
    simpa [wantedName] using hfree
  have hvalid' : checkName ((name.filter fun n => !n.isEmpty).getD token.name) = .ok () := hvalid
  cases hder : c.certificateDer pem with
  | error e =>
    unfold Crypto.fingerprintPem at hfp
    rw [hder] at hfp
    cases hfp
  | ok der =>
    unfold grant
    simp only [hfresh', hfree', hvalid', hder]
    exact ⟨_, rfl⟩

/-- How an accepted enrolment ends: the two files are replaced by the sixth and the tenth operation. -/
theorem perform_enroll (htake : takeToken (c.hashSecret secret) F.tokens = some (token, rest))
    (hexpired : token.expired now = false) (hcert : Admissible c F.certificates pem (wantedName name token) cert) :
    ∃ cert', Admissible c F.certificates pem (wantedName name token) cert' ∧ ∀ fate,
      perform c F ⟨.enroll secret pem name now, fate⟩ =
        if !Faulty.lasts 6 fate then (.error ioError, F)
        else if !Faulty.lasts 10 fate then (.error ioError, { F with certificates := F.certificates ++ [cert'] })
        else (.ok (.certificate cert'), { certificates := F.certificates ++ [cert'], tokens := rest }) := by
  obtain ⟨cert', hgrant⟩ := grant_of_admissible hcert now
  refine ⟨cert', (grant_ok hgrant hcert.fingerprint).1, fun fate => ?_⟩
  have hprog : enroll c secret pem name now ⟨F, fate⟩ = (do
      let _ ← tokens
      let _ ← certificates
      writeCertificates (F.certificates ++ [cert'])
      writeTokens rest
      pure cert' : Op TrustedCertificate) ⟨F, fate⟩ := by
    unfold enroll tokens certificates
    rcases Faulty.look_cases ioError (s := ⟨F, fate⟩) with ⟨fate₁, hlook⟩ | hlook
    · rw [Eff.bind_of_ok (hlook _), Eff.bind_of_ok (hlook _)]
      simp only [htake, hexpired, hcert.fingerprint]
      change (Faulty.look ioError Files.certificates >>= _) _ = _
      rcases Faulty.look_cases ioError (S := Files) ⟨F, fate₁⟩ with ⟨fate₂, hlook⟩ | hlook
      · rw [Eff.bind_of_ok (hlook _), Eff.bind_of_ok (hlook _)]
        simp only [hgrant]
        rfl
      · obtain ⟨s, hlook⟩ := hlook
        rw [Eff.bind_of_error (hlook _), Eff.bind_of_error (hlook _)]
    · obtain ⟨s, hlook⟩ := hlook
      rw [Eff.bind_of_error (hlook _), Eff.bind_of_error (hlook _)]
  have hperform : perform c F ⟨.enroll secret pem name now, fate⟩ =
      ((enroll c secret pem name now ⟨F, fate⟩).1.map Reply.certificate,
        (enroll c secret pem name now ⟨F, fate⟩).2.it) := by
    unfold perform runCall
    rcases h : enroll c secret pem name now ⟨F, fate⟩ with ⟨_ | _, s⟩
    · simp only [Eff.bind_of_error h]
      rfl
    · simp only [Eff.bind_of_ok h]
      rfl
  rw [hperform, hprog]
  iterate 10
    rcases fate with _ | ⟨_ | _, fate⟩
    · rfl
    · rfl
  rfl

end Enroll

end Run

/-! ## Two secrets and two certificates -/

def secretA : String := "aaaaaaaaaaaaaaaaaaaaaaaaaaaaaaaaaaaaaaaaaaaaaaaaaaaaaaaaaaaaaaaa"

def secretB : String := "bbbbbbbbbbbbbbbbbbbbbbbbbbbbbbbbbbbbbbbbbbbbbbbbbbbbbbbbbbbbbbbb"

def pemA : String := "-----BEGIN CERTIFICATE-----\nMAMCAQE=\n-----END CERTIFICATE-----\n"

def pemB : String := "-----BEGIN CERTIFICATE-----\nMAMCAQI=\n-----END CERTIFICATE-----\n"

/-- SHA-256 and PEM where the examples use them, and something injective elsewhere. -/
def sampleCrypto : Crypto where
  hashSecret s :=
    if s = secretA then "ffe054fe7ae0cb6dc65c3af9b61d5209f439851db43d0ba5997337df154668eb"
    else if s = secretB then "a0fab1377f49a759b57f63318262ebe89fabfc990e8e93ceac2984561482b9d4"
    else "x" ++ s
  fromPem pem :=
    if pem = pemA then .ok [48, 3, 2, 1, 1]
    else if pem = pemB then .ok [48, 3, 2, 1, 2]
    else .ok (0 :: pem.toByteArray.data.toList)
  fingerprintDer der :=
    if der = [48, 3, 2, 1, 1] then "1b65f68a522c858715f5dd951cd0402dc16691778814bf0759822b7a257421d0"
    else if der = [48, 3, 2, 1, 2] then "714f7108ae1387dc72ec6b79a0c0f8e596205dbc8159d2c538493ba664ed26a9"
    else String.ofList ('x' :: der.map fun b => Char.ofNat b.toNat)
  derToPem der :=
    if der = [48, 3, 2, 1, 1] then pemA else if der = [48, 3, 2, 1, 2] then pemB else ""

theorem sampleCrypto_injective : Function.Injective sampleCrypto.hashSecret := by
  have hx : ∀ s : String, ("x" ++ s).toList.head? = some 'x' := fun s => by simp
  have hne : ∀ {s h : String}, "x" ++ s = h → h.toList.head? = some 'x' := fun heq => heq ▸ hx _
  intro a b heq
  simp only [sampleCrypto] at heq
  split_ifs at heq with ha hb hb ha' hb hb hb hb
  · rw [ha, hb]
  · exact absurd heq (by decide)
  · exact absurd (hne heq.symm) (by decide)
  · exact absurd heq (by decide)
  · rw [ha', hb]
  · exact absurd (hne heq.symm) (by decide)
  · exact absurd (hne heq) (by decide)
  · exact absurd (hne heq) (by decide)
  · exact String.append_right_inj _ |>.mp heq

end Collocate.Trust
