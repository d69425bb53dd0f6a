import Collocate.Trust.Provenance

/-! # Enrolments that are cut off

`enroll` replaces `certificates.json` first and `tokens.json` after it. An enrolment that stops between
the two has trusted its client and left the token pending, for anyone who has the secret. -/
namespace Collocate.Trust
set_option autoImplicit false

variable (c : Crypto)

/-- If the enrolment, cut off when the storage fails, has added a certificate, then no later enrolment
with its secret brings in another certificate under another name, whatever is called in between. -/
def StaysSpent (before : List Attempt) (secret pem : String) (name : Option String) (now : UInt64)
    (fate : List Bool) : Prop :=
  let F := after c {} before
  let first : Attempt := ⟨.enroll secret pem name now, fate⟩
  ∀ cert, (perform c F first).2.certificates = F.certificates ++ [cert] →
    ∀ more pem' name' now' cert' F', (generated (history c {} (before ++ first :: more))).Nodup →
      perform c (after c {} (before ++ first :: more)) { call := .enroll secret pem' name' now' } =
        (.ok (.certificate cert'), F') →
      ¬ (cert'.fingerprint ≠ cert.fingerprint ∧ cert'.name ≠ cert.name)

/-- The enrolment is accepted, and the storage fails after the certificates and before the tokens are replaced. -/
def Torn (F : Files) (pem name : String) (fate : List Bool) : Prop :=
  (∃ cert, Admissible c F.certificates pem name cert) ∧ Faulty.lasts 6 fate = true ∧ Faulty.lasts 10 fate = false

/-- There is another certificate that is not trusted yet, and another valid name that is free. -/
def SecondClient (F : Files) (pem name : String) : Prop :=
  ∃ pem' fp n, c.fingerprintPem pem' = .ok fp ∧ c.fingerprintPem pem ≠ .ok fp ∧ checkName n = .ok () ∧ n ≠ name ∧
    ∀ other ∈ F.certificates, other.fingerprint ≠ fp ∧ other.name ≠ n

section Torn
variable {c} {before : List Attempt} {secret pem : String} {name : Option String} {now : UInt64} {fate : List Bool}
  {token : PendingToken} {rest : List PendingToken}

theorem history_append (F : Files) (a b : List Attempt) :
    history c F (a ++ b) = history c F a ++ history c (after c F a) b := by
  induction a generalizing F with
  | nil => rfl
  | cons x a ih =>
    show _ :: history c _ (a ++ b) = _
    rw [ih]
    rfl

theorem wantedName_custom {n : String} (hn : checkName n = .ok ()) (t : PendingToken) : wantedName (some n) t = n := by
  have hempty : n ≠ "" := by
    rintro rfl
    cases hn
  simp [wantedName, Option.filter, hempty]

/-- Only an enrolment that is accepted adds a certificate. -/
theorem Step.admissible {faults : Prop} {F F' : Files} {reply : Result Reply} {cert : TrustedCertificate}
    (hstep : Step c faults F (.enroll secret pem name now) reply F')
    (htake : takeToken (c.hashSecret secret) F.tokens = some (token, rest))
    (hadded : F'.certificates = F.certificates ++ [cert]) :
    ∃ cert, Admissible c F.certificates pem (wantedName name token) cert := by
  have hsame : ∀ {list : List TrustedCertificate}, list ≠ list ++ [cert] := fun heq => by simp at heq
  cases hstep with
  | refused => exact absurd hadded hsame
  | expired => exact absurd hadded hsame
  | half _ htake' _ hcert =>
    cases htake.symm.trans htake'
    exact ⟨_, hcert⟩
  | enrolled htake' _ hcert =>
    cases htake.symm.trans htake'
    exact ⟨_, hcert⟩

/-- What a torn enrolment leaves admits any other certificate under any free name. -/
theorem not_staysSpent (htake : takeToken (c.hashSecret secret) (after c {} before).tokens = some (token, rest))
    (hexpired : token.expired now = false) (hgen : (generated (history c {} before)).Nodup)
    (hsecond : SecondClient c (after c {} before) pem (wantedName name token))
    (htorn : Torn c (after c {} before) pem (wantedName name token) fate) :
    ¬ StaysSpent c before secret pem name now fate := by
  obtain ⟨⟨cert₀, hcert₀⟩, hsix, hten⟩ := htorn
  obtain ⟨cert, hcert, hperform⟩ := perform_enroll htake hexpired hcert₀
  have hfirst := hperform fate
  simp only [hsix, hten, Bool.not_true, Bool.not_false, Bool.false_eq_true, if_true, if_false] at hfirst
  obtain ⟨pem', fp, n, hfp, hpem, hvalid, hother, hfree⟩ := hsecond
  intro hspent
  have hafter : after c {} (before ++ [⟨.enroll secret pem name now, fate⟩]) =
      { after c {} before with certificates := (after c {} before).certificates ++ [cert] } := by
    rw [after_append]
    exact congrArg Prod.snd hfirst
  -- The second client: a new certificate under the free name, with the token still there.
  have hcert' : Admissible c ((after c {} before).certificates ++ [cert]) pem' (wantedName (some n) token)
      ⟨n, fp, token.role, token.projects, "", now⟩ := by
    rw [wantedName_custom hvalid]
    refine ⟨hfp, fun other ho => ?_, hvalid, rfl, fun other ho => ?_⟩ <;> rcases List.mem_append.mp ho with ho | ho
    · exact (hfree other ho).1
    · rw [List.mem_singleton.mp ho]
      exact fun heq => hpem (hcert.fingerprint.trans (congrArg _ heq))
    · exact (hfree other ho).2
    · rw [List.mem_singleton.mp ho, hcert.named]
      exact hother.symm
  obtain ⟨cert', hcert', hperform'⟩ := perform_enroll (c := c)
    (F := { after c {} before with certificates := (after c {} before).certificates ++ [cert] }) htake hexpired hcert'
  have hsecond := hperform' []
  rw [if_neg (by decide), if_neg (by decide)] at hsecond
  refine hspent cert (by rw [hfirst]) [] pem' (some n) now cert' _ ?_ (by rw [hafter]; exact hsecond) ⟨?_, ?_⟩
  · rw [history_append, show history c (after c {} before) [⟨.enroll secret pem name now, fate⟩] = [_] from rfl,
      generated_concat]
    simpa [generatedBy] using hgen
  · exact (hcert'.fresh cert (by simp)).symm
  · rw [hcert'.named, hcert.named, wantedName_custom hvalid]
    exact hother

/-- An enrolment that is not torn has spent the secret if it added a certificate. -/
theorem staysSpent_of_not_torn (hinj : Function.Injective c.hashSecret)
    (htake : takeToken (c.hashSecret secret) (after c {} before).tokens = some (token, rest))
    (hexpired : token.expired now = false) (htorn : ¬ Torn c (after c {} before) pem (wantedName name token) fate) :
    StaysSpent c before secret pem name now fate := by
  intro cert hadded more pem' name' now' cert' F' hgen hsecond
  have hstep := perform_step (c := c) (F := after c {} before) True
    ⟨.enroll secret pem name now, fate⟩ fun h => absurd trivial h
  obtain ⟨cert₀, hcert₀⟩ := hstep.admissible htake hadded
  obtain ⟨cert₁, -, hperform⟩ := perform_enroll htake hexpired hcert₀
  have hfirst := hperform fate
  cases hsix : Faulty.lasts 6 fate with
  | true =>
    cases hten : Faulty.lasts 10 fate with
    | true =>
      simp only [hsix, hten, Bool.not_true, Bool.false_eq_true, if_false] at hfirst
      have hlater := ((run_attempts (c := c) (before ++ _ :: more)).ledger hinj hgen).lawful hinj
        (perform_step (c := c) True { call := .enroll secret pem' name' now' } fun h => absurd trivial h)
      rw [hsecond] at hlater
      have hunspent := (hlater secret pem' name' now' cert' rfl).1
      refine absurd ⟨pem, name, now, cert₁, ?_⟩ hunspent
      rw [history_append]
      refine List.mem_append_right _ ?_
      exact List.mem_cons.mpr (.inl (Prod.ext rfl (congrArg Prod.fst hfirst).symm))
    | false => exact absurd ⟨⟨cert₀, hcert₀⟩, hsix, hten⟩ htorn
  | false =>
    simp only [hsix, Bool.not_false, if_true] at hfirst
    rw [hfirst] at hadded
    simp at hadded

end Torn

/-- A secret stays spent exactly when its enrolment is not torn. -/
theorem staysSpent_iff (c : Crypto) (hinj : Function.Injective c.hashSecret) (before : List Attempt)
    (hgen : (generated (history c {} before)).Nodup) (secret pem : String) (name : Option String) (now : UInt64)
    (fate : List Bool) (token : PendingToken) (rest : List PendingToken)
    (htake : takeToken (c.hashSecret secret) (after c {} before).tokens = some (token, rest))
    (hexpired : token.expired now = false) (hsecond : SecondClient c (after c {} before) pem (wantedName name token)) :
    StaysSpent c before secret pem name now fate ↔
      ¬ Torn c (after c {} before) pem (wantedName name token) fate :=
  ⟨fun hspent htorn => not_staysSpent htake hexpired hgen hsecond htorn hspent,
    staysSpent_of_not_torn hinj htake hexpired⟩

def ciToken : PendingToken :=
  ⟨"ci", "ffe054fe7ae0cb6dc65c3af9b61d5209f439851db43d0ba5997337df154668eb", .viewer, ["web"], 100, none⟩

def ciIssued : List Attempt := [{ call := .createToken "ci" .viewer ["web"] none 100 secretA }]

theorem ci_second_client : SecondClient sampleCrypto (after sampleCrypto {} ciIssued) pemA "ci" :=
  ⟨pemB, "714f7108ae1387dc72ec6b79a0c0f8e596205dbc8159d2c538493ba664ed26a9", "intruder", by decide +kernel⟩

def ciClient : TrustedCertificate :=
  ⟨"ci", "1b65f68a522c858715f5dd951cd0402dc16691778814bf0759822b7a257421d0", .viewer, ["web"], pemA, 101⟩

/-- Cut off right after `tokens.json` is replaced, the enrolment has trusted its client and spent the secret. -/
theorem ci_stays_spent :
    (perform sampleCrypto (after sampleCrypto {} ciIssued)
      ⟨.enroll secretA pemA none 101, List.replicate 10 true ++ [false]⟩).2 = ⟨[ciClient], []⟩ ∧
    StaysSpent sampleCrypto ciIssued secretA pemA none 101 (List.replicate 10 true ++ [false]) :=
  ⟨by decide +kernel, (staysSpent_iff sampleCrypto sampleCrypto_injective ciIssued (by decide +kernel) secretA pemA
    none 101 (List.replicate 10 true ++ [false]) ciToken [] (by decide +kernel) (by decide +kernel)
    ci_second_client).mpr fun htorn => Bool.false_ne_true (htorn.2.2.symm.trans (by decide))⟩

/-- Cut off right after `certificates.json` is replaced, the secret brings in a second client. -/
theorem ci_spent_twice :
    ¬ StaysSpent sampleCrypto ciIssued secretA pemA none 101 [true, true, true, true, true, true, false] := by
  intro hspent
  have hsecond : ∃ cert', (perform sampleCrypto
      (after sampleCrypto {}
        (ciIssued ++ [⟨.enroll secretA pemA none 101, [true, true, true, true, true, true, false]⟩]))
      { call := .enroll secretA pemB (some "intruder") 102 }).1 = .ok (.certificate cert') ∧
        cert'.fingerprint ≠ "1b65f68a522c858715f5dd951cd0402dc16691778814bf0759822b7a257421d0" ∧ cert'.name ≠ "ci" :=
    ⟨⟨"intruder", "714f7108ae1387dc72ec6b79a0c0f8e596205dbc8159d2c538493ba664ed26a9", .viewer, ["web"], pemB, 102⟩,
      by decide +kernel⟩
  obtain ⟨cert', hok, hdiffers⟩ := hsecond
  refine hspent ciClient (by decide +kernel) [] pemB (some "intruder") 102 cert' _ (by decide +kernel)
    (Prod.ext hok rfl) hdiffers

end Collocate.Trust
