import Collocate.Lib.Distinct
import Collocate.Trust.Calls

/-! # Names and fingerprints of trusted clients

Names of pending tokens stay distinct, and so do names and fingerprints of certificates. That a name is
never both is what `create_token` and `add_certificate` check; `enroll` only looks at the certificates, so it breaks
when a custom name is the name of another pending token, and when an enrolment stops between its two files. -/
namespace Collocate.Trust
set_option autoImplicit false

/-! ## Steps -/

structure DistinctNames (F : Files) : Prop where
  tokens : (F.tokens.map (·.name)).Nodup
  certificates : (F.certificates.map (·.name)).Nodup
  fingerprints : (F.certificates.map (·.fingerprint)).Nodup

/-- No name is both that of a trusted certificate and of a pending token. -/
def Exclusive (F : Files) : Prop := ∀ cert ∈ F.certificates, ∀ t ∈ F.tokens, cert.name ≠ t.name

variable {c : Crypto} {faults : Prop} {F F' : Files} {call : Call} {reply : Result Reply}

theorem takeToken_sublist {hash : String} {list rest : List PendingToken} {token : PendingToken}
    (h : takeToken hash list = some (token, rest)) : rest.Sublist list := by
  obtain ⟨-, before, after, rfl, rfl⟩ := takeToken_eq_some h
  exact List.Sublist.append_left (List.sublist_cons_self token after) before

theorem takeToken_mem {hash : String} {list rest : List PendingToken} {token : PendingToken}
    (h : takeToken hash list = some (token, rest)) : token ∈ list := by
  obtain ⟨-, before, after, rfl, -⟩ := takeToken_eq_some h
  simp

theorem DistinctNames.add {cert : TrustedCertificate} {pem name : String} (h : DistinctNames F)
    (hcert : Admissible c F.certificates pem name cert) :
    DistinctNames { F with certificates := F.certificates ++ [cert] } where
  tokens := h.tokens
  certificates := Distinct.nodup_map_concat h.certificates fun other ho => hcert.named ▸ hcert.free other ho
  fingerprints := Distinct.nodup_map_concat h.fingerprints hcert.fresh

theorem DistinctNames.shrink {list : List PendingToken} (h : DistinctNames F) (hlist : list.Sublist F.tokens) :
    DistinctNames { F with tokens := list } where
  tokens := h.tokens.sublist (hlist.map _)
  certificates := h.certificates
  fingerprints := h.fingerprints

theorem Step.distinctNames (hstep : Step c faults F call reply F') (h : DistinctNames F) : DistinctNames F' := by
  cases hstep with
  | refused => exact h
  | issued hcerts htokens => exact ⟨Distinct.nodup_map_concat h.tokens htokens, h.certificates, h.fingerprints⟩
  | revoked name => exact h.shrink List.filter_sublist
  | added hcert => exact h.add hcert
  | expired htake => exact h.shrink (takeToken_sublist htake)
  | half _ _ _ hcert => exact h.add hcert
  | enrolled htake _ hcert => exact (h.add hcert).shrink (takeToken_sublist htake)
  | removed key =>
    have hsub : (F.certificates.filter fun c => !goesBy key c).Sublist F.certificates := List.filter_sublist
    exact ⟨h.tokens, h.certificates.sublist (hsub.map _), h.fingerprints.sublist (hsub.map _)⟩

theorem Run.distinctNames {log : Log} (hrun : Run c faults log F) : DistinctNames F := by
  induction hrun with
  | start => exact ⟨List.nodup_nil, List.nodup_nil, List.nodup_nil⟩
  | next _ hstep ih => exact hstep.distinctNames ih

/-! ## Names of certificates against names of tokens -/

variable (c)

/-- The enrolment is accepted and gets to replace `certificates.json`, under the name of a token that is pending after
it: another one or, if `tokens.json` is not replaced any more, any. -/
def Collides (F : Files) (a : Attempt) : Prop :=
  ∃ secret pem name now token rest, a.call = .enroll secret pem name now ∧
    takeToken (c.hashSecret secret) F.tokens = some (token, rest) ∧ token.expired now = false ∧
    (∃ cert, Admissible c F.certificates pem (wantedName name token) cert) ∧ Faulty.lasts 6 a.fate = true ∧
    ∃ t ∈ if Faulty.lasts 10 a.fate then rest else F.tokens, t.name = wantedName name token

variable {c}

theorem Exclusive.shrink {certs : List TrustedCertificate} {list : List PendingToken} (h : Exclusive F)
    (hcerts : certs ⊆ F.certificates) (hlist : list ⊆ F.tokens) : Exclusive ⟨certs, list⟩ :=
  fun cert hc t ht => h cert (hcerts hc) t (hlist ht)

theorem exclusive_concat {certs : List TrustedCertificate} {list : List PendingToken} {cert : TrustedCertificate}
    (h : Exclusive ⟨certs, list⟩) : Exclusive ⟨certs ++ [cert], list⟩ ↔ ¬ ∃ t ∈ list, t.name = cert.name := by
  constructor
  · rintro hexclusive ⟨t, ht, hname⟩
    exact hexclusive cert (List.mem_append_right _ (List.mem_singleton_self cert)) t ht hname.symm
  · intro hnone other ho t ht heq
    rcases List.mem_append.mp ho with ho | ho
    · exact h other ho t ht heq
    · rw [List.mem_singleton.mp ho] at heq
      exact hnone ⟨t, ht, heq.symm⟩

/-- Only an enrolment that is accepted can make a name that of both. -/
theorem Step.exclusive (hstep : Step c faults F call reply F') (h : Exclusive F)
    (henroll : ∀ secret pem name now token rest cert, call = .enroll secret pem name now →
      takeToken (c.hashSecret secret) F.tokens = some (token, rest) → token.expired now = false →
      Admissible c F.certificates pem (wantedName name token) cert → Exclusive F') : Exclusive F' := by
  cases hstep with
  | refused => exact h
  | issued hcerts =>
    intro cert hc t ht
    rcases List.mem_append.mp ht with ht | ht
    · exact h cert hc t ht
    · rw [List.mem_singleton.mp ht]
      exact hcerts cert hc
  | revoked name => exact h.shrink (List.Subset.refl _) (List.filter_subset_self _)
  | added hcert htokens =>
    refine (exclusive_concat h).mpr ?_
    rintro ⟨t, ht, hname⟩
    exact htokens t ht (hname.trans hcert.named)
  | expired htake => exact h.shrink (List.Subset.refl _) (takeToken_sublist htake).subset
  | half _ htake hexpired hcert => exact henroll _ _ _ _ _ _ _ rfl htake hexpired hcert
  | enrolled htake hexpired hcert => exact henroll _ _ _ _ _ _ _ rfl htake hexpired hcert
  | removed key => exact h.shrink (List.filter_subset_self _) (List.Subset.refl _)

/-- An enrolment that is accepted, wherever it is cut off. -/
theorem enroll_exclusive_iff {secret pem : String} {name : Option String} {now : UInt64} {token : PendingToken}
    {rest : List PendingToken} {cert : TrustedCertificate} (h : Exclusive F)
    (htake : takeToken (c.hashSecret secret) F.tokens = some (token, rest)) (hexpired : token.expired now = false)
    (hcert : Admissible c F.certificates pem (wantedName name token) cert) (fate : List Bool) :
    Exclusive (perform c F ⟨.enroll secret pem name now, fate⟩).2 ↔
      ¬ (Faulty.lasts 6 fate = true ∧
        ∃ t ∈ if Faulty.lasts 10 fate then rest else F.tokens, t.name = wantedName name token) := by
  obtain ⟨cert', hcert', hperform⟩ := perform_enroll htake hexpired hcert
  rw [hperform fate, ← hcert'.named]
  cases hsix : Faulty.lasts 6 fate with
  | false =>
    rw [if_pos (by decide)]
    exact iff_of_true h fun hand => Bool.false_ne_true hand.1
  | true =>
    rw [if_neg (by decide), and_iff_right rfl]
    cases hten : Faulty.lasts 10 fate with
    | false =>
      rw [if_pos (by decide), if_neg Bool.false_ne_true]
      exact exclusive_concat h
    | true =>
      rw [if_neg (by decide), if_pos rfl]
      exact exclusive_concat (h.shrink (List.Subset.refl _) (takeToken_sublist htake).subset)

theorem perform_exclusive_iff (h : Exclusive F) (a : Attempt) :
    Exclusive (perform c F a).2 ↔ ¬ Collides c F a := by
  constructor
  · rintro hafter ⟨secret, pem, name, now, token, rest, hcall, htake, hexpired, ⟨cert, hcert⟩, hcollides⟩
    obtain ⟨call, fate⟩ := a
    cases hcall
    exact (enroll_exclusive_iff h htake hexpired hcert fate).mp hafter hcollides
  · intro hclear
    refine (perform_step (c := c) (F := F) True a fun hfalse => absurd trivial hfalse).exclusive h ?_
    intro secret pem name now token rest cert hcall htake hexpired hcert
    obtain ⟨call, fate⟩ := a
    cases hcall
    refine (enroll_exclusive_iff h htake hexpired hcert fate).mpr fun hcollides => hclear ?_
    exact ⟨secret, pem, name, now, token, rest, rfl, htake, hexpired, ⟨cert, hcert⟩, hcollides⟩

theorem exclusive_after {past : List Attempt}
    (h : ∀ pre a post, past = pre ++ a :: post → ¬ Collides c (after c {} pre) a) : Exclusive (after c {} past) := by
  induction past using List.reverseRecOn with
  | nil => exact fun cert hc => absurd hc (List.not_mem_nil)
  | append_singleton past a ih =>
    have hpast := ih fun pre b post heq => h pre b (post ++ [a]) (by rw [heq, List.append_assoc, List.cons_append])
    rw [after_append]
    exact (perform_exclusive_iff hpast a).mpr (h past a [] rfl)

/-- Token names stay distinct whatever is called and whatever fails; a name is never both of a certificate and of a
pending token exactly when no enrolment collides. -/
theorem names_identify_one_client (c : Crypto) (attempts : List Attempt) :
    (∀ past rest, attempts = past ++ rest → ((after c {} past).tokens.map (·.name)).Nodup) ∧
    ((∀ past rest, attempts = past ++ rest → Exclusive (after c {} past)) ↔
      ∀ past a rest, attempts = past ++ a :: rest → ¬ Collides c (after c {} past) a) := by
  refine ⟨fun past rest _ => (run_attempts past).distinctNames.tokens, fun h past a rest heq => ?_, ?_⟩
  · have hnext := h (past ++ [a]) rest (by simp [heq])
    rw [after_append] at hnext
    exact (perform_exclusive_iff (h past (a :: rest) heq) a).mp hnext
  · rintro h past rest rfl
    refine exclusive_after fun pre a post heq => h pre a (post ++ rest) ?_
    rw [heq, List.append_assoc, List.cons_append]

/-- Two pending tokens, `ci` and `ops`; the client with the secret of `ci` enrols as `ops`. -/
def takeOverCalls : List Call := [
  .createToken "ci" .viewer [] none 100 secretA,
  .createToken "ops" .admin [] none 100 secretB,
  .enroll secretA pemA (some "ops") 101]

/-- A token `ci`, and an enrolment with its secret that stops between the two files. -/
def stoppedEnrolment : List Attempt := [
  { call := .createToken "ci" .viewer [] none 100 secretA },
  ⟨.enroll secretA pemA none 101, [true, true, true, true, true, true, false]⟩]

theorem ops_is_client_and_token : ¬ Exclusive (after sampleCrypto {} (healthy takeOverCalls)) ∧
    ¬ Exclusive (after sampleCrypto {} stoppedEnrolment) := by
  have hboth : ∀ attempts ∈ [healthy takeOverCalls, stoppedEnrolment],
      ∃ cert ∈ (after sampleCrypto {} attempts).certificates,
        ∃ t ∈ (after sampleCrypto {} attempts).tokens, cert.name = t.name := by
    decide +kernel
  have hshared : ∀ attempts ∈ [healthy takeOverCalls, stoppedEnrolment],
      ¬ Exclusive (after sampleCrypto {} attempts) := by
    intro attempts hmem hexclusive
    obtain ⟨cert, hc, t, ht, heq⟩ := hboth attempts hmem
    exact hexclusive cert hc t ht heq
  exact ⟨hshared _ (by simp), hshared _ (by simp)⟩

end Collocate.Trust
