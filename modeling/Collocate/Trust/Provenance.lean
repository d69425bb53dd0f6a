import Collocate.Lib.Along
import Collocate.Trust.Names

/-! # Where trust comes from

The log of all calls and replies against the files: each pending token was issued by a `create_token` in
the log, and its secret has neither been spent nor revoked there; each certificate was added as such or
admitted by a token that was issued. -/
namespace Collocate.Trust
set_option autoImplicit false

/-! ## What a log says -/

/-- `create_token` gave out `secret` for the token `t`. -/
def Issued (log : Log) (secret : String) (t : PendingToken) : Prop :=
  ∃ name role projects expirySecs now, (Call.createToken name role projects expirySecs now secret, .ok (.token t)) ∈ log

/-- `enroll` with `secret` succeeded. -/
def Spent (log : Log) (secret : String) : Prop :=
  ∃ pem name now cert, (Call.enroll secret pem name now, .ok (.certificate cert)) ∈ log

/-- The token of `secret` was revoked after it was issued. -/
def Revoked (log : Log) (secret : String) : Prop :=
  ∃ past t later, log = past ++ (.revokeToken t.name, .ok .done) :: later ∧ Issued past secret t

/-- Why `cert` is trusted. -/
inductive Origin (log : Log) (cert : TrustedCertificate) : Prop
  | added (name pem : String) (now : UInt64)
    (h : (.addCertificate name pem cert.role cert.projects now, .ok (.certificate cert)) ∈ log) : Origin log cert
  | admitted (secret pem : String) (name : Option String) (now : UInt64) (t : PendingToken)
    (h : (.enroll secret pem name now, .ok (.certificate cert)) ∈ log) (hissued : Issued log secret t)
    (hrole : cert.role = t.role) (hprojects : cert.projects = t.projects) : Origin log cert

/-- The secret that a call generated. -/
def generatedBy : Call × Result Reply → Option String
  | (.createToken _ _ _ _ _ secret, .ok _) => some secret
  | _ => none

def generated (log : Log) : List String := log.filterMap generatedBy

section Log
variable {log : Log} {entry : Call × Result Reply} {secret : String} {t : PendingToken}

theorem issued_concat : Issued (log ++ [entry]) secret t ↔ Issued log secret t ∨
    ∃ name role projects expirySecs now,
      entry = (.createToken name role projects expirySecs now secret, .ok (.token t)) := by
  simp only [Issued, List.mem_append, List.mem_singleton, eq_comm (b := entry), exists_or]

theorem spent_concat : Spent (log ++ [entry]) secret ↔ Spent log secret ∨
    ∃ pem name now cert, entry = (.enroll secret pem name now, .ok (.certificate cert)) := by
  simp only [Spent, List.mem_append, List.mem_singleton, eq_comm (b := entry), exists_or]

theorem revoked_concat : Revoked (log ++ [entry]) secret ↔ Revoked log secret ∨
    ∃ t, entry = (.revokeToken t.name, .ok .done) ∧ Issued log secret t := by
  constructor
  · rintro ⟨past, t, later, heq, hissued⟩
    rcases List.eq_nil_or_concat later with rfl | ⟨later, last, rfl⟩
    · obtain ⟨rfl, hlast⟩ := List.append_inj' heq rfl
      exact .inr ⟨t, List.singleton_inj.mp hlast, hissued⟩
    · have hsplit : log ++ [entry] = (past ++ (.revokeToken t.name, .ok .done) :: later) ++ [last] := by simp [heq]
      exact .inl ⟨past, t, later, (List.append_inj' hsplit rfl).1, hissued⟩
  · rintro (⟨past, t, later, rfl, hissued⟩ | ⟨t, rfl, hissued⟩)
    · exact ⟨past, t, later ++ [entry], by simp, hissued⟩
    · exact ⟨log, t, [], rfl, hissued⟩

theorem Issued.mono (h : Issued log secret t) : Issued (log ++ [entry]) secret t := issued_concat.mpr (.inl h)

theorem Issued.generated (h : Issued log secret t) : secret ∈ generated log := by
  obtain ⟨name, role, projects, expirySecs, now, hmem⟩ := h
  exact List.mem_filterMap.mpr ⟨_, hmem, rfl⟩

theorem Issued.unique {t' : PendingToken} (hgen : (Trust.generated log).Nodup) (h : Issued log secret t)
    (h' : Issued log secret t') : t = t' := by
  obtain ⟨name, role, projects, expirySecs, now, hmem⟩ := h
  obtain ⟨name', role', projects', expirySecs', now', hmem'⟩ := h'
  have heq := Distinct.eq_of_nodup_filterMap hgen hmem hmem' rfl rfl
  cases heq
  rfl

theorem Origin.mono {cert : TrustedCertificate} (h : Origin log cert) : Origin (log ++ [entry]) cert := by
  cases h with
  | added name pem now h => exact .added name pem now (List.mem_append_left _ h)
  | admitted secret pem name now t h hissued hrole hprojects =>
    exact .admitted secret pem name now t (List.mem_append_left _ h) hissued.mono hrole hprojects

theorem generated_concat (log : Log) (entry : Call × Result Reply) :
    generated (log ++ [entry]) = generated log ++ (generatedBy entry).toList := by
  unfold generated
  rw [List.filterMap_append]
  cases h : generatedBy entry <;> simp [h]

end Log

/-! ## The ledger -/

variable (c : Crypto)

/-- `t` may still be used: its secret was given out for it, and neither spent nor revoked since. -/
def Pending (log : Log) (t : PendingToken) : Prop :=
  ∃ secret, t.secretHash = c.hashSecret secret ∧ Issued log secret t ∧ ¬ Spent log secret ∧ ¬ Revoked log secret

structure Ledger (log : Log) (F : Files) : Prop where
  pending : ∀ t ∈ F.tokens, Pending c log t
  hashes : (F.tokens.map (·.secretHash)).Nodup
  spent : ∀ secret, Spent log secret → ∃ t, Issued log secret t

section Ledger
variable {c} {log : Log} {F F' : Files} {faults : Prop} {call : Call} {reply : Result Reply}
  {entry : Call × Result Reply} {t : PendingToken}

theorem Pending.keep (h : Pending c log t) (hgen : (generated log).Nodup)
    (hspent : ∀ secret pem name now cert, entry = (.enroll secret pem name now, .ok (.certificate cert)) →
      t.secretHash ≠ c.hashSecret secret)
    (hrevoked : entry ≠ (.revokeToken t.name, .ok .done)) : Pending c (log ++ [entry]) t := by
  obtain ⟨secret, hhash, hissued, hunspent, hunrevoked⟩ := h
  refine ⟨secret, hhash, hissued.mono, fun hsp => ?_, fun hrev => ?_⟩
  · rcases spent_concat.mp hsp with hsp | ⟨pem, name, now, cert, heq⟩
    · exact hunspent hsp
    · exact hspent secret pem name now cert heq hhash
  · rcases revoked_concat.mp hrev with hrev | ⟨t', heq, hissued'⟩
    · exact hunrevoked hrev
    · rw [hissued.unique hgen hissued'] at hrevoked
      exact hrevoked heq

/-- The secret behind a pending token is the one it is asked for with. -/
theorem Pending.issued (hinj : Function.Injective c.hashSecret) (h : Pending c log t) {secret : String}
    (hhash : t.secretHash = c.hashSecret secret) :
    Issued log secret t ∧ ¬ Spent log secret ∧ ¬ Revoked log secret := by
  obtain ⟨secret', hhash', h⟩ := h
  cases hinj (hhash.symm.trans hhash')
  exact h

theorem hash_not_in_rest {hash : String} {token : PendingToken} {rest : List PendingToken}
    (hhashes : (F.tokens.map (·.secretHash)).Nodup) (htake : takeToken hash F.tokens = some (token, rest)) :
    ∀ t ∈ rest, t.secretHash ≠ hash := by
  obtain ⟨rfl, before, after, hlist, rfl⟩ := takeToken_eq_some htake
  rw [hlist, List.map_append, List.map_cons, List.nodup_middle, List.nodup_cons, ← List.map_append] at hhashes
  exact fun t ht heq => hhashes.1 (List.mem_map.mpr ⟨t, ht, heq⟩)

/-- A secret that is new was never spent nor revoked. -/
theorem Ledger.unused (h : Ledger c log F) {secret : String} (hnew : secret ∉ generated log) :
    ¬ Spent log secret ∧ ¬ Revoked log secret := by
  refine ⟨fun hspent => ?_, ?_⟩
  · obtain ⟨t, hissued⟩ := h.spent secret hspent
    exact hnew hissued.generated
  · rintro ⟨past, t, later, rfl, name, role, projects, expirySecs, now, hmem⟩
    have hissued : Issued (past ++ (.revokeToken t.name, .ok .done) :: later) secret t :=
      ⟨name, role, projects, expirySecs, now, List.mem_append_left _ hmem⟩
    exact hnew hissued.generated

theorem Ledger.issue (h : Ledger c log F) (hinj : Function.Injective c.hashSecret) {name : String} {role : Role}
    {projects : List String} {expirySecs : Option UInt64} {now : UInt64} {secret : String}
    (hentry : entry = (.createToken name role projects expirySecs now secret,
      .ok (.token (newToken c name role projects expirySecs now secret))))
    (hgen : (generated (log ++ [entry])).Nodup) :
    Ledger c (log ++ [entry]) { F with tokens := F.tokens ++
      [newToken c name role projects expirySecs now secret] } := by
  subst hentry
  rw [generated_concat, List.nodup_append] at hgen
  have hnew : secret ∉ generated log := fun hmem => hgen.2.2 secret hmem secret (by simp [generatedBy]) rfl
  obtain ⟨hunspent, hunrevoked⟩ := h.unused hnew
  refine ⟨fun t ht => ?_, Distinct.nodup_map_concat h.hashes fun t ht heq => ?_, fun secret' hspent => ?_⟩
  · rcases List.mem_append.mp ht with ht | ht
    · exact (h.pending t ht).keep hgen.1 nofun nofun
    · rw [List.mem_singleton.mp ht]
      refine ⟨secret, rfl, issued_concat.mpr (.inr ⟨name, role, projects, expirySecs, now, rfl⟩), fun hspent => ?_,
        fun hrevoked => ?_⟩
      · exact (spent_concat.mp hspent).elim hunspent nofun
      · exact (revoked_concat.mp hrevoked).elim hunrevoked nofun
  · exact hnew ((h.pending t ht).issued hinj heq).1.generated
  · obtain ⟨t, hissued⟩ := h.spent secret' ((spent_concat.mp hspent).resolve_right nofun)
    exact ⟨t, hissued.mono⟩

/-- Tokens are only taken away, and those that stay are not those of the entry. -/
theorem Ledger.shrink (h : Ledger c log F) (hgen : (generated log).Nodup) {certs : List TrustedCertificate}
    {list : List PendingToken} (hsub : list.Sublist F.tokens)
    (hspent : ∀ secret pem name now cert, entry = (.enroll secret pem name now, .ok (.certificate cert)) →
      (∃ t, Issued log secret t) ∧ ∀ t ∈ list, t.secretHash ≠ c.hashSecret secret)
    (hrevoked : ∀ t ∈ list, entry ≠ (.revokeToken t.name, .ok .done)) :
    Ledger c (log ++ [entry]) ⟨certs, list⟩ := by
  refine ⟨fun t ht => ?_, h.hashes.sublist (hsub.map _), fun secret hsp => ?_⟩
  · exact (h.pending t (hsub.subset ht)).keep hgen
      (fun secret pem name now cert heq => (hspent secret pem name now cert heq).2 t ht) (hrevoked t ht)
  · rcases spent_concat.mp hsp with hsp | ⟨pem, name, now, cert, heq⟩
    · obtain ⟨t, hissued⟩ := h.spent secret hsp
      exact ⟨t, hissued.mono⟩
    · obtain ⟨t, hissued⟩ := (hspent secret pem name now cert heq).1
      exact ⟨t, hissued.mono⟩

theorem Ledger.step (h : Ledger c log F) (hinj : Function.Injective c.hashSecret)
    (hgen : (generated (log ++ [(call, reply)])).Nodup) (hstep : Step c faults F call reply F') :
    Ledger c (log ++ [(call, reply)]) F' := by
  have hgen' : (generated log).Nodup := by
    rw [generated_concat] at hgen
    exact hgen.of_append_left
  cases hstep with
  | refused => exact h.shrink hgen' (List.Sublist.refl _) nofun nofun
  | issued => exact h.issue hinj rfl hgen
  | revoked name =>
    refine h.shrink hgen' List.filter_sublist nofun fun t ht heq => ?_
    obtain ⟨-, hne⟩ := List.mem_filter.mp ht
    cases heq
    simp at hne
  | added => exact h.shrink hgen' (List.Sublist.refl _) nofun nofun
  | expired htake => exact h.shrink hgen' (takeToken_sublist htake) nofun nofun
  | half => exact h.shrink hgen' (List.Sublist.refl _) nofun nofun
  | enrolled htake =>
    refine h.shrink hgen' (takeToken_sublist htake) (fun secret pem name now cert heq => ?_) nofun
    cases heq
    have hpending := h.pending _ (takeToken_mem htake)
    exact ⟨⟨_, (hpending.issued hinj (takeToken_eq_some htake).1).1⟩, hash_not_in_rest h.hashes htake⟩
  | removed => exact h.shrink hgen' (List.Sublist.refl _) nofun nofun

theorem Run.ledger (hrun : Run c faults log F) (hinj : Function.Injective c.hashSecret)
    (hgen : (generated log).Nodup) : Ledger c log F := by
  induction hrun with
  | start => exact ⟨nofun, List.nodup_nil, nofun⟩
  | next hrun hstep ih =>
    have hgen' := hgen
    rw [generated_concat] at hgen'
    exact (ih hgen'.of_append_left).step hinj hgen hstep

/-! ## Successful enrolments and certificates -/

/-- An enrolment that succeeds uses a secret for the first time, of a token that is neither revoked nor
past its `expires_at`. -/
def Lawful (past : Log) (entry : Call × Result Reply) : Prop :=
  ∀ secret pem name now cert, entry = (.enroll secret pem name now, .ok (.certificate cert)) →
    ¬ Spent past secret ∧ ¬ Revoked past secret ∧ ∃ t, Issued past secret t ∧ ∀ e, t.expiresAt = some e → now < e

theorem lt_of_not_expired {now e : UInt64} (h : t.expired now = false) (he : t.expiresAt = some e) : now < e := by
  unfold PendingToken.expired at h
  rw [he] at h
  simpa using h

theorem Ledger.lawful (h : Ledger c log F) (hinj : Function.Injective c.hashSecret)
    (hstep : Step c faults F call reply F') : Lawful log (call, reply) := by
  intro secret pem name now cert heq
  cases hstep <;> cases heq
  rename_i token rest htake hexpired hcert hrole hprojects
  obtain ⟨hissued, hspent, hrevoked⟩ := (h.pending _ (takeToken_mem htake)).issued hinj (takeToken_eq_some htake).1
  exact ⟨hspent, hrevoked, token, hissued, fun e he => lt_of_not_expired hexpired he⟩

theorem Run.lawful (hrun : Run c faults log F) (hinj : Function.Injective c.hashSecret)
    (hgen : (generated log).Nodup) : Along Lawful log := by
  induction hrun with
  | start => exact along_nil
  | next hrun hstep ih =>
    rw [generated_concat] at hgen
    have hgen' := hgen.of_append_left
    exact along_concat.mpr ⟨ih hgen', (hrun.ledger hinj hgen').lawful hinj hstep⟩

theorem Ledger.origin (h : Ledger c log F) (hinj : Function.Injective c.hashSecret)
    (horigin : ∀ cert ∈ F.certificates, Origin log cert) (hstep : Step c False F call reply F') :
    ∀ cert ∈ F'.certificates, Origin (log ++ [(call, reply)]) cert := by
  have hlast : (call, reply) ∈ log ++ [(call, reply)] := by simp
  have hmono : ∀ cert ∈ F.certificates, Origin (log ++ [(call, reply)]) cert := fun cert hc => (horigin cert hc).mono
  cases hstep with
  | refused | issued | revoked | expired => exact hmono
  | half hfalse => exact hfalse.elim
  | added hcert htokens hrole hprojects =>
    intro cert hc
    rcases List.mem_append.mp hc with hc | hc
    · exact hmono cert hc
    · rw [List.mem_singleton.mp hc]
      subst hrole hprojects
      exact .added _ _ _ hlast
  | enrolled htake hexpired hcert hrole hprojects =>
    intro cert hc
    rcases List.mem_append.mp hc with hc | hc
    · exact hmono cert hc
    · rw [List.mem_singleton.mp hc]
      have hissued := ((h.pending _ (takeToken_mem htake)).issued hinj (takeToken_eq_some htake).1).1
      exact .admitted _ _ _ _ _ hlast hissued.mono hrole hprojects
  | removed => exact fun cert hc => hmono cert (List.mem_of_mem_filter hc)

theorem Run.origin (hrun : Run c False log F) (hinj : Function.Injective c.hashSecret)
    (hgen : (generated log).Nodup) : ∀ cert ∈ F.certificates, Origin log cert := by
  induction hrun with
  | start => exact nofun
  | next hrun hstep ih =>
    rw [generated_concat] at hgen
    have hgen' := hgen.of_append_left
    exact (hrun.ledger hinj hgen').origin hinj (ih hgen') hstep

/-! ## Enrolments that fail -/

/-- All that an enrolment refused with `e` may have changed: a token that has expired is gone. -/
def FailsCleanly (c : Crypto) (F : Files) (secret : String) (now : UInt64) (e : Error) (F' : Files) : Prop :=
  (e ≠ expiredError → F' = F) ∧
  (e = expiredError → F'.certificates = F.certificates ∧ ∃ before t later,
    F.tokens = before ++ t :: later ∧ F'.tokens = before ++ later ∧
    t.secretHash = c.hashSecret secret ∧ t.expired now = true)

theorem Step.failsCleanly {secret pem : String} {name : Option String} {now : UInt64} {e : Error}
    (hstep : Step c False F (.enroll secret pem name now) (.error e) F') : FailsCleanly c F secret now e F' := by
  cases hstep with
  | refused _ he => exact ⟨fun _ => rfl, fun h => absurd h he⟩
  | expired htake hexpired =>
    obtain ⟨hhash, before, after, hlist, rfl⟩ := takeToken_eq_some htake
    exact ⟨fun h => absurd rfl h, fun _ => ⟨rfl, before, _, after, hlist, rfl, hhash, hexpired⟩⟩
  | half hfalse => exact hfalse.elim

end Ledger

/-- Each secret leads to at most one enrolment, while its token is neither revoked nor expired; trusted
certificates have the rights of the call or the token they came with, under distinct names and
fingerprints; and an enrolment that fails changes nothing, except that an expired token goes. -/
theorem enrolment_provenance (c : Crypto) (hinj : Function.Injective c.hashSecret) (calls : List Call)
    (hgen : (generated (history c {} (healthy calls))).Nodup) :
    Along Lawful (history c {} (healthy calls)) ∧
    (∀ cert ∈ (after c {} (healthy calls)).certificates, Origin (history c {} (healthy calls)) cert) ∧
    ((after c {} (healthy calls)).certificates.map (·.fingerprint)).Nodup ∧
    ((after c {} (healthy calls)).certificates.map (·.name)).Nodup ∧
    ∀ secret pem name now e F', perform c (after c {} (healthy calls)) { call := .enroll secret pem name now } =
      (.error e, F') → FailsCleanly c (after c {} (healthy calls)) secret now e F' := by
  have hrun := run_healthy (c := c) calls
  refine ⟨hrun.lawful hinj hgen, hrun.origin hinj hgen, hrun.distinctNames.fingerprints,
    hrun.distinctNames.certificates, fun secret pem name now e F' heq => ?_⟩
  have hstep := perform_step (c := c) (F := after c {} (healthy calls)) False
    { call := .enroll secret pem name now } fun _ => rfl
  rw [heq] at hstep
  exact hstep.failsCleanly

/-- A client enrols just before its token expires; the other token is revoked before it is used. -/
def renamedCalls : List Call := [
  .createToken "fresh" .operator ["web"] (some 60) 1000 secretA,
  .createToken "gone" .admin [] none 1000 secretB,
  .enroll secretA pemA (some "renamed") 1059,
  .revokeToken "gone",
  .enroll secretB pemB none 1060]

theorem renamed_provenance : Function.Injective sampleCrypto.hashSecret ∧
    (generated (history sampleCrypto {} (healthy renamedCalls))).Nodup ∧
    Along Lawful (history sampleCrypto {} (healthy renamedCalls)) ∧
    (∀ cert ∈ (after sampleCrypto {} (healthy renamedCalls)).certificates,
      Origin (history sampleCrypto {} (healthy renamedCalls)) cert) ∧
    (after sampleCrypto {} (healthy renamedCalls)).certificates.map (·.name) = ["renamed"] := by
  have hgen : (generated (history sampleCrypto {} (healthy renamedCalls))).Nodup := by decide +kernel
  have h := enrolment_provenance sampleCrypto sampleCrypto_injective renamedCalls hgen
  exact ⟨sampleCrypto_injective, hgen, h.1, h.2.1, by decide +kernel⟩

end Collocate.Trust
