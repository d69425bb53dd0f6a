import Collocate.Trust.Names

/-! # Revoking a certificate by its fingerprint

`remove` takes a name or the beginning of a fingerprint. A full fingerprint is the beginning of no other
one, but it can be a name: both have 64 characters at most, and the letters of the one may stand in the
other. -/
namespace Collocate.Trust
set_option autoImplicit false

def isHexLower (ch : Char) : Bool := Text.isDigit ch || decide ('a' ≤ ch ∧ ch ≤ 'f')

/-- A SHA-256 digest as it is printed. -/
structure HexDigest (s : String) : Prop where
  length : s.toList.length = 64
  digits : ∀ ch ∈ s.toList, isHexLower ch = true

/-! ## Fingerprints that are trusted -/

section Run
variable {c : Crypto} {faults : Prop} {F F' : Files} {call : Call} {reply : Result Reply}

theorem Admissible.hexDigest {certs : List TrustedCertificate} {pem name : String} {cert : TrustedCertificate}
    (h : Admissible c certs pem name cert) (hhex : ∀ der, HexDigest (c.fingerprintDer der)) :
    HexDigest cert.fingerprint := by
  have hfp := h.fingerprint
  unfold Crypto.fingerprintPem at hfp
  cases hder : c.certificateDer pem with
  | error e =>
    rw [hder] at hfp
    cases hfp
  | ok der =>
    rw [hder] at hfp
    have heq : c.fingerprintDer der = cert.fingerprint := Except.ok.inj hfp
    exact heq ▸ hhex der

theorem Step.hexDigests (hstep : Step c faults F call reply F') (hhex : ∀ der, HexDigest (c.fingerprintDer der))
    (h : ∀ cert ∈ F.certificates, HexDigest cert.fingerprint) :
    ∀ cert ∈ F'.certificates, HexDigest cert.fingerprint := by
  have hadd {pem name : String} {new : TrustedCertificate} (hnew : Admissible c F.certificates pem name new) :
      ∀ cert ∈ F.certificates ++ [new], HexDigest cert.fingerprint := by
    intro cert hmem
    rcases List.mem_append.mp hmem with hold | hlast
    · exact h cert hold
    · rw [List.mem_singleton.mp hlast]
      exact hnew.hexDigest hhex
  cases hstep with
  | refused => exact h
  | issued => exact h
  | revoked => exact h
  | added hcert => exact hadd hcert
  | expired => exact h
  | half _ _ _ hcert => exact hadd hcert
  | enrolled _ _ hcert => exact hadd hcert
  | removed => exact fun cert hmem => h cert (List.mem_filter.mp hmem).1

theorem Run.hexDigests {log : Log} (hrun : Run c faults log F) (hhex : ∀ der, HexDigest (c.fingerprintDer der)) :
    ∀ cert ∈ F.certificates, HexDigest cert.fingerprint := by
  induction hrun with
  | start => exact fun _ hmem => absurd hmem List.not_mem_nil
  | next _ hstep ih => exact hstep.hexDigests hhex ih

end Run

/-! ## The key -/

theorem toAsciiLowercase_hex {s : String} (h : HexDigest s) : toAsciiLowercase s = s := by
  have hkept (ch : Char) (hhex : isHexLower ch = true) : Text.isUpper ch = false := by
    rw [← Bool.not_eq_true]
    intro hupper
    have hletter : 'A' ≤ ch ∧ ch ≤ 'Z' := of_decide_eq_true hupper
    unfold isHexLower at hhex
    rw [Bool.or_eq_true] at hhex
    rcases hhex with hdigit | hletter'
    · exact absurd (Char.le_trans hletter.1 (of_decide_eq_true hdigit : '0' ≤ ch ∧ ch ≤ '9').2) (by decide)
    · exact absurd (Char.le_trans (of_decide_eq_true hletter' : 'a' ≤ ch ∧ ch ≤ 'f').1 hletter.2) (by decide)
  have hsame : s.toList.map (fun ch => if Text.isUpper ch then Char.ofNat (ch.toNat + 32) else ch) = s.toList := by
    have hid : s.toList.map (fun ch => if Text.isUpper ch then Char.ofNat (ch.toNat + 32) else ch) = s.toList.map id :=
      List.map_congr_left fun ch hmem => by rw [hkept ch (h.digits ch hmem)]; rfl
    rw [hid, List.map_id]
  unfold toAsciiLowercase
  rw [hsame, String.ofList_toList]

theorem length_le_utf8ByteSize (l : List Char) : l.length ≤ (String.ofList l).utf8ByteSize := by
  induction l with
  | nil => exact Nat.zero_le _
  | cons ch l ih =>
    have hpos := ch.utf8Size_pos
    have hcons : String.ofList (ch :: l) = String.singleton ch ++ String.ofList l := by
      rw [← String.toList_inj]
      simp
    rw [hcons, String.utf8ByteSize_append, String.utf8ByteSize_singleton, List.length_cons]
    omega

/-- A full fingerprint is the beginning of itself only. -/
theorem goesBy_fingerprint {cert other : TrustedCertificate} (hcert : HexDigest cert.fingerprint)
    (hother : HexDigest other.fingerprint) :
    goesBy cert.fingerprint other = true ↔ other.name = cert.fingerprint ∨ other.fingerprint = cert.fingerprint := by
  have hsize : 12 ≤ cert.fingerprint.utf8ByteSize := by
    have hle := length_le_utf8ByteSize cert.fingerprint.toList
    rw [String.ofList_toList, hcert.length] at hle
    omega
  unfold goesBy
  rw [Bool.or_eq_true, Bool.and_eq_true, beq_iff_eq, decide_eq_true_eq, toAsciiLowercase_hex hcert, Text.startsWith_iff]
  refine or_congr_right ⟨?_, fun heq => ⟨hsize, "", by rw [heq]; simp⟩⟩
  rintro ⟨-, rest, hrest⟩
  have hlen := congrArg (fun s : String => s.toList.length) hrest
  simp only [String.toList_append, List.length_append, hother.length, hcert.length] at hlen
  have hnil : rest.toList = [] := List.length_eq_zero_iff.mp (by omega)
  rw [hrest, ← String.toList_inj, String.toList_append, hnil, List.append_nil]

/-! ## Revoking -/

section Remove
variable (c : Crypto) {F : Files} {key : String}

theorem perform_remove_one {cert : TrustedCertificate} (h : F.certificates.filter (goesBy key) = [cert]) :
    perform c F { call := .remove key } =
      (.ok (.certificate cert), { F with certificates := F.certificates.filter fun c => !goesBy key c }) := by
  have hremove : remove key ⟨F, []⟩ =
      (.ok cert, ⟨{ F with certificates := F.certificates.filter fun c => !goesBy key c }, []⟩) := by
    unfold remove certificates
    rw [Eff.bind_of_ok (Faulty.look_nil ioError Files.certificates F)]
    simp only [h]
    rfl
  unfold perform runCall
  simp only [Eff.bind_of_ok hremove]
  rfl

theorem perform_remove_many {a b : TrustedCertificate} {rest : List TrustedCertificate}
    (h : F.certificates.filter (goesBy key) = a :: b :: rest) :
    perform c F { call := .remove key } = (.error (.ambiguous ((a :: b :: rest).map (·.name))), F) := by
  have hremove : remove key ⟨F, []⟩ = (.error (.ambiguous ((a :: b :: rest).map (·.name))), ⟨F, []⟩) := by
    unfold remove certificates
    rw [Eff.bind_of_ok (Faulty.look_nil ioError Files.certificates F)]
    simp only [h]
    rfl
  unfold perform runCall
  simp only [Eff.bind_of_error hremove]

end Remove

/-- Whatever was called before and whatever failed, a trusted certificate is revoked by its fingerprint, and
all others are left in place and in order, exactly if none of them is named after that fingerprint. -/
theorem revoked_by_fingerprint_iff (c : Crypto) (hhex : ∀ der, HexDigest (c.fingerprintDer der))
    (attempts : List Attempt) (before rest : List TrustedCertificate) (cert : TrustedCertificate)
    (htrusted : (after c {} attempts).certificates = before ++ cert :: rest) :
    perform c (after c {} attempts) { call := .remove cert.fingerprint } =
        (.ok (.certificate cert), { after c {} attempts with certificates := before ++ rest }) ↔
      ∀ other ∈ before ++ rest, other.name ≠ cert.fingerprint := by
  have hrun := run_attempts (c := c) attempts
  have hhexes := hrun.hexDigests hhex
  have hdistinct := hrun.distinctNames.fingerprints
  generalize hF : after c {} attempts = F at htrusted hhexes hdistinct ⊢
  rw [htrusted] at hhexes hdistinct
  have hcert : HexDigest cert.fingerprint := hhexes cert (by simp)
  have hmatch (other : TrustedCertificate) (hmem : other ∈ before ++ rest) :
      goesBy cert.fingerprint other = true ↔ other.name = cert.fingerprint := by
    have hin : other ∈ before ++ cert :: rest := by
      rw [List.mem_append, List.mem_cons]
      rcases List.mem_append.mp hmem with h | h
      · exact .inl h
      · exact .inr (.inr h)
    have hother : other.fingerprint ≠ cert.fingerprint := by
      rw [List.map_append, List.map_cons, List.nodup_append, List.nodup_cons] at hdistinct
      rcases List.mem_append.mp hmem with h | h
      · exact hdistinct.2.2 _ (List.mem_map_of_mem h) _ List.mem_cons_self
      · intro heq
        exact hdistinct.2.1.1 (heq ▸ List.mem_map_of_mem h)
    rw [goesBy_fingerprint hcert (hhexes other hin)]
    exact ⟨fun h => h.resolve_right hother, .inl⟩
  have hself : goesBy cert.fingerprint cert = true := (goesBy_fingerprint hcert hcert).mpr (.inr rfl)
  constructor
  · intro hdone other hmem hname
    have hfound : other ∈ (before ++ rest).filter (goesBy cert.fingerprint) :=
      List.mem_filter.mpr ⟨hmem, (hmatch other hmem).mpr hname⟩
    have hlength : 2 ≤ (F.certificates.filter (goesBy cert.fingerprint)).length := by
      have hpos := List.length_pos_of_mem hfound
      rw [List.filter_append, List.length_append] at hpos
      rw [htrusted, List.filter_append, List.filter_cons_of_pos hself, List.length_append, List.length_cons]
      omega
    match hfilter : F.certificates.filter (goesBy cert.fingerprint), hlength with
    | a :: b :: more, _ =>
      rw [perform_remove_many c hfilter] at hdone
      cases hdone
  · intro hnone
    have hempty (l : List TrustedCertificate) (hl : ∀ other ∈ l, other ∈ before ++ rest) :
        l.filter (goesBy cert.fingerprint) = [] ∧ l.filter (fun c => !goesBy cert.fingerprint c) = l := by
      have hfalse : ∀ other ∈ l, ¬ goesBy cert.fingerprint other = true := fun other hmem hgoes =>
        hnone other (hl other hmem) ((hmatch other (hl other hmem)).mp hgoes)
      refine ⟨List.filter_eq_nil_iff.mpr hfalse, List.filter_eq_self.mpr fun other hmem => ?_⟩
      rw [Bool.not_eq_true', ← Bool.not_eq_true]
      exact hfalse other hmem
    obtain ⟨hb, hb'⟩ := hempty before fun _ hmem => List.mem_append_left _ hmem
    obtain ⟨hr, hr'⟩ := hempty rest fun _ hmem => List.mem_append_right _ hmem
    have hone : F.certificates.filter (goesBy cert.fingerprint) = [cert] := by
      rw [htrusted, List.filter_append, List.filter_cons_of_pos hself, hb, hr, List.nil_append]
    have hleft : F.certificates.filter (fun c => !goesBy cert.fingerprint c) = before ++ rest := by
      have hout : ¬ (!goesBy cert.fingerprint cert) = true := by
        rw [hself]
        decide
      rw [htrusted, List.filter_append, List.filter_cons_of_neg (p := fun c => !goesBy cert.fingerprint c) hout,
        hb', hr']
    rw [perform_remove_one c hone, hleft]

/-! ## Two certificates -/

def fingerprintA : String := "1b65f68a522c858715f5dd951cd0402dc16691778814bf0759822b7a257421d0"

def fingerprintB : String := "714f7108ae1387dc72ec6b79a0c0f8e596205dbc8159d2c538493ba664ed26a9"

/-- SHA-256 where the examples use it, and some digest elsewhere. -/
def hexCrypto : Crypto := { sampleCrypto with
  fingerprintDer := fun der =>
    if der = [48, 3, 2, 1, 1] then fingerprintA
    else if der = [48, 3, 2, 1, 2] then fingerprintB
    else "0000000000000000000000000000000000000000000000000000000000000000" }

theorem hexCrypto_hexDigest (der : List UInt8) : HexDigest (hexCrypto.fingerprintDer der) := by
  have hall (s : String) (h : s.toList.length = 64 ∧ s.toList.all isHexLower = true) : HexDigest s :=
    ⟨h.1, List.all_eq_true.mp h.2⟩
  show HexDigest (if der = [48, 3, 2, 1, 1] then fingerprintA else if der = [48, 3, 2, 1, 2] then fingerprintB else _)
  split
  · exact hall _ (by decide +kernel)
  split
  · exact hall _ (by decide +kernel)
  · exact hall _ (by decide +kernel)

/-- Two clients, of whom the second goes by a name of its own choice. -/
def twoClients (name : String) : List Attempt := healthy [
  .addCertificate "alice" pemA .admin [] 100,
  .addCertificate name pemB .viewer [] 101]

def alice : TrustedCertificate := ⟨"alice", fingerprintA, .admin, [], pemA, 100⟩

def second (name : String) : TrustedCertificate := ⟨name, fingerprintB, .viewer, [], pemB, 101⟩

theorem alice_revoked : perform hexCrypto (after hexCrypto {} (twoClients "bob")) { call := .remove fingerprintA } =
    (.ok (.certificate alice), { after hexCrypto {} (twoClients "bob") with certificates := [second "bob"] }) := by
  have htrusted : (after hexCrypto {} (twoClients "bob")).certificates = [] ++ alice ::
    [second "bob"] := by decide +kernel
  refine (revoked_by_fingerprint_iff hexCrypto hexCrypto_hexDigest (twoClients "bob") []
    [second "bob"] alice htrusted).mpr ?_
  decide +kernel

/-- A client named after the fingerprint of another cannot be told from it. -/
theorem alice_not_revoked : (after hexCrypto {} (twoClients fingerprintA)).certificates = [alice, second fingerprintA] ∧
    perform hexCrypto (after hexCrypto {} (twoClients fingerprintA)) { call := .remove fingerprintA } =
      (.error (.ambiguous ["alice", fingerprintA]), after hexCrypto {} (twoClients fingerprintA)) := by
  decide +kernel

end Collocate.Trust
