import Collocate.Registry.Client

/-! # What a pull by digest pins down

`resolve_manifest` checks a manifest against the digest that named it, but takes an index as it
comes. The two ways to an accepted manifest are named here by what the registry answers, and the
guarantee of a pull by digest is compared with them. -/
namespace Collocate.Registry
set_option autoImplicit false

/-- A pull by digest: the registry behind it, the client and its connection. -/
structure Pull where
  Net : Type
  http : Http Net
  client : Client
  repo : String
  creds : Credentials
  conn : Conn Net

namespace Pull

def resolve (p : Pull) (x : Codec) (d : String) : Except Error (String × Manifest) × Conn p.Net :=
  Client.resolveManifest x p.http p.client p.repo (.digest d) p.creds p.conn

/-- The configuration of a manifest, fetched over the connection that resolved it. -/
def config (p : Pull) (x : Codec) (d : String) (manifest : Manifest) : Except Error (List UInt8) :=
  (Client.getBlob x p.http p.client p.repo manifest.config.digest p.creds (p.resolve x d).2).1

/-! ## What the registry answers -/

/-- Asked for the manifest `id`, the registry answers `resp`, whose body arrives whole. -/
def Answers (p : Pull) (x : Codec) (id : String) (conn : Conn p.Net) (resp : HttpResponse) (bytes : List UInt8)
    (conn' : Conn p.Net) : Prop :=
  Client.request x p.http p.client "GET" (p.client.url p.repo "manifests" id) (some acceptManifestTypes) p.creds
    conn = (.ok resp, conn') ∧ Client.readToEnd resp = .ok bytes

end Pull

/-- The bytes are an index whose entry for this platform has digest `m`. -/
def Selects (x : Codec) (bytes : List UInt8) (m : String) : Prop :=
  ∃ index desc, x.decodeIndex bytes = .ok index ∧ selectPlatform index "linux" (hostArch x.arch) = some desc ∧
    desc.digest = m

/-- Some index whose bytes hash to `d` lists `m` for this platform. -/
def IndexLists (x : Codec) (d m : String) : Prop := ∃ bytes, x.digestOf bytes = d ∧ Selects x bytes m

namespace Pull

/-- `d` is served as a manifest, by bytes that hash to it. -/
def ServesManifest (p : Pull) (x : Codec) (d : String) (manifest : Manifest) : Prop :=
  ∃ resp bytes conn, p.Answers x d p.conn resp bytes conn ∧ Client.isIndex resp = false ∧ x.digestOf bytes = d ∧
    x.decodeManifest bytes = .ok manifest

/-- `d` is served as an index that selects `m`, and `m` as a manifest, by bytes that hash to it. -/
def ServesIndex (p : Pull) (x : Codec) (d m : String) (manifest : Manifest) : Prop :=
  ∃ resp bytes conn resp' bytes' conn', p.Answers x d p.conn resp bytes conn ∧ Client.isIndex resp = true ∧
    Selects x bytes m ∧ p.Answers x m conn resp' bytes' conn' ∧ x.digestOf bytes' = m ∧
    x.decodeManifest bytes' = .ok manifest

end Pull

theorem decoded_ok {α : Type} {r : Except String α} {a : α} : Client.decoded r = .ok a ↔ r = .ok a := by
  cases r with
  | error e => exact ⟨nofun, nofun⟩
  | ok b => exact ⟨fun h => (by cases h; rfl), fun h => (by cases h; rfl)⟩

theorem acceptManifest_ok {x : Codec} {d m : String} {bytes : List UInt8} {manifest : Manifest} :
    Client.acceptManifest x (.digest d) bytes = .ok (m, manifest) ↔
      x.digestOf bytes = d ∧ m = d ∧ x.decodeManifest bytes = .ok manifest := by
  unfold Client.acceptManifest
  by_cases hd : d = x.digestOf bytes
  · have hmap : ((Client.decoded (x.decodeManifest bytes)).map fun manifest => (d, manifest)) = .ok (m, manifest) ↔
        m = d ∧ x.decodeManifest bytes = .ok manifest := by
      rcases hdec : x.decodeManifest bytes with e | manifest'
      · exact ⟨nofun, nofun⟩
      · constructor
        · intro h
          cases h
          exact ⟨rfl, rfl⟩
        · rintro ⟨rfl, hmf⟩
          cases hmf
          rfl
    simp only [← hd, ne_eq, not_true_eq_false, if_false]
    exact hmap.trans ⟨fun h => ⟨trivial, h⟩, fun h => h.2⟩
  · simp only [ne_eq, hd, not_false_eq_true, if_true]
    exact ⟨nofun, fun h => absurd h.1.symm hd⟩

namespace Pull

theorem fetch_ok {p : Pull} {x : Codec} {conn : Conn p.Net} {id m : String} {manifest : Manifest} :
    (Client.fetchManifestByDigest x p.http p.client p.repo id p.creds conn).1 = .ok (m, manifest) ↔
      m = id ∧ ∃ resp bytes conn', p.Answers x id conn resp bytes conn' ∧ x.digestOf bytes = id ∧
        x.decodeManifest bytes = .ok manifest := by
  unfold Client.fetchManifestByDigest
  rw [Eff.fst_bind_eq_ok]
  constructor
  · rintro ⟨resp, conn', hreq, hrest⟩
    obtain ⟨bytes, hread, hrest⟩ := Eff.fst_lift_bind_eq_ok.mp hrest
    by_cases hd : x.digestOf bytes = id
    · rw [if_neg (not_not.mpr hd), Eff.fst_lift_bind_eq_ok] at hrest
      obtain ⟨manifest', hdec, hm⟩ := hrest
      cases hm
      exact ⟨hd, resp, bytes, conn', ⟨hreq, hread⟩, hd, decoded_ok.mp hdec⟩
    · rw [if_pos hd] at hrest
      exact absurd hrest Eff.fst_throw_ne_ok
  · rintro ⟨rfl, resp, bytes, conn', ⟨hreq, hread⟩, hd, hdec⟩
    refine ⟨resp, conn', hreq, Eff.fst_lift_bind_eq_ok.mpr ⟨bytes, hread, ?_⟩⟩
    rw [if_neg (not_not.mpr hd), Eff.fst_lift_bind_eq_ok]
    exact ⟨manifest, decoded_ok.mpr hdec, by rw [hd]; rfl⟩

/-- A pull by digest succeeds in exactly two ways. -/
theorem resolve_ok {p : Pull} {x : Codec} {d m : String} {manifest : Manifest} :
    (p.resolve x d).1 = .ok (m, manifest) ↔
      (p.ServesManifest x d manifest ∧ m = d) ∨ p.ServesIndex x d m manifest := by
  unfold resolve Client.resolveManifest
  rw [Eff.fst_bind_eq_ok]
  constructor
  · rintro ⟨resp, conn, hreq, hrest⟩
    obtain ⟨bytes, hread, hrest⟩ := Eff.fst_lift_bind_eq_ok.mp hrest
    by_cases hindex : Client.isIndex resp = true
    · rw [if_pos hindex, Eff.fst_lift_bind_eq_ok] at hrest
      obtain ⟨index, hdec, hsel⟩ := hrest
      rcases hfind : selectPlatform index "linux" (hostArch x.arch) with _ | desc
      · rw [hfind] at hsel
        exact absurd hsel Eff.fst_throw_ne_ok
      · rw [hfind] at hsel
        obtain ⟨hm, resp', bytes', conn', hans, hdig, hman⟩ := fetch_ok.mp hsel
        refine Or.inr ⟨resp, bytes, conn, resp', bytes', conn', ⟨hreq, hread⟩, hindex, ?_, hm ▸ hans, hm ▸ hdig, hman⟩
        exact ⟨index, desc, decoded_ok.mp hdec, hfind, hm.symm⟩
    · rw [if_neg hindex, Eff.fst_lift] at hrest
      obtain ⟨hdig, hm, hman⟩ := acceptManifest_ok.mp hrest
      exact Or.inl ⟨⟨resp, bytes, conn, ⟨hreq, hread⟩, by simpa using hindex, hdig, hman⟩, hm⟩
  · rintro (⟨⟨resp, bytes, conn, ⟨hreq, hread⟩, hindex, hdig, hman⟩, hm⟩ |
      ⟨resp, bytes, conn, resp', bytes', conn', ⟨hreq, hread⟩, hindex, ⟨index, desc, hdec, hfind, hm⟩, hans, hdig,
        hman⟩)
    · refine ⟨resp, conn, hreq, Eff.fst_lift_bind_eq_ok.mpr ⟨bytes, hread, ?_⟩⟩
      rw [if_neg (by simp [hindex]), Eff.fst_lift]
      exact acceptManifest_ok.mpr ⟨hdig, hm, hman⟩
    · refine ⟨resp, conn, hreq, Eff.fst_lift_bind_eq_ok.mpr ⟨bytes, hread, ?_⟩⟩
      rw [if_pos hindex, Eff.fst_lift_bind_eq_ok]
      refine ⟨index, decoded_ok.mpr hdec, ?_⟩
      rw [hfind]
      exact fetch_ok.mpr ⟨hm.symm, resp', bytes', conn', hm ▸ hans, hm ▸ hdig, hman⟩

end Pull

theorem getBlob_ok {p : Pull} {x : Codec} {conn : Conn p.Net} {digest : String} {bytes : List UInt8}
    (h : (Client.getBlob x p.http p.client p.repo digest p.creds conn).1 = .ok bytes) : x.digestOf bytes = digest := by
  unfold Client.getBlob at h
  obtain ⟨resp, conn', -, hrest⟩ := Eff.fst_bind_eq_ok.mp h
  obtain ⟨body, -, hrest⟩ := Eff.fst_lift_bind_eq_ok.mp hrest
  by_cases hd : x.digestOf body = digest
  · rw [if_neg (not_not.mpr hd)] at hrest
    cases hrest
    exact hd
  · rw [if_pos hd] at hrest
    exact absurd hrest Eff.fst_throw_ne_ok

/-! ## The guarantee -/

/-- A manifest that is accepted for `d` has the digest reported, which is `d` or listed by an index
that hashes to `d`. -/
def Pinned (x : Codec) (p : Pull) (d : String) : Prop :=
  ∀ m manifest, (p.resolve x d).1 = .ok (m, manifest) →
    (∃ bytes, x.digestOf bytes = m ∧ x.decodeManifest bytes = .ok manifest) ∧ (m = d ∨ IndexLists x d m)

/-- What pulling by the digest `d` promises for two pulls: each is pinned, and together they give one
manifest and one configuration. -/
structure PinsContent (x : Codec) (p q : Pull) (d : String) : Prop where
  left : Pinned x p d
  right : Pinned x q d
  manifest : ∀ r r', (p.resolve x d).1 = .ok r → (q.resolve x d).1 = .ok r' → r = r'
  config : ∀ r r' bytes bytes', (p.resolve x d).1 = .ok r → (q.resolve x d).1 = .ok r' →
    p.config x d r.2 = .ok bytes → q.config x d r'.2 = .ok bytes' → bytes = bytes'

/-- An index served for `d` selects `d` itself or what an index hashing to `d` selects. -/
def Pull.Genuine (p : Pull) (x : Codec) (d : String) : Prop :=
  ∀ m manifest, p.ServesIndex x d m manifest → m = d ∨ IndexLists x d m

/-- `d` is served as the manifest it names, at once or through an index that selects it. -/
def Pull.ServesItself (p : Pull) (x : Codec) (d : String) : Prop :=
  ∃ manifest, p.ServesManifest x d manifest ∨ p.ServesIndex x d d manifest

/-- The registry of `p` serves `d` as a manifest only where that of `q` does not serve it as an index
to something else. -/
def Pull.Alike (p q : Pull) (x : Codec) (d : String) : Prop :=
  p.ServesItself x d → ∀ m manifest, q.ServesIndex x d m manifest → m = d

/-- Whichever way a manifest was accepted, its bytes were checked against the digest reported. -/
theorem resolve_bytes {p : Pull} {x : Codec} {d m : String} {manifest : Manifest}
    (h : (p.resolve x d).1 = .ok (m, manifest)) :
    ∃ bytes, x.digestOf bytes = m ∧ x.decodeManifest bytes = .ok manifest := by
  rcases Pull.resolve_ok.mp h with ⟨⟨_, bytes, _, _, _, hdig, hman⟩, rfl⟩ | ⟨_, _, _, _, bytes', _, _, _, _, _,
    hdig, hman⟩
  · exact ⟨bytes, hdig, hman⟩
  · exact ⟨bytes', hdig, hman⟩

theorem pinned_iff {x : Codec} {p : Pull} {d : String} : Pinned x p d ↔ p.Genuine x d := by
  constructor
  · intro h m manifest hserves
    exact (h m manifest (Pull.resolve_ok.mpr (Or.inr hserves))).2
  · intro h m manifest hok
    refine ⟨resolve_bytes hok, ?_⟩
    rcases Pull.resolve_ok.mp hok with ⟨_, hm⟩ | hserves
    · exact Or.inl hm
    · exact h m manifest hserves

/-- A digest has one index behind it, so one entry for the platform. -/
theorem IndexLists.unique {x : Codec} (hx : Function.Injective x.sha256) {d m m' : String} (h : IndexLists x d m)
    (h' : IndexLists x d m') : m = m' := by
  obtain ⟨bytes, hd, index, desc, hdec, hfind, rfl⟩ := h
  obtain ⟨bytes', hd', index', desc', hdec', hfind', rfl⟩ := h'
  obtain rfl : bytes = bytes' := digestOf_injective hx (hd.trans hd'.symm)
  rw [hdec] at hdec'
  cases hdec'
  rw [hfind] at hfind'
  cases hfind'
  rfl

theorem manifest_unique {x : Codec} (hx : Function.Injective x.sha256) {p q : Pull} {d m : String}
    {manifest manifest' : Manifest} (h : (p.resolve x d).1 = .ok (m, manifest))
    (h' : (q.resolve x d).1 = .ok (m, manifest')) : manifest = manifest' := by
  obtain ⟨bytes, hd, hdec⟩ := resolve_bytes h
  obtain ⟨bytes', hd', hdec'⟩ := resolve_bytes h'
  obtain rfl : bytes = bytes' := digestOf_injective hx (hd.trans hd'.symm)
  rw [hdec] at hdec'
  cases hdec'
  rfl

/-- A pull reports `d` itself exactly when it is served as a manifest. -/
theorem resolve_itself {p : Pull} {x : Codec} {d : String} :
    (∃ manifest, (p.resolve x d).1 = .ok (d, manifest)) ↔ p.ServesItself x d := by
  refine exists_congr fun manifest => ?_
  rw [Pull.resolve_ok]
  exact or_congr_left (and_iff_left rfl)

theorem alike_iff {p q : Pull} {x : Codec} {d : String} : p.Alike q x d ↔
    ∀ manifest m manifest', (p.resolve x d).1 = .ok (d, manifest) → (q.resolve x d).1 = .ok (m, manifest') → m = d := by
  constructor
  · intro h manifest m manifest' hp hq
    rcases Pull.resolve_ok.mp hq with ⟨_, hm⟩ | hserves
    · exact hm
    · exact h (resolve_itself.mp ⟨manifest, hp⟩) m manifest' hserves
  · intro h hself m manifest' hserves
    obtain ⟨manifest, hp⟩ := resolve_itself.mpr hself
    exact h manifest m manifest' hp (Pull.resolve_ok.mpr (Or.inr hserves))

/-- Two pinned pulls report the same digest when none of them is served a manifest where the other
is served an index. -/
theorem digest_unique {x : Codec} (hx : Function.Injective x.sha256) {p q : Pull} {d m m' : String}
    {manifest manifest' : Manifest} (hp : Pinned x p d) (hq : Pinned x q d) (hpq : p.Alike q x d)
    (hqp : q.Alike p x d) (h : (p.resolve x d).1 = .ok (m, manifest)) (h' : (q.resolve x d).1 = .ok (m', manifest')) :
    m = m' := by
  by_cases hm : m = d
  · subst hm
    exact (alike_iff.mp hpq manifest m' manifest' h h').symm
  · by_cases hm' : m' = d
    · subst hm'
      exact alike_iff.mp hqp manifest' m manifest h' h
    · have hlists := (hp m manifest h).2.resolve_left hm
      have hlists' := (hq m' manifest' h').2.resolve_left hm'
      exact hlists.unique hx hlists'

/-- Two pulls by the digest `d` keep their promise exactly when an index served for `d` selects what
an index hashing to `d` selects, and `d` is not served as a manifest to one of them and as an index to the other. -/
theorem pinsContent_iff (x : Codec) (hx : Function.Injective x.sha256) (p q : Pull) (d : String) :
    PinsContent x p q d ↔ p.Genuine x d ∧ q.Genuine x d ∧ p.Alike q x d ∧ q.Alike p x d := by
  constructor
  · intro h
    refine ⟨pinned_iff.mp h.left, pinned_iff.mp h.right, alike_iff.mpr ?_, alike_iff.mpr ?_⟩
    · intro manifest m manifest' hp hq
      exact (congrArg Prod.fst (h.manifest _ _ hp hq)).symm
    · intro manifest m manifest' hq hp
      exact congrArg Prod.fst (h.manifest _ _ hp hq)
  · rintro ⟨hp, hq, hpq, hqp⟩
    have hsame : ∀ r r', (p.resolve x d).1 = .ok r → (q.resolve x d).1 = .ok r' → r = r' := by
      rintro ⟨m, manifest⟩ ⟨m', manifest'⟩ h h'
      obtain rfl := digest_unique hx (pinned_iff.mpr hp) (pinned_iff.mpr hq) hpq hqp h h'
      rw [manifest_unique hx h h']
    refine ⟨pinned_iff.mpr hp, pinned_iff.mpr hq, hsame, ?_⟩
    intro r r' bytes bytes' h h' hbytes hbytes'
    obtain rfl := hsame r r' h h'
    exact digestOf_injective hx ((getBlob_ok hbytes).trans (getBlob_ok hbytes').symm)

/-! ## A registry that swaps the index

Two images with their real hashes: the index of the first lists the first manifest. The honest
registry serves it; the other one answers the same digest with the index of the second image. -/

def shopConfigHash : ℕ := 0xbc8a9fe31d490085201fbcef1e19f316a1f814efb629139a3b18ac3ef5b14413
def shellConfigHash : ℕ := 0xb7654e8d3de210392e618fc953c11d79ea318b0734d3e729231414670ea1555f
def shopManifestHash : ℕ := 0x707f433e835e44ee79117801616583fbbf93382467bcce7ab139b9561b2e3638
def shellManifestHash : ℕ := 0x8ade95052437ee7f44a24ef832c3732b8d1c6ebcfc5199e3a89d9951e1d8f212
def shopIndexHash : ℕ := 0x424c7a3391032aafb9b48f88cab8a524b86452b5d7da691e2f12c5948c14c4f1
def shellIndexHash : ℕ := 0x23d1c29fe5d8e388c126f670152b4d479ada5d86630cc548aa9ee4228a50d2bc

def manifestBytes (config : ℕ) : List UInt8 :=
  utf8 ("\x7b\"config\":\x7b\"digest\":\"" ++ digestText config ++
    "\",\"mediaType\":\"application/vnd.oci.image.config.v1+json\"\x7d,\"layers\":[]\x7d")

def indexBytes (manifest : ℕ) : List UInt8 :=
  utf8 ("\x7b\"manifests\":[\x7b\"digest\":\"" ++ digestText manifest ++
    "\",\"mediaType\":\"application/vnd.oci.image.manifest.v1+json\"\x7d]\x7d")

def manifestOf (config : ℕ) : Manifest :=
  { config := { digest := digestText config, mediaType := "application/vnd.oci.image.config.v1+json" }, layers := [] }

def indexOf (manifest : ℕ) : Index :=
  { manifests := [{ digest := digestText manifest, mediaType := "application/vnd.oci.image.manifest.v1+json" }] }

def shopHashes : List (List UInt8 × List UInt8) :=
  [(manifestBytes shopConfigHash, hashBytes shopManifestHash),
    (manifestBytes shellConfigHash, hashBytes shellManifestHash),
    (indexBytes shopManifestHash, hashBytes shopIndexHash), (indexBytes shellManifestHash, hashBytes shellIndexHash)]

def shopCodec : Codec where
  sha256 := hashTable shopHashes
  decodeIndex bytes :=
    if bytes = indexBytes shopManifestHash then .ok (indexOf shopManifestHash)
    else if bytes = indexBytes shellManifestHash then .ok (indexOf shellManifestHash)
    else .error "missing field manifests"
  decodeManifest bytes :=
    if bytes = manifestBytes shopConfigHash then .ok (manifestOf shopConfigHash)
    else if bytes = manifestBytes shellConfigHash then .ok (manifestOf shellConfigHash)
    else .error "missing field config"
  decodeToken _ := .error "expected value at line 1 column 1"
  arch := "x86_64"

def shopUrl (hash : ℕ) : String := "https://registry.example/v2/shop/manifests/" ++ digestText hash

/-- A registry that answers for the index of the shop with the index of `manifest`. -/
def shopRegistry (manifest : ℕ) : Http Unit := fun req net =>
  if req.url = shopUrl shopIndexHash then
    (.ok { contentType := some ociIndex, body := indexBytes manifest }, net)
  else if req.url = shopUrl shopManifestHash then
    (.ok { body := manifestBytes shopConfigHash }, net)
  else if req.url = shopUrl shellManifestHash then
    (.ok { body := manifestBytes shellConfigHash }, net)
  else (.error (.status 404 {} "status code 404"), net)

def shopPull (manifest : ℕ) : Pull where
  Net := Unit
  http := shopRegistry manifest
  client := ⟨"registry.example"⟩
  repo := "shop"
  creds := fun _ => none
  conn := { net := () }

theorem shopCodec_injective : Function.Injective shopCodec.sha256 := by
  have hlen : ∀ e ∈ shopHashes, e.2.length ≤ 32 := by decide +kernel
  have hdistinct : (shopHashes.map Prod.snd).Nodup := by decide +kernel
  unfold shopCodec
  dsimp only
  exact hashTable_injective hlen hdistinct

theorem shopPull_resolves : ((shopPull shopManifestHash).resolve shopCodec (digestText shopIndexHash)).1 =
    .ok (digestText shopManifestHash, manifestOf shopConfigHash) := by
  decide +kernel

theorem swappedPull_resolves : ((shopPull shellManifestHash).resolve shopCodec (digestText shopIndexHash)).1 =
    .ok (digestText shellManifestHash, manifestOf shellConfigHash) := by
  decide +kernel

theorem shopIndex_lists : IndexLists shopCodec (digestText shopIndexHash) (digestText shopManifestHash) :=
  ⟨indexBytes shopManifestHash, by decide +kernel, indexOf shopManifestHash, _, by decide +kernel, rfl, rfl⟩

/-- The honest registry keeps the promise. -/
theorem pinsContent_shop : PinsContent shopCodec (shopPull shopManifestHash) (shopPull shopManifestHash)
    (digestText shopIndexHash) := by
  have hserves : ∀ m manifest, (shopPull shopManifestHash).ServesIndex shopCodec (digestText shopIndexHash) m manifest →
      m = digestText shopManifestHash := by
    intro m manifest h
    have hok := Pull.resolve_ok.mpr (Or.inr h)
    rw [shopPull_resolves] at hok
    cases hok
    rfl
  have hgenuine : (shopPull shopManifestHash).Genuine shopCodec (digestText shopIndexHash) := by
    intro m manifest h
    rw [hserves m manifest h]
    exact Or.inr shopIndex_lists
  have halike : (shopPull shopManifestHash).Alike (shopPull shopManifestHash) shopCodec (digestText shopIndexHash) := by
    intro hself
    obtain ⟨manifest, hok⟩ := resolve_itself.mpr hself
    rw [shopPull_resolves] at hok
    have hdiff : digestText shopManifestHash ≠ digestText shopIndexHash := by decide +kernel
    exact absurd (congrArg Prod.fst (Except.ok.inj hok)) hdiff
  exact (pinsContent_iff shopCodec shopCodec_injective _ _ _).mpr ⟨hgenuine, hgenuine, halike, halike⟩

/-- The registry that swaps the index has its manifest accepted for a digest that does not name it. -/
theorem swapped_index_accepted : Function.Injective shopCodec.sha256 ∧
    ¬ Pinned shopCodec (shopPull shellManifestHash) (digestText shopIndexHash) ∧
    ¬ PinsContent shopCodec (shopPull shopManifestHash) (shopPull shellManifestHash) (digestText shopIndexHash) := by
  have hdiff : digestText shellManifestHash ≠ digestText shopIndexHash := by decide +kernel
  have hother : digestText shellManifestHash ≠ digestText shopManifestHash := by decide +kernel
  have hswapped : ¬ Pinned shopCodec (shopPull shellManifestHash) (digestText shopIndexHash) := by
    intro h
    have hlists := (h _ _ swappedPull_resolves).2.resolve_left hdiff
    exact hother (hlists.unique shopCodec_injective shopIndex_lists)
  exact ⟨shopCodec_injective, hswapped, fun h => hswapped h.right⟩

end Collocate.Registry
