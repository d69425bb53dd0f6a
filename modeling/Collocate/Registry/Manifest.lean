import Mathlib.Data.List.Nodup
import Collocate.Lib.OrdMap
import Collocate.Core.Error

/-! # Manifests and digests (`collocate-registry/src/manifest.rs`, `client.rs`)

The documents that lead from a reference to the blobs of an image. SHA-256 and the JSON decoder are
third-party code: they come in as parameters. -/
namespace Collocate.Registry
set_option autoImplicit false

def ociIndex : String := "application/vnd.oci.image.index.v1+json"
def dockerManifestList : String := "application/vnd.docker.distribution.manifest.list.v2+json"

def acceptManifestTypes : String :=
  "application/vnd.oci.image.index.v1+json, application/vnd.oci.image.manifest.v1+json, " ++
    "application/vnd.docker.distribution.manifest.list.v2+json, application/vnd.docker.distribution.manifest.v2+json"

structure Platform where
  architecture : String
  os : String
  deriving DecidableEq, Repr

structure Descriptor where
  digest : String
  mediaType : String
  size : UInt64 := 0
  platform : Option Platform := none
  annotations : OrdMap String String := OrdMap.empty
  deriving DecidableEq

structure Index where
  manifests : List Descriptor
  deriving DecidableEq

structure Manifest where
  config : Descriptor
  layers : List Descriptor
  deriving DecidableEq

/-- `host_arch`, of the architecture the program was built for. -/
def hostArch (arch : String) : String :=
  match arch with
  | "x86_64" => "amd64"
  | "aarch64" => "arm64"
  | other => other

def selectPlatform (index : Index) (os arch : String) : Option Descriptor :=
  index.manifests.find? fun m => match m.platform with
    | some p => p.os == os && p.architecture == arch
    | none => index.manifests.length == 1

/-! ## Digests -/

/-- `sha256:` and the hash in hexadecimal (`digest_of`; the same format in `import.rs` and `commit.rs`). -/
def digestOf (sha256 : List UInt8 → List UInt8) (bytes : List UInt8) : String :=
  "sha256:" ++ Text.hexBytes (sha256 bytes)

theorem digestOf_injective {sha256 : List UInt8 → List UInt8} (h : Function.Injective sha256) :
    Function.Injective (digestOf sha256) := by
  intro a b hab
  apply h
  apply Text.hexBytes_injective
  have htext := congrArg String.toList hab
  unfold digestOf at htext
  rw [String.toList_append, String.toList_append] at htext
  exact String.toList_injective (List.append_cancel_left htext)

def utf8 (s : String) : List UInt8 := s.toUTF8.data.toList

/-- The 32 bytes of a hash written as a number. -/
def hashBytes (n : ℕ) : List UInt8 := (List.range 32).map fun i => UInt8.ofNat (n / 256 ^ (31 - i))

def digestText (n : ℕ) : String := "sha256:" ++ Text.hexBytes (hashBytes n)

/-- A hash given by its values on a few inputs; every other input goes to a longer string of its own. -/
def hashTable (known : List (List UInt8 × List UInt8)) (bytes : List UInt8) : List UInt8 :=
  match known.find? (·.1 == bytes) with
  | some e => e.2
  | none => List.replicate 33 0 ++ bytes

theorem hashTable_cases (known : List (List UInt8 × List UInt8)) (bytes : List UInt8) :
    (bytes, hashTable known bytes) ∈ known ∨ hashTable known bytes = List.replicate 33 0 ++ bytes := by
  unfold hashTable
  split
  · rename_i e he
    have hkey : e.1 = bytes := by simpa using List.find?_some he
    exact Or.inl (hkey ▸ List.mem_of_find?_eq_some he)
  · exact Or.inr rfl

theorem hashTable_injective {known : List (List UInt8 × List UInt8)} (hlen : ∀ e ∈ known, e.2.length ≤ 32)
    (hdistinct : (known.map Prod.snd).Nodup) : Function.Injective (hashTable known) := by
  have hlong : ∀ bytes : List UInt8, 32 < (List.replicate 33 (0 : UInt8) ++ bytes).length := by
    intro bytes
    rw [List.length_append, List.length_replicate]
    omega
  intro a b hab
  rcases hashTable_cases known a with ha | ha <;> rcases hashTable_cases known b with hb | hb
  · rw [hab] at ha
    exact congrArg Prod.fst (List.inj_on_of_nodup_map hdistinct ha hb rfl)
  · have hshort := hlen _ ha
    rw [hab, hb] at hshort
    exact absurd hshort (Nat.not_le.mpr (hlong b))
  · have hshort := hlen _ hb
    rw [← hab, ha] at hshort
    exact absurd hshort (Nat.not_le.mpr (hlong a))
  · rw [ha, hb] at hab
    exact List.append_cancel_left hab

end Collocate.Registry
