import Collocate.Image.Import

/-! # Names of layers, and what a layer directory should hold

A diff id that is a digest names a visible child of `layers/` of its own, and its staging directory is
a hidden one. -/
namespace Collocate.Image
set_option autoImplicit false

variable {Tree : Type}

/-! ## Names -/

/-- `sha256:` and hexadecimal digits. -/
def DigestShaped (l : String) : Prop := ∃ hash : List UInt8, l = "sha256:" ++ Text.hexBytes hash

def hidden (name : String) : Bool := Text.startsWith name "."

theorem digestOf_shaped (x : Env Tree) (bytes : List UInt8) : DigestShaped (x.digestOf bytes) := ⟨_, rfl⟩

theorem mem_hexBytes {bs : List UInt8} {c : Char} (h : c ∈ (Text.hexBytes bs).toList) :
    c ∈ "0123456789abcdef".toList := by
  unfold Text.hexBytes at h
  rw [String.toList_ofList, List.mem_flatMap] at h
  obtain ⟨b, -, hc⟩ := h
  rw [Text.hexPad_two, List.mem_cons, List.mem_singleton] at hc
  have hdigit : ∀ n : Fin 16, Text.hexDigit n ∈ "0123456789abcdef".toList := by decide
  rcases hc with rfl | rfl
  · exact hdigit ⟨_, Nat.mod_lt _ (by omega)⟩
  · exact hdigit ⟨_, Nat.mod_lt _ (by omega)⟩

theorem dashed_shaped (hash : List UInt8) : dashed ("sha256:" ++ Text.hexBytes hash) = "sha256-" ++
    Text.hexBytes hash := by
  have hkeep : (Text.hexBytes hash).toList.map (fun c => if c = ':' then '-' else c) = (Text.hexBytes hash).toList := by
    have hid : ∀ c ∈ (Text.hexBytes hash).toList, (if c = ':' then '-' else c) = c := by
      intro c hc
      have hcolon : c ≠ ':' := by
        rintro rfl
        exact absurd (mem_hexBytes hc) (by decide)
      exact if_neg hcolon
    rw [List.map_congr_left hid, List.map_id']
  apply String.toList_injective
  rw [dashed, String.toList_ofList, String.toList_append, List.map_append, hkeep, String.toList_append]
  rfl

/-- A name without slashes is the name of a child. -/
theorem place_plain {s : String} (hslash : '/' ∉ s.toList) (hempty : s ≠ "") (hdot : s ≠ ".") (hdots : s ≠ "..") :
    place s = .child s := by
  have habs : ¬ Text.startsWith s "/" = true := by
    rw [Text.startsWith_iff]
    rintro ⟨rest, rfl⟩
    exact hslash (by rw [String.toList_append]; exact List.mem_append_left _ (by decide))
  have hcomp : components s = [s] := by
    rw [components, Text.split_of_not_mem hslash]
    simp [hempty, hdot]
  rw [place, if_neg habs, hcomp]
  exact if_neg hdots

/-- A name without slashes leads to itself, if anywhere. -/
theorem eq_of_place {s name : String} (hslash : '/' ∉ s.toList) (h : place s = .child name) : name = s := by
  rw [place] at h
  split at h
  · cases h
  · rw [components, Text.split_of_not_mem hslash] at h
    by_cases hkept : (s != "" && s != ".") = true
    · rw [List.filter_cons, if_pos hkept] at h
      dsimp only [List.filter_nil] at h
      split at h
      · cases h
      · cases h
        rfl
    · rw [List.filter_cons, if_neg hkept] at h
      cases h

theorem eq_dashed {l name : String} (hslash : '/' ∉ l.toList) (h : layerDir l = .child name) : name = dashed l := by
  refine eq_of_place (fun hmem => hslash ?_) h
  rw [dashed, String.toList_ofList, List.mem_map] at hmem
  obtain ⟨c, hc, heq⟩ := hmem
  split at heq
  · cases heq
  · rw [← heq]
    exact hc

theorem slash_not_mem_dashed {l : String} (h : DigestShaped l) : '/' ∉ (dashed l).toList := by
  obtain ⟨hash, rfl⟩ := h
  rw [dashed_shaped, String.toList_append, List.mem_append, not_or]
  exact ⟨by decide, fun hmem => absurd (mem_hexBytes hmem) (by decide)⟩

/-- A name that starts with `p` is not the shorter `q`. -/
theorem append_ne {p rest q : String} (h : q.toList.length < p.toList.length) : p ++ rest ≠ q := by
  intro heq
  have hlen := congrArg (fun s => s.toList.length) heq
  simp only [String.toList_append, List.length_append] at hlen
  omega

theorem layerDir_shaped {l : String} (h : DigestShaped l) : layerDir l = .child (dashed l) := by
  have hslash := slash_not_mem_dashed h
  obtain ⟨hash, rfl⟩ := h
  rw [dashed_shaped] at hslash
  rw [layerDir, dashed_shaped]
  exact place_plain hslash (append_ne (by decide)) (append_ne (by decide)) (append_ne (by decide))

theorem stagingDir_shaped {l : String} (h : DigestShaped l) : stagingDir l = .child (".tmp-" ++ dashed l) := by
  have hslash : '/' ∉ (".tmp-" ++ dashed l).toList := by
    rw [String.toList_append, List.mem_append, not_or]
    exact ⟨by decide, slash_not_mem_dashed h⟩
  exact place_plain hslash (append_ne (by decide)) (append_ne (by decide)) (append_ne (by decide))

theorem hidden_staging (s : String) : hidden (".tmp-" ++ s) = true :=
  Text.startsWith_iff.mpr ⟨"tmp-" ++ s, by rw [← String.append_assoc]; rfl⟩

theorem hidden_stagingDir {l n : String} (h : stagingDir l = .child n) : hidden n = true := by
  unfold stagingDir place at h
  split at h
  · cases h
  · obtain ⟨q, qs, -, hpieces⟩ := Text.pieces_append (c := '/') (p := ".tmp-".toList) (by decide) (dashed l).toList
    have hsplit : Text.split '/' (".tmp-" ++ dashed l) = (".tmp-" ++ String.ofList q) :: qs.map String.ofList := by
      rw [Text.split, String.toList_append, hpieces, List.map_cons, String.ofList_append]
      rfl
    have hcomp : components (".tmp-" ++ dashed l) =
        (".tmp-" ++ String.ofList q) :: (qs.map String.ofList).filter fun c => c != "" && c != "." := by
      have hkept : ((".tmp-" ++ String.ofList q) != "" && (".tmp-" ++ String.ofList q) != ".") = true := by
        rw [Bool.and_eq_true, bne_iff_ne, bne_iff_ne]
        exact ⟨append_ne (by decide), append_ne (by decide)⟩
      rw [components, hsplit, List.filter_cons, if_pos hkept]
    rw [hcomp] at h
    split at h
    · rename_i c heq
      rw [List.cons.injEq] at heq
      split at h
      · cases h
      · cases h
        rw [← heq.1]
        exact hidden_staging _
    · cases h

theorem visible_shaped {l : String} (h : DigestShaped l) : hidden (dashed l) = false := by
  obtain ⟨hash, rfl⟩ := h
  rw [dashed_shaped, hidden, Bool.eq_false_iff, Ne, Text.startsWith_iff]
  rintro ⟨rest, heq⟩
  have hhead := congrArg String.toList heq
  rw [String.toList_append, String.toList_append] at hhead
  cases hhead

theorem dashed_inj {l l' : String} (h : DigestShaped l) (h' : DigestShaped l') (heq : dashed l = dashed l') :
    l = l' := by
  obtain ⟨hash, rfl⟩ := h
  obtain ⟨hash', rfl⟩ := h'
  rw [dashed_shaped, dashed_shaped] at heq
  have hlist := congrArg String.toList heq
  rw [String.toList_append, String.toList_append] at hlist
  rw [String.toList_injective (List.append_cancel_left hlist)]

/-! ## Extractions -/

/-- The tree after steps that all succeed. -/
def applied : List (Tree → Outcome Tree) → Tree → Option Tree
  | [], tree => some tree
  | f :: rest, tree => match f tree with
    | .next tree' => applied rest tree'
    | _ => none

/-- `tree` is what extracting the stream to an empty directory gives. -/
def Extracts (x : Env Tree) (mode : WhiteoutMode) (stream : Stream) (tree : Tree) : Prop :=
  applied (x.script mode stream) x.empty = some tree

/-- A directory that is the extraction of a stream whose digest is `l`. -/
def Complete (x : Env Tree) (l : String) (node : Node Tree) : Prop :=
  ∃ mode stream tree, node = .dir tree ∧ x.digestOf stream.bytes = l ∧ Extracts x mode stream tree

/-- `l` names a child of `layers/`, which is the extraction of a stream with digest `l`. -/
def Good (x : Env Tree) (s : Disk Tree) (l : String) : Prop :=
  ∃ name node, layerDir l = .child name ∧ s.layers.get? name = some node ∧ Complete x l node

/-- Every layer of every stored image is what its id says. -/
def Sound (x : Env Tree) (s : Disk Tree) : Prop :=
  ∀ file img, s.metas.get? file = some (.whole img) → ∀ l ∈ img.layers, Good x s l

theorem Complete.shaped {x : Env Tree} {l : String} {node : Node Tree} (h : Complete x l node) : DigestShaped l := by
  obtain ⟨_, stream, _, _, hl, _⟩ := h
  exact hl ▸ digestOf_shaped x stream.bytes

theorem good_iff {x : Env Tree} {s : Disk Tree} {l : String} :
    Good x s l ↔ ∃ node, s.layers.get? (dashed l) = some node ∧ Complete x l node := by
  constructor
  · rintro ⟨name, node, hplace, hget, hcomplete⟩
    rw [layerDir_shaped hcomplete.shaped] at hplace
    cases hplace
    exact ⟨node, hget, hcomplete⟩
  · rintro ⟨node, hget, hcomplete⟩
    exact ⟨dashed l, node, layerDir_shaped hcomplete.shaped, hget, hcomplete⟩

/-- The layer is there, if its id names a visible child. -/
def There (d : Disk Tree) (l : String) : Prop :=
  ∀ name, layerDir l = .child name → hidden name = false → d.layers.contains name = true

/-- Every layer of every stored image is there. -/
def Filled (d : Disk Tree) : Prop :=
  ∀ file img, d.metas.get? file = some (.whole img) → ∀ l ∈ img.layers, There d l

/-! ## Growth -/

/-- The child `name` is the complete layer that its name says. -/
def CompleteAt (x : Env Tree) (d : Disk Tree) (name : String) : Prop :=
  ∃ l node, dashed l = name ∧ d.layers.get? name = some node ∧ Complete x l node

/-- The visible children are what they were, but for complete layers. -/
def Grows (x : Env Tree) (d d' : Disk Tree) : Prop :=
  ∀ name, hidden name = false → d'.layers.get? name = d.layers.get? name ∨ CompleteAt x d' name

theorem CompleteAt.of_eq {x : Env Tree} {d d' : Disk Tree} {name : String} (h : CompleteAt x d name)
    (heq : d'.layers.get? name = d.layers.get? name) : CompleteAt x d' name := by
  obtain ⟨l, node, hl, hget, hcomplete⟩ := h
  exact ⟨l, node, hl, heq.trans hget, hcomplete⟩

theorem CompleteAt.good {x : Env Tree} {d : Disk Tree} {l : String} (h : CompleteAt x d (dashed l))
    (hl : DigestShaped l) :
    Good x d l := by
  obtain ⟨l', node, heq, hget, hcomplete⟩ := h
  obtain rfl := dashed_inj hcomplete.shaped hl heq
  exact good_iff.mpr ⟨node, hget, hcomplete⟩

theorem Grows.refl (x : Env Tree) (d : Disk Tree) : Grows x d d := fun _ _ => Or.inl rfl

theorem Grows.of_eq {x : Env Tree} {d d' : Disk Tree} (h : d'.layers = d.layers) : Grows x d d' :=
  fun _ _ => Or.inl (by rw [h])

theorem Grows.trans {x : Env Tree} {d d₁ d₂ : Disk Tree} (h : Grows x d d₁) (h' : Grows x d₁ d₂) : Grows x d d₂ := by
  intro name hname
  rcases h' name hname with hsame | hcomplete
  · rcases h name hname with hsame' | hcomplete
    · exact Or.inl (hsame.trans hsame')
    · exact Or.inr (hcomplete.of_eq hsame)
  · exact Or.inr hcomplete

/-- What is there does not go away. -/
theorem Grows.contains {x : Env Tree} {d d' : Disk Tree} (h : Grows x d d') {name : String}
    (hname : hidden name = false) (hget : d.layers.contains name = true) : d'.layers.contains name = true := by
  rcases h name hname with hsame | ⟨_, node, _, hget', _⟩
  · unfold OrdMap.contains at hget ⊢
    rw [hsame]
    exact hget
  · unfold OrdMap.contains
    rw [hget']
    rfl

theorem There.grows {x : Env Tree} {d d' : Disk Tree} {l : String} (h : There d l) (hgrows : Grows x d d') :
    There d' l :=
  fun name hplace hname => hgrows.contains hname (h name hplace hname)

/-- A change that brings no metadata keeps the layers of what is stored. -/
theorem Filled.grows {x : Env Tree} {d d' : Disk Tree} (h : Filled d) (hgrows : Grows x d d')
    (hmetas : ∀ file img, d'.metas.get? file = some (.whole img) → d.metas.get? file = some (.whole img)) : Filled d' :=
  fun file img hget l hl => (h file img (hmetas file img hget) l hl).grows hgrows

theorem Good.grows {x : Env Tree} {d d' : Disk Tree} {l : String} (h : Good x d l) (hgrows : Grows x d d') :
    Good x d' l := by
  obtain ⟨node, hget, hcomplete⟩ := good_iff.mp h
  rcases hgrows (dashed l) (visible_shaped hcomplete.shaped) with hsame | hat
  · exact good_iff.mpr ⟨node, hsame.trans hget, hcomplete⟩
  · exact hat.good hcomplete.shaped

end Collocate.Image
