import Collocate.Image.Names

/-! # References and the names of their images (`collocate-registry/src/reference.rs`, `collocate-image/src/pull.rs`)

An image is stored under the name of its reference. The name leaves out the default registry and the prefix
`library/`, and reading it puts them back, but not for every repository: what looks like a registry in front of it is
read as one, the prefix comes back only before a single component, and a tag that stands before another is read off. -/
namespace Collocate.Registry
set_option autoImplicit false

/-! ## Registries and tags -/

/-- The first component of a path is read as a registry. -/
def namesHost (first : String) : Bool := Text.contains first '.' || Text.contains first ':' || first == "localhost"

def StartsWithHost (path : String) : Prop :=
  ∃ first rest, Text.splitOnce '/' path = some (first, rest) ∧ namesHost first = true

theorem splitRegistry_of_host {path first rest : String} (h : Text.splitOnce '/' path = some (first, rest))
    (hhost : namesHost first = true) : splitRegistry path = (canonicalRegistry first, rest) := by
  unfold splitRegistry
  rw [h]
  exact if_pos hhost

theorem splitRegistry_of_not_host {path : String} (h : ¬StartsWithHost path) :
    splitRegistry path = (defaultRegistry, path) := by
  unfold splitRegistry
  cases hsplit : Text.splitOnce '/' path with
  | none => rfl
  | some p =>
    have hno : ¬namesHost p.1 = true := fun hhost => h ⟨p.1, p.2, hsplit, hhost⟩
    exact if_neg hno

theorem canonicalRegistry_eq (host : String) :
    canonicalRegistry host = host ∨ canonicalRegistry host = defaultRegistry := by
  unfold canonicalRegistry
  split
  · exact Or.inr rfl
  · exact Or.inr rfl
  · exact Or.inl rfl

theorem not_host_of_no_slash {path : String} (h : '/' ∉ path.toList) : ¬StartsWithHost path := by
  intro hhost
  obtain ⟨first, rest, hsplit, -⟩ := hhost
  rw [Text.splitOnce_eq_none.mpr h] at hsplit
  cases hsplit

/-- A tag is what stands behind the last colon. -/
def TaggedAs (path repo tag : String) : Prop :=
  path.toList = repo.toList ++ ':' :: tag.toList ∧ ':' ∉ tag.toList ∧ '/' ∉ tag.toList ∧ tag ≠ ""

theorem splitTag_of_tagged {path repo tag : String} (h : TaggedAs path repo tag) :
    splitTag path = (repo, some tag) := by
  obtain ⟨hpath, hcolon, hslash, hne⟩ := h
  unfold splitTag
  rw [Text.rsplitOnce_eq_some.mpr ⟨hpath, hcolon⟩]
  have hno : Text.contains tag '/' = false := by
    rw [Bool.eq_false_iff, ne_eq, Text.contains_iff]
    exact hslash
  have hnonempty : tag.isEmpty = false := by simpa using hne
  dsimp only
  rw [hno, hnonempty]
  rfl

theorem splitTag_cases (path : String) :
    splitTag path = (path, none) ∨ ∃ repo tag, splitTag path = (repo, some tag) ∧ TaggedAs path repo tag := by
  unfold splitTag
  cases hsplit : Text.rsplitOnce ':' path with
  | none => exact Or.inl rfl
  | some p =>
    obtain ⟨repo, tag⟩ := p
    obtain ⟨hpath, hcolon⟩ := Text.rsplitOnce_eq_some.mp hsplit
    dsimp only
    split
    · rename_i hplain
      refine Or.inr ⟨repo, tag, rfl, hpath, hcolon, ?_, ?_⟩
      · intro hslash
        rw [Text.contains_iff.mpr hslash] at hplain
        cases hplain
      · rintro rfl
        simp at hplain
    · exact Or.inl rfl

/-- The path is as long as what is left of it only where no tag is read off. -/
theorem splitTag_fst (path : String) :
    ((splitTag path).2 = none ∧ (splitTag path).1 = path) ∨
      ((splitTag path).2 ≠ none ∧ (splitTag path).1.toList.length < path.toList.length) := by
  cases splitTag_cases path with
  | inl h => rw [h]; exact Or.inl ⟨rfl, rfl⟩
  | inr h =>
    obtain ⟨repo, tag, hsplit, hpath, -⟩ := h
    rw [hsplit]
    refine Or.inr ⟨nofun, ?_⟩
    rw [hpath, List.length_append, List.length_cons]
    dsimp only
    omega

/-! ## What is read -/

/-- What stands before the digest of a reference, and the digest. -/
def beforeDigest (s : String) : String := ((Text.splitOnce '@' s).map Prod.fst).getD s

def digestPart (s : String) : Option String := (Text.splitOnce '@' s).map Prod.snd

def registryOf (s : String) : String := (splitRegistry (beforeDigest s)).1

/-- The repository as it is written, without registry and tag. -/
def repositoryOf (s : String) : String := (splitTag (splitRegistry (beforeDigest s)).2).1

def selectorOf (s : String) : Selector :=
  match digestPart s with
  | some d => .digest d
  | none => .tag ((splitTag (splitRegistry (beforeDigest s)).2).2.getD "latest")

/-- A single component of the default registry is of its library. -/
def inLibrary (registry repo : String) : String :=
  if registry == defaultRegistry && !Text.contains repo '/' then "library/" ++ repo else repo

theorem parse_ok_iff {s : String} {r : Reference} : Reference.parse s = .ok r ↔
    repositoryOf s ≠ "" ∧ r = ⟨registryOf s, inLibrary (registryOf s) (repositoryOf s), selectorOf s⟩ := by
  have hparse : Reference.parse s = if s.isEmpty then .error ("invalid reference " ++ Text.debugStr s)
      else if (repositoryOf s).isEmpty then .error ("invalid reference " ++ Text.debugStr s)
      else .ok ⟨registryOf s, inLibrary (registryOf s) (repositoryOf s), selectorOf s⟩ := by
    unfold Reference.parse registryOf repositoryOf selectorOf digestPart beforeDigest
    cases Text.splitOnce '@' s <;> rfl
  rw [hparse]
  by_cases hs : s = ""
  · subst hs
    exact ⟨nofun, fun h => absurd rfl h.1⟩
  · rw [if_neg (by simpa using hs)]
    by_cases hrepo : repositoryOf s = ""
    · rw [if_pos (by simp [hrepo])]
      exact ⟨nofun, fun h => absurd hrepo h.1⟩
    · rw [if_neg (by simpa using hrepo), Except.ok.injEq]
      exact ⟨fun h => ⟨hrepo, h.symm⟩, fun h => h.2.symm⟩

/-- A selector as it is written behind a path. -/
def Selector.written : Selector → String
  | .tag t => ":" ++ t
  | .digest d => "@" ++ d

/-- A tag that can be read back. -/
def Selector.Plain : Selector → Prop
  | .tag t => ':' ∉ t.toList ∧ '/' ∉ t.toList ∧ '@' ∉ t.toList ∧ t ≠ ""
  | .digest _ => True

/-- What is left of a path behind which a selector stands. Before a digest a tag is read off. -/
def Selector.kept : Selector → String → String
  | .tag _, rest => rest
  | .digest _, rest => (splitTag rest).1

theorem toList_written (path : String) (sel : Selector) : (path ++ sel.written).toList = match sel with
    | .tag t => path.toList ++ ':' :: t.toList
    | .digest d => path.toList ++ '@' :: d.toList := by
  cases sel <;> rw [String.toList_append, Selector.written, String.toList_append] <;> rfl

theorem splitRegistry_tag (path : String) {t : String} (hslash : '/' ∉ t.toList) :
    splitRegistry (path ++ ":" ++ t) = ((splitRegistry path).1, (splitRegistry path).2 ++ ":" ++ t) := by
  have hchars : ∀ q : String, (q ++ ":" ++ t).toList = q.toList ++ ':' :: t.toList := by
    intro q
    rw [String.toList_append, String.toList_append, List.append_assoc]
    rfl
  by_cases hhost : StartsWithHost path
  · obtain ⟨first, rest, hsplit, hhost⟩ := hhost
    obtain ⟨hpath, hno⟩ := Text.splitOnce_eq_some.mp hsplit
    have hsplit' : Text.splitOnce '/' (path ++ ":" ++ t) = some (first, rest ++ ":" ++ t) := by
      rw [Text.splitOnce_eq_some, hchars, hchars, hpath, List.append_assoc]
      exact ⟨rfl, hno⟩
    rw [splitRegistry_of_host hsplit hhost, splitRegistry_of_host hsplit' hhost]
  · have hno : ¬StartsWithHost (path ++ ":" ++ t) := by
      intro h
      obtain ⟨first, rest, hsplit, hfirst⟩ := h
      obtain ⟨hpath, hfree⟩ := Text.splitOnce_eq_some.mp hsplit
      rw [hchars] at hpath
      cases hold : Text.splitOnce '/' path with
      | none =>
        have hnone := Text.splitOnce_eq_none.mp hold
        have hin : '/' ∈ path.toList ++ ':' :: t.toList := by rw [hpath]; simp
        rcases List.mem_append.mp hin with hin | hin
        · exact hnone hin
        · cases List.mem_cons.mp hin with
          | inl hc => exact absurd hc (by decide)
          | inr hc => exact hslash hc
      | some p =>
        obtain ⟨first', rest'⟩ := p
        obtain ⟨hpath', hfree'⟩ := Text.splitOnce_eq_some.mp hold
        have hcut := Text.cutAt_eq_some.mpr ⟨hpath, hfree⟩
        rw [hpath', List.append_assoc, List.cons_append, Text.cutAt_append hfree'] at hcut
        have hsame : first'.toList = first.toList := congrArg Prod.fst (Option.some.inj hcut)
        rw [String.toList_inj.mp hsame] at hold
        exact hhost ⟨first, rest', hold, hfirst⟩
    rw [splitRegistry_of_not_host hhost, splitRegistry_of_not_host hno]

/-- What is read of a path with a selector behind it. -/
theorem parse_written {path : String} {sel : Selector} (hat : '@' ∉ path.toList) (hsel : sel.Plain) {r : Reference} :
    Reference.parse (path ++ sel.written) = .ok r ↔ sel.kept (splitRegistry path).2 ≠ "" ∧
      r = ⟨(splitRegistry path).1, inLibrary (splitRegistry path).1 (sel.kept (splitRegistry path).2), sel⟩ := by
  rw [parse_ok_iff]
  cases sel with
  | tag t =>
    obtain ⟨hcolon, hslash, hatt, hne⟩ := hsel
    have hnone : Text.splitOnce '@' (path ++ (Selector.tag t).written) = none := by
      rw [Text.splitOnce_eq_none, toList_written]
      simp [hat, hatt]
    have hassoc : path ++ (Selector.tag t).written = path ++ ":" ++ t := by
      rw [Selector.written, String.append_assoc]
    have hbefore : beforeDigest (path ++ (Selector.tag t).written) = path ++ ":" ++ t := by
      unfold beforeDigest
      rw [hnone, hassoc]
      rfl
    have htag : splitTag ((splitRegistry path).2 ++ ":" ++ t) = ((splitRegistry path).2, some t) := by
      refine splitTag_of_tagged ⟨?_, hcolon, hslash, hne⟩
      rw [String.toList_append, String.toList_append, List.append_assoc]
      rfl
    have hselector : selectorOf (path ++ (Selector.tag t).written) = .tag t := by
      unfold selectorOf digestPart
      rw [hnone, hbefore, splitRegistry_tag path hslash, htag]
      rfl
    rw [hselector, registryOf, repositoryOf, hbefore, splitRegistry_tag path hslash, htag]
    rfl
  | digest d =>
    have hsome : Text.splitOnce '@' (path ++ (Selector.digest d).written) = some (path, d) :=
      Text.splitOnce_eq_some.mpr ⟨toList_written path (.digest d), hat⟩
    have hbefore : beforeDigest (path ++ (Selector.digest d).written) = path := by
      unfold beforeDigest
      rw [hsome]
      rfl
    have hselector : selectorOf (path ++ (Selector.digest d).written) = .digest d := by
      unfold selectorOf digestPart
      rw [hsome]
      rfl
    rw [hselector, registryOf, repositoryOf, hbefore]
    rfl

/-- What is left is the path, or shorter. -/
theorem kept_eq_or_lt (sel : Selector) (rest : String) :
    sel.kept rest = rest ∨ (sel.kept rest).toList.length < rest.toList.length := by
  cases sel with
  | tag t => exact Or.inl rfl
  | digest d =>
    cases splitTag_fst rest with
    | inl h => exact Or.inl h.2
    | inr h => exact Or.inr h.2

theorem kept_length (sel : Selector) (rest : String) : (sel.kept rest).toList.length ≤ rest.toList.length := by
  cases kept_eq_or_lt sel rest with
  | inl h => rw [h]
  | inr h => exact h.le

/-- No component is lost. -/
theorem slash_kept (sel : Selector) (rest : String) : '/' ∈ (sel.kept rest).toList ↔ '/' ∈ rest.toList := by
  cases sel with
  | tag t => rfl
  | digest d =>
    show '/' ∈ (splitTag rest).1.toList ↔ _
    cases splitTag_cases rest with
    | inl h => rw [h]
    | inr h =>
      obtain ⟨repo, tag, hsplit, hpath, -, hslash, -⟩ := h
      rw [hsplit, hpath]
      simp [hslash]

/-- Nothing before the last colon matters. -/
theorem kept_append {p : String} (hp : ':' ∉ p.toList) (sel : Selector) (rest : String) :
    sel.kept (p ++ rest) = p ++ rest ↔ sel.kept rest = rest := by
  cases sel with
  | tag t => exact ⟨fun _ => rfl, fun _ => rfl⟩
  | digest d =>
    show (splitTag (p ++ rest)).1 = p ++ rest ↔ (splitTag rest).1 = rest
    cases splitTag_cases rest with
    | inr h =>
      obtain ⟨repo, tag, hsplit, hpath, hcolon, hslash, hne⟩ := h
      have hmore : splitTag (p ++ rest) = (p ++ repo, some tag) := by
        refine splitTag_of_tagged ⟨?_, hcolon, hslash, hne⟩
        rw [String.toList_append, String.toList_append, hpath, List.append_assoc]
      rw [hsplit, hmore]
      exact ⟨fun h => String.append_right_inj p |>.mp h, fun h => congrArg (p ++ ·) h⟩
    | inl h =>
      rw [h]
      refine ⟨fun _ => rfl, fun _ => ?_⟩
      cases splitTag_cases (p ++ rest) with
      | inl h' => rw [h']
      | inr h' =>
        obtain ⟨repo, tag, -, hpath, hcolon, hslash, hne⟩ := h'
        -- The last colon stands in `rest`, so `rest` would have the tag too.
        rw [String.toList_append] at hpath
        obtain ⟨more, hrepo, hrest⟩ : ∃ more,
            repo.toList = p.toList ++ more ∧ rest.toList = more ++ ':' :: tag.toList := by
          rcases List.append_eq_append_iff.mp hpath with ⟨more, hrepo, hrest⟩ | ⟨more, hfront, hrest⟩
          · exact ⟨more, hrepo, hrest⟩
          · cases more with
            | nil =>
              rw [List.append_nil] at hfront
              exact ⟨[], by rw [hfront, List.append_nil], hrest.symm⟩
            | cons c more =>
              obtain ⟨rfl, -⟩ := List.cons.inj hrest
              exact absurd (by rw [hfront]; simp) hp
        have htagged : TaggedAs rest (String.ofList more) tag := by
          refine ⟨?_, hcolon, hslash, hne⟩
          rw [String.toList_ofList]
          exact hrest
        rw [splitTag_of_tagged htagged] at h
        cases h

/-! ## What a reference is made of -/

theorem mem_rest {path : String} {c : Char} (h : c ∈ (splitRegistry path).2.toList) : c ∈ path.toList := by
  by_cases hhost : StartsWithHost path
  · obtain ⟨first, rest, hsplit, hfirst⟩ := hhost
    rw [splitRegistry_of_host hsplit hfirst] at h
    rw [(Text.splitOnce_eq_some.mp hsplit).1]
    exact List.mem_append_right _ (List.mem_cons_of_mem _ h)
  · rwa [splitRegistry_of_not_host hhost] at h

/-- A registry that is not the default stands in the path as it is. -/
theorem splitRegistry_other {path : String} (h : (splitRegistry path).1 ≠ defaultRegistry) :
    namesHost (splitRegistry path).1 = true ∧ canonicalRegistry (splitRegistry path).1 = (splitRegistry path).1 ∧
      '/' ∉ (splitRegistry path).1.toList ∧ ∀ c ∈ (splitRegistry path).1.toList, c ∈ path.toList := by
  by_cases hhost : StartsWithHost path
  · obtain ⟨first, rest, hsplit, hfirst⟩ := hhost
    obtain ⟨hpath, hno⟩ := Text.splitOnce_eq_some.mp hsplit
    rw [splitRegistry_of_host hsplit hfirst] at h ⊢
    have hsame : canonicalRegistry first = first := by
      cases canonicalRegistry_eq first with
      | inl heq => exact heq
      | inr heq => exact absurd heq h
    dsimp only
    rw [hsame]
    refine ⟨hfirst, hsame, hno, fun c hc => ?_⟩
    rw [hpath]
    exact List.mem_append_left _ hc
  · rw [splitRegistry_of_not_host hhost] at h
    exact absurd rfl h

theorem not_at_before (s : String) : '@' ∉ (beforeDigest s).toList := by
  unfold beforeDigest
  cases hsplit : Text.splitOnce '@' s with
  | none => exact Text.splitOnce_eq_none.mp hsplit
  | some p => exact (Text.splitOnce_eq_some.mp hsplit).2

theorem mem_repository {s : String} {c : Char} (h : c ∈ (repositoryOf s).toList) : c ∈ (beforeDigest s).toList := by
  apply mem_rest
  unfold repositoryOf at h
  cases splitTag_cases (splitRegistry (beforeDigest s)).2 with
  | inl hwhole => rwa [hwhole] at h
  | inr htagged =>
    obtain ⟨repo, tag, hsplit, hpath, -⟩ := htagged
    rw [hsplit] at h
    rw [hpath]
    exact List.mem_append_left _ h

theorem selectorOf_plain (s : String) : (selectorOf s).Plain := by
  unfold selectorOf
  cases digestPart s with
  | some d => trivial
  | none =>
    cases splitTag_cases (splitRegistry (beforeDigest s)).2 with
    | inl hwhole =>
      rw [hwhole]
      show Selector.Plain (.tag "latest")
      exact ⟨by decide, by decide, by decide, by decide⟩
    | inr htagged =>
      obtain ⟨repo, tag, hsplit, hpath, hcolon, hslash, hne⟩ := htagged
      rw [hsplit]
      refine ⟨hcolon, hslash, fun hat => not_at_before s (mem_rest ?_), hne⟩
      rw [hpath]
      exact List.mem_append_right _ (List.mem_cons_of_mem _ hat)

/-- A tag is read off the repository before a digest only. -/
theorem selectorOf_kept (s repo : String) : (selectorOf s).kept repo = repo ↔
    (Text.contains s '@' = true → (splitTag repo).2 = none) := by
  unfold selectorOf digestPart
  cases hsplit : Text.splitOnce '@' s with
  | none =>
    have hno : Text.contains s '@' ≠ true := fun h => Text.splitOnce_eq_none.mp hsplit (Text.contains_iff.mp h)
    exact ⟨fun _ h => absurd h hno, fun _ => rfl⟩
  | some p =>
    have hat : Text.contains s '@' = true := by
      rw [Text.contains_iff, (Text.splitOnce_eq_some.mp hsplit).1]
      simp
    show (splitTag repo).1 = repo ↔ _
    cases splitTag_fst repo with
    | inl h => exact ⟨fun _ _ => h.1, fun _ => h.2⟩
    | inr h =>
      constructor
      · intro heq
        rw [heq] at h
        exact absurd h.2 (Nat.lt_irrefl _)
      · intro hnone
        exact absurd (hnone hat) h.1

/-! ## Reading a name -/

/-- What is written before the selector of a name. -/
def namePath (r : Reference) : String :=
  if r.registry = defaultRegistry then (Text.stripPrefix "library/" r.repository).getD r.repository
  else r.registry ++ "/" ++ r.repository

/-- The repository is one that its name gives back in the default registry: a single component of the library, or
another path that does not start as a registry does. -/
structure PlainRepository (repo : String) : Prop where
  library : ∀ image, repo = "library/" ++ image → image ≠ "" ∧ '/' ∉ image.toList
  other : (∀ image, repo ≠ "library/" ++ image) → ¬StartsWithHost repo

/-- The name of what a text refers to is read as the same reference. -/
def Undone (s : String) : Prop :=
  (Text.contains s '@' = true → (splitTag (repositoryOf s)).2 = none) ∧
    (registryOf s = defaultRegistry → PlainRepository (repositoryOf s))

theorem inLibrary_slash {registry repo : String} (h : '/' ∈ repo.toList) : inLibrary registry repo = repo := by
  unfold inLibrary
  rw [Text.contains_iff.mpr h, Bool.not_true, Bool.and_false]
  rfl

theorem inLibrary_component {repo : String} (h : '/' ∉ repo.toList) :
    inLibrary defaultRegistry repo = "library/" ++ repo := by
  have hno : Text.contains repo '/' = false := by rwa [Bool.eq_false_iff, ne_eq, Text.contains_iff]
  unfold inLibrary
  rw [hno]
  rfl

theorem inLibrary_other {registry repo : String} (h : registry ≠ defaultRegistry) : inLibrary registry repo = repo := by
  unfold inLibrary
  rw [beq_eq_false_iff_ne.mpr h, Bool.false_and]
  rfl

theorem length_library (repo : String) : ("library/" ++ repo).toList.length = 8 + repo.toList.length := by
  rw [String.toList_append, List.length_append]
  rfl

theorem slash_library (repo : String) : '/' ∈ ("library/" ++ repo).toList := by
  rw [String.toList_append]
  exact List.mem_append_left _ (by decide)

theorem library_inj {a b : String} : "library/" ++ a = "library/" ++ b ↔ a = b := String.append_right_inj _

/-- In a registry that is written, the whole repository stands behind it. -/
theorem other_undone {registry repo : String} {sel : Selector} (hother : registry ≠ defaultRegistry)
    (hhost : namesHost registry = true) (hcanonical : canonicalRegistry registry = registry)
    (hslash : '/' ∉ registry.toList) (hat : '@' ∉ registry.toList) (hrepoAt : '@' ∉ repo.toList) (hsel : sel.Plain)
    (hne : repo ≠ "") :
    Reference.parse (registry ++ "/" ++ repo ++ sel.written) = .ok ⟨registry, repo, sel⟩ ↔ sel.kept repo = repo := by
  have hchars : (registry ++ "/" ++ repo).toList = registry.toList ++ '/' :: repo.toList := by
    rw [String.toList_append, String.toList_append, List.append_assoc]
    rfl
  have hsplit : splitRegistry (registry ++ "/" ++ repo) = (registry, repo) := by
    rw [splitRegistry_of_host (Text.splitOnce_eq_some.mpr ⟨hchars, hslash⟩) hhost, hcanonical]
  have hfree : '@' ∉ (registry ++ "/" ++ repo).toList := by
    rw [hchars]
    simp [hat, hrepoAt]
  rw [parse_written hfree hsel, hsplit, inLibrary_other hother, Reference.mk.injEq]
  constructor
  · exact fun h => h.2.2.1.symm
  · intro h
    dsimp only
    rw [h]
    exact ⟨hne, rfl, rfl, rfl⟩

/-- A single component of the default registry. -/
theorem component_undone {repo : String} {sel : Selector} (hslash : '/' ∉ repo.toList) (hat : '@' ∉ repo.toList)
    (hsel : sel.Plain) : Reference.parse (repo ++ sel.written) = .ok ⟨defaultRegistry, "library/" ++ repo, sel⟩ ↔
      repo ≠ "" ∧ sel.kept repo = repo := by
  have hkept : '/' ∉ (sel.kept repo).toList := fun h => hslash ((slash_kept sel repo).mp h)
  rw [parse_written hat hsel, splitRegistry_of_not_host (not_host_of_no_slash hslash), inLibrary_component hkept,
    Reference.mk.injEq, library_inj]
  constructor
  · intro h
    obtain ⟨hne, -, heq, -⟩ := h
    rw [← heq] at hne
    exact ⟨hne, heq.symm⟩
  · intro h
    dsimp only
    rw [h.2]
    exact ⟨h.1, rfl, rfl, rfl⟩

/-- Several components behind `library/` are not put back there. -/
theorem library_lost {image : String} {sel : Selector} (hslash : '/' ∈ image.toList) (hat : '@' ∉ image.toList)
    (hsel : sel.Plain) : Reference.parse (image ++ sel.written) ≠ .ok ⟨defaultRegistry, "library/" ++ image, sel⟩ := by
  rw [ne_eq, parse_written hat hsel, Reference.mk.injEq]
  intro h
  obtain ⟨-, hregistry, hrepo, -⟩ := h
  have hrest : (splitRegistry image).2.toList.length ≤ image.toList.length ∧
      ((splitRegistry image).2 = image ∨ (splitRegistry image).2.toList.length < image.toList.length) := by
    by_cases hhost : StartsWithHost image
    · obtain ⟨first, rest, hsplit, hfirst⟩ := hhost
      rw [splitRegistry_of_host hsplit hfirst, (Text.splitOnce_eq_some.mp hsplit).1, List.length_append,
        List.length_cons]
      exact ⟨by dsimp only; omega, Or.inr (by dsimp only; omega)⟩
    · rw [splitRegistry_of_not_host hhost]
      exact ⟨le_rfl, Or.inl rfl⟩
  have hkept := kept_length sel (splitRegistry image).2
  by_cases hmore : '/' ∈ (sel.kept (splitRegistry image).2).toList
  · rw [inLibrary_slash hmore] at hrepo
    have hlen := congrArg (fun q => q.toList.length) hrepo
    simp only [length_library] at hlen
    omega
  · rw [← hregistry, inLibrary_component hmore, library_inj] at hrepo
    rw [← hrepo] at hmore
    exact hmore hslash

/-- Outside the library, a path is read whole unless it starts with a registry. -/
theorem path_undone {repo : String} {sel : Selector} (hslash : '/' ∈ repo.toList)
    (hlibrary : ∀ image, repo ≠ "library/" ++ image) (hat : '@' ∉ repo.toList) (hsel : sel.Plain) (hne : repo ≠ "") :
    Reference.parse (repo ++ sel.written) = .ok ⟨defaultRegistry, repo, sel⟩ ↔
      sel.kept repo = repo ∧ ¬StartsWithHost repo := by
  rw [parse_written hat hsel, Reference.mk.injEq]
  by_cases hhost : StartsWithHost repo
  · refine ⟨fun h => ?_, fun h => absurd hhost h.2⟩
    obtain ⟨-, hregistry, hrepo, -⟩ := h
    obtain ⟨first, rest, hsplit, hfirst⟩ := hhost
    obtain ⟨hchars, -⟩ := Text.splitOnce_eq_some.mp hsplit
    rw [splitRegistry_of_host hsplit hfirst] at hregistry hrepo
    dsimp only at hregistry hrepo
    have hkept := kept_length sel rest
    by_cases hmore : '/' ∈ (sel.kept rest).toList
    · rw [inLibrary_slash hmore] at hrepo
      rw [← hrepo, hchars, List.length_append, List.length_cons] at hkept
      omega
    · rw [← hregistry, inLibrary_component hmore] at hrepo
      exact absurd hrepo (hlibrary _)
  · rw [splitRegistry_of_not_host hhost, inLibrary_slash ((slash_kept sel repo).mpr hslash)]
    constructor
    · exact fun h => ⟨h.2.2.1.symm, hhost⟩
    · intro h
      dsimp only
      rw [h.1]
      exact ⟨hne, rfl, rfl, rfl⟩

theorem plainRepository_library (image : String) :
    PlainRepository ("library/" ++ image) ↔ image ≠ "" ∧ '/' ∉ image.toList := by
  constructor
  · exact fun h => h.library image rfl
  · intro h
    refine ⟨fun image' heq => ?_, fun hother => absurd rfl (hother image)⟩
    rw [← library_inj.mp heq]
    exact h

theorem plainRepository_other {repo : String} (h : ∀ image, repo ≠ "library/" ++ image) :
    PlainRepository repo ↔ ¬StartsWithHost repo :=
  ⟨fun hplain => hplain.other h, fun hhost => ⟨fun image heq => absurd heq (h image), fun _ => hhost⟩⟩

/-- In the default registry, by how the repository is written. -/
theorem default_undone {repo : String} {sel : Selector} (hat : '@' ∉ repo.toList) (hsel : sel.Plain) (hne : repo ≠ "") :
    Reference.parse (namePath ⟨defaultRegistry, inLibrary defaultRegistry repo, sel⟩ ++ sel.written) =
        .ok ⟨defaultRegistry, inLibrary defaultRegistry repo, sel⟩ ↔
      sel.kept repo = repo ∧ PlainRepository repo := by
  unfold namePath
  rw [if_pos rfl]
  dsimp only
  by_cases hslash : '/' ∈ repo.toList
  · rw [inLibrary_slash hslash]
    cases hstrip : Text.stripPrefix "library/" repo with
    | none =>
      have hother : ∀ image, repo ≠ "library/" ++ image := by
        intro image heq
        rw [Text.stripPrefix_eq_some.mpr heq] at hstrip
        cases hstrip
      rw [Option.getD_none, path_undone hslash hother hat hsel hne, plainRepository_other hother]
    | some image =>
      obtain rfl : repo = "library/" ++ image := Text.stripPrefix_eq_some.mp hstrip
      rw [String.toList_append] at hat
      have hfree : '@' ∉ image.toList := fun h => hat (List.mem_append_right _ h)
      rw [Option.getD_some, plainRepository_library]
      by_cases hmore : '/' ∈ image.toList
      · constructor
        · exact fun h => absurd h (library_lost hmore hfree hsel)
        · exact fun h => absurd hmore h.2.2
      · rw [component_undone hmore hfree hsel, kept_append (by decide)]
        constructor
        · exact fun h => ⟨h.2, h.1, hmore⟩
        · exact fun h => ⟨h.2.1, h.1⟩
  · have hother : ∀ image, repo ≠ "library/" ++ image := by
      intro image himage
      rw [himage] at hslash
      exact hslash (slash_library image)
    rw [inLibrary_component hslash, Text.stripPrefix_eq_some.mpr rfl, Option.getD_some,
      component_undone hslash hat hsel, plainRepository_other hother]
    constructor
    · exact fun h => ⟨h.2, not_host_of_no_slash hslash⟩
    · exact fun h => ⟨hne, h.1⟩

/-- A name gives back the reference exactly when the text is undone. -/
theorem parse_namePath {s : String} {r : Reference} (h : Reference.parse s = .ok r) :
    Reference.parse (namePath r ++ r.selector.written) = .ok r ↔ Undone s := by
  obtain ⟨hne, rfl⟩ := parse_ok_iff.mp h
  have hat : '@' ∉ (repositoryOf s).toList := fun hat => not_at_before s (mem_repository hat)
  have hsel := selectorOf_plain s
  unfold Undone
  rw [← selectorOf_kept s (repositoryOf s)]
  by_cases hregistry : registryOf s = defaultRegistry
  · simp only [hregistry, true_imp_iff]
    exact default_undone hat hsel hne
  · obtain ⟨hhost, hcanonical, hslash, hmem⟩ := splitRegistry_other hregistry
    have hfree : '@' ∉ (registryOf s).toList := fun hat => not_at_before s (hmem _ hat)
    have hpath : namePath ⟨registryOf s, repositoryOf s, selectorOf s⟩ = registryOf s ++ "/" ++ repositoryOf s := by
      unfold namePath
      rw [if_neg hregistry]
    rw [inLibrary_other hregistry, hpath, other_undone hregistry hhost hcanonical hslash hfree hat hsel hne]
    constructor
    · exact fun h => ⟨h, fun hdefault => (hregistry hdefault).elim⟩
    · exact fun h => h.1

end Collocate.Registry

namespace Collocate.Image
open Registry

theorem referenceName_eq (r : Reference) : referenceName r = namePath r ++ r.selector.written := by
  unfold referenceName namePath
  by_cases hregistry : r.registry = defaultRegistry
  · simp only [if_pos hregistry]
    cases r.selector <;> rfl
  · simp only [if_neg hregistry]
    cases r.selector <;> rfl

theorem parse_referenceName {s : String} {r : Reference} (h : Reference.parse s = .ok r) :
    Reference.parse (referenceName r) = .ok r ↔ Undone s := by
  rw [referenceName_eq]
  exact parse_namePath h

/-! ## The image that a name finds -/

section Pull
variable {Tree net : Type} {x : Env Tree} {may : (op : Op Tree) → Fate Tree → Disk Tree → Prop} {src : Source net}
  {r : Reference} {conn : Conn net} {digest : String} {manifest : Manifest} {d d' : Disk Tree} {img : ImageMeta}

/-- Every image is in the file of its name. -/
def Filed (d : Disk Tree) : Prop := ∀ file img, d.metas.get? file = some (.whole img) → file = metaFile img.name

/-- The names of the images that are stored. -/
def storedNames (d : Disk Tree) : Set String :=
  {name | ∃ file img, d.metas.get? file = some (.whole img) ∧ img.name = name}

/-- Looking for an image changes nothing, and what it finds is in the file of the name. -/
theorem get_found {name : String} {q : Result ImageMeta} (h : Job.Goes (exec x) may (get name) d (.done q) d') :
    d' = d ∧ ∀ img, q = .ok img → d.metas.get? (metaFile name) = some (.whole img) := by
  rcases Job.Goes.of_bind h with ⟨e, rfl, hread⟩ | ⟨ans, d₁, hread, hrest⟩
  · obtain ⟨w, -, hr, -⟩ := Job.Goes.of_ask (Op.readMeta (metaFile name)) hread
    cases hr
  · obtain ⟨w, -, hans, hd⟩ := Job.Goes.of_ask (Op.readMeta (metaFile name)) hread
    have hexec : (∃ e, exec x (.readMeta (metaFile name)) w d = (.error (.io e), d)) ∨
        exec x (.readMeta (metaFile name)) w d = (readMetaFile d (metaFile name), d) := by
      cases w with
      | broken e => exact Or.inl ⟨e, rfl⟩
      | fine => exact Or.inr rfl
      | left tree => exact Or.inr rfl
      | strays layers => exact Or.inr rfl
      | lists names => exact Or.inr rfl
      | mixed => exact Or.inr rfl
    cases hans
    rw [hd] at hrest
    rcases hexec with ⟨e, hexec⟩ | hexec
    · rw [hexec] at hrest
      dsimp only at hrest
      split at hrest <;> obtain ⟨rfl, rfl⟩ := Job.Goes.of_done hrest <;> exact ⟨rfl, nofun⟩
    · rw [hexec] at hrest
      unfold readMetaFile at hrest
      rcases hget : d.metas.get? (metaFile name) with _ | ⟨img⟩ | _
      · rw [hget] at hrest
        obtain ⟨rfl, rfl⟩ := Job.Goes.of_done hrest
        exact ⟨rfl, nofun⟩
      · rw [hget] at hrest
        obtain ⟨rfl, rfl⟩ := Job.Goes.of_done hrest
        refine ⟨rfl, fun img' himg => ?_⟩
        rw [← Except.ok.inj himg]
      · rw [hget] at hrest
        obtain ⟨rfl, rfl⟩ := Job.Goes.of_done hrest
        exact ⟨rfl, nofun⟩

theorem pullStaged_named : Job.Yields (fun img : ImageMeta => img.name = referenceName r)
    (pullStaged x src r digest manifest conn) := by
  refine Job.yields_seq fun got => ?_
  refine Job.Yields.bind (Job.yields_lift fun img hparse => hparse) fun img hparse => ?_
  split
  · exact Job.yields_throw _
  · refine Job.yields_seq fun _ => Job.yields_seq fun kind => Job.yields_seq fun _ => Job.yields_pure ?_
    obtain ⟨raw, -, rfl⟩ := parseConfig_ok hparse
    rfl

theorem pullFresh_named : Job.Yields (fun img : ImageMeta => img.name = referenceName r)
    (pullFresh x src r digest manifest conn) := by
  refine Job.yields_seq fun _ => Job.Yields.bind pullStaged_named.attempt fun result hresult => ?_
  exact Job.yields_seq fun _ => Job.yields_lift hresult

/-- What looking for a name gives has that name, where no two names share a file. -/
theorem found_named {name : String} {names : Set String} (hfiled : Filed d) (hinj : Set.InjOn fileName names)
    (hname : name ∈ names) (hstored : storedNames d ⊆ names)
    (hfound : d.metas.get? (metaFile name) = some (.whole img)) : img.name = name := by
  have hin : img.name ∈ names := hstored ⟨_, img, hfound, rfl⟩
  exact metaFile_injOn hinj hin hname (hfiled _ img hfound).symm

theorem pull_named {names : Set String} (hfiled : Filed d) (hinj : Set.InjOn fileName names)
    (hname : referenceName r ∈ names) (hstored : storedNames d ⊆ names)
    (h : Job.Goes (exec x) may (pullAndImport x src r conn) d (.done (.ok img)) d') : img.name = referenceName r := by
  rcases Job.Goes.of_bind h with ⟨e, hr, -⟩ | ⟨got, d₁, hgot, h⟩
  · cases hr
  obtain ⟨⟨digest, manifest⟩, conn'⟩ := got
  have hd₁ : d₁ = d := by
    rcases hres : Registry.Client.resolveManifest x.codec src.http ⟨r.registry⟩ r.repository r.selector src.creds conn
      with ⟨e | found, conn''⟩
    · rw [hres] at hgot
      obtain ⟨hr, -⟩ := Job.Goes.of_done hgot
      cases hr
    · rw [hres] at hgot
      exact (Job.Goes.of_done hgot).2
  rw [hd₁] at h
  rcases Job.Goes.of_bind (m := (get (referenceName r)).attempt) h with ⟨e, hr, -⟩ | ⟨q, d₂, hget, hrest⟩
  · cases hr
  obtain ⟨q', hq', hget⟩ := Job.Goes.of_attempt hget
  cases hq'
  obtain ⟨hd₂, hfound⟩ := get_found hget
  cases q with
  | error e => exact hrest.yields pullFresh_named
  | ok existing =>
    dsimp only at hrest
    by_cases hdigest : existing.digest = digest
    · rw [if_pos hdigest] at hrest
      rcases Job.Goes.of_bind hrest with ⟨e, hr, -⟩ | ⟨present, d₃, -, hrest⟩
      · cases hr
      cases present with
      | true =>
        obtain ⟨hr, -⟩ := Job.Goes.of_done hrest
        cases hr
        exact found_named hfiled hinj hname hstored (hfound _ rfl)
      | false => exact hrest.yields pullFresh_named
    · rw [if_neg hdigest] at hrest
      exact hrest.yields pullFresh_named

/-- An image that is found or pulled has the name of its reference. -/
theorem missing_named {names : Set String} (hfiled : Filed d) (hinj : Set.InjOn fileName names)
    (hname : referenceName r ∈ names) (hstored : storedNames d ⊆ names)
    (h : Job.Goes (exec x) may (ensurePulled x src r conn .missing) d (.done (.ok img)) d') :
    img.name = referenceName r := by
  rcases Job.Goes.of_bind (m := (get (referenceName r)).attempt) h with ⟨e, hr, -⟩ | ⟨q, d₁, hget, hrest⟩
  · cases hr
  obtain ⟨q', hq', hget⟩ := Job.Goes.of_attempt hget
  cases hq'
  obtain ⟨rfl, hfound⟩ := get_found hget
  cases q with
  | ok existing =>
    obtain ⟨hr, -⟩ := Job.Goes.of_done hrest
    cases hr
    exact found_named hfiled hinj hname hstored (hfound _ rfl)
  | error e =>
    split at hrest
    · rename_i heq
      cases heq
    · exact pull_named hfiled hinj hname hstored hrest
    · obtain ⟨hr, -⟩ := Job.Goes.of_done hrest
      cases hr

end Pull

/-! ## Names identify references -/

/-- A name gives its reference back exactly when the text is undone. Texts that are have names of their own, and where
the names have files of their own too, an image that is found for one was stored for it. -/
theorem names_identify_iff {Tree net : Type} (x : Env Tree) (s : String) (r : Reference)
    (h : Reference.parse s = .ok r) :
    (Reference.parse (referenceName r) = .ok r ↔ Undone s) ∧
    (Undone s → ∀ s' r', Reference.parse s' = .ok r' → Undone s' → referenceName r = referenceName r' → r = r') ∧
    (Undone s → ∀ (may : (op : Op Tree) → Fate Tree → Disk Tree → Prop) (src : Source net) (conn : Conn net)
      (d d' : Disk Tree) (img : ImageMeta), Filed d → Set.InjOn fileName (insert (referenceName r) (storedNames d)) →
      Job.Goes (exec x) may (ensurePulled x src r conn .missing) d (.done (.ok img)) d' →
      ∀ s' r', Reference.parse s' = .ok r' → Undone s' → img.name = referenceName r' → r' = r) := by
  have hdistinct : ∀ s s' r r', Reference.parse s = .ok r → Reference.parse s' = .ok r' → Undone s → Undone s' →
      referenceName r = referenceName r' → r = r' := by
    intro s s' r r' hs hs' hundone hundone' hname
    have hback := (parse_referenceName hs).mpr hundone
    rw [hname, (parse_referenceName hs').mpr hundone'] at hback
    exact (Except.ok.inj hback).symm
  refine ⟨parse_referenceName h, fun hundone s' r' hs' hundone' => hdistinct s s' r r' h hs' hundone hundone', ?_⟩
  intro hundone may src conn d d' img hfiled hinj hgoes s' r' hs' hundone' hname
  have himg := missing_named hfiled hinj (Set.mem_insert ..) (Set.subset_insert ..) hgoes
  exact hdistinct s' s r' r hs' h hundone' hundone (hname.symm.trans himg)

def nginx : Reference := ⟨defaultRegistry, "library/nginx", .tag "latest"⟩

theorem nginx_undone : Undone "nginx" ∧ referenceName nginx = "nginx:latest" := by
  have hname : referenceName nginx = "nginx:latest" := by decide +kernel
  refine ⟨?_, hname⟩
  have hback : Reference.parse (referenceName nginx) = .ok nginx := by
    rw [hname]
    decide +kernel
  exact (@names_identify_iff (List String) Unit hostEnv "nginx" nginx (by decide +kernel)).1.mp hback

/-- Three texts whose names are read as other references: a longer path in the library, a path that starts as a registry
does, and a second tag before a digest. The first has the name of another repository, and finds its image. -/
theorem names_misread :
    (¬∀ s r, Reference.parse s = .ok r → Reference.parse (referenceName r) = .ok r) ∧
    (Reference.parse "docker.io/library/foo/bar" = .ok ⟨defaultRegistry, "library/foo/bar", .tag "latest"⟩ ∧
      Reference.parse "foo/bar" = .ok ⟨defaultRegistry, "foo/bar", .tag "latest"⟩ ∧
      referenceName ⟨defaultRegistry, "library/foo/bar", .tag "latest"⟩ =
        referenceName ⟨defaultRegistry, "foo/bar", .tag "latest"⟩ ∧
      ∀ (src : Source Unit) conn, Job.finish (exec hostEnv) .fine
        (ensurePulled hostEnv src ⟨defaultRegistry, "library/foo/bar", .tag "latest"⟩ conn .missing)
        { metas := OrdMap.empty.insert (metaFile "foo/bar:latest") (.whole (bare "foo/bar:latest")) } =
          (.ok (bare "foo/bar:latest"),
            { metas := OrdMap.empty.insert (metaFile "foo/bar:latest") (.whole (bare "foo/bar:latest")) })) ∧
    (Reference.parse "docker.io/quay.io/x/y" = .ok ⟨defaultRegistry, "quay.io/x/y", .tag "latest"⟩ ∧
      Reference.parse (referenceName ⟨defaultRegistry, "quay.io/x/y", .tag "latest"⟩) =
        .ok ⟨"quay.io", "x/y", .tag "latest"⟩) ∧
    (Reference.parse "ghcr.io/a:b:c@d" = .ok ⟨"ghcr.io", "a:b", .digest "d"⟩ ∧
      Reference.parse (referenceName ⟨"ghcr.io", "a:b", .digest "d"⟩) = .ok ⟨"ghcr.io", "a", .digest "d"⟩) := by
  have hparsed : Reference.parse "ghcr.io/a:b:c@d" = .ok ⟨"ghcr.io", "a:b", .digest "d"⟩ := by decide +kernel
  have hmisread : Reference.parse (referenceName ⟨"ghcr.io", "a:b", .digest "d"⟩) = .ok ⟨"ghcr.io", "a", .digest "d"⟩ :=
    by decide +kernel
  refine ⟨fun h => ?_, ⟨by decide +kernel, by decide +kernel, by decide +kernel, ?_⟩,
    ⟨by decide +kernel, by decide +kernel⟩, hparsed, hmisread⟩
  · have hback := h _ _ hparsed
    rw [hmisread] at hback
    exact absurd (congrArg Reference.repository (Except.ok.inj hback)) (by decide)
  intro src conn
  have hname : referenceName ⟨defaultRegistry, "library/foo/bar", .tag "latest"⟩ = "foo/bar:latest" := by
    decide +kernel
  unfold ensurePulled
  rw [hname]
  rfl

end Collocate.Image
