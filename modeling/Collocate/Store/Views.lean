import Collocate.Store.Node

/-! # What the calls of the store leave

One lemma for each program that `create`, `update`, `remove` and `recover` are made of: what holds
wherever it is cut off, and what its end leaves. `b` says whether calls may fail. -/
namespace Collocate.Store
set_option autoImplicit false

/-! ## Names -/

theorem display_injective : Function.Injective ContainerId.display := by
  intro i j h
  have hi : i.val < 16 ^ 12 := i.isLt
  have hj : j.val < 16 ^ 12 := j.isLt
  exact Fin.ext (Text.hexPad_inj hi hj (String.ofList_injective h))

/-- A name that `load_all` looks at. -/
def Visible (name : String) : Prop := Text.startsWith name "." = false

theorem visible_display (id : ContainerId) : Visible id.display := by
  rw [Visible, Bool.eq_false_iff]
  intro h
  obtain ⟨rest, hrest⟩ := Text.startsWith_iff.mp h
  have hmem : '.' ∈ id.display.toList := by
    rw [hrest, String.toList_append]
    exact List.mem_append_left _ (List.mem_singleton_self _)
  rw [ContainerId.display, String.toList_ofList] at hmem
  exact Text.hexPad_ne_dot hmem

theorem not_visible_of_tmp {name : String} (h : Text.startsWith name ".tmp-" = true) : ¬ Visible name := by
  obtain ⟨rest, rfl⟩ := Text.startsWith_iff.mp h
  have hdot : Text.startsWith (".tmp-" ++ rest) "." = true :=
    Text.startsWith_iff.mpr ⟨"tmp-" ++ rest, by rw [← String.append_assoc]; rfl⟩
  rw [Visible, hdot]
  exact Bool.noConfusion

theorem startsWith_tmpDir (id : ContainerId) : Text.startsWith (tmpDir id) ".tmp-" = true :=
  Text.startsWith_iff.mpr ⟨id.display, rfl⟩

/-! ## Looking at the directories -/

/-- The areas that hold containers. -/
def bases : List Area := [.state, .run]

theorem baseOf_mem (spec : Spec) : baseOf spec ∈ bases := by
  unfold baseOf
  split <;> decide

def specAt (d : Files) (a : Area) (name : String) : Option File := ((d a).get? name).bind (·.get? specFile)

/-- The two directories a container may have, by what they have for a spec. -/
def slot (d : Files) (name : String) : Option File × Option File := (specAt d .state name, specAt d .run name)

/-- Everything else is as it was. -/
def Only (a : Area) (name : String) (d d' : Files) : Prop :=
  ∀ a' name', (a' = a → name' ≠ name) → (d' a').get? name' = (d a').get? name'

theorem Only.refl (a : Area) (name : String) (d : Files) : Only a name d d := fun _ _ _ => rfl

theorem Only.trans {a : Area} {name : String} {d d' d'' : Files} (h : Only a name d d') (h' : Only a name d' d'') :
    Only a name d d'' :=
  fun a' name' hne => (h' a' name' hne).trans (h a' name' hne)

theorem get?_set (d : Files) (a a' : Area) (dirs : OrdMap String Dir) (name : String) :
    ((d.set a dirs) a').get? name = if a' = a then dirs.get? name else (d a').get? name := by
  unfold Files.set
  by_cases ha : a' = a
  · subst ha
    rw [Function.update_self, if_pos rfl]
  · rw [Function.update_of_ne ha, if_neg ha]

theorem only_insert (d : Files) (a : Area) (name : String) (dir : Dir) :
    Only a name d (d.set a ((d a).insert name dir)) := by
  intro a' name' hne
  rw [get?_set]
  split
  · rename_i ha
    rw [OrdMap.get?_insert, if_neg (hne ha), ha]
  · rfl

theorem only_erase (d : Files) (a : Area) (name : String) : Only a name d (d.set a ((d a).erase name)) := by
  intro a' name' hne
  rw [get?_set]
  split
  · rename_i ha
    rw [OrdMap.get?_erase, if_neg (hne ha), ha]
  · rfl

theorem get?_set_insert (d : Files) (a : Area) (name : String) (dir : Dir) :
    ((d.set a ((d a).insert name dir)) a).get? name = some dir := by
  rw [get?_set, if_pos rfl, OrdMap.get?_insert, if_pos rfl]

theorem get?_set_erase (d : Files) (a : Area) (name : String) : ((d.set a ((d a).erase name)) a).get? name = none := by
  rw [get?_set, if_pos rfl, OrdMap.get?_erase, if_pos rfl]

/-- A directory at its new place. -/
def moved (d : Files) (a : Area) (name : String) (a' : Area) (name' : String) (dir : Dir) : Files :=
  let gone := d.set a ((d a).erase name)
  gone.set a' ((gone a').insert name' dir)

theorem get?_moved (d : Files) (a a' a₁ : Area) (name name' name₁ : String) (dir : Dir) :
    (moved d a name a' name' dir a₁).get? name₁ =
      if a₁ = a' ∧ name₁ = name' then some dir
      else if a₁ = a ∧ name₁ = name then none
      else (d a₁).get? name₁ := by
  have hgone : ((d.set a ((d a).erase name)) a₁).get? name₁ =
      if a₁ = a ∧ name₁ = name then none else (d a₁).get? name₁ := by
    rw [get?_set]
    by_cases ha : a₁ = a
    · subst ha
      by_cases hname : name₁ = name <;> simp [hname]
    · simp [ha]
  unfold moved
  rw [get?_set]
  by_cases ha : a₁ = a'
  · subst ha
    by_cases hname : name₁ = name'
    · simp [hname]
    · rw [if_pos rfl, OrdMap.get?_insert, if_neg hname, hgone]
      simp [hname]
  · rw [if_neg ha, hgone]
    simp [ha]

theorem doMove_free {d : Files} {a a' : Area} {name name' : String} {dir : Dir} (hdir : (d a).get? name = some dir)
    (hroom : ∀ there, (d a').get? name' = some there → there.isEmpty = true) :
    doMove d a name a' name' = (.ok (), moved d a name a' name' dir) := by
  unfold doMove
  rw [hdir]
  cases hthere : (d a').get? name' with
  | none => rfl
  | some there =>
    simp only [hroom there hthere, if_true]
    rfl

/-! ## Fates -/

/-- What may befall a call: directories can be listed, what is there is not said to be missing, and
unless `b` nothing fails. -/
def may (b : Bool) (call : Call) (w : Fate) (_ : Files) : Prop :=
  ∀ e, w = .broken e → b = true ∧ (∀ a, call ≠ .names a) ∧ Error.io e ≠ noSuchFile

theorem may_fine (b : Bool) (call : Call) (d : Files) : may b call .fine d := fun _ h => Fate.noConfusion h

variable {b : Bool} {W : Files → Prop} {P : Files → Prop} {Q : Unit → Files → Prop} {E : Error → Files → Prop}

/-- A call that fails and changes nothing, or does what it is for. -/
theorem must_keeps {call : Call} {h : call.Ans = Result Unit} {f : Files → Except Error Unit × Files}
    (hexec : ∀ w d, (cast h (exec call w d).1, (exec call w d).2) = changed w d (f d))
    (hok : ∀ d, P d → W (f d).2 ∧ ((f d).1 = .ok () → Q () (f d).2) ∧ ∀ e, (f d).1 = .error e → E e (f d).2)
    (hbroken : b = true → ∀ d e, P d → W d ∧ E e d) :
    Job.Keeps exec (may b) W P (must call h) Q E := by
  refine Job.Keeps.bind (Q := fun a d => (∀ u, cast h a = .ok u → Q u d) ∧ ∀ e, cast h a = .error e → E e d)
    (Job.Keeps.ask fun d w hd hw => ?_) fun a => Job.Keeps.lift (fun u d hd hu => hd.1 u hu) fun e d hd he => hd.2 e he
  have heq := hexec w d
  cases w with
  | broken e =>
    obtain ⟨hfst, hsnd⟩ := Prod.mk.inj heq
    obtain ⟨hW, -⟩ := hbroken (hw e rfl).1 d (.io e) hd
    refine ⟨by rw [hsnd]; exact hW, fun u hu => ?_, fun e' he' => ?_⟩
    · rw [hfst] at hu
      cases hu
    · rw [hsnd]
      exact (hbroken (hw e rfl).1 d e' hd).2
  | fine | order l =>
    obtain ⟨hfst, hsnd⟩ := Prod.mk.inj heq
    obtain ⟨hW, hQ, hE⟩ := hok d hd
    rw [hsnd, hfst]
    exact ⟨hW, fun _ hu => hQ hu, hE⟩

/-- A call that has nothing to do here. -/
theorem must_same {call : Call} {h : call.Ans = Result Unit}
    (hexec : ∀ w d, (cast h (exec call w d).1, (exec call w d).2) = changed w d (.ok (), d)) (hW : ∀ d, P d → W d)
    (hQ : ∀ d, P d → Q () d) (hE : b = true → ∀ d e, P d → E e d) : Job.Keeps exec (may b) W P (must call h) Q E :=
  must_keeps hexec (fun d hd => ⟨hW d hd, fun _ => hQ d hd, fun _ he => nomatch he⟩)
    fun hb d e hd => ⟨hW d hd, hE hb d e hd⟩

/-! ## Writing a file -/

/-- The directory has `c` for `file`, and what else it had but for the temporary file. -/
def Put (a : Area) (name file : String) (c : Option File) (d d' : Files) : Prop :=
  Only a name d d' ∧ ∃ dir dir', (d a).get? name = some dir ∧ (d' a).get? name = some dir' ∧ dir'.get? file = c ∧
    ∀ f, f ≠ file → f ≠ tmpName file → dir'.get? f = dir.get? f

theorem tmpName_ne (file : String) : tmpName file ≠ file := by
  intro h
  have hlen := congrArg String.length h
  rw [tmpName, String.length_append, String.length_append] at hlen
  have hdot : ".".length = 1 := rfl
  have htmp : ".tmp".length = 4 := rfl
  omega

theorem Put.set {a : Area} {name file : String} {c c' : Option File} {d d' : Files} {dir dir' : Dir}
    (h : Put a name file c d d') (hdir : (d' a).get? name = some dir) (hfile : dir'.get? file = c')
    (hrest : ∀ f, f ≠ file → f ≠ tmpName file → dir'.get? f = dir.get? f) :
    Put a name file c' d (d'.set a ((d' a).insert name dir')) := by
  obtain ⟨honly, dir₀, dir₁, h₀, h₁, -, hsame⟩ := h
  obtain rfl : dir₁ = dir := Option.some.inj (h₁.symm.trans hdir)
  refine ⟨honly.trans (only_insert _ _ _ _), dir₀, dir', h₀, get?_set_insert _ _ _ _, hfile, fun f hne htmp => ?_⟩
  rw [hrest f hne htmp, hsame f hne htmp]

/-- The temporary file holds `c`. -/
def Drafted (a : Area) (name file : String) (c : File) (d : Files) : Prop :=
  ∃ dir, (d a).get? name = some dir ∧ dir.get? (tmpName file) = some c

theorem draft_set {a : Area} {name file : String} {c : Option File} {d d' : Files} {dir : Dir} (t : File)
    (h : Put a name file c d d') (hdir : (d' a).get? name = some dir) :
    Put a name file c d (d'.set a ((d' a).insert name (dir.insert (tmpName file) t))) ∧
      Drafted a name file t (d'.set a ((d' a).insert name (dir.insert (tmpName file) t))) := by
  obtain ⟨_, _, dir₁, _, h₁, hfile, _⟩ := id h
  obtain rfl : dir₁ = dir := Option.some.inj (h₁.symm.trans hdir)
  refine ⟨h.set hdir ?_ fun f _ htmp => ?_, _, get?_set_insert _ _ _ _, ?_⟩
  · rw [OrdMap.get?_insert, if_neg (tmpName_ne file).symm, hfile]
  · rw [OrdMap.get?_insert, if_neg htmp]
  · rw [OrdMap.get?_insert, if_pos rfl]

theorem atomicWrite_keeps {a : Area} {name file : String} {content : File} {d₀ : Files} {dir : Dir}
    (hdir : (d₀ a).get? name = some dir) (hW : ∀ d, Put a name file (dir.get? file) d₀ d → W d)
    (hW' : ∀ d, Put a name file (some content) d₀ d → W d) :
    Job.Keeps exec (may b) W (· = d₀) (atomicWrite a name file content) (fun _ d => Put a name file (some content) d₀ d)
      (fun _ d => b = true ∧ (Put a name file (dir.get? file) d₀ d ∨ Put a name file (some content) d₀ d)) := by
  let draft (c : File) (d : Files) : Prop := Put a name file (dir.get? file) d₀ d ∧ Drafted a name file c d
  have hsame : Put a name file (dir.get? file) d₀ d₀ := ⟨.refl _ _ _, dir, dir, hdir, hdir, rfl, fun _ _ _ => rfl⟩
  refine Job.Keeps.bind (Q := fun _ => draft (.text ""))
    (must_keeps (fun _ _ => rfl) (fun d hd => ?_) fun hb d e hd => ?_) fun _ => ?_
  · subst hd
    simp only [inDir, hdir]
    have hset := draft_set (.text "") hsame hdir
    exact ⟨hW _ hset.1, fun _ => hset, fun _ he => nomatch he⟩
  · subst hd
    exact ⟨hW d hsame, hb, .inl hsame⟩
  refine Job.Keeps.bind (Q := fun _ => draft content)
    (must_keeps (fun _ _ => rfl) (fun d hd => ?_) fun hb d e hd => ?_) fun _ => ?_
  · obtain ⟨hput, dir', hdir', -⟩ := hd
    simp only [inDir, hdir']
    have hset := draft_set content hput hdir'
    exact ⟨hW _ hset.1, fun _ => hset, fun _ he => nomatch he⟩
  · exact ⟨hW d hd.1, hb, .inl hd.1⟩
  refine Job.Keeps.bind (Q := fun _ d => Put a name file (some content) d₀ d)
    (must_keeps (fun _ _ => rfl) (fun d hd => ?_) fun hb d e hd => ?_) fun _ => ?_
  · obtain ⟨hput, dir', hdir', htmp⟩ := hd
    simp only [inDir, hdir', htmp]
    have hset : Put a name file (some content) d₀
        (d.set a ((d a).insert name ((dir'.erase (tmpName file)).insert file content))) := by
      refine hput.set hdir' ?_ fun f hne hf => ?_
      · rw [OrdMap.get?_insert, if_pos rfl]
      · rw [OrdMap.get?_insert, if_neg hne, OrdMap.get?_erase, if_neg hf]
    exact ⟨hW' _ hset, fun _ => hset, fun _ he => nomatch he⟩
  · exact ⟨hW d hd.1, hb, .inl hd.1⟩
  exact must_same (fun _ _ => rfl) hW' (fun _ hd => hd) fun hb _ _ hd => ⟨hb, .inr hd⟩

/-! ## Removing a directory -/

/-- What is left of a directory that is being removed. -/
def Shrunk (a : Area) (name : String) (d d' : Files) : Prop :=
  Only a name d d' ∧ ∀ dir', (d' a).get? name = some dir' →
    ∃ dir, (d a).get? name = some dir ∧ ∀ f, dir'.get? f = none ∨ dir'.get? f = dir.get? f

theorem Shrunk.refl (a : Area) (name : String) (d : Files) : Shrunk a name d d :=
  ⟨.refl _ _ _, fun dir' h => ⟨dir', h, fun _ => .inr rfl⟩⟩

/-- The directory still has exactly these files. -/
def Left (a : Area) (name : String) (d₀ : Files) (files : List String) (d : Files) : Prop :=
  Shrunk a name d₀ d ∧ files.Nodup ∧ ∃ dir, (d a).get? name = some dir ∧ ∀ f, dir.contains f = true ↔ f ∈ files

theorem Left.unlink {a : Area} {name file : String} {d₀ d : Files} {files : List String} {dir : Dir}
    (h : Left a name d₀ (file :: files) d) (hdir : (d a).get? name = some dir) :
    Left a name d₀ files (d.set a ((d a).insert name (dir.erase file))) := by
  obtain ⟨⟨honly, hshrunk⟩, hnodup, dir₁, h₁, hfiles⟩ := h
  obtain rfl : dir₁ = dir := Option.some.inj (h₁.symm.trans hdir)
  obtain ⟨hnot, hnodup⟩ := List.nodup_cons.mp hnodup
  obtain ⟨dir₀, h₀, hsub⟩ := hshrunk dir₁ hdir
  refine ⟨⟨honly.trans (only_insert _ _ _ _), fun dir' hdir' => ?_⟩, hnodup, _, get?_set_insert _ _ _ _, fun f => ?_⟩
  · rw [get?_set_insert] at hdir'
    cases hdir'
    refine ⟨dir₀, h₀, fun f => ?_⟩
    rw [OrdMap.get?_erase]
    split
    · exact .inl rfl
    · exact hsub f
  · have hf := hfiles f
    rw [OrdMap.contains, OrdMap.get?_erase]
    split
    · rename_i heq
      subst heq
      exact ⟨fun h => Bool.noConfusion h, fun h => absurd h hnot⟩
    · rename_i hne
      rw [OrdMap.contains] at hf
      rw [hf, List.mem_cons]
      exact or_iff_right hne

theorem isEmpty_of_contains {dir : Dir} (h : ∀ f, dir.contains f = true ↔ f ∈ ([] : List String)) :
    dir.isEmpty = true := by
  cases hentries : dir.entries with
  | nil => rw [OrdMap.isEmpty, hentries]; rfl
  | cons e rest =>
    have hget : dir.get? e.1 = some e.2 := OrdMap.get?_eq_some.mpr (hentries ▸ List.mem_cons_self)
    exact absurd ((h e.1).mp (by rw [OrdMap.contains, hget]; rfl)) List.not_mem_nil

theorem inOrder_perm (w : Fate) (names : List String) : (inOrder w names).Perm names := by
  unfold inOrder
  split
  · split
    · rename_i h
      exact List.isPerm_iff.mp h
    · exact .refl _
  · exact .refl _

/-- What `entries` answers of a directory as it was. -/
theorem entries_keeps {a : Area} {name : String} {d₀ : Files} (hW : W d₀) :
    Job.Keeps exec (may b) W (· = d₀) (entries a name) (fun found d => d = d₀ ∧ match found with
      | .ok files => Left a name d₀ files d₀
      | .error _ => b = true ∨ (d₀ a).get? name = none) E := by
  refine Job.Keeps.ask fun d w hd hw => ?_
  subst hd
  have hlisted : ∀ dir, (d a).get? name = some dir → Left a name d (inOrder w dir.keys) d := by
    intro dir hdir
    refine ⟨.refl _ _ _, (inOrder_perm w _).nodup_iff.mpr dir.keys_nodup, dir, hdir, fun f => ?_⟩
    rw [(inOrder_perm w _).mem_iff, OrdMap.mem_keys, OrdMap.contains, Option.isSome_iff_exists]
  cases w with
  | broken e => exact ⟨hW, rfl, .inl (hw e rfl).1⟩
  | fine | order l =>
    cases hdir : (d a).get? name with
    | none =>
      simp only [exec, hdir]
      exact ⟨hW, trivial, .inr trivial⟩
    | some dir =>
      simp only [exec, hdir]
      exact ⟨hW, trivial, hlisted dir hdir⟩

theorem unlink_keeps {a : Area} {name : String} {d₀ : Files} (hW : ∀ d, Shrunk a name d₀ d → W d) (file : String)
    (files : List String) :
    Job.Keeps exec (may b) W (Left a name d₀ (file :: files)) (must (.unlink a name file) rfl)
      (fun _ => Left a name d₀ files) (fun _ d => Shrunk a name d₀ d ∧ (b = true ∨ (d₀ a).get? name = none)) := by
  refine must_keeps (fun _ _ => rfl) (fun d hd => ?_) fun hb d _ hd => ⟨hW d hd.1, hd.1, .inl hb⟩
  obtain ⟨dir, hdir, hfiles⟩ := hd.2.2
  have hnext := hd.unlink hdir
  simp only [inDir, hdir, (hfiles file).mpr List.mem_cons_self, if_true]
  exact ⟨hW _ hnext.1, fun _ => hnext, fun _ he => nomatch he⟩

theorem removeDirAll_keeps {a : Area} {name : String} {d₀ : Files} (hW : ∀ d, Shrunk a name d₀ d → W d) :
    Job.Keeps exec (may b) W (· = d₀) (removeDirAll a name)
      (fun _ d => Shrunk a name d₀ d ∧ (d a).get? name = none)
      (fun _ d => Shrunk a name d₀ d ∧ (b = true ∨ (d₀ a).get? name = none)) := by
  refine Job.Keeps.bind (entries_keeps (hW d₀ (.refl _ _ _))) fun found => ?_
  refine Job.Keeps.bind (Q := fun files => Left a name d₀ files)
    (Job.Keeps.lift (fun files d hd hok => ?_) fun e d hd he => ?_) fun files => ?_
  · subst hok
    exact hd.1 ▸ hd.2
  · subst he
    exact ⟨hd.1 ▸ .refl _ _ _, hd.2⟩
  refine Job.Keeps.bind (Job.Keeps.forM files fun file rest => unlink_keeps hW file rest) fun _ => ?_
  refine must_keeps (fun _ _ => rfl) (fun d hd => ?_) fun hb d _ hd => ⟨hW d hd.1, hd.1, .inl hb⟩
  obtain ⟨⟨honly, -⟩, -, dir, hdir, hfiles⟩ := hd
  have hgone : Shrunk a name d₀ (d.set a ((d a).erase name)) := by
    refine ⟨honly.trans (only_erase _ _ _), fun dir' hdir' => ?_⟩
    rw [get?_set_erase] at hdir'
    cases hdir'
  simp only [hdir, isEmpty_of_contains hfiles, if_true]
  exact ⟨hW _ hgone, fun _ => ⟨hgone, get?_set_erase _ _ _⟩, fun _ he => nomatch he⟩

/-! ## Listing -/

/-- The spec that `load_all` takes from a directory. -/
def listedAt (d : Files) (a : Area) (name : String) : Option Spec :=
  if Text.startsWith name "." then none
  else match specAt d a name with
    | some (.spec s) => some s
    | _ => none

/-- What `load_all` lists. -/
def Listed (d : Files) (s : Spec) : Prop := ∃ a ∈ bases, ∃ name, listedAt d a name = some s

/-- There is a spec that this version does not read. -/
def Newer (d : Files) : Prop := ∃ s, Listed d s ∧ specSchema < s.schema

/-- Every spec is whole and stands under its own id, in one of the two areas. -/
structure Sound (d : Files) : Prop where
  named : ∀ a ∈ bases, ∀ name f, Visible name → specAt d a name = some f → ∃ s, f = .spec s ∧ s.id.display = name
  once : ∀ name, Visible name → specAt d .state name = none ∨ specAt d .run name = none

theorem sound_noFiles : Sound noFiles where
  named := fun _ _ _ _ _ h => nomatch h
  once := fun _ _ => .inl rfl

theorem listedAt_iff {d : Files} {a : Area} {name : String} {s : Spec} :
    listedAt d a name = some s ↔ Visible name ∧ specAt d a name = some (.spec s) := by
  unfold listedAt Visible
  cases Text.startsWith name "." with
  | true => simp
  | false =>
    rw [if_neg Bool.false_ne_true]
    cases specAt d a name with
    | none => simp
    | some f => cases f <;> simp

/-- The listing only depends on the specs that show. -/
theorem listed_congr {d d' : Files} (h : ∀ a ∈ bases, ∀ name, Visible name → specAt d' a name = specAt d a name)
    (s : Spec) :
    Listed d' s ↔ Listed d s := by
  refine exists_congr fun a => and_congr_right fun ha => exists_congr fun name => ?_
  rw [listedAt_iff, listedAt_iff]
  exact and_congr_right fun hv => by rw [h a ha name hv]

theorem Sound.congr {d d' : Files} (hd : Sound d)
    (h : ∀ a ∈ bases, ∀ name, Visible name → specAt d' a name = specAt d a name) : Sound d' where
  named := fun a ha name f hv hf => hd.named a ha name f hv (h a ha name hv ▸ hf)
  once := fun name hv => by
    rw [h .state (by decide) name hv, h .run (by decide) name hv]
    exact hd.once name hv

theorem names_keeps {a : Area} {d₀ : Files} (hW : W d₀) :
    Job.Keeps exec (may b) W (· = d₀) (names a) (fun found d => d = d₀ ∧ found.Perm (d₀ a).keys) E := by
  refine Job.Keeps.ask fun d w hd hw => ?_
  subst hd
  cases w with
  | broken e => exact absurd rfl ((hw e rfl).2.1 a)
  | fine => exact ⟨hW, rfl, inOrder_perm .fine _⟩
  | order l => exact ⟨hW, rfl, inOrder_perm (.order l) _⟩

/-- How reading a file may end. -/
def ReadAs (b : Bool) (there : Option File) : Result File → Prop
  | .ok f => there = some f
  | .error e => e = noSuchFile ∧ there = none ∨ e ≠ noSuchFile ∧ b = true

theorem readFile_keeps {a : Area} {name file : String} {d₀ : Files} (hW : W d₀) :
    Job.Keeps exec (may b) W (· = d₀) (readFile a name file)
      (fun r d => d = d₀ ∧ ReadAs b (((d₀ a).get? name).bind (·.get? file)) r) E := by
  refine Job.Keeps.ask fun d w hd hw => ?_
  subst hd
  cases w with
  | broken e =>
    obtain ⟨hb, -, hne⟩ := hw e rfl
    exact ⟨hW, rfl, .inr ⟨hne, hb⟩⟩
  | fine | order l =>
    cases hfile : ((d a).get? name).bind (·.get? file) with
    | none =>
      simp only [exec, hfile]
      exact ⟨hW, trivial, .inl ⟨rfl, rfl⟩⟩
    | some f =>
      simp only [exec, hfile]
      exact ⟨hW, trivial, rfl⟩

/-- Why `load_all` fails: a call did, or there is a newer spec. -/
def LoadFails (b : Bool) (d : Files) : Prop := b = true ∨ Newer d

theorem loadEntry_keeps {a : Area} (ha : a ∈ bases) {d₀ : Files} (hd₀ : Sound d₀) (hW : W d₀) (name : String) :
    Job.Keeps exec (may b) W (· = d₀) (loadEntry a name)
      (fun r d => d = d₀ ∧ r = listedAt d₀ a name ∧ ∀ s, r = some s → ¬ specSchema < s.schema)
      (fun _ d => d = d₀ ∧ LoadFails b d₀) := by
  unfold loadEntry
  split
  · rename_i hdot
    refine Job.Keeps.pure fun d hd => ⟨hd, ?_, fun _ h => nomatch h⟩
    rw [listedAt, if_pos hdot]
  · rename_i hdot
    have hvisible : Visible name := by simpa [Visible] using hdot
    refine Job.Keeps.bind (readFile_keeps hW) fun r => ?_
    cases r with
    | error e =>
      show Job.Keeps _ _ _ _ (if e = noSuchFile then pure none else Job.throw e) _ _
      refine Job.Keeps.each fun d hd => ?_
      obtain ⟨rfl, ⟨he, hnone⟩ | ⟨he, hb⟩⟩ := hd
      · rw [if_pos he]
        refine Job.Keeps.pure fun d' hd' => ⟨hd', ?_, fun _ h => nomatch h⟩
        rw [listedAt, if_neg hdot, specAt, hnone]
      · rw [if_neg he]
        exact Job.Keeps.throw fun d' hd' => ⟨hd', .inl hb⟩
    | ok f =>
      refine Job.Keeps.each fun d hd => ?_
      obtain ⟨rfl, hf⟩ := hd
      obtain ⟨s, rfl, -⟩ := hd₀.named a ha name f hvisible hf
      have hlisted : listedAt d a name = some s := listedAt_iff.mpr ⟨hvisible, hf⟩
      show Job.Keeps _ _ _ _ (decoded a name (.spec s)) _ _
      rw [decoded]
      by_cases hnewer : s.schema > specSchema
      · rw [if_pos hnewer]
        exact Job.Keeps.throw fun _ h => ⟨h, .inr ⟨s, ⟨a, ha, name, hlisted⟩, hnewer⟩⟩
      · rw [if_neg hnewer]
        refine Job.Keeps.pure fun _ h => ⟨h, hlisted.symm, fun t ht => ?_⟩
        cases ht
        exact hnewer

/-- The specs of one area: those of its directories, each once. -/
def AreaList (d : Files) (a : Area) (l : List Spec) : Prop :=
  (l.map (·.id)).Nodup ∧ (∀ s, s ∈ l ↔ ∃ name, listedAt d a name = some s) ∧ ∀ s ∈ l, ¬ specSchema < s.schema

theorem areaList_of_names {d : Files} (hd : Sound d) {a : Area} (ha : a ∈ bases) {names : List String}
    (hnames : names.Perm (d a).keys) {read : List (Option Spec)}
    (hread : List.Forall₂ (fun name r => r = listedAt d a name ∧ ∀ s, r = some s → ¬ specSchema < s.schema) names
      read) :
    AreaList d a (read.filterMap id) := by
  obtain ⟨hmap, hschema⟩ : read = names.map (listedAt d a) ∧ ∀ r ∈ read, ∀ s, r = some s → ¬ specSchema < s.schema := by
    clear hnames
    induction hread with
    | nil => exact ⟨rfl, List.forall_mem_nil _⟩
    | cons h _ ih => exact ⟨by rw [List.map_cons, ← h.1, ← ih.1], List.forall_mem_cons.mpr ⟨h.2, ih.2⟩⟩
  have hlist : read.filterMap id = names.filterMap (listedAt d a) := by
    rw [hmap, List.filterMap_map]
    rfl
  have hmem : ∀ s, s ∈ read.filterMap id ↔ ∃ name, listedAt d a name = some s := by
    intro s
    rw [hlist, List.mem_filterMap]
    refine ⟨fun ⟨name, _, h⟩ => ⟨name, h⟩, fun ⟨name, h⟩ => ⟨name, ?_, h⟩⟩
    obtain ⟨dir, hdir, -⟩ := Option.bind_eq_some_iff.mp (listedAt_iff.mp h).2
    exact hnames.mem_iff.mpr (OrdMap.mem_keys.mpr ⟨dir, hdir⟩)
  refine ⟨?_, hmem, fun s hs => ?_⟩
  · -- each spec has the name of its directory for an id
    have hsub : ((names.filterMap (listedAt d a)).map fun s => s.id.display).Sublist names := by
      clear hnames hread hmap hschema hlist hmem
      induction names with
      | nil => exact .slnil
      | cons name names ih =>
        cases h : listedAt d a name with
        | none =>
          rw [List.filterMap_cons_none h]
          exact ih.cons name
        | some s =>
          obtain ⟨hv, hspec⟩ := listedAt_iff.mp h
          obtain ⟨t, ht, hname⟩ := hd.named a ha name _ hv hspec
          cases ht
          rw [List.filterMap_cons_some h, List.map_cons, hname]
          exact ih.cons_cons name
    have hnodup := hsub.nodup (hnames.nodup_iff.mpr (d a).keys_nodup)
    rw [hlist]
    refine List.Nodup.of_map ContainerId.display ?_
    rwa [List.map_map]
  · obtain ⟨r, hr, hrs⟩ := List.mem_filterMap.mp hs
    exact hschema r hr s hrs

theorem loadArea_keeps {a : Area} (ha : a ∈ bases) {d₀ : Files} (hd₀ : Sound d₀) (hW : W d₀) :
    Job.Keeps exec (may b) W (· = d₀) (loadArea a) (fun l d => d = d₀ ∧ AreaList d₀ a l)
      (fun _ d => d = d₀ ∧ LoadFails b d₀) := by
  refine Job.Keeps.bind (names_keeps hW) fun found => Job.Keeps.each fun d hd => ?_
  obtain ⟨rfl, hperm⟩ := hd
  refine Job.Keeps.bind (Job.Keeps.collect found fun name => loadEntry_keeps ha hd₀ hW name) fun read => ?_
  exact Job.Keeps.pure fun d' hd' => ⟨hd'.1, areaList_of_names hd₀ ha hperm hd'.2⟩

/-- What `load_all` returns. -/
def FullList (d : Files) (l : List Spec) : Prop :=
  (l.map (·.id)).Nodup ∧ (∀ s, s ∈ l ↔ Listed d s) ∧ ¬ Newer d

theorem fullList_of_areas {d : Files} (hd : Sound d) {persistent ephemeral : List Spec}
    (hstate : AreaList d .state persistent) (hrun : AreaList d .run ephemeral) :
    FullList d ((persistent ++ ephemeral).mergeSort earlier) := by
  have hperm := List.mergeSort_perm (persistent ++ ephemeral) earlier
  have hmem : ∀ s, s ∈ (persistent ++ ephemeral).mergeSort earlier ↔ Listed d s := by
    intro s
    rw [hperm.mem_iff, List.mem_append, hstate.2.1, hrun.2.1]
    unfold Listed bases
    simp
  refine ⟨?_, hmem, fun ⟨s, hs, hnewer⟩ => ?_⟩
  · rw [(hperm.map _).nodup_iff, List.map_append]
    refine hstate.1.append hrun.1 fun i hi hj => ?_
    obtain ⟨s, hs, rfl⟩ := List.mem_map.mp hi
    obtain ⟨t, ht, hid⟩ := List.mem_map.mp hj
    obtain ⟨name, hname⟩ := (hstate.2.1 s).mp hs
    obtain ⟨name', hname'⟩ := (hrun.2.1 t).mp ht
    obtain ⟨hv, hspec⟩ := listedAt_iff.mp hname
    obtain ⟨hv', hspec'⟩ := listedAt_iff.mp hname'
    obtain ⟨_, hs', hshow⟩ := hd.named _ (by decide) _ _ hv hspec
    obtain ⟨_, ht', hshow'⟩ := hd.named _ (by decide) _ _ hv' hspec'
    cases hs'
    cases ht'
    obtain rfl : name' = name := by rw [← hshow', ← hshow, hid]
    rcases hd.once name' hv with h | h
    · rw [h] at hspec
      cases hspec
    · rw [h] at hspec'
      cases hspec'
  · rcases List.mem_append.mp (hperm.mem_iff.mp ((hmem s).mpr hs)) with h | h
    · exact hstate.2.2 s h hnewer
    · exact hrun.2.2 s h hnewer

theorem loadAll_keeps {d₀ : Files} (hd₀ : Sound d₀) (hW : W d₀) :
    Job.Keeps exec (may b) W (· = d₀) loadAll (fun l d => d = d₀ ∧ FullList d₀ l)
      (fun _ d => d = d₀ ∧ LoadFails b d₀) := by
  refine Job.Keeps.bind (loadArea_keeps (by decide) hd₀ hW) fun persistent => Job.Keeps.each fun d hd => ?_
  obtain ⟨rfl, hstate⟩ := hd
  refine Job.Keeps.bind (loadArea_keeps (by decide) hd₀ hW) fun ephemeral => ?_
  exact Job.Keeps.pure fun d' hd' => ⟨hd'.1, fullList_of_areas hd₀ hstate hd'.2⟩

/-! ## Clearing away -/

/-- Nothing has changed but directories of one area that `p` picks. -/
def Cleared (a : Area) (p : String → Bool) (d d' : Files) : Prop :=
  ∀ a' name, (a' = a → p name = false) → (d' a').get? name = (d a').get? name

theorem Cleared.refl (a : Area) (p : String → Bool) (d : Files) : Cleared a p d d := fun _ _ _ => rfl

theorem Cleared.shrunk {a : Area} {p : String → Bool} {name : String} {d d' d'' : Files} (h : Cleared a p d d')
    (hp : p name = true) (hshrunk : Shrunk a name d' d'') : Cleared a p d d'' := by
  intro a' name' hpick
  rw [hshrunk.1 a' name' ?_, h a' name' hpick]
  rintro ha rfl
  rw [hpick ha] at hp
  cases hp

/-- In the middle of the loop: `rest` is still to do. -/
structure Sweeping (a : Area) (p : String → Bool) (d₀ : Files) (rest : List String) (d : Files) : Prop where
  cleared : Cleared a p d₀ d
  nodup : rest.Nodup
  there : ∀ name ∈ rest, p name = true → (d a).get? name ≠ none
  left : ∀ name, p name = true → (d a).get? name ≠ none → name ∈ rest

theorem Sweeping.removed {a : Area} {p : String → Bool} {d₀ d d' : Files} {name : String} {rest : List String}
    (h : Sweeping a p d₀ (name :: rest) d) (hp : p name = true) (hshrunk : Shrunk a name d d')
    (hgone : (d' a).get? name = none) : Sweeping a p d₀ rest d' := by
  obtain ⟨hnot, hnodup⟩ := List.nodup_cons.mp h.nodup
  refine ⟨h.cleared.shrunk hp hshrunk, hnodup, fun other hmem hpick => ?_, fun other hpick hthere => ?_⟩
  · have hne : other ≠ name := fun heq => hnot (heq ▸ hmem)
    rw [hshrunk.1 a other fun _ => hne]
    exact h.there other (List.mem_cons_of_mem _ hmem) hpick
  · have hne : other ≠ name := fun heq => hthere (heq ▸ hgone)
    rw [hshrunk.1 a other fun _ => hne] at hthere
    exact (List.mem_cons.mp (h.left other hpick hthere)).resolve_left hne

theorem Sweeping.skipped {a : Area} {p : String → Bool} {d₀ d : Files} {name : String} {rest : List String}
    (h : Sweeping a p d₀ (name :: rest) d) (hp : p name = false) : Sweeping a p d₀ rest d where
  cleared := h.cleared
  nodup := (List.nodup_cons.mp h.nodup).2
  there := fun other hmem => h.there other (List.mem_cons_of_mem _ hmem)
  left := fun other hpick hthere => (List.mem_cons.mp (h.left other hpick hthere)).resolve_left fun heq =>
    Bool.false_ne_true (hp.symm.trans (heq ▸ hpick))

/-- A loop that removes the directories of an area that `p` picks. -/
theorem clearing_keeps {a : Area} {p : String → Bool} {d₀ : Files} (hW : ∀ d, Cleared a p d₀ d → W d)
    {found : List String} (hfound : found.Perm (d₀ a).keys) :
    Job.Keeps exec (may b) W (· = d₀) (found.forM fun name => if p name then removeDirAll a name else pure ())
      (fun _ d => Cleared a p d₀ d ∧ ∀ name, p name = true → (d a).get? name = none)
      (fun _ d => Cleared a p d₀ d ∧ b = true) := by
  have hstart : Sweeping a p d₀ found d₀ := by
    refine ⟨.refl _ _ _, hfound.nodup_iff.mpr (d₀ a).keys_nodup, fun name hmem _ => ?_, fun name _ hthere => ?_⟩
    · obtain ⟨dir, hdir⟩ := OrdMap.mem_keys.mp (hfound.mem_iff.mp hmem)
      rw [hdir]
      exact Option.some_ne_none dir
    · exact hfound.mem_iff.mpr (OrdMap.mem_keys.mpr (Option.ne_none_iff_exists'.mp hthere))
  have hloop : Job.Keeps exec (may b) W (Sweeping a p d₀ found)
      (found.forM fun name => if p name then removeDirAll a name else pure ()) (fun _ => Sweeping a p d₀ [])
      (fun _ d => Cleared a p d₀ d ∧ b = true) := by
    refine Job.Keeps.forM found fun name rest => Job.Keeps.each fun d hd => ?_
    cases hp : p name with
    | false =>
      rw [if_neg Bool.false_ne_true]
      exact Job.Keeps.pure fun d' hd' => hd' ▸ hd.skipped hp
    | true =>
      rw [if_pos rfl]
      refine (removeDirAll_keeps fun d' hd' => hW d' (hd.cleared.shrunk hp hd')).conseq (fun _ h => h)
        (fun _ d' hd' => hd.removed hp hd'.1 hd'.2) fun _ d' hd' => ⟨hd.cleared.shrunk hp hd'.1, ?_⟩
      exact hd'.2.resolve_right (hd.there name List.mem_cons_self hp)
  refine hloop.conseq (fun d hd => hd ▸ hstart) (fun _ d hd => ⟨hd.cleared, fun name hp => ?_⟩) fun _ _ hd => hd
  by_contra hthere
  exact List.not_mem_nil (hd.left name hp hthere)

def isTmp (name : String) : Bool := Text.startsWith name ".tmp-"

theorem sweep_keeps {a : Area} {d₀ : Files} (hW : ∀ d, Cleared a isTmp d₀ d → W d) :
    Job.Keeps exec (may b) W (· = d₀) (sweep a)
      (fun _ d => Cleared a isTmp d₀ d ∧ ∀ name, isTmp name = true → (d a).get? name = none)
      (fun _ d => Cleared a isTmp d₀ d ∧ b = true) := by
  refine Job.Keeps.bind (names_keeps (hW d₀ (.refl _ _ _))) fun found => Job.Keeps.each fun d hd => ?_
  obtain ⟨rfl, hfound⟩ := hd
  exact clearing_keeps hW hfound

theorem purgeTrash_keeps {d₀ : Files} (hW : ∀ d, Cleared .trash (fun _ => true) d₀ d → W d) :
    Job.Keeps exec (may b) W (· = d₀) purgeTrash
      (fun _ d => Cleared .trash (fun _ => true) d₀ d ∧ ∀ name, (d .trash).get? name = none)
      (fun _ d => Cleared .trash (fun _ => true) d₀ d ∧ b = true) := by
  refine Job.Keeps.bind (names_keeps (hW d₀ (.refl _ _ _))) fun found => Job.Keeps.each fun d hd => ?_
  obtain ⟨rfl, hfound⟩ := hd
  have hclear := clearing_keeps (b := b) hW hfound
  simp only [if_true, forall_const] at hclear
  exact hclear

/-- What `recover` leaves alone: the containers and what was quarantined. -/
def Spared (d d' : Files) : Prop := ∀ a ∈ bases, ∀ name, isTmp name = false → (d' a).get? name = (d a).get? name

theorem Cleared.spared {a : Area} {p : String → Bool} {d d' : Files} (h : Cleared a p d d')
    (hp : a ∈ bases → ∀ name, isTmp name = false → p name = false) : Spared d d' :=
  fun a' ha' name htmp => h a' name fun heq => hp (heq ▸ ha') name htmp

theorem Spared.trans {d d' d'' : Files} (h : Spared d d') (h' : Spared d' d'') : Spared d d'' :=
  fun a ha name htmp => (h' a ha name htmp).trans (h a ha name htmp)

/-- Nothing is left over: no directory that was being filled, and no trash. -/
def Clean (d : Files) : Prop :=
  (∀ a ∈ bases, ∀ name, isTmp name = true → (d a).get? name = none) ∧ ∀ name, (d .trash).get? name = none

theorem recover_keeps {d₀ : Files} (hW : ∀ d, Spared d₀ d → W d) :
    Job.Keeps exec (may b) W (· = d₀) recover (fun _ d => Spared d₀ d ∧ Clean d)
      (fun _ d => Spared d₀ d ∧ b = true) := by
  have hpick : ∀ a d d', Cleared a isTmp d d' → Spared d d' := fun a d d' h => h.spared fun _ _ htmp => htmp
  have htrash : ∀ d d', Cleared .trash (fun _ => true) d d' → Spared d d' := fun d d' h => h.spared fun hmem =>
    absurd hmem (by decide)
  refine Job.Keeps.bind ((sweep_keeps fun d hd => hW d (hpick _ _ _ hd)).conseq (fun _ h => h) (fun _ _ h => h)
    fun _ d hd => ⟨hpick _ _ _ hd.1, hd.2⟩) fun _ => Job.Keeps.each fun d₁ h₁ => ?_
  have hspared₁ := hpick _ _ _ h₁.1
  refine Job.Keeps.bind ((sweep_keeps fun d hd => hW d (hspared₁.trans (hpick _ _ _ hd))).conseq (fun _ h => h)
    (fun _ _ h => h) fun _ d hd => ⟨hspared₁.trans (hpick _ _ _ hd.1), hd.2⟩) fun _ => Job.Keeps.each fun d₂ h₂ => ?_
  have hspared₂ := hspared₁.trans (hpick _ _ _ h₂.1)
  refine (purgeTrash_keeps fun d hd => hW d (hspared₂.trans (htrash _ _ hd))).conseq (fun _ h => h)
    (fun _ d hd => ⟨hspared₂.trans (htrash _ _ hd.1), ?_, hd.2⟩) fun _ d hd => ⟨hspared₂.trans (htrash _ _ hd.1), hd.2⟩
  intro a ha name htmp
  have hkeep : (d a).get? name = (d₂ a).get? name := hd.1 a name fun heq => absurd (heq ▸ ha) (by decide)
  rw [hkeep]
  rcases List.mem_cons.mp ha with rfl | ha
  · rw [h₂.1 .state name fun heq => Area.noConfusion heq]
    exact h₁.2 name htmp
  · obtain rfl := List.mem_singleton.mp ha
    exact h₂.2 name htmp

end Collocate.Store
