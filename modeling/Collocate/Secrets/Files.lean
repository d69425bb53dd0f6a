import Collocate.Secrets.Store

/-! # The files of the secret store

How the files of a secret are named, and what each operation does to them when nothing fails. -/
namespace Collocate.Secrets
set_option autoImplicit false

/-! ## Names of files -/

theorem fileStem_append {stem extension : String} (hstem : stem ≠ "") (hext : extension ≠ "")
    (hdot : '.' ∉ extension.toList) : fileStem (stem ++ "." ++ extension) = stem := by
  have hne : stem ++ "." ++ extension ≠ ".." := by
    intro heq
    have hlen := congrArg (fun s => s.toList.length) heq
    have h1 : 0 < stem.toList.length := List.length_pos_iff.mpr (by simpa using hstem)
    have h2 : 0 < extension.toList.length := List.length_pos_iff.mpr (by simpa using hext)
    simp only [String.toList_append, List.length_append] at hlen
    have : (".".toList.length = 1) := rfl
    have : ("..".toList.length = 2) := rfl
    omega
  have hcut : Text.cutAt '.' (stem ++ "." ++ extension).toList.reverse =
      some (extension.toList.reverse, stem.toList.reverse) := by
    have hlist : (stem ++ "." ++ extension).toList.reverse =
        extension.toList.reverse ++ '.' :: stem.toList.reverse := by simp
    rw [hlist]
    exact Text.cutAt_append (by simpa using hdot)
  unfold fileStem Text.rsplitOnce
  rw [if_neg hne, hcut]
  simp [hstem]

theorem fileStem_ne_empty {name : String} (h : valid name = true) : fileStem name ≠ "" := by
  have hname : name ≠ "" := by
    rintro rfl
    revert h
    decide
  unfold fileStem
  split
  · exact hname
  · split
    · split
      · exact hname
      · rename_i before _ _ hempty
        simpa using hempty
    · exact hname

theorem fileStem_withExtension {name extension : String} (h : valid name = true) (hext : extension ≠ "")
    (hdot : '.' ∉ extension.toList) : fileStem (withExtension name extension) = fileStem name :=
  fileStem_append (fileStem_ne_empty h) hext hdot

theorem meta_tmp {name : String} (h : valid name = true) :
    withExtension (withExtension name "meta") "tmp" = withExtension name "tmp" := by
  unfold withExtension
  rw [show fileStem (fileStem name ++ "." ++ "meta") = _ from fileStem_withExtension h (by decide) (by decide)]

theorem valid_ne_meta {name other : String} (h : valid name = true) : name ≠ withExtension other "meta" := by
  rintro rfl
  unfold valid at h
  have hends : Text.endsWith (withExtension other "meta") ".meta" = true := by
    unfold Text.endsWith withExtension
    rw [decide_eq_true_eq]
    exact ⟨(fileStem other).toList, by simp [String.append_assoc]⟩
  rw [hends] at h
  simp at h

theorem withExtension_inj {name other extension : String} :
    withExtension name extension = withExtension other extension ↔ fileStem name = fileStem other := by
  unfold withExtension
  rw [String.append_left_inj, String.append_left_inj]

theorem tmp_ne_meta (name other : String) : withExtension name "tmp" ≠ withExtension other "meta" := by
  intro h
  have hlast := congrArg (fun s => s.toList.getLast?) h
  simp [withExtension] at hlast

/-! ## What the files say -/

section Content
variable {F : Files} {p q file text x : String}

theorem content_within (f : Folder → Folder) :
    content (within p f F) q x = if q = p then (F.get? p).bind fun folder => (f folder).get? x else content F q x := by
  unfold within
  cases hp : F.get? p with
  | none =>
    by_cases hq : q = p
    · simp [hq, content, hp]
    · simp [hq]
  | some folder =>
    by_cases hq : q = p
    · simp [hq, content]
    · simp [hq, content]

theorem contains_within (f : Folder → Folder) : (within p f F).contains q = F.contains q := by
  unfold within
  cases hp : F.get? p with
  | none => rfl
  | some folder =>
    by_cases hq : q = p
    · simp [hq, OrdMap.contains, hp]
    · simp [hq, OrdMap.contains]

/-- After a write the file has the text, and its temporary file is gone. -/
theorem writePrivate_eq (hdir : F.contains p = true) : ∃ F', writePrivate p file text ⟨F, []⟩ = (.ok (), ⟨F', []⟩) ∧
    (∀ q, F'.contains q = F.contains q) ∧
    ∀ q x, content F' q x =
      if q = p then
        if x = file then some text else if x = withExtension file "tmp" then none else content F p x
      else content F q x := by
  refine ⟨_, rfl, fun q => ?_, fun q x => ?_⟩
  · simp only [contains_within, id]
  · obtain ⟨folder, hfolder⟩ := Option.isSome_iff_exists.mp hdir
    have hget : ∀ f g : Folder → Folder, (within p g (within p f F)).get? p = some (g (f folder)) := by
      intro f g
      simp [within, hfolder]
    simp only [id, content_within, hget, Option.bind_some]
    by_cases hq : q = p
    · subst hq
      simp only [rename, content, hfolder, Option.bind_some, OrdMap.get?_insert, if_true, OrdMap.get?_erase]
      split_ifs <;> rfl
    · simp [hq]

/-- The version that a write gives a secret, given its version file. -/
def nextVersion (text : Option String) : UInt64 := (text.bind fun t => Text.parseU64 (Text.trim t)).getD 0 + 1

theorem makeDir_content : content (makeDir p F) q x = content F q x := by
  unfold makeDir
  split
  · rfl
  · rename_i hp
    by_cases hq : q = p
    · have hnone : F.get? p = none := by simpa [OrdMap.contains] using hp
      simp [content, hq, hnone]
    · simp [content, hq]

theorem checkPath_ok {name : String} (hp : valid p = true) (hn : valid name = true) : checkPath p name = .ok () := by
  simp [checkPath, hp, hn]

theorem version_eq {name : String} (hp : valid p = true) (hn : valid name = true) :
    version p name ⟨F, []⟩ = (match content F p (withExtension name "meta") with
      | none => .error (.io "No such file or directory (os error 2)")
      | some text => .ok ((Text.parseU64 (Text.trim text)).getD 0), ⟨F, []⟩) := by
  unfold version
  rw [checkPath_ok hp hn, Eff.lift_ok_bind, Eff.bind_of_ok (Faulty.look_nil _ _ _)]
  cases content F p (withExtension name "meta") <;> rfl

theorem ensureDir_eq : ensureDir p ⟨F, []⟩ = (.ok (), ⟨makeDir p F, []⟩) := by
  unfold ensureDir
  rw [Eff.bind_of_ok (Eff.attempt_of (Faulty.look_nil _ _ _))]
  cases hdir : F.contains p with
  | true =>
    rw [makeDir, if_pos hdir]
    rfl
  | false => rfl

/-- The files of a secret after it is written. -/
theorem writeValue_eq {name value : String} (hp : valid p = true) (hn : valid name = true) :
    ∃ F', writeValue p name value ⟨F, []⟩ = (.ok (), ⟨F', []⟩) ∧ ∀ q x, content F' q x =
      if q = p then
        if x = withExtension name "meta" then some (toString (nextVersion (content F p (withExtension name "meta"))))
        else if x = withExtension name "tmp" then none
        else if x = name then some value else content F p x
      else content F q x := by
  have hdir : (makeDir p F).contains p = true := by
    unfold makeDir
    split
    · assumption
    · simp [OrdMap.contains]
  obtain ⟨F₁, hvalue, hdirs, hcontent₁⟩ := writePrivate_eq hdir
  obtain ⟨F₂, hmeta, -, hcontent₂⟩ := writePrivate_eq (F := F₁)
    ((hdirs p).trans hdir)
  refine ⟨F₂, ?_, fun q x => ?_⟩
  · unfold writeValue
    rw [checkPath_ok hp hn, Eff.lift_ok_bind, Eff.bind_of_ok ensureDir_eq]
    have hversion : ∃ old, (Eff.attempt (version p name)) ⟨makeDir p F, []⟩ = (.ok old, ⟨makeDir p F, []⟩) ∧
        orElse 0 old + 1 = nextVersion (content F p (withExtension name "meta")) := by
      have hread := version_eq (F := makeDir p F) hp hn
      rw [makeDir_content] at hread
      refine ⟨_, Eff.attempt_of hread, ?_⟩
      unfold nextVersion
      cases content F p (withExtension name "meta") with
      | none => rw [orElse, Option.bind_none, Option.getD_none]
      | some text => rw [orElse, Option.bind_some]
    obtain ⟨old, hattempt, hold⟩ := hversion
    rw [Eff.bind_of_ok hattempt, Eff.bind_of_ok hvalue, hold]
    exact hmeta
  · simp only [hcontent₂, meta_tmp hn, hcontent₁, makeDir_content, if_true]
    split_ifs <;> rfl

/-- `ensure` writes only a secret that is not there, of a length and a kind that it can generate. -/
theorem ensure_snd {name generator drawn : String} {length : ℕ} (hp : valid p = true) (hn : valid name = true) :
    (ensure p name generator length drawn ⟨F, []⟩).2 =
      if (content F p name).isNone && decide (0 < length ∧ length ≤ maxLen) && supported generator
      then (writeValue p name drawn ⟨F, []⟩).2 else ⟨F, []⟩ := by
  obtain ⟨F', hwrite, -⟩ := writeValue_eq (F := F) hp hn
  unfold ensure
  rw [checkPath_ok hp hn, Eff.lift_ok_bind, Eff.bind_of_ok (Eff.attempt_of (Faulty.look_nil _ _ _)), orElse]
  cases content F p name with
  | some text => rfl
  | none =>
    simp only [Option.isSome_none, Bool.false_eq_true, if_false, Option.isNone_none, Bool.true_and]
    by_cases hlength : length = 0 ∨ maxLen < length
    · rw [if_pos hlength, decide_eq_false (by omega)]
      rfl
    · rw [if_neg hlength, decide_eq_true (by omega), Bool.true_and]
      cases supported generator with
      | false => rfl
      | true =>
        simp only [if_true]
        rw [Eff.bind_of_ok (Faulty.change_nil _ _ _), id, Eff.bind_of_ok hwrite, hwrite]
        rfl

theorem reveal_eq {name : String} (hp : valid p = true) (hn : valid name = true) :
    reveal p name ⟨F, []⟩ = (match content F p name with
      | none => .error (missing p name)
      | some value => .ok value, ⟨F, []⟩) := by
  unfold reveal
  rw [checkPath_ok hp hn, Eff.lift_ok_bind, Eff.bind_of_ok (Faulty.look_nil _ _ _)]
  cases content F p name <;> rfl

theorem remove_eq {name : String} (hp : valid p = true) (hn : valid name = true)
    (hthere : (content F p name).isSome = true) :
    ∃ F', remove p name ⟨F, []⟩ = (.ok (), ⟨F', []⟩) ∧ ∀ q x, content F' q x =
      if q = p ∧ (x = name ∨ x = withExtension name "meta") then none else content F q x := by
  refine ⟨within p (·.erase (withExtension name "meta")) (within p (·.erase name) F), ?_, fun q x => ?_⟩
  · unfold remove
    rw [checkPath_ok hp hn, Eff.lift_ok_bind, Eff.bind_of_ok (Faulty.op_nil _ _ _), if_pos hthere]
    rfl
  · by_cases hq : q = p
    · subst hq
      obtain ⟨folder, hfolder, -⟩ := Option.bind_eq_some_iff.mp (Option.isSome_iff_exists.mp hthere).choose_spec
      have hget : (within q (·.erase name) F).get? q = some (folder.erase name) := by simp [within, hfolder]
      simp only [content_within, hget, if_true, true_and, Option.bind_some, OrdMap.get?_erase]
      by_cases hmeta : x = withExtension name "meta" <;> by_cases hname : x = name <;>
        simp [hmeta, hname, content, hfolder]
    · simp [content_within, hq]

theorem remove_missing {name : String} (hp : valid p = true) (hn : valid name = true)
    (hnone : content F p name = none) :
    remove p name ⟨F, []⟩ = (.error (missing p name), ⟨F, []⟩) := by
  have hsame : within p (·.erase name) F = F := by
    unfold within
    cases hfolder : F.get? p with
    | none => rfl
    | some folder =>
      have habsent : folder.get? name = none := by simpa [content, hfolder] using hnone
      have herase : folder.erase name = folder := by
        refine OrdMap.ext_get? fun k => ?_
        rw [OrdMap.get?_erase]
        split
        · rename_i hk
          rw [hk, habsent]
        · rfl
      show F.insert p (folder.erase name) = F
      rw [herase]
      exact OrdMap.insert_of_get? hfolder
  unfold remove
  rw [checkPath_ok hp hn, Eff.lift_ok_bind, Eff.bind_of_ok (Faulty.op_nil _ _ _), hnone, hsame]
  rfl

/-! ## Listing -/

/-- The references to the secrets of a project. -/
def listed (F : Files) (p : String) : List String :=
  if valid p then (((F.get? p).getD .empty).keys.filter fun n => valid n).map fun n => p ++ "/" ++ n else []

theorem collect_listProject (ps : List String) :
    Eff.collect listProject ps ⟨F, []⟩ = (.ok (ps.map (listed F)), ⟨F, []⟩) := by
  have hone : ∀ p, listProject p ⟨F, []⟩ = (.ok (listed F p), ⟨F, []⟩) := by
    intro p
    unfold listProject listed
    cases hp : valid p with
    | false => rfl
    | true => rw [if_neg (by decide), if_pos rfl, Eff.bind_of_ok (Eff.attempt_of (Faulty.look_nil _ _ _))]; rfl
  induction ps with
  | nil => rfl
  | cons p ps ih =>
    unfold Eff.collect
    rw [Eff.bind_of_ok (hone p), Eff.bind_of_ok ih]
    rfl

theorem list_eq (project : Option String) : list project ⟨F, []⟩ =
    (.ok (((project.elim F.keys fun p => [p]).map (listed F)).flatten.insertionSort (· ≤ ·)), ⟨F, []⟩) := by
  unfold list
  cases project with
  | none =>
    dsimp only
    rw [Eff.bind_of_ok (Eff.attempt_of (Faulty.look_nil _ _ _)), Eff.pure_bind_eq,
      Eff.bind_of_ok (collect_listProject _)]
    rfl
  | some p =>
    dsimp only
    rw [Eff.pure_bind_eq, Eff.bind_of_ok (collect_listProject _)]
    rfl

theorem mem_listed {s : String} : s ∈ listed F p ↔
    ∃ n, s = p ++ "/" ++ n ∧ valid p = true ∧ valid n = true ∧ (content F p n).isSome = true := by
  unfold listed
  cases hp : valid p with
  | false => simp
  | true =>
    have hkeys : ∀ n, n ∈ ((F.get? p).getD .empty).keys ↔ (content F p n).isSome = true := by
      intro n
      rw [OrdMap.mem_keys, content, Option.isSome_iff_exists]
      cases F.get? p <;> rfl
    simp only [if_true, List.mem_map, List.mem_filter, hkeys]
    constructor
    · rintro ⟨n, ⟨hthere, hvalid⟩, rfl⟩
      exact ⟨n, rfl, trivial, hvalid, hthere⟩
    · rintro ⟨n, rfl, -, hvalid, hthere⟩
      exact ⟨n, ⟨hthere, hvalid⟩, rfl⟩

theorem valid_no_slash {name : String} (h : valid name = true) : '/' ∉ name.toList := by
  unfold valid at h
  intro hslash
  cases hlist : name.toList with
  | nil => simp [hlist] at hslash
  | cons c rest =>
    simp only [hlist, Bool.and_eq_true, List.all_eq_true] at h
    rw [hlist, List.mem_cons] at hslash
    rcases hslash with rfl | hslash
    · exact absurd h.2.1 (by decide)
    · exact absurd (h.2.2 _ hslash) (by decide)

theorem reference_inj {n n' : String} (hp : valid p = true) (hq : valid q = true)
    (h : p ++ "/" ++ n = q ++ "/" ++ n') : p = q ∧ n = n' := by
  have hcut : ∀ {p n : String}, valid p = true → Text.cutAt '/' (p ++ "/" ++ n).toList = some (p.toList, n.toList) := by
    intro p n hp
    rw [show (p ++ "/" ++ n).toList = p.toList ++ '/' :: n.toList by simp]
    exact Text.cutAt_append (valid_no_slash hp)
  have heq := hcut (n := n) hp
  rw [h, hcut hq, Option.some.injEq, Prod.mk.injEq] at heq
  exact ⟨String.toList_injective heq.1.symm, String.toList_injective heq.2.symm⟩

theorem listed_nodup (F : Files) (p : String) : (listed F p).Nodup := by
  unfold listed
  split
  · refine List.Nodup.map (fun n n' h => ?_) ((OrdMap.keys_nodup _).filter _)
    exact (String.append_right_inj _).mp h
  · exact List.nodup_nil

/-- The list is in strict order and holds just the valid references whose file exists. -/
theorem list_spec (F : Files) (project : Option String) : ∃ l, (list project ⟨F, []⟩).1 = .ok l ∧
    l.Pairwise (· < ·) ∧ ∀ s, s ∈ l ↔ ∃ p n, s = p ++ "/" ++ n ∧ (∀ p', project = some p' → p = p') ∧
      valid p = true ∧ valid n = true ∧ (content F p n).isSome = true := by
  refine ⟨_, congrArg Prod.fst (list_eq project), ?_, fun s => ?_⟩
  · have hnodup : ((project.elim F.keys fun p => [p]).map (listed F)).flatten.Nodup := by
      rw [List.nodup_flatten]
      refine ⟨?_, ?_⟩
      · intro l hl
        obtain ⟨p, -, rfl⟩ := List.mem_map.mp hl
        exact listed_nodup F p
      · rw [List.pairwise_map]
        have hprojects : (project.elim F.keys fun p => [p]).Nodup := by
          cases project with
          | none => exact OrdMap.keys_nodup F
          | some p => exact List.nodup_singleton p
        refine hprojects.imp fun hne s hs hs' => ?_
        obtain ⟨n, rfl, hp, -⟩ := mem_listed.mp hs
        obtain ⟨n', heq, hp', -⟩ := mem_listed.mp hs'
        exact hne (reference_inj hp hp' heq).1
    have hsorted := List.pairwise_insertionSort (r := (· ≤ · : String → String → Prop))
      ((project.elim F.keys fun p => [p]).map (listed F)).flatten
    have hdistinct := (List.perm_insertionSort (· ≤ · : String → String → Prop) _).nodup_iff.mpr hnodup
    exact (hsorted.and hdistinct).imp fun ⟨hle, hne⟩ => lt_of_le_of_ne hle hne
  · rw [List.mem_insertionSort, List.mem_flatten]
    constructor
    · rintro ⟨l, hl, hs⟩
      obtain ⟨p, hp, rfl⟩ := List.mem_map.mp hl
      obtain ⟨n, rfl, hvalid⟩ := mem_listed.mp hs
      refine ⟨p, n, rfl, ?_, hvalid⟩
      rintro p' rfl
      exact List.mem_singleton.mp hp
    · rintro ⟨p, n, rfl, hproject, hvalid⟩
      refine ⟨listed F p, List.mem_map.mpr ⟨p, ?_, rfl⟩, mem_listed.mpr ⟨n, rfl, hvalid⟩⟩
      cases project with
      | none =>
        obtain ⟨text, htext⟩ := Option.isSome_iff_exists.mp hvalid.2.2
        obtain ⟨folder, hfolder, -⟩ := Option.bind_eq_some_iff.mp htext
        exact OrdMap.mem_keys.mpr ⟨folder, hfolder⟩
      | some p' => exact List.mem_singleton.mpr (hproject p' rfl)

end Content

end Collocate.Secrets
