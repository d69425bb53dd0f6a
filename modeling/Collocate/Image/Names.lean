import Collocate.Image.Identity

/-! # The image store as a map from names (`collocate-image/src/config.rs`)

The metadata of an image is the file named after it, so the store is a map from names as long as no two names
in use give the same file name. A character beyond U+00FF is written with more than two digits, and nothing says
where they end. -/
namespace Collocate.Image
set_option autoImplicit false

section Calls
variable {Tree : Type}

def removeMeta (file : String) : Work Tree (Result Unit) := Job.ask (Op.removeMeta file)

def remove (name : String) : Work Tree Unit := do
  match ← removeMeta (metaFile name) with
  | .ok _ => pure ()
  | .error e => if e = noSuchFile then Job.throw (.notFound s!"image {name}") else Job.throw e

/-- A call on the `ImageStore`. -/
inductive StoreCall
  | put (img : ImageMeta)
  | get (name : String)
  | remove (name : String)
  | list
  deriving DecidableEq

inductive StoreAnswer
  | done (r : Result Unit)
  | image (r : Result ImageMeta)
  | images (r : Result (List ImageMeta))
  deriving DecidableEq

/-- The image a call is about. -/
def StoreCall.about : StoreCall → Option String
  | put img => some img.name
  | get name | remove name => some name
  | list => none

/-- The call on the files, when each of them can be read and written. -/
def StoreCall.perform (x : Env Tree) (disk : Disk Tree) : StoreCall → StoreAnswer × Disk Tree
  | put img => let (r, disk) := Job.finish (exec x) .fine (Image.put img) disk; (.done r, disk)
  | get name => let (r, disk) := Job.finish (exec x) .fine (Image.get name) disk; (.image r, disk)
  | remove name => let (r, disk) := Job.finish (exec x) .fine (Image.remove name) disk; (.done r, disk)
  | list => let (r, disk) := Job.finish (exec x) .fine Image.list disk; (.images r, disk)

/-- The call on a map from names to the images last put under them. -/
def StoreCall.onMap (images : OrdMap String ImageMeta) : StoreCall → StoreAnswer × OrdMap String ImageMeta
  | put img => (.done (.ok ()), images.insert img.name img)
  | get name => match images.get? name with
    | some img => (.image (.ok img), images)
    | none => (.image (.error (.notFound s!"image {name}")), images)
  | remove name =>
    if images.contains name then (.done (.ok ()), images.erase name)
    else (.done (.error (.notFound s!"image {name}")), images)
  | list => (.images (.ok images.values), images)

/-- What a sequence of calls is answered with. -/
def answers {S : Type} (step : S → StoreCall → StoreAnswer × S) : S → List StoreCall → List StoreAnswer
  | _, [] => []
  | s, c :: calls => (step s c).1 :: answers step (step s c).2 calls

end Calls

/-! ## The files of a map -/

section Files
variable {Tree : Type} {names : Set String}

/-- The files hold the images of the map, each in the file of its name. -/
structure Holds (names : Set String) (disk : Disk Tree) (images : OrdMap String ImageMeta) : Prop where
  file : ∀ f e, disk.metas.get? f = some e ↔ ∃ img, images.get? img.name = some img ∧ metaFile img.name = f ∧
    e = .whole img
  named : ∀ n img, images.get? n = some img → img.name = n ∧ n ∈ names

theorem metaFile_injOn (h : Set.InjOn fileName names) : Set.InjOn metaFile names := by
  intro a ha b hb hab
  apply h ha hb
  have htoList := congrArg String.toList hab
  simp only [metaFile, String.toList_append] at htoList
  exact String.toList_inj.mp (List.append_cancel_right htoList)

theorem Holds.get? {disk : Disk Tree} {images : OrdMap String ImageMeta} (h : Holds names disk images)
    (hinj : Set.InjOn fileName names) {name : String} (hname : name ∈ names) :
    disk.metas.get? (metaFile name) = (images.get? name).map MetaFile.whole := by
  cases hget : images.get? name with
  | some img =>
    obtain ⟨rfl, -⟩ := h.named name img hget
    exact (h.file _ _).mpr ⟨img, hget, rfl, rfl⟩
  | none =>
    rw [Option.map_none]
    by_contra hne
    obtain ⟨e, he⟩ := Option.ne_none_iff_exists'.mp hne
    obtain ⟨img, himg, hfile, -⟩ := (h.file _ _).mp he
    have hsame := metaFile_injOn hinj (h.named _ _ himg).2 hname hfile
    rw [hsame, hget] at himg
    cases himg

theorem insert_whole_twice (metas : OrdMap String MetaFile) (file : String) (img : ImageMeta) :
    (metas.insert file .torn).insert file (.whole img) = metas.insert file (.whole img) := by
  apply OrdMap.ext_get?
  intro k
  simp only [OrdMap.get?_insert]
  split <;> rfl

theorem finish_put (x : Env Tree) (disk : Disk Tree) (img : ImageMeta) :
    Job.finish (exec x) .fine (put img) disk =
      (.ok (), { disk with metas := disk.metas.insert (metaFile img.name) (.whole img) }) := by
  rw [← insert_whole_twice]
  rfl

theorem finish_get (x : Env Tree) (disk : Disk Tree) (name : String) :
    Job.finish (exec x) .fine (get name) disk =
      (match disk.metas.get? (metaFile name) with
        | some (.whole img) => .ok img
        | some .torn => .error (.json "EOF while parsing a value at line 1 column 0")
        | none => .error (.notFound s!"image {name}"), disk) := by
  have hread (next : Except Error ImageMeta → Work Tree ImageMeta) :
      Job.finish (exec x) .fine (readMeta (metaFile name) >>= next) disk =
        Job.finish (exec x) .fine (next (readMetaFile disk (metaFile name))) disk := rfl
  rw [get, hread, readMetaFile]
  cases disk.metas.get? (metaFile name) with
  | none => rfl
  | some file => cases file <;> rfl

theorem finish_remove (x : Env Tree) (disk : Disk Tree) (name : String) :
    Job.finish (exec x) .fine (remove name) disk =
      if disk.metas.contains (metaFile name) then (.ok (), { disk with metas := disk.metas.erase (metaFile name) })
      else (.error (.notFound s!"image {name}"), disk) := by
  have hexec : exec x (.removeMeta (metaFile name)) .fine disk =
      if disk.metas.contains (metaFile name) then (.ok (), { disk with metas := disk.metas.erase (metaFile name) })
      else (.error noSuchFile, disk) := rfl
  have hrun : Job.finish (exec x) .fine (removeMeta (metaFile name)) disk =
      (.ok (exec x (.removeMeta (metaFile name)) .fine disk).1, (exec x (.removeMeta (metaFile name)) .fine disk).2) :=
    rfl
  rw [remove, Job.finish_bind, hrun, hexec]
  by_cases h : disk.metas.contains (metaFile name) = true
  · simp only [if_pos h]
    rfl
  · simp only [if_neg h]
    rfl

theorem finish_readMetas (x : Env Tree) (disk : Disk Tree) (files : List String) :
    Job.finish (exec x) .fine (Job.collect readMeta files) disk = (.ok (files.map (readMetaFile disk)), disk) := by
  induction files with
  | nil => rfl
  | cons file files ih =>
    have hread : Job.finish (exec x) .fine (readMeta file) disk = (.ok (readMetaFile disk file), disk) := rfl
    unfold Job.collect
    rw [Job.finish_bind, hread]
    show Job.finish (exec x) .fine (Job.collect readMeta files >>= _) disk = _
    rw [Job.finish_bind, ih]
    rfl

theorem finish_list (x : Env Tree) (disk : Disk Tree) :
    Job.finish (exec x) .fine list disk =
      (.ok (((disk.metas.keys.map (readMetaFile disk)).filterMap Except.toOption).insertionSort
        fun a b => a.name ≤ b.name), disk) := by
  have hfiles : Job.finish (exec x) .fine metaFiles disk = (.ok disk.metas.keys, disk) := rfl
  unfold list
  rw [Job.finish_bind, hfiles]
  show Job.finish (exec x) .fine (Job.collect readMeta _ >>= _) disk = _
  rw [Job.finish_bind, finish_readMetas]
  rfl

variable {x : Env Tree} {disk : Disk Tree} {images : OrdMap String ImageMeta}

theorem Holds.put (h : Holds names disk images) (hinj : Set.InjOn fileName names) {img : ImageMeta}
    (himg : img.name ∈ names) :
    Holds names { disk with metas := disk.metas.insert (metaFile img.name) (.whole img) }
      (images.insert img.name img) := by
  constructor
  · intro f e
    show (disk.metas.insert _ _).get? f = some e ↔ _
    rw [OrdMap.get?_insert]
    by_cases hf : f = metaFile img.name
    · rw [if_pos hf]
      constructor
      · intro he
        cases he
        exact ⟨img, by simp, hf.symm, rfl⟩
      · rintro ⟨img', hget, hfile, rfl⟩
        rw [OrdMap.get?_insert] at hget
        split at hget
        · cases hget
          rfl
        · rename_i hne
          have hsame := metaFile_injOn hinj (h.named _ _ hget).2 himg (hfile.trans hf)
          exact absurd hsame hne
    · rw [if_neg hf, h.file]
      constructor
      · rintro ⟨img', hget, hfile, rfl⟩
        have hne : img'.name ≠ img.name := fun hn => hf (by rw [← hfile, hn])
        exact ⟨img', by rw [OrdMap.get?_insert, if_neg hne]; exact hget, hfile, rfl⟩
      · rintro ⟨img', hget, hfile, rfl⟩
        have hne : img'.name ≠ img.name := fun hn => hf (by rw [← hfile, hn])
        rw [OrdMap.get?_insert, if_neg hne] at hget
        exact ⟨img', hget, hfile, rfl⟩
  · intro n img' hget
    rw [OrdMap.get?_insert] at hget
    split at hget
    · rename_i hn
      cases hget
      exact ⟨hn.symm, hn ▸ himg⟩
    · exact h.named n img' hget

theorem Holds.remove (h : Holds names disk images) (hinj : Set.InjOn fileName names) {name : String}
    (hname : name ∈ names) :
    Holds names { disk with metas := disk.metas.erase (metaFile name) } (images.erase name) := by
  constructor
  · intro f e
    show (disk.metas.erase _).get? f = some e ↔ _
    rw [OrdMap.get?_erase]
    by_cases hf : f = metaFile name
    · rw [if_pos hf]
      constructor
      · intro he
        cases he
      · rintro ⟨img, hget, hfile, -⟩
        rw [OrdMap.get?_erase] at hget
        split at hget
        · cases hget
        · rename_i hne
          have hsame := metaFile_injOn hinj (h.named _ _ hget).2 hname (hfile.trans hf)
          exact absurd hsame hne
    · rw [if_neg hf, h.file]
      constructor
      · rintro ⟨img, hget, hfile, rfl⟩
        have hne : img.name ≠ name := fun hn => hf (by rw [← hfile, hn])
        exact ⟨img, by rw [OrdMap.get?_erase, if_neg hne]; exact hget, hfile, rfl⟩
      · rintro ⟨img, hget, hfile, rfl⟩
        have hne : img.name ≠ name := fun hn => hf (by rw [← hfile, hn])
        rw [OrdMap.get?_erase, if_neg hne] at hget
        exact ⟨img, hget, hfile, rfl⟩
  · intro n img hget
    rw [OrdMap.get?_erase] at hget
    split at hget
    · cases hget
    · exact h.named n img hget

/-- The images in the files, in the order of the files. -/
theorem mem_read (h : Holds names disk images) (img : ImageMeta) :
    img ∈ (disk.metas.keys.map (readMetaFile disk)).filterMap Except.toOption ↔ images.get? img.name = some img := by
  rw [List.mem_filterMap]
  constructor
  · rintro ⟨r, hr, hok⟩
    obtain ⟨f, -, rfl⟩ := List.mem_map.mp hr
    unfold readMetaFile at hok
    cases hf : disk.metas.get? f with
    | none =>
      rw [hf] at hok
      cases hok
    | some e =>
      obtain ⟨img', hget, -, rfl⟩ := (h.file f e).mp hf
      rw [hf] at hok
      cases hok
      exact hget
  · intro hget
    have hf := (h.file (metaFile img.name) (.whole img)).mpr ⟨img, hget, rfl, rfl⟩
    refine ⟨.ok img, List.mem_map.mpr ⟨metaFile img.name, OrdMap.mem_keys.mpr ⟨_, hf⟩, ?_⟩, rfl⟩
    rw [readMetaFile, hf]

theorem names_values (h : Holds names disk images) : images.values.map ImageMeta.name = images.keys := by
  unfold OrdMap.values OrdMap.keys
  rw [List.map_map]
  apply List.map_congr_left
  intro e he
  exact (h.named e.1 e.2 (OrdMap.get?_eq_some.mpr he)).1

theorem mem_values (h : Holds names disk images) (img : ImageMeta) :
    img ∈ images.values ↔ images.get? img.name = some img := by
  unfold OrdMap.values
  rw [List.mem_map]
  constructor
  · rintro ⟨⟨n, img'⟩, he, rfl⟩
    have hget := OrdMap.get?_eq_some.mpr he
    rw [(h.named n img' hget).1]
    exact hget
  · exact fun hget => ⟨(img.name, img), OrdMap.get?_eq_some.mp hget, rfl⟩

theorem read_files (h : Holds names disk images) {files : List String} (hfiles : ∀ f ∈ files, f ∈ disk.metas.keys) :
    ((files.map (readMetaFile disk)).filterMap Except.toOption).map (fun img => metaFile img.name) = files := by
  induction files with
  | nil => rfl
  | cons f files ih =>
    obtain ⟨e, he⟩ := OrdMap.mem_keys.mp (hfiles f (List.mem_cons_self ..))
    obtain ⟨img, -, hfile, rfl⟩ := (h.file f e).mp he
    have hread : readMetaFile disk f = .ok img := by rw [readMetaFile, he]
    rw [List.map_cons, hread]
    show metaFile img.name :: _ = _
    rw [hfile, ih fun g hg => hfiles g (List.mem_cons_of_mem _ hg)]

/-- The list sorted by name is the map's. -/
theorem sorted_read (h : Holds names disk images) :
    ((disk.metas.keys.map (readMetaFile disk)).filterMap Except.toOption).insertionSort (fun a b => a.name ≤ b.name) =
      images.values := by
  have hread : ((disk.metas.keys.map (readMetaFile disk)).filterMap Except.toOption).Nodup := by
    have hnodup := disk.metas.keys_nodup
    rw [← read_files h fun _ hf => hf] at hnodup
    exact hnodup.of_map
  have hvalues : images.values.Nodup := by
    have hnodup := images.keys_nodup
    rw [← names_values h] at hnodup
    exact hnodup.of_map
  have hperm : ((disk.metas.keys.map (readMetaFile disk)).filterMap Except.toOption).Perm images.values :=
    (List.perm_ext_iff_of_nodup hread hvalues).mpr fun img => (mem_read h img).trans (mem_values h img).symm
  have hsorted : images.values.Pairwise fun a b => a.name ≤ b.name := by
    have hkeys : images.keys.Pairwise (· < ·) := List.pairwise_map.mpr images.sorted
    rw [← names_values h, List.pairwise_map] at hkeys
    exact hkeys.imp le_of_lt
  have htotal : Std.Total fun a b : ImageMeta => a.name ≤ b.name := ⟨fun a b => le_total a.name b.name⟩
  have htrans : IsTrans ImageMeta fun a b => a.name ≤ b.name := ⟨fun a b c => le_trans⟩
  have hunsorted := List.perm_insertionSort (fun a b : ImageMeta => a.name ≤ b.name)
    ((disk.metas.keys.map (readMetaFile disk)).filterMap Except.toOption)
  refine List.Perm.eq_of_pairwise ?_ (List.pairwise_insertionSort ..) hsorted (hunsorted.trans hperm)
  intro a b ha hb hab hba
  have hgeta := (mem_read h a).mp (hunsorted.mem_iff.mp ha)
  have hgetb := (mem_values h b).mp hb
  rw [le_antisymm hab hba] at hgeta
  exact Option.some.inj (hgeta.symm.trans hgetb)

/-- One call: the answer is the map's, and the files hold the map it leaves. -/
theorem perform_agrees (h : Holds names disk images) (hinj : Set.InjOn fileName names) (c : StoreCall)
    (hc : ∀ name, c.about = some name → name ∈ names) :
    (c.perform x disk).1 = (c.onMap images).1 ∧ Holds names (c.perform x disk).2 (c.onMap images).2 := by
  cases c with
  | put img =>
    rw [StoreCall.perform, finish_put]
    exact ⟨rfl, h.put hinj (hc img.name rfl)⟩
  | get name =>
    rw [StoreCall.perform, finish_get, h.get? hinj (hc name rfl), StoreCall.onMap]
    cases images.get? name with
    | none => exact ⟨rfl, h⟩
    | some img => exact ⟨rfl, h⟩
  | remove name =>
    have hcontains : disk.metas.contains (metaFile name) = images.contains name := by
      rw [OrdMap.contains, h.get? hinj (hc name rfl), Option.isSome_map]
      rfl
    rw [StoreCall.perform, finish_remove, hcontains, StoreCall.onMap]
    cases images.contains name with
    | true => exact ⟨rfl, h.remove hinj (hc name rfl)⟩
    | false => exact ⟨rfl, h⟩
  | list =>
    rw [StoreCall.perform, finish_list, sorted_read h]
    exact ⟨rfl, h⟩

theorem answers_agree (hinj : Set.InjOn fileName names) (calls : List StoreCall)
    (hcalls : ∀ c ∈ calls, ∀ name, c.about = some name → name ∈ names) (disk : Disk Tree)
    (images : OrdMap String ImageMeta) (h : Holds names disk images) :
    answers (StoreCall.perform x) disk calls = answers StoreCall.onMap images calls := by
  induction calls generalizing disk images with
  | nil => rfl
  | cons c calls ih =>
    obtain ⟨hanswer, hnext⟩ := perform_agrees (x := x) h hinj c (hcalls c (List.mem_cons_self ..))
    rw [answers, answers, hanswer, ih (fun c hc => hcalls c (List.mem_cons_of_mem _ hc)) _ _ hnext]

theorem holds_empty : Holds names ({} : Disk Tree) OrdMap.empty := by
  constructor
  · intro f e
    constructor
    · intro he
      cases he
    · rintro ⟨img, hget, -⟩
      cases hget
  · intro n img hget
    cases hget

end Files

/-! ## The store as a map -/

/-- An image of which only the name matters. -/
def bare (name : String) : ImageMeta := ⟨name, "", [], {}, .oci⟩

/-- Every sequence of calls about images with names in a set is answered as by the map from names to images, exactly
when no two of the names have the same file name. -/
theorem image_map_iff {Tree : Type} (x : Env Tree) (names : Set String) :
    (∀ calls : List StoreCall, (∀ c ∈ calls, ∀ name, c.about = some name → name ∈ names) →
      answers (StoreCall.perform x) {} calls = answers StoreCall.onMap OrdMap.empty calls) ↔
      Set.InjOn fileName names := by
  constructor
  · intro h a ha b hb hfile
    by_contra hne
    have hcalls := h [.put (bare a), .get b] (by
      intro c hc name habout
      simp only [List.mem_cons, List.not_mem_nil, or_false] at hc
      rcases hc with rfl | rfl <;> cases habout
      · exact ha
      · exact hb)
    have hmeta : metaFile b = metaFile a := congrArg (· ++ ".json") hfile.symm
    have hsecond := congrArg (fun l => l[1]?) hcalls
    have hget : (OrdMap.empty.insert (bare a).name (bare a)).get? b = none := by
      rw [OrdMap.get?_insert, if_neg (fun hba => hne hba.symm)]
      rfl
    simp only [answers, StoreCall.perform, finish_put, finish_get, StoreCall.onMap, hget, hmeta] at hsecond
    have hfound : (({} : Disk Tree).metas.insert (metaFile (bare a).name) (.whole (bare a))).get? (metaFile a) =
        some (.whole (bare a)) := by
      rw [OrdMap.get?_insert]
      exact if_pos rfl
    simp [hfound] at hsecond
  · intro hinj calls hcalls
    exact answers_agree hinj calls hcalls {} OrdMap.empty holds_empty

/-! ## Which names keep apart -/

/-- How one character is written. -/
def charName (c : Char) : List Char :=
  if Text.isAlphanumeric c || c == '.' || c == '-' || c == '_' then [c]
  else '%' :: (if c.toNat < 16 then ['0'] else []) ++ Nat.toDigits 16 c.toNat

theorem toList_fileName (name : String) : (fileName name).toList = name.toList.flatMap charName := by
  rw [fileName, String.toList_ofList]
  rfl

/-- Up to U+00FF a number has two digits. -/
theorem two_digits : ∀ n < 256, (if n < 16 then ['0'] else []) ++ Nat.toDigits 16 n = Text.hexPad 2 n := by
  decide +kernel

/-- A character up to U+00FF is written as itself, or as a percent sign and two digits. -/
theorem charName_narrow {c : Char} (h : c.toNat < 256) :
    (charName c = [c] ∧ c ≠ '%') ∨ charName c = '%' :: Text.hexPad 2 c.toNat := by
  unfold charName
  split
  · rename_i hplain
    refine Or.inl ⟨rfl, ?_⟩
    rintro rfl
    exact absurd hplain (by decide)
  · exact Or.inr (by rw [List.cons_append, two_digits c.toNat h])

theorem flatMap_charName_inj {a b : List Char} (ha : ∀ c ∈ a, c.toNat < 256) (hb : ∀ c ∈ b, c.toNat < 256)
    (h : a.flatMap charName = b.flatMap charName) : a = b := by
  have hpos (c : Char) (hc : c.toNat < 256) (rest : List Char) : charName c ++ rest ≠ [] := by
    rcases charName_narrow hc with ⟨hname, -⟩ | hname <;> simp [hname]
  induction a generalizing b with
  | nil =>
    cases b with
    | nil => rfl
    | cons d b => exact absurd h.symm (hpos d (hb d (List.mem_cons_self ..)) _)
  | cons c a ih =>
    cases b with
    | nil => exact absurd h (hpos c (ha c (List.mem_cons_self ..)) _)
    | cons d b =>
      have hc := ha c (List.mem_cons_self ..)
      have hd := hb d (List.mem_cons_self ..)
      have htail (hrest : a.flatMap charName = b.flatMap charName) : a = b :=
        ih (fun e he => ha e (List.mem_cons_of_mem _ he)) (fun e he => hb e (List.mem_cons_of_mem _ he)) hrest
      rw [List.flatMap_cons, List.flatMap_cons] at h
      rcases charName_narrow hc with ⟨hcn, hc'⟩ | hcn <;> rcases charName_narrow hd with ⟨hdn, hd'⟩ | hdn <;>
        rw [hcn, hdn] at h
      · obtain ⟨rfl, hrest⟩ := List.cons.inj h
        rw [htail hrest]
      · exact absurd (List.cons.inj h).1 hc'
      · exact absurd (List.cons.inj h).1.symm hd'
      · obtain ⟨hdigits, hrest⟩ := List.append_inj (List.cons.inj h).2 (by simp [Text.length_hexPad])
        have hsame := Text.hexPad_inj (w := 2) hc hd hdigits
        rw [htail hrest, Char.toNat_inj.mp hsame]

/-- Names without characters beyond U+00FF keep apart. -/
theorem fileName_injOn_narrow : Set.InjOn fileName {name | ∀ c ∈ name.toList, c.toNat < 256} := by
  intro a ha b hb h
  have hlists := congrArg String.toList h
  rw [toList_fileName, toList_fileName] at hlists
  exact String.toList_inj.mp (flatMap_charName_inj ha hb hlists)

/-- A space with the letters `ac`, and the euro sign, are one file. -/
theorem euro_shares_file :
    ¬∀ calls : List StoreCall,
      answers (StoreCall.perform hostEnv) {} calls = answers StoreCall.onMap OrdMap.empty calls := by
  intro h
  exact absurd (h [.put (bare "€"), .get " ac"]) (by decide +kernel)

end Collocate.Image
