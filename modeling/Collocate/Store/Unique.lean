import Collocate.Store.Operations

/-! # One container for an id, one for a name

What `load_all`, `get` and `create` say of one store agrees, whatever has been done to it and however
that ended. -/
namespace Collocate.Store
set_option autoImplicit false

/-! ## The listing and the slots -/

def InSlot (p : Option File × Option File) (s : Spec) : Prop := p.1 = some (.spec s) ∨ p.2 = some (.spec s)

theorem listed_iff {d : Files} (hd : Sound d) {s : Spec} : Listed d s ↔ InSlot (slot d s.id.display) s := by
  constructor
  · rintro ⟨a, ha, name, hname⟩
    obtain ⟨hv, hspec⟩ := listedAt_iff.mp hname
    obtain ⟨t, ht, rfl⟩ := hd.named a ha name _ hv hspec
    cases ht
    rcases List.mem_cons.mp ha with rfl | ha
    · exact .inl hspec
    · rw [List.mem_singleton.mp ha] at hspec
      exact .inr hspec
  · rintro (h | h)
    · exact ⟨.state, by decide, _, listedAt_iff.mpr ⟨visible_display _, h⟩⟩
    · exact ⟨.run, by decide, _, listedAt_iff.mpr ⟨visible_display _, h⟩⟩

theorem inSlot_unique {name : String} {p : Option File × Option File} (hp : SlotSound name p) {s t : Spec}
    (hs : InSlot p s) (ht : InSlot p t) : s = t := by
  rcases hs with hs | hs <;> rcases ht with ht | ht
  · cases hs.symm.trans ht
    rfl
  · rcases hp.2 with h | h
    · exact nomatch h.symm.trans hs
    · exact nomatch h.symm.trans ht
  · rcases hp.2 with h | h
    · exact nomatch h.symm.trans ht
    · exact nomatch h.symm.trans hs
  · cases hs.symm.trans ht
    rfl

theorem listed_unique {d : Files} (hd : Sound d) {s t : Spec} (hs : Listed d s) (ht : Listed d t) (hid : s.id = t.id) :
    s = t := by
  have hs' := (listed_iff hd).mp hs
  have ht' := (listed_iff hd).mp ht
  rw [← hid] at ht'
  exact inSlot_unique (sound_iff.mp hd _ (visible_display _)) hs' ht'

/-- A spec is found exactly for the ids that are listed. -/
theorem pathOf_ne_none {d : Files} (hd : Sound d) {id : ContainerId} :
    pathOf d id ≠ none ↔ ∃ s, Listed d s ∧ s.id = id := by
  have hslot := sound_iff.mp hd id.display (visible_display id)
  constructor
  · intro h
    obtain ⟨a, ha⟩ := Option.ne_none_iff_exists'.mp h
    obtain ⟨hbase, dir, f, hdir, hfile⟩ := pathOf_eq_some ha
    have hspec : specAt d a id.display = some f := by rw [specAt, hdir, Option.bind_some, hfile]
    obtain ⟨s, rfl, hname⟩ := hd.named a hbase _ _ (visible_display id) hspec
    exact ⟨s, ⟨a, hbase, _, listedAt_iff.mpr ⟨visible_display id, hspec⟩⟩, display_injective hname⟩
  · rintro ⟨s, hs, rfl⟩ hnone
    rcases (listed_iff hd).mp hs with h | h
    · exact Option.some_ne_none _ (h.symm.trans (congrArg Prod.fst (pathOf_eq_none.mp hnone)))
    · exact Option.some_ne_none _ (h.symm.trans (congrArg Prod.snd (pathOf_eq_none.mp hnone)))

/-! ## What a change does to the listing -/

/-- The spec that a change writes. -/
def Change.written : Change → Option Spec
  | .create spec | .update spec => some spec
  | .remove _ => none

theorem inSlot_put {a : Area} {spec s : Spec} {old : Option File × Option File}
    (hsound : SlotSound spec.id.display (put a (.spec spec) old)) (h : InSlot (put a (.spec spec) old) s) :
    s = spec := by
  refine inSlot_unique hsound h ?_
  unfold put
  split
  · exact .inl rfl
  · exact .inr rfl

theorem inSlot_change {c : Change} {d : Files} (hd : Sound d) (hready : c.Ready d) {s : Spec}
    (h : InSlot (c.slot d) s) :
    c.written = some s := by
  have hsound := c.slotSound hd hready
  cases c with
  | create spec => exact congrArg some (inSlot_put hsound h).symm
  | update spec => exact congrArg some (inSlot_put hsound h).symm
  | remove id => exact h.elim nofun nofun

/-- What is listed later was listed before, or has been written. -/
theorem Midway.listed {c : Change} {d d' : Files} (hd : Sound d) (h : Midway c d d') {s : Spec} (hs : Listed d' s) :
    Listed d s ∨ c.Ready d ∧ c.written = some s := by
  have hs' := (listed_iff (h.sound hd)).mp hs
  by_cases hid : s.id = c.id
  · rw [hid] at hs'
    rcases h.2 with hsame | ⟨hready, hslot⟩
    · rw [hsame, ← hid] at hs'
      exact .inl ((listed_iff hd).mpr hs')
    · rw [hslot] at hs'
      exact .inr ⟨hready, inSlot_change hd hready hs'⟩
  · rw [h.1.slot (visible_display _) fun heq => hid (display_injective heq)] at hs'
    exact .inl ((listed_iff hd).mpr hs')

/-! ## Whole runs -/

/-- An operation with a spec of no newer schema, and an update that keeps the name and the place. -/
def Fits (d : Files) : Op → Prop
  | .change (.create spec) => ¬ specSchema < spec.schema
  | .change (.update spec) => ¬ specSchema < spec.schema ∧
    ∀ s, Listed d s → s.id = spec.id → s.name = spec.name ∧ s.persistent = spec.persistent
  | _ => True

/-- The states that operations lead to from an empty store, however each of them ended: calls may fail, but where a
`create` looks for a name that is taken the directories are listed. -/
inductive Served : Files → Prop
  | start : Served noFiles
  | step {d d' : Files} (op : Op) {r : Except Error Unit} (h : Served d) (hfits : Fits d op)
      (hgo : Job.Goes exec (op.hazard d) op.work d (.done r) d') : Served d'

structure Orderly (d : Files) : Prop where
  sound : Sound d
  current : ¬ Newer d
  named : ∀ s t, Listed d s → Listed d t → s.name = t.name → s.name ≠ "" → s.id = t.id

theorem Orderly.congr {d d' : Files} (h : Orderly d) (hsame : SameSpecs d d') : Orderly d' where
  sound := h.sound.congr hsame
  current := fun hnewer => h.current ((newer_congr hsame).mp hnewer)
  named := fun s t hs ht => h.named s t ((listed_congr hsame s).mp hs) ((listed_congr hsame t).mp ht)

/-- A spec that is written does not take the name of another. -/
theorem written_named {c : Change} {d : Files} (h : Orderly d) (hfits : Fits d (.change c)) (hready : c.Ready d)
    {s t : Spec} (hs : c.written = some s) (ht : Listed d t) (hname : s.name = t.name) (hne : s.name ≠ "") :
    s.id = t.id := by
  cases c with
  | create spec =>
    cases hs
    exact absurd hname.symm ((hready.1.2.resolve_left hne).2 t ht)
  | update spec =>
    cases hs
    obtain ⟨u, hu, hid⟩ := (pathOf_ne_none h.sound).mp hready
    have hkept := (hfits.2 u hu hid).1
    rw [← hid]
    exact h.named u t hu ht (hkept.trans hname) (hkept ▸ hne)
  | remove id => cases hs

theorem Orderly.change {c : Change} {d d' : Files} (h : Orderly d) (hfits : Fits d (.change c))
    (hmidway : Midway c d d') :
    Orderly d' where
  sound := hmidway.sound h.sound
  current := by
    rintro ⟨s, hs, hnewer⟩
    rcases hmidway.listed h.sound hs with hold | ⟨-, hwritten⟩
    · exact h.current ⟨s, hold, hnewer⟩
    · cases c with
      | create spec =>
        cases hwritten
        exact hfits hnewer
      | update spec =>
        cases hwritten
        exact hfits.1 hnewer
      | remove id => cases hwritten
  named := by
    intro s t hs ht hname hne
    rcases hmidway.listed h.sound hs with hs | ⟨hready, hs⟩
    · rcases hmidway.listed h.sound ht with ht | ⟨hready, ht⟩
      · exact h.named s t hs ht hname hne
      · exact (written_named h hfits hready ht hs hname.symm (hname ▸ hne)).symm
    · rcases hmidway.listed h.sound ht with ht | ⟨-, ht⟩
      · exact written_named h hfits hready hs ht hname hne
      · rw [Option.some.inj (hs.symm.trans ht)]

theorem Orderly.did {op : Op} {d d' : Files} (h : Orderly d) (hfits : Fits d op) (hdid : op.Did d d') : Orderly d' := by
  cases hdid with
  | changed hmidway => exact h.change hfits hmidway
  | kept hsame => exact h.congr hsame

theorem orderly_noFiles : Orderly noFiles where
  sound := sound_noFiles
  current := fun ⟨_, hs, _⟩ => ((listed_iff sound_noFiles).mp hs).elim nofun nofun
  named := fun _ _ hs => ((listed_iff sound_noFiles).mp hs).elim nofun nofun

theorem Served.orderly {d : Files} (h : Served d) : Orderly d := by
  induction h with
  | start => exact orderly_noFiles
  | step op _ hfits hgo ih => exact ih.did hfits (op.did ih.sound ih.current _ _ hgo)

/-! ## `get` and `create` -/

variable {b : Bool} {W : Files → Prop}

theorem get_keeps (id : ContainerId) {d₀ : Files} (hd₀ : Sound d₀) (hW : W d₀) :
    Job.Keeps exec (may b) W (· = d₀) (get id) (fun s _ => Listed d₀ s ∧ s.id = id)
      (fun _ _ => b = true ∨ ¬ ∃ s, Listed d₀ s ∧ s.id = id) := by
  refine Job.Keeps.bind (specPath_keeps hW) fun path => Job.Keeps.each fun d hd => ?_
  obtain ⟨rfl, hpath⟩ := hd
  cases path with
  | none => exact Job.Keeps.throw fun _ _ => .inr fun hsome => (pathOf_ne_none hd₀).mpr hsome hpath.symm
  | some a =>
    obtain ⟨ha, dir, f, hdir, hfile⟩ := pathOf_eq_some hpath.symm
    have hspec : specAt d a id.display = some f := by rw [specAt, hdir, Option.bind_some, hfile]
    obtain ⟨s, rfl, hname⟩ := hd₀.named a ha _ _ (visible_display id) hspec
    have hlisted : Listed d s := ⟨a, ha, _, listedAt_iff.mpr ⟨visible_display id, hspec⟩⟩
    refine Job.Keeps.bind (readFile_keeps hW) fun r => Job.Keeps.each fun d' hd' => ?_
    obtain ⟨rfl, hread⟩ := hd'
    cases r with
    | error e =>
      refine Job.Keeps.throw fun _ _ => .inl ?_
      rcases hread with ⟨-, hnone⟩ | ⟨-, hb⟩
      · exact absurd (hspec.symm.trans hnone) (Option.some_ne_none (File.spec s))
      · exact hb
    | ok f =>
      obtain rfl : f = .spec s := Option.some.inj (hread.symm.trans hspec)
      exact Job.Keeps.pure fun _ _ => ⟨hlisted, display_injective hname⟩

/-- `get` finds what is listed, and nothing else. -/
theorem get_ok_iff {d : Files} (hd : Sound d) {id : ContainerId} {s : Spec} :
    (Job.finish exec .fine (get id) d).1 = .ok s ↔ Listed d s ∧ s.id = id := by
  have hgo := goes_fine false (get id) d
  have hkeeps := get_keeps (b := false) (W := fun _ => True) id hd trivial
  cases hend : (Job.finish exec .fine (get id) d).1 with
  | error e =>
    rw [hend] at hgo
    have hnone := (hkeeps.failed rfl hgo).resolve_left Bool.false_ne_true
    exact ⟨nofun, fun h => absurd ⟨s, h⟩ hnone⟩
  | ok t =>
    rw [hend] at hgo
    obtain ⟨ht, hid⟩ := hkeeps.ok rfl hgo
    constructor
    · intro h
      cases h
      exact ⟨ht, hid⟩
    · rintro ⟨hs, hid'⟩
      rw [listed_unique hd hs ht (hid'.trans hid.symm)]

/-- `create` is refused with a conflict exactly when the id or the name is taken. -/
theorem create_conflict_iff {d : Files} (h : Orderly d) {spec : Spec} :
    (∃ why, (Job.finish exec .fine (create spec) d).1 = .error (.conflict why)) ↔
      (∃ s, Listed d s ∧ s.id = spec.id) ∨ spec.name ≠ "" ∧ ∃ s, Listed d s ∧ s.name = spec.name := by
  have htaken : ¬ Free spec d ↔
      (∃ s, Listed d s ∧ s.id = spec.id) ∨ spec.name ≠ "" ∧ ∃ s, Listed d s ∧ s.name = spec.name := by
    rw [Free, not_and_or, ← pathOf_ne_none h.sound, not_or]
    refine or_congr_right (and_congr_right fun _ => ?_)
    simp [h.current]
  rw [← htaken]
  have hgo := goes_fine false (create spec) d
  have hkeeps := create_keeps (b := false) spec h.sound
  cases hend : (Job.finish exec .fine (create spec) d).1 with
  | ok u =>
    rw [hend] at hgo
    have hready := (hkeeps.ok rfl hgo).2.1
    exact ⟨nofun, fun hnot => absurd hready.1 hnot⟩
  | error e =>
    rw [hend] at hgo
    rcases (hkeeps.failed rfl hgo).2.resolve_left Bool.false_ne_true with ⟨hnot, hwhy⟩ | ⟨hfree, -, rfl⟩
    · obtain ⟨why, rfl⟩ := hwhy.resolve_left h.current
      exact ⟨fun _ => hnot, fun _ => ⟨why, rfl⟩⟩
    · exact ⟨nofun, fun hnot => absurd hfree hnot⟩

/-- In a store that has only been used through its operations, with specs of no newer schema: ids and
names are listed once, `get` agrees with the listing, and `create` refuses what is taken. -/
theorem store_unique {d : Files} (hd : Served d) :
    ∃ l, loaded d = .ok l ∧ (l.map (·.id)).Nodup ∧ ((l.map (·.name)).filter (· ≠ "")).Nodup ∧
      (∀ id s, (Job.finish exec .fine (get id) d).1 = .ok s ↔ s ∈ l ∧ s.id = id) ∧
      ∀ spec, (∃ why, (Job.finish exec .fine (create spec) d).1 = .error (.conflict why)) ↔
        (∃ s ∈ l, s.id = spec.id) ∨ spec.name ≠ "" ∧ ∃ s ∈ l, s.name = spec.name := by
  have horderly := hd.orderly
  have hloads := loads_loaded d
  cases hloaded : loaded d with
  | error e =>
    rw [hloaded] at hloads
    exact absurd (hloads.newer horderly.sound) horderly.current
  | ok l =>
    rw [hloaded] at hloads
    obtain ⟨hnodup, hmem, -⟩ := hloads.full horderly.sound
    refine ⟨l, rfl, hnodup, ?_, fun id s => ?_, fun spec => ?_⟩
    · rw [List.Nodup, List.pairwise_filter, List.pairwise_map]
      refine (List.pairwise_map.mp hnodup).imp_of_mem fun {s t} hs ht hid hne _ hname => hid ?_
      exact horderly.named s t ((hmem s).mp hs) ((hmem t).mp ht) hname (of_decide_eq_true hne)
    · rw [get_ok_iff horderly.sound, hmem]
    · rw [create_conflict_iff horderly]
      simp only [hmem]

/-- A store with one container, made from nothing. -/
def webStore : Files := (Job.finish exec .fine (Change.create webSpec).work noFiles).2

theorem served_webStore : Served webStore := by
  have hfits : Fits noFiles (.change (.create webSpec)) := by
    show ¬ specSchema < webSpec.schema
    decide
  exact .step (.change (.create webSpec)) .start hfits (Job.goes_finish (fun _ _ _ he => by cases he) _ _)

theorem web_listed_once :
    ∃ l, loaded webStore = .ok l ∧ webSpec ∈ l ∧
      ∃ why, (Job.finish exec .fine (create webSpec) webStore).1 = .error (.conflict why) := by
  obtain ⟨l, hl, -, -, hget, hcreate⟩ := store_unique served_webStore
  have hfound : (Job.finish exec .fine (get webSpec.id) webStore).1 = .ok webSpec := by decide +kernel
  obtain ⟨hmem, -⟩ := (hget webSpec.id webSpec).mp hfound
  exact ⟨l, hl, hmem, (hcreate webSpec).mpr (.inl ⟨webSpec, hmem, rfl⟩)⟩

/-- A spec of a version to come, and another with its name. -/
def newerSpec : Spec := { webSpec with schema := 2 }
def namesakeSpec : Spec := { webSpec with id := 43 }

/-- No directory can be listed. -/
def unlisted : Call → Fate
  | .names _ => .broken "Too many open files (os error 24)"
  | _ => .fine

/-- Two containers of one name, for which `create` has not seen the first. -/
def twins : Files := (Job.settle exec unlisted (create namesakeSpec) webStore).2

theorem twins_loaded : ∃ l, loaded twins = .ok l ∧ l.Perm [webSpec, namesakeSpec] := by
  have harea : ∀ a l, (Job.finish exec .fine (loadArea a) twins).1 = .ok l →
      (∀ a', (Job.finish exec .fine (loadArea a) twins).2 a' = twins a') →
      Job.finish exec .fine (loadArea a) twins = (.ok l, twins) :=
    fun a l hlist hsame => Prod.ext hlist (funext hsame)
  have hstate := harea .state [] (by decide +kernel) fun a' => by cases a' <;> decide +kernel
  have hrun := harea .run [webSpec, namesakeSpec] (by decide +kernel) fun a' => by cases a' <;> decide +kernel
  refine ⟨_, ?_, List.mergeSort_perm _ earlier⟩
  unfold loaded loadAll
  rw [Job.finish_bind, hstate]
  dsimp only
  rw [Job.finish_bind, hrun]
  rfl

/-- A store with a newer spec in it: `get` finds the spec, `load_all` refuses to list, and `create` of
a taken name fails with something else than a conflict. And a store that cannot be listed: `create` takes a taken
name. -/
theorem newer_spec_unlisted :
    let d := (Job.finish exec .fine (Change.create newerSpec).work noFiles).2
    ((Job.finish exec .fine (Change.create newerSpec).work noFiles).1 = .ok () ∧
      loaded d = .error (.invalid "spec 00000000002a uses newer schema 2") ∧
      (Job.finish exec .fine (get newerSpec.id) d).1 = .ok newerSpec ∧
      (Job.finish exec .fine (create namesakeSpec) d).1 = .error
        (.invalid "spec 00000000002a uses newer schema 2")) ∧
      (Job.settle exec unlisted (create namesakeSpec) webStore).1 = .ok () ∧
      ∃ l, loaded twins = .ok l ∧ ¬ ((l.map (·.name)).filter (· ≠ "")).Nodup := by
  obtain ⟨l, hl, hperm⟩ := twins_loaded
  refine ⟨by decide +kernel, by decide +kernel, l, hl, fun hnodup => ?_⟩
  have hnames := ((hperm.map (·.name)).filter (· ≠ "")).nodup_iff.mp hnodup
  exact absurd hnames (by decide)

end Collocate.Store
