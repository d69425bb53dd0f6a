import Collocate.Daemon.Targets

/-! # What a reference denotes (`collocate-core/src/id.rs`, `Daemon::resolve`)

A client names a container by its name or by a prefix of its id. A name is looked for first, so it can be the id of
another container; apart from that an id denotes its container. -/
namespace Collocate
set_option autoImplicit false

/-! ## Among any containers -/

/-- The container of the id is the only one whose id starts with the reference. -/
def OnlyPrefixed (all : List (ContainerId × String)) (reference : String) (id : ContainerId) : Prop :=
  (id ∈ all.map Prod.fst ∧ Text.startsWith id.display reference = true) ∧
    ∀ e ∈ all, Text.startsWith e.1.display reference = true → e.1 = id

/-- Who a reference denotes, and when it denotes nobody. -/
structure Denotes (all : List (ContainerId × String)) (reference : String) (r : Result ContainerId) : Prop where
  named : (∃ e ∈ all, e.2 = reference) → ∃ e ∈ all, e.2 = reference ∧ r = .ok e.1
  unique : reference ≠ "" → (∀ e ∈ all, e.2 ≠ reference) → ∀ id, r = .ok id ↔ OnlyPrefixed all reference id
  notFound : (∀ e ∈ all, e.2 ≠ reference) →
    (r = .error (.notFound reference) ↔ reference = "" ∨ ∀ e ∈ all, Text.startsWith e.1.display reference = false)
  ambiguous : reference ≠ "" → (∀ e ∈ all, e.2 ≠ reference) → ((∃ ids, r = .error (.ambiguous ids)) ↔
    ∃ a ∈ all, ∃ b ∈ all, a.1 ≠ b.1 ∧ Text.startsWith a.1.display reference = true ∧
      Text.startsWith b.1.display reference = true)
  full : ∀ id ∈ all.map Prod.fst, reference = id.display → (∀ e ∈ all, e.2 = reference → e.1 = id) → r = .ok id

section Pure
variable {all : List (ContainerId × String)} {reference : String} {id : ContainerId}

/-- The ids that start with the reference. -/
def prefixed (reference : String) (all : List (ContainerId × String)) : List ContainerId :=
  (all.map Prod.fst).filter fun id => Text.startsWith id.display reference

theorem mem_prefixed : id ∈ prefixed reference all ↔
    id ∈ all.map Prod.fst ∧ Text.startsWith id.display reference = true := List.mem_filter

theorem resolveRef_named (h : ∃ e ∈ all, e.2 = reference) : ∃ e ∈ all, e.2 = reference ∧
    resolveRef reference all = .ok e.1 := by
  unfold resolveRef
  cases hfind : all.find? fun e => e.2 == reference with
  | none =>
    obtain ⟨e, he, hname⟩ := h
    exact absurd (beq_iff_eq.mpr hname) (List.find?_eq_none.mp hfind e he)
  | some e =>
    have hname := List.find?_some hfind
    exact ⟨e, List.mem_of_find?_eq_some hfind, beq_iff_eq.mp hname, rfl⟩

theorem resolveRef_unnamed (hne : reference ≠ "") (h : ∀ e ∈ all, e.2 ≠ reference) :
    resolveRef reference all = match prefixed reference all with
      | [] => .error (.notFound reference)
      | [one] => .ok one
      | many => .error (.ambiguous (many.map ContainerId.display)) := by
  have hfind : all.find? (fun e => e.2 == reference) = none :=
    List.find?_eq_none.mpr fun e he hname => h e he (beq_iff_eq.mp hname)
  have hsome : reference.isEmpty = false := by
    rw [Bool.eq_false_iff, Ne, String.isEmpty_iff]
    exact hne
  unfold resolveRef
  rw [hfind]
  simp only [hsome, Bool.not_false, Bool.true_and]
  rfl

theorem resolveRef_empty (h : ∀ e ∈ all, e.2 ≠ "") : resolveRef "" all = .error (.notFound "") := by
  have hfind : all.find? (fun e => e.2 == "") = none :=
    List.find?_eq_none.mpr fun e he hname => h e he (beq_iff_eq.mp hname)
  unfold resolveRef
  rw [hfind]
  have hnone : (all.map Prod.fst).filter (fun id => !"".isEmpty && Text.startsWith id.display "") = [] :=
    List.filter_eq_nil_iff.mpr fun _ _ => Bool.false_ne_true
  rw [hnone]

theorem startsWith_full {i : ContainerId} (h : Text.startsWith i.display id.display = true) : i = id := by
  obtain ⟨rest, hrest⟩ := Text.startsWith_iff.mp h
  have hlength (i : ContainerId) : i.display.toList.length = 12 := by
    rw [ContainerId.display, String.toList_ofList, Text.length_hexPad]
  have hlist := congrArg String.toList hrest
  rw [String.toList_append] at hlist
  have hnil := congrArg List.length hlist
  rw [List.length_append, hlength, hlength, Nat.left_eq_add, List.length_eq_zero_iff] at hnil
  rw [hnil, List.append_nil] at hlist
  exact Store.display_injective (String.toList_inj.mp hlist)

theorem startsWith_self (s : String) : Text.startsWith s s = true :=
  Text.startsWith_iff.mpr ⟨"", (String.append_empty).symm⟩

/-- The ids that start with the reference decide: none, one, or several. -/
theorem denotes_unique (hids : (all.map Prod.fst).Nodup) (hne : reference ≠ "") (h : ∀ e ∈ all, e.2 ≠ reference) :
    resolveRef reference all = .ok id ↔ OnlyPrefixed all reference id := by
  have hmem {e : ContainerId × String} (he : e ∈ all) (hstart : Text.startsWith e.1.display reference = true) :
      e.1 ∈ prefixed reference all := mem_prefixed.mpr ⟨List.mem_map_of_mem he, hstart⟩
  have hnodup : (prefixed reference all).Nodup := hids.filter _
  rw [resolveRef_unnamed hne h]
  constructor
  · intro hok
    rcases hp : prefixed reference all with _ | ⟨one, _ | ⟨two, rest⟩⟩
    · rw [hp] at hok
      cases hok
    · rw [hp] at hok
      cases hok
      refine ⟨mem_prefixed.mp (hp ▸ List.mem_singleton_self _), fun e he hstart => ?_⟩
      exact List.mem_singleton.mp (hp ▸ hmem he hstart)
    · rw [hp] at hok
      cases hok
  · rintro ⟨hown, honly⟩
    have hin := mem_prefixed.mpr hown
    have hall : ∀ i ∈ prefixed reference all, i = id := by
      intro i hi
      obtain ⟨hi, hstart⟩ := mem_prefixed.mp hi
      obtain ⟨e, he, rfl⟩ := List.mem_map.mp hi
      exact honly e he hstart
    rcases hp : prefixed reference all with _ | ⟨one, _ | ⟨two, rest⟩⟩
    · rw [hp] at hin
      cases hin
    · rw [hp] at hall
      rw [hall one List.mem_cons_self]
    · rw [hp] at hall hnodup
      have hsame : one = two := (hall one List.mem_cons_self).trans (hall two (by simp)).symm
      rw [hsame] at hnodup
      simp at hnodup

theorem denotes_notFound (h : ∀ e ∈ all, e.2 ≠ reference) : resolveRef reference all = .error (.notFound reference) ↔
    reference = "" ∨ ∀ e ∈ all, Text.startsWith e.1.display reference = false := by
  by_cases hne : reference = ""
  · subst hne
    rw [resolveRef_empty h]
    simp
  · have hnil : prefixed reference all = [] ↔ ∀ e ∈ all, Text.startsWith e.1.display reference = false := by
      unfold prefixed
      rw [List.filter_eq_nil_iff, List.forall_mem_map]
      simp
    rw [resolveRef_unnamed hne h, or_iff_right hne, ← hnil]
    rcases prefixed reference all with _ | ⟨one, _ | ⟨two, rest⟩⟩ <;> simp

theorem denotes_ambiguous (hids : (all.map Prod.fst).Nodup) (hne : reference ≠ "") (h : ∀ e ∈ all, e.2 ≠ reference) :
    (∃ ids, resolveRef reference all = .error (.ambiguous ids)) ↔ ∃ a ∈ all, ∃ b ∈ all, a.1 ≠ b.1 ∧
      Text.startsWith a.1.display reference = true ∧ Text.startsWith b.1.display reference = true := by
  have hnodup : (prefixed reference all).Nodup := hids.filter _
  have hmem {i : ContainerId} : i ∈ prefixed reference all ↔ ∃ e ∈ all, e.1 = i ∧
    Text.startsWith e.1.display reference = true := by
    rw [mem_prefixed, List.mem_map]
    constructor
    · rintro ⟨⟨e, he, rfl⟩, hstart⟩
      exact ⟨e, he, rfl, hstart⟩
    · rintro ⟨e, he, rfl, hstart⟩
      exact ⟨⟨e, he, rfl⟩, hstart⟩
  rw [resolveRef_unnamed hne h]
  constructor
  · rintro ⟨ids, hambiguous⟩
    rcases hp : prefixed reference all with _ | ⟨one, _ | ⟨two, rest⟩⟩
    · rw [hp] at hambiguous
      cases hambiguous
    · rw [hp] at hambiguous
      cases hambiguous
    · rw [hp] at hnodup
      have hone : one ∈ prefixed reference all := hp ▸ List.mem_cons_self
      have htwo : two ∈ prefixed reference all := hp ▸ List.mem_cons_of_mem _ List.mem_cons_self
      obtain ⟨a, ha, rfl, hstart⟩ := hmem.mp hone
      obtain ⟨b, hb, rfl, hstart'⟩ := hmem.mp htwo
      refine ⟨a, ha, b, hb, fun heq => ?_, hstart, hstart'⟩
      rw [heq] at hnodup
      simp at hnodup
  · rintro ⟨a, ha, b, hb, hdiffer, hstart, hstart'⟩
    have hina := hmem.mpr ⟨a, ha, rfl, hstart⟩
    have hinb := hmem.mpr ⟨b, hb, rfl, hstart'⟩
    rcases hp : prefixed reference all with _ | ⟨one, _ | ⟨two, rest⟩⟩
    · rw [hp] at hina
      cases hina
    · rw [hp, List.mem_singleton] at hina hinb
      exact absurd (hina.trans hinb.symm) hdiffer
    · exact ⟨_, rfl⟩

theorem denotes_full (hids : (all.map Prod.fst).Nodup) (hid : id ∈ all.map Prod.fst)
    (hnames : ∀ e ∈ all, e.2 = id.display → e.1 = id) : resolveRef id.display all = .ok id := by
  by_cases hnamed : ∃ e ∈ all, e.2 = id.display
  · obtain ⟨e, he, hname, hok⟩ := resolveRef_named hnamed
    rw [hok, hnames e he hname]
  · have hne : id.display ≠ "" := by
      intro hempty
      have hlength := congrArg (fun s => s.toList.length) hempty
      rw [ContainerId.display, String.toList_ofList, Text.length_hexPad] at hlength
      cases hlength
    refine (denotes_unique hids hne fun e he hname => hnamed ⟨e, he, hname⟩).mpr ⟨⟨hid, startsWith_self _⟩, ?_⟩
    exact fun e _ hstart => startsWith_full hstart

theorem resolveRef_denotes (hids : (all.map Prod.fst).Nodup) : Denotes all reference (resolveRef reference all) where
  named := resolveRef_named
  unique hne h _ := denotes_unique hids hne h
  notFound := denotes_notFound
  ambiguous hne h := denotes_ambiguous hids hne h
  full id hid href hnames := by
    subst href
    exact denotes_full hids hid hnames

end Pure

/-! ## In the daemon -/

namespace Daemon
variable {σ : Type}

/-- The containers as `resolve` lists them. -/
def State.references (d : State σ) : List (ContainerId × String) :=
  (d.store.specs.values.insertionSort earlier).map fun s => (s.id, s.name)

theorem references_nodup (d : State σ) : (d.references.map Prod.fst).Nodup := by
  have hids : d.store.specs.values.map (fun s => s.id) = d.store.specs.keys := by
    unfold OrdMap.values OrdMap.keys
    rw [List.map_map]
    refine List.map_congr_left fun e he => ?_
    exact d.store.keyed e.1 e.2 (OrdMap.get?_eq_some.mpr he)
  have hperm : (d.references.map Prod.fst).Perm d.store.specs.keys := by
    rw [← hids]
    unfold State.references
    rw [List.map_map]
    exact (List.perm_insertionSort earlier d.store.specs.values).map _
  exact hperm.nodup_iff.mpr d.store.specs.keys_nodup

theorem mem_references {d : State σ} {id : ContainerId} {name : String} :
    (id, name) ∈ d.references ↔ ∃ spec, d.store.get? id = some spec ∧ spec.name = name := by
  unfold State.references
  rw [List.mem_map]
  constructor
  · rintro ⟨spec, hspec, heq⟩
    cases heq
    exact ⟨spec, (SpecStore.mem_values d.store).mp ((List.mem_insertionSort earlier).mp hspec), rfl⟩
  · rintro ⟨spec, hget, rfl⟩
    have hid := d.store.keyed id spec hget
    subst hid
    exact ⟨spec, (List.mem_insertionSort earlier).mpr ((SpecStore.mem_values d.store).mpr hget), rfl⟩

/-- `resolve` looks the reference up among the containers that are stored. -/
theorem resolve_ok {w : World σ} {d d' : State σ} {target : String} {id : ContainerId}
    (h : resolve w target d = (.ok id, d')) : resolveRef target d.references = .ok id := by
  obtain ⟨all, d₁, hload, h⟩ := Eff.bind_ok h
  obtain ⟨u, d₂, hread, hload⟩ := Eff.bind_ok hload
  obtain ⟨hlift, -⟩ := Eff.lift_ok h
  have hstate : (act w .readSpecs d).2 = d₂ := congrArg Prod.snd hread
  have hsame : d₂.references = d.references := by
    rw [← hstate]
    rfl
  have hall : (d₂.store.specs.values.insertionSort earlier) = all := Except.ok.inj (congrArg Prod.fst hload)
  rw [← hsame, State.references, hall]
  exact hlift

/-- A container whose name is the id of `webSpec`. -/
def namesake : Spec := { webSpec with id := 9, name := "000000000007", hostname := "other", net := {} }

/-- The daemon when it has run `webSpec`, and when it has run both. -/
def oneRun : State ℕ := (opRun workingWorld webSpec (boot workingWorld (blank 0 {} .empty .overlay)).2).2

def bothRun : State ℕ := (opRun workingWorld namesake oneRun).2

/-- The daemon that has run both for a client. -/
def bothServed : State (List Act × ℕ) :=
  let d := (boot (traced workingWorld) (blank ([], 0) {} .empty .overlay)).2
  let d := (onEvent (traced workingWorld) .connect d).2
  let d := (onEvent (traced workingWorld) (.request 101 (.run webSpec)) d).2
  (onEvent (traced workingWorld) (.request 101 (.run namesake)) d).2

end Daemon
end Collocate
