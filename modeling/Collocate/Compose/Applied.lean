import Mathlib.Data.List.Sort
import Collocate.Compose.Deploy

/-! # A plan carried out (`collocate-compose/src/plan.rs`)

Every desired name goes to the one list that says how it is held, and what the plan leaves is what is desired: there
the next plan keeps everything. -/
namespace Collocate.Compose
set_option autoImplicit false

/-! ## What is held under a name -/

section Verdicts
variable {desired : List Item} {actual : List Actual}

/-- Where no name is held twice, the one that counts is the one there is. -/
theorem actualOf_eq_some (hnodup : (actual.map Actual.name).Nodup) {name : String} {a : Actual} :
    actualOf actual name = some a ↔ a ∈ actual ∧ a.name = name := by
  constructor
  · intro hsome
    have hname := List.find?_some hsome
    exact ⟨List.mem_reverse.mp (List.mem_of_find?_eq_some hsome), of_decide_eq_true hname⟩
  · intro h
    obtain ⟨hmem, hname⟩ := h
    have hfound : (actualOf actual name).isSome :=
      List.find?_isSome.mpr ⟨a, List.mem_reverse.mpr hmem, decide_eq_true hname⟩
    obtain ⟨b, hb⟩ := Option.isSome_iff_exists.mp hfound
    have hbname := List.find?_some hb
    have hsame : b = a := List.inj_on_of_nodup_map hnodup (List.mem_reverse.mp (List.mem_of_find?_eq_some hb)) hmem
      ((of_decide_eq_true hbname).trans hname.symm)
    rw [hb, hsame]

theorem actualOf_eq_none {name : String} : actualOf actual name = none ↔ name ∉ actual.map Actual.name := by
  unfold actualOf
  rw [List.find?_eq_none, List.mem_map]
  constructor
  · intro hall hmem
    obtain ⟨a, ha, hname⟩ := hmem
    exact hall a (List.mem_reverse.mpr ha) (decide_eq_true hname)
  · intro hno a ha hname
    exact hno ⟨a, List.mem_reverse.mp ha, of_decide_eq_true hname⟩

/-- How an item is held: what its verdict says. -/
def Holds (actual : List Actual) (item : Item) : Verdict → Prop
  | .create => item.name ∉ actual.map Actual.name
  | .recreate => ∃ a ∈ actual, a.name = item.name ∧ a.hash ≠ item.hash
  | .start => ∃ a ∈ actual, a.name = item.name ∧ a.hash = item.hash ∧ a.running = false
  | .keep => ∃ a ∈ actual, a.name = item.name ∧ a.hash = item.hash ∧ a.running = true

theorem verdict_holds (hnodup : (actual.map Actual.name).Nodup) (item : Item) :
    Holds actual item (verdict actual item) := by
  unfold verdict
  cases hactual : actualOf actual item.name with
  | none => exact actualOf_eq_none.mp hactual
  | some a =>
    obtain ⟨hmem, hname⟩ := (actualOf_eq_some hnodup).mp hactual
    dsimp only
    by_cases hhash : a.hash = item.hash
    · rw [if_neg (not_not.mpr hhash)]
      cases hruns : a.running with
      | false => exact ⟨a, hmem, hname, hhash, hruns⟩
      | true => exact ⟨a, hmem, hname, hhash, hruns⟩
    · rw [if_pos hhash]
      exact ⟨a, hmem, hname, hhash⟩

theorem verdict_of_holds (hnodup : (actual.map Actual.name).Nodup) {item : Item} {v : Verdict}
    (h : Holds actual item v) : verdict actual item = v := by
  unfold verdict
  cases v with
  | create => rw [actualOf_eq_none.mpr h]
  | recreate =>
    obtain ⟨a, ha, hname, hhash⟩ := h
    rw [(actualOf_eq_some hnodup).mpr ⟨ha, hname⟩]
    exact if_pos hhash
  | start =>
    obtain ⟨a, ha, hname, hhash, hruns⟩ := h
    rw [(actualOf_eq_some hnodup).mpr ⟨ha, hname⟩]
    simp [hhash, hruns]
  | keep =>
    obtain ⟨a, ha, hname, hhash, hruns⟩ := h
    rw [(actualOf_eq_some hnodup).mpr ⟨ha, hname⟩]
    simp [hhash, hruns]

theorem verdict_eq_iff_holds (hnodup : (actual.map Actual.name).Nodup) {item : Item} {v : Verdict} :
    verdict actual item = v ↔ Holds actual item v := by
  constructor
  · intro hv
    rw [← hv]
    exact verdict_holds hnodup item
  · exact verdict_of_holds hnodup

end Verdicts

/-! ## Carrying out -/

/-- The list of a plan for a verdict. -/
def Plan.listOf (p : Plan) : Verdict → List String
  | .create => p.create
  | .recreate => p.recreate
  | .start => p.start
  | .keep => p.keep

/-- What is there when a plan is carried out: what is removed or recreated is gone, what is started runs, and what is
created or recreated runs as it is desired. -/
def Plan.apply (p : Plan) (desired : List Item) (actual : List Actual) : List Actual :=
  ((actual.filter fun a => a.name ∉ p.remove ∧ a.name ∉ p.recreate).map fun a =>
    if a.name ∈ p.start then { a with running := true } else a) ++
  (desired.filter fun i => i.name ∈ p.create ∨ i.name ∈ p.recreate).map fun i =>
    { name := i.name, hash := i.hash, running := true }

section Applied
variable {desired : List Item} {actual : List Actual}

theorem diff_listOf (desired : List Item) (actual : List Actual) (v : Verdict) :
    (diff desired actual).listOf v = judged desired actual v := by
  cases v <;> rfl

/-- Where names are not desired twice, a name is in the list of its item's verdict. -/
theorem mem_judged {v : Verdict} (hnodup : (desired.map Item.name).Nodup) {item : Item} (hitem : item ∈ desired) :
    item.name ∈ judged desired actual v ↔ verdict actual item = v := by
  unfold judged
  constructor
  · intro hmem
    obtain ⟨other, hother, hname⟩ := List.mem_map.mp hmem
    obtain ⟨hin, hv⟩ := List.mem_filter.mp hother
    have hsame : other = item := List.inj_on_of_nodup_map hnodup hin hitem hname
    rw [hsame] at hv
    exact of_decide_eq_true hv
  · intro hv
    exact List.mem_map_of_mem (List.mem_filter.mpr ⟨hitem, decide_eq_true hv⟩)

theorem mem_listOf (hdesired : (desired.map Item.name).Nodup) (hactual : (actual.map Actual.name).Nodup) {item : Item}
    (hitem : item ∈ desired) (v : Verdict) : item.name ∈ (diff desired actual).listOf v ↔ Holds actual item v := by
  rw [diff_listOf, mem_judged hdesired hitem, verdict_eq_iff_holds hactual]

theorem listOf_subset {v : Verdict} {name : String} (h : name ∈ (diff desired actual).listOf v) :
    name ∈ desired.map Item.name := by
  rw [diff_listOf] at h
  exact (List.filter_sublist.map Item.name).subset h

theorem mem_diff_remove {name : String} :
    name ∈ (diff desired actual).remove ↔ name ∈ actual.map Actual.name ∧ name ∉ desired.map Item.name := by
  show name ∈ List.insertionSort (· ≤ ·) _ ↔ _
  rw [List.mem_insertionSort, List.mem_map]
  constructor
  · intro h
    obtain ⟨a, ha, rfl⟩ := h
    obtain ⟨hin, hno⟩ := List.mem_filter.mp ha
    exact ⟨List.mem_map_of_mem hin, of_decide_eq_true hno⟩
  · intro h
    obtain ⟨hin, hno⟩ := h
    obtain ⟨a, ha, rfl⟩ := List.mem_map.mp hin
    exact ⟨a, List.mem_filter.mpr ⟨ha, decide_eq_true hno⟩, rfl⟩

theorem remove_sorted (hactual : (actual.map Actual.name).Nodup) :
    (diff desired actual).remove.Pairwise (· < ·) := by
  have hsorted : (diff desired actual).remove.Pairwise (· ≤ ·) := List.pairwise_insertionSort (· ≤ ·) _
  have hsub : ((actual.filter fun a => a.name ∉ desired.map Item.name).map Actual.name).Nodup :=
    hactual.sublist (List.filter_sublist.map _)
  have hdistinct : (diff desired actual).remove.Nodup := (List.perm_insertionSort (· ≤ ·) _).nodup_iff.mpr hsub
  exact (hsorted.and hdistinct).imp fun hpair => lt_of_le_of_ne hpair.1 hpair.2

/-- What is there behind the plan. -/
theorem mem_apply (hdesired : (desired.map Item.name).Nodup) (hactual : (actual.map Actual.name).Nodup) {a : Actual} :
    a ∈ (diff desired actual).apply desired actual ↔
      ∃ item ∈ desired, a = { name := item.name, hash := item.hash, running := true } := by
  unfold Plan.apply
  rw [List.mem_append, List.mem_map, List.mem_map]
  constructor
  · intro h
    cases h with
    | inl hold =>
      obtain ⟨b, hb, rfl⟩ := hold
      obtain ⟨hin, hkept⟩ := List.mem_filter.mp hb
      obtain ⟨hstays, hsame⟩ := of_decide_eq_true hkept
      have hwanted : b.name ∈ desired.map Item.name := by
        by_contra hno
        exact hstays (mem_diff_remove.mpr ⟨List.mem_map_of_mem hin, hno⟩)
      obtain ⟨item, hitem, hname⟩ := List.mem_map.mp hwanted
      have hstart : item.name ∈ (diff desired actual).start ↔ _ := mem_listOf hdesired hactual hitem .start
      have hrecreate : item.name ∈ (diff desired actual).recreate ↔ _ := mem_listOf hdesired hactual hitem .recreate
      rw [hname] at hstart hrecreate
      have hhash : b.hash = item.hash := by
        by_contra hne
        exact hsame (hrecreate.mpr ⟨b, hin, hname.symm, hne⟩)
      refine ⟨item, hitem, ?_⟩
      rw [hname, ← hhash]
      cases hruns : b.running with
      | false => rw [if_pos (hstart.mpr ⟨b, hin, hname.symm, hhash, hruns⟩)]
      | true => split <;> rw [← hruns]
    | inr hnew =>
      obtain ⟨item, hitem, rfl⟩ := hnew
      exact ⟨item, List.mem_of_mem_filter hitem, rfl⟩
  · intro h
    obtain ⟨item, hitem, rfl⟩ := h
    have hlist := mem_listOf hdesired hactual hitem
    -- Only one of a name is held, so the verdict says which of the two parts it is in.
    have hold : ∀ b ∈ actual, b.name = item.name → b.hash = item.hash →
        (if b.name ∈ (diff desired actual).start then { b with running := true } else b) =
          { name := item.name, hash := item.hash, running := true } →
        ∃ c ∈ actual.filter fun a => a.name ∉ (diff desired actual).remove ∧ a.name ∉ (diff desired actual).recreate,
          (if c.name ∈ (diff desired actual).start then { c with running := true } else c) =
            { name := item.name, hash := item.hash, running := true } := by
      intro b hb hname hhash heq
      refine ⟨b, List.mem_filter.mpr ⟨hb, decide_eq_true ⟨?_, ?_⟩⟩, heq⟩
      · intro hgone
        exact (mem_diff_remove.mp hgone).2 (hname ▸ List.mem_map_of_mem hitem)
      · intro hagain
        rw [hname] at hagain
        obtain ⟨c, hc, hcname, hne⟩ := (hlist .recreate).mp hagain
        rw [List.inj_on_of_nodup_map hactual hc hb (hcname.trans hname.symm)] at hne
        exact hne hhash
    have hheld := verdict_holds hactual item
    cases hv : verdict actual item with
    | create =>
      rw [hv] at hheld
      exact Or.inr ⟨item, List.mem_filter.mpr ⟨hitem, decide_eq_true (Or.inl ((hlist .create).mpr hheld))⟩, rfl⟩
    | recreate =>
      rw [hv] at hheld
      exact Or.inr ⟨item, List.mem_filter.mpr ⟨hitem, decide_eq_true (Or.inr ((hlist .recreate).mpr hheld))⟩, rfl⟩
    | start =>
      rw [hv] at hheld
      have hmem : item.name ∈ (diff desired actual).start := (hlist .start).mpr hheld
      obtain ⟨b, hb, hname, hhash, -⟩ := hheld
      refine Or.inl (hold b hb hname hhash ?_)
      rw [hname, hhash, if_pos hmem]
    | keep =>
      rw [hv] at hheld
      obtain ⟨b, hb, hname, hhash, hruns⟩ := hheld
      refine Or.inl (hold b hb hname hhash ?_)
      split <;> rw [← hname, ← hhash, ← hruns]

theorem apply_names (hdesired : (desired.map Item.name).Nodup) (hactual : (actual.map Actual.name).Nodup) :
    (((diff desired actual).apply desired actual).map Actual.name).Nodup := by
  unfold Plan.apply
  rw [List.map_append, List.map_map, List.map_map]
  have hfront : ((actual.filter fun a => a.name ∉ (diff desired actual).remove ∧
      a.name ∉ (diff desired actual).recreate).map (Actual.name ∘ fun a =>
        if a.name ∈ (diff desired actual).start then { a with running := true } else a)) =
      (actual.filter fun a => a.name ∉ (diff desired actual).remove ∧
        a.name ∉ (diff desired actual).recreate).map Actual.name := by
    refine List.map_congr_left fun a _ => ?_
    rw [Function.comp_apply]
    split <;> rfl
  rw [hfront]
  refine List.nodup_append.mpr ⟨hactual.sublist (List.filter_sublist.map _),
    hdesired.sublist (List.filter_sublist.map _), ?_⟩
  intro name hname other hother heq
  rw [← heq] at hother
  obtain ⟨a, ha, rfl⟩ := List.mem_map.mp hname
  obtain ⟨item, hitem, hsame⟩ := List.mem_map.mp hother
  obtain ⟨hin, hkept⟩ := List.mem_filter.mp ha
  obtain ⟨hwant, hmade⟩ := List.mem_filter.mp hitem
  have hsame' : item.name = a.name := hsame
  cases of_decide_eq_true hmade with
  | inl hcreate =>
    have hno : item.name ∉ actual.map Actual.name := (mem_listOf hdesired hactual hwant .create).mp hcreate
    rw [hsame'] at hno
    exact hno (List.mem_map_of_mem hin)
  | inr hrecreate =>
    rw [hsame'] at hrecreate
    exact (of_decide_eq_true hkept).2 hrecreate

/-- Where everything desired runs as it is desired and nothing else is there, everything is kept. -/
theorem diff_settled {after : List Actual} (hafter : (after.map Actual.name).Nodup)
    (hmem : ∀ a, a ∈ after ↔ ∃ item ∈ desired, a = { name := item.name, hash := item.hash, running := true }) :
    diff desired after = { keep := desired.map Item.name } := by
  have hverdict : ∀ item ∈ desired, verdict after item = .keep := by
    intro item hitem
    exact (verdict_eq_iff_holds hafter).mpr ⟨_, (hmem _).mpr ⟨item, hitem, rfl⟩, rfl, rfl, rfl⟩
  have hkeep : judged desired after .keep = desired.map Item.name := by
    unfold judged
    rw [List.filter_eq_self.mpr fun item hitem => decide_eq_true (hverdict item hitem)]
  have hnone : ∀ v, v ≠ .keep → judged desired after v = [] := by
    intro v hv
    unfold judged
    rw [List.map_eq_nil_iff, List.filter_eq_nil_iff]
    intro item hitem
    rw [hverdict item hitem, decide_eq_true_eq]
    exact fun h => hv h.symm
  have hremove : (diff desired after).remove = [] := by
    rw [List.eq_nil_iff_forall_not_mem]
    intro name hname
    obtain ⟨hin, hno⟩ := mem_diff_remove.mp hname
    obtain ⟨a, ha, rfl⟩ := List.mem_map.mp hin
    obtain ⟨item, hitem, rfl⟩ := (hmem a).mp ha
    exact hno (List.mem_map_of_mem hitem)
  have hparts : diff desired after = ⟨judged desired after .create, judged desired after .recreate,
      judged desired after .start, judged desired after .keep, (diff desired after).remove⟩ := rfl
  rw [hparts, hremove, hkeep, hnone .create (by decide), hnone .recreate (by decide), hnone .start (by decide)]

/-- A plan says of every name how it is held, and in whatever order what it leaves is listed, the next plan keeps
everything. -/
theorem diff_converges (hdesired : (desired.map Item.name).Nodup) (hactual : (actual.map Actual.name).Nodup) :
    (∀ item ∈ desired, ∀ v, item.name ∈ (diff desired actual).listOf v ↔ Holds actual item v) ∧
    (∀ item ∈ desired, ∃! v, item.name ∈ (diff desired actual).listOf v) ∧
    (∀ v, ∀ name ∈ (diff desired actual).listOf v, name ∈ desired.map Item.name) ∧
    (∀ v, ((diff desired actual).listOf v).Nodup) ∧
    (diff desired actual).remove.Pairwise (· < ·) ∧
    (∀ name, name ∈ (diff desired actual).remove ↔
      name ∈ actual.map Actual.name ∧ name ∉ desired.map Item.name) ∧
    ∀ after : List Actual, after.Perm ((diff desired actual).apply desired actual) →
      diff desired after = { keep := desired.map Item.name } ∧ (diff desired after).isNoop = true := by
  have hlist : ∀ item ∈ desired, ∀ v, item.name ∈ (diff desired actual).listOf v ↔ Holds actual item v :=
    fun item hitem v => mem_listOf hdesired hactual hitem v
  refine ⟨hlist, ?_, fun v name hname => listOf_subset hname, ?_, remove_sorted hactual,
    fun name => mem_diff_remove, ?_⟩
  · intro item hitem
    refine ⟨verdict actual item, (hlist item hitem _).mpr (verdict_holds hactual item), ?_⟩
    intro v hv
    exact (verdict_of_holds hactual ((hlist item hitem v).mp hv)).symm
  · intro v
    rw [diff_listOf]
    exact hdesired.sublist (List.filter_sublist.map _)
  · intro after hperm
    have hnames : (after.map Actual.name).Nodup :=
      (hperm.map Actual.name).nodup_iff.mpr (apply_names hdesired hactual)
    have hsettled := diff_settled hnames fun a => hperm.mem_iff.trans (mem_apply hdesired hactual)
    rw [hsettled]
    exact ⟨rfl, rfl⟩

end Applied

/-- One of each: a name to create, one to recreate, one to start, one to keep and one to remove. -/
theorem mixed_converges :
    diff [⟨"a", "1"⟩, ⟨"b", "1"⟩, ⟨"c", "1"⟩, ⟨"d", "1"⟩] [⟨"b", "2", true⟩, ⟨"c", "1", false⟩, ⟨"d", "1", true⟩,
        ⟨"e", "1", true⟩] = ⟨["a"], ["b"], ["c"], ["d"], ["e"]⟩ ∧
      diff [⟨"a", "1"⟩, ⟨"b", "1"⟩, ⟨"c", "1"⟩, ⟨"d", "1"⟩] ((⟨["a"], ["b"], ["c"], ["d"], ["e"]⟩ : Plan).apply
        [⟨"a", "1"⟩, ⟨"b", "1"⟩, ⟨"c", "1"⟩, ⟨"d", "1"⟩] [⟨"b", "2", true⟩, ⟨"c", "1", false⟩, ⟨"d", "1", true⟩,
          ⟨"e", "1", true⟩]) = { keep := ["a", "b", "c", "d"] } := by
  have hplan : diff [⟨"a", "1"⟩, ⟨"b", "1"⟩, ⟨"c", "1"⟩, ⟨"d", "1"⟩] [⟨"b", "2", true⟩, ⟨"c", "1", false⟩,
      ⟨"d", "1", true⟩, ⟨"e", "1", true⟩] = ⟨["a"], ["b"], ["c"], ["d"], ["e"]⟩ := by decide
  have hall := @diff_converges [⟨"a", "1"⟩, ⟨"b", "1"⟩, ⟨"c", "1"⟩, ⟨"d", "1"⟩]
    [⟨"b", "2", true⟩, ⟨"c", "1", false⟩, ⟨"d", "1", true⟩, ⟨"e", "1", true⟩] (by decide) (by decide)
  rw [hplan] at hall
  exact ⟨hplan, (hall.2.2.2.2.2.2 _ (.refl _)).1⟩

end Collocate.Compose
