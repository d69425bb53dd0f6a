import Mathlib.Logic.Relation
import Collocate.Cluster.Replication

/-! # Secrets that agree

The secret that replication starts from is on the first node that uses it by a mount or one of the texts that are
checked; health checks and configuration templates are not looked at. A name that is its own temporary file's is
a case of its own: such a secret is gone as soon as one with the same stem is written, and cannot be written. -/
namespace Collocate.Cluster
open Compose
set_option autoImplicit false

/-! ## Writes of one name, seen from another -/

section Writes
variable {project name y : String} {s s' : Node}

/-- The secret's temporary file is another file. -/
def Lasting (name : String) : Prop := Secrets.withExtension name "tmp" ≠ name

theorem tmp_not_lasting (h : Secrets.valid y = true) : ¬Lasting (Secrets.withExtension y "tmp") := by
  unfold Lasting
  rw [not_not]
  have hstem : Secrets.fileStem (Secrets.withExtension y "tmp") = Secrets.fileStem y :=
    Secrets.fileStem_withExtension h (by decide) (by decide)
  unfold Secrets.withExtension at hstem ⊢
  rw [hstem]

/-- The node has been left alone, or the secret `y` has been written there. -/
def Touched (project y : String) (s s' : Node) : Prop := s' = s ∨ ∃ v, s.Wrote project y v s'

/-- The node has the same of the secret. -/
def Same (project name : String) (s s' : Node) : Prop := s'.get? project name = s.get? project name ∧
    s'.random name = s.random name

/-- The node has the same of the secret, or has lost it. -/
def Fades (project name : String) (s s' : Node) : Prop := s'.get? project name = none ∨
    s'.get? project name = s.get? project name

theorem Same.trans {s₁ : Node} (h : Same project name s s₁) (h' : Same project name s₁ s') : Same project name s s' :=
  ⟨h'.1.trans h.1, h'.2.trans h.2⟩

theorem Fades.trans {s₁ : Node} (h : Fades project name s s₁) (h' : Fades project name s₁ s') :
    Fades project name s s' := by
  obtain hnone | hsame := h'
  · exact Or.inl hnone
  · exact h.imp (fun hnone => hsame.trans hnone) fun heq => hsame.trans heq

theorem Fades.of_some {v : String} (h : Fades project name s s') (hv : s'.get? project name = some v) :
    s.get? project name = some v := by
  obtain hnone | hsame := h
  · rw [hnone] at hv
    cases hv
  · rw [← hsame, hv]

/-- Other writes leave a lasting secret alone. -/
theorem Touched.same (h : Touched project y s s') (hn : Secrets.valid name = true) (hlasting : Lasting name)
    (hne : name ≠ y) :
    Same project name s s' := by
  obtain rfl | ⟨v, hwrote⟩ := h
  · exact ⟨rfl, rfl⟩
  · refine ⟨?_, hwrote.random name hne⟩
    have hnot : name ≠ Secrets.withExtension y "tmp" := fun heq => tmp_not_lasting hwrote.valid (heq ▸ hlasting)
    rw [hwrote.get? name hn, if_neg hnot, if_neg hne]

/-- Any write leaves a secret that does not last alone, or takes it away. -/
theorem Touched.fades (h : Touched project y s s') (hn : Secrets.valid name = true) (hgone : ¬Lasting name) :
    Fades project name s s' := by
  obtain rfl | ⟨v, hwrote⟩ := h
  · exact Or.inr rfl
  · have hget := hwrote.get? name hn
    by_cases htmp : name = Secrets.withExtension y "tmp"
    · rw [if_pos htmp] at hget
      exact Or.inl hget
    · have hne : name ≠ y := fun heq => hgone fun hself => htmp (heq ▸ hself.symm)
      rw [if_neg htmp, if_neg hne] at hget
      exact Or.inr hget

/-- A secret that does not last is not there once it has been written. -/
theorem Node.Wrote.gone {v : String} (h : s.Wrote project name v s') (hn : Secrets.valid name = true)
    (hgone : ¬Lasting name) :
    s'.get? project name = none := by
  rw [h.get? name hn, if_pos (not_not.mp hgone).symm]

theorem Node.Wrote.lasts {v : String} (h : s.Wrote project name v s') (hn : Secrets.valid name = true)
    (hlasting : Lasting name) :
    s'.get? project name = some v := by
  rw [h.get? name hn, if_neg hlasting.symm, if_pos rfl]

/-- A secret whose write takes `name` away is still the same where `name` is there. -/
def Paired (project name y : String) (s s' : Node) : Prop :=
  ∀ v, s'.get? project name = some v → s.get? project name = some v ∧ s'.get? project y = s.get? project y

theorem Touched.paired {z : String} (h : Touched project z s s') (hn : Secrets.valid name = true)
    (hy : Secrets.valid y = true)
    (htmp : Secrets.withExtension y "tmp" = name) (hne : name ≠ y) : Paired project name y s s' := by
  intro v hv
  have hgone : ¬Lasting name := htmp ▸ tmp_not_lasting hy
  refine ⟨(h.fades hn hgone).of_some hv, ?_⟩
  by_cases hz : y = z
  · subst hz
    obtain rfl | ⟨w, hwrote⟩ := h
    · rfl
    · rw [hwrote.get? name hn, if_pos htmp.symm] at hv
      cases hv
  · have hlasting : Lasting y := fun heq => hne (htmp.symm.trans heq)
    exact (h.same hy hlasting hz).1

theorem Paired.trans {s₁ : Node} (h : Paired project name y s s₁) (h' : Paired project name y s₁ s') :
    Paired project name y s s' := by
  intro v hv
  obtain ⟨hmiddle, hsame⟩ := h' v hv
  obtain ⟨hfirst, hsame'⟩ := h v hmiddle
  exact ⟨hfirst, hsame.trans hsame'⟩

end Writes

/-! ## Series of writes -/

section Series
variable {files : String → Result String} {baseDir project name y : String} {s s' : Node} {c c' : Nodes}
  {f : ComposeFile}

/-- A series of writes on a node, of any secrets. -/
abbrev Series (project : String) : Node → Node → Prop := Relation.ReflTransGen fun s s' => ∃ y, Touched project y s s'

theorem Series.fades (h : Series project s s') (hn : Secrets.valid name = true) (hgone : ¬Lasting name) :
    Fades project name s s' := by
  induction h with
  | refl => exact Or.inr rfl
  | tail _ hstep ih =>
    obtain ⟨y, hstep⟩ := hstep
    exact ih.trans (hstep.fades hn hgone)

theorem Series.paired (h : Series project s s') (hn : Secrets.valid name = true) (hy : Secrets.valid y = true)
    (htmp : Secrets.withExtension y "tmp" = name) (hne : name ≠ y) : Paired project name y s s' := by
  induction h with
  | refl => exact fun v hv => ⟨hv, rfl⟩
  | tail _ hstep ih =>
    obtain ⟨z, hstep⟩ := hstep
    exact ih.trans (hstep.paired hn hy htmp hne)

theorem Ensured.touched {sec : SecretDef} (h : Ensured files baseDir project name sec s s') :
    Touched project name s s' := by
  obtain ⟨heq, -⟩ | ⟨-, v, -, hwrote⟩ := h.change
  · exact Or.inl heq
  · exact Or.inr ⟨v, hwrote⟩

theorem Ups.series {l : List (String × SecretDef)} (h : Ups files baseDir project l s s') : Series project s s' := by
  induction h with
  | nil => exact .refl
  | cons first _ ih => exact .head ⟨_, first.touched⟩ ih

theorem Copied.touched {value : String} (h : Copied project name value s s') : Touched project name s s' :=
  h.imp And.left fun hwrote => ⟨value, hwrote⟩

theorem Made.touched {generates : Bool} {value : String} (h : Made project name generates value s s') :
    Touched project name s s' :=
  h.2.imp id fun hwrote => ⟨_, hwrote.2.2⟩

theorem Replicated.touched {generates : Bool} {owner value : String} {others : List String}
    (h : Replicated project name generates owner others value c c') (n : String) :
    Touched project name (c n) (c' n) := by
  by_cases hn : n ∈ owner :: others
  · by_cases heq : n = owner
    · rw [heq]
      exact h.source.touched
    · exact (h.copies n hn heq).touched
  · exact Or.inl (h.outside n hn)

theorem Replicates.series {l : List (String × List String)} (h : Replicates f l c c') (n : String) :
    Series f.project (c n) (c' n) := by
  induction h with
  | nil => exact .refl
  | skip _ _ ih => exact ih
  | cons _ first _ ih => exact .head ⟨_, first.touched n⟩ ih

/-! ## Lasting secrets -/

/-- What a node has of a secret, or is going to generate. -/
def Node.first (s : Node) (project name : String) : String := (s.get? project name).getD (s.random name 0)

theorem Same.first (h : Same project name s s') : s'.first project name = s.first project name := by
  unfold Node.first
  rw [h.1, h.2]

theorem Made.first {value : String} (h : Made project name true value s s') (hn : Secrets.valid name = true)
    (hlasting : Lasting name) : value = s.first project name := by
  obtain ⟨hvalue, hchange⟩ := h
  unfold Node.first
  obtain rfl | ⟨-, hnone, hwrote⟩ := hchange
  · rw [hvalue]
    rfl
  · have hlasts := hwrote.lasts hn hlasting
    rw [hnone]
    exact Option.some.inj (hvalue.symm.trans hlasts)

theorem Replicates.same {l : List (String × List String)} (h : Replicates f l c c') (hn : Secrets.valid name = true)
    (hlasting : Lasting name) (hnot : name ∉ l.map Prod.fst) (n : String) : Same f.project name (c n) (c' n) := by
  induction h with
  | nil => exact ⟨rfl, rfl⟩
  | skip _ _ ih => exact ih fun hin => hnot (List.mem_cons_of_mem _ hin)
  | cons _ first _ ih =>
    rw [List.map_cons, List.mem_cons, not_or] at hnot
    exact ((first.touched n).same hn hlasting hnot.1).trans (ih hnot.2)

/-- Replication gives every node of a secret what the first of them has, or is going to generate. -/
theorem Replicates.shares {l : List (String × List String)} (h : Replicates f l c c') (hnodup : (l.map Prod.fst).Nodup)
    (hn : Secrets.valid name = true) (hlasting : Lasting name) {sec : SecretDef} (hsec : f.secrets.get? name = some sec)
    (hgenerate : sec.generate.isSome = true) {owner : String} {others : List String}
    (hmem : (name, owner :: others) ∈ l) :
    (∀ n ∈ owner :: others, (c' n).get? f.project name = some ((c owner).first f.project name)) ∧
      ∀ n, n ∉ owner :: others → Same f.project name (c n) (c' n) := by
  induction h with
  | nil => cases hmem
  | skip hnone _ ih =>
    rw [List.map_cons, List.nodup_cons] at hnodup
    cases hmem with
    | head =>
      obtain hnone | hnone := hnone
      · rw [hsec] at hnone
        cases hnone
      · cases hnone
    | tail _ hin => exact ih hnodup.2 hin
  | @cons name' owner' value others' sec' l c c₁ c' declared first rest ih =>
    rw [List.map_cons, List.nodup_cons] at hnodup
    cases hmem with
    | head =>
      obtain rfl := Option.some.inj (declared.symm.trans hsec)
      have hafter := fun n => rest.same hn hlasting hnodup.1 n
      have hsource := first.source
      rw [hgenerate] at hsource
      obtain rfl := hsource.first hn hlasting
      constructor
      · intro n hin
        rw [(hafter n).1]
        by_cases heq : n = owner
        · rw [heq]
          exact hsource.1
        · obtain ⟨hkept, hheld⟩ | hwrote := first.copies n hin heq
          · rw [hkept, hheld]
          · exact hwrote.lasts hn hlasting
      · intro n hout
        have hsame := hafter n
        rw [first.outside n hout] at hsame
        exact hsame
    | tail _ hin =>
      have hkey : name ∈ l.map Prod.fst := List.mem_map.mpr ⟨_, hin, rfl⟩
      have hne : name ≠ name' := fun heq => hnodup.1 (heq ▸ hkey)
      have hbefore := fun n => (first.touched n).same hn hlasting hne
      obtain ⟨hinside, houtside⟩ := ih hnodup.2 hin
      constructor
      · intro n hmem
        rw [hinside n hmem, (hbefore owner).first]
      · exact fun n hout => (hbefore n).trans (houtside n hout)

theorem Ups.same {l : List (String × SecretDef)} (h : Ups files baseDir project l s s') (hn : Secrets.valid name = true)
    (hlasting : Lasting name) (hnot : name ∉ l.map Prod.fst) : Same project name s s' := by
  induction h with
  | nil => exact ⟨rfl, rfl⟩
  | cons first _ ih =>
    rw [List.map_cons, List.mem_cons, not_or] at hnot
    exact (first.touched.same hn hlasting hnot.1).trans (ih hnot.2)

/-- The value of a secret after `up`: what the node had or generates, or the content of the file. -/
def Settles (files : String → Result String) (baseDir project name : String) (sec : SecretDef) (s : Node)
    (value : String) : Prop :=
  if sec.generate.isSome = true then value = s.first project name else fileValue files baseDir name sec = .ok value

theorem Ensured.settles {sec : SecretDef} (h : Ensured files baseDir project name sec s s') (hlasting : Lasting name) :
    ∃ v, s'.get? project name = some v ∧ Settles files baseDir project name sec s v := by
  have hn := h.references.2
  unfold Settles
  obtain ⟨v, hv⟩ := h.there
  refine ⟨v, hv, ?_⟩
  obtain ⟨rfl, hprovided⟩ | ⟨hlacks, w, hwants, hwrote⟩ := h.change
  · unfold Provided at hprovided
    cases hgenerate : sec.generate with
    | some gen =>
      rw [Option.isSome_some, if_pos rfl, Node.first, hv]
      rfl
    | none =>
      rw [hgenerate] at hprovided
      obtain ⟨w, hw, hheld⟩ := hprovided
      obtain rfl := Option.some.inj (hv.symm.trans hheld)
      rw [Option.isSome_none, if_neg Bool.false_ne_true]
      exact hw
  · obtain rfl := Option.some.inj (hv.symm.trans (hwrote.lasts hn hlasting))
    unfold Wants at hwants
    unfold Provided at hlacks
    cases hgenerate : sec.generate with
    | some gen =>
      rw [hgenerate] at hwants hlacks
      rw [Option.isSome_some, if_pos rfl, Node.first, Option.not_isSome_iff_eq_none.mp hlacks]
      exact hwants
    | none =>
      rw [hgenerate] at hwants
      rw [Option.isSome_none, if_neg Bool.false_ne_true]
      exact hwants

theorem Ups.references {l : List (String × SecretDef)} (h : Ups files baseDir project l s s') {sec : SecretDef}
    (hmem : (name, sec) ∈ l) : Secrets.valid project = true ∧ Secrets.valid name = true := by
  induction h with
  | nil => cases hmem
  | cons first _ ih =>
    cases hmem with
    | head => exact first.references
    | tail _ hin => exact ih hin

theorem Ups.settles {l : List (String × SecretDef)} (h : Ups files baseDir project l s s')
    (hnodup : (l.map Prod.fst).Nodup) (hlasting : Lasting name) {sec : SecretDef} (hmem : (name, sec) ∈ l) :
    ∃ v, s'.get? project name = some v ∧ Settles files baseDir project name sec s v := by
  induction h with
  | nil => cases hmem
  | @cons e l s s₁ s' first rest ih =>
    rw [List.map_cons, List.nodup_cons] at hnodup
    cases hmem with
    | head =>
      obtain ⟨v, hv, hsettles⟩ := first.settles hlasting
      exact ⟨v, (rest.same first.references.2 hlasting hnodup.1).1.trans hv, hsettles⟩
    | tail _ hin =>
      obtain ⟨v, hv, hsettles⟩ := ih hnodup.2 hin
      have hkey : name ∈ l.map Prod.fst := List.mem_map.mpr ⟨_, hin, rfl⟩
      have hne : name ≠ e.1 := fun heq => hnodup.1 (heq ▸ hkey)
      have hsame := first.touched.same (rest.references hin).2 hlasting hne
      unfold Settles at hsettles ⊢
      rw [hsame.first] at hsettles
      exact ⟨v, hv, hsettles⟩

/-! ## Secrets that do not last -/

theorem Ensured.kept {sec : SecretDef} (h : Ensured files baseDir project name sec s s') (hgone : ¬Lasting name) :
    s' = s ∧ Provided files baseDir project name sec s := by
  obtain hkept | ⟨-, v, -, hwrote⟩ := h.change
  · exact hkept
  · obtain ⟨w, hw⟩ := h.there
    rw [hwrote.gone h.references.2 hgone] at hw
    cases hw

/-- Once it is there, a secret that does not last stays until `up` writes one with its stem. -/
theorem Ups.stays {l : List (String × SecretDef)} (h : Ups files baseDir project l s s')
    (hnodup : (l.map Prod.fst).Nodup)
    (hn : Secrets.valid name = true) (hgone : ¬Lasting name) (hnot : name ∉ l.map Prod.fst) {v : String}
    (hv : s.get? project name = some v) : s'.get? project name = some v ↔
      ∀ e ∈ l, Secrets.withExtension e.1 "tmp" = name → Provided files baseDir project e.1 e.2 s := by
  induction h with
  | nil => exact iff_of_true hv fun e he => absurd he List.not_mem_nil
  | @cons e l s s₁ s' first rest ih =>
    rw [List.map_cons, List.nodup_cons] at hnodup
    rw [List.map_cons, List.mem_cons, not_or] at hnot
    rw [List.forall_mem_cons]
    by_cases htmp : Secrets.withExtension e.1 "tmp" = name
    · obtain ⟨rfl, hprovided⟩ | ⟨hlacks, w, -, hwrote⟩ := first.change
      · rw [ih hnodup.2 hnot.2 hv]
        exact ⟨fun hrest => ⟨fun _ => hprovided, hrest⟩, And.right⟩
      · refine iff_of_false ?_ fun hall => hlacks (hall.1 htmp)
        have hlost : s₁.get? project name = none := by rw [hwrote.get? name hn, if_pos htmp.symm]
        intro hstill
        rw [rest.series.fades hn hgone |>.of_some hstill] at hlost
        cases hlost
    · have hkept : s₁.get? project name = s.get? project name := by
        obtain rfl | ⟨w, hwrote⟩ := first.touched
        · rfl
        · rw [hwrote.get? name hn, if_neg (Ne.symm htmp), if_neg hnot.1]
      rw [ih hnodup.2 hnot.2 (hkept.trans hv)]
      have hrest : (∀ e ∈ l, Secrets.withExtension e.1 "tmp" = name → Provided files baseDir project e.1 e.2 s₁) ↔
          ∀ e ∈ l, Secrets.withExtension e.1 "tmp" = name → Provided files baseDir project e.1 e.2 s := by
        refine forall₂_congr fun e' he' => forall_congr' fun htmp' => ?_
        have hkey : e'.1 ∈ l.map Prod.fst := List.mem_map_of_mem he'
        have hne : e'.1 ≠ e.1 := fun heq => hnodup.1 (heq ▸ hkey)
        have hlasting : Lasting e'.1 := fun heq => hnot.2 (htmp' ▸ heq.symm ▸ hkey)
        have hsame := first.touched.same (rest.references he').2 hlasting hne
        unfold Provided
        rw [hsame.1]
      rw [hrest]
      exact ⟨fun hall => ⟨fun heq => absurd heq htmp, hall⟩, And.right⟩

/-- What becomes of a secret that does not last, when all of them are seen to in order. -/
theorem Ups.fading {l : List (String × SecretDef)} (h : Ups files baseDir project l s s')
    (hsorted : l.Pairwise fun a b => a.1 < b.1) (hgone : ¬Lasting name) {sec : SecretDef} (hmem : (name, sec) ∈ l) :
    ∃ v, s.get? project name = some v ∧ Provided files baseDir project name sec s ∧
      (s'.get? project name = some v ↔ ∀ e ∈ l, Secrets.withExtension e.1 "tmp" = name → name < e.1 →
        Provided files baseDir project e.1 e.2 s) := by
  induction h with
  | nil => cases hmem
  | @cons e l s s₁ s' first rest ih =>
    obtain ⟨hbelow, hothers⟩ := List.pairwise_cons.mp hsorted
    cases hmem with
    | head =>
      obtain ⟨rfl, hprovided⟩ := first.kept hgone
      obtain ⟨v, hv⟩ := first.there
      have hnodup : (l.map Prod.fst).Nodup := List.pairwise_map.mpr (hothers.imp fun hlt => ne_of_lt hlt)
      have hnot : name ∉ l.map Prod.fst := by
        intro hin
        obtain ⟨e, he, heq⟩ := List.mem_map.mp hin
        exact absurd heq (ne_of_gt (hbelow e he))
      refine ⟨v, hv, hprovided, ?_⟩
      rw [rest.stays hnodup first.references.2 hgone hnot hv, List.forall_mem_cons]
      constructor
      · exact fun hall => ⟨fun _ hlt => absurd hlt (lt_irrefl _), fun e he htmp _ => hall e he htmp⟩
      · exact fun hall e he htmp => hall.2 e he htmp (hbelow e he)
    | tail _ hin =>
      obtain ⟨v, hv, hprovided, hiff⟩ := ih hothers hin
      have hn := (rest.references hin).2
      have hbefore : s.get? project name = some v := (first.touched.fades hn hgone).of_some hv
      refine ⟨v, hbefore, ?_, ?_⟩
      · unfold Provided at hprovided ⊢
        rw [hbefore]
        rw [hv] at hprovided
        exact hprovided
      · rw [hiff, List.forall_mem_cons]
        have hrest : (∀ e ∈ l, Secrets.withExtension e.1 "tmp" = name →
              name < e.1 → Provided files baseDir project e.1 e.2 s₁) ↔
            ∀ e ∈ l, Secrets.withExtension e.1 "tmp" = name →
              name < e.1 → Provided files baseDir project e.1 e.2 s := by
          refine forall₂_congr fun e' he' => forall_congr' fun htmp => forall_congr' fun hlt => ?_
          have hpaired := first.touched.paired hn (rest.references he').2 htmp (ne_of_lt hlt)
          unfold Provided
          rw [(hpaired v hv).2]
        rw [hrest]
        exact ⟨fun hall => ⟨fun _ hlt => absurd hlt (lt_asymm (hbelow _ hin)), hall⟩, And.right⟩

/-- Where a replicated secret that does not last is still there, it is that of the first node. -/
theorem Replicates.copied {l : List (String × List String)} (h : Replicates f l c c') (hn : Secrets.valid name = true)
    (hgone : ¬Lasting name) {owner : String} {others : List String} (hmem : (name, owner :: others) ∈ l)
    (hsec : f.secrets.contains name = true) {n v : String} (hin : n ∈ owner :: others)
    (hv : (c' n).get? f.project name = some v) : (c owner).get? f.project name = some v := by
  induction h with
  | nil => cases hmem
  | skip hnone _ ih =>
    cases hmem with
    | head =>
      obtain hnone | hnone := hnone
      · unfold OrdMap.contains at hsec
        rw [hnone] at hsec
        cases hsec
      · cases hnone
    | tail _ hin => exact ih hin hv
  | @cons name' owner' value others' sec l c c₁ c' declared first rest ih =>
    cases hmem with
    | head =>
      have hthere : (c₁ n).get? f.project name = some v := ((rest.series n).fades hn hgone).of_some hv
      obtain ⟨hvalue, hsame | ⟨-, -, hwrote⟩⟩ := first.source
      · rw [hsame] at hvalue
        rw [hvalue]
        by_cases heq : n = owner
        · rw [heq, hsame] at hthere
          exact hvalue.symm.trans hthere
        · obtain ⟨hkept, hheld⟩ | hwrote := first.copies n hin heq
          · rw [hkept] at hthere
            exact hheld.symm.trans hthere
          · rw [hwrote.gone hn hgone] at hthere
            cases hthere
      · rw [hwrote.gone hn hgone] at hvalue
        cases hvalue
    | tail _ hin => exact ((first.touched owner).fades hn hgone).of_some (ih hin hv)

end Series

/-! ## After the cluster has been brought up -/

/-- The node that a node's value of a secret comes from. -/
def origin (f : ComposeFile) (name node : String) : String :=
  match nodesUsing f name with
  | first :: others => if node ∈ first :: others then first else node
  | [] => node

section Provide
variable {x : Extern} {files : String → Result String} {baseDir name : String} {subnets : String → String}
  {f : ComposeFile} {c c' : Nodes}

theorem sortedSet_nodup (l : List String) : (sortedSet l).Nodup := OrdMap.keys_nodup _

theorem crossNodeSecrets_keys : ((crossNodeSecrets f).map Prod.fst).Nodup := by
  have hkeys : (((sortedSet (f.services.entries.flatMap fun e => secretsUsedBy e.2)).map fun name =>
      (name, nodesUsing f name)).map Prod.fst).Nodup := by
    rw [List.map_map]
    exact (List.map_id (sortedSet _)).symm ▸ sortedSet_nodup _
  exact hkeys.sublist (List.filter_sublist.map _)

theorem mem_crossNodeSecrets {nodes : List String} : (name, nodes) ∈ crossNodeSecrets f ↔
    nodes = nodesUsing f name ∧ 1 < nodes.length ∧ perNode f name = false := by
  unfold crossNodeSecrets
  rw [List.mem_filter, List.mem_map]
  constructor
  · intro h
    obtain ⟨⟨name', -, heq⟩, hkept⟩ := h
    cases heq
    simpa using hkept
  · intro h
    obtain ⟨rfl, hlength, hshared⟩ := h
    refine ⟨⟨name, ?_, rfl⟩, by simp [hlength, hshared]⟩
    obtain ⟨n, hn⟩ := List.exists_mem_of_length_pos (Nat.lt_trans Nat.zero_lt_one hlength)
    unfold nodesUsing at hn
    obtain ⟨e, he, hplaced⟩ := List.mem_filterMap.mp (mem_sortedSet.mp hn)
    rw [mem_sortedSet, List.mem_flatMap]
    refine ⟨e, he, ?_⟩
    by_contra hnot
    rw [if_neg hnot] at hplaced
    cases hplaced

theorem origin_of_few {n : String} (h : ¬1 < (nodesUsing f name).length) : origin f name n = n := by
  unfold origin
  match hnodes : nodesUsing f name with
  | [] => rfl
  | [first] =>
    dsimp only
    split
    · rename_i hin
      exact (List.mem_singleton.mp hin).symm
    · rfl
  | first :: second :: others =>
    rw [hnodes, List.length_cons, List.length_cons] at h
    omega

/-- A secret on several nodes is one that replication starts with. -/
theorem crossing_of_many (hshared : perNode f name = false) (h : 1 < (nodesUsing f name).length) :
    ∃ owner others, nodesUsing f name = owner :: others ∧ (name, owner :: others) ∈ crossNodeSecrets f := by
  match hnodes : nodesUsing f name with
  | [] =>
    rw [hnodes] at h
    cases h
  | owner :: others =>
    refine ⟨owner, others, rfl, mem_crossNodeSecrets.mpr ⟨hnodes.symm, ?_, hshared⟩⟩
    rw [← hnodes]
    exact h

/-- What replication leaves on a node is what its origin has, or is going to generate. -/
theorem Replicates.first (h : Replicates f (crossNodeSecrets f) c c') (hn : Secrets.valid name = true)
    (hlasting : Lasting name)
    {sec : SecretDef} (hsec : f.secrets.get? name = some sec) (hshared : perNode f name = false)
    (hgenerate : sec.generate.isSome = true) (n : String) :
    (c' n).first f.project name = (c (origin f name n)).first f.project name := by
  by_cases hmany : 1 < (nodesUsing f name).length
  · obtain ⟨owner, others, hnodes, hmem⟩ := crossing_of_many hshared hmany
    obtain ⟨hinside, houtside⟩ := h.shares crossNodeSecrets_keys hn hlasting hsec hgenerate hmem
    unfold origin
    rw [hnodes]
    dsimp only
    split
    · rename_i hin
      rw [Node.first, hinside n hin]
      rfl
    · rename_i hout
      exact (houtside n hout).first
  · have hnot : name ∉ (crossNodeSecrets f).map Prod.fst := by
      intro hin
      obtain ⟨⟨name', nodes⟩, hmem, rfl⟩ := List.mem_map.mp hin
      obtain ⟨rfl, hlength, -⟩ := mem_crossNodeSecrets.mp hmem
      exact hmany hlength
    rw [origin_of_few hmany]
    exact (h.same hn hlasting hnot n).first

/-- What is there after replication of a secret that does not last has been there before, and at its origin. -/
theorem Replicates.there (h : Replicates f (crossNodeSecrets f) c c') (hn : Secrets.valid name = true)
    (hgone : ¬Lasting name) (hsec : f.secrets.contains name = true) (hshared : perNode f name = false) {n v : String}
    (hv : (c' n).get? f.project name = some v) : (c (origin f name n)).get? f.project name = some v := by
  have hself : (c n).get? f.project name = some v := ((h.series n).fades hn hgone).of_some hv
  by_cases hmany : 1 < (nodesUsing f name).length
  · obtain ⟨owner, others, hnodes, hmem⟩ := crossing_of_many hshared hmany
    unfold origin
    rw [hnodes]
    dsimp only
    split
    · rename_i hin
      exact h.copied hn hgone hmem hsec hin hv
    · exact hself
  · rw [origin_of_few hmany]
    exact hself

/-- What a node has of a secret that is not one of each node, in the end. -/
theorem value_after (h : provideSecrets x files baseDir subnets f c = (.ok (), c')) {sec : SecretDef}
    (hsec : f.secrets.get? name = some sec) (hshared : sec.perNode = false) {n : String}
    (hn : n ∈ (split f).map Prod.fst) :
    Secrets.valid f.project = true ∧ Secrets.valid name = true ∧
      ∃ v, Settles files baseDir f.project name sec (c (origin f name n)) v ∧
        ((c' n).get? f.project name = none ∨ (c' n).get? f.project name = some v) ∧
        ((c' n).get? f.project name = some v ↔ ∀ other osec, f.secrets.get? other = some osec →
          Secrets.withExtension other "tmp" = name → name < other →
            Provided files baseDir f.project other osec (c n)) := by
  obtain ⟨u, c₁, hreplicate, hup⟩ := Eff.bind_ok h
  have hreplicates : Replicates f (crossNodeSecrets f) c c₁ := by
    refine replicates_of_ok (fun e he => ?_) hreplicate
    obtain ⟨name', nodes⟩ := e
    obtain ⟨rfl, -, -⟩ := mem_crossNodeSecrets.mp he
    exact sortedSet_nodup _
  have hparts : ∀ part ∈ split f, part.2.project = f.project ∧ part.2.secrets = f.secrets := by
    intro part hpart
    obtain ⟨-, hsub, -⟩ := mem_split.mp hpart
    rw [hsub]
    exact ⟨rfl, rfl⟩
  have hups := ups_of_ok hparts split_nodup hup n hn
  have hmem : (name, sec) ∈ f.secrets.entries := OrdMap.get?_eq_some.mp hsec
  obtain ⟨hproject, hname⟩ := hups.references hmem
  have hnone : perNode f name = false := by
    unfold perNode
    rw [hsec]
    exact hshared
  refine ⟨hproject, hname, ?_⟩
  by_cases hlasting : Lasting name
  · obtain ⟨v, hv, hsettles⟩ := hups.settles f.secrets.keys_nodup hlasting hmem
    refine ⟨v, ?_, Or.inr hv, iff_of_true hv ?_⟩
    · unfold Settles at hsettles ⊢
      split at hsettles
      · rename_i hgenerate
        rw [if_pos hgenerate, hsettles]
        exact hreplicates.first hname hlasting hsec hnone hgenerate n
      · rename_i hgenerate
        rw [if_neg hgenerate]
        exact hsettles
    · intro other osec hother htmp _
      have hvalid := (hups.references (OrdMap.get?_eq_some.mp hother)).2
      exact absurd (htmp ▸ hlasting) (tmp_not_lasting hvalid)
  · obtain ⟨v, hv, hprovided, hiff⟩ := hups.fading f.secrets.sorted hlasting hmem
    have hcontains : f.secrets.contains name = true := Option.isSome_iff_exists.mpr ⟨sec, hsec⟩
    refine ⟨v, ?_, (hups.series.fades hname hlasting).imp_right fun heq => heq.trans hv, ?_⟩
    · unfold Settles
      unfold Provided at hprovided
      cases hgenerate : sec.generate with
      | some gen =>
        rw [Option.isSome_some, if_pos rfl, Node.first, hreplicates.there hname hlasting hcontains hnone hv]
        rfl
      | none =>
        rw [hgenerate] at hprovided
        obtain ⟨w, hw, hheld⟩ := hprovided
        obtain rfl := Option.some.inj (hv.symm.trans hheld)
        rw [Option.isSome_none, if_neg Bool.false_ne_true]
        exact hw
    · rw [hiff]
      have hsame : ∀ other osec, f.secrets.get? other = some osec → Secrets.withExtension other "tmp" = name →
        name < other →
          (Provided files baseDir f.project other osec (c₁ n) ↔ Provided files baseDir f.project other osec (c n)) := by
        intro other osec hother htmp hlt
        have hvalid := (hups.references (OrdMap.get?_eq_some.mp hother)).2
        have hpaired := (hreplicates.series n).paired hname hvalid htmp (ne_of_lt hlt)
        unfold Provided
        rw [(hpaired v hv).2]
      constructor
      · intro hall other osec hother htmp hlt
        exact (hsame other osec hother htmp hlt).mp (hall (other, osec) (OrdMap.get?_eq_some.mp hother) htmp hlt)
      · intro hall e he htmp hlt
        have hother : f.secrets.get? e.1 = some e.2 := OrdMap.get?_eq_some.mpr he
        exact (hsame e.1 e.2 hother htmp hlt).mpr (hall e.1 e.2 hother htmp hlt)

/-! ## When secrets agree -/

/-- Where a secret is generated, the nodes that consume it get it from origins that have the same, or are going to
generate the same; and no secret is lost to one with its stem that `up` writes after it. -/
structure Agreeable (files : String → Result String) (baseDir : String) (f : ComposeFile) (c : Nodes) : Prop where
  origins : ∀ name sec, f.secrets.get? name = some sec → sec.perNode = false → sec.generate.isSome = true →
    ∀ n n', ConsumedOn f name n → ConsumedOn f name n' →
      (c (origin f name n)).first f.project name = (c (origin f name n')).first f.project name
  kept : ∀ name sec, f.secrets.get? name = some sec → sec.perNode = false → ∀ n, ConsumedOn f name n →
    ∀ other osec, f.secrets.get? other = some osec → Secrets.withExtension other "tmp" = name → name < other →
      Provided files baseDir f.project other osec (c n)

end Provide

def apiService : Service where
  image := some "api:1"
  node := some "a"
  env := .ofList [("PASSWORD", quoteRef "secrets.db")]

def dbService (command : List String) : Service where
  image := some "db:1"
  node := some "b"
  command
  healthcheck := some { exec := some ["ping", quoteRef "secrets.db"] }

/-- `api` on one node and `db` on another need one password: `api` in its environment, and `db` in the given command and
in the command of its health check. -/
def passwordFile (command : List String) : ComposeFile where
  project := "shop"
  nodes := .ofList [("a", {}), ("b", {})]
  services := .ofList [("api", apiService), ("db", dbService command)]
  secrets := .ofList [("db", { generate := some "password" })]

/-- Two nodes without secrets. -/
def newNodes : Nodes
  | "a" => { random := fun _ _ => "alpha" }
  | _ => { random := fun _ _ => "beta" }

def noFile (path : String) : Result String := .error (.io path)

def passwordsUp (command : List String) : Result Unit × Nodes :=
  provideSecrets argvExtern noFile "." (fun _ => "10.77.0.0/16") (passwordFile command) newNodes

theorem passwordsUp_ok {command : List String} (h : (passwordsUp command).1 = .ok ()) :
    provideSecrets argvExtern noFile "." (fun _ => "10.77.0.0/16") (passwordFile command) newNodes =
      (.ok (), (passwordsUp command).2) := by
  show passwordsUp command = (.ok (), (passwordsUp command).2)
  generalize passwordsUp command = outcome at h ⊢
  exact Prod.ext h rfl

end Collocate.Cluster
