import Collocate.Store.Sifting

/-! # A change that stops

`create`, `update` and `remove` cut off anywhere, on whatever the two bases hold, and then `recover`: the listing is
the one before the change or the one after it. What `load_all` puts aside on the way is of neither. -/
namespace Collocate.Store
set_option autoImplicit false

/-! ## Listings -/

/-- `load_all` may return this, the directories listed in any order and the trees `apart` or not. -/
def Lists (apart : Bool) (d : Files) (r : Result (List Spec)) : Prop :=
  ∃ d', Job.Goes exec (settled apart) loadAll d (.done r) d'

/-- What it returns when the directories are listed in the order of their names. -/
def listing (apart : Bool) (d : Files) : Result (List Spec) := (Job.settle exec (fateOf apart) loadAll d).1

/-- The same list up to order, or both refused. -/
def Same : Result (List Spec) → Result (List Spec) → Prop
  | .ok l, .ok l' => l.Perm l'
  | .error _, .error _ => True
  | _, _ => False

section Listings
variable {apart : Bool} {d d' d'' : Files}

theorem lists_listing (apart : Bool) (d : Files) : Lists apart d (listing apart d) :=
  ⟨_, Job.goes_settle (settled_fateOf apart) loadAll d⟩

theorem Lists.full {l : List Spec} (h : Lists apart d (.ok l)) : Loadable apart d ∧ l.Perm (decodable d) := by
  obtain ⟨d', hgo⟩ := h
  exact ((loadAll_sifts (b := false)).ok rfl hgo).2

theorem Lists.refused {e : Error} (h : Lists apart d (.error e)) : ¬ Loadable apart d := by
  obtain ⟨d', hgo⟩ := h
  exact ((loadAll_sifts (b := false)).failed rfl hgo).2.resolve_left Bool.false_ne_true

/-- `load_all` makes the same of the directory. -/
def AlikeAt (apart : Bool) (d d' : Files) (a : Area) (name : String) : Prop :=
  listedAt d' a name = listedAt d a name ∧ (Readable apart d' a name ↔ Readable apart d a name)

def Alike (apart : Bool) (d d' : Files) : Prop := ∀ a ∈ bases, ∀ name, AlikeAt apart d d' a name

theorem AlikeAt.trans {a : Area} {name : String} (h : AlikeAt apart d d' a name) (h' : AlikeAt apart d' d'' a name) :
    AlikeAt apart d d'' a name :=
  ⟨h'.1.trans h.1, h'.2.trans h.2⟩

theorem AlikeAt.symm {a : Area} {name : String} (h : AlikeAt apart d d' a name) : AlikeAt apart d' d a name :=
  ⟨h.1.symm, h.2.symm⟩

theorem Alike.refl (apart : Bool) (d : Files) : Alike apart d d := fun _ _ _ => ⟨rfl, .rfl⟩

theorem Alike.trans (h : Alike apart d d') (h' : Alike apart d' d'') : Alike apart d d'' :=
  fun a ha name => (h a ha name).trans (h' a ha name)

theorem alikeAt_of_spec {a : Area} {name : String} (h : Visible name → specAt d' a name = specAt d a name) :
    AlikeAt apart d d' a name := by
  by_cases hv : Visible name
  · have hlisted : listedAt d' a name = listedAt d a name := by rw [listedAt, listedAt, h hv]
    have hcorrupt : Corrupt d' a name ↔ Corrupt d a name := by rw [Corrupt, Corrupt, h hv]
    refine ⟨hlisted, fun hr => ⟨fun s hs => ?_, fun hapart hrun hbad => ?_⟩, fun hr => ⟨fun s hs => ?_,
      fun hapart hrun hbad => ?_⟩⟩
    · exact hr.supported s (hlisted.trans hs)
    · exact hr.near hapart hrun (hcorrupt.mpr hbad)
    · exact hr.supported s (hlisted.symm.trans hs)
    · exact hr.near hapart hrun (hcorrupt.mp hbad)
  · have hdot : Text.startsWith name "." = true := Bool.not_eq_false _ ▸ hv
    have hnone : ∀ d : Files, listedAt d a name = none := fun d => by rw [listedAt, if_pos hdot]
    have hreadable : ∀ d : Files, Readable apart d a name := by
      refine fun d => ⟨fun s hs => ?_, fun _ _ hbad => hv hbad.1⟩
      rw [hnone] at hs
      cases hs
    exact ⟨by rw [hnone, hnone], iff_of_true (hreadable d') (hreadable d)⟩

theorem SameSpecs.alike (h : SameSpecs d d') : Alike apart d d' := fun a ha name => alikeAt_of_spec (h a ha name)

theorem Sifted.alike {a : Area} (h : Sifted apart a d d') : Alike apart d d' := by
  intro a' ha' name
  have hcor : a' ≠ .corrupt := by
    rintro rfl
    exact absurd ha' (by decide)
  by_cases haa : a' = a
  · subst haa
    refine ⟨h.listedAt name, ?_⟩
    by_cases hfar : apart = true ∧ a' = .run
    · refine readable_congr ?_
      by_cases hbad : Corrupt d a' name
      · exact (h.sifted name hbad).resolve_right fun hgone => hgone.1 hfar.1 hfar.2
      · exact (h.stays name hbad).1
    · refine ⟨fun hr => ⟨fun s hs => hr.supported s ((h.listedAt name).trans hs), fun hapart hrun => ?_⟩,
        fun hr => ⟨fun s hs => hr.supported s ((h.listedAt name).symm.trans hs), fun hapart hrun => ?_⟩⟩
      · exact absurd ⟨hapart, hrun⟩ hfar
      · exact absurd ⟨hapart, hrun⟩ hfar
  · have hsame := h.other a' name haa hcor
    exact ⟨listedAt_congr hsame, readable_congr hsame⟩

theorem Aside.alike (h : Aside apart d d') : Alike apart d d' := by
  obtain ⟨d₁, hstate, hrun⟩ := h
  exact hstate.alike.trans hrun.alike

/-- What is picked from two lists that have the same of it. -/
theorem filterMap_perm {α β : Type} [DecidableEq α] {l l' : List α} (f : α → Option β) (hl : l.Nodup) (hl' : l'.Nodup)
    (h : ∀ x, (f x).isSome = true → (x ∈ l ↔ x ∈ l')) : (l.filterMap f).Perm (l'.filterMap f) := by
  have hpicked : ∀ m : List α, (m.filter fun x => (f x).isSome).filterMap f = m.filterMap f := by
    intro m
    rw [List.filterMap_filter]
    refine List.filterMap_congr fun x _ => ?_
    cases hx : f x <;> simp
  rw [← hpicked l, ← hpicked l']
  refine List.Perm.filterMap f ((List.perm_ext_iff_of_nodup (hl.filter _) (hl'.filter _)).mpr fun x => ?_)
  rw [List.mem_filter, List.mem_filter]
  exact and_congr_left fun hx => h x hx

theorem Alike.decodable (h : Alike apart d d') : (decodable d').Perm (decodable d) := by
  have harea : ∀ a ∈ bases, ((d' a).keys.filterMap (listedAt d' a)).Perm ((d a).keys.filterMap (listedAt d a)) := by
    intro a ha
    have hlisted : listedAt d' a = listedAt d a := funext fun name => (h a ha name).1
    rw [hlisted]
    refine filterMap_perm _ (d' a).keys_nodup (d a).keys_nodup fun name hname => ?_
    have hthere : ∀ e : Files, (listedAt e a name).isSome = true → name ∈ (e a).keys := by
      intro e he
      obtain ⟨s, hs⟩ := Option.isSome_iff_exists.mp he
      obtain ⟨dir, hdir, -⟩ := Option.bind_eq_some_iff.mp (listedAt_iff.mp hs).2
      exact OrdMap.mem_keys.mpr ⟨dir, hdir⟩
    exact iff_of_true (hthere d' (hlisted ▸ hname)) (hthere d hname)
  have hsplit : ∀ e : Files, Store.decodable e =
      (e .state).keys.filterMap (listedAt e .state) ++ (e .run).keys.filterMap (listedAt e .run) := by
    intro e
    simp [Store.decodable, bases]
  rw [hsplit, hsplit]
  exact (harea .state (by decide)).append (harea .run (by decide))

theorem Alike.loadable (h : Alike apart d d') : Loadable apart d' ↔ Loadable apart d :=
  ⟨fun hl a ha name => (h a ha name).2.mp (hl a ha name), fun hl a ha name => (h a ha name).2.mpr (hl a ha name)⟩

/-- Stores that are alike are listed the same. -/
theorem Alike.same (h : Alike apart d d') {r r' : Result (List Spec)} (hr : Lists apart d r)
    (hr' : Lists apart d' r') : Same r' r := by
  cases r with
  | ok l =>
    cases r' with
    | ok l' => exact hr'.full.2.trans (h.decodable.trans hr.full.2.symm)
    | error e => exact absurd (h.loadable.mpr hr.full.1) hr'.refused
  | error e =>
    cases r' with
    | ok l' => exact absurd (h.loadable.mp hr'.full.1) hr.refused
    | error e' => trivial

end Listings

/-! ## What is put aside -/

section Aside
variable {apart : Bool} {a : Area} {name : String} {d d' : Files}

theorem Aside.stays (h : Aside apart d d') (ha : a ∈ bases) (hwhole : ¬ Corrupt d a name) :
    (d' a).get? name = (d a).get? name := by
  obtain ⟨d₁, hstate, hrun⟩ := h
  rcases List.mem_cons.mp ha with rfl | ha
  · rw [hrun.other .state name (by decide) (by decide)]
    exact (hstate.stays name hwhole).1
  · obtain rfl := List.mem_singleton.mp ha
    have hsame := hstate.other .run name (by decide) (by decide)
    exact (hrun.stays name fun hbad => hwhole ((corrupt_congr hsame).mp hbad)).1.trans hsame

/-- A directory that stands under `.corrupt`, unless one of its name in the other base was put there after it. -/
structure PutAside (d d' : Files) (a : Area) (name : String) : Prop where
  corrupt : Corrupt d a name
  gone : (d' a).get? name = none
  kept : (∀ a' ∈ bases, a' ≠ a → ¬ Corrupt d a' name) → (d' .corrupt).get? name = (d a).get? name

theorem Aside.put (h : Aside apart d d') (ha : a ∈ bases) (hbad : Corrupt d a name) :
    (d' a).get? name = (d a).get? name ∨ PutAside d d' a name := by
  obtain ⟨d₁, hstate, hrun⟩ := h
  have hother := hstate.other .run name (by decide) (by decide)
  rcases List.mem_cons.mp ha with rfl | ha
  · have hout := hrun.other .state name (by decide) (by decide)
    rcases hstate.sifted name hbad with hsame | ⟨-, hgone, hkept⟩
    · exact .inl (hout.trans hsame)
    · refine .inr ⟨hbad, hout.trans hgone, fun halone => ?_⟩
      have hwhole : ¬ Corrupt d₁ .run name := fun hbad' =>
        halone .run (by decide) (by decide) ((corrupt_congr hother).mp hbad')
      exact (hrun.stays name hwhole).2.trans hkept
  · obtain rfl := List.mem_singleton.mp ha
    rcases hrun.sifted name ((corrupt_congr hother).mpr hbad) with hsame | ⟨-, hgone, hkept⟩
    · exact .inl (hsame.trans hother)
    · exact .inr ⟨hbad, hgone, fun _ => hkept.trans hother⟩

end Aside

/-! ## A change on any store -/

section Halted
variable {apart b : Bool} {d d' d₁ : Files}

/-- Before the change proper, a `create` with a name goes through the containers. -/
def Checked (apart : Bool) (c : Change) (d d' : Files) : Prop :=
  d' = d ∨ ∃ spec, c = .create spec ∧ spec.name ≠ "" ∧ Aside apart d d'

/-- The checks of `create` let the spec pass. -/
structure Vacant (apart : Bool) (spec : Spec) (d : Files) : Prop where
  path : pathOf d spec.id = none
  name : spec.name = "" ∨ Loadable apart d ∧ ∀ s, Listed d s → s.name ≠ spec.name

def Admitted (apart : Bool) (c : Change) (d : Files) : Prop := ∀ spec, c = .create spec → Vacant apart spec d

/-- Wherever the change is cut off: in the checks, or in the midst of the change proper. -/
def Halted (apart : Bool) (c : Change) (d d₁ : Files) : Prop :=
  ∃ d', Checked apart c d d' ∧ d₁ .corrupt = d' .corrupt ∧ (d₁ = d' ∨ Admitted apart c d ∧ Midway c d' d₁)

theorem Checked.alike {c : Change} (h : Checked apart c d d') : Alike apart d d' := by
  rcases h with rfl | ⟨_, -, -, haside⟩
  · exact .refl _ _
  · exact haside.alike

theorem mem_decodable {s : Spec} : s ∈ decodable d ↔ Listed d s := by
  unfold decodable Listed
  rw [List.mem_flatMap]
  refine exists_congr fun a => and_congr_right fun _ => ?_
  rw [List.mem_filterMap]
  refine exists_congr fun name => and_iff_right_of_imp fun hlisted => ?_
  obtain ⟨dir, hdir, -⟩ := Option.bind_eq_some_iff.mp (listedAt_iff.mp hlisted).2
  exact OrdMap.mem_keys.mpr ⟨dir, hdir⟩

theorem checkFree_sifts {spec : Spec} {d₀ : Files} :
    Job.Keeps exec (hazard b apart) (Checked apart (.create spec) d₀) (· = d₀) (checkFree spec)
      (fun _ d => Checked apart (.create spec) d₀ d ∧ Vacant apart spec d₀)
      (fun _ d => Checked apart (.create spec) d₀ d ∧ (b = true ∨ ¬ Vacant apart spec d₀)) := by
  have hstart : Checked apart (.create spec) d₀ d₀ := .inl rfl
  have hpath : Job.Asks (Passable apart) (specPath spec.id) :=
    (plain_specPath spec.id).imp fun call hcall => passable_of_plain hcall
  refine Job.Keeps.bind (keeps_hazard (specPath_keeps hstart) hpath) fun path => Job.Keeps.each fun d hd => ?_
  obtain ⟨rfl, hpath⟩ := hd
  cases path with
  | some a =>
    refine Job.Keeps.throw fun d' hd' => ⟨.inl hd', .inr fun hvacant => ?_⟩
    rw [hvacant.path] at hpath
    cases hpath
  | none =>
    show Job.Keeps _ _ _ _ (if spec.name = "" then _ else _) _ _
    by_cases hname : spec.name = ""
    · rw [if_pos hname]
      exact Job.Keeps.pure fun d' hd' => ⟨.inl hd', hpath.symm, .inl hname⟩
    · rw [if_neg hname]
      have hchecked : ∀ d', Aside apart d d' → Checked apart (.create spec) d d' := fun d' h =>
        .inr ⟨spec, rfl, hname, h⟩
      refine Job.Keeps.bind ((loadAll_sifts.widen hchecked).conseq (fun _ h => h) (fun _ _ h => h) fun _ d' h =>
        ⟨hchecked d' h.1, h.2.imp_right fun hnot hvacant => hnot (hvacant.name.resolve_left hname).1⟩) fun all => ?_
      show Job.Keeps _ _ _ _ (if all.any (·.name = spec.name) then _ else _) _ _
      refine Job.Keeps.each fun d' h => ?_
      obtain ⟨haside, hloadable, hperm⟩ := h
      have hmem : ∀ s, s ∈ all ↔ Listed d s := fun s => hperm.mem_iff.trans mem_decodable
      by_cases hany : (all.any fun s => decide (s.name = spec.name)) = true
      · rw [if_pos hany]
        obtain ⟨s, hs, heq⟩ := List.any_eq_true.mp hany
        refine Job.Keeps.throw fun d'' hd'' => ⟨hd'' ▸ hchecked d' haside, .inr fun hvacant => ?_⟩
        exact (hvacant.name.resolve_left hname).2 s ((hmem s).mp hs) (of_decide_eq_true heq)
      · rw [if_neg hany]
        refine Job.Keeps.pure fun d'' hd'' =>
          ⟨hd'' ▸ hchecked d' haside, hpath.symm, .inr ⟨hloadable, fun s hs heq => ?_⟩⟩
        exact hany (List.any_eq_true.mpr ⟨s, (hmem s).mpr hs, decide_eq_true heq⟩)

/-- Where no spec is, nothing is put aside. -/
theorem Checked.stays {c : Change} (h : Checked apart c d d') {id : ContainerId} (hpath : pathOf d id = none) {a : Area}
    (ha : a ∈ bases) : (d' a).get? id.display = (d a).get? id.display := by
  rcases h with rfl | ⟨_, -, -, haside⟩
  · rfl
  · refine haside.stays ha fun hbad => ?_
    obtain ⟨-, t, ht⟩ := hbad
    rw [specAt_of_slot (pathOf_eq_none.mp hpath) ha] at ht
    cases ht

theorem Checked.path {c : Change} (h : Checked apart c d d') {id : ContainerId} (hpath : pathOf d id = none) :
    pathOf d' id = none := by
  refine pathOf_eq_none.mpr ?_
  rw [← pathOf_eq_none.mp hpath]
  unfold slot specAt
  rw [h.stays hpath (by decide), h.stays hpath (by decide)]

theorem Checked.free {spec : Spec} (h : Checked apart (.create spec) d d') (hvacant : Vacant apart spec d) :
    Free spec d' := by
  refine ⟨h.path hvacant.path, hvacant.name.imp_right fun hname => ?_⟩
  have hlisted : ∀ s, Listed d' s ↔ Listed d s := by
    intro s
    rw [← mem_decodable, ← mem_decodable]
    exact h.alike.decodable.mem_iff
  refine ⟨?_, fun s hs => hname.2 s ((hlisted s).mp hs)⟩
  rintro ⟨s, hs, hnewer⟩
  obtain ⟨a, ha, n, hn⟩ := (hlisted s).mp hs
  exact (hname.1 a ha n).supported s hn hnewer

theorem Checked.room {spec : Spec} (h : Checked apart (.create spec) d d') (hvacant : Vacant apart spec d) :
    Room spec d' ↔ Room spec d := by
  unfold Room
  rw [h.stays hvacant.path (baseOf_mem spec)]

/-- A change that can be carried out before its checks can be after them, and the other way round. -/
theorem Checked.ready {c : Change} (h : Checked apart c d d') (hadmitted : Admitted apart c d) :
    c.Ready d' ↔ c.Ready d := by
  rcases h with rfl | ⟨spec, rfl, hname, haside⟩
  · exact .rfl
  · have hchecked : Checked apart (.create spec) d d' := .inr ⟨spec, rfl, hname, haside⟩
    have hvacant := hadmitted spec rfl
    have hstart : Checked apart (.create spec) d d := .inl rfl
    exact ⟨fun hr => ⟨hstart.free hvacant, (hchecked.room hvacant).mp hr.2⟩,
      fun hr => ⟨hchecked.free hvacant, (hchecked.room hvacant).mpr hr.2⟩⟩

theorem Checked.slot {c : Change} (h : Checked apart c d d') (hadmitted : Admitted apart c d) :
    c.slot d' = c.slot d := by
  rcases h with rfl | ⟨spec, rfl, hname, haside⟩
  · rfl
  · have hchecked : Checked apart (.create spec) d d' := .inr ⟨spec, rfl, hname, haside⟩
    have hpath := (hadmitted spec rfl).path
    unfold Change.slot
    dsimp only
    rw [pathOf_eq_none.mp hpath, pathOf_eq_none.mp (hchecked.path hpath)]

/-- What is true of a change that leaves `.corrupt` alone. -/
theorem halts_of_keeps {c : Change} {d₀ : Files} {Q : Unit → Files → Prop} {E : Error → Files → Prop} {job : Work Unit}
    (h : Job.Keeps exec (may b) (Midway c d') (· = d') job Q E) (hjob : Plain job) (hchecked : Checked apart c d₀ d')
    (hadmitted : Admitted apart c d₀) :
    Job.Keeps exec (hazard b apart) (Halted apart c d₀) (· = d') job Q E := by
  have hframe := h.frame (I := fun d => d .corrupt = d' .corrupt) hjob fun call w d hcall _ hd =>
    (exec_corrupt (off_of_plain hcall) w d).trans hd
  refine ((keeps_hazard hframe (hjob.imp fun call hcall => passable_of_plain hcall)).widen fun d hd => ?_).conseq
    (fun d hd => ⟨hd, hd ▸ rfl⟩) (fun _ _ hd => hd.1) fun _ _ hd => hd.1
  exact ⟨d', hchecked, hd.2, .inr ⟨hadmitted, hd.1⟩⟩

/-- A change, cut off or not: when it ends it has been carried out, and without a call that fails it ends if it can be
carried out. -/
theorem change_halts {c : Change} {d₀ : Files} (honce : ∀ id, c = .remove id → Once id d₀) :
    Job.Keeps exec (hazard b apart) (Halted apart c d₀) (· = d₀) c.work
      (fun _ d => ∃ d', Checked apart c d₀ d' ∧ Through c d' d)
      (fun _ _ => b = true ∨ ¬ (Admitted apart c d₀ ∧ c.Ready d₀)) := by
  have hstart : Checked apart c d₀ d₀ := .inl rfl
  cases c with
  | create spec =>
    have hhalted : ∀ d, Checked apart (.create spec) d₀ d → Halted apart (.create spec) d₀ d := fun d h =>
      ⟨d, h, rfl, .inl rfl⟩
    show Job.Keeps _ _ _ _ (create spec) _ _
    rw [create_eq]
    refine Job.Keeps.bind ((checkFree_sifts.widen hhalted).conseq (fun _ h => h) (fun _ _ h => h) fun _ _ h =>
      h.2.imp_right fun hnot hand => hnot (hand.1 spec rfl)) fun _ => Job.Keeps.each fun d' h => ?_
    obtain ⟨hchecked, hvacant⟩ := h
    have hadmitted : Admitted apart (.create spec) d₀ := fun spec' heq => by
      cases heq
      exact hvacant
    refine (halts_of_keeps (install_keeps spec (hchecked.free hvacant)) (plain_install spec) hchecked
      hadmitted).conseq (fun _ h => h) (fun _ _ h => ⟨d', hchecked, h⟩) fun _ _ h => ?_
    exact h.2.imp_right fun hrefused hand => hrefused.not_ready ((hchecked.ready hadmitted).mpr hand.2)
  | update spec =>
    have hadmitted : Admitted apart (.update spec) d₀ := fun spec' heq => by cases heq
    show Job.Keeps _ _ _ _ (update spec) _ _
    refine (halts_of_keeps update_keeps (plain_update spec) hstart hadmitted).conseq (fun _ h => h)
      (fun _ _ h => ⟨d₀, hstart, h⟩) fun _ _ h => ?_
    exact h.2.imp_right fun hnot hand => hnot hand.2
  | remove id =>
    have hadmitted : Admitted apart (.remove id) d₀ := fun spec' heq => by cases heq
    show Job.Keeps _ _ _ _ (remove id) _ _
    refine (halts_of_keeps (remove_keeps (honce id rfl)) (plain_remove id) hstart hadmitted).conseq (fun _ h => h)
      (fun _ _ h => ⟨d₀, hstart, h⟩) fun _ _ h => ?_
    exact h.2.imp_right fun hnot hand => hnot hand.2

/-- A change that can be carried out is, when nothing fails. -/
theorem settle_through {c : Change} (honce : ∀ id, c = .remove id → Once id d) (hadmitted : Admitted apart c d)
    (hready : c.Ready d) :
    ∃ d', Checked apart c d d' ∧ Through c d' (Job.settle exec (fateOf apart) c.work d).2 := by
  have hgo : Job.Goes exec (hazard false apart) c.work d _ _ := Job.goes_settle (settled_fateOf apart) c.work d
  cases hend : (Job.settle exec (fateOf apart) c.work d).1 with
  | ok u =>
    rw [hend] at hgo
    exact (change_halts honce).ok rfl hgo
  | error e =>
    rw [hend] at hgo
    exact absurd ⟨hadmitted, hready⟩ (((change_halts honce).failed rfl hgo).resolve_left Bool.false_ne_true)

theorem Others.alikeAt {c : Change} (h : Others c.id.display d d') {a : Area} (ha : a ∈ bases) {name : String}
    (hne : name ≠ c.id.display) : AlikeAt apart d d' a name :=
  alikeAt_of_spec fun hv => specAt_congr (h a ha name hv hne)

theorem specAt_eq_of_slot {name : String} (h : slot d' name = slot d name) {a : Area} (ha : a ∈ bases) :
    specAt d' a name = specAt d a name := by
  obtain ⟨hstate, hrun⟩ := Prod.mk.inj h
  rcases List.mem_cons.mp ha with rfl | ha
  · exact hstate
  · rw [List.mem_singleton.mp ha]
    exact hrun

/-- A change cut off leaves the listing before it, or the one it would have left. -/
theorem Halted.alike {c : Change} (honce : ∀ id, c = .remove id → Once id d) (h : Halted apart c d d₁) :
    Alike apart d d₁ ∨ Alike apart (Job.settle exec (fateOf apart) c.work d).2 d₁ := by
  obtain ⟨d', hchecked, -, rfl | ⟨hadmitted, hothers, hown⟩⟩ := h
  · exact .inl hchecked.alike
  rcases hown with hsame | ⟨hready, hslot⟩
  · refine .inl (hchecked.alike.trans fun a ha name => ?_)
    by_cases hname : name = c.id.display
    · rw [hname]
      exact alikeAt_of_spec fun _ => specAt_eq_of_slot hsame ha
    · exact hothers.alikeAt ha hname
  · obtain ⟨d'', hchecked', hthrough⟩ := settle_through honce hadmitted ((hchecked.ready hadmitted).mp hready)
    refine .inr fun a ha name => ?_
    by_cases hname : name = c.id.display
    · rw [hname]
      refine alikeAt_of_spec fun _ => specAt_eq_of_slot ?_ ha
      rw [hslot, hthrough.2.2, hchecked.slot hadmitted, hchecked'.slot hadmitted]
    · have hbefore := ((hchecked'.alike a ha name).trans (hthrough.1.alikeAt ha hname)).symm
      exact hbefore.trans ((hchecked.alike a ha name).trans (hothers.alikeAt ha hname))

/-- The other directories are where they were, but for those that a `create` with a name puts aside. -/
theorem Halted.others {c : Change} (h : Halted apart c d d₁) {a : Area} (ha : a ∈ bases) {name : String}
    (hv : Visible name) (hne : name ≠ c.id.display) :
    (d₁ a).get? name = (d a).get? name ∨ (∃ spec, c = .create spec ∧ spec.name ≠ "") ∧ PutAside d d₁ a name := by
  obtain ⟨d', hchecked, hcor, hend⟩ := h
  have hlast : (d₁ a).get? name = (d' a).get? name := by
    rcases hend with rfl | ⟨-, hothers, -⟩
    · rfl
    · exact hothers a ha name hv hne
  rw [hlast]
  rcases hchecked with rfl | ⟨spec, rfl, hname, haside⟩
  · exact .inl rfl
  · by_cases hbad : Corrupt d a name
    · refine (haside.put ha hbad).imp_right fun hput => ⟨⟨spec, rfl, hname⟩, hput.corrupt, hlast.trans hput.gone, ?_⟩
      intro halone
      rw [hcor]
      exact hput.kept halone
    · exact .inl (haside.stays ha hbad)

end Halted

/-! ## After the stop -/

theorem recover_succeeds (d : Files) : ∃ d', Job.Goes exec (may true) recover d (.done (.ok ())) d' := by
  have hgo : Job.Goes exec (may false) recover d _ _ := Job.goes_finish (may_fine false) recover d
  have hkeeps := recover_keeps (b := false) (W := fun _ => True) fun d' (_ : Spared d d') => trivial
  cases hend : (Job.finish exec .fine recover d).1 with
  | ok u => exact ⟨_, hend ▸ Job.goes_finish (may_fine true) recover d⟩
  | error e =>
    rw [hend] at hgo
    exact absurd (hkeeps.failed rfl hgo).2 Bool.false_ne_true

theorem off_recover : Job.Asks (fun call => call.off = true) recover := by
  have hloop : ∀ (a : Area) (p : String → Bool) (found : List String), (a != .corrupt) = true →
      Job.Asks (fun call => call.off = true)
        (found.forM fun name => if p name then removeDirAll a name else pure ()) := by
    intro a p found ha
    refine Job.asks_forM found fun name => ?_
    split
    · exact (plain_removeDirAll ha name).imp fun _ => off_of_plain
    · trivial
  have hsweep : ∀ a, (a != Area.corrupt) = true → Job.Asks (fun call => call.off = true) (sweep a) := fun a ha =>
    Job.Asks.bind (Job.asks_ask rfl) fun found => hloop a isTmp found ha
  refine Job.Asks.bind (hsweep .state rfl) fun _ => Job.Asks.bind (hsweep .run rfl) fun _ => ?_
  exact Job.Asks.bind (Job.asks_ask rfl) fun found => by simpa using hloop .trash (fun _ => true) found rfl

/-- What `recover` leaves alone, `.corrupt` with it, and what it clears away. -/
theorem recovered {d₁ d₂ : Files} (h : Job.Goes exec (may true) recover d₁ (.done (.ok ())) d₂) :
    Spared d₁ d₂ ∧ Clean d₂ ∧ d₂ .corrupt = d₁ .corrupt := by
  have hkeeps := recover_keeps (b := true) (W := fun _ => True) fun d (_ : Spared d₁ d) => trivial
  have hframe := hkeeps.frame (I := fun d => d .corrupt = d₁ .corrupt) off_recover fun call w d hcall _ hd =>
    (exec_corrupt hcall w d).trans hd
  obtain ⟨⟨hspared, hclean⟩, hcor⟩ := hframe.ok ⟨rfl, rfl⟩ h
  exact ⟨hspared, hclean, hcor⟩

/-- On any store, a change that is cut off anywhere, and then `recover`: `load_all` lists what it did before or what it
would have after the whole change; the other directories are untouched, but for corrupt ones that a `create` with a name
puts aside; and nothing is left over. A `remove` is of a container that has a spec in one place only. -/
theorem store_crash_atomic (apart : Bool) {d d₁ : Files} {c : Change} {rest : Work Unit}
    (honce : ∀ id, c = .remove id → Once id d) (hcut : Job.Goes exec (hazard true apart) c.work d rest d₁) :
    (∃ d₂, Job.Goes exec (may true) recover d₁ (.done (.ok ())) d₂) ∧
    ∀ d₂, Job.Goes exec (may true) recover d₁ (.done (.ok ())) d₂ →
      ((∀ r, Lists apart d₂ r → Same r (listing apart d)) ∨
        ∀ r, Lists apart d₂ r → Same r (listing apart (Job.settle exec (fateOf apart) c.work d).2)) ∧
      (∀ a ∈ bases, ∀ name, Visible name → name ≠ c.id.display → (d₂ a).get? name = (d a).get? name ∨
        (∃ spec, c = .create spec ∧ spec.name ≠ "") ∧ PutAside d d₂ a name) ∧
      Clean d₂ := by
  have hhalted : Halted apart c d d₁ :=
    (change_halts honce).always rfl ⟨d, .inl rfl, rfl, .inl rfl⟩ rest d₁ hcut
  refine ⟨recover_succeeds d₁, fun d₂ hrec => ?_⟩
  obtain ⟨hspared, hclean, hcor⟩ := recovered hrec
  have hafter : Alike apart d₁ d₂ := hspared.sameSpecs.alike
  refine ⟨?_, fun a ha name hv hne => ?_, hclean⟩
  · rcases hhalted.alike honce with halike | halike
    · exact .inl fun r hr => (halike.trans hafter).same (lists_listing apart d) hr
    · exact .inr fun r hr => (halike.trans hafter).same (lists_listing apart _) hr
  · have hkept : (d₂ a).get? name = (d₁ a).get? name := by
      refine hspared a ha name ?_
      cases htmp : isTmp name with
      | false => rfl
      | true => exact absurd hv (not_visible_of_tmp htmp)
    refine (hhalted.others ha hv hne).imp hkept.trans fun hput => ⟨hput.1, hput.2.corrupt, hkept.trans hput.2.gone, ?_⟩
    intro halone
    rw [hcor]
    exact hput.2.kept halone

/-! ## Stops -/

def dbSpec : Spec := { webSpec with id := 44, name := "db" }

/-- A store with a corrupt directory that stopped while the spec of `db` was being written. -/
def stoppedStore : Files :=
  (Job.run exec (List.replicate 18 .fine) (Change.create dbSpec).work (halfStore .state)).2

theorem create_stopped_recovered :
    (stoppedStore .run).contains (tmpDir dbSpec.id) = true ∧ Corrupt (halfStore .state) .state "070707070707" ∧
    ∃ d₂, Job.Goes exec (may true) recover stoppedStore (.done (.ok ())) d₂ ∧ Clean d₂ ∧
      ((∀ r, Lists false d₂ r → Same r (listing false (halfStore .state))) ∨
        ∀ r, Lists false d₂ r →
          Same r (listing false
            (Job.settle exec (fateOf false) (Change.create dbSpec).work (halfStore .state)).2)) := by
  refine ⟨by decide +kernel, ⟨rfl, _, rfl⟩, ?_⟩
  have hcut : Job.Goes exec (hazard true false) (Change.create dbSpec).work (halfStore .state) _ stoppedStore :=
    Job.goes_run _ (fun call d w hw => List.eq_of_mem_replicate hw ▸ may_fine true call d) _ _
  have honce : ∀ id, Change.create dbSpec = .remove id → Once id (halfStore .state) := fun id heq => by cases heq
  obtain ⟨⟨d₂, hgo⟩, hall⟩ := store_crash_atomic false honce hcut
  obtain ⟨hlist, -, hclean⟩ := hall d₂ hgo
  exact ⟨d₂, hgo, hclean, hlist⟩

/-- A container with a spec under both bases. -/
def twiceStore : Files := fun a =>
  if a ∈ bases then .ofList [(webSpec.id.display, .ofList [(specFile, .spec webSpec)])] else .empty

/-- Its `remove`, stopped after the first of the two moves. -/
def halvedStore : Files :=
  (Job.finish exec .fine recover (Job.run exec (List.replicate 4 .fine) (Change.remove webSpec.id).work twiceStore).2).2

/-- A `create` that succeeds moves the files of another container, whose spec does not decode. And where a container has
a spec under both bases, a `remove` that stops leaves one of the two. -/
theorem corrupt_moved_and_twice_halved :
    (let d := halfStore .state
     let done := Job.finish exec .fine (do Change.work (.create dbSpec); recover) d
     done.1 = .ok () ∧ dbSpec.id.display ≠ "070707070707" ∧ (d .state).contains "070707070707" = true ∧
       (done.2 .state).contains "070707070707" = false) ∧
    (∃ l, listing false twiceStore = .ok l ∧ l.Perm [webSpec, webSpec]) ∧
    listing false halvedStore = .ok [webSpec] ∧
    listing false (Job.settle exec (fateOf false) (Change.remove webSpec.id).work twiceStore).2 = .ok [] := by
  refine ⟨by decide +kernel, ?_, by decide +kernel, by decide +kernel⟩
  have hspecs : decodable twiceStore = [webSpec, webSpec] := by decide +kernel
  have hok : (listing false twiceStore).isOk = true := by decide +kernel
  cases hlist : listing false twiceStore with
  | ok l => exact ⟨l, rfl, hspecs ▸ (hlist ▸ lists_listing false twiceStore : Lists false twiceStore (.ok l)).full.2⟩
  | error e =>
    rw [hlist] at hok
    exact absurd hok Bool.false_ne_true

end Collocate.Store
