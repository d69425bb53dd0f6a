import Collocate.Store.Quarantine

/-! # Listing any store

`load_all` on whatever the two bases hold: specs under other names, specs of a newer schema and files that are no
specs. Wherever it stops, the directories it has moved are corrupt ones. -/
namespace Collocate.Store
set_option autoImplicit false

/-! ## What may befall a call -/

/-- Unless `b` nothing fails but the renames across the trees, which do if the trees are `apart`. -/
def hazard (b apart : Bool) (call : Call) (w : Fate) (d : Files) : Prop :=
  if apart && crosses call then w = .broken crossDevice else may b call w d

/-- The call is not a rename that fails. -/
def Passable (apart : Bool) (call : Call) : Prop := (apart && crosses call) = false

theorem passable_of_within {apart : Bool} {call : Call} (h : crosses call = false) : Passable apart call := by
  rw [Passable, h, Bool.and_false]

theorem may_of_hazard {b apart : Bool} {call : Call} {w : Fate} {d : Files} (hcall : Passable apart call)
    (h : hazard b apart call w d) : may b call w d := by
  unfold hazard at h
  rwa [hcall, if_neg Bool.false_ne_true] at h

theorem passable_of_plain {apart : Bool} {call : Call} (h : call.plain = true) : Passable apart call := by
  cases call with
  | moveDir a name a' name' =>
    refine passable_of_within ?_
    obtain ⟨-, hcross⟩ := Bool.and_eq_true_iff.mp h
    exact bne_eq_false_iff_eq.mpr (eq_of_beq hcross)
  | names => cases h
  | _ => exact passable_of_within rfl

/-- What is known of a program on one filesystem holds on two, if it does not rename across them. -/
theorem keeps_hazard {α : Type} {b apart : Bool} {W P : Files → Prop} {Q : α → Files → Prop} {E : Error → Files → Prop}
    {job : Work α} (h : Job.Keeps exec (may b) W P job Q E) (hjob : Job.Asks (Passable apart) job) :
    Job.Keeps exec (hazard b apart) W P job Q E :=
  h.within hjob fun _ _ _ => may_of_hazard

/-! ## What has been sifted out -/

/-- `load_all` goes past the directory. -/
structure Readable (apart : Bool) (d : Files) (a : Area) (name : String) : Prop where
  supported : ∀ s, listedAt d a name = some s → ¬ specSchema < s.schema
  near : apart = true → a = .run → ¬ Corrupt d a name

/-- Some corrupt directories of an area are under `.corrupt`, and all else is as it was, but for what stood there in
their place. -/
structure Sifted (apart : Bool) (a : Area) (d d' : Files) : Prop where
  other : ∀ a' name, a' ≠ a → a' ≠ .corrupt → (d' a').get? name = (d a').get? name
  stays : ∀ name, ¬ Corrupt d a name →
    (d' a).get? name = (d a).get? name ∧ (d' .corrupt).get? name = (d .corrupt).get? name
  sifted : ∀ name, Corrupt d a name → (d' a).get? name = (d a).get? name ∨
    (apart = true → a ≠ .run) ∧ (d' a).get? name = none ∧ (d' .corrupt).get? name = (d a).get? name

section Sifted
variable {apart b : Bool} {a : Area} {d d' : Files}

theorem Sifted.refl (apart : Bool) (a : Area) (d : Files) : Sifted apart a d d where
  other := fun _ _ _ _ => rfl
  stays := fun _ _ => ⟨rfl, rfl⟩
  sifted := fun _ _ => .inl rfl

/-- A directory that has a spec is where it was. -/
theorem Sifted.there {name : String} {f : File} (h : Sifted apart a d d') (hspec : specAt d' a name = some f) :
    (d' a).get? name = (d a).get? name := by
  by_cases hcorrupt : Corrupt d a name
  · refine (h.sifted name hcorrupt).resolve_right fun hgone => ?_
    rw [specAt, hgone.2.1, Option.bind_none] at hspec
    cases hspec
  · exact (h.stays name hcorrupt).1

theorem listedAt_corrupt {name : String} (h : Corrupt d a name) : listedAt d a name = none := by
  obtain ⟨-, t, ht⟩ := h
  unfold listedAt
  split
  · rfl
  · rw [ht]

theorem listedAt_of_no_spec {name : String} (h : specAt d a name = none) : listedAt d a name = none := by
  unfold listedAt
  split
  · rfl
  · rw [h]

theorem Sifted.listedAt (h : Sifted apart a d d') (name : String) : listedAt d' a name = listedAt d a name := by
  by_cases hcorrupt : Corrupt d a name
  · rcases h.sifted name hcorrupt with hsame | ⟨-, hgone, -⟩
    · exact listedAt_congr hsame
    · rw [listedAt_corrupt hcorrupt]
      exact listedAt_of_no_spec (by rw [specAt, hgone, Option.bind_none])
  · exact listedAt_congr (h.stays name hcorrupt).1

/-- Nothing but `.corrupt` has changed since, and there only what a corrupt directory would replace. -/
theorem Sifted.shrunk {name : String} {d₀ : Files} (ha : a ∈ bases) (h : Sifted apart a d₀ d)
    (hcorrupt : Corrupt d₀ a name) (hsame : (d a).get? name = (d₀ a).get? name) (hshrunk : Shrunk .corrupt name d d') :
    Sifted apart a d₀ d' ∧ (d' a).get? name = (d₀ a).get? name := by
  have hne : a ≠ .corrupt := by
    rintro rfl
    exact absurd ha (by decide)
  have hout : ∀ a' n, a' ≠ .corrupt → (d' a').get? n = (d a').get? n := fun a' n hcor =>
    hshrunk.1 a' n fun heq => absurd heq hcor
  have hother : ∀ n, n ≠ name → (d' .corrupt).get? n = (d .corrupt).get? n :=
    fun n hn => hshrunk.1 .corrupt n fun _ => hn
  refine ⟨⟨fun a' n ha' hcor => ?_, fun n hn => ?_, fun n hn => ?_⟩, ?_⟩
  · rw [hout a' n hcor, h.other a' n ha' hcor]
  · have hname : n ≠ name := fun heq => hn (heq ▸ hcorrupt)
    rw [hout a n hne, hother n hname]
    exact h.stays n hn
  · by_cases hname : n = name
    · rw [hname, hout a name hne]
      exact .inl hsame
    · rw [hout a n hne, hother n hname]
      exact h.sifted n hn
  · rw [hout a name hne, hsame]

/-- A corrupt directory has moved. -/
theorem Sifted.moved {name : String} {d₀ : Files} {dir : Dir} (ha : a ∈ bases) (h : Sifted apart a d₀ d)
    (hnear : apart = true → a ≠ .run) (hcorrupt : Corrupt d₀ a name) (hdir : (d₀ a).get? name = some dir) :
    Sifted apart a d₀ (moved d a name .corrupt name dir) := by
  have hne : a ≠ .corrupt := by
    rintro rfl
    exact absurd ha (by decide)
  refine ⟨fun a' n ha' hcor => ?_, fun n hn => ?_, fun n hn => ?_⟩
  · rw [get?_moved, if_neg fun hand => hcor hand.1, if_neg fun hand => ha' hand.1]
    exact h.other a' n ha' hcor
  · have hname : n ≠ name := fun heq => hn (heq ▸ hcorrupt)
    rw [get?_moved, get?_moved, if_neg fun hand => hname hand.2, if_neg fun hand => hname hand.2,
      if_neg fun hand => hname hand.2, if_neg fun hand => hname hand.2]
    exact h.stays n hn
  · by_cases hname : n = name
    · subst hname
      refine .inr ⟨hnear, ?_, ?_⟩
      · rw [get?_moved, if_neg fun hand => hne hand.1, if_pos ⟨rfl, rfl⟩]
      · rw [get?_moved, if_pos ⟨rfl, rfl⟩, hdir]
    · rw [get?_moved, get?_moved, if_neg fun hand => hname hand.2, if_neg fun hand => hname hand.2,
        if_neg fun hand => hname hand.2, if_neg fun hand => hname hand.2]
      exact h.sifted n hn

/-! ## One directory -/

theorem moveDir_sifts {name : String} {d₀ : Files} (ha : a ∈ bases) (hcorrupt : Corrupt d₀ a name) :
    Job.Keeps exec (hazard b apart) (Sifted apart a d₀)
      (fun d => Sifted apart a d₀ d ∧ (d a).get? name = (d₀ a).get? name ∧ (b = true ∨ (d .corrupt).get? name = none))
      (must (.moveDir a name .corrupt name) rfl) (fun _ d => Sifted apart a d₀ d ∧ (apart = true → a ≠ .run))
      (fun _ d => Sifted apart a d₀ d ∧ (b = true ∨ apart = true ∧ a = .run)) := by
  have hcrosses : crosses (.moveDir a name .corrupt name) = decide (a = .run) := by cases a <;> rfl
  by_cases hacross : apart = true ∧ a = .run
  · refine Job.Keeps.bind (Q := fun r d => Sifted apart a d₀ d ∧ r = .error (.io crossDevice))
      (Job.Keeps.ask fun d w hd hw => ?_) fun r => Job.Keeps.lift (fun u d hd hu => ?_) fun e d hd _ =>
        ⟨hd.1, .inr hacross⟩
    · unfold hazard at hw
      rw [hcrosses, hacross.1, decide_eq_true hacross.2, Bool.and_true, if_pos rfl] at hw
      rw [hw]
      exact ⟨hd.1, hd.1, rfl⟩
    · cases hu.symm.trans hd.2
  · have hnear : apart = true → a ≠ .run := fun hapart hrun => hacross ⟨hapart, hrun⟩
    refine keeps_hazard ?_ (asks_must ?_)
    · refine must_keeps (fun _ _ => rfl) (fun d hd => ?_) fun hb d _ hd => ⟨hd.1, hd.1, .inl hb⟩
      obtain ⟨hsifted, hsame, hroom⟩ := hd
      have hbad := hcorrupt
      obtain ⟨-, t, ht⟩ := hbad
      obtain ⟨dir, hdir, -⟩ := Option.bind_eq_some_iff.mp ht
      by_cases hfree : ∀ there, (d .corrupt).get? name = some there → there.isEmpty = true
      · rw [doMove_free (hsame.trans hdir) hfree]
        have hmoved := hsifted.moved ha hnear hcorrupt hdir
        exact ⟨hmoved, fun _ => ⟨hmoved, hnear⟩, fun _ he => by cases he⟩
      · obtain ⟨there, hthere, hfull⟩ :
            ∃ there, (d .corrupt).get? name = some there ∧ there.isEmpty = false := by
          simpa using hfree
        have hfails : doMove d a name .corrupt name = (.error notEmpty, d) := by
          simp only [doMove, hsame.trans hdir, hthere, hfull, Bool.false_eq_true, if_false]
        rw [hfails]
        refine ⟨hsifted, fun h => (by cases h), fun _ _ => ⟨hsifted, .inl (hroom.resolve_right fun hnone => ?_)⟩⟩
        rw [hnone] at hthere
        cases hthere
    · rw [Passable, hcrosses]
      cases hand : apart && decide (a = .run) with
      | false => rfl
      | true =>
        obtain ⟨hapart, hrun⟩ := Bool.and_eq_true_iff.mp hand
        exact absurd ⟨hapart, of_decide_eq_true hrun⟩ hacross

theorem quarantine_sifts {name : String} {d₀ : Files} (ha : a ∈ bases) (hcorrupt : Corrupt d₀ a name) :
    Job.Keeps exec (hazard b apart) (Sifted apart a d₀)
      (fun d => Sifted apart a d₀ d ∧ (d a).get? name = (d₀ a).get? name)
      (quarantine a name) (fun _ d => Sifted apart a d₀ d ∧ (apart = true → a ≠ .run))
      (fun _ d => Sifted apart a d₀ d ∧ (b = true ∨ apart = true ∧ a = .run)) := by
  refine Job.Keeps.each fun d hd => ?_
  obtain ⟨hsifted, hsame⟩ := hd
  refine Job.Keeps.bind (Q := fun _ => (· = d))
    (keeps_hazard (must_same (fun _ _ => rfl) (fun _ hd => hd ▸ hsifted) (fun _ hd => hd)
      fun hb _ _ hd => ⟨hd ▸ hsifted, .inl hb⟩) (asks_must (passable_of_within rfl))) fun _ => ?_
  refine Job.Keeps.bind (Q := fun _ d' => Sifted apart a d₀ d' ∧ (d' a).get? name = (d₀ a).get? name ∧
    (b = true ∨ (d' .corrupt).get? name = none)) (Job.Keeps.attempt ?_) fun _ => moveDir_sifts ha hcorrupt
  have hshrunk : ∀ d', Shrunk .corrupt name d d' → Sifted apart a d₀ d' ∧ (d' a).get? name = (d₀ a).get? name :=
    fun d' h => hsifted.shrunk ha hcorrupt hsame h
  have hasks : Job.Asks (Passable apart) (removeDirAll .corrupt name) :=
    asks_removeDirAll (passable_of_within rfl) (fun _ => passable_of_within rfl) (passable_of_within rfl)
  refine keeps_hazard
    ((removeDirAll_keeps fun d' h => (hshrunk d' h).1).conseq (fun _ h => h) (fun _ d' h => ?_) fun _ d' h => ?_) hasks
  · exact ⟨(hshrunk d' h.1).1, (hshrunk d' h.1).2, .inr h.2⟩
  · refine ⟨(hshrunk d' h.1).1, (hshrunk d' h.1).2, h.2.imp_right fun hnone => ?_⟩
    cases hdir : (d' .corrupt).get? name with
    | none => rfl
    | some dir' =>
      obtain ⟨dir, hdir₀, -⟩ := h.1.2 dir' hdir
      rw [hnone] at hdir₀
      cases hdir₀

theorem loadEntry_sifts {d₀ : Files} (ha : a ∈ bases) (name : String) :
    Job.Keeps exec (hazard b apart) (Sifted apart a d₀) (Sifted apart a d₀) (loadEntry a name)
      (fun r d => Sifted apart a d₀ d ∧ r = listedAt d₀ a name ∧ Readable apart d₀ a name)
      (fun _ d => Sifted apart a d₀ d ∧ (b = true ∨ ¬ Readable apart d₀ a name)) := by
  refine Job.Keeps.each fun d hd => ?_
  unfold loadEntry
  by_cases hdot : Text.startsWith name "." = true
  · rw [if_pos hdot]
    have hnone : listedAt d₀ a name = none := by rw [listedAt, if_pos hdot]
    refine Job.Keeps.pure fun d' hd' => ⟨hd' ▸ hd, hnone.symm, fun s hs => ?_, fun _ _ hcorrupt => ?_⟩
    · rw [hnone] at hs
      cases hs
    · exact Bool.false_ne_true (hcorrupt.1.symm.trans hdot)
  · rw [if_neg hdot]
    have hvisible : Visible name := Bool.eq_false_iff.mpr hdot
    refine Job.Keeps.bind (keeps_hazard (readFile_keeps hd) (Job.asks_ask (passable_of_within rfl))) fun r => ?_
    refine Job.Keeps.each fun d' hd' => ?_
    obtain ⟨rfl, hread⟩ := hd'
    cases r with
    | error e =>
      show Job.Keeps _ _ _ _ (if e = noSuchFile then pure none else Job.throw e) _ _
      rcases hread with ⟨he, hnone⟩ | ⟨he, hb⟩
      · rw [if_pos he]
        have hlisted : listedAt d₀ a name = none := by
          rw [← hd.listedAt]
          exact listedAt_of_no_spec hnone
        refine Job.Keeps.pure fun d'' hd'' => ⟨hd'' ▸ hd, hlisted.symm, fun s hs => ?_, fun hapart hrun hcorrupt => ?_⟩
        · rw [hlisted] at hs
          cases hs
        · have hsame := (hd.sifted name hcorrupt).resolve_right fun hgone => hgone.1 hapart hrun
          obtain ⟨t, ht⟩ := hcorrupt.2
          rw [← specAt_congr hsame, specAt, hnone] at ht
          cases ht
      · rw [if_neg he]
        exact Job.Keeps.throw fun d'' hd'' => ⟨hd'' ▸ hd, .inl hb⟩
    | ok f =>
      have hspec : specAt d' a name = some f := hread
      have hsame := hd.there hspec
      have hspec₀ : specAt d₀ a name = some f := specAt_congr hsame ▸ hspec
      cases f with
      | spec s =>
        have hlisted : listedAt d₀ a name = some s := listedAt_iff.mpr ⟨hvisible, hspec₀⟩
        have hwhole : ¬ Corrupt d₀ a name := by
          rintro ⟨-, t, ht⟩
          cases ht.symm.trans hspec₀
        show Job.Keeps _ _ _ _ (decoded a name (.spec s)) _ _
        rw [decoded]
        by_cases hnewer : s.schema > specSchema
        · rw [if_pos hnewer]
          exact Job.Keeps.throw fun d'' hd'' => ⟨hd'' ▸ hd, .inr fun hreadable => hreadable.supported s hlisted hnewer⟩
        · rw [if_neg hnewer]
          refine Job.Keeps.pure fun d'' hd'' => ⟨hd'' ▸ hd, hlisted.symm, fun t ht => ?_, fun _ _ => hwhole⟩
          cases hlisted.symm.trans ht
          exact hnewer
      | text t =>
        have hcorrupt : Corrupt d₀ a name := ⟨hvisible, t, hspec₀⟩
        refine Job.Keeps.bind ((quarantine_sifts ha hcorrupt).conseq (fun d'' hd'' => hd'' ▸ ⟨hd, hsame⟩)
          (fun _ _ h => h) fun _ d'' h => ⟨h.1, h.2.imp_right fun hstuck hreadable => ?_⟩) fun _ => ?_
        · exact hreadable.near hstuck.1 hstuck.2 hcorrupt
        · refine Job.Keeps.pure fun d'' h =>
            ⟨h.1, (listedAt_corrupt hcorrupt).symm, fun s hs => ?_, fun hapart hrun => ?_⟩
          · rw [listedAt_corrupt hcorrupt] at hs
            cases hs
          · exact absurd hrun (h.2 hapart)

/-! ## An area, and both -/

theorem loadArea_sifts {d₀ : Files} (ha : a ∈ bases) :
    Job.Keeps exec (hazard b apart) (Sifted apart a d₀) (· = d₀) (loadArea a)
      (fun l d => Sifted apart a d₀ d ∧ (∀ name, Readable apart d₀ a name) ∧
        l.Perm ((d₀ a).keys.filterMap (listedAt d₀ a)))
      (fun _ d => Sifted apart a d₀ d ∧ (b = true ∨ ∃ name, ¬ Readable apart d₀ a name)) := by
  have hstart := Sifted.refl apart a d₀
  refine Job.Keeps.bind (keeps_hazard (names_keeps hstart) (Job.asks_ask (passable_of_within rfl))) fun found => ?_
  refine Job.Keeps.each fun d hd => ?_
  obtain ⟨rfl, hperm⟩ := hd
  refine Job.Keeps.bind ((Job.Keeps.collect found fun name => (loadEntry_sifts ha name).conseq (fun _ h => h)
    (fun _ _ h => h) fun _ d' h => ⟨h.1, h.2.imp_right fun hnot => ⟨name, hnot⟩⟩).pre fun d' hd' => hd' ▸ hstart)
    fun read => Job.Keeps.pure fun d' hd' => ?_
  obtain ⟨hsifted, hforall⟩ := hd'
  have hread : read = found.map (listedAt d a) ∧ ∀ name ∈ found, Readable apart d a name := by
    clear hperm
    induction hforall with
    | nil => exact ⟨rfl, List.forall_mem_nil _⟩
    | cons h _ ih => exact ⟨by rw [List.map_cons, ← h.1, ← ih.1], List.forall_mem_cons.mpr ⟨h.2, ih.2⟩⟩
  refine ⟨hsifted, fun name => ?_, ?_⟩
  · by_cases hmem : name ∈ found
    · exact hread.2 name hmem
    · have hspec : specAt d a name = none := by
        cases hdir : (d a).get? name with
        | none => rw [specAt, hdir, Option.bind_none]
        | some dir => exact absurd (hperm.mem_iff.mpr (OrdMap.mem_keys.mpr ⟨dir, hdir⟩)) hmem
      refine ⟨fun s hs => ?_, fun _ _ hcorrupt => ?_⟩
      · rw [listedAt_of_no_spec hspec] at hs
        cases hs
      · obtain ⟨t, ht⟩ := hcorrupt.2
        cases hspec.symm.trans ht
  · rw [hread.1, List.filterMap_map]
    exact hperm.filterMap _

/-- Corrupt directories of the two bases are under `.corrupt`. -/
def Aside (apart : Bool) (d d' : Files) : Prop := ∃ d₁, Sifted apart .state d d₁ ∧ Sifted apart .run d₁ d'

/-- `load_all` goes through. -/
def Loadable (apart : Bool) (d : Files) : Prop := ∀ a ∈ bases, ∀ name, Readable apart d a name

theorem readable_congr {name : String} (h : (d' a).get? name = (d a).get? name) :
    Readable apart d' a name ↔ Readable apart d a name := by
  have hlisted := listedAt_congr h
  have hcorrupt := corrupt_congr h
  exact ⟨fun hr =>
      ⟨fun s hs => hr.1 s (hlisted.trans hs), fun hapart hrun hbad => hr.2 hapart hrun (hcorrupt.mpr hbad)⟩,
    fun hr => ⟨fun s hs => hr.1 s (hlisted.symm.trans hs), fun hapart hrun hbad => hr.2 hapart hrun (hcorrupt.mp hbad)⟩⟩

theorem loadAll_sifts {d₀ : Files} :
    Job.Keeps exec (hazard b apart) (Aside apart d₀) (· = d₀) loadAll
      (fun l d => Aside apart d₀ d ∧ Loadable apart d₀ ∧ l.Perm (decodable d₀))
      (fun _ d => Aside apart d₀ d ∧ (b = true ∨ ¬ Loadable apart d₀)) := by
  have hfirst : ∀ d, Sifted apart .state d₀ d → Aside apart d₀ d := fun d h => ⟨d, h, .refl _ _ _⟩
  refine Job.Keeps.bind (((loadArea_sifts (by decide)).widen hfirst).conseq (fun _ h => h) (fun _ _ h => h)
    fun _ d h => ⟨hfirst d h.1, h.2.imp_right fun hnot hloadable => ?_⟩)
    fun persistent => Job.Keeps.each fun d₁ h₁ => ?_
  · obtain ⟨name, hname⟩ := hnot
    exact hname (hloadable .state (by decide) name)
  obtain ⟨hsifted, hstate, hpersistent⟩ := h₁
  have hsecond : ∀ d, Sifted apart .run d₁ d → Aside apart d₀ d := fun d h => ⟨d₁, hsifted, h⟩
  -- the run area is as it was when `load_all` comes to it
  have hrun : d₁ .run = d₀ .run := OrdMap.ext_get? fun name => hsifted.other .run name (by decide) (by decide)
  have hsame : ∀ name, (d₁ .run).get? name = (d₀ .run).get? name := fun name => by rw [hrun]
  refine Job.Keeps.bind (((loadArea_sifts (by decide)).widen hsecond).conseq (fun _ h => h) (fun _ _ h => h)
    fun _ d h => ⟨hsecond d h.1, h.2.imp_right fun hnot hloadable => ?_⟩) fun ephemeral => Job.Keeps.pure fun d hd => ?_
  · obtain ⟨name, hname⟩ := hnot
    exact hname ((readable_congr (hsame name)).mpr (hloadable .run (by decide) name))
  · obtain ⟨hsifted', hrun', hephemeral⟩ := hd
    refine ⟨hsecond d hsifted', fun a ha name => ?_, (List.mergeSort_perm _ _).trans ?_⟩
    · rcases List.mem_cons.mp ha with rfl | ha
      · exact hstate name
      · rw [List.mem_singleton.mp ha]
        exact (readable_congr (hsame name)).mp (hrun' name)
    · have hlisted : listedAt d₁ .run = listedAt d₀ .run := funext fun name => listedAt_congr (hsame name)
      rw [hrun, hlisted] at hephemeral
      have hdecodable : decodable d₀ = (d₀ .state).keys.filterMap (listedAt d₀ .state) ++
          (d₀ .run).keys.filterMap (listedAt d₀ .run) := by simp [decodable, bases]
      rw [hdecodable]
      exact hpersistent.append hephemeral

end Sifted

end Collocate.Store
