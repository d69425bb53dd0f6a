import Collocate.Store.Operations

/-! # Specs that do not decode

`load_all` moves the directory of such a spec to `.corrupt` in the state tree. A directory of the run tree gets there
by a rename across the two trees, which fails where they are different filesystems. -/
namespace Collocate.Store
set_option autoImplicit false

/-! ## The two trees -/

def crossDevice : String := "Invalid cross-device link (os error 18)"

/-- A rename between the tree of `run` and that of the others. -/
def crosses : Call → Bool
  | .moveDir a _ a' _ => (a == .run) != (a' == .run)
  | _ => false

/-- No call fails but the renames across the trees, which do if the trees are `apart`. -/
def settled (apart : Bool) (call : Call) (w : Fate) (d : Files) : Prop :=
  if apart && crosses call then w = .broken crossDevice else may false call w d

/-- What the environment does when it lists the directories in the order of their names. -/
def fateOf (apart : Bool) (call : Call) : Fate := if apart && crosses call then .broken crossDevice else .fine

theorem settled_fateOf (apart : Bool) (call : Call) (d : Files) : settled apart call (fateOf apart call) d := by
  unfold settled fateOf
  by_cases h : (apart && crosses call) = true
  · rw [if_pos h, if_pos h]
  · rw [if_neg h, if_neg h]
    exact may_fine false call d

theorem settled_within {apart : Bool} {call : Call} {w : Fate} {d : Files} (hcall : crosses call = false)
    (h : settled apart call w d) : may false call w d := by
  unfold settled at h
  rwa [hcall, Bool.and_false, if_neg Bool.false_ne_true] at h

/-! ## Corrupt directories -/

/-- The directory shows, and its `spec.json` does not decode. -/
def Corrupt (d : Files) (a : Area) (name : String) : Prop := Visible name ∧ ∃ t, specAt d a name = some (.text t)

/-- The specs that decode, once for each directory. -/
def decodable (d : Files) : List Spec := bases.flatMap fun a => (d a).keys.filterMap (listedAt d a)

/-- The decodable specs are returned, and each corrupt directory stands under `.corrupt`. -/
structure Isolated (d : Files) (r : Result (List Spec)) (d' : Files) : Prop where
  listed : ∃ l, r = .ok l ∧ l.Perm (decodable d)
  kept : ∀ a ∈ bases, ∀ name, Corrupt d a name → (d' .corrupt).get? name = (d a).get? name

/-- The corrupt directories of an area whose names are `done` are under `.corrupt`, and the rest is as it was. -/
structure Swept (a : Area) (done : String → Prop) (d d' : Files) : Prop where
  kept : ∀ name, done name → Corrupt d a name → (d' .corrupt).get? name = (d a).get? name
  left : ∀ name, ¬(done name ∧ Corrupt d a name) → (d' a).get? name = (d a).get? name
  before : ∀ name, ¬(done name ∧ Corrupt d a name) → (d' .corrupt).get? name = (d .corrupt).get? name
  other : ∀ a' name, a' ≠ a → a' ≠ .corrupt → (d' a').get? name = (d a').get? name

/-- A directory has moved to `.corrupt`, over what stood there under its name. -/
def PutAway (a : Area) (name : String) (d d' : Files) : Prop :=
  ∀ a' name', (d' a').get? name' =
    if a' = .corrupt ∧ name' = name then (d a).get? name
    else if a' = a ∧ name' = name then none
    else (d a').get? name'

theorem specAt_congr {d d' : Files} {a : Area} {name : String} (h : (d' a).get? name = (d a).get? name) :
    specAt d' a name = specAt d a name := by rw [specAt, specAt, h]

theorem corrupt_congr {d d' : Files} {a : Area} {name : String} (h : (d' a).get? name = (d a).get? name) :
    Corrupt d' a name ↔ Corrupt d a name := by rw [Corrupt, Corrupt, specAt_congr h]

theorem listedAt_congr {d d' : Files} {a : Area} {name : String} (h : (d' a).get? name = (d a).get? name) :
    listedAt d' a name = listedAt d a name := by rw [listedAt, listedAt, specAt_congr h]

theorem Swept.none (a : Area) (d : Files) : Swept a (fun _ => False) d d where
  kept := fun _ h _ => h.elim
  left := fun _ _ => rfl
  before := fun _ _ => rfl
  other := fun _ _ _ _ => rfl

theorem Swept.skip {a : Area} {done : String → Prop} {d₀ d : Files} {name : String} (h : Swept a done d₀ d)
    (hname : ¬Corrupt d₀ a name) : Swept a (fun n => done n ∨ n = name) d₀ d where
  kept := fun n hn hcorrupt => h.kept n (hn.resolve_right fun heq => hname (heq ▸ hcorrupt)) hcorrupt
  left := fun n hn => h.left n fun hdone => hn ⟨.inl hdone.1, hdone.2⟩
  before := fun n hn => h.before n fun hdone => hn ⟨.inl hdone.1, hdone.2⟩
  other := h.other

theorem Swept.put {a : Area} {done : String → Prop} {d₀ d d' : Files} {name : String} (ha : a ∈ bases)
    (h : Swept a done d₀ d) (hname : ¬done name) (hcorrupt : Corrupt d₀ a name) (hput : PutAway a name d d') :
    Swept a (fun n => done n ∨ n = name) d₀ d' := by
  have hne : a ≠ .corrupt := by
    rintro rfl
    exact absurd ha (by decide)
  have hsame : (d a).get? name = (d₀ a).get? name := h.left name fun hdone => hname hdone.1
  have hother : ∀ n, ¬((done n ∨ n = name) ∧ Corrupt d₀ a n) → n ≠ name := by
    rintro n hn rfl
    exact hn ⟨.inr rfl, hcorrupt⟩
  refine ⟨?_, ?_, ?_, ?_⟩
  · intro n hn hn'
    rw [hput]
    by_cases heq : n = name
    · rw [if_pos ⟨rfl, heq⟩, heq, hsame]
    · rw [if_neg fun hand => heq hand.2, if_neg fun hand => heq hand.2]
      exact h.kept n (hn.resolve_right heq) hn'
  · intro n hn
    rw [hput, if_neg fun hand => hne hand.1, if_neg fun hand => hother n hn hand.2]
    exact h.left n fun hdone => hn ⟨.inl hdone.1, hdone.2⟩
  · intro n hn
    rw [hput, if_neg fun hand => hother n hn hand.2, if_neg fun hand => hother n hn hand.2]
    exact h.before n fun hdone => hn ⟨.inl hdone.1, hdone.2⟩
  · intro a' n ha' hcor
    rw [hput, if_neg fun hand => hcor hand.1, if_neg fun hand => ha' hand.1]
    exact h.other a' n ha' hcor

/-! ## Calls -/

section Goes
variable {apart : Bool} {a : Area} {name : String} {d d' : Files}

theorem names_goes {r : Result (List String)} (h : Job.Goes exec (settled apart) (names a) d (.done r) d') :
    ∃ found, r = .ok found ∧ d' = d ∧ found.Perm (d a).keys := by
  have hasks : Job.Asks (fun call => crosses call = false) (names a) := Job.asks_ask rfl
  have hgo := h.within hasks fun _ _ _ => settled_within
  have hkeeps := @names_keeps false (fun _ => True) (fun _ _ => False) a d trivial
  cases r with
  | error e => exact (hkeeps.failed rfl hgo).elim
  | ok found =>
    obtain ⟨hd, hperm⟩ := hkeeps.ok rfl hgo
    exact ⟨found, rfl, hd, hperm⟩

theorem readFile_goes {file : String} {r : Result (Result File)}
    (h : Job.Goes exec (settled apart) (readFile a name file) d (.done r) d') :
    ∃ q, r = .ok q ∧ d' = d ∧ ReadAs false (((d a).get? name).bind (·.get? file)) q := by
  have hasks : Job.Asks (fun call => crosses call = false) (readFile a name file) := Job.asks_ask rfl
  have hgo := h.within hasks fun _ _ _ => settled_within
  have hkeeps := @readFile_keeps false (fun _ => True) (fun _ _ => False) a name file d trivial
  cases r with
  | error e => exact (hkeeps.failed rfl hgo).elim
  | ok q =>
    obtain ⟨hd, hread⟩ := hkeeps.ok rfl hgo
    exact ⟨q, rfl, hd, hread⟩

/-- Nothing is left where a directory has been removed, or was not there. -/
theorem removeDirAll_goes {r : Result Unit} (h : Job.Goes exec (settled apart) (removeDirAll a name) d (.done r) d') :
    Only a name d d' ∧ (d' a).get? name = none := by
  have hasks : Job.Asks (fun call => crosses call = false) (removeDirAll a name) := by
    refine Job.Asks.bind (Job.asks_ask rfl) fun found => Job.Asks.bind trivial fun files => ?_
    refine Job.Asks.bind (Job.asks_forM files fun file => ?_) fun _ => ?_
    · exact Job.Asks.bind (Job.asks_ask rfl) fun _ => trivial
    · exact Job.Asks.bind (Job.asks_ask rfl) fun _ => trivial
  have hgo := h.within hasks fun _ _ _ => settled_within
  have hkeeps := @removeDirAll_keeps false (fun _ => True) a name d fun _ _ => trivial
  cases r with
  | ok u =>
    obtain ⟨hshrunk, hnone⟩ := hkeeps.ok rfl hgo
    exact ⟨hshrunk.1, hnone⟩
  | error e =>
    obtain ⟨hshrunk, hfailed⟩ := hkeeps.failed rfl hgo
    refine ⟨hshrunk.1, ?_⟩
    cases hdir : (d' a).get? name with
    | none => rfl
    | some dir' =>
      obtain ⟨dir, hdir₀, -⟩ := hshrunk.2 dir' hdir
      rw [hfailed.resolve_left Bool.false_ne_true] at hdir₀
      cases hdir₀

theorem must_goes {call : Call} {h : call.Ans = Result Unit} {r : Result Unit}
    (hgo : Job.Goes exec (settled apart) (must call h) d (.done r) d') :
    ∃ w, settled apart call w d ∧ r = cast h (exec call w d).1 ∧ d' = (exec call w d).2 := by
  cases hgo.of_bind with
  | inl hfailed =>
    obtain ⟨e, -, hask⟩ := hfailed
    obtain ⟨w, -, hr, -⟩ := Job.Goes.of_ask call hask
    cases hr
  | inr hdone =>
    obtain ⟨ans, d₁, hask, hlift⟩ := hdone
    obtain ⟨w, hw, hans, rfl⟩ := Job.Goes.of_ask call hask
    obtain ⟨rfl, rfl⟩ := Job.Goes.of_done hlift
    cases hans
    exact ⟨w, hw, rfl, rfl⟩

theorem makeArea_goes {a' : Area} {r : Result Unit}
    (h : Job.Goes exec (settled apart) (must (.makeArea a') rfl) d (.done r) d') : r = .ok () ∧ d' = d := by
  obtain ⟨w, hw, rfl, rfl⟩ := must_goes h
  have hfine : may false (.makeArea a') w d := settled_within rfl hw
  cases w with
  | broken e => exact absurd (hfine e rfl).1 Bool.false_ne_true
  | fine | order l => exact ⟨rfl, rfl⟩

/-- A rename across the trees fails when they are apart, and any other one to a free place succeeds. -/
theorem moveDir_goes {dir : Dir} (hdir : (d a).get? name = some dir) (hfree : (d .corrupt).get? name = none)
    {r : Result Unit} (h : Job.Goes exec (settled apart) (must (.moveDir a name .corrupt name) rfl) d (.done r) d') :
    if apart = true ∧ a = .run then r = .error (.io crossDevice)
    else r = .ok () ∧ d' = moved d a name .corrupt name dir := by
  obtain ⟨w, hw, rfl, rfl⟩ := must_goes h
  have hcrosses : crosses (.moveDir a name .corrupt name) = decide (a = .run) := by
    cases a <;> rfl
  by_cases hacross : apart = true ∧ a = .run
  · rw [if_pos hacross]
    obtain ⟨rfl, rfl⟩ := hacross
    have hbroken : w = .broken crossDevice := hw
    rw [hbroken]
    rfl
  · rw [if_neg hacross]
    have hfine : may false (.moveDir a name .corrupt name) w d := by
      unfold settled at hw
      rw [hcrosses] at hw
      cases apart with
      | false => exact hw
      | true =>
        rwa [decide_eq_false fun heq => hacross ⟨rfl, heq⟩, Bool.and_false, if_neg Bool.false_ne_true] at hw
    have hmove := @doMove_free d a .corrupt name name dir hdir fun there hthere => by
      rw [hfree] at hthere
      cases hthere
    cases w with
    | broken e => exact absurd (hfine e rfl).1 Bool.false_ne_true
    | fine | order l =>
      show (doMove d a name .corrupt name).1 = _ ∧ (doMove d a name .corrupt name).2 = _
      rw [hmove]
      exact ⟨rfl, rfl⟩

/-- A directory that is put away: renamed, unless it would have to cross from one tree to the other. -/
theorem quarantine_goes (ha : a ∈ bases) {dir : Dir} (hdir : (d a).get? name = some dir) {r : Result Unit}
    (h : Job.Goes exec (settled apart) (quarantine a name) d (.done r) d') :
    if apart = true ∧ a = .run then r = .error (.io crossDevice)
    else r = .ok () ∧ PutAway a name d d' := by
  cases h.of_bind with
  | inl hfailed =>
    obtain ⟨e, -, hmake⟩ := hfailed
    cases (makeArea_goes hmake).1
  | inr hdone =>
    obtain ⟨_, d₁, hmake, hrest⟩ := hdone
    obtain rfl := (makeArea_goes hmake).2
    cases hrest.of_bind with
    | inl hfailed =>
      obtain ⟨e, -, hclear⟩ := hfailed
      obtain ⟨q, hq, -⟩ := hclear.of_attempt
      cases hq
    | inr hdone =>
      obtain ⟨_, d₂, hclear, hmove⟩ := hdone
      obtain ⟨q, -, hremove⟩ := hclear.of_attempt
      obtain ⟨honly, hnone⟩ := removeDirAll_goes hremove
      have hne : a ≠ .corrupt := by
        rintro rfl
        exact absurd ha (by decide)
      have hdir₂ : (d₂ a).get? name = some dir := (honly a name fun heq => absurd heq hne).trans hdir
      have hend := moveDir_goes hdir₂ hnone hmove
      by_cases hacross : apart = true ∧ a = .run
      · rwa [if_pos hacross] at hend ⊢
      · rw [if_neg hacross] at hend ⊢
        refine ⟨hend.1, ?_⟩
        intro a' name'
        rw [hend.2, get?_moved, hdir]
        by_cases hplace : a' = .corrupt ∧ name' = name
        · rw [if_pos hplace, if_pos hplace]
        · rw [if_neg hplace, if_neg hplace]
          rw [honly a' name' fun heq hsame => hplace ⟨heq, hsame⟩]

/-! ## Entries -/

/-- One entry: a corrupt one is put away, if that is possible. -/
theorem loadEntry_goes (ha : a ∈ bases) (hsupported : ∀ s, listedAt d a name = some s → ¬specSchema < s.schema)
    {r : Result (Option Spec)} (h : Job.Goes exec (settled apart) (loadEntry a name) d (.done r) d') :
    (¬Corrupt d a name ∧ r = .ok (listedAt d a name) ∧ d' = d) ∨
      Corrupt d a name ∧ if apart = true ∧ a = .run then r = .error (.io crossDevice)
        else r = .ok (listedAt d a name) ∧ PutAway a name d d' := by
  unfold loadEntry at h
  by_cases hdot : Text.startsWith name "." = true
  · rw [if_pos hdot] at h
    obtain ⟨rfl, rfl⟩ := Job.Goes.of_done h
    refine Or.inl ⟨?_, ?_, rfl⟩
    · intro hcorrupt
      rw [Corrupt, Visible, hdot] at hcorrupt
      exact absurd hcorrupt.1.symm Bool.false_ne_true
    · rw [listedAt, if_pos hdot]
  · rw [if_neg hdot] at h
    have hvisible : Visible name := Bool.eq_false_iff.mpr hdot
    cases h.of_bind with
    | inl hfailed =>
      obtain ⟨e, -, hread⟩ := hfailed
      obtain ⟨q, hq, -⟩ := readFile_goes hread
      cases hq
    | inr hdone =>
      obtain ⟨q, d₁, hread, hrest⟩ := hdone
      obtain ⟨_, hq, rfl, hreads⟩ := readFile_goes hread
      cases hq
      cases q with
      | error e =>
        have hmissing := hreads.resolve_right fun hbroken => Bool.false_ne_true hbroken.2
        have hnone : specAt d₁ a name = none := hmissing.2
        have hpure : Job.Goes exec (settled apart) (pure none : Work (Option Spec)) d₁ (.done r) d' := by
          have hrest' : Job.Goes exec (settled apart) (if e = noSuchFile then pure none else Job.throw e) d₁
            (.done r) d' :=
            hrest
          rwa [if_pos hmissing.1] at hrest'
        obtain ⟨rfl, rfl⟩ := Job.Goes.of_done hpure
        refine Or.inl ⟨?_, ?_, rfl⟩
        · rintro ⟨-, t, ht⟩
          rw [hnone] at ht
          cases ht
        · rw [listedAt, if_neg hdot, hnone]
      | ok file =>
        have hfile : specAt d₁ a name = some file := hreads
        cases file with
        | spec s =>
          have hlisted : listedAt d₁ a name = some s := listedAt_iff.mpr ⟨hvisible, hfile⟩
          have hpure : Job.Goes exec (settled apart) (pure (some s) : Work (Option Spec)) d₁ (.done r) d' := by
            have hrest' : Job.Goes exec (settled apart) (decoded a name (.spec s)) d₁ (.done r) d' := hrest
            rwa [decoded, if_neg (hsupported s hlisted)] at hrest'
          obtain ⟨rfl, rfl⟩ := Job.Goes.of_done hpure
          refine Or.inl ⟨?_, by rw [hlisted], rfl⟩
          rintro ⟨-, t, ht⟩
          rw [hfile] at ht
          cases ht
        | text t =>
          have hnone : listedAt d₁ a name = none := by rw [listedAt, if_neg hdot, hfile]
          obtain ⟨dir, hdir, -⟩ := Option.bind_eq_some_iff.mp hfile
          refine Or.inr ⟨⟨hvisible, t, hfile⟩, ?_⟩
          have hquarantine : Job.Goes exec (settled apart) (quarantine a name >>= fun _ => pure none) d₁
            (.done r) d' := hrest
          cases hquarantine.of_bind with
          | inl hfailed =>
            obtain ⟨e, rfl, hput⟩ := hfailed
            have hend := quarantine_goes ha hdir hput
            by_cases hacross : apart = true ∧ a = .run
            · rw [if_pos hacross] at hend ⊢
              cases hend
              rfl
            · rw [if_neg hacross] at hend
              cases hend.1
          | inr hdone =>
            obtain ⟨_, d₂, hput, hpure⟩ := hdone
            obtain ⟨rfl, rfl⟩ := Job.Goes.of_done hpure
            have hend := quarantine_goes ha hdir hput
            by_cases hacross : apart = true ∧ a = .run
            · rw [if_pos hacross] at hend
              cases hend
            · rw [if_neg hacross] at hend ⊢
              exact ⟨by rw [hnone], hend.2⟩

/-- One entry of an area of which others are done. -/
theorem Swept.entry (ha : a ∈ bases) {d₀ : Files}
    (hsupported : ∀ s, listedAt d₀ a name = some s → ¬specSchema < s.schema) {done : String → Prop}
    (hswept : Swept a done d₀ d) (hnew : ¬done name) {r : Result (Option Spec)}
    (h : Job.Goes exec (settled apart) (loadEntry a name) d (.done r) d') :
    ((apart = true ∧ a = .run ∧ Corrupt d₀ a name) ∧ ∃ e, r = .error e) ∨
      (apart = true → a = .run → ¬Corrupt d₀ a name) ∧ r = .ok (listedAt d₀ a name) ∧
        Swept a (fun n => done n ∨ n = name) d₀ d' := by
  have hsame : (d a).get? name = (d₀ a).get? name := hswept.left name fun hdone => hnew hdone.1
  have hlisted := listedAt_congr hsame
  have hcorrupt := corrupt_congr hsame
  rw [← hlisted] at hsupported
  cases loadEntry_goes ha hsupported h with
  | inl hread =>
    obtain ⟨hnot, rfl, rfl⟩ := hread
    rw [hcorrupt] at hnot
    exact Or.inr ⟨fun _ _ => hnot, by rw [hlisted], hswept.skip hnot⟩
  | inr hput =>
    obtain ⟨hbad, hend⟩ := hput
    rw [hcorrupt] at hbad
    by_cases hacross : apart = true ∧ a = .run
    · rw [if_pos hacross] at hend
      exact Or.inl ⟨⟨hacross.1, hacross.2, hbad⟩, _, hend⟩
    · rw [if_neg hacross] at hend
      exact Or.inr ⟨fun h₁ h₂ => absurd ⟨h₁, h₂⟩ hacross, by rw [hend.1, hlisted], hswept.put ha hnew hbad hend.2⟩

/-- The entries of an area: all are read and the corrupt ones put away, unless one of them cannot be. -/
theorem Swept.entries (ha : a ∈ bases) {d₀ : Files}
    (hsupported : ∀ n s, listedAt d₀ a n = some s → ¬specSchema < s.schema) {done : String → Prop}
    (hswept : Swept a done d₀ d) {names : List String} (hnodup : names.Nodup)
    (hnew : ∀ n ∈ names, ¬done n) {r : Result (List (Option Spec))}
    (h : Job.Goes exec (settled apart) (Job.collect (loadEntry a) names) d (.done r) d') :
    ((apart = true ∧ a = .run ∧ ∃ n ∈ names, Corrupt d₀ a n) ∧ ∃ e, r = .error e) ∨
      (apart = true → a = .run → ∀ n ∈ names, ¬Corrupt d₀ a n) ∧ r = .ok (names.map (listedAt d₀ a)) ∧
        Swept a (fun n => done n ∨ n ∈ names) d₀ d' := by
  induction names generalizing d done r with
  | nil =>
    obtain ⟨rfl, rfl⟩ := Job.Goes.of_done h
    refine Or.inr ⟨fun _ _ n hn => absurd hn List.not_mem_nil, rfl, ?_⟩
    have hdone : (fun n => done n ∨ n ∈ ([] : List String)) = done := by
      funext n
      simp only [List.not_mem_nil, or_false]
    rwa [hdone]
  | cons name names ih =>
    obtain ⟨hname, hnodup⟩ := List.nodup_cons.mp hnodup
    have hnext : ∀ {q d₁}, Job.Goes exec (settled apart) (loadEntry a name) d (.done q) d₁ → _ := fun hgo =>
      hswept.entry ha (hsupported name) (hnew name List.mem_cons_self) hgo
    cases h.of_bind with
    | inl hfailed =>
      obtain ⟨e, rfl, hentry⟩ := hfailed
      cases hnext hentry with
      | inl hstuck => exact Or.inl ⟨⟨hstuck.1.1, hstuck.1.2.1, name, List.mem_cons_self, hstuck.1.2.2⟩, e, rfl⟩
      | inr hread => cases hread.2.1
    | inr hdone =>
      obtain ⟨b, d₁, hentry, hrest⟩ := hdone
      cases hnext hentry with
      | inl hstuck =>
        obtain ⟨-, e, he⟩ := hstuck
        cases he
      | inr hread =>
        obtain ⟨hclear, hb, hswept₁⟩ := hread
        cases hb
        have hnew₁ : ∀ n ∈ names, ¬(done n ∨ n = name) := by
          intro n hn hor
          cases hor with
          | inl hdone => exact hnew n (List.mem_cons_of_mem _ hn) hdone
          | inr heq => exact hname (heq ▸ hn)
        cases hrest.of_bind with
        | inl hfailed =>
          obtain ⟨e, rfl, hlater⟩ := hfailed
          cases ih hswept₁ hnodup hnew₁ hlater with
          | inl hstuck =>
            obtain ⟨⟨hapart, hrun, n, hn, hbad⟩, -⟩ := hstuck
            exact Or.inl ⟨⟨hapart, hrun, n, List.mem_cons_of_mem _ hn, hbad⟩, e, rfl⟩
          | inr hall => cases hall.2.1
        | inr hdone =>
          obtain ⟨bs, d₂, hlater, hpure⟩ := hdone
          obtain ⟨rfl, rfl⟩ := Job.Goes.of_done hpure
          cases ih hswept₁ hnodup hnew₁ hlater with
          | inl hstuck =>
            obtain ⟨-, e, he⟩ := hstuck
            cases he
          | inr hall =>
            obtain ⟨hclears, hbs, hswept₂⟩ := hall
            cases hbs
            refine Or.inr ⟨?_, rfl, ?_⟩
            · intro hapart hrun n hn
              cases hn with
              | head => exact hclear hapart hrun
              | tail _ hmem => exact hclears hapart hrun n hmem
            · have hdone : (fun n => (done n ∨ n = name) ∨ n ∈ names) = fun n => done n ∨ n ∈ name :: names := by
                funext n
                simp only [List.mem_cons, or_assoc]
              rwa [hdone] at hswept₂

/-! ## Areas -/

theorem Corrupt.listed {n : String} (h : Corrupt d a n) : n ∈ (d a).keys := by
  obtain ⟨t, ht⟩ := h.2
  obtain ⟨dir, hdir, -⟩ := Option.bind_eq_some_iff.mp ht
  exact OrdMap.mem_keys.mpr ⟨dir, hdir⟩

/-- Only the corrupt names count among those that are done. -/
theorem Swept.congr {done done' : String → Prop} (h : Swept a done d d')
    (hdone : ∀ n, Corrupt d a n → (done' n ↔ done n)) :
    Swept a done' d d' where
  kept := fun n hn hbad => h.kept n ((hdone n hbad).mp hn) hbad
  left := fun n hn => h.left n fun hand => hn ⟨(hdone n hand.2).mpr hand.1, hand.2⟩
  before := fun n hn => h.before n fun hand => hn ⟨(hdone n hand.2).mpr hand.1, hand.2⟩
  other := h.other

theorem loadArea_goes (ha : a ∈ bases) (hsupported : ∀ n s, listedAt d a n = some s → ¬specSchema < s.schema)
    {r : Result (List Spec)} (h : Job.Goes exec (settled apart) (loadArea a) d (.done r) d') :
    ((apart = true ∧ a = .run ∧ ∃ n, Corrupt d a n) ∧ ∃ e, r = .error e) ∨
      (apart = true → a = .run → ∀ n, ¬Corrupt d a n) ∧
        (∃ l, r = .ok l ∧ l.Perm ((d a).keys.filterMap (listedAt d a))) ∧ Swept a (fun _ => True) d d' := by
  cases h.of_bind with
  | inl hfailed =>
    obtain ⟨e, -, hnames⟩ := hfailed
    obtain ⟨found, hfound, -⟩ := names_goes hnames
    cases hfound
  | inr hdone =>
    obtain ⟨found, d₁, hnames, hrest⟩ := hdone
    obtain ⟨_, hfound, rfl, hperm⟩ := names_goes hnames
    cases hfound
    have hmem : ∀ n, Corrupt d₁ a n → n ∈ found := fun n hbad => hperm.mem_iff.mpr hbad.listed
    have hnodup : found.Nodup := hperm.nodup_iff.mpr (d₁ a).keys_nodup
    have hall : ∀ {q d₂}, Job.Goes exec (settled apart) (Job.collect (loadEntry a) found) d₁ (.done q) d₂ → _ :=
      fun hgo =>
      (Swept.none a d₁).entries ha hsupported hnodup (fun _ _ h => h) hgo
    cases hrest.of_bind with
    | inl hfailed =>
      obtain ⟨e, rfl, hcollect⟩ := hfailed
      cases hall hcollect with
      | inl hstuck =>
        obtain ⟨⟨hapart, hrun, n, -, hbad⟩, -⟩ := hstuck
        exact Or.inl ⟨⟨hapart, hrun, n, hbad⟩, e, rfl⟩
      | inr hread => cases hread.2.1
    | inr hdone =>
      obtain ⟨read, d₂, hcollect, hpure⟩ := hdone
      obtain ⟨rfl, rfl⟩ := Job.Goes.of_done hpure
      cases hall hcollect with
      | inl hstuck =>
        obtain ⟨-, e, he⟩ := hstuck
        cases he
      | inr hread =>
        obtain ⟨hclear, hlist, hswept⟩ := hread
        cases hlist
        refine Or.inr ⟨fun hapart hrun n hbad => hclear hapart hrun n (hmem n hbad) hbad, ⟨_, rfl, ?_⟩, ?_⟩
        · rw [List.filterMap_map]
          exact hperm.filterMap _
        · exact hswept.congr fun n hbad => iff_of_true trivial (.inr (hmem n hbad))

/-! ## The whole store -/

/-- What keeps `load_all` from setting the corrupt directories apart. -/
structure Separable (apart : Bool) (d : Files) : Prop where
  near : apart = true → ∀ name, ¬Corrupt d .run name
  once : ∀ name, Corrupt d .state name → Corrupt d .run name → (d .state).get? name = (d .run).get? name

/-- `load_all` ends, and it returns the decodable specs and keeps the corrupt directories exactly when none of them is
in a run tree on another filesystem and no two of one name differ. -/
theorem load_isolates_iff (apart : Bool) {d : Files} (hsupported : ¬Newer d) :
    (∃ r d', Job.Goes exec (settled apart) loadAll d (.done r) d') ∧
      ∀ r d', Job.Goes exec (settled apart) loadAll d (.done r) d' → (Isolated d r d' ↔ Separable apart d) := by
  refine ⟨⟨_, _, Job.goes_settle (settled_fateOf apart) loadAll d⟩, ?_⟩
  intro r d' h
  have hschema : ∀ a ∈ bases, ∀ n s, listedAt d a n = some s → ¬specSchema < s.schema :=
    fun a ha n s hs hnewer => hsupported ⟨s, ⟨a, ha, n, hs⟩, hnewer⟩
  have hstate : Area.state ∈ bases := by decide
  have hrun : Area.run ∈ bases := by decide
  cases h.of_bind with
  | inl hfailed =>
    obtain ⟨e, -, hload⟩ := hfailed
    cases loadArea_goes hstate (hschema .state hstate) hload with
    | inl hstuck => cases hstuck.1.2.1
    | inr hread =>
      obtain ⟨-, ⟨l, hl, -⟩, -⟩ := hread
      cases hl
  | inr hdone =>
    obtain ⟨persistent, d₁, hload, hrest⟩ := hdone
    cases loadArea_goes hstate (hschema .state hstate) hload with
    | inl hstuck => cases hstuck.1.2.1
    | inr hread =>
      obtain ⟨-, ⟨_, hl, hpersistent⟩, hswept⟩ := hread
      cases hl
      -- the run tree is still as it was
      have hsame : ∀ n, (d₁ .run).get? n = (d .run).get? n := fun n => hswept.other .run n (by decide) (by decide)
      have hschema₁ : ∀ n s, listedAt d₁ .run n = some s → ¬specSchema < s.schema := by
        intro n s hs
        rw [listedAt_congr (hsame n)] at hs
        exact hschema .run hrun n s hs
      have harea : d₁ .run = d .run := OrdMap.ext_get? hsame
      have hephemeral₁ : (d₁ .run).keys.filterMap (listedAt d₁ .run) = (d .run).keys.filterMap (listedAt d .run) := by
        rw [harea]
        exact congrArg (fun f => (d .run).keys.filterMap f) (funext fun n => listedAt_congr (hsame n))
      cases hrest.of_bind with
      | inl hfailed =>
        obtain ⟨e, rfl, hload₁⟩ := hfailed
        cases loadArea_goes hrun hschema₁ hload₁ with
        | inr hread =>
          obtain ⟨-, ⟨l, hl, -⟩, -⟩ := hread
          cases hl
        | inl hstuck =>
          obtain ⟨⟨hapart, -, n, hbad⟩, -⟩ := hstuck
          refine iff_of_false ?_ fun hseparable => hseparable.near hapart n ((corrupt_congr (hsame n)).mp hbad)
          intro hisolated
          obtain ⟨l, hl, -⟩ := hisolated.listed
          cases hl
      | inr hdone =>
        obtain ⟨ephemeral, d₂, hload₁, hpure⟩ := hdone
        obtain ⟨rfl, rfl⟩ := Job.Goes.of_done hpure
        cases loadArea_goes hrun hschema₁ hload₁ with
        | inl hstuck =>
          obtain ⟨-, e, he⟩ := hstuck
          cases he
        | inr hread =>
          obtain ⟨hnear, ⟨_, hl, hephemeral⟩, hswept₁⟩ := hread
          cases hl
          rw [hephemeral₁] at hephemeral
          have hkeptrun : ∀ n, Corrupt d .run n → (d' .corrupt).get? n = (d .run).get? n := by
            intro n hbad
            rw [hswept₁.kept n trivial ((corrupt_congr (hsame n)).mpr hbad), hsame]
          constructor
          · intro hisolated
            refine ⟨fun hapart n hbad => hnear hapart rfl n ((corrupt_congr (hsame n)).mpr hbad), ?_⟩
            intro n hbad hbad'
            rw [← hisolated.kept .state hstate n hbad, ← hisolated.kept .run hrun n hbad']
          · intro hseparable
            refine ⟨⟨_, rfl, ?_⟩, ?_⟩
            · refine (List.mergeSort_perm _ _).trans ?_
              have hdecodable : decodable d = (d .state).keys.filterMap (listedAt d .state) ++
                  (d .run).keys.filterMap (listedAt d .run) := by simp [decodable, bases]
              rw [hdecodable]
              exact hpersistent.append hephemeral
            · intro a ha n hbad
              cases ha with
              | tail _ hmem =>
                rw [List.mem_singleton.mp hmem] at hbad ⊢
                exact hkeptrun n hbad
              | head =>
                by_cases hbad' : Corrupt d .run n
                · rw [hkeptrun n hbad', hseparable.once n hbad hbad']
                · rw [hswept₁.before n fun hand => hbad' ((corrupt_congr (hsame n)).mp hand.2)]
                  exact hswept.kept n trivial hbad

end Goes

/-! ## A corrupt spec in either tree -/

/-- A store with one container that can be loaded and one that cannot, which has been put away before. -/
def halfStore (area : Area) : Files := fun a =>
  if a = area then .ofList [("070707070707", .ofList [(specFile, .text "\x7bnot json")])]
  else if a = .corrupt then .ofList [("070707070707", .ofList [(specFile, .text "")])]
  else if a = .trash then .empty
  else .ofList [(webSpec.id.display, .ofList [(specFile, .spec webSpec)])]

theorem halfStore_spec {area a : Area} (ha : a ∈ bases) {name : String} {f : File}
    (h : specAt (halfStore area) a name = some f) :
    a = area ∧ (∃ t, f = .text t) ∨ a ≠ area ∧ f = .spec webSpec := by
  obtain ⟨dir, hdir, hfile⟩ := Option.bind_eq_some_iff.mp h
  have hentry := OrdMap.get?_eq_some.mp hdir
  by_cases harea : a = area
  · have hstore : halfStore area a = .ofList [("070707070707", .ofList [(specFile, .text "\x7bnot json")])] :=
      if_pos harea
    rw [hstore] at hentry
    cases List.mem_singleton.mp hentry
    cases hfile
    exact Or.inl ⟨harea, _, rfl⟩
  · have hstore : halfStore area a = .ofList [(webSpec.id.display, .ofList [(specFile, .spec webSpec)])] := by
      unfold halfStore
      rw [if_neg harea]
      cases ha with
      | head => rfl
      | tail _ hmem =>
        rw [List.mem_singleton.mp hmem]
        rfl
    rw [hstore] at hentry
    cases List.mem_singleton.mp hentry
    cases hfile
    exact Or.inr ⟨harea, rfl⟩

theorem halfStore_supported (area : Area) : ¬Newer (halfStore area) := by
  rintro ⟨s, ⟨a, ha, name, hlisted⟩, hnewer⟩
  cases halfStore_spec ha (listedAt_iff.mp hlisted).2 with
  | inl htext =>
    obtain ⟨-, t, ht⟩ := htext
    cases ht
  | inr hspec =>
    cases hspec.2
    exact absurd hnewer (by decide)

theorem leftover_replaced :
    ∃ r d', Job.Goes exec (settled true) loadAll (halfStore .state) (.done r) d' ∧
      Isolated (halfStore .state) r d' := by
  have hrun : ∀ name, ¬Corrupt (halfStore .state) .run name := by
    rintro name ⟨-, t, ht⟩
    cases halfStore_spec (by decide) ht with
    | inl htext => cases htext.1
    | inr hspec => cases hspec.2
  obtain ⟨⟨r, d', hgo⟩, hall⟩ := load_isolates_iff true (halfStore_supported .state)
  exact ⟨r, d', hgo, (hall r d' hgo).mpr ⟨fun _ => hrun, fun name _ hbad => absurd hbad (hrun name)⟩⟩

/-- An ephemeral container whose spec does not decode, with the trees on different filesystems. -/
theorem ephemeral_stuck : ¬Newer (halfStore .run) ∧
    ∃ d', Job.Goes exec (settled true) loadAll (halfStore .run) (.done (.error (.io crossDevice))) d' := by
  have hgo : Job.Goes exec (settled true) loadAll (halfStore .run) _ _ := Job.goes_settle (settled_fateOf true) _ _
  have hresult : (Job.settle exec (fateOf true) loadAll (halfStore .run)).1 = .error (.io crossDevice) := by
    decide +kernel
  rw [hresult] at hgo
  exact ⟨halfStore_supported .run, _, hgo⟩

end Collocate.Store
