import Mathlib.Data.List.Induction
import Collocate.Secrets.Files

/-! # The secret store as a map

What the files say is compared with a plain map from references to values that counts the writes. The
version and the temporary file of a secret are named by its stem: two secrets of a project with one stem
share them, and a name that ends in `.tmp` is its own temporary file. Where no write meets either, and
the count fits, the store is the map; where one does, it is not. -/
namespace Collocate.Secrets
set_option autoImplicit false

/-! ## The plain map -/

structure Entry where
  value : String
  writes : ℕ

abbrev Plain := String × String → Option Entry

inductive Call
  | ensure (project name generator : String) (length : ℕ) (drawn : String)
  | set (project name value : String)
  | remove (project name : String)
  deriving DecidableEq, Repr

/-- The value a call writes, if it writes one. -/
def written (m : Plain) : Call → Option String
  | .ensure p n generator length drawn =>
    if valid p && valid n && (m (p, n)).isNone && decide (0 < length ∧ length ≤ maxLen) && supported generator
    then some drawn else none
  | .set p n value => if valid p && valid n then some value else none
  | .remove .. => none

def Call.key : Call → String × String
  | .ensure p n .. | .set p n _ | .remove p n => (p, n)

def writes (m : Plain) (key : String × String) : ℕ := (m key).elim 0 Entry.writes

def plainStep (m : Plain) (call : Call) : Plain :=
  match written m call with
  | some value => Function.update m call.key (some ⟨value, writes m call.key + 1⟩)
  | none => match call with
    | .remove p n => Function.update m (p, n) none
    | _ => m

def plainAfter (calls : List Call) : Plain := calls.foldl plainStep fun _ => none

/-! ## The store -/

def runCall : Call → Op Unit
  | .ensure p n generator length drawn => do
    let _ ← ensure p n generator length drawn
  | .set p n value => set p n value
  | .remove p n => remove p n

def step (F : Files) (call : Call) : Files := (runCall call ⟨F, []⟩).2.it

def filesAfter (calls : List Call) : Files := calls.foldl step .empty

/-- The store answers as the map does. -/
structure Agrees (F : Files) (m : Plain) : Prop where
  reveal : ∀ p n, valid p = true → valid n = true →
    (reveal p n ⟨F, []⟩).1 = (m (p, n)).elim (.error (missing p n)) fun e => .ok e.value
  version : ∀ p n e, m (p, n) = some e → ∃ v, (version p n ⟨F, []⟩).1 = .ok v ∧ v.toNat = e.writes
  list : ∀ project, ∃ l, (list project ⟨F, []⟩).1 = .ok l ∧ l.Pairwise (· < ·) ∧
    ∀ s, s ∈ l ↔ ∃ p n, s = p ++ "/" ++ n ∧ (∀ p', project = some p' → p = p') ∧ (m (p, n)).isSome = true

/-- The files of the secret that a call writes are no other secret's, and its count fits. -/
def Clear (m : Plain) (call : Call) : Prop :=
  (written m call).isSome = true →
    withExtension call.key.2 "tmp" ≠ call.key.2 ∧
    (∀ n, n ≠ call.key.2 → (m (call.key.1, n)).isSome = true → fileStem n ≠ fileStem call.key.2) ∧
    writes m call.key + 1 < 2 ^ 64

/-! ## The files of a map -/

/-- The files are those of the secrets of the map, and no others. -/
structure Holds (F : Files) (m : Plain) : Prop where
  valid : ∀ p n e, m (p, n) = some e → Secrets.valid p = true ∧ Secrets.valid n = true
  counted : ∀ p n e, m (p, n) = some e → 1 ≤ e.writes ∧ e.writes < 2 ^ 64
  stems : ∀ p n n', (m (p, n)).isSome = true → (m (p, n')).isSome = true → fileStem n = fileStem n' → n = n'
  content : ∀ p x text, content F p x = some text ↔
    (∃ e, m (p, x) = some e ∧ text = e.value) ∨
      ∃ n e, m (p, n) = some e ∧ x = withExtension n "meta" ∧ text = toString (UInt64.ofNat e.writes)

section Holds
variable {F F' : Files} {m : Plain} {p n : String} {call : Call}

theorem Holds.value (h : Holds F m) (hn : Secrets.valid n = true) :
    Secrets.content F p n = (m (p, n)).map Entry.value := by
  refine Option.ext fun text => ?_
  rw [h.content]
  constructor
  · rintro (⟨e, he, rfl⟩ | ⟨n', e, -, rfl, -⟩)
    · rw [he]
      rfl
    · exact absurd rfl (valid_ne_meta hn)
  · intro heq
    obtain ⟨e, he, rfl⟩ := Option.map_eq_some_iff.mp heq
    exact .inl ⟨e, he, rfl⟩

theorem Holds.meta (h : Holds F m) {e : Entry} (he : m (p, n) = some e) :
    Secrets.content F p (withExtension n "meta") = some (toString (UInt64.ofNat e.writes)) :=
  (h.content p _ _).mpr (.inr ⟨n, e, he, rfl, rfl⟩)

theorem Holds.agrees (h : Holds F m) : Agrees F m where
  reveal p n hp hn := by
    rw [reveal_eq hp hn, h.value hn]
    cases m (p, n) <;> rfl
  version p n e he := by
    obtain ⟨hp, hn⟩ := h.valid p n e he
    refine ⟨UInt64.ofNat e.writes, ?_, ?_⟩
    · rw [version_eq hp hn, h.meta he]
      dsimp only
      rw [Text.parseU64_trim_toString]
      rfl
    · exact UInt64.toNat_ofNat_of_lt (h.counted p n e he).2
  list project := by
    obtain ⟨l, hlist, hsorted, hmem⟩ := list_spec F project
    refine ⟨l, hlist, hsorted, fun s => (hmem s).trans ?_⟩
    constructor
    · rintro ⟨p, n, rfl, hproject, hp, hn, hthere⟩
      rw [h.value hn, Option.isSome_map] at hthere
      exact ⟨p, n, rfl, hproject, hthere⟩
    · rintro ⟨p, n, rfl, hproject, hthere⟩
      obtain ⟨e, he⟩ := Option.isSome_iff_exists.mp hthere
      obtain ⟨hp, hn⟩ := h.valid p n e he
      exact ⟨p, n, rfl, hproject, hp, hn, by rw [h.value hn, Option.isSome_map]; exact hthere⟩

/-! ## Writing -/

theorem Holds.nextVersion_present (h : Holds F m) {e : Entry} (he : m (p, n) = some e) :
    nextVersion (Secrets.content F p (withExtension n "meta")) = UInt64.ofNat (e.writes + 1) := by
  rw [h.meta he, nextVersion, Option.bind_some, Text.parseU64_trim_toString, Option.getD_some, UInt64.ofNat_add]
  rfl

/-- There is no version file where no secret of the stem is. -/
theorem Holds.no_meta (h : Holds F m) (hstem : ∀ n', (m (p, n')).isSome = true → fileStem n' ≠ fileStem n) :
    Secrets.content F p (withExtension n "meta") = none := by
  rw [Option.eq_none_iff_forall_ne_some]
  intro text htext
  rcases (h.content p _ text).mp htext with ⟨e, he, -⟩ | ⟨n', e, he, heq, -⟩
  · exact valid_ne_meta (h.valid p _ e he).2 rfl
  · exact hstem n' (by rw [he]; rfl) (withExtension_inj.mp heq).symm

theorem Holds.nextVersion_eq (h : Holds F m)
    (hstems : ∀ n', n' ≠ n → (m (p, n')).isSome = true → fileStem n' ≠ fileStem n) :
    nextVersion (Secrets.content F p (withExtension n "meta")) = UInt64.ofNat (writes m (p, n) + 1) := by
  cases he : m (p, n) with
  | some e =>
    rw [h.nextVersion_present he, writes, he]
    rfl
  | none =>
    have hnone : Secrets.content F p (withExtension n "meta") = none := by
      refine h.no_meta fun n' hthere => ?_
      by_cases hn' : n' = n
      · rw [hn', he] at hthere
        cases hthere
      · exact hstems n' hn' hthere
    rw [hnone, writes, he]
    rfl

/-- The files of the project after a write are those of the map after it. -/
theorem Holds.write_content (h : Holds F m) {value x text : String} (hn : Secrets.valid n = true)
    (htmp : withExtension n "tmp" ≠ n) (hstems : ∀ n', n' ≠ n → (m (p, n')).isSome = true → fileStem n' ≠ fileStem n) :
    (if x = withExtension n "meta" then some (toString (UInt64.ofNat (writes m (p, n) + 1)))
      else if x = withExtension n "tmp" then none
      else if x = n then some value else Secrets.content F p x) = some text ↔
    (∃ e, Function.update m (p, n) (some ⟨value, writes m (p, n) + 1⟩) (p, x) = some e ∧ text = e.value) ∨
      ∃ n' e, Function.update m (p, n) (some ⟨value, writes m (p, n) + 1⟩) (p, n') = some e ∧
        x = withExtension n' "meta" ∧ text = toString (UInt64.ofNat e.writes) := by
  have hself : Function.update m (p, n) (some ⟨value, writes m (p, n) + 1⟩) (p, n) =
      some ⟨value, writes m (p, n) + 1⟩ := Function.update_self ..
  have hother : ∀ {x' : String}, x' ≠ n →
      Function.update m (p, n) (some ⟨value, writes m (p, n) + 1⟩) (p, x') = m (p, x') :=
    fun hne => Function.update_of_ne (fun heq => hne (congrArg Prod.snd heq)) _ _
  by_cases hmeta : x = withExtension n "meta"
  · subst hmeta
    rw [if_pos rfl, Option.some.injEq]
    constructor
    · rintro rfl
      exact .inr ⟨n, _, hself, rfl, rfl⟩
    · rintro (⟨e, he, -⟩ | ⟨n', e, he, hmeta, rfl⟩)
      · rw [hother (valid_ne_meta hn).symm] at he
        exact absurd rfl (valid_ne_meta (h.valid p _ e he).2)
      · by_cases hn' : n' = n
        · rw [hn', hself] at he
          cases he
          rfl
        · rw [hother hn'] at he
          exact absurd (withExtension_inj.mp hmeta).symm (hstems n' hn' (by rw [he]; rfl))
  · rw [if_neg hmeta]
    by_cases htmp' : x = withExtension n "tmp"
    · subst htmp'
      rw [if_pos rfl]
      refine iff_of_false nofun ?_
      rintro (⟨e, he, -⟩ | ⟨n', e, -, hmeta', -⟩)
      · rw [hother htmp] at he
        exact hstems _ htmp (by rw [he]; rfl) (fileStem_withExtension hn (by decide) (by decide))
      · exact tmp_ne_meta n n' hmeta'
    · rw [if_neg htmp']
      by_cases hx : x = n
      · subst hx
        rw [if_pos rfl, Option.some.injEq]
        constructor
        · rintro rfl
          exact .inl ⟨_, hself, rfl⟩
        · rintro (⟨e, he, rfl⟩ | ⟨n', e, -, hmeta', -⟩)
          · cases hself.symm.trans he
            rfl
          · exact absurd hmeta' (valid_ne_meta hn)
      · rw [if_neg hx, h.content, hother hx]
        refine or_congr Iff.rfl ⟨?_, ?_⟩
        · rintro ⟨n', e, he, rfl, rfl⟩
          exact ⟨n', e, (hother fun heq => hmeta (heq ▸ rfl)) ▸ he, rfl, rfl⟩
        · rintro ⟨n', e, he, rfl, rfl⟩
          rw [hother fun heq => hmeta (heq ▸ rfl)] at he
          exact ⟨n', e, he, rfl, rfl⟩

theorem Holds.write (h : Holds F m) {value : String} (hp : Secrets.valid p = true) (hn : Secrets.valid n = true)
    (htmp : withExtension n "tmp" ≠ n) (hstems : ∀ n', n' ≠ n → (m (p, n')).isSome = true → fileStem n' ≠ fileStem n)
    (hcount : writes m (p, n) + 1 < 2 ^ 64)
    (hcontent : ∀ q x, Secrets.content F' q x =
      if q = p then
        if x = withExtension n "meta" then
          some (toString (nextVersion (Secrets.content F p (withExtension n "meta"))))
        else if x = withExtension n "tmp" then none
        else if x = n then some value else Secrets.content F p x
      else Secrets.content F q x) :
    Holds F' (Function.update m (p, n) (some ⟨value, writes m (p, n) + 1⟩)) := by
  have hother : ∀ {q x : String}, (q, x) ≠ (p, n) →
      Function.update m (p, n) (some ⟨value, writes m (p, n) + 1⟩) (q, x) = m (q, x) :=
    fun hne => Function.update_of_ne hne _ _
  have hself : Function.update m (p, n) (some ⟨value, writes m (p, n) + 1⟩) (p, n) =
      some ⟨value, writes m (p, n) + 1⟩ := Function.update_self ..
  rw [h.nextVersion_eq hstems] at hcontent
  refine ⟨?_, ?_, ?_, ?_⟩
  · intro q x e he
    by_cases hkey : (q, x) = (p, n)
    · cases hkey
      exact ⟨hp, hn⟩
    · exact h.valid q x e (hother hkey ▸ he)
  · intro q x e he
    by_cases hkey : (q, x) = (p, n)
    · cases hkey
      cases hself.symm.trans he
      exact ⟨Nat.le_add_left 1 _, hcount⟩
    · exact h.counted q x e (hother hkey ▸ he)
  · intro q x x' hx hx' hstem
    by_cases hkey : (q, x) = (p, n) <;> by_cases hkey' : (q, x') = (p, n)
    · cases hkey
      cases hkey'
      rfl
    · cases hkey
      rw [hother hkey'] at hx'
      exact absurd hstem.symm (hstems x' (fun heq => hkey' (by rw [heq])) hx')
    · cases hkey'
      rw [hother hkey] at hx
      exact absurd hstem (hstems x (fun heq => hkey (by rw [heq])) hx)
    · rw [hother hkey] at hx
      rw [hother hkey'] at hx'
      exact h.stems q x x' hx hx' hstem
  · intro q x text
    by_cases hq : q = p
    · subst hq
      rw [hcontent, if_pos rfl]
      exact h.write_content hn htmp hstems
    · have hne : ∀ x', (q, x') ≠ (p, n) := fun x' heq => hq (congrArg Prod.fst heq)
      rw [hcontent, if_neg hq, h.content]
      simp only [hother (hne _)]

/-! ## Removing -/

theorem Holds.erase (h : Holds F m) (hn : Secrets.valid n = true) (hthere : (m (p, n)).isSome = true)
    (hcontent : ∀ q x, Secrets.content F' q x =
      if q = p ∧ (x = n ∨ x = withExtension n "meta") then none else Secrets.content F q x) :
    Holds F' (Function.update m (p, n) none) := by
  have hmem : ∀ {q x : String} {e : Entry}, Function.update m (p, n) none (q, x) = some e ↔
      (q, x) ≠ (p, n) ∧ m (q, x) = some e := by
    intro q x e
    by_cases hkey : (q, x) = (p, n)
    · simp [hkey]
    · simp [Function.update_of_ne hkey, hkey]
  have hsome : ∀ {q x : String}, (Function.update m (p, n) none (q, x)).isSome = true → (m (q, x)).isSome = true := by
    intro q x hx
    obtain ⟨e, he⟩ := Option.isSome_iff_exists.mp hx
    rw [(hmem.mp he).2]
    rfl
  refine ⟨fun q x e he => h.valid q x e (hmem.mp he).2, fun q x e he => h.counted q x e (hmem.mp he).2,
    fun q x x' hx hx' => h.stems q x x' (hsome hx) (hsome hx'), fun q x text => ?_⟩
  rw [hcontent]
  split
  · rename_i hgone
    obtain ⟨rfl, hgone⟩ := hgone
    refine iff_of_false nofun ?_
    rintro (⟨e, he, -⟩ | ⟨n', e, he, rfl, -⟩)
    · obtain ⟨hkey, he⟩ := hmem.mp he
      rcases hgone with rfl | rfl
      · exact hkey rfl
      · exact valid_ne_meta (h.valid q _ e he).2 rfl
    · obtain ⟨hkey, he⟩ := hmem.mp he
      rcases hgone with hgone | hgone
      · exact valid_ne_meta hn hgone.symm
      · have hsame := h.stems q n' n (by rw [he]; rfl) hthere (withExtension_inj.mp hgone)
        exact hkey (by rw [hsame])
  · rename_i hkept
    rw [h.content]
    constructor
    · rintro (⟨e, he, rfl⟩ | ⟨n', e, he, rfl, rfl⟩)
      · refine .inl ⟨e, hmem.mpr ⟨fun hkey => hkept ?_, he⟩, rfl⟩
        exact ⟨congrArg Prod.fst hkey, .inl (congrArg Prod.snd hkey)⟩
      · refine .inr ⟨n', e, hmem.mpr ⟨fun hkey => hkept ?_, he⟩, rfl, rfl⟩
        exact ⟨congrArg Prod.fst hkey, .inr (congrArg (withExtension · "meta") (congrArg Prod.snd hkey))⟩
    · rintro (⟨e, he, rfl⟩ | ⟨n', e, he, rfl, rfl⟩)
      · exact .inl ⟨e, (hmem.mp he).2, rfl⟩
      · exact .inr ⟨n', e, (hmem.mp he).2, rfl, rfl⟩

/-! ## Steps -/

theorem step_ensure (p n generator : String) (length : ℕ) (drawn : String) :
    step F (.ensure p n generator length drawn) = (ensure p n generator length drawn ⟨F, []⟩).2.it := by
  show (((ensure p n generator length drawn) >>= fun _ => pure ()) ⟨F, []⟩ : _ × Faulty Files).2.it = _
  rcases hr : ensure p n generator length drawn ⟨F, []⟩ with ⟨_ | _, s⟩
  · rw [Eff.bind_of_error hr]
  · rw [Eff.bind_of_ok hr]
    rfl

/-- A call with a reference that is not valid changes nothing. -/
theorem step_refused {e : Error} (h : checkPath call.key.1 call.key.2 = .error e) : step F call = F := by
  cases call with
  | ensure p n generator length drawn =>
    rw [step_ensure, ensure, show checkPath p n = .error e from h, Eff.lift_error_bind]
    rfl
  | set p n value =>
    show (writeValue p n value ⟨F, []⟩).2.it = F
    rw [writeValue, show checkPath p n = .error e from h, Eff.lift_error_bind]
    rfl
  | remove p n =>
    show (remove p n ⟨F, []⟩).2.it = F
    rw [remove, show checkPath p n = .error e from h, Eff.lift_error_bind]
    rfl

theorem checkPath_eq_ok {name : String} : checkPath p name = .ok () ↔ Secrets.valid p = true ∧
    Secrets.valid name = true := by
  unfold checkPath
  cases Secrets.valid p <;> cases Secrets.valid name <;> simp

/-- What a call that writes does to the files. -/
theorem Holds.step_written (h : Holds F m) {value : String} (hw : written m call = some value) :
    Secrets.valid call.key.1 = true ∧ Secrets.valid call.key.2 = true ∧
    ∀ q x, Secrets.content (step F call) q x =
      if q = call.key.1 then
        if x = withExtension call.key.2 "meta" then
          some (toString (nextVersion (Secrets.content F call.key.1 (withExtension call.key.2 "meta"))))
        else if x = withExtension call.key.2 "tmp" then none
        else if x = call.key.2 then some value else Secrets.content F call.key.1 x
      else Secrets.content F q x := by
  cases call with
  | remove p n => cases hw
  | set p n v =>
    simp only [written, Option.ite_none_right_eq_some, Option.some.injEq, Bool.and_eq_true] at hw
    obtain ⟨⟨hp, hn⟩, rfl⟩ := hw
    obtain ⟨F', hrun, hcontent⟩ := writeValue_eq (F := F) hp hn
    refine ⟨hp, hn, ?_⟩
    rw [show step F (.set p n v) = F' from congrArg (fun r => r.2.it) hrun]
    exact hcontent
  | ensure p n generator length drawn =>
    simp only [written, Option.ite_none_right_eq_some, Option.some.injEq, Bool.and_eq_true, decide_eq_true_eq] at hw
    obtain ⟨⟨⟨⟨⟨hp, hn⟩, hnone⟩, hlength⟩, hgen⟩, rfl⟩ := hw
    obtain ⟨F', hrun, hcontent⟩ := writeValue_eq (F := F) hp hn
    refine ⟨hp, hn, ?_⟩
    have hstep : step F (.ensure p n generator length drawn) = F' := by
      have habsent : Secrets.content F p n = none := by
        rw [h.value hn]
        simpa using hnone
      have hwrites :
          ((Secrets.content F p n).isNone && decide (0 < length ∧ length ≤ maxLen) && supported generator) = true := by
        simp [hlength, hgen, habsent]
      rw [step_ensure, ensure_snd hp hn, if_pos hwrites, hrun]
    rw [hstep]
    exact hcontent

/-- A call that writes nothing and removes nothing leaves the files alone. -/
theorem Holds.step_idle (h : Holds F m) (hw : written m call = none)
    (hkey : (m call.key).isNone = true ∨ ∀ p n, call ≠ .remove p n) : Secrets.step F call = F := by
  cases hcheck : checkPath call.key.1 call.key.2 with
  | error e => exact step_refused hcheck
  | ok u =>
    obtain ⟨hp, hn⟩ := checkPath_eq_ok.mp hcheck
    cases call with
    | set p n v =>
      simp only [Call.key] at hp hn
      simp [written, hp, hn] at hw
    | remove p n =>
      simp only [Call.key] at hp hn hkey
      rcases hkey with hnone | hne
      · have hcontent : Secrets.content F p n = none := by
          rw [h.value hn]
          simpa using hnone
        show (remove p n ⟨F, []⟩).2.it = F
        rw [remove_missing hp hn hcontent]
      · exact absurd rfl (hne p n)
    | ensure p n generator length drawn =>
      simp only [Call.key] at hp hn
      rw [step_ensure, ensure_snd hp hn, h.value hn, if_neg]
      intro hwrites
      simp only [written, Option.ite_none_right_eq_some, reduceCtorEq, and_false, ite_eq_right_iff, imp_false] at hw
      apply hw
      simpa [hp, hn] using hwrites

theorem Holds.step (h : Holds F m) (hclear : Clear m call) : Holds (Secrets.step F call) (plainStep m call) := by
  unfold plainStep
  cases hw : written m call with
  | some value =>
    obtain ⟨hp, hn, hcontent⟩ := h.step_written hw
    obtain ⟨htmp, hstems, hcount⟩ := hclear (by rw [hw]; rfl)
    exact h.write hp hn htmp hstems hcount hcontent
  | none =>
    cases call with
    | set p n v => exact (h.step_idle hw (.inr nofun)).symm ▸ h
    | ensure p n generator length drawn => exact (h.step_idle hw (.inr nofun)).symm ▸ h
    | remove p n =>
      cases hthere : m (p, n) with
      | none =>
        have hsame : Function.update m (p, n) none = m := by
          rw [← hthere]
          exact Function.update_eq_self ..
        dsimp only
        rw [hsame, h.step_idle hw (.inl (by rw [Call.key, hthere]; rfl))]
        exact h
      | some e =>
        obtain ⟨hp, hn⟩ := h.valid p n e hthere
        obtain ⟨F', hrun, hcontent⟩ := remove_eq (F := F) hp hn (by rw [h.value hn, hthere]; rfl)
        rw [show Secrets.step F (.remove p n) = F' from congrArg (fun r => r.2.it) hrun]
        exact h.erase hn (by rw [hthere]; rfl) hcontent

/-! ## Collisions -/

theorem meta_version (hp : Secrets.valid p = true) (hn : Secrets.valid n = true) {v : UInt64}
    (hmeta : Secrets.content F p (withExtension n "meta") = some (toString v)) :
    (Secrets.version p n ⟨F, []⟩).1 = .ok v := by
  rw [version_eq hp hn, hmeta]
  dsimp only
  rw [Text.parseU64_trim_toString]
  rfl

/-- A write that is not clear leaves a store that is not the map. -/
theorem Holds.not_agrees (h : Holds F m) (hclear : ¬ Clear m call) :
    ¬ Agrees (Secrets.step F call) (plainStep m call) := by
  unfold Clear at hclear
  rw [Classical.not_imp] at hclear
  obtain ⟨hsome, hclear⟩ := hclear
  obtain ⟨value, hw⟩ := Option.isSome_iff_exists.mp hsome
  obtain ⟨hp, hn, hcontent⟩ := h.step_written hw
  have hself : plainStep m call call.key = some ⟨value, writes m call.key + 1⟩ := by
    unfold plainStep
    rw [hw]
    exact Function.update_self ..
  intro hagrees
  obtain ⟨v, hversion, hv⟩ := hagrees.version call.key.1 call.key.2 _ hself
  have hmeta := hcontent call.key.1 (withExtension call.key.2 "meta")
  rw [if_pos rfl, if_pos rfl] at hmeta
  cases (meta_version hp hn hmeta).symm.trans hversion
  -- The version that the write gave is the count of the map after it.
  by_cases htmp : withExtension call.key.2 "tmp" = call.key.2
  · have hreveal := hagrees.reveal call.key.1 call.key.2 hp hn
    have hgone := hcontent call.key.1 call.key.2
    rw [if_pos rfl, if_neg (valid_ne_meta hn), if_pos htmp.symm] at hgone
    rw [reveal_eq hp hn, hgone, show (call.key.1, call.key.2) = call.key from rfl, hself] at hreveal
    cases hreveal
  · by_cases hstems : ∀ n, n ≠ call.key.2 → (m (call.key.1, n)).isSome = true → fileStem n ≠ fileStem call.key.2
    · refine hclear ⟨htmp, hstems, ?_⟩
      have hlt := UInt64.toNat_lt (nextVersion (Secrets.content F call.key.1 (withExtension call.key.2 "meta")))
      rwa [hv] at hlt
    · push Not at hstems
      obtain ⟨n', hne, hthere, hstem⟩ := hstems
      obtain ⟨e, he⟩ := Option.isSome_iff_exists.mp hthere
      have hnone : m call.key = none := by
        by_contra hsome'
        exact hne (h.stems call.key.1 n' call.key.2 hthere (Option.isSome_iff_ne_none.mpr hsome') hstem)
      rw [← withExtension_inj.mpr hstem, h.nextVersion_present he, writes, hnone, UInt64.toNat_ofNat'] at hv
      obtain ⟨hpos, hlt⟩ := h.counted call.key.1 n' e he
      simp only [Option.elim_none, Nat.zero_add] at hv
      omega

end Holds

/-! ## Runs -/

section Runs
variable {m : Plain} {call : Call}

/-- A call changes no other secret: what it is, whether it is there, and its version. -/
def KeepsOthers (F : Files) (call : Call) : Prop :=
  ∀ p n, (p, n) ≠ call.key → valid p = true → valid n = true →
    (reveal p n ⟨step F call, []⟩).1 = (reveal p n ⟨F, []⟩).1 ∧
    ((∃ value, (reveal p n ⟨F, []⟩).1 = .ok value) →
      (version p n ⟨step F call, []⟩).1 = (version p n ⟨F, []⟩).1)

theorem plainStep_other {key : String × String} (hkey : key ≠ call.key) : plainStep m call key = m key := by
  unfold plainStep
  cases written m call with
  | some value => exact Function.update_of_ne hkey _ _
  | none =>
    cases call with
    | remove p n => exact Function.update_of_ne hkey _ _
    | _ => rfl

theorem Agrees.keepsOthers {F : Files} (h : Agrees F m) (h' : Agrees (step F call) (plainStep m call)) :
    KeepsOthers F call := by
  intro p n hkey hp hn
  have hreveal := h.reveal p n hp hn
  have hreveal' := h'.reveal p n hp hn
  rw [plainStep_other hkey] at hreveal'
  refine ⟨hreveal'.trans hreveal.symm, ?_⟩
  rintro ⟨value, hvalue⟩
  cases he : m (p, n) with
  | none =>
    rw [he, hvalue] at hreveal
    cases hreveal
  | some e =>
    obtain ⟨v, hv, hcount⟩ := h.version p n e he
    obtain ⟨v', hv', hcount'⟩ := h'.version p n e ((plainStep_other hkey).trans he)
    rw [hv, hv', UInt64.toNat_inj.mp (hcount'.trans hcount.symm)]

theorem filesAfter_concat (past : List Call) (call : Call) :
    filesAfter (past ++ [call]) = step (filesAfter past) call := by
  simp [filesAfter]

theorem plainAfter_concat (past : List Call) (call : Call) :
    plainAfter (past ++ [call]) = plainStep (plainAfter past) call := by
  simp [plainAfter]

theorem holds_after {past : List Call}
    (h : ∀ pre call post, past = pre ++ call :: post → Clear (plainAfter pre) call) :
    Holds (filesAfter past) (plainAfter past) := by
  induction past using List.reverseRecOn with
  | nil =>
    refine ⟨nofun, nofun, nofun, fun p x text => iff_of_false nofun ?_⟩
    rintro (⟨e, he, -⟩ | ⟨n, e, he, -⟩) <;> cases he
  | append_singleton past call ih =>
    have hpast := ih fun pre call' post heq => h pre call'
      (post ++ [call]) (by rw [heq, List.append_assoc, List.cons_append])
    rw [filesAfter_concat, plainAfter_concat]
    exact hpast.step (h past call [] rfl)

theorem clear_of_agrees {past : List Call}
    (h : ∀ pre post, past = pre ++ post → Agrees (filesAfter pre) (plainAfter pre)) :
    ∀ pre call post, past = pre ++ call :: post → Clear (plainAfter pre) call := by
  induction past using List.reverseRecOn with
  | nil =>
    intro pre call post heq
    cases pre <;> cases heq
  | append_singleton past last ih =>
    have hpast := ih fun pre post heq => h pre (post ++ [last]) (by rw [heq, List.append_assoc])
    intro pre call post heq
    rcases List.eq_nil_or_concat post with rfl | ⟨post, last', rfl⟩
    · obtain ⟨rfl, hlast⟩ := List.append_inj' heq rfl
      cases hlast
      by_contra hclear
      refine (holds_after hpast).not_agrees hclear ?_
      rw [← filesAfter_concat, ← plainAfter_concat]
      exact h (past ++ [last]) [] (List.append_nil _).symm
    · have hsplit : past ++ [last] = (pre ++ call :: post) ++ [last'] := by simp [heq]
      exact hpast pre call post (List.append_inj' hsplit rfl).1

end Runs

/-- The store is the plain map, and no call touches another secret, exactly when every write is clear. -/
theorem store_is_map_iff (calls : List Call) :
    ((∀ past rest, calls = past ++ rest → Agrees (filesAfter past) (plainAfter past)) ∧
      ∀ past call rest, calls = past ++ call :: rest → KeepsOthers (filesAfter past) call) ↔
    ∀ past call rest, calls = past ++ call :: rest → Clear (plainAfter past) call := by
  constructor
  · exact fun h => clear_of_agrees h.1
  · intro h
    have hagrees : ∀ past rest, calls = past ++ rest → Agrees (filesAfter past) (plainAfter past) := by
      rintro past rest rfl
      refine (holds_after fun pre call post heq => ?_).agrees
      exact h pre call (post ++ rest) (by rw [heq, List.append_assoc, List.cons_append])
    refine ⟨hagrees, fun past call rest heq => ?_⟩
    have hnext := hagrees (past ++ [call]) rest (by simp [heq])
    rw [filesAfter_concat, plainAfter_concat] at hnext
    exact (hagrees past (call :: rest) heq).keepsOthers hnext

/-- A key and a certificate of one stem: the second write is taken for the second version of it. -/
def sharedStem : List Call := [.set "web" "tls.key" "k", .set "web" "tls.crt" "c"]

theorem shared_stem_not_map : ¬ Agrees (filesAfter sharedStem) (plainAfter sharedStem) := by
  intro hagrees
  obtain ⟨v, hversion, hv⟩ := hagrees.version "web" "tls.crt" ⟨"c", 1⟩ rfl
  have htwo : (version "web" "tls.crt" ⟨filesAfter sharedStem, []⟩).1 = .ok 2 := by decide +kernel
  cases htwo.symm.trans hversion
  cases hv

end Collocate.Secrets
