import Mathlib.Logic.Basic

/-! # Stateful computations that may fail

`Eff S ε α` is a function from a state to a result and the state it leaves, on failure too: what was
done before the failure stays done. `Triple` is the Hoare triple with one postcondition for each
way to end, and `Keeps` the invariant form; the rules below are what a proof about a program
written with `do` is assembled from. -/
namespace Collocate
set_option autoImplicit false

def Eff (S ε α : Type) : Type := S → Except ε α × S

namespace Eff

variable {S T ε α β : Type}

/-! ## Programs -/

def bind (m : Eff S ε α) (f : α → Eff S ε β) : Eff S ε β := fun s =>
  match m s with
  | (.ok a, s') => f a s'
  | (.error e, s') => (.error e, s')

instance : Monad (Eff S ε) where
  pure a := fun s => (.ok a, s)
  bind := bind

def throw (e : ε) : Eff S ε α := fun s => (.error e, s)

def get : Eff S ε S := fun s => (.ok s, s)

def modify (f : S → S) : Eff S ε Unit := fun s => (.ok (), f s)

/-- A pure result, in a program that has a state. -/
def lift : Except ε α → Eff S ε α
  | .ok a => pure a
  | .error e => throw e

/-- The result of `m` as a value, for a caller that looks at it instead of passing it on. -/
def attempt (m : Eff S ε α) : Eff S ε (Except ε α) := fun s => (.ok (m s).1, (m s).2)

/-- `f` on every item in turn, up to the first failure, with the results (`collect::<Result<Vec<_>>>`). -/
def collect (f : α → Eff S ε β) : List α → Eff S ε (List β)
  | [] => pure []
  | a :: as => do
    let b ← f a
    let bs ← collect f as
    pure (b :: bs)

/-- A program on a part of the state. -/
def zoom (look : S → T) (put : T → S → S) (m : Eff T ε α) : Eff S ε α := fun s =>
  ((m (look s)).1, put (m (look s)).2 s)

/-- A program with a variable of its own, which starts as `t`; its last value comes with the result. -/
def withLocal (t : T) (m : Eff (S × T) ε α) : Eff S ε (α × T) := fun s =>
  match m (s, t) with
  | (.ok a, s', t') => (.ok (a, t'), s')
  | (.error e, s', _) => (.error e, s')

theorem bind_of_ok {m : Eff S ε α} {s s' : S} {a : α} (h : m s = (.ok a, s')) (f : α → Eff S ε β) :
    (m >>= f) s = f a s' := by
  show Eff.bind m f s = f a s'
  unfold Eff.bind
  rw [h]

theorem bind_of_error {m : Eff S ε α} {s s' : S} {e : ε} (h : m s = (.error e, s')) (f : α → Eff S ε β) :
    (m >>= f) s = (.error e, s') := by
  show Eff.bind m f s = _
  unfold Eff.bind
  rw [h]

theorem pure_bind_eq (a : α) (f : α → Eff S ε β) : (pure a >>= f) = f a := rfl

theorem lift_ok_bind (a : α) (f : α → Eff S ε β) : (lift (.ok a) >>= f) = f a := rfl

theorem lift_error_bind (e : ε) (f : α → Eff S ε β) : (lift (.error e) >>= f) = throw e := rfl

theorem attempt_of {m : Eff S ε α} {s s' : S} {r : Except ε α} (h : m s = (r, s')) : attempt m s = (.ok r, s') := by
  unfold attempt
  rw [h]

theorem map_fst (m : Eff S ε α) (g : α → β) (s : S) : ((m >>= fun a => pure (g a)) s).1 = (m s).1.map g := by
  rcases h : m s with ⟨_ | _, s'⟩
  · rw [bind_of_error h]
    rfl
  · rw [bind_of_ok h]
    rfl

theorem get_bind_apply (f : S → Eff S ε α) (s : S) : (get >>= f) s = f s s := rfl

theorem bind_ok {m : Eff S ε α} {f : α → Eff S ε β} {s s' : S} {b : β} (h : (m >>= f) s = (.ok b, s')) :
    ∃ a s₁, m s = (.ok a, s₁) ∧ f a s₁ = (.ok b, s') := by
  change bind m f s = _ at h
  unfold bind at h
  rcases hm : m s with ⟨e | a, s₁⟩ <;> rw [hm] at h
  · cases h
  · exact ⟨a, s₁, rfl, h⟩

/-! What a program has done when it ends well, read off its result. -/

theorem fst_bind_eq_ok {m : Eff S ε α} {f : α → Eff S ε β} {s : S} {b : β} :
    ((m >>= f) s).1 = .ok b ↔ ∃ a s', m s = (.ok a, s') ∧ (f a s').1 = .ok b := by
  rcases h : m s with ⟨e | a, s'⟩
  · rw [bind_of_error h]
    constructor
    · intro hb
      cases hb
    · rintro ⟨a, s', ha, -⟩
      cases ha
  · rw [bind_of_ok h]
    constructor
    · exact fun hb => ⟨a, s', rfl, hb⟩
    · rintro ⟨a', s₁, ha, hb⟩
      cases ha
      exact hb

theorem fst_lift_bind_eq_ok {r : Except ε α} {f : α → Eff S ε β} {s : S} {b : β} :
    ((lift r >>= f) s).1 = .ok b ↔ ∃ a, r = .ok a ∧ (f a s).1 = .ok b := by
  rw [fst_bind_eq_ok]
  constructor
  · rintro ⟨a, s', ha, hb⟩
    obtain ⟨hr, rfl⟩ : r = .ok a ∧ s' = s := by cases r <;> cases ha; exact ⟨rfl, rfl⟩
    exact ⟨a, hr, hb⟩
  · rintro ⟨a, rfl, hb⟩
    exact ⟨a, s, rfl, hb⟩

theorem fst_lift {r : Except ε α} {s : S} : ((lift r : Eff S ε α) s).1 = r := by
  cases r <;> rfl

theorem fst_throw_ne_ok {e : ε} {s : S} {a : α} : ((throw e : Eff S ε α) s).1 ≠ .ok a := nofun

theorem lift_ok {r : Except ε α} {s s' : S} {a : α} (h : (lift r : Eff S ε α) s = (.ok a, s')) :
    r = .ok a ∧ s' = s := by
  cases r <;> cases h
  exact ⟨rfl, rfl⟩

theorem lift_bind_ok {r : Except ε α} {f : α → Eff S ε β} {s s' : S} {b : β} (h : (lift r >>= f) s = (.ok b, s')) :
    ∃ a, r = .ok a ∧ f a s = (.ok b, s') := by
  obtain ⟨a, s₁, ha, hb⟩ := bind_ok h
  obtain ⟨hr, rfl⟩ := lift_ok ha
  exact ⟨a, hr, hb⟩

theorem withLocal_ok {t t' : T} {m : Eff (S × T) ε α} {s s' : S} {a : α}
    (h : withLocal t m s = (.ok (a, t'), s')) : m (s, t) = (.ok a, s', t') := by
  unfold withLocal at h
  rcases hm : m (s, t) with ⟨e | b, s₁, t₁⟩ <;> rw [hm] at h <;> cases h
  rfl

/-! ## Triples -/

def Triple (P : S → Prop) (m : Eff S ε α) (Q : α → S → Prop) (E : ε → S → Prop) : Prop :=
  ∀ s, P s → match m s with
    | (.ok a, s') => Q a s'
    | (.error e, s') => E e s'

/-- `I` survives `m`, however `m` ends. -/
def Keeps (I : S → Prop) (m : Eff S ε α) : Prop := Triple I m (fun _ => I) (fun _ => I)

variable {P P' : S → Prop} {Q Q' : α → S → Prop} {E E' : ε → S → Prop} {I : S → Prop}

theorem Triple.ok {m : Eff S ε α} (h : Triple P m Q E) {s s' : S} {a : α} (hP : P s)
    (hm : m s = (.ok a, s')) : Q a s' := by
  have hs := h s hP
  rw [hm] at hs
  exact hs

theorem Triple.error {m : Eff S ε α} (h : Triple P m Q E) {s s' : S} {e : ε} (hP : P s)
    (hm : m s = (.error e, s')) : E e s' := by
  have hs := h s hP
  rw [hm] at hs
  exact hs

theorem Keeps.apply {m : Eff S ε α} (h : Keeps I m) {s : S} (hI : I s) : I (m s).2 := by
  have hs := h s hI
  rcases hm : m s with ⟨_ | _, s'⟩ <;> rw [hm] at hs <;> exact hs

theorem Keeps.of_state {m : Eff S ε α} (h : ∀ s, I s → I (m s).2) : Keeps I m := by
  intro s hs
  have hnext := h s hs
  rcases hm : m s with ⟨_ | _, s'⟩ <;> rw [hm] at hnext <;> exact hnext

theorem Triple.conseq {m : Eff S ε α} (h : Triple P m Q E) (hP : ∀ s, P' s → P s)
    (hQ : ∀ a s, Q a s → Q' a s) (hE : ∀ e s, E e s → E' e s) : Triple P' m Q' E' := by
  intro s hs
  have hm := h s (hP s hs)
  rcases hr : m s with ⟨e | a, s'⟩ <;> rw [hr] at hm
  · exact hE e s' hm
  · exact hQ a s' hm

theorem Triple.pre {m : Eff S ε α} (h : Triple P m Q E) (hP : ∀ s, P' s → P s) : Triple P' m Q E :=
  h.conseq hP (fun _ _ hq => hq) (fun _ _ he => he)

theorem Triple.post {m : Eff S ε α} (h : Triple P m Q E) (hQ : ∀ a s, Q a s → Q' a s) :
    Triple P m Q' E :=
  h.conseq (fun _ hp => hp) hQ (fun _ _ he => he)

theorem Triple.pure {a : α} (h : ∀ s, P s → Q a s) : Triple P (pure a : Eff S ε α) Q E :=
  fun s hs => h s hs

theorem Triple.throw {e : ε} (h : ∀ s, P s → E e s) : Triple P (throw e : Eff S ε α) Q E :=
  fun s hs => h s hs

theorem Triple.bind {R : β → S → Prop} {m : Eff S ε α} {f : α → Eff S ε β} (hm : Triple P m Q E)
    (hf : ∀ a, Triple (Q a) (f a) R E) : Triple P (m >>= f) R E := by
  intro s hs
  have h := hm s hs
  show match Eff.bind m f s with
    | (.ok a, s') => R a s'
    | (.error e, s') => E e s'
  unfold Eff.bind
  rcases hr : m s with ⟨e | a, s'⟩ <;> rw [hr] at h
  · exact h
  · exact hf a s' h

theorem Triple.modify {Q : Unit → S → Prop} {f : S → S} (h : ∀ s, P s → Q () (f s)) :
    Triple P (modify f : Eff S ε Unit) Q E :=
  fun s hs => h s hs

/-- Reading the state: the rest of the program may assume it runs on the state read. -/
theorem Triple.get {Q : S → S → Prop} (h : ∀ s, P s → Q s s) : Triple P (get : Eff S ε S) Q E :=
  fun s hs => h s hs

/-- Reading the state and going on, with the state fixed. -/
theorem Triple.get_bind {f : S → Eff S ε α} (h : ∀ s, P s → Triple (fun t => t = s) (f s) Q E) :
    Triple P (Eff.get >>= f) Q E := by
  refine Triple.bind (Q := fun a t => t = a ∧ P a) (Triple.get fun s hs => ⟨rfl, hs⟩) ?_
  rintro a t ⟨rfl, ht⟩
  exact h t ht t rfl

theorem Triple.lift {r : Except ε α} (hQ : ∀ a s, P s → r = .ok a → Q a s)
    (hE : ∀ e s, P s → r = .error e → E e s) : Triple P (lift r : Eff S ε α) Q E := by
  cases r with
  | ok a => exact Triple.pure fun s hs => hQ a s hs rfl
  | error e => exact Triple.throw fun s hs => hE e s hs rfl

theorem Triple.attempt {m : Eff S ε α} {R : Except ε α → S → Prop}
    (h : Triple P m (fun a => R (.ok a)) (fun e => R (.error e))) : Triple P (attempt m) R E := by
  intro s hs
  have hm := h s hs
  show R (m s).1 (m s).2
  rcases hr : m s with ⟨e | a, s'⟩ <;> rw [hr] at hm <;> exact hm

/-- A loop over a list, with an invariant that may look at what is left to do. -/
theorem Triple.forM {J : List α → S → Prop} {f : α → Eff S ε PUnit}
    (hstep : ∀ a as, Triple (J (a :: as)) (f a) (fun _ => J as) E) (as : List α) :
    Triple (J as) (as.forM f) (fun _ => J []) E := by
  induction as with
  | nil => exact Triple.pure fun s hs => hs
  | cons a as ih => exact Triple.bind (hstep a as) fun _ => ih

/-! ## Invariants -/

theorem Keeps.pure (a : α) : Keeps I (pure a : Eff S ε α) := Triple.pure fun _ hs => hs

theorem Keeps.throw (e : ε) : Keeps I (throw e : Eff S ε α) := Triple.throw fun _ hs => hs

theorem Keeps.bind {m : Eff S ε α} {f : α → Eff S ε β} (hm : Keeps I m) (hf : ∀ a, Keeps I (f a)) :
    Keeps I (m >>= f) :=
  Triple.bind hm hf

theorem Keeps.lift (r : Except ε α) : Keeps I (lift r : Eff S ε α) :=
  Triple.lift (fun _ _ hs _ => hs) (fun _ _ hs _ => hs)

theorem Keeps.attempt {m : Eff S ε α} (hm : Keeps I m) : Keeps I (attempt m) := Triple.attempt hm

theorem Keeps.get : Keeps I (get : Eff S ε S) := Triple.get fun _ hs => hs

theorem Keeps.modify {f : S → S} (h : ∀ s, I s → I (f s)) : Keeps I (modify f : Eff S ε Unit) :=
  Triple.modify h

theorem Keeps.forM {f : α → Eff S ε PUnit} (as : List α) (h : ∀ a ∈ as, Keeps I (f a)) :
    Keeps I (as.forM f) := by
  induction as with
  | nil => exact Keeps.pure _
  | cons a as ih =>
    refine Keeps.bind (h a (List.mem_cons_self ..)) fun _ => ?_
    exact ih fun b hb => h b (List.mem_cons_of_mem _ hb)

theorem Keeps.collect {f : α → Eff S ε β} (as : List α) (h : ∀ a ∈ as, Keeps I (f a)) :
    Keeps I (collect f as) := by
  induction as with
  | nil => exact Keeps.pure _
  | cons a as ih =>
    refine Keeps.bind (h a (List.mem_cons_self ..)) fun b => ?_
    refine Keeps.bind (ih fun b hb => h b (List.mem_cons_of_mem _ hb)) fun bs => ?_
    exact Keeps.pure _

/-- What holds of every result of `m` may be added to an invariant. -/
theorem Keeps.with_result {m : Eff S ε α} {F : α → Prop} (h : Keeps I m)
    (hF : ∀ s a s', m s = (.ok a, s') → F a) : Triple I m (fun a s => I s ∧ F a) (fun _ => I) := by
  intro s hs
  have hm := h s hs
  rcases hr : m s with ⟨e | a, s'⟩ <;> rw [hr] at hm
  · exact hm
  · exact ⟨hm, hF s a s' hr⟩

theorem Keeps.zoom {look : S → T} {put : T → S → S} {m : Eff T ε α}
    (h : ∀ s, Keeps (fun t => I (put t s)) m) (hself : ∀ s, I s → I (put (look s) s)) :
    Keeps I (zoom look put m) := by
  intro s hs
  have hm := (h s).apply (hself s hs)
  show match ((m (look s)).1, put (m (look s)).2 s) with
    | (.ok _, s') => I s'
    | (.error _, s') => I s'
  rcases hr : (m (look s)).1 with e | a <;> exact hm

theorem Keeps.zoom_fst {m : Eff S ε α} (h : Keeps I m) :
    Keeps (fun p => I p.1) (Eff.zoom Prod.fst (fun s (p : S × T) => (s, p.2)) m) :=
  Keeps.zoom (I := fun p : S × T => I p.1) (fun _ => h) fun _ hs => hs

theorem Keeps.withLocal {t : T} {m : Eff (S × T) ε α} (h : Keeps (fun p => I p.1) m) :
    Keeps I (withLocal t m) := by
  intro s hs
  have hm := h.apply (s := (s, t)) hs
  unfold Eff.withLocal
  rcases hr : m (s, t) with ⟨e | a, s', t'⟩ <;> rw [hr] at hm <;> exact hm

end Eff
end Collocate
