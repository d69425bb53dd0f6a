import Collocate.Lib.Effect

/-! # Programs and views of the state

A program with a large state is often studied through a view, a function of the state that shows only what
the statements are about. `Leads` is a triple about the view with one condition for both ways to end,
`Surely` one for programs that cannot fail; `Quiet` and `Silent` programs leave the view alone. -/
namespace Collocate
set_option autoImplicit false

variable {S T ε α β C : Type} {view : S → C} {P Q R : C → Prop}

/-- From `P` the program cannot fail and ends with `Q`. -/
def Surely (view : S → C) (P Q : C → Prop) (m : Eff S ε α) : Prop :=
  Eff.Triple (fun d => P (view d)) m (fun _ d => Q (view d)) fun _ _ => False

/-- From `P` the program ends with `R`, also when it fails. -/
def Leads (view : S → C) (P R : C → Prop) (m : Eff S ε α) : Prop :=
  Eff.Triple (fun d => P (view d)) m (fun _ d => R (view d)) fun _ d => R (view d)

/-- The view stays as it is, and the program cannot fail. -/
def Silent (view : S → C) (m : Eff S ε α) : Prop := ∀ P : C → Prop, Surely view P P m

/-- The view stays as it is. -/
def Quiet (view : S → C) (m : Eff S ε α) : Prop := ∀ P : C → Prop, Leads view P P m

/-! ### Programs that cannot fail -/

theorem Surely.bind {m : Eff S ε α} {f : α → Eff S ε β} (hm : Surely view P Q m) (hf : ∀ a, Surely view Q R (f a)) :
    Surely view P R (m >>= f) :=
  Eff.Triple.bind hm hf

theorem Surely.modify {f : S → S} (h : ∀ d : S, P (view d) → Q (view (f d))) :
    Surely view P Q (Eff.modify f : Eff S ε Unit) :=
  Eff.Triple.modify h

theorem Surely.pre {P' : C → Prop} {m : Eff S ε α} (hm : Surely view P Q m) (h : ∀ c, P' c → P c) :
    Surely view P' Q m :=
  Eff.Triple.pre hm fun d => h (view d)

theorem Surely.get_bind {f : S → Eff S ε α} (h : ∀ d : S, P (view d) → Surely view (fun c => c = view d) Q (f d)) :
    Surely view P Q (Eff.get >>= f) :=
  Eff.Triple.get_bind fun d hd => Eff.Triple.pre (h d hd) fun _ ht => ht ▸ rfl

/-- Reading the state for what does not matter. -/
theorem Surely.peek {f : S → Eff S ε α} (h : ∀ d, Surely view P Q (f d)) : Surely view P Q (Eff.get >>= f) :=
  Surely.get_bind fun d hd => (h d).pre fun _ hc => hc ▸ hd

theorem Surely.ite {p : Prop} [Decidable p] {a b : Eff S ε α} (ha : Surely view P Q a) (hb : Surely view P Q b) :
    Surely view P Q (if p then a else b) := by
  split
  · exact ha
  · exact hb

theorem Silent.pure (a : α) : Silent view (pure a : Eff S ε α) := fun _ => Eff.Triple.pure fun _ h => h

theorem Silent.bind {m : Eff S ε α} {f : α → Eff S ε β} (hm : Silent view m) (hf : ∀ a, Silent view (f a)) :
    Silent view (m >>= f) :=
  fun P => (hm P).bind fun a => hf a P

theorem Silent.get_bind {f : S → Eff S ε α} (h : ∀ d, Silent view (f d)) : Silent view (Eff.get >>= f) :=
  Silent.bind (fun _ => Eff.Triple.get fun _ h => h) h

theorem Silent.modify {f : S → S} (h : ∀ d, view (f d) = view d) : Silent view (Eff.modify f : Eff S ε Unit) :=
  fun _ => Surely.modify fun d hd => (h d).symm ▸ hd

theorem Silent.modify_bind {f : S → S} {g : Unit → Eff S ε α} (h : ∀ d, view (f d) = view d)
    (hg : ∀ u, Silent view (g u)) : Silent view (Eff.modify f >>= g) :=
  (Silent.modify h).bind hg

theorem Silent.ite {p : Prop} [Decidable p] {a b : Eff S ε α} (ha : Silent view a) (hb : Silent view b) :
    Silent view (if p then a else b) := by
  split
  · exact ha
  · exact hb

theorem Silent.forM {f : α → Eff S ε PUnit} (as : List α) (h : ∀ a, Silent view (f a)) : Silent view (as.forM f) := by
  induction as with
  | nil => exact Silent.pure _
  | cons a as ih => exact (h a).bind fun _ => ih

theorem Silent.quiet {m : Eff S ε α} (hm : Silent view m) : Quiet view m :=
  fun P => Eff.Triple.conseq (hm P) (fun _ h => h) (fun _ _ h => h) fun _ _ h => h.elim

/-! ### Programs that may fail -/

theorem Leads.apply {m : Eff S ε α} (hm : Leads view P R m) {d : S} (hd : P (view d)) : R (view (m d).2) := by
  have hend := hm d hd
  rcases hr : m d with ⟨_ | _, d'⟩ <;> rw [hr] at hend <;> exact hend

theorem Leads.pre {P' : C → Prop} {m : Eff S ε α} (hm : Leads view P R m) (h : ∀ c, P' c → P c) : Leads view P' R m :=
  Eff.Triple.pre hm fun d => h (view d)

theorem Leads.pure (a : α) (h : ∀ c, P c → R c) : Leads view P R (pure a : Eff S ε α) :=
  Eff.Triple.pure fun d => h (view d)

theorem Leads.throw (e : ε) (h : ∀ c, P c → R c) : Leads view P R (Eff.throw e : Eff S ε α) :=
  Eff.Triple.throw fun d => h (view d)

theorem Leads.bind {m : Eff S ε α} {f : α → Eff S ε β} (hm : Leads view P R m) (hf : ∀ a, Leads view R R (f a)) :
    Leads view P R (m >>= f) :=
  Eff.Triple.bind hm hf

theorem Leads.bind_via {m : Eff S ε α} {f : α → Eff S ε β} (hm : Leads view P Q m) (hQR : ∀ c, Q c → R c)
    (hf : ∀ a, Leads view Q R (f a)) : Leads view P R (m >>= f) :=
  Eff.Triple.bind (Eff.Triple.conseq hm (fun _ h => h) (fun _ _ h => h) fun _ d => hQR (view d)) hf

theorem Leads.bind_sure {m : Eff S ε α} {f : α → Eff S ε β} (hm : Surely view P Q m) (hf : ∀ a, Leads view Q R (f a)) :
    Leads view P R (m >>= f) :=
  Eff.Triple.bind (Eff.Triple.conseq hm (fun _ h => h) (fun _ _ h => h) fun _ _ h => h.elim) hf

theorem Leads.of_sure {m : Eff S ε α} (hm : Surely view P R m) : Leads view P R m :=
  Eff.Triple.conseq hm (fun _ h => h) (fun _ _ h => h) fun _ _ h => h.elim

theorem Leads.modify {f : S → S} (h : ∀ d : S, P (view d) → R (view (f d))) :
    Leads view P R (Eff.modify f : Eff S ε Unit) :=
  Leads.of_sure (Surely.modify h)

theorem Leads.modify_bind {f : S → S} {g : Unit → Eff S ε α} (h : ∀ d : S, P (view d) → Q (view (f d)))
    (hg : ∀ u, Leads view Q R (g u)) : Leads view P R (Eff.modify f >>= g) :=
  Leads.bind_sure (Surely.modify h) hg

/-- Reading the state: the view is the one that was read. -/
theorem Leads.get_bind {f : S → Eff S ε α} (h : ∀ d : S, P (view d) → Leads view (fun c => c = view d) R (f d)) :
    Leads view P R (Eff.get >>= f) :=
  Eff.Triple.get_bind fun d hd => Eff.Triple.pre (h d hd) fun _ ht => ht ▸ rfl

theorem Leads.ite {p : Prop} [Decidable p] {a b : Eff S ε α} (ha : Leads view P R a) (hb : Leads view P R b) :
    Leads view P R (if p then a else b) := by
  split
  · exact ha
  · exact hb

theorem Leads.attempt {m : Eff S ε α} (hm : Leads view P R m) : Surely view P R (Eff.attempt m) := Eff.Triple.attempt hm

theorem Leads.forM {f : α → Eff S ε PUnit} (as : List α) (h : ∀ a, Leads view R R (f a)) : Leads view R R (as.forM f) :=
  Eff.Keeps.forM as fun a _ => h a

theorem Quiet.leads {m : Eff S ε α} (hm : Quiet view m) (h : ∀ c, P c → R c) : Leads view P R m :=
  Eff.Triple.conseq (hm P) (fun _ hp => hp) (fun _ d => h (view d)) fun _ d => h (view d)

theorem Quiet.of_eq {m : Eff S ε α} (h : ∀ d, view (m d).2 = view d) : Quiet view m := by
  intro P d hd
  have hend : P (view (m d).2) := (h d).symm ▸ hd
  rcases hr : m d with ⟨_ | _, d'⟩ <;> rw [hr] at hend <;> exact hend

theorem Quiet.eq {m : Eff S ε α} (hm : Quiet view m) (d : S) : view (m d).2 = view d := (hm (· = view d)).apply rfl

/-- Reading the state for what `R` says of it. -/
theorem Leads.look {f : S → Eff S ε α} (h : ∀ d, R (view d) → Leads view R R (f d)) : Leads view R R (Eff.get >>= f) :=
  Leads.get_bind fun d hd => (h d hd).pre fun _ hc => hc ▸ hd

/-- Reading the state for what does not matter to `R`. -/
theorem Leads.peek {f : S → Eff S ε α} (h : ∀ d, Leads view R R (f d)) : Leads view R R (Eff.get >>= f) :=
  Leads.look fun d _ => h d

/-- A quiet program on the way, with what is known of its result. -/
theorem Leads.bind_quiet_result {m : Eff S ε α} {f : α → Eff S ε β} {F : α → Prop} (hm : Quiet view m)
    (hF : ∀ d a d', m d = (.ok a, d') → F a) (hPR : ∀ c, P c → R c) (hf : ∀ a, F a → Leads view P R (f a)) :
    Leads view P R (m >>= f) := by
  have hresult := Eff.Keeps.with_result (hm P) hF
  refine Eff.Triple.bind (Eff.Triple.conseq hresult (fun _ hp => hp) (fun _ _ hp => hp) fun _ d => hPR (view d)) ?_
  exact fun a d hd => hf a hd.2 d hd.1

theorem Leads.bind_quiet {m : Eff S ε α} {f : α → Eff S ε β} (hm : Quiet view m) (hPR : ∀ c, P c → R c)
    (hf : ∀ a, Leads view P R (f a)) : Leads view P R (m >>= f) :=
  Leads.bind_quiet_result (F := fun _ => True) hm (fun _ _ _ _ => trivial) hPR fun a _ => hf a

theorem Leads.bind_silent {m : Eff S ε α} {f : α → Eff S ε β} (hm : Silent view m) (hf : ∀ a, Leads view P R (f a)) :
    Leads view P R (m >>= f) :=
  Leads.bind_sure (hm P) hf

theorem Quiet.pure (a : α) : Quiet view (pure a : Eff S ε α) := (Silent.pure a).quiet

theorem Silent.then {m : Eff S ε α} {f : α → Eff S ε β} (hm : Silent view m) (hf : ∀ a, Quiet view (f a)) :
    Quiet view (m >>= f) :=
  fun P => Eff.Keeps.bind (hm.quiet P) fun a => hf a P

theorem Quiet.throw (e : ε) : Quiet view (Eff.throw e : Eff S ε α) := fun _ => Eff.Keeps.throw e

theorem Quiet.get : Quiet view (Eff.get : Eff S ε (S)) := fun _ => Eff.Keeps.get

theorem Quiet.lift (r : Except ε α) : Quiet view (Eff.lift r : Eff S ε α) := fun _ => Eff.Keeps.lift r

theorem Quiet.bind {m : Eff S ε α} {f : α → Eff S ε β} (hm : Quiet view m) (hf : ∀ a, Quiet view (f a)) :
    Quiet view (m >>= f) :=
  fun P => Eff.Keeps.bind (hm P) fun a => hf a P

theorem Quiet.attempt {m : Eff S ε α} (hm : Quiet view m) : Silent view (Eff.attempt m) := fun P => (hm P).attempt

theorem Quiet.forM {f : α → Eff S ε PUnit} (as : List α) (h : ∀ a, Quiet view (f a)) : Quiet view (as.forM f) :=
  fun P => Eff.Keeps.forM as fun a _ => h a P

theorem Quiet.collect {f : α → Eff S ε β} (as : List α) (h : ∀ a, Quiet view (f a)) : Quiet view (Eff.collect f as) :=
  fun P => Eff.Keeps.collect as fun a _ => h a P

theorem Quiet.get_bind {f : S → Eff S ε α} (h : ∀ d, Quiet view (f d)) : Quiet view (Eff.get >>= f) := Quiet.get.bind h

/-- A quiet program first, in a triple with two ways to end. -/
theorem Quiet.first {m : Eff S ε α} {f : α → Eff S ε β} {G : β → S → Prop} {E : C → Prop} (hm : Quiet view m)
    (hPE : ∀ c, P c → E c) (hf : ∀ a, Eff.Triple (fun d => P (view d)) (f a) G fun _ d => E (view d)) :
    Eff.Triple (fun d => P (view d)) (m >>= f) G fun _ d => E (view d) :=
  Eff.Triple.bind (Eff.Triple.conseq (hm P) (fun _ hp => hp) (fun _ _ hp => hp) fun _ d => hPE (view d)) hf

theorem Surely.first {m : Eff S ε α} {f : α → Eff S ε β} {G : β → S → Prop} {E : C → Prop} (hm : Surely view P Q m)
    (hf : ∀ a, Eff.Triple (fun d => Q (view d)) (f a) G fun _ d => E (view d)) :
    Eff.Triple (fun d => P (view d)) (m >>= f) G fun _ d => E (view d) :=
  Eff.Triple.bind (Eff.Triple.conseq hm (fun _ hp => hp) (fun _ _ hp => hp) fun _ _ hp => hp.elim) hf

theorem Silent.first {m : Eff S ε α} {f : α → Eff S ε β} {G : β → S → Prop} {E : C → Prop} (hm : Silent view m)
    (hf : ∀ a, Eff.Triple (fun d => P (view d)) (f a) G fun _ d => E (view d)) :
    Eff.Triple (fun d => P (view d)) (m >>= f) G fun _ d => E (view d) :=
  Surely.first (hm P) hf

theorem Quiet.modify {f : S → S} (h : ∀ d, view (f d) = view d) : Quiet view (Eff.modify f : Eff S ε Unit) :=
  (Silent.modify h).quiet

theorem Quiet.modify_bind {f : S → S} {g : Unit → Eff S ε α} (h : ∀ d, view (f d) = view d)
    (hg : ∀ u, Quiet view (g u)) : Quiet view (Eff.modify f >>= g) :=
  (Silent.modify h).then hg

theorem Quiet.ite {p : Prop} [Decidable p] {a b : Eff S ε α} (ha : Quiet view a) (hb : Quiet view b) :
    Quiet view (if p then a else b) := by
  split
  · exact ha
  · exact hb

theorem Quiet.zoom {look : S → T} {put : T → S → S} {m : Eff T ε α}
    (h : ∀ s, view (put (m (look s)).2 s) = view s) : Quiet view (Eff.zoom look put m) := by
  intro P s hs
  have hend : P (view (put (m (look s)).2 s)) := (h s).symm ▸ hs
  unfold Eff.zoom
  rcases (m (look s)).1 with e | a <;> exact hend

end Collocate
