import Mathlib.Data.List.Infix

/-! # Work that is planned, cut short and planned again

A plan is made from what a state shows, and run step by step. `Resumable` is what makes the run after an interruption
end where the whole run ends: every step leaves alone what the work comes to (`finish`), and a plan made where nothing
lacks unseen (`Noticed`) gets there. -/
namespace Collocate
set_option autoImplicit false

variable {S A ε : Type}

def runAll (run : A → S → S) (steps : List A) (s : S) : S := steps.foldl (fun s a => run a s) s

theorem runAll_nil (run : A → S → S) (s : S) : runAll run [] s = s := rfl

theorem runAll_append (run : A → S → S) (first second : List A) (s : S) :
    runAll run (first ++ second) s = runAll run second (runAll run first s) := List.foldl_append

theorem runAll_cons (run : A → S → S) (a : A) (steps : List A) (s : S) :
    runAll run (a :: steps) s = runAll run steps (run a s) := rfl

/-- What every step keeps, a run keeps. -/
theorem runAll_keeps {run : A → S → S} {P : S → Prop} {steps : List A} (h : ∀ a ∈ steps, ∀ s, P s → P (run a s)) {s : S}
    (hs : P s) : P (runAll run steps s) := by
  induction steps generalizing s with
  | nil => exact hs
  | cons a steps ih =>
    exact ih (fun b hb => h b (List.mem_cons_of_mem _ hb)) (h a (List.mem_cons_self ..) s hs)

/-- A function of the state that no step changes. -/
theorem runAll_constant {run : A → S → S} {β : Type} {f : S → β} {steps : List A}
    (h : ∀ a ∈ steps, ∀ s, f (run a s) = f s) (s : S) : f (runAll run steps s) = f s :=
  runAll_keeps (P := fun s' => f s' = f s) (fun a ha s' hs' => (h a ha s').trans hs') rfl

/-- Plans of which every beginning may be all that is done. -/
structure Resumable (run : A → S → S) (plan : S → Except ε (List A)) (finish : S → S) (Noticed Goal : S → Prop) :
    Prop where
  settled : ∀ s steps, plan s = .ok steps → ∀ a ∈ steps, ∀ s', finish (run a s') = finish s'
  finishes : ∀ s steps, plan s = .ok steps → Noticed s → runAll run steps s = finish s
  hides : ∀ s steps cut, plan s = .ok steps → cut <+: steps → Noticed (runAll run cut s) → Noticed s
  again : ∀ s steps cut, plan s = .ok steps → cut <+: steps → ∃ more, plan (runAll run cut s) = .ok more
  rests : ∀ s, plan (finish s) = .ok []
  goal : ∀ s, Goal (finish s)
  noticed : ∀ s, Goal s → Noticed s

/-- Planning again where the run was cut short and running that plan ends as the whole run does, at the goal, with
nothing more to do. -/
def Resumes (run : A → S → S) (plan : S → Except ε (List A)) (Goal : S → Prop) (s : S) (steps cut : List A) : Prop :=
  ∃ more, plan (runAll run cut s) = .ok more ∧ runAll run more (runAll run cut s) = runAll run steps s ∧
    Goal (runAll run steps s) ∧ plan (runAll run more (runAll run cut s)) = .ok []

theorem Resumable.completes_iff {run : A → S → S} {plan : S → Except ε (List A)} {finish : S → S}
    {Noticed Goal : S → Prop}
    (h : Resumable run plan finish Noticed Goal) {s : S} {steps cut : List A} (hplan : plan s = .ok steps)
    (hcut : cut <+: steps) : Resumes run plan Goal s steps cut ↔ Noticed (runAll run cut s) := by
  constructor
  · intro hresumes
    obtain ⟨more, hmore, hsame, hgoal, -⟩ := hresumes
    rw [← hsame] at hgoal
    exact h.hides _ more more hmore List.prefix_rfl (h.noticed _ hgoal)
  · intro hnoticed
    obtain ⟨more, hmore⟩ := h.again s steps cut hplan hcut
    have hwhole := h.finishes s steps hplan (h.hides s steps cut hplan hcut hnoticed)
    have hsettled : finish (runAll run cut s) = finish s :=
      runAll_constant (fun a ha => h.settled s steps hplan a (hcut.subset ha)) s
    have hsame : runAll run more (runAll run cut s) = finish s := by
      rw [h.finishes _ more hmore hnoticed, hsettled]
    refine ⟨more, hmore, hsame.trans hwhole.symm, ?_, ?_⟩
    · rw [hwhole]
      exact h.goal s
    · rw [hsame]
      exact h.rests s

end Collocate
