import Mathlib.Logic.Function.Basic
import Mathlib.Data.List.Forall2

/-! # Programs as the calls they make

`Job Op Ans ε α` is a program that makes calls `Op`, each answered before it goes on, and ends with
a result. What a call does to a shared state is given by `exec`, together with a choice `φ` of the
environment. Since a job is only its calls, it can be cut off between any two of them, and several
jobs can be interleaved call by call.

`Safe` is the rely-guarantee judgement: while the others only change the state as `R` says, every
call changes it as `G` says, and the end satisfies `Q`. A run of one job (`Goes`) or of many (`Runs`)
may be restricted to calls that satisfy a condition `may`. -/
namespace Collocate
set_option autoImplicit false

inductive Job (Op : Type) (Ans : Op → Type) (ε α : Type) : Type
  | done (r : Except ε α)
  | call (op : Op) (next : Ans op → Job Op Ans ε α)

namespace Job

variable {Op : Type} {Ans : Op → Type} {σ φ ε α β ι : Type}

/-! ## Programs -/

def bind (f : α → Job Op Ans ε β) : Job Op Ans ε α → Job Op Ans ε β
  | .done (.ok a) => f a
  | .done (.error e) => .done (.error e)
  | .call op next => .call op fun a => bind f (next a)

instance : Monad (Job Op Ans ε) where
  pure a := .done (.ok a)
  bind m f := bind f m

def throw (e : ε) : Job Op Ans ε α := .done (.error e)

def lift (r : Except ε α) : Job Op Ans ε α := .done r

/-- One call, with its answer as the result. -/
def ask (op : Op) : Job Op Ans ε (Ans op) := .call op fun a => .done (.ok a)

/-- The result of a job as a value, for a caller that looks at it instead of passing it on. -/
def attempt : Job Op Ans ε α → Job Op Ans ε (Except ε α)
  | .done r => .done (.ok r)
  | .call op next => .call op fun a => attempt (next a)

/-- How the job has ended, if it has. -/
def result : Job Op Ans ε α → Option (Except ε α)
  | .done r => some r
  | .call _ _ => none

theorem result_eq_some {job : Job Op Ans ε α} {r : Except ε α} : job.result = some r ↔ job = .done r := by
  cases job with
  | done q => exact ⟨fun h => by cases h; rfl, fun h => by cases h; rfl⟩
  | call op next => exact ⟨nofun, nofun⟩

/-- `f` on every item in turn, up to the first failure, with the results. -/
def collect (f : α → Job Op Ans ε β) : List α → Job Op Ans ε (List β)
  | [] => pure []
  | a :: as => do
    let b ← f a
    let bs ← collect f as
    pure (b :: bs)

theorem bind_assoc_eq {γ : Type} (m : Job Op Ans ε α) (f : α → Job Op Ans ε β) (g : β → Job Op Ans ε γ) :
    ((m >>= f) >>= g) = (m >>= fun a => f a >>= g) := by
  show Job.bind g (Job.bind f m) = Job.bind (fun a => Job.bind g (f a)) m
  induction m with
  | done r => cases r <;> rfl
  | call op next ih => exact congrArg (Job.call op) (funext ih)

theorem lift_ok_bind (a : α) (f : α → Job Op Ans ε β) : (lift (.ok a) >>= f) = f a := rfl

theorem lift_error_bind (e : ε) (f : α → Job Op Ans ε β) : (lift (.error e) >>= f) = throw e := rfl

/-! ## Runs -/

section Runs
variable (exec : (op : Op) → φ → σ → Ans op × σ) (may : (op : Op) → φ → σ → Prop)

/-- One job on its own, as far as it got. -/
inductive Goes (job : Job Op Ans ε α) (s : σ) : Job Op Ans ε α → σ → Prop
  | refl : Goes job s job s
  | step {op : Op} {next : Ans op → Job Op Ans ε α} {s' : σ} (w : φ) (h : Goes job s (.call op next) s')
      (hmay : may op w s') : Goes job s (next (exec op w s').1) (exec op w s').2

/-- The first calls of a job, one for each choice. -/
def run : List φ → Job Op Ans ε α → σ → Job Op Ans ε α × σ
  | [], job, s => (job, s)
  | _ :: _, .done r, s => (.done r, s)
  | w :: ws, .call op next, s => run ws (next (exec op w s).1) (exec op w s).2

/-- The whole job, when the environment always makes the same choice. -/
def finish (w : φ) : Job Op Ans ε α → σ → Except ε α × σ
  | .done r, s => (r, s)
  | .call op next, s => finish w (next (exec op w s).1) (exec op w s).2

/-- The whole job, when the environment has one choice for each call. -/
def settle (choose : Op → φ) : Job Op Ans ε α → σ → Except ε α × σ
  | .done r, s => (r, s)
  | .call op next, s => settle choose (next (exec op (choose op) s).1) (exec op (choose op) s).2

variable {exec may}

theorem Goes.trans {job job₁ job₂ : Job Op Ans ε α} {s s₁ s₂ : σ} (h : Goes exec may job s job₁ s₁)
    (h' : Goes exec may job₁ s₁ job₂ s₂) : Goes exec may job s job₂ s₂ := by
  induction h' with
  | refl => exact h
  | step w _ hmay ih => exact .step w ih hmay

/-- A run is nothing, or its first call and the rest. -/
theorem Goes.head {job job' : Job Op Ans ε α} {s s' : σ} (h : Goes exec may job s job' s') :
    (job' = job ∧ s' = s) ∨ ∃ op next w, job = .call op next ∧ may op w s ∧
      Goes exec may (next (exec op w s).1) (exec op w s).2 job' s' := by
  induction h with
  | refl => exact Or.inl ⟨rfl, rfl⟩
  | @step op next s' w h hmay ih =>
    rcases ih with ⟨hjob, rfl⟩ | ⟨op', next', w', rfl, hmay', hrest⟩
    · exact Or.inr ⟨op, next, w, hjob.symm, hmay, .refl⟩
    · exact Or.inr ⟨op', next', w', rfl, hmay', .step w hrest hmay⟩

theorem Goes.of_call {op : Op} (next : Ans op → Job Op Ans ε α) {r : Except ε α} {s s' : σ}
    (h : Goes exec may (.call op next) s (.done r) s') :
    ∃ w, may op w s ∧ Goes exec may (next (exec op w s).1) (exec op w s).2 (.done r) s' := by
  rcases h.head with ⟨hjob, _⟩ | ⟨op', next', w, hjob, hmay, hrest⟩
  · cases hjob
  · cases hjob
    exact ⟨w, hmay, hrest⟩

theorem Goes.of_done {r r' : Except ε α} {s s' : σ} (h : Goes exec may (.done r : Job Op Ans ε α) s (.done r') s') :
    r' = r ∧ s' = s := by
  rcases h.head with ⟨hjob, hs⟩ | ⟨_, _, _, hjob, _⟩
  · cases hjob
    exact ⟨rfl, hs⟩
  · cases hjob

/-- A job that is sequenced ends where its first part does, or goes on there. -/
theorem Goes.of_bind {m : Job Op Ans ε α} {f : α → Job Op Ans ε β} {r : Except ε β} {s s' : σ}
    (h : Goes exec may (m >>= f) s (.done r) s') :
    (∃ e, r = .error e ∧ Goes exec may m s (.done (.error e)) s') ∨
      ∃ a s₁, Goes exec may m s (.done (.ok a)) s₁ ∧ Goes exec may (f a) s₁ (.done r) s' := by
  induction m generalizing s with
  | done q =>
    cases q with
    | error e =>
      obtain ⟨hr, rfl⟩ := Goes.of_done h
      exact Or.inl ⟨e, hr, .refl⟩
    | ok a => exact Or.inr ⟨a, s, .refl, h⟩
  | call op next ih =>
    obtain ⟨w, hmay, hrest⟩ := Goes.of_call (fun a => Job.bind f (next a)) h
    have hstep : Goes exec may (.call op next) s (next (exec op w s).1) (exec op w s).2 := .step w .refl hmay
    rcases ih _ hrest with ⟨e, hr, hgo⟩ | ⟨a, s₁, hgo, hf⟩
    · exact Or.inl ⟨e, hr, hstep.trans hgo⟩
    · exact Or.inr ⟨a, s₁, hstep.trans hgo, hf⟩

theorem Goes.of_attempt {m : Job Op Ans ε α} {r : Except ε (Except ε α)} {s s' : σ}
    (h : Goes exec may (attempt m) s (.done r) s') : ∃ q, r = .ok q ∧ Goes exec may m s (.done q) s' := by
  induction m generalizing s with
  | done q =>
    obtain ⟨hr, rfl⟩ := Goes.of_done h
    exact ⟨q, hr, .refl⟩
  | call op next ih =>
    obtain ⟨w, hmay, hrest⟩ := Goes.of_call (fun a => attempt (next a)) h
    obtain ⟨q, hr, hgo⟩ := ih _ hrest
    exact ⟨q, hr, Goes.trans (.step w .refl hmay) hgo⟩

/-- One call, seen from its answer. -/
theorem Goes.of_ask (op : Op) {r : Except ε (Ans op)} {s s' : σ}
    (h : Goes exec may (ask op : Job Op Ans ε (Ans op)) s (.done r) s') :
    ∃ w, may op w s ∧ r = .ok (exec op w s).1 ∧ s' = (exec op w s).2 := by
  obtain ⟨w, hmay, hrest⟩ := Goes.of_call (fun a => .done (.ok a)) h
  obtain ⟨hr, hs⟩ := Goes.of_done hrest
  exact ⟨w, hmay, hr, hs⟩

theorem goes_run (ws : List φ) (hmay : ∀ op s, ∀ w ∈ ws, may op w s) (job : Job Op Ans ε α) (s : σ) :
    Goes exec may job s (run exec ws job s).1 (run exec ws job s).2 := by
  induction ws generalizing job s with
  | nil => exact .refl
  | cons w ws ih =>
    cases job with
    | done r => exact .refl
    | call op next =>
      have hrest := ih (fun op s v hv => hmay op s v (List.mem_cons_of_mem _ hv)) (next (exec op w s).1) (exec op w s).2
      exact Goes.trans (.step w .refl (hmay op s w (List.mem_cons_self ..))) hrest

theorem finish_bind (w : φ) (m : Job Op Ans ε α) (f : α → Job Op Ans ε β) (s : σ) :
    finish exec w (m >>= f) s = match finish exec w m s with
      | (.ok a, s') => finish exec w (f a) s'
      | (.error e, s') => (.error e, s') := by
  show finish exec w (bind f m) s = _
  induction m generalizing s with
  | done r => cases r <;> rfl
  | call op next ih => exact ih _ _

theorem goes_finish {w : φ} (hmay : ∀ op s, may op w s) (job : Job Op Ans ε α) (s : σ) :
    Goes exec may job s (.done (finish exec w job s).1) (finish exec w job s).2 := by
  induction job generalizing s with
  | done r => exact .refl
  | call op next ih => exact Goes.trans (.step w .refl (hmay op s)) (ih _ _)

theorem goes_settle {choose : Op → φ} (hmay : ∀ op s, may op (choose op) s) (job : Job Op Ans ε α) (s : σ) :
    Goes exec may job s (.done (settle exec choose job s).1) (settle exec choose job s).2 := by
  induction job generalizing s with
  | done r => exact .refl
  | call op next ih => exact Goes.trans (.step (choose op) .refl (hmay op s)) (ih _ _)

/-- A run that ends, found by making its calls. -/
theorem goes_of_run {ws : List φ} (hmay : ∀ op s, ∀ w ∈ ws, may op w s) {job : Job Op Ans ε α} {s : σ} {r : Except ε α}
    (h : (run exec ws job s).1.result = some r) : Goes exec may job s (.done r) (run exec ws job s).2 := by
  have hgo := @goes_run _ _ _ _ _ _ exec may ws hmay job s
  rw [result_eq_some.mp h] at hgo
  exact hgo

end Runs

section Pool
variable [DecidableEq ι] (exec : ι → (op : Op) → φ → σ → Ans op × σ) (may : ι → (op : Op) → φ → σ → Prop)

/-- Many jobs on one state, in any order. -/
inductive Runs (pool : ι → Job Op Ans ε α) (s : σ) : (ι → Job Op Ans ε α) → σ → Prop
  | refl : Runs pool s pool s
  | step {pool' : ι → Job Op Ans ε α} {s' : σ} {op : Op} {next : Ans op → Job Op Ans ε α} (i : ι) (w : φ)
      (h : Runs pool s pool' s') (hcall : pool' i = .call op next) (hmay : may i op w s') :
      Runs pool s (Function.update pool' i (next (exec i op w s').1)) (exec i op w s').2

/-- The call of the job `i` that is next, if it has one. -/
def turn (i : ι) (w : φ) (pool : ι → Job Op Ans ε α) (s : σ) : (ι → Job Op Ans ε α) × σ :=
  match pool i with
  | .done _ => (pool, s)
  | .call op next => (Function.update pool i (next (exec i op w s).1), (exec i op w s).2)

/-- The calls in the order given. -/
def play : List (ι × φ) → (ι → Job Op Ans ε α) → σ → (ι → Job Op Ans ε α) × σ
  | [], pool, s => (pool, s)
  | (i, w) :: rest, pool, s => play rest (turn exec i w pool s).1 (turn exec i w pool s).2

/-- The calls in the order given, as long as each passes the check. -/
def playIf (check : ι → (op : Op) → φ → σ → Bool) : List (ι × φ) → (ι → Job Op Ans ε α) → σ →
    Option ((ι → Job Op Ans ε α) × σ)
  | [], pool, s => some (pool, s)
  | (i, w) :: rest, pool, s => match pool i with
    | .done _ => playIf check rest pool s
    | .call op next => if check i op w s then
        playIf check rest (Function.update pool i (next (exec i op w s).1)) (exec i op w s).2
      else none

variable {exec may}

theorem Runs.trans {pool pool₁ pool₂ : ι → Job Op Ans ε α} {s s₁ s₂ : σ} (h : Runs exec may pool s pool₁ s₁)
    (h' : Runs exec may pool₁ s₁ pool₂ s₂) : Runs exec may pool s pool₂ s₂ := by
  induction h' with
  | refl => exact h
  | step i w _ hcall hmay ih => exact .step i w ih hcall hmay

theorem runs_turn (hmay : ∀ i op w s, may i op w s) (i : ι) (w : φ) (pool : ι → Job Op Ans ε α) (s : σ) :
    Runs exec may pool s (turn exec i w pool s).1 (turn exec i w pool s).2 := by
  unfold turn
  split
  · exact .refl
  · rename_i op next hcall
    exact .step i w .refl hcall (hmay i op w s)

theorem runs_play (hmay : ∀ i op w s, may i op w s) (moves : List (ι × φ)) (pool : ι → Job Op Ans ε α) (s : σ) :
    Runs exec may pool s (play exec moves pool s).1 (play exec moves pool s).2 := by
  induction moves generalizing pool s with
  | nil => exact .refl
  | cons move moves ih => exact (runs_turn hmay move.1 move.2 pool s).trans (ih _ _)

theorem runs_playIf {check : ι → (op : Op) → φ → σ → Bool} (hcheck : ∀ i op w s, check i op w s = true → may i op w s)
    (moves : List (ι × φ)) {pool : ι → Job Op Ans ε α} {s : σ} {r : (ι → Job Op Ans ε α) × σ}
    (h : playIf exec check moves pool s = some r) : Runs exec may pool s r.1 r.2 := by
  induction moves generalizing pool s with
  | nil =>
    cases h
    exact .refl
  | cons move rest ih =>
    obtain ⟨i, w⟩ := move
    unfold playIf at h
    split at h
    · exact ih h
    · rename_i op next hcall
      split at h
      · rename_i hok
        exact Runs.trans (.step i w .refl hcall (hcheck i op w s hok)) (ih h)
      · cases h

end Pool

/-! ## Results

What is true of every result, whatever the calls are answered with. -/

def Yields (T : α → Prop) : Job Op Ans ε α → Prop
  | .done (.ok a) => T a
  | .done (.error _) => True
  | .call _ next => ∀ a, Yields T (next a)

section Yields
variable {T : α → Prop} {U : β → Prop}

theorem yields_pure {a : α} (h : T a) : Yields T (pure a : Job Op Ans ε α) := h

theorem yields_throw (e : ε) : Yields T (throw e : Job Op Ans ε α) := trivial

theorem yields_true (job : Job Op Ans ε α) : Yields (fun _ => True) job := by
  induction job with
  | done r => cases r <;> trivial
  | call op next ih => exact ih

theorem yields_lift {r : Except ε α} (h : ∀ a, r = .ok a → T a) : Yields T (lift r : Job Op Ans ε α) := by
  cases r with
  | error e => trivial
  | ok a => exact h a rfl

theorem Yields.bind {m : Job Op Ans ε α} {f : α → Job Op Ans ε β} (hm : Yields T m) (hf : ∀ a, T a → Yields U (f a)) :
    Yields U (m >>= f) := by
  show Yields U (Job.bind f m)
  induction m with
  | done r =>
    cases r with
    | error e => trivial
    | ok a => exact hf a hm
  | call op next ih => exact fun a => ih a (hm a)

theorem Yields.imp {T' : α → Prop} {job : Job Op Ans ε α} (h : Yields T job) (hT : ∀ a, T a → T' a) :
    Yields T' job := by
  induction job with
  | done r =>
    cases r with
    | error e => trivial
    | ok a => exact hT a h
  | call op next ih => exact fun a => ih a (h a)

/-- Two continuations that agree on the results that come. -/
theorem bind_congr {m : Job Op Ans ε α} {f g : α → Job Op Ans ε β} (hm : Yields T m) (h : ∀ a, T a → f a = g a) :
    (m >>= f) = (m >>= g) := by
  show Job.bind f m = Job.bind g m
  induction m with
  | done r =>
    cases r with
    | error e => rfl
    | ok a => exact h a hm
  | call op next ih => exact congrArg (Job.call op) (funext fun a => ih a (hm a))

/-- A first part of which the result does not matter. -/
theorem yields_seq {m : Job Op Ans ε α} {f : α → Job Op Ans ε β} (hf : ∀ a, Yields U (f a)) : Yields U (m >>= f) :=
  (yields_true m).bind fun a _ => hf a

theorem Yields.attempt {m : Job Op Ans ε α} (hm : Yields T m) : Yields (fun r => ∀ a, r = .ok a → T a) (attempt m) := by
  induction m with
  | done r =>
    cases r with
    | error e => exact nofun
    | ok a =>
      intro b hb
      cases hb
      exact hm
  | call op next ih => exact fun a => ih a (hm a)

theorem yields_collect {T : α → β → Prop} {f : α → Job Op Ans ε β} (as : List α) (h : ∀ a ∈ as, Yields (T a) (f a)) :
    Yields (fun bs => List.Forall₂ T as bs) (collect f as) := by
  induction as with
  | nil => exact .nil
  | cons a as ih =>
    refine (h a (List.mem_cons_self ..)).bind fun b hb => ?_
    refine (ih fun a' ha => h a' (List.mem_cons_of_mem _ ha)).bind fun bs hbs => ?_
    exact .cons hb hbs

theorem Goes.yields {exec : (op : Op) → φ → σ → Ans op × σ} {may : (op : Op) → φ → σ → Prop} {job : Job Op Ans ε α}
    {s s' : σ} {a : α} (h : Goes exec may job s (.done (.ok a)) s') (hT : Yields T job) : T a := by
  have hend : ∀ job' s', Goes exec may job s job' s' → Yields T job' := by
    intro job' s' h
    induction h with
    | refl => exact hT
    | step w _ _ ih => exact ih _
  exact hend _ _ h

end Yields

/-! ## Calls

What is true of every call, whatever those before it are answered with. -/

def Asks (C : Op → Prop) : Job Op Ans ε α → Prop
  | .done _ => True
  | .call op next => C op ∧ ∀ a, Asks C (next a)

section Asks
variable {C : Op → Prop}

theorem Asks.bind {m : Job Op Ans ε α} {f : α → Job Op Ans ε β} (hm : Asks C m) (hf : ∀ a, Asks C (f a)) :
    Asks C (m >>= f) := by
  show Asks C (Job.bind f m)
  induction m with
  | done r =>
    cases r with
    | error e => trivial
    | ok a => exact hf a
  | call op next ih => exact ⟨hm.1, fun a => ih a (hm.2 a)⟩

/-- The rest has to be looked at for the results only that come. -/
theorem Asks.bind_yields {T : α → Prop} {m : Job Op Ans ε α} {f : α → Job Op Ans ε β} (hm : Asks C m) (hT : Yields T m)
    (hf : ∀ a, T a → Asks C (f a)) : Asks C (m >>= f) := by
  show Asks C (Job.bind f m)
  induction m with
  | done r =>
    cases r with
    | error e => trivial
    | ok a => exact hf a hT
  | call op next ih => exact ⟨hm.1, fun a => ih a (hm.2 a) (hT a)⟩

theorem Asks.imp {C' : Op → Prop} {job : Job Op Ans ε α} (h : Asks C job) (hC : ∀ op, C op → C' op) : Asks C' job := by
  induction job with
  | done r => trivial
  | call op next ih => exact ⟨hC op h.1, fun a => ih a (h.2 a)⟩

theorem asks_true (job : Job Op Ans ε α) : Asks (fun _ => True) job := by
  induction job with
  | done r => trivial
  | call op next ih => exact ⟨trivial, ih⟩

theorem asks_ask {op : Op} (h : C op) : Asks C (ask op : Job Op Ans ε (Ans op)) := ⟨h, fun _ => trivial⟩

theorem asks_forM {f : α → Job Op Ans ε PUnit} (as : List α) (h : ∀ a, Asks C (f a)) : Asks C (as.forM f) := by
  induction as with
  | nil => trivial
  | cons a as ih => exact (h a).bind fun _ => ih

theorem Asks.attempt {job : Job Op Ans ε α} (h : Asks C job) : Asks C (attempt job) := by
  induction job with
  | done r => trivial
  | call op next ih => exact ⟨h.1, fun a => ih a (h.2 a)⟩

/-- A run in one environment is a run in another one that does the same with the calls of the job. -/
theorem Goes.within {exec : (op : Op) → φ → σ → Ans op × σ} {may may' : (op : Op) → φ → σ → Prop}
    {job job' : Job Op Ans ε α} {s s' : σ} (h : Goes exec may job s job' s') (hjob : Asks C job)
    (hmay : ∀ op w s, C op → may op w s → may' op w s) : Goes exec may' job s job' s' := by
  have hboth : Goes exec may' job s job' s' ∧ Asks C job' := by
    induction h with
    | refl => exact ⟨.refl, hjob⟩
    | step w _ hw ih => exact ⟨.step w ih.1 (hmay _ _ _ ih.2.1 hw), ih.2.2 _⟩
  exact hboth.1

end Asks

/-! ## Rely and guarantee -/

section Safe
variable (exec : (op : Op) → φ → σ → Ans op × σ) (may : (op : Op) → φ → σ → Prop) (R G : σ → σ → Prop)

def Safe (Q : Except ε α → σ → Prop) : Job Op Ans ε α → σ → Prop
  | .done r, s => ∀ s', R s s' → Q r s'
  | .call op next, s => ∀ s', R s s' → ∀ w, may op w s' →
      G s' (exec op w s').2 ∧ Safe Q (next (exec op w s').1) (exec op w s').2

variable {exec may R G} {Q Q' : Except ε α → σ → Prop}

theorem Safe.imp {R' G' : σ → σ → Prop} {may' : (op : Op) → φ → σ → Prop} (hR : ∀ s s', R' s s' → R s s')
    (hmay : ∀ op w s, may' op w s → may op w s) (hG : ∀ s s', G s s' → G' s s') (hQ : ∀ r s, Q r s → Q' r s)
    {job : Job Op Ans ε α} {s : σ} (h : Safe exec may R G Q job s) : Safe exec may' R' G' Q' job s := by
  induction job generalizing s with
  | done r => exact fun s' hs => hQ r s' (h s' (hR s s' hs))
  | call op next ih =>
    intro s' hs w hw
    obtain ⟨hg, hnext⟩ := h s' (hR s s' hs) w (hmay op w s' hw)
    exact ⟨hG _ _ hg, ih _ hnext⟩

theorem Safe.post (h : ∀ r s, Q r s → Q' r s) {job : Job Op Ans ε α} {s : σ} (hsafe : Safe exec may R G Q job s) :
    Safe exec may R G Q' job s :=
  hsafe.imp (fun _ _ hR => hR) (fun _ _ _ hmay => hmay) (fun _ _ hG => hG) h

/-- What the others do does not hurt. -/
theorem Safe.rely (htrans : ∀ a b c, R a b → R b c → R a c) {job : Job Op Ans ε α} {s s' : σ}
    (h : Safe exec may R G Q job s) (hs : R s s') : Safe exec may R G Q job s' := by
  cases job with
  | done r => exact fun s'' hs' => h s'' (htrans _ _ _ hs hs')
  | call op next => exact fun s'' hs' => h s'' (htrans _ _ _ hs hs')

theorem Safe.bind (hrefl : ∀ s, R s s) {m : Job Op Ans ε α} {f : α → Job Op Ans ε β} {Q : Except ε β → σ → Prop} {s : σ}
    (h : Safe exec may R G (fun r s => match r with
      | .ok a => Safe exec may R G Q (f a) s
      | .error e => Q (.error e) s) m s) : Safe exec may R G Q (m >>= f) s := by
  show Safe exec may R G Q (Job.bind f m) s
  induction m generalizing s with
  | done r =>
    cases r with
    | error e => exact h
    | ok a => exact h s (hrefl s)
  | call op next ih =>
    intro s' hs w hw
    obtain ⟨hg, hnext⟩ := h s' hs w hw
    exact ⟨hg, ih _ hnext⟩

theorem Safe.attempt {m : Job Op Ans ε α} {Q : Except ε (Except ε α) → σ → Prop} {s : σ}
    (h : Safe exec may R G (fun r => Q (.ok r)) m s) : Safe exec may R G Q (attempt m) s := by
  induction m generalizing s with
  | done r => exact h
  | call op next ih =>
    intro s' hs w hw
    obtain ⟨hg, hnext⟩ := h s' hs w hw
    exact ⟨hg, ih _ hnext⟩

/-- A job on its own stays safe, and moves only as it guarantees. -/
theorem Goes.safe (hrefl : ∀ s, R s s) {I : σ → Prop} (hI : ∀ s s', G s s' → I s → I s')
    {job job' : Job Op Ans ε α} {s s' : σ} (h : Goes exec may job s job' s') (hsafe : Safe exec may R G Q job s)
    (hs : I s) : Safe exec may R G Q job' s' ∧ I s' := by
  induction h with
  | refl => exact ⟨hsafe, hs⟩
  | step w _ hmay ih =>
    obtain ⟨hg, hnext⟩ := ih.1 _ (hrefl _) w hmay
    exact ⟨hnext, hI _ _ hg ih.2⟩

/-- What a run that ends leaves. -/
theorem Goes.post (hrefl : ∀ s, R s s) {job : Job Op Ans ε α} {s s' : σ} {r : Except ε α}
    (h : Goes exec may job s (.done r) s') (hsafe : Safe exec may R G Q job s) : Q r s' :=
  (h.safe hrefl (I := fun _ => True) (fun _ _ _ _ => trivial) hsafe trivial).1 s' (hrefl s')

/-- Wherever the job is cut off, `W` holds. -/
def Always (exec : (op : Op) → φ → σ → Ans op × σ) (may : (op : Op) → φ → σ → Prop) (W : σ → Prop)
    (job : Job Op Ans ε α) (s : σ) : Prop :=
  ∀ job' s', Goes exec may job s job' s' → W s'

theorem Always.now {W : σ → Prop} {job : Job Op Ans ε α} {s : σ} (h : Always exec may W job s) : W s := h _ _ .refl

theorem Always.ask {W : σ → Prop} {op : Op} {f : Ans op → Job Op Ans ε α} {s : σ}
    (h : Always exec may W (ask op >>= f) s)
    {w : φ} (hmay : may op w s) : Always exec may W (f (exec op w s).1) (exec op w s).2 :=
  fun job' s' hgo => h job' s' (Goes.trans (.step w .refl hmay) hgo)

theorem Safe.always (hrefl : ∀ s, R s s) {W : σ → Prop} (hW : ∀ s s', G s s' → W s → W s') {job : Job Op Ans ε α}
    {s : σ} (hsafe : Safe exec may R G Q job s) (hs : W s) : Always exec may W job s :=
  fun _ _ hgo => (hgo.safe hrefl hW hsafe hs).2

end Safe

section Pool
variable [DecidableEq ι] {exec : ι → (op : Op) → φ → σ → Ans op × σ} {may : ι → (op : Op) → φ → σ → Prop}
  {R G : ι → σ → σ → Prop} {Q : ι → Except ε α → σ → Prop}

/-- Jobs that each are safe stay so together, if what one guarantees is what the others rely on. -/
theorem Runs.safe (htrans : ∀ i a b c, R i a b → R i b c → R i a c) (hrefl : ∀ i s, R i s s)
    (hGR : ∀ i j s s', i ≠ j → G i s s' → R j s s') {I : σ → Prop} (hI : ∀ i s s', G i s s' → I s → I s')
    {pool pool' : ι → Job Op Ans ε α} {s s' : σ} (h : Runs exec may pool s pool' s')
    (hsafe : ∀ i, Safe (exec i) (may i) (R i) (G i) (Q i) (pool i) s) (hs : I s) :
    (∀ i, Safe (exec i) (may i) (R i) (G i) (Q i) (pool' i) s') ∧ I s' := by
  induction h with
  | refl => exact ⟨hsafe, hs⟩
  | @step pool' s' op next i w _ hcall hmay ih =>
    have hi := ih.1 i
    rw [hcall] at hi
    obtain ⟨hg, hnext⟩ := hi s' (hrefl i s') w hmay
    refine ⟨fun j => ?_, hI i _ _ hg ih.2⟩
    by_cases hj : j = i
    · subst hj
      rw [Function.update_self]
      exact hnext
    · rw [Function.update_of_ne hj]
      exact (ih.1 j).rely (htrans j) (hGR i j _ _ (Ne.symm hj) hg)

end Pool

/-! ## Specifications -/

section Spec
variable (exec : (op : Op) → φ → σ → Ans op × σ) (may : (op : Op) → φ → σ → Prop) (R G : σ → σ → Prop)

/-- From `P`, a job is safe and ends with `Q`, or with `E` when it fails. -/
def Spec (P : σ → Prop) (job : Job Op Ans ε α) (Q : α → σ → Prop) (E : ε → σ → Prop) : Prop :=
  ∀ s, P s → Safe exec may R G (fun r s => match r with
    | .ok a => Q a s
    | .error e => E e s) job s

/-- What the others do keeps `P`. -/
def Stable (P : σ → Prop) : Prop := ∀ s s', P s → R s s' → P s'

variable {exec may R G} {P P' : σ → Prop} {Q Q' : α → σ → Prop} {E E' : ε → σ → Prop}

theorem Spec.conseq {job : Job Op Ans ε α} (h : Spec exec may R G P job Q E) (hP : ∀ s, P' s → P s)
    (hQ : ∀ a s, Q a s → Q' a s) (hE : ∀ e s, E e s → E' e s) : Spec exec may R G P' job Q' E' := by
  intro s hs
  refine (h s (hP s hs)).post fun r s' hr => ?_
  cases r with
  | ok a => exact hQ a s' hr
  | error e => exact hE e s' hr

theorem Spec.pre {job : Job Op Ans ε α} (h : Spec exec may R G P job Q E) (hP : ∀ s, P' s → P s) :
    Spec exec may R G P' job Q E :=
  h.conseq hP (fun _ _ hq => hq) fun _ _ he => he

theorem Spec.pure {a : α} (hstable : Stable R P) (h : ∀ s, P s → Q a s) :
    Spec exec may R G P (pure a : Job Op Ans ε α) Q E :=
  fun s hs s' hR => h s' (hstable s s' hs hR)

theorem Spec.throw {e : ε} (hstable : Stable R P) (h : ∀ s, P s → E e s) :
    Spec exec may R G P (throw e : Job Op Ans ε α) Q E :=
  fun s hs s' hR => h s' (hstable s s' hs hR)

theorem Spec.lift {r : Except ε α} (hstable : Stable R P) (hQ : ∀ a s, P s → r = .ok a → Q a s)
    (hE : ∀ e s, P s → r = .error e → E e s) : Spec exec may R G P (lift r : Job Op Ans ε α) Q E := by
  cases r with
  | ok a => exact fun s hs s' hR => hQ a s' (hstable s s' hs hR) rfl
  | error e => exact fun s hs s' hR => hE e s' (hstable s s' hs hR) rfl

/-- One call: it moves as guaranteed, and its answer fits what holds after it. -/
theorem Spec.ask {op : Op} {Q : Ans op → σ → Prop} (hstable : Stable R P) (hQ : ∀ a, Stable R (Q a))
    (h : ∀ s w, P s → may op w s → G s (exec op w s).2 ∧ Q (exec op w s).1 (exec op w s).2) :
    Spec exec may R G P (ask op : Job Op Ans ε (Ans op)) Q E := by
  intro s hs s' hR w hw
  obtain ⟨hg, hq⟩ := h s' w (hstable s s' hs hR) hw
  exact ⟨hg, fun s'' hR' => hQ _ _ _ hq hR'⟩

theorem Spec.bind (hrefl : ∀ s, R s s) {S : β → σ → Prop} {m : Job Op Ans ε α} {f : α → Job Op Ans ε β}
    (hm : Spec exec may R G P m Q E) (hf : ∀ a, Spec exec may R G (Q a) (f a) S E) :
    Spec exec may R G P (m >>= f) S E := by
  intro s hs
  refine Safe.bind hrefl ((hm s hs).post fun r s' hr => ?_)
  cases r with
  | ok a => exact hf a s' hr
  | error e => exact hr

theorem Spec.attempt {m : Job Op Ans ε α} {Q : Except ε α → σ → Prop}
    (h : Spec exec may R G P m (fun a => Q (.ok a)) fun e => Q (.error e)) :
    Spec exec may R G P (attempt m) Q E := by
  intro s hs
  refine Safe.attempt ((h s hs).post fun r s' hr => ?_)
  cases r <;> exact hr

/-- What is true of every result may be added to what a job ends with. -/
theorem Spec.yields {T : α → Prop} {job : Job Op Ans ε α} (h : Spec exec may R G P job Q E) (hT : Yields T job) :
    Spec exec may R G P job (fun a s => Q a s ∧ T a) E := by
  intro s hs
  have hsafe := h s hs
  clear h hs
  induction job generalizing s with
  | done r =>
    intro s' hR
    have hend := hsafe s' hR
    cases r with
    | error e => exact hend
    | ok a => exact ⟨hend, hT⟩
  | call op next ih =>
    intro s' hR w hw
    obtain ⟨hg, hnext⟩ := hsafe s' hR w hw
    exact ⟨hg, ih _ (hT _) _ hnext⟩

/-- A loop over a list, with an invariant that may look at what is left to do. -/
theorem Spec.forM (hrefl : ∀ s, R s s) {J : List α → σ → Prop} {f : α → Job Op Ans ε PUnit}
    (hstable : Stable R (J [])) (as : List α)
    (hstep : ∀ a rest, Spec exec may R G (J (a :: rest)) (f a) (fun _ => J rest) E) :
    Spec exec may R G (J as) (as.forM f) (fun _ => J []) E := by
  induction as with
  | nil => exact Spec.pure hstable fun _ hs => hs
  | cons a rest ih => exact Spec.bind hrefl (hstep a rest) fun _ => ih

end Spec

/-! ## One job on its own -/

section Keeps
variable (exec : (op : Op) → φ → σ → Ans op × σ) (may : (op : Op) → φ → σ → Prop) (W : σ → Prop)

/-- From `P`, `W` holds after every call, and the end satisfies `Q`, or `E` when the job fails. -/
def Keeps (P : σ → Prop) (job : Job Op Ans ε α) (Q : α → σ → Prop) (E : ε → σ → Prop) : Prop :=
  Spec exec may Eq (fun _ s' => W s') P job Q E

variable {exec may W} {P P' : σ → Prop} {Q Q' : α → σ → Prop} {E E' : ε → σ → Prop}

theorem stable_eq (P : σ → Prop) : Stable Eq P := fun _ _ hs h => h ▸ hs

theorem Keeps.conseq {job : Job Op Ans ε α} (h : Keeps exec may W P job Q E) (hP : ∀ s, P' s → P s)
    (hQ : ∀ a s, Q a s → Q' a s) (hE : ∀ e s, E e s → E' e s) : Keeps exec may W P' job Q' E' :=
  Spec.conseq h hP hQ hE

theorem Keeps.pre {job : Job Op Ans ε α} (h : Keeps exec may W P job Q E) (hP : ∀ s, P' s → P s) :
    Keeps exec may W P' job Q E :=
  Spec.pre h hP

theorem Keeps.pure {a : α} (h : ∀ s, P s → Q a s) : Keeps exec may W P (pure a : Job Op Ans ε α) Q E :=
  Spec.pure (stable_eq P) h

theorem Keeps.throw {e : ε} (h : ∀ s, P s → E e s) : Keeps exec may W P (throw e : Job Op Ans ε α) Q E :=
  Spec.throw (stable_eq P) h

theorem Keeps.ask {op : Op} {Q : Ans op → σ → Prop}
    (h : ∀ s w, P s → may op w s → W (exec op w s).2 ∧ Q (exec op w s).1 (exec op w s).2) :
    Keeps exec may W P (ask op : Job Op Ans ε (Ans op)) Q E :=
  Spec.ask (stable_eq P) (fun _ => stable_eq _) h

theorem Keeps.lift {r : Except ε α} (hQ : ∀ a s, P s → r = .ok a → Q a s) (hE : ∀ e s, P s → r = .error e → E e s) :
    Keeps exec may W P (lift r : Job Op Ans ε α) Q E :=
  Spec.lift (stable_eq P) hQ hE

theorem Keeps.bind {S : β → σ → Prop} {m : Job Op Ans ε α} {f : α → Job Op Ans ε β} (hm : Keeps exec may W P m Q E)
    (hf : ∀ a, Keeps exec may W (Q a) (f a) S E) : Keeps exec may W P (m >>= f) S E :=
  Spec.bind (fun _ => rfl) hm hf

theorem Keeps.attempt {m : Job Op Ans ε α} {Q : Except ε α → σ → Prop}
    (h : Keeps exec may W P m (fun a => Q (.ok a)) fun e => Q (.error e)) : Keeps exec may W P (attempt m) Q E :=
  Spec.attempt h

theorem Keeps.forM {J : List α → σ → Prop} {f : α → Job Op Ans ε PUnit} (as : List α)
    (hstep : ∀ a rest, Keeps exec may W (J (a :: rest)) (f a) (fun _ => J rest) E) :
    Keeps exec may W (J as) (as.forM f) (fun _ => J []) E :=
  Spec.forM (fun _ => rfl) (stable_eq _) as hstep

/-- The same from each state apart. -/
theorem Keeps.each {job : Job Op Ans ε α} (h : ∀ s, P s → Keeps exec may W (· = s) job Q E) :
    Keeps exec may W P job Q E :=
  fun s hs => h s hs s rfl

/-- A job for every element that leaves the state as it is: what is known of each result. -/
theorem Keeps.collect {T : α → β → Prop} {f : α → Job Op Ans ε β} (as : List α)
    (hstep : ∀ a, Keeps exec may W P (f a) (fun b s => P s ∧ T a b) E) :
    Keeps exec may W P (collect f as) (fun bs s => P s ∧ List.Forall₂ T as bs) E := by
  induction as with
  | nil => exact Keeps.pure fun _ hs => ⟨hs, .nil⟩
  | cons a as ih =>
    refine Keeps.bind (hstep a) fun b => Keeps.each fun s hb => ?_
    refine Keeps.bind (ih.pre fun _ hs => hs ▸ hb.1) fun bs => ?_
    exact Keeps.pure fun _ hbs => ⟨hbs.1, .cons hb.2 hbs.2⟩

theorem Keeps.widen {W' : σ → Prop} {job : Job Op Ans ε α} (h : Keeps exec may W P job Q E) (hW : ∀ s, W s → W' s) :
    Keeps exec may W' P job Q E :=
  fun s hs => (h s hs).imp (fun _ _ hR => hR) (fun _ _ _ hmay => hmay) (fun _ _ hG => hW _ hG) fun _ _ hQ => hQ

/-- The same in an environment that does no more with the calls of the job. -/
theorem Keeps.within {may' : (op : Op) → φ → σ → Prop} {C : Op → Prop} {job : Job Op Ans ε α}
    (h : Keeps exec may W P job Q E) (hjob : Asks C job) (hmay : ∀ op w s, C op → may' op w s → may op w s) :
    Keeps exec may' W P job Q E := by
  intro s hs
  have hsafe := h s hs
  clear h hs
  induction job generalizing s with
  | done r => exact hsafe
  | call op next ih =>
    intro s' hR w hw
    obtain ⟨hg, hnext⟩ := hsafe s' hR w (hmay op w s' hjob.1 hw)
    exact ⟨hg, ih _ (hjob.2 _) _ hnext⟩

/-- What no call of the job changes may be added everywhere. -/
theorem Keeps.frame {I : σ → Prop} {C : Op → Prop} {job : Job Op Ans ε α} (h : Keeps exec may W P job Q E)
    (hjob : Asks C job) (hI : ∀ op w s, C op → may op w s → I s → I (exec op w s).2) :
    Keeps exec may (fun s => W s ∧ I s) (fun s => P s ∧ I s) job (fun a s => Q a s ∧ I s) fun e s => E e s ∧ I s := by
  rintro s ⟨hs, hframe⟩
  have hsafe := h s hs
  clear h hs
  induction job generalizing s with
  | done r =>
    rintro s' rfl
    have hend := hsafe s rfl
    cases r with
    | ok a => exact ⟨hend, hframe⟩
    | error e => exact ⟨hend, hframe⟩
  | call op next ih =>
    rintro s' rfl w hw
    obtain ⟨hg, hnext⟩ := hsafe s rfl w hw
    have hframe' := hI op w s hjob.1 hw hframe
    exact ⟨⟨hg, hframe'⟩, ih _ (hjob.2 _) _ hframe' hnext⟩

/-- Wherever the job is cut off, `W` holds. -/
theorem Keeps.always {job : Job Op Ans ε α} (h : Keeps exec may W P job Q E) {s : σ} (hs : P s) (hW : W s) :
    Always exec may W job s :=
  fun _ _ hgo => (hgo.safe (fun _ => rfl) (I := W) (fun _ _ hG _ => hG) (h s hs) hW).2

/-- What a run that returns leaves. -/
theorem Keeps.ok {job : Job Op Ans ε α} (h : Keeps exec may W P job Q E) {s s' : σ} (hs : P s) {a : α}
    (hgo : Goes exec may job s (.done (.ok a)) s') : Q a s' :=
  hgo.post (fun _ => rfl) (h s hs)

/-- What a run that fails leaves. -/
theorem Keeps.failed {job : Job Op Ans ε α} (h : Keeps exec may W P job Q E) {s s' : σ} (hs : P s) {e : ε}
    (hgo : Goes exec may job s (.done (.error e)) s') : E e s' :=
  hgo.post (fun _ => rfl) (h s hs)

end Keeps

end Job
end Collocate
