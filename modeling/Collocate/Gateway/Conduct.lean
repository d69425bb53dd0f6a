import Collocate.Gateway.Framing

/-! # When the threads of the gateway make which calls

`Fit` says what must have happened when a thread makes a call: it lets itself in and out once, takes up requests where
they begin, counts a failed enrollment after it passed the check, stores a caller that the daemon has named, and hands
the daemon only requests of a caller that was vouched for. Every call of every thread is fit, whatever the other
threads do meanwhile. -/
namespace Collocate.Gateway
set_option autoImplicit false
open Remote

variable {ι : Type}

/-! ## What has happened -/

section Trace
variable [DecidableEq ι]

def Event.inside (S : Finset ι) : Event ι → Finset ι
  | .entered i before => if before < maxConnections then insert i S else S
  | .left i => S.erase i
  | _ => S

/-- The connections that were let in and have not left. -/
def inside : List (Event ι) → Finset ι
  | [] => ∅
  | e :: trace => e.inside (inside trace)

def Event.refused (S : Finset ι) : Event ι → Finset ι
  | .entered i before => if before < maxConnections then S else insert i S
  | .left i => S.erase i
  | _ => S

/-- The connections that were not let in and have not left. -/
def refused : List (Event ι) → Finset ι
  | [] => ∅
  | e :: trace => e.refused (refused trace)

def Event.trying (ip : IpAddr) (S : Finset ι) : Event ι → Finset ι
  | .checked i from_ => if from_ = ip then insert i S else S
  | .failed i from_ _ => if from_ = ip then S.erase i else S
  | .left i => S.erase i
  | _ => S

/-- The connections that may try a token of an address, until it fails. -/
def trying (ip : IpAddr) : List (Event ι) → Finset ι
  | [] => ∅
  | e :: trace => e.trying ip (trying ip trace)

def Event.since (i : ι) (t : Instant) : Event ι → Instant
  | .arrived j _ at_ => if j = i then at_ else t
  | _ => t

/-- When the request of a connection has come. -/
def since (i : ι) : List (Event ι) → Instant
  | [] => 0
  | e :: trace => e.since i (since i trace)

def Event.requests (i : ι) (rs : List Received) : Event ι → List Received
  | .arrived j r _ => if j = i then r :: rs else rs
  | _ => rs

/-- The requests of a connection, the last first. -/
def requests (i : ι) : List (Event ι) → List Received
  | [] => []
  | e :: trace => e.requests i (requests i trace)

end Trace

/-- The daemon has told a thread whose a certificate is. -/
def Told (codec : Codec) (trace : List (Event ι)) (j : ι) (fingerprint : String) (caller : Caller) (asked : Instant) :
    Prop :=
  ∃ value, Event.called j (.trustLookup fingerprint) (.ok (.json value)) asked ∈ trace ∧
    codec.caller value = some caller

/-- A thread that was told so has stored it. -/
def Kept (codec : Codec) (trace : List (Event ι)) (fingerprint : String) (caller : Caller) (asked kept : Instant) :
    Prop :=
  ∃ j, Told codec trace j fingerprint caller asked ∧ Event.stored j fingerprint (some caller) kept ∈ trace ∧
    asked ≤ kept

/-- A caller stored so that it is not too old for the request of a connection. -/
def Vouched [DecidableEq ι] (codec : Codec) (i : ι) (trace : List (Event ι)) (fingerprint : String) (caller : Caller) :
    Prop :=
  ∃ asked kept, Kept codec trace fingerprint caller asked kept ∧ since i trace < kept + trustTtl

/-- A request that is made for a caller. -/
def Request.behalf : Request → Option Caller
  | .as caller _ => some caller
  | _ => none

section Fit
variable [DecidableEq ι] (codec : Codec) (clients : ι → Client)

/-- The connection has a certificate, and the caller of the request is vouched for by it. -/
def Backed (i : ι) (trace : List (Event ι)) (request : Request) : Prop :=
  ∀ caller, Request.behalf request = some caller →
    ∃ f, (clients i).peer.fingerprint = some f ∧ Vouched codec i trace f caller

def Fit (i : ι) (s : World ι) : Op → Prop
  | .enter => i ∉ inside s.trace ∧ i ∉ refused s.trace
  | .leave => i ∈ inside s.trace ∨ i ∈ refused s.trace
  | .arrived r => (clients i).sent.Faultless →
      InStep codec (clients i).sent.bytes (r :: requests i s.trace) ∨
        Astray codec (clients i).sent.bytes (r :: requests i s.trace)
  | .throttled _ => i ∈ inside s.trace
  | .recordFailure ip => i ∈ trying ip s.trace
  | .store f (some caller) => ∃ asked, asked ≤ s.now ∧ Told codec s.trace i f caller asked
  | .call _ request | .sendWithFds _ request => Backed codec clients i s.trace request
  | _ => True

/-- What the cache holds was stored by a thread that was told so. -/
def Sourced (s : World ι) : Prop :=
  ∀ f caller kept, s.cache f = some (some caller, kept) → ∃ asked, Kept codec s.trace f caller asked kept

/-- A step of the thread `i`. -/
def Acts (i : ι) (s s' : World ι) : Prop :=
  ∃ op w, op ≠ .hang ∧ Fit codec clients i s op ∧ s' = (World.exec i op w s).2

/-- What goes on while the thread `i` stays where it is. -/
structure Stays (i : ι) (s s' : World ι) : Prop where
  trace : s.trace <:+ s'.trace
  now : s.now ≤ s'.now
  inside : i ∈ inside s'.trace ↔ i ∈ inside s.trace
  refused : i ∈ refused s'.trace ↔ i ∈ refused s.trace
  since : since i s'.trace = since i s.trace
  requests : requests i s'.trace = requests i s.trace
  sourced : Sourced codec s → Sourced codec s'

/-- What the others leave to the thread `i`. -/
structure Spares (i : ι) (s s' : World ι) : Prop extends Stays codec i s s' where
  trying : ∀ ip, i ∈ trying ip s.trace → i ∈ trying ip s'.trace

end Fit

/-! ## What a call changes -/

section Steps
variable {codec : Codec} {clients : ι → Client}

/-- The thread that comes or goes, begins a request or has failed. -/
def Event.moves : Event ι → Option ι
  | .entered i _ | .left i | .arrived i _ _ | .failed i _ _ => some i
  | _ => none

/-- What a call adds to the trace. -/
def World.adds (i : ι) (w : Choice) (s : World ι) : Op → List (Event ι)
  | .enter => [.entered i s.active]
  | .leave => [.left i]
  | .arrived r => [.arrived i r s.now]
  | .store f caller => [.stored i f caller s.now]
  | .throttled ip => if enrollFailures ≤ (recent s.now (s.failures ip)).length then [] else [.checked i ip]
  | .recordFailure ip => [.failed i ip s.now]
  | .call _ request => [.called i request w.response s.now]
  | .sendWithFds _ request => [.sent i request s.now]
  | .write out => [.wrote i out s.now]
  | _ => []

theorem exec_now (i : ι) (op : Op) (w : Choice) (s : World ι) : (World.exec i op w s).2.now = s.now + w.delay := by
  cases op with
  | throttled ip =>
    simp only [World.exec, World.answer]
    split <;> rfl
  | _ => rfl

theorem exec_trace (i : ι) (op : Op) (w : Choice) (s : World ι) :
    (World.exec i op w s).2.trace = World.adds i w (World.wait w s) op ++ s.trace := by
  cases op with
  | throttled ip =>
    simp only [World.exec, World.answer, World.adds]
    split <;> rfl
  | _ => rfl

theorem exec_grows (i : ι) (op : Op) (w : Choice) (s : World ι) : s.trace <:+ (World.exec i op w s).2.trace := by
  rw [exec_trace]
  exact List.suffix_append _ _

theorem exec_cache (i : ι) (op : Op) (w : Choice) (s : World ι) (hstore : ∀ f caller, op ≠ .store f caller)
    {f : String} {entry : Option Caller × Instant} (h : (World.exec i op w s).2.cache f = some entry) :
    s.cache f = some entry := by
  cases op with
  | store g caller => exact absurd rfl (hstore g caller)
  | throttled ip =>
    simp only [World.exec, World.answer] at h
    split at h <;> exact h
  | forget g =>
    change Function.update s.cache g none f = some entry at h
    by_cases hf : f = g
    · rw [hf, Function.update_self] at h
      cases h
    · rwa [Function.update_of_ne hf] at h
  | _ => exact h

theorem adds_moves {j : ι} {op : Op} {w : Choice} {s : World ι} {e : Event ι} (he : e ∈ World.adds j w s op) {i : ι}
    (hi : e.moves = some i) : i = j := by
  cases op with
  | throttled ip =>
    change e ∈ if enrollFailures ≤ (World.recent s.now (s.failures ip)).length then [] else [.checked j ip] at he
    split at he
    · cases he
    · obtain rfl := List.mem_singleton.mp he
      cases hi
  | enter | leave | arrived | store | recordFailure | call | sendWithFds | write =>
    obtain rfl := List.mem_singleton.mp he
    cases hi <;> rfl
  | _ => cases he

/-- The calls that leave the thread where it is. -/
def Op.mild : Op → Bool
  | .enter | .leave | .arrived _ | .recordFailure _ => false
  | _ => true

theorem adds_mild {i : ι} {op : Op} {w : Choice} {s : World ι} (hmild : op.mild = true) {e : Event ι}
    (he : e ∈ World.adds i w s op) : e.moves = none := by
  cases op with
  | throttled ip =>
    change e ∈ if enrollFailures ≤ (World.recent s.now (s.failures ip)).length then [] else [.checked i ip] at he
    split at he
    · cases he
    · obtain rfl := List.mem_singleton.mp he
      rfl
  | store | call | sendWithFds | write =>
    obtain rfl := List.mem_singleton.mp he
    rfl
  | enter | leave | arrived | recordFailure => cases hmild
  | _ => cases he

theorem Told.mono {trace trace' : List (Event ι)} {j : ι} {f : String} {caller : Caller} {asked : Instant}
    (h : Told codec trace j f caller asked) (ht : trace <:+ trace') : Told codec trace' j f caller asked := by
  obtain ⟨value, hmem, hcaller⟩ := h
  exact ⟨value, ht.subset hmem, hcaller⟩

theorem Kept.mono {trace trace' : List (Event ι)} {f : String} {caller : Caller} {asked kept : Instant}
    (h : Kept codec trace f caller asked kept) (ht : trace <:+ trace') : Kept codec trace' f caller asked kept := by
  obtain ⟨j, htold, hstored, hle⟩ := h
  exact ⟨j, htold.mono ht, ht.subset hstored, hle⟩

variable [DecidableEq ι]

theorem Vouched.mono {i : ι} {trace trace' : List (Event ι)} {f : String} {caller : Caller}
    (h : Vouched codec i trace f caller) (ht : trace <:+ trace') (hsince : since i trace' = since i trace) :
    Vouched codec i trace' f caller := by
  obtain ⟨asked, kept, hkept, hlt⟩ := h
  exact ⟨asked, kept, hkept.mono ht, by rw [hsince]; exact hlt⟩

theorem exec_sourced {i : ι} {op : Op} {w : Choice} {s : World ι} (hfit : Fit codec clients i s op)
    (hs : Sourced codec s) : Sourced codec (World.exec i op w s).2 := by
  intro f caller kept hget
  have hgrows := exec_grows i op w s
  by_cases hstore : ∀ g c, op ≠ .store g c
  · obtain ⟨asked, hkept⟩ := hs f caller kept (exec_cache i op w s hstore hget)
    exact ⟨asked, hkept.mono hgrows⟩
  · push Not at hstore
    obtain ⟨g, c, rfl⟩ := hstore
    change Function.update s.cache g (some (c, s.now + w.delay)) f = some (some caller, kept) at hget
    by_cases hf : f = g
    · subst hf
      rw [Function.update_self] at hget
      cases hget
      obtain ⟨asked, hle, htold⟩ := hfit
      exact ⟨asked, i, htold.mono hgrows, List.mem_cons_self .., hle.trans (Nat.le_add_right _ _)⟩
    · rw [Function.update_of_ne hf] at hget
      obtain ⟨asked, hkept⟩ := hs f caller kept hget
      exact ⟨asked, hkept.mono hgrows⟩

/-- An event that does not move a thread leaves it where it is. -/
theorem Event.spares (i : ι) (e : Event ι) (h : e.moves ≠ some i) (S : Finset ι) (t : Instant) (rs : List Received) :
    (i ∈ e.inside S ↔ i ∈ S) ∧ (i ∈ e.refused S ↔ i ∈ S) ∧ (∀ ip, i ∈ S → i ∈ e.trying ip S) ∧ e.since i t = t ∧
      e.requests i rs = rs := by
  cases e with
  | entered j before =>
    have hne : i ≠ j := fun heq => h (by rw [heq]; rfl)
    have hinsert : i ∈ insert j S ↔ i ∈ S := Finset.mem_insert.trans (or_iff_right hne)
    refine ⟨?_, ?_, fun _ hi => hi, rfl, rfl⟩
    · show (i ∈ if before < maxConnections then insert j S else S) ↔ i ∈ S
      split
      · exact hinsert
      · exact Iff.rfl
    · show (i ∈ if before < maxConnections then S else insert j S) ↔ i ∈ S
      split
      · exact Iff.rfl
      · exact hinsert
  | left j =>
    have hne : i ≠ j := fun heq => h (by rw [heq]; rfl)
    exact ⟨Finset.mem_erase.trans (and_iff_right hne), Finset.mem_erase.trans (and_iff_right hne),
      fun _ hi => Finset.mem_erase.mpr ⟨hne, hi⟩, rfl, rfl⟩
  | arrived j r at_ =>
    have hne : j ≠ i := fun heq => h (by rw [heq]; rfl)
    exact ⟨Iff.rfl, Iff.rfl, fun _ hi => hi, if_neg hne, if_neg hne⟩
  | failed j from_ at_ =>
    have hne : i ≠ j := fun heq => h (by rw [heq]; rfl)
    refine ⟨Iff.rfl, Iff.rfl, fun ip hi => ?_, rfl, rfl⟩
    show i ∈ if from_ = ip then S.erase j else S
    split
    · exact Finset.mem_erase.mpr ⟨hne, hi⟩
    · exact hi
  | checked j from_ =>
    refine ⟨Iff.rfl, Iff.rfl, fun ip hi => ?_, rfl, rfl⟩
    show i ∈ if from_ = ip then insert j S else S
    split
    · exact Finset.mem_insert_of_mem hi
    · exact hi
  | _ => exact ⟨Iff.rfl, Iff.rfl, fun _ hi => hi, rfl, rfl⟩

/-- A fit call of whose events none moves the thread `i` spares it. -/
theorem spares_of_adds {i j : ι} {op : Op} {w : Choice} {s : World ι} (hfit : Fit codec clients j s op)
    (h : ∀ e ∈ World.adds j w (World.wait w s) op, e.moves ≠ some i) : Spares codec i s (World.exec j op w s).2 := by
  have hnow : s.now ≤ (World.exec j op w s).2.now := by
    rw [exec_now]
    exact Nat.le_add_right _ _
  generalize hadds : World.adds j w (World.wait w s) op = added at h
  have hall : ∀ added : List (Event ι), (∀ e ∈ added, e.moves ≠ some i) →
      (i ∈ inside (added ++ s.trace) ↔ i ∈ inside s.trace) ∧
      (i ∈ refused (added ++ s.trace) ↔ i ∈ refused s.trace) ∧
      (∀ ip, i ∈ trying ip s.trace → i ∈ trying ip (added ++ s.trace)) ∧
      since i (added ++ s.trace) = since i s.trace ∧ requests i (added ++ s.trace) = requests i s.trace := by
    intro added hadded
    induction added with
    | nil => exact ⟨Iff.rfl, Iff.rfl, fun _ hi => hi, rfl, rfl⟩
    | cons e rest ih =>
      have he := e.spares i (hadded e (List.mem_cons_self ..))
      obtain ⟨hin, href, htry, hsince, hrequests⟩ := ih fun e' he' => hadded e' (List.mem_cons_of_mem _ he')
      exact ⟨(he _ 0 []).1.trans hin, (he _ 0 []).2.1.trans href, fun ip hi => (he _ 0 []).2.2.1 ip (htry ip hi),
        (he ∅ _ []).2.2.2.1.trans hsince, (he ∅ 0 _).2.2.2.2.trans hrequests⟩
  obtain ⟨hin, href, htry, hsince, hrequests⟩ := hall added h
  rw [← hadds, ← exec_trace] at hin href htry hsince hrequests
  exact ⟨⟨exec_grows j op w s, hnow, hin, href, hsince, hrequests, exec_sourced hfit⟩, htry⟩

/-- What another thread does. -/
theorem Acts.spares {i j : ι} {s s' : World ι} (h : Acts codec clients j s s') (hij : j ≠ i) : Spares codec i s s' := by
  obtain ⟨op, w, -, hfit, rfl⟩ := h
  exact spares_of_adds hfit fun e he hmoves => hij (adds_moves he hmoves).symm

theorem Spares.refl (i : ι) (s : World ι) : Spares codec i s s :=
  ⟨⟨List.suffix_rfl, Nat.le_refl _, Iff.rfl, Iff.rfl, rfl, rfl, fun hs => hs⟩, fun _ hi => hi⟩

theorem Spares.trans {i : ι} {a b c : World ι} (h : Spares codec i a b) (h' : Spares codec i b c) :
    Spares codec i a c :=
  ⟨⟨h.trace.trans h'.trace, h.now.trans h'.now, h'.inside.trans h.inside, h'.refused.trans h.refused,
    h'.since.trans h.since, h'.requests.trans h.requests, fun hs => h'.sourced (h.sourced hs)⟩,
    fun ip hi => h'.trying ip (h.trying ip hi)⟩

end Steps

/-! ## Threads -/

section Threads
variable [DecidableEq ι] (codec : Codec) (clients : ι → Client) (i : ι)

/-- From `P`, every call of the thread `i` is fit; it ends with `Q`, or with `E` when it fails. -/
abbrev Does {α : Type} (P : World ι → Prop) (job : Thread α) (Q : α → World ι → Prop) (E : World ι → Prop) : Prop :=
  Job.Spec (World.exec i) (Moves i) (Spares codec i) (Acts codec clients i) P job Q fun _ => E

abbrev Lasts (P : World ι → Prop) : Prop := Job.Stable (Spares codec i) P

/-- A fact that lasts even when an enrollment of the thread fails. -/
abbrev Holds (P : World ι → Prop) : Prop := Job.Stable (Stays codec i) P

/-- The thread has been let in. -/
structure Here (s : World ι) : Prop where
  sourced : Sourced codec s
  inside : i ∈ inside s.trace
  since : since i s.trace ≤ s.now

variable {codec clients i} {P : World ι → Prop}

theorem spares_mild (op : Op) {w : Choice} {s : World ι} (hmild : op.mild = true) (hfit : Fit codec clients i s op) :
    Spares codec i s (World.exec i op w s).2 :=
  spares_of_adds hfit fun e he => by
    rw [adds_mild hmild he]
    exact Option.some_ne_none i |>.symm

theorem Holds.lasts (hP : Holds codec i P) : Lasts codec i P := fun s s' hs h => hP s s' hs h.toStays

theorem holds_here : Holds codec i (Here codec i) := fun _ _ hs h =>
  ⟨h.sourced hs.sourced, h.inside.mpr hs.inside, by
    rw [h.since]
    exact hs.since.trans h.now⟩

theorem lasts_told (f : String) (caller : Caller) :
    Lasts codec i fun s => ∃ asked, asked ≤ s.now ∧ Told codec s.trace i f caller asked := by
  rintro s s' ⟨asked, hle, htold⟩ h
  exact ⟨asked, hle.trans h.now, htold.mono h.trace⟩

theorem lasts_vouched (f : String) (caller : Caller) : Lasts codec i fun s => Vouched codec i s.trace f caller :=
  fun _ _ hs h => hs.mono h.trace h.since

theorem Lasts.and {Q : World ι → Prop} (hP : Lasts codec i P) (hQ : Lasts codec i Q) :
    Lasts codec i fun s => P s ∧ Q s :=
  fun s s' hs h => ⟨hP s s' hs.1 h, hQ s s' hs.2 h⟩

theorem Lasts.all {α : Type} {Q : α → World ι → Prop} (h : ∀ a, Lasts codec i (Q a)) :
    Lasts codec i fun s => ∀ a, Q a s :=
  fun s s' hs hR a => h a s s' (hs a) hR

theorem Lasts.imp {A : Prop} {Q : World ι → Prop} (hQ : Lasts codec i Q) : Lasts codec i fun s => A → Q s :=
  fun s s' hs hR ha => hQ s s' (hs ha) hR

/-- One call, whose answer tells `Q`. -/
theorem does_ask (op : Op) {Q : Ans op → World ι → Prop} {E : World ι → Prop} (hmild : op.mild = true)
    (hP : Lasts codec i P) (hQ : ∀ a, Lasts codec i (Q a)) (hfit : ∀ s, P s → Fit codec clients i s op)
    (h : ∀ s w, P s → Q (World.exec i op w s).1 (World.exec i op w s).2) :
    Does codec clients i P (ask op) (fun a s => P s ∧ Q a s) E := by
  refine Job.Spec.ask hP (fun a => hP.and (hQ a)) fun s w hs hmay => ⟨⟨op, w, hmay, hfit s hs, rfl⟩, ?_, h s w hs⟩
  exact hP s _ hs (spares_mild op hmild (hfit s hs))

/-- A call of which the answer does not matter. -/
theorem does_call (op : Op) {E : World ι → Prop} (hmild : op.mild = true) (hP : Lasts codec i P)
    (hfit : ∀ s, P s → Fit codec clients i s op) : Does codec clients i P (ask op) (fun _ => P) E :=
  (does_ask op (Q := fun _ _ => True) hmild hP (fun _ _ _ _ _ => trivial) hfit fun _ _ _ => trivial).conseq
    (fun _ hs => hs) (fun _ _ hs => hs.1) fun _ _ he => he

theorem does_bind {α β : Type} {Q : α → World ι → Prop} {S : β → World ι → Prop} {E : World ι → Prop} {m : Thread α}
    {f : α → Thread β} (hm : Does codec clients i P m Q E) (hf : ∀ a, Does codec clients i (Q a) (f a) S E) :
    Does codec clients i P (m >>= f) S E :=
  Job.Spec.bind (Spares.refl i) hm hf

theorem does_pure {α : Type} {Q : α → World ι → Prop} {E : World ι → Prop} {a : α} (hP : Lasts codec i P)
    (h : ∀ s, P s → Q a s) : Does codec clients i P (pure a) Q E :=
  Job.Spec.pure hP h

theorem does_done {α : Type} {E : World ι → Prop} (hP : Lasts codec i P) (a : α) :
    Does codec clients i P (pure a) (fun _ => P) E :=
  does_pure hP fun _ hs => hs

theorem does_lift {α : Type} (hP : Lasts codec i P) (r : Result α) :
    Does codec clients i P (Job.lift r) (fun _ => P) P :=
  Job.Spec.lift hP (fun _ _ hs _ => hs) fun _ _ hs _ => hs

theorem does_put (hP : Lasts codec i P) (out : Output) : Does codec clients i P (put out) (fun _ => P) P :=
  does_bind (does_call _ rfl hP fun _ _ => trivial) fun r => does_lift hP r

/-! ## Trust -/

theorem does_lookupUncached (hP : Lasts codec i P) (f : String) :
    Does codec clients i P (lookupUncached codec f)
      (fun r s => P s ∧ ∀ c, r = some c → ∃ asked, asked ≤ s.now ∧ Told codec s.trace i f c asked) P := by
  have hnone : ∀ P' : World ι → Prop, Lasts codec i P' → (∀ s, P' s → P s) → Does codec clients i P' (pure none)
      (fun (r : Option Caller) s =>
        P s ∧ ∀ c, r = some c → ∃ asked, asked ≤ s.now ∧ Told codec s.trace i f c asked) P :=
    fun P' hP' himp => does_pure hP' fun s hs => ⟨himp s hs, fun c hc => by cases hc⟩
  refine does_bind (does_call _ rfl hP fun _ _ => trivial) fun link => ?_
  cases link with
  | error e => exact hnone P hP fun _ hs => hs
  | ok link =>
    let told : Result Response → World ι → Prop := fun r s => ∀ v c, r = .ok (.json v) → codec.caller v = some c →
      ∃ asked, asked ≤ s.now ∧ Told codec s.trace i f c asked
    have htold : ∀ r, Lasts codec i (told r) := fun r =>
      Lasts.all fun v => Lasts.all fun c => Lasts.imp (Lasts.imp (lasts_told f c))
    refine does_bind (does_ask (.call link (.trustLookup f)) (Q := told) rfl hP htold ?_ ?_) fun r => ?_
    · intro s _ caller hcaller
      cases hcaller
    · rintro s w - v c hr hc
      refine ⟨_, Nat.le_refl _, v, ?_, hc⟩
      rw [exec_trace, ← hr]
      exact List.mem_cons_self ..
    · cases r with
      | error e => exact hnone _ (hP.and (htold _)) fun _ hs => hs.1
      | ok response =>
        cases response with
        | json v => exact does_pure (hP.and (htold _)) fun s hs => ⟨hs.1, fun c hc => hs.2 v c rfl hc⟩
        | _ => exact hnone _ (hP.and (htold _)) fun _ hs => hs.1

/-- What `lookup` gives is vouched for. -/
theorem does_lookup (hP : Lasts codec i P) (hhere : ∀ s, P s → Here codec i s) (f : String) :
    Does codec clients i P (lookup codec f)
      (fun r s => P s ∧ ∀ c, r = some c → Vouched codec i s.trace f c) P := by
  let good : Option (Option Caller) → World ι → Prop := fun a s => ∀ c, a = some (some c) → Vouched codec i s.trace f c
  have hgood : ∀ a, Lasts codec i (good a) := fun a => Lasts.all fun c => Lasts.imp (lasts_vouched f c)
  refine does_bind (does_ask (.cached f) (Q := good) rfl hP hgood (fun _ _ => trivial) ?_) fun a => ?_
  · intro s w hs c hc
    have hs' := holds_here.lasts s _ (hhere s hs) (@spares_mild ι _ codec clients i (.cached f) w s rfl trivial)
    obtain ⟨kept, hget, hyoung⟩ := World.fresh_some hc
    obtain ⟨asked, hkept⟩ := hs'.sourced f c kept hget
    have hsince : since i s.trace ≤ s.now + w.delay := hs'.since
    have hyoung' : s.now + w.delay - kept < trustTtl := hyoung
    exact ⟨asked, kept, hkept, Nat.lt_of_le_of_lt hsince (lt_add_of_tsub_lt_left hyoung')⟩
  · cases a with
    | some caller => exact does_pure (hP.and (hgood _)) fun s hs => ⟨hs.1, fun c hc => hs.2 c (by rw [hc])⟩
    | none =>
      refine does_bind ((does_lookupUncached hP f).pre fun s hs => hs.1) fun caller => ?_
      have htold : Lasts codec i fun s => P s ∧ ∀ c, caller = some c → ∃ asked, asked ≤ s.now ∧
          Told codec s.trace i f c asked := hP.and (Lasts.all fun c => Lasts.imp (lasts_told f c))
      let kept : Unit → World ι → Prop := fun _ s => ∀ c, caller = some c → Vouched codec i s.trace f c
      have hkept : ∀ u, Lasts codec i (kept u) := fun _ => Lasts.all fun c => Lasts.imp (lasts_vouched f c)
      refine does_bind (does_ask (.store f caller) (Q := kept) rfl htold hkept ?_ ?_) fun u => ?_
      · intro s hs
        cases caller with
        | none => trivial
        | some c => exact hs.2 c rfl
      · rintro s w hs c rfl
        obtain ⟨asked, hle, hfrom⟩ := hs.2 c rfl
        have hgrows := exec_grows i (.store f (some c)) w s
        have hlater : s.now ≤ s.now + w.delay := Nat.le_add_right _ _
        refine ⟨asked, s.now + w.delay, ⟨i, hfrom.mono hgrows, List.mem_cons_self .., hle.trans hlater⟩, ?_⟩
        have hsince : since i (World.exec i (.store f (some c)) w s).2.trace ≤ s.now := (hhere s hs.1).since
        exact Nat.lt_of_le_of_lt (hsince.trans hlater) (Nat.lt_add_of_pos_right (by decide))
      · exact does_pure (htold.and (hkept u)) fun s hs => ⟨hs.1.1, hs.2⟩

theorem does_stillTrusted (hP : Lasts codec i P) (hhere : ∀ s, P s → Here codec i s) (peer : Peer) :
    Does codec clients i P (stillTrusted codec peer) (fun _ => P) P := by
  unfold stillTrusted
  split
  · exact does_done hP _
  · refine does_bind (does_call _ rfl hP fun _ _ => trivial) fun _ => ?_
    refine does_bind ((does_lookup hP hhere _).conseq (fun _ hs => hs) (fun _ _ hs => hs.1) fun _ _ he => he)
      fun c => ?_
    exact does_done hP _

/-! ## Requests -/

theorem does_attempts (hP : Lasts codec i P) {request : Request}
    (hback : ∀ s, P s → Backed codec clients i s.trace request) (ns : List ℕ) (daemon : Option Link) :
    Does codec clients i P (attempts request ns daemon) (fun _ => P) P := by
  induction ns generalizing daemon with
  | nil => exact does_done hP _
  | cons n rest ih =>
    refine does_bind (Q := fun _ => P) ?_ fun link => ?_
    · cases daemon with
      | none => exact does_call _ rfl hP fun _ _ => trivial
      | some link => exact does_done hP _
    cases link with
    | error e => exact does_done hP _
    | ok link =>
      refine does_bind (does_call (.call link request) rfl hP hback) fun result => ?_
      split
      · exact ih none
      · exact ih none
      · exact does_done hP _

theorem does_trustEnroll (hP : Lasts codec i P) (server : String) (peer : Peer) (body : List UInt8) :
    Does codec clients i P (trustEnroll codec server peer body) (fun _ => P) P := by
  have hthrow : ∀ e, Does codec clients i P (Job.throw e : Thread String) (fun _ => P) P :=
    fun e => Job.Spec.throw hP fun _ hs => hs
  refine does_bind (does_lift hP _) fun request => ?_
  obtain ⟨token, name⟩ := request
  refine does_bind (does_lift hP _) fun token => ?_
  split
  · exact hthrow _
  split
  · exact hthrow _
  refine does_bind (does_call _ rfl hP fun _ _ => trivial) fun link => ?_
  refine does_bind (does_lift hP _) fun link => ?_
  refine does_bind (does_call (.call link _) rfl hP fun s _ caller hcaller => by cases hcaller) fun response => ?_
  refine does_bind (does_lift hP _) fun response => ?_
  split
  · exact does_done hP _
  · exact hthrow _

theorem does_throttled (hP : Lasts codec i P) (hhere : ∀ s, P s → Here codec i s) (ip : Option IpAddr) :
    Does codec clients i P (throttled ip)
      (fun b s => P s ∧ (b = false → ∀ p, ip = some p → i ∈ trying p s.trace)) P := by
  cases ip with
  | none => exact does_pure hP fun s hs => ⟨hs, fun _ p hp => by cases hp⟩
  | some p =>
    let passed : Bool → World ι → Prop := fun b s => b = false → ∀ q, some p = some q → i ∈ trying q s.trace
    have hpassed : ∀ b, Lasts codec i (passed b) := fun b =>
      Lasts.imp (Lasts.all fun q => Lasts.imp fun s s' hs hR => hR.trying q hs)
    refine does_ask (.throttled p) (Q := passed) rfl hP hpassed (fun s hs => (hhere s hs).inside) ?_
    intro s w _ hb q hq
    cases hq
    rw [exec_trace]
    simp only [World.exec, World.answer] at hb
    simp only [World.adds]
    split at hb
    · cases hb
    · rename_i hfew
      rw [if_neg hfew]
      show i ∈ if p = p then insert i (trying p s.trace) else trying p s.trace
      rw [if_pos rfl]
      exact Finset.mem_insert_self i _

theorem stays_recordFailure {ip : IpAddr} {w : Choice} {s : World ι}
    (hfit : Fit codec clients i s (.recordFailure ip)) :
    Stays codec i s (World.exec i (.recordFailure ip) w s).2 :=
  ⟨exec_grows i _ w s, Nat.le_add_right _ _, Iff.rfl, Iff.rfl, rfl, rfl, exec_sourced hfit⟩

theorem does_recordFailure (hP : Holds codec i P) (ip : Option IpAddr) :
    Does codec clients i (fun s => P s ∧ ∀ p, ip = some p → i ∈ trying p s.trace) (recordFailure ip) (fun _ => P)
      P := by
  have htrying : Lasts codec i fun s => P s ∧ ∀ p, ip = some p → i ∈ trying p s.trace :=
    hP.lasts.and (Lasts.all fun p => Lasts.imp fun _ _ hs hR => hR.trying p hs)
  cases ip with
  | none => exact does_pure htrying fun _ hs => hs.1
  | some p =>
    refine Job.Spec.ask htrying (fun _ => hP.lasts) fun s w hs hmay => ?_
    have hfit : Fit codec clients i s (.recordFailure p) := hs.2 p rfl
    exact ⟨⟨_, w, hmay, hfit, rfl⟩, hP _ _ hs.1 (stays_recordFailure hfit)⟩

theorem does_enroll (hP : Holds codec i P) (hhere : ∀ s, P s → Here codec i s) (server : String) (head : Head)
    (peer : Peer) (conn : Buffered) :
    Does codec clients i P (enroll codec server head peer conn) (fun _ => P) P := by
  have hdone : ∀ a : (ℕ × Reply) × Buffered, Does codec clients i P (pure a) (fun _ => P) P :=
    fun _ => does_pure hP.lasts fun _ hs => hs
  unfold enroll
  split
  · exact hdone _
  · refine does_bind (does_throttled hP.lasts hhere peer.ip) fun full => ?_
    have hpassed : Lasts codec i fun s => P s ∧ (full = false → ∀ p, peer.ip = some p → i ∈ trying p s.trace) :=
      hP.lasts.and (Lasts.imp (Lasts.all fun p => Lasts.imp fun _ _ hs hR => hR.trying p hs))
    cases full with
    | true => exact does_pure hpassed fun _ hs => hs.1
    | false =>
      refine does_bind (Job.Spec.attempt
        (Q := fun _ s => P s ∧ (false = false → ∀ p, peer.ip = some p → i ∈ trying p s.trace))
        (does_trustEnroll hpassed server peer _)) fun result => ?_
      cases result with
      | ok value =>
        dsimp only
        split
        · exact does_pure hpassed fun _ hs => hs.1
        · refine does_bind (Q := fun _ => P) ?_ fun _ => hdone _
          exact (does_call (.forget _) rfl hP.lasts fun _ _ => trivial).pre fun _ hs => hs.1
      | error e =>
        have hrecord : Does codec clients i
            (fun s => P s ∧ (false = false → ∀ p, peer.ip = some p → i ∈ trying p s.trace)) (recordFailure peer.ip)
            (fun _ => P) P :=
          (does_recordFailure hP peer.ip).pre fun _ hs => ⟨hs.1, hs.2 rfl⟩
        dsimp only
        split
        · exact does_bind hrecord fun _ => hdone _
        · exact does_bind hrecord fun _ => hdone _
        · exact does_pure hpassed fun _ hs => hs.1

theorem does_callRequest (hP : Lasts codec i P) {caller : Caller}
    (hback : ∀ s, P s → ∃ f, (clients i).peer.fingerprint = some f ∧ Vouched codec i s.trace f caller) (head : Head)
    (conn : Buffered) (daemon : Option Link) :
    Does codec clients i P (call codec head caller conn daemon) (fun _ => P) P := by
  unfold call
  generalize withBody head (Body.readAll maxFrame) conn = read
  obtain ⟨body, conn⟩ := read
  have hcall : ∀ r, Does codec clients i P (daemonCall daemon (.as caller r)) (fun _ => P) P := by
    refine fun r => does_attempts hP (fun s hs c hc => ?_) _ daemon
    cases hc
    exact hback s hs
  dsimp only
  split
  · refine does_bind (does_done hP _) fun r => ?_
    obtain ⟨result, daemon⟩ := r
    dsimp only
    split <;> exact does_done hP _
  · refine does_bind (hcall _) fun r => ?_
    obtain ⟨result, daemon⟩ := r
    dsimp only
    split <;> exact does_done hP _

end Threads

end Collocate.Gateway
