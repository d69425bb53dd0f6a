import Collocate.Gateway.Conduct

/-! # Every thread of the gateway makes its calls when they are fit

From the streams to `connection`, one lemma for each program, and then any number of threads together. -/
namespace Collocate.Gateway
set_option autoImplicit false
open Remote

variable {ι : Type} [DecidableEq ι] {codec : Codec} {clients : ι → Client} {i : ι} {P : World ι → Prop}

/-! ## Streams -/

section Streams
variable (hP : Lasts codec i P)
include hP

theorem does_tell (out : Output) : Does codec clients i P (ask (.write out) >>= fun _ => pure ()) (fun _ => P) P :=
  does_bind (does_call _ rfl hP fun _ _ => trivial) fun _ => does_done hP _

theorem does_fromClient (m : Message) : Does codec clients i P (fromClient codec m) (fun _ => P) P := by
  unfold fromClient
  split
  · rename_i channel data
    dsimp only
    split
    · exact does_bind (does_call _ rfl hP fun _ _ => trivial) fun _ => does_done hP _
    split
    · split
      · exact does_bind (does_call _ rfl hP fun _ _ => trivial) fun _ => does_done hP _
      · exact does_done hP _
    · exact does_done hP _
  · exact does_done hP _
  · exact does_done hP _
  · exact does_done hP _

theorem does_toClient (out : List (UInt8 × List UInt8)) (opened : ℤ) :
    Does codec clients i P (toClient out opened) (fun _ => P) P := by
  induction out generalizing opened with
  | nil => exact does_done hP _
  | cons piece rest ih =>
    obtain ⟨channel, data⟩ := piece
    cases data with
    | nil => exact ih (opened - 1)
    | cons b data =>
      refine does_bind (does_call _ rfl hP fun _ _ => trivial) fun r => ?_
      cases r with
      | error e => exact does_done hP _
      | ok u => exact ih opened

variable (hhere : ∀ s, P s → Here codec i s)
include hhere

theorem does_recheck (peer : Peer) (lastTrust : Instant) :
    Does codec clients i P (recheck codec peer lastTrust) (fun _ => P) P := by
  refine does_bind (does_call _ rfl hP fun _ _ => trivial) fun now => ?_
  split
  · refine does_bind (does_call _ rfl hP fun _ _ => trivial) fun t => ?_
    exact does_bind (does_stillTrusted hP hhere peer) fun b => does_done hP _
  · exact does_done hP _

theorem does_execLoop (peer : Peer) (rounds : ℕ) (session : Session) :
    Does codec clients i P (execLoop codec peer rounds session) (fun _ => P) P := by
  induction rounds generalizing session with
  | zero => exact does_call _ rfl hP fun _ _ => trivial
  | succ rounds ih =>
    refine does_bind (does_call _ rfl hP fun _ _ => trivial) fun message => ?_
    refine does_bind (does_fromClient hP message) fun goes => ?_
    cases goes with
    | false => exact does_done hP _
    | true =>
      refine does_bind (does_call _ rfl hP fun _ _ => trivial) fun out => ?_
      refine does_bind (does_toClient hP out _) fun opened => ?_
      cases opened with
      | none => exact does_done hP _
      | some opened =>
        refine does_bind (Q := fun _ => P) ?_ fun result => ?_
        · split
          · exact does_done hP _
          · refine does_bind (does_call _ rfl hP fun _ _ => trivial) fun r => ?_
            cases r with
            | none => exact does_done hP _
            | some r => exact does_bind (does_call _ rfl hP fun _ _ => trivial) fun t => does_done hP _
        refine does_bind (Q := fun _ => P) ?_ fun ended => ?_
        · split
          · exact does_done hP _
          · split
            · exact does_done hP _
            · exact does_bind (does_call _ rfl hP fun _ _ => trivial) fun t => does_done hP _
        cases ended with
        | some r => exact does_tell hP (ending codec r)
        | none =>
          refine does_bind (does_recheck hP hhere peer _) fun t => ?_
          obtain ⟨lastTrust, trusted⟩ := t
          cases trusted with
          | true => exact ih _
          | false => exact does_tell hP _

variable {caller : Caller}
  (hback : ∀ s, P s → ∃ f, (clients i).peer.fingerprint = some f ∧ Vouched codec i s.trace f caller)
include hback

omit hP hhere in
theorem backed_as (request : Request) (s : World ι) (hs : P s) :
    Backed codec clients i s.trace (.as caller request) := by
  intro c hc
  cases hc
  exact hback s hs

theorem does_execStream (rounds : ℕ) (peer : Peer) (request : Request) :
    Does codec clients i P (execStream codec rounds caller peer request) (fun _ => P) P := by
  refine does_bind (does_call _ rfl hP fun _ _ => trivial) fun pair => ?_
  refine does_bind (does_lift hP pair) fun _ => ?_
  refine does_bind (does_call _ rfl hP fun _ _ => trivial) fun link => ?_
  cases link with
  | error e => exact does_tell hP _
  | ok link =>
    refine does_bind (does_call (.sendWithFds link _) rfl hP (backed_as hback request)) fun sent => ?_
    cases sent with
    | error e => exact does_tell hP _
    | ok u => exact does_bind (does_call _ rfl hP fun _ _ => trivial) fun t => does_execLoop hP hhere peer rounds _

theorem does_exec (rounds : ℕ) (head : Head) (peer : Peer) :
    Does codec clients i P (exec codec rounds head caller peer) (fun _ => P) P := by
  unfold exec
  split
  · exact does_put hP _
  · refine does_bind (does_put hP _) fun _ => ?_
    refine does_bind (does_call _ rfl hP fun _ _ => trivial) fun message => ?_
    split
    · exact does_tell hP _
    · exact does_execStream hP hhere hback rounds peer _
    · exact does_tell hP _

omit hback hhere in
theorem does_relayBody (rounds : ℕ) (body : Body) :
    Does codec clients i P (relayBody rounds body) (fun _ => P) P := by
  induction rounds generalizing body with
  | zero => exact does_bind (does_call _ rfl hP fun _ _ => trivial) fun _ => does_done hP _
  | succ rounds ih =>
    unfold relayBody
    split
    · exact does_done hP _
    · exact does_done hP _
    · refine does_bind (does_call _ rfl hP fun _ _ => trivial) fun accepted => ?_
      cases accepted with
      | true => exact ih _
      | false => exact does_done hP _

omit hhere in
theorem does_images (head : Head) (conn : Buffered) :
    Does codec clients i P (images head caller conn) (fun _ => P) P := by
  have hrelay : Does codec clients i P (relayImage head caller conn) (fun _ => P) P := by
    refine does_bind (does_call _ rfl hP fun _ _ => trivial) fun pair => ?_
    refine does_bind (does_lift hP pair) fun _ => ?_
    refine does_bind (does_call _ rfl hP fun _ _ => trivial) fun link => ?_
    refine does_bind (does_lift hP link) fun link => ?_
    refine does_bind (does_call (.sendWithFds link _) rfl hP (backed_as hback .imageImport)) fun sent => ?_
    refine does_bind (does_lift hP sent) fun _ => ?_
    refine does_bind (does_lift hP _) fun framing => ?_
    refine does_bind (does_relayBody hP _ _) fun relayed => ?_
    refine does_bind (does_lift hP relayed) fun _ => ?_
    exact does_bind (does_call _ rfl hP fun _ _ => trivial) fun response => does_lift hP response
  refine does_bind (Job.Spec.attempt (Q := fun _ => P) hrelay) fun r => ?_
  cases r with
  | ok r => exact does_put hP _
  | error e => exact does_put hP _

omit hback hhere in
theorem does_writeChunk (data : String) : Does codec clients i P (writeChunk data) (fun _ => P) P := by
  unfold writeChunk
  split
  · exact does_done hP _
  · exact does_call _ rfl hP fun _ _ => trivial

omit hback hhere in
theorem does_failLogs (started : Bool) (e : Error) : Does codec clients i P (failLogs started e) (fun _ => P) P := by
  unfold failLogs
  split
  · exact does_bind (does_writeChunk hP _) fun _ => does_put hP _
  · exact does_put hP _

omit hback in
theorem does_logsLoop (f : Following)
    (hback : ∀ s, P s → ∃ g, (clients i).peer.fingerprint = some g ∧ Vouched codec i s.trace g f.caller) (rounds : ℕ)
    (c : Cursor) : Does codec clients i P (logsLoop codec f rounds c) (fun _ => P) P := by
  induction rounds generalizing c with
  | zero => exact does_call _ rfl hP fun _ _ => trivial
  | succ rounds ih =>
    have hcall : ∀ daemon r, Does codec clients i P (daemonCall daemon (.as f.caller r)) (fun _ => P) P :=
      fun daemon r => does_attempts hP (backed_as hback r) _ daemon
    refine does_bind (hcall c.daemon _) fun answer => ?_
    split
    · rename_i data next source daemon
      -- What follows the head of the reply, which is written once.
      extract_lets rest
      have hrest : Does codec clients i P (rest ()) (fun _ => P) P := by
        refine does_bind (does_writeChunk hP data) fun written => ?_
        cases written with
        | error e => exact does_done hP _
        | ok u =>
          dsimp only
          split
          · exact does_put hP _
          · refine does_bind (Q := fun _ => P) ?_ fun r => ?_
            · split
              · exact does_bind (hcall daemon _) fun r => does_done hP _
              · exact does_done hP _
            · refine does_bind (does_recheck hP hhere f.peer _) fun t => ?_
              split
              · exact ih _
              · exact does_bind (does_writeChunk hP _) fun _ => does_put hP _
      split
      · exact does_bind (does_put hP _) fun _ => hrest
      · exact hrest
    · split
      · exact does_put hP _
      · exact does_put hP _
    · exact does_failLogs hP _ _

theorem does_logs (rounds : ℕ) (r : Received) (peer : Peer) (conn : Buffered) :
    Does codec clients i P (logs codec rounds r caller peer conn) (fun _ => P) P := by
  refine does_bind (does_lift hP _) fun _ => ?_
  split
  · exact does_put hP _
  · refine does_bind (does_call _ rfl hP fun _ _ => trivial) fun t => ?_
    exact does_logsLoop hP hhere _ hback rounds _

end Streams

/-! ## Connections -/

/-- The thread is here, between two requests. -/
def Standing (codec : Codec) (clients : ι → Client) (i : ι) (conn : Buffered) (s : World ι) : Prop :=
  Here codec i s ∧ ((clients i).sent.Faultless → Stands codec (clients i).sent.bytes (requests i s.trace) conn)

/-- The thread is here, behind the head of a request. -/
def Taking (codec : Codec) (clients : ι → Client) (i : ι) (r : Received) (conn : Buffered) (s : World ι) : Prop :=
  Here codec i s ∧ ((clients i).sent.Faultless → ∃ before, requests i s.trace = r :: before ∧
    Within codec (clients i).sent.bytes (r :: before) conn)

/-- The thread is here; if its connection goes on, it stands between two requests. -/
def After (codec : Codec) (clients : ι → Client) (i : ι) (next : Option (Buffered × Option Link)) (s : World ι) :
    Prop :=
  Here codec i s ∧ ∀ c d, next = some (c, d) → Standing codec clients i c s

theorem holds_standing (conn : Buffered) : Holds codec i (Standing codec clients i conn) := fun s s' hs hR =>
  ⟨holds_here s s' hs.1 hR, fun hfaultless => by
    rw [hR.requests]
    exact hs.2 hfaultless⟩

theorem holds_taking (r : Received) (conn : Buffered) :
    Holds codec i (Taking codec clients i r conn) := fun s s' hs hR =>
  ⟨holds_here s s' hs.1 hR, fun hfaultless => by
    rw [hR.requests]
    exact hs.2 hfaultless⟩

theorem does_arrived {r : Received} {conn conn' : Buffered} (hread : readRequest codec conn = (.ok (some r), conn'))
    (E : World ι → Prop) :
    Does codec clients i (Standing codec clients i conn) (ask (.arrived r))
      (fun _ => Taking codec clients i r conn') E := by
  refine Job.Spec.ask (holds_standing conn).lasts (fun _ => (holds_taking r conn').lasts) fun s w hs hmay => ?_
  have hwithin : (clients i).sent.Faultless → Within codec (clients i).sent.bytes (r :: requests i s.trace) conn' :=
    fun hfaultless => (hs.2 hfaultless).begin hread
  have hfit : Fit codec clients i s (.arrived r) := fun hfaultless => (hwithin hfaultless).known
  have hsince : since i (World.exec i (.arrived r) w s).2.trace = s.now + w.delay := if_pos rfl
  have hrequests : requests i (World.exec i (.arrived r) w s).2.trace = r :: requests i s.trace := if_pos rfl
  refine ⟨⟨_, w, hmay, hfit, rfl⟩, ⟨exec_sourced hfit hs.1.sourced, hs.1.inside, ?_⟩, fun hfaultless => ?_⟩
  · rw [exec_now]
    exact hsince.le
  · exact ⟨_, hrequests, hwithin hfaultless⟩

/-- `P`, and a caller that the certificate of the connection vouches for, if there is one. -/
def By (codec : Codec) (clients : ι → Client) (i : ι) (P : World ι → Prop) (caller : Option Caller) (s : World ι) :
    Prop :=
  P s ∧ ∀ c, caller = some c → ∃ f, (clients i).peer.fingerprint = some f ∧ Vouched codec i s.trace f c

theorem lasts_by (hP : Holds codec i P) (caller : Option Caller) : Lasts codec i (By codec clients i P caller) :=
  hP.lasts.and (Lasts.all fun c => Lasts.imp fun _ _ hs hR => by
    obtain ⟨f, hf, hvouched⟩ := hs
    exact ⟨f, hf, hvouched.mono hR.trace hR.since⟩)

section Requests
variable (hP : Holds codec i P) (hhere : ∀ s, P s → Here codec i s)
include hP hhere

theorem does_callerOf : Does codec clients i P (callerOf codec (clients i).peer)
    (fun caller => By codec clients i P caller) P := by
  unfold callerOf
  split
  · exact does_pure hP.lasts fun s hs => ⟨hs, fun c hc => by cases hc⟩
  · rename_i f hf
    exact (does_lookup hP.lasts hhere f).conseq (fun _ hs => hs)
      (fun caller s hs => ⟨hs.1, fun c hc => ⟨f, hf, hs.2 c hc⟩⟩) fun _ _ he => he

theorem does_route (rounds : ℕ) (server : String) (r : Received) (caller : Option Caller) (conn : Buffered)
    (daemon : Option Link) :
    Does codec clients i (By codec clients i P caller)
      (route codec rounds server (clients i).peer r caller conn daemon) (fun _ => P) P := by
  have hreply : ∀ status body keep (next : Option (Buffered × Option Link)), Does codec clients i P
      (reply status body keep >>= fun _ => pure next) (fun _ => P) P :=
    fun _ _ _ _ => does_bind (does_put hP.lasts _) fun _ => does_pure hP.lasts fun _ hs => hs
  have hby : ∀ s, By codec clients i P caller s → P s := fun _ hs => hs.1
  have hhere' : ∀ s, By codec clients i P caller s → Here codec i s := fun s hs => hhere s hs.1
  have hstream : ∀ (job : Thread Unit) (next : Option (Buffered × Option Link)),
      Does codec clients i (By codec clients i P caller) job (fun _ => By codec clients i P caller)
        (By codec clients i P caller) →
      Does codec clients i (By codec clients i P caller) (job >>= fun _ => pure next) (fun _ => P) P :=
    fun job next hjob => does_bind (hjob.conseq (fun _ hs => hs) (fun _ _ hs => hs) fun _ s he => hby s he) fun _ =>
      does_pure (lasts_by hP caller) hby
  unfold route
  dsimp only
  split
  · exact (does_bind (does_lift hP.lasts _) fun _ => hreply _ _ _ _).pre hby
  split
  · exact (does_bind (does_enroll hP hhere server r.head _ conn) fun _ => hreply _ _ _ _).pre hby
  split
  · cases caller with
    | none => exact (hreply _ _ _ _).pre hby
    | some caller =>
      have hback : ∀ s, By codec clients i P (some caller) s →
          ∃ f, (clients i).peer.fingerprint = some f ∧ Vouched codec i s.trace f caller := fun s hs => hs.2 caller rfl
      dsimp only
      split
      · have hcall := does_callRequest (lasts_by hP (some caller)) hback r.head conn daemon
        exact does_bind (hcall.conseq (fun _ hs => hs) (fun _ s hs => hby s hs) fun _ s he => hby s he) fun _ =>
          hreply _ _ _ _
      split
      · exact hstream _ _ (does_exec (lasts_by hP _) hhere' hback rounds r.head _)
      split
      · exact hstream _ _ (does_images (lasts_by hP _) hback r.head conn)
      · exact hstream _ _ (does_logs (lasts_by hP _) hhere' hback rounds r _ conn)
  · split
    · exact (hreply _ _ _ _).pre hby
    · exact (hreply _ _ _ _).pre hby

end Requests

theorem does_turn (rounds : ℕ) (server : String) (conn : Buffered) (daemon : Option Link) :
    Does codec clients i (Standing codec clients i conn) (turn codec rounds server (clients i).peer conn daemon)
      (After codec clients i) (Here codec i) := by
  have hover : Does codec clients i (Standing codec clients i conn) (pure none)
      (After codec clients i) (Here codec i) :=
    does_pure (holds_standing conn).lasts fun s hs => ⟨hs.1, fun c d hnext => by cases hnext⟩
  have hmalformed : ∀ e, Does codec clients i (Standing codec clients i conn) (malformed e)
      (After codec clients i) (Here codec i) :=
    fun e => does_bind (does_call _ rfl (holds_standing conn).lasts fun _ _ => trivial) fun _ => hover
  unfold turn
  split
  · exact hover
  · exact hover
  · split
    · exact hover
    · exact hmalformed _
  · exact hmalformed _
  · rename_i r conn' hread
    have htaking := @holds_taking ι _ codec clients i r conn'
    refine does_bind (does_arrived hread _) fun _ => ?_
    refine does_bind ((does_callerOf htaking fun _ hs => hs.1).conseq (fun _ hs => hs) (fun _ _ hs => hs)
      fun _ _ he => he.1) fun caller => ?_
    have hroute := (does_route htaking (fun _ hs => hs.1) rounds server r caller conn' daemon).yields
      (yields_route codec rounds server (clients i).peer r caller conn' daemon)
    refine hroute.conseq (fun _ hs => hs) (fun next s hs => ⟨hs.1.1, fun c d hnext => ⟨hs.1.1, fun hfaultless => ?_⟩⟩)
      fun _ _ he => he.1
    obtain ⟨before, hrequests, hwithin⟩ := hs.1.2 hfaultless
    rw [hrequests]
    exact hwithin.pass (hs.2 c d hnext)

theorem does_serveFrom (rounds : ℕ) (server : String) (turns : ℕ) (conn : Buffered) (daemon : Option Link) :
    Does codec clients i (Standing codec clients i conn)
      (serveFrom codec rounds server (clients i).peer turns conn daemon) (fun _ => Here codec i) (Here codec i) := by
  induction turns generalizing conn daemon with
  | zero =>
    exact (does_call (.hang) rfl (holds_standing conn).lasts fun _ _ => trivial).conseq (fun _ hs => hs)
      (fun _ _ hs => hs.1)
      fun _ _ he => he
  | succ turns ih =>
    refine does_bind (does_turn rounds server conn daemon) fun next => ?_
    cases next with
    | none =>
      have hend : Does codec clients i (Here codec i) (pure () : Thread Unit) (fun _ => Here codec i) (Here codec i) :=
        does_pure holds_here.lasts fun _ hs => hs
      exact hend.pre fun _ hs => hs.1
    | some next => exact (ih next.1 next.2).pre fun _ hs => hs.2 _ _ rfl

/-- A thread that has not begun. -/
structure Outside (codec : Codec) (i : ι) (s : World ι) : Prop where
  sourced : Sourced codec s
  inside : i ∉ inside s.trace
  refused : i ∉ refused s.trace
  since : since i s.trace ≤ s.now
  requests : requests i s.trace = []

theorem holds_outside : Holds codec i (Outside codec i) := fun _ _ hs h =>
  ⟨h.sourced hs.sourced, fun hin => hs.inside (h.inside.mp hin), fun hin => hs.refused (h.refused.mp hin), by
    rw [h.since]
    exact hs.since.trans h.now, h.requests.trans hs.requests⟩

/-- A thread that was let in, before its first request. -/
def Fresh (codec : Codec) (i : ι) (s : World ι) : Prop := Here codec i s ∧ requests i s.trace = []

theorem holds_fresh : Holds codec i (Fresh codec i) := fun s s' hs hR =>
  ⟨holds_here s s' hs.1 hR, hR.requests.trans hs.2⟩

theorem does_serve (rounds : ℕ) (server : String) :
    Does codec clients i (Fresh codec i) (serve codec rounds server (clients i)) (fun _ => Here codec i)
      (Here codec i) := by
  refine does_bind (does_call _ rfl holds_fresh.lasts fun _ _ => trivial) fun shaken => ?_
  refine does_bind
    ((does_lift holds_fresh.lasts shaken).conseq (fun _ hs => hs) (fun _ _ hs => hs) fun _ _ he => he.1) fun _ => ?_
  refine (does_serveFrom rounds server _ _ none).pre fun s hs => ⟨hs.1, fun hfaultless => Or.inl ⟨hs.2, ?_, hfaultless⟩⟩
  exact List.nil_append _

/-- A connection is let in, or refused; either way it leaves. -/
theorem does_connection (rounds : ℕ) (server : String) :
    Does codec clients i (Outside codec i) (connection codec rounds server (clients i)) (fun _ _ => True)
      (fun _ => True) := by
  let entered : ℕ → World ι → Prop := fun before s =>
    if maxConnections ≤ before then i ∈ refused s.trace else Fresh codec i s
  have hentered : ∀ n, Lasts codec i (entered n) := by
    intro n s s' hs hR
    dsimp only [entered] at hs ⊢
    split at hs
    · rename_i hfull
      rw [if_pos hfull]
      exact hR.refused.mpr hs
    · rename_i hfull
      rw [if_neg hfull]
      exact holds_fresh.lasts s s' hs hR
  have hleave : ∀ Q : World ι → Prop, Lasts codec i Q → (∀ s, Q s → i ∈ inside s.trace ∨ i ∈ refused s.trace) →
      Does codec clients i Q (ask .leave) (fun _ _ => True) fun _ => True :=
    fun Q hQ hfit => Job.Spec.ask hQ (fun _ _ _ _ _ => trivial) fun s w hs hmay =>
      ⟨⟨_, w, hmay, hfit s hs, rfl⟩, trivial⟩
  refine does_bind (Q := entered) ?_ fun before => ?_
  · refine Job.Spec.ask holds_outside.lasts hentered fun s w hs hmay => ?_
    have hfit : Fit codec clients i s .enter := ⟨hs.inside, hs.refused⟩
    refine ⟨⟨_, w, hmay, hfit, rfl⟩, ?_⟩
    show if maxConnections ≤ s.active then _ else _
    split
    · rename_i hfull
      show i ∈ if s.active < maxConnections then refused s.trace else insert i (refused s.trace)
      rw [if_neg (Nat.not_lt.mpr hfull)]
      exact Finset.mem_insert_self i _
    · rename_i hroom
      have hinside : i ∈ inside (World.exec i .enter w s).2.trace := by
        show i ∈ if s.active < maxConnections then insert i (inside s.trace) else inside s.trace
        rw [if_pos (Nat.lt_of_not_le hroom)]
        exact Finset.mem_insert_self i _
      refine ⟨⟨exec_sourced hfit hs.sourced, hinside, ?_⟩, hs.requests⟩
      rw [exec_now]
      exact hs.since.trans (Nat.le_add_right _ _)
  · dsimp only [entered]
    split
    · exact hleave _ (fun s s' hs hR => hR.refused.mpr hs) fun s hs => Or.inr hs
    · have hserve : Does codec clients i (Fresh codec i) (Job.attempt (serve codec rounds server (clients i)))
          (fun _ => Here codec i) fun _ => True :=
        Job.Spec.attempt (Q := fun _ => Here codec i) (does_serve rounds server)
      refine does_bind hserve fun _ => ?_
      exact hleave _ holds_here.lasts fun s hs => Or.inl hs.inside

/-! ## All threads -/

theorem outside_start : Outside codec i ({} : World ι) := by
  refine ⟨?_, Finset.notMem_empty i, Finset.notMem_empty i, Nat.le_refl 0, rfl⟩
  intro f caller kept h
  cases h

/-- What every fit call keeps holds whenever threads serve. -/
theorem serving_keeps {rounds : ℕ} {server : String} {I : World ι → Prop} (hstart : I {})
    (hkeep : ∀ i op w s, op ≠ .hang → Fit codec clients i s op → I s → I (World.exec i op w s).2)
    {threads : ι → Thread Unit} {s : World ι} (h : Serving codec rounds server clients threads s) : I s := by
  have hall := Job.Runs.safe (R := Spares codec) (G := Acts codec clients)
    (Q := fun _ _ _ => True) (fun i _ _ _ => Spares.trans) (fun i s => Spares.refl i s)
    (fun i j s s' hij hacts => hacts.spares hij) (I := I) ?_ h ?_ hstart
  · exact hall.2
  · rintro i s s' ⟨op, w, hmay, hfit, rfl⟩ hs
    exact hkeep i op w s hmay hfit hs
  · exact fun i => (does_connection rounds server {} outside_start).post fun r s _ => trivial

end Collocate.Gateway
