import Mathlib.Data.List.Induction
import Collocate.Core.Wire

/-! # A connection of the daemon (`collocated/src/daemon.rs`)

`on_conn` takes whatever has arrived, bytes and descriptors, and handles the frames that are complete. What
handling a payload does (decoding, the request, the answer) is a parameter here: it changes the rest of
the daemon and the descriptors that wait at the connection, or drops the connection. -/
namespace Collocate.Daemon
set_option autoImplicit false

structure Conn (Fd : Type) where
  rbuf : List UInt8 := []
  fds : List Fd := []

/-- What `recv_fd` gives. -/
inductive Received (Fd : Type)
  | data (data : List UInt8) (fds : List Fd)
  | wouldBlock
  | failed

/-- A payload handed to decoding, with the daemon and the waiting descriptors it met. -/
structure Handling (σ Fd : Type) where
  payload : List UInt8
  daemon : σ
  waiting : List Fd

/-- The daemon with one of its connections, which is `none` once dropped. The two ghost fields hold the
bytes received from it and what was handled. -/
structure Server (σ Fd : Type) where
  daemon : σ
  conn : Option (Conn Fd) := some {}
  stream : List UInt8 := []
  handled : List (Handling σ Fd) := []

/-- The payloads handed to decoding. -/
def Server.payloads {σ Fd : Type} (s : Server σ Fd) : List (List UInt8) := s.handled.map Handling.payload

/-- What handling a payload leaves of the daemon and of the waiting descriptors; `none` when the connection
was dropped. -/
abbrev Handler (σ Fd : Type) := List UInt8 → σ → List Fd → σ × Option (List Fd)

section Programs
variable {σ Fd : Type}

/-- The bytes that arrive, up to the end of the stream, an error or nothing more. -/
def arriving : List (Received Fd) → List UInt8
  | [] | .wouldBlock :: _ | .failed :: _ => []
  | .data data fds :: rest => if data.isEmpty && fds.isEmpty then [] else data ++ arriving rest

/-- The loop of `recv_fd`: the connection after it, and whether the other end has closed it. -/
def receive (c : Conn Fd) : List (Received Fd) → Conn Fd × Bool
  | [] | .wouldBlock :: _ => (c, false)
  | .failed :: _ => (c, true)
  | .data data fds :: rest =>
    if data.isEmpty && fds.isEmpty then (c, true) else receive { rbuf := c.rbuf ++ data, fds := c.fds ++ fds } rest

/-- The loop over the frames in `rbuf`, and whether it met a frame that is too long. -/
def handleFrames (serve : Handler σ Fd) (s : Server σ Fd) (c : Conn Fd) : Server σ Fd × Bool :=
  if h4 : c.rbuf.length < 4 then ({ s with conn := some c }, false)
  else
    let len := fromBeBytes (c.rbuf.take 4)
    if maxFrame < len then ({ s with conn := some c }, true)
    else if c.rbuf.length < 4 + len then ({ s with conn := some c }, false)
    else
      let payload := (c.rbuf.take (4 + len)).drop 4
      let handled := s.handled ++ [(⟨payload, s.daemon, c.fds⟩ : Handling σ Fd)]
      match serve payload s.daemon c.fds with
      | (daemon, none) => ({ s with daemon, handled, conn := none }, false)
      | (daemon, some fds) => handleFrames serve { s with daemon, handled } { rbuf := c.rbuf.drop (4 + len), fds }
  termination_by c.rbuf.length
  decreasing_by
    simp only [List.length_drop]
    omega

/-- `Daemon::on_conn`; `pending` tells whether an answer to the client is still due. -/
def onConn (serve : Handler σ Fd) (pending : σ → Bool) (s : Server σ Fd) (pieces : List (Received Fd)) : Server σ Fd :=
  match s.conn with
  | none => s
  | some c =>
    let (c, ended) := receive c pieces
    let (s, refused) := handleFrames serve { s with stream := s.stream ++ arriving pieces } c
    if (ended || refused) && s.conn.isSome && !pending s.daemon then { s with conn := none } else s

/-- What happens at a daemon as far as one connection sees: it is readable, or something else changes the
daemon and perhaps drops it. -/
inductive ConnEvent (σ Fd : Type)
  | readable (pieces : List (Received Fd))
  | elsewhere (change : σ → σ) (drops : Bool)

def Server.step (serve : Handler σ Fd) (pending : σ → Bool) (s : Server σ Fd) : ConnEvent σ Fd → Server σ Fd
  | .readable pieces => onConn serve pending s pieces
  | .elsewhere change drops => { s with daemon := change s.daemon, conn := if drops then none else s.conn }

def Server.run (serve : Handler σ Fd) (pending : σ → Bool) (s : Server σ Fd) (events : List (ConnEvent σ Fd)) :
    Server σ Fd :=
  events.foldl (Server.step serve pending) s

/-- The bytes that an event brings. -/
def ConnEvent.bytes : ConnEvent σ Fd → List UInt8
  | .readable pieces => arriving pieces
  | .elsewhere _ _ => []

def delivered (events : List (ConnEvent σ Fd)) : List UInt8 := events.flatMap ConnEvent.bytes

end Programs

/-! ## What `on_conn` has handled -/

section Framing
variable {σ Fd : Type} {serve : Handler σ Fd} {pending : σ → Bool}

theorem receive_rbuf (c : Conn Fd) (pieces : List (Received Fd)) :
    (receive c pieces).1.rbuf = c.rbuf ++ arriving pieces := by
  induction pieces generalizing c with
  | nil => exact (List.append_nil _).symm
  | cons piece rest ih =>
    cases piece with
    | wouldBlock => exact (List.append_nil _).symm
    | failed => exact (List.append_nil _).symm
    | data data fds =>
      unfold receive arriving
      split
      · exact (List.append_nil _).symm
      · rw [ih, List.append_assoc]

/-- What the loop takes off the buffer is the frame at its front. -/
theorem front_frame {rbuf : List UInt8} (h4 : ¬rbuf.length < 4) (hmax : ¬maxFrame < fromBeBytes (rbuf.take 4))
    (hlen : ¬rbuf.length < 4 + fromBeBytes (rbuf.take 4)) :
    frames.front rbuf = .item ((rbuf.take (4 + fromBeBytes (rbuf.take 4))).drop 4)
      (rbuf.drop (4 + fromBeBytes (rbuf.take 4))) := by
  simp only [frames, if_neg h4, if_neg hmax, if_neg hlen, List.drop_take, Nat.add_sub_cancel_left]

/-- The payloads handled are the frames of the stream: all of them while the connection is there, with the
rest of the stream in its buffer, and the first ones when it is not. -/
structure Framed (s : Server σ Fd) : Prop where
  first : s.payloads <+: frames.items s.stream
  all : ∀ c, s.conn = some c → s.payloads = frames.items s.stream ∧ c.rbuf = frames.left s.stream

theorem Framed.dropped {s : Server σ Fd} (h : Framed s) (daemon : σ) :
    Framed ({ s with daemon, conn := none } : Server σ Fd) :=
  ⟨h.first, fun _ hc => nomatch hc⟩

/-- The loop, from a buffer whose frames are the ones still to be handled. -/
theorem framed_handleFrames (s : Server σ Fd) (c : Conn Fd)
    (hitems : frames.items s.stream = s.payloads ++ frames.items c.rbuf)
    (hleft : frames.left s.stream = frames.left c.rbuf) : Framed (handleFrames serve s c).1 := by
  have stop (s : Server σ Fd) (c : Conn Fd) (hitems : frames.items s.stream = s.payloads ++ frames.items c.rbuf)
      (hleft : frames.left s.stream = frames.left c.rbuf)
      (hs : ∀ payload rest, frames.front c.rbuf ≠ .item payload rest) : Framed { s with conn := some c } := by
    rw [Cutter.items_stop hs, List.append_nil] at hitems
    rw [Cutter.left_stop hs] at hleft
    refine ⟨⟨[], by rw [List.append_nil]; exact hitems.symm⟩, ?_⟩
    intro c' hc'
    cases hc'
    exact ⟨hitems.symm, hleft.symm⟩
  fun_induction handleFrames serve s c with
  | case1 s c h4 => exact stop s c hitems hleft (by simp [frames, h4])
  | case2 s c h4 len hmax =>
    apply stop s c hitems hleft
    intro payload rest
    simp only [frames, if_neg h4, if_pos (show maxFrame < fromBeBytes _ from hmax), ne_eq, reduceCtorEq,
      not_false_eq_true]
  | case3 s c h4 len hmax hlen =>
    apply stop s c hitems hleft
    intro payload rest
    simp only [frames, if_neg h4, if_neg (show ¬maxFrame < fromBeBytes _ from hmax),
      if_pos (show c.rbuf.length < 4 + fromBeBytes _ from hlen), ne_eq, reduceCtorEq, not_false_eq_true]
  | case4 s c h4 len hmax hlen payload handled daemon hserve =>
    have hfront := front_frame h4 hmax hlen
    rw [Cutter.items_item hfront] at hitems
    refine ⟨⟨frames.items (c.rbuf.drop (4 + len)), ?_⟩, by simp⟩
    show List.map Handling.payload (s.handled ++ [_]) ++ _ = _
    rw [List.map_append, hitems, List.append_assoc]
    rfl
  | case5 s c h4 len hmax hlen payload handled daemon fds hserve ih =>
    have hfront := front_frame h4 hmax hlen
    rw [Cutter.items_item hfront] at hitems
    rw [Cutter.left_item hfront] at hleft
    apply ih
    · show _ = List.map Handling.payload (s.handled ++ [_]) ++ _
      rw [List.map_append, List.append_assoc]
      exact hitems
    · exact hleft

theorem handleFrames_stream (s : Server σ Fd) (c : Conn Fd) : (handleFrames serve s c).1.stream = s.stream := by
  fun_induction handleFrames serve s c with
  | case1 | case2 | case3 | case4 => rfl
  | case5 s c h4 len hmax hlen payload handled daemon fds hserve ih => exact ih

/-- The handling of the last of the payloads that `s` adds to those of `s₀` has dropped the connection. -/
def DroppedBy (serve : Handler σ Fd) (s₀ s : Server σ Fd) : Prop :=
  ∃ earlier last, s.handled = earlier ++ [last] ∧ s₀.handled <+: earlier ∧
    (serve last.payload last.daemon last.waiting).2 = none

theorem handleFrames_drops (s : Server σ Fd) (c : Conn Fd) (hgone : (handleFrames serve s c).1.conn = none) :
    DroppedBy serve s (handleFrames serve s c).1 := by
  fun_induction handleFrames serve s c with
  | case1 | case2 | case3 => cases hgone
  | case4 s c h4 len hmax hlen payload handled daemon hserve =>
    exact ⟨s.handled, ⟨payload, s.daemon, c.fds⟩, rfl, List.prefix_rfl, congrArg Prod.snd hserve⟩
  | case5 s c h4 len hmax hlen payload handled daemon fds hserve ih =>
    obtain ⟨earlier, last, heq, hpre, hnone⟩ := ih hgone
    exact ⟨earlier, last, heq, (List.prefix_append _ _).trans hpre, hnone⟩

/-- A call of `on_conn` at a connection that is there: it takes in what arrives, and unless handling a payload drops
the connection all frames are handled. -/
theorem onConn_takes {s : Server σ Fd} (hs : Framed s) {c : Conn Fd} (hc : s.conn = some c)
    (pieces : List (Received Fd)) :
    let s' := onConn serve pending s pieces
    Framed s' ∧ s'.stream = s.stream ++ arriving pieces ∧
      (s'.conn = none → s'.payloads = frames.items s'.stream ∨ DroppedBy serve s s') := by
  obtain ⟨hitems, hleft⟩ := hs.all c hc
  have hrbuf := receive_rbuf c pieces
  let s₁ : Server σ Fd := { s with conn := some c, stream := s.stream ++ arriving pieces }
  have hframed : Framed (handleFrames serve s₁ (receive c pieces).1).1 := by
    apply framed_handleFrames
    · show frames.items (s.stream ++ _) = _
      rw [Cutter.items_append, ← hleft, ← hitems, hrbuf]
      rfl
    · show frames.left (s.stream ++ _) = _
      rw [Cutter.left_append, ← hleft, hrbuf]
  have hstream : (handleFrames serve s₁ (receive c pieces).1).1.stream = s.stream ++ arriving pieces :=
    handleFrames_stream s₁ _
  have hdrops : (handleFrames serve s₁ (receive c pieces).1).1.conn = none →
      DroppedBy serve s (handleFrames serve s₁ (receive c pieces).1).1 := handleFrames_drops s₁ _
  have hcall : onConn serve pending s pieces =
      let s' := (handleFrames serve s₁ (receive c pieces).1).1
      if ((receive c pieces).2 || (handleFrames serve s₁ (receive c pieces).1).2) && s'.conn.isSome &&
        !pending s'.daemon then { s' with conn := none } else s' := by
    unfold onConn
    rw [hc]
  intro s'
  show Framed s' ∧ _
  rw [show s' = _ from hcall]
  generalize handleFrames serve s₁ (receive c pieces).1 = after at hframed hstream hdrops
  dsimp only
  split
  · rename_i hends
    refine ⟨hframed.dropped _, hstream, fun _ => .inl ?_⟩
    obtain ⟨hthere, -⟩ := Bool.and_eq_true_iff.mp hends
    obtain ⟨c', hc'⟩ := Option.isSome_iff_exists.mp (Bool.and_eq_true_iff.mp hthere).2
    exact (hframed.all c' hc').1
  · exact ⟨hframed, hstream, fun hgone => .inr (hdrops hgone)⟩

theorem onConn_gone {s : Server σ Fd} (hc : s.conn = none) (pieces : List (Received Fd)) :
    onConn serve pending s pieces = s := by
  unfold onConn
  rw [hc]

theorem framed_onConn {s : Server σ Fd} (hs : Framed s) (pieces : List (Received Fd)) :
    Framed (onConn serve pending s pieces) := by
  cases hc : s.conn with
  | none =>
    rw [onConn_gone hc]
    exact hs
  | some c => exact (onConn_takes hs hc pieces).1

theorem framed_step {s : Server σ Fd} (hs : Framed s) (e : ConnEvent σ Fd) :
    Framed (Server.step serve pending s e) := by
  cases e with
  | readable pieces => exact framed_onConn hs pieces
  | elsewhere change drops =>
    cases drops with
    | false => exact ⟨hs.first, hs.all⟩
    | true => exact hs.dropped _

theorem framed_run {s : Server σ Fd} (hs : Framed s) (events : List (ConnEvent σ Fd)) :
    Framed (Server.run serve pending s events) := by
  induction events generalizing s with
  | nil => exact hs
  | cons e events ih => exact ih (framed_step hs e)

variable (serve pending) in
/-- A step at a connection that is there. -/
theorem step_takes {s : Server σ Fd} (hs : Framed s) {c : Conn Fd} (hc : s.conn = some c) (e : ConnEvent σ Fd) :
    let s' := Server.step serve pending s e
    s'.stream = s.stream ++ e.bytes ∧
      (s'.conn = none → s'.payloads = frames.items s'.stream ∨ DroppedBy serve s s') := by
  cases e with
  | readable pieces => exact (onConn_takes hs hc pieces).2
  | elsewhere change drops =>
    obtain ⟨hitems, -⟩ := hs.all c hc
    exact ⟨(List.append_nil _).symm, fun _ => .inl hitems⟩

variable (serve pending) in
theorem step_gone {s : Server σ Fd} (hc : s.conn = none) (e : ConnEvent σ Fd) :
    (Server.step serve pending s e).conn = none ∧ (Server.step serve pending s e).handled = s.handled := by
  cases e with
  | readable pieces =>
    show (onConn serve pending s pieces).conn = none ∧ _
    rw [show Server.step serve pending s (.readable pieces) = s from onConn_gone hc pieces, onConn_gone hc]
    exact ⟨hc, rfl⟩
  | elsewhere change drops =>
    refine ⟨?_, rfl⟩
    show (if drops then none else s.conn) = none
    rw [hc, ite_self]

theorem run_snoc (s : Server σ Fd) (events : List (ConnEvent σ Fd)) (e : ConnEvent σ Fd) :
    Server.run serve pending s (events ++ [e]) = Server.step serve pending (Server.run serve pending s events) e :=
  List.foldl_concat ..

theorem framed_start (daemon : σ) : Framed ({ daemon } : Server σ Fd) := by
  refine ⟨List.nil_prefix, ?_⟩
  intro c hc
  cases hc
  exact ⟨Cutter.items_nil.symm, Cutter.left_nil.symm⟩

/-- While the connection is there, all that was delivered has been taken in. -/
theorem run_stream (daemon : σ) (events : List (ConnEvent σ Fd)) {c : Conn Fd}
    (hc : (Server.run serve pending { daemon } events).conn = some c) :
    (Server.run serve pending { daemon } events).stream = delivered events := by
  induction events using List.reverseRecOn generalizing c with
  | nil => rfl
  | append_singleton events e ih =>
    rw [run_snoc] at hc ⊢
    cases hbefore : (Server.run serve pending { daemon } events).conn with
    | none =>
      rw [(step_gone serve pending hbefore e).1] at hc
      cases hc
    | some c' =>
      rw [(step_takes serve pending (framed_run (framed_start daemon) events) hbefore e).1, ih hbefore, delivered,
        delivered, List.flatMap_append, List.flatMap_singleton]

/-- The event that dropped the connection: all frames delivered up to then were handled, or the last that was handled
dropped it. -/
theorem run_gone (daemon : σ) (events : List (ConnEvent σ Fd))
    (hgone : (Server.run serve pending { daemon } events).conn = none) :
    ∃ before e after, events = before ++ e :: after ∧
      let s₀ := Server.run serve pending { daemon } before
      let s := Server.run serve pending { daemon } events
      s₀.conn ≠ none ∧ s.payloads <+: frames.items (delivered (before ++ [e])) ∧
        (s.payloads = frames.items (delivered (before ++ [e])) ∨ DroppedBy serve s₀ s) := by
  induction events using List.reverseRecOn with
  | nil => cases hgone
  | append_singleton events e ih =>
    rw [run_snoc] at hgone ⊢
    have hframed : Framed (Server.run serve pending { daemon } events) := framed_run (framed_start daemon) events
    cases hbefore : (Server.run serve pending { daemon } events).conn with
    | none =>
      obtain ⟨before, e', after, heq, hthere, hpre, hend⟩ := ih hbefore
      have hsame := (step_gone serve pending hbefore e).2
      refine ⟨before, e', after ++ [e], by rw [heq, List.append_assoc, List.cons_append], hthere, ?_, ?_⟩
      · unfold Server.payloads
        rw [hsame]
        exact hpre
      · unfold Server.payloads DroppedBy
        rw [hsame]
        exact hend
    | some c =>
      obtain ⟨hstream, hend⟩ := step_takes serve pending hframed hbefore e
      have hdelivered : (Server.step serve pending (Server.run serve pending { daemon } events) e).stream =
          delivered (events ++ [e]) := by
        rw [hstream, run_stream daemon events hbefore, delivered, delivered, List.flatMap_append,
          List.flatMap_singleton]
      refine ⟨events, e, [], rfl, by rw [hbefore]; exact Option.some_ne_none c, ?_, ?_⟩
      · rw [← hdelivered]
        exact (framed_step hframed e).first
      · rw [← hdelivered]
        exact hend hgone

end Framing

/-! ## What was handed to decoding -/

section Served
variable {σ Fd : Type} {serve : Handler σ Fd} {pending : σ → Bool} {log : σ → List (List UInt8)}

/-- What else happens at the daemon writes nothing to its log. -/
def ConnEvent.Keeps (log : σ → List (List UInt8)) : ConnEvent σ Fd → Prop
  | .readable _ => True
  | .elsewhere change _ => ∀ daemon, log (change daemon) = log daemon

/-- A handler that writes down the payloads it is given has written down those that count as handled. -/
theorem handleFrames_logs (hlog : ∀ payload daemon fds, log (serve payload daemon fds).1 = log daemon ++ [payload])
    {before : List (List UInt8)} (s : Server σ Fd) (c : Conn Fd) (hs : log s.daemon = before ++ s.payloads) :
    log (handleFrames serve s c).1.daemon = before ++ (handleFrames serve s c).1.payloads := by
  have hnext {s : Server σ Fd} (c : Conn Fd) (payload : List UInt8) (hs : log s.daemon = before ++ s.payloads) :
      log (serve payload s.daemon c.fds).1 =
        before ++ (s.handled ++ [(⟨payload, s.daemon, c.fds⟩ : Handling σ Fd)]).map Handling.payload := by
    rw [hlog, hs, List.append_assoc, List.map_append]
    rfl
  fun_induction handleFrames serve s c with
  | case1 | case2 | case3 => exact hs
  | case4 s c h4 len hmax hlen payload handled daemon hserve =>
    have hwritten := hnext c payload hs
    rw [hserve] at hwritten
    exact hwritten
  | case5 s c h4 len hmax hlen payload handled daemon fds hserve ih =>
    have hwritten := hnext c payload hs
    rw [hserve] at hwritten
    exact ih hwritten

theorem onConn_logs (hlog : ∀ payload daemon fds, log (serve payload daemon fds).1 = log daemon ++ [payload])
    {before : List (List UInt8)} {s : Server σ Fd} (hs : log s.daemon = before ++ s.payloads)
    (pieces : List (Received Fd)) :
    log (onConn serve pending s pieces).daemon = before ++ (onConn serve pending s pieces).payloads := by
  unfold onConn
  cases hc : s.conn with
  | none => exact hs
  | some c =>
    have hwritten := handleFrames_logs hlog
      { s with conn := some c, stream := s.stream ++ arriving pieces } (receive c pieces).1 hs
    show log (Server.daemon (if _ then _ else _)) = _ ++ Server.payloads (if _ then _ else _)
    split
    · exact hwritten
    · exact hwritten

theorem run_logs (hlog : ∀ payload daemon fds, log (serve payload daemon fds).1 = log daemon ++ [payload])
    {before : List (List UInt8)} {s : Server σ Fd} (hs : log s.daemon = before ++ s.payloads)
    (events : List (ConnEvent σ Fd)) (hkeeps : ∀ e ∈ events, e.Keeps log) :
    log (Server.run serve pending s events).daemon = before ++ (Server.run serve pending s events).payloads := by
  induction events generalizing s with
  | nil => exact hs
  | cons e events ih =>
    obtain ⟨hkeep, hrest⟩ := List.forall_mem_cons.mp hkeeps
    refine ih ?_ hrest
    cases e with
    | readable pieces => exact onConn_logs hlog hs pieces
    | elsewhere change drops => exact (hkeep s.daemon).trans hs

end Served

/-- However the bytes of a client arrive, while the connection is there the payloads that the daemon decodes are those
that enough calls of `read_frame` on all of them yield, and the bytes behind those wait in the buffer. Once it is
dropped, they are those that the bytes delivered up to then yield, all of them or the first ones up to that
whose handling dropped it. A handler that writes down what it is given writes down these payloads. -/
theorem framing_agrees {σ Fd : Type} (serve : Handler σ Fd) (pending : σ → Bool) (daemon : σ)
    (events : List (ConnEvent σ Fd)) (calls : ℕ) :
    let run := Server.run serve pending { daemon }
    let reference := fun events => readFrames ((delivered events).length + calls) (delivered events)
    (∀ c, (run events).conn = some c → (run events).payloads = reference events ∧
      (run events).payloads.flatMap frame ++ c.rbuf = delivered events) ∧
    ((run events).conn = none → ∃ before e after, events = before ++ e :: after ∧ (run before).conn ≠ none ∧
      (run events).payloads <+: reference (before ++ [e]) ∧
        ((run events).payloads = reference (before ++ [e]) ∨ DroppedBy serve (run before) (run events))) ∧
    ∀ log : σ → List (List UInt8), (∀ payload daemon fds, log (serve payload daemon fds).1 = log daemon ++ [payload]) →
      (∀ e ∈ events, e.Keeps log) → log (run events).daemon = log daemon ++ (run events).payloads := by
  intro run reference
  have href : ∀ events, reference events = frames.items (delivered events) := fun events =>
    readFrames_eq_items _ _ (Nat.le_add_right ..)
  refine ⟨fun c hc => ?_, fun hgone => ?_, fun log hlog hkeeps => ?_⟩
  · obtain ⟨hitems, hleft⟩ := (framed_run (framed_start daemon) events).all c hc
    have hstream := run_stream daemon events hc
    refine ⟨by rw [href, ← hstream, hitems], ?_⟩
    rw [hitems, hleft, hstream]
    exact Cutter.flatMap_items_append_left (fun _ _ _ => bytes_of_front) _
  · obtain ⟨before, e, after, heq, hthere, hpre, hend⟩ := run_gone daemon events hgone
    refine ⟨before, e, after, heq, hthere, ?_, ?_⟩
    · rw [href]
      exact hpre
    · rw [href]
      exact hend
  · exact run_logs hlog (List.append_nil _).symm events hkeeps

end Collocate.Daemon
