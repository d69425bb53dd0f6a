import Collocate.Daemon.Conn
import Collocate.Daemon.Loop
import Collocate.Lib.Along
import Collocate.Lib.Utf8

/-! # Descriptors and requests (`collocated/src/daemon.rs`, `collocate-sys/src/fdpass.rs`)

Descriptors arrive with the first byte of the message they were sent with and wait at the connection in a
queue of their own. `dispatch` is `handle` with that queue: an `Exec` takes three from its front, an
`ImageImport` one, and nothing else takes any or throws any away. -/
namespace Collocate.Daemon
set_option autoImplicit false

/-! ## Requests that take descriptors -/

/-- The descriptors a request finds at its connection, and those it has taken. -/
structure Queue (Fd : Type) where
  waiting : List Fd
  taken : List Fd := []

section Programs
variable {σ Fd : Type} (w : World σ)

abbrev FdOp (σ Fd α : Type) := Prog (State σ × Queue Fd) α

/-- A program of the daemon that does not look at the descriptors. -/
def plain {α : Type} (m : Op σ α) : FdOp σ Fd α := Eff.zoom Prod.fst (fun d s => (d, s.2)) m

def takeFds (count : ℕ) (missing : String) : FdOp σ Fd (List Fd) := do
  let s ← Eff.get
  if s.2.waiting.length < count then Eff.throw (.invalid missing)
  else do
    let fds := s.2.waiting.take count
    Eff.modify fun s => (s.1, { waiting := s.2.waiting.drop count, taken := s.2.taken ++ fds })
    pure fds

/-- `op_exec` once it has its three descriptors. -/
def execWith (conn : ℕ) (id : ContainerId) (target : String) (argv : List String) (timeoutSecs : Option UInt64)
    (service : Option String) : Op σ (Option Response) := do
  let d ← Eff.get
  match d.live.get? id with
  | none => Eff.throw (.conflict s!"{target} is not running")
  | some l =>
    if service.isSome ∧ l.spec.imageKind ≠ .pebble then
      Eff.throw (.invalid s!"{target} is not a rock; --service needs a Pebble container")
    act w (.spawnExec id argv)
    let now ← instantNow w
    Eff.modify fun d => { d with
      live := d.live.insert id { l with lastActivity := now }, marks := d.marks ++ [.active id now] }
    scheduleIdleReap w id l.spec.idleTimeoutSecs
    let tok ← token
    act w (.epollAdd tok)
    let now ← instantNow w
    let deadline ← execDeadline now timeoutSecs
    Eff.modify fun d => { d with execs := d.execs.insert tok { conn, deadline } }
    pure none

theorem opExec_eq (conn : ℕ) (target : String) (argv : List String) (timeoutSecs : Option UInt64)
    (service : Option String) :
    opExec w conn target argv timeoutSecs service = (do
      let id ← resolve w target
      act w (.takeDescriptors conn 3)
      execWith w conn id target argv timeoutSecs service) := rfl

/-- The container an `Exec` is about, on a connection that exists. -/
def execTarget (conn : ℕ) (target : String) : Op σ ContainerId := do
  let id ← resolve w target
  requireConn conn
  pure id

/-- What `op_as` checks: whether the answer is to be filtered. -/
def actFor (conn : ℕ) (caller : Caller) (request : Request) : Op σ Bool := do
  requireGateway w conn
  authorize caller request.verb request.access (targetProject w)

def dispatch (conn : ℕ) : Request → FdOp σ Fd (Option Response)
  | .exec target argv _ _ _ _ timeoutSecs service => do
    let id ← plain (execTarget w conn target)
    let _ ← takeFds 3 "exec needs stdin, stdout and stderr descriptors"
    plain (execWith w conn id target argv timeoutSecs service)
  | .imageImport => do
    plain (requireConn conn)
    let _ ← takeFds 1 "image import needs an archive file descriptor"
    plain (outside (w.serve .imageImport))
  | .as caller request => do
    let filter ← plain (actFor w conn caller request)
    let response ← dispatch conn request
    pure (if filter then response.map (filterResponse caller) else response)
  | request => plain (handle w conn request)

/-- What `on_conn` does with a payload: the request decoded, handled and answered. -/
def serveConn (decode : List UInt8 → Except String Request) (conn : ℕ) (payload : List UInt8) (d : State σ)
    (fds : List Fd) : Option Response × State σ × Queue Fd :=
  match decode payload with
  | .error e => (some (.ofError (.invalid s!"bad request: {e}")), d, { waiting := fds })
  | .ok request =>
    match dispatch w conn request (d, { waiting := fds }) with
    | (.ok response, s) => (response, s)
    | (.error e, s) => (some (.ofError e), s)

/-- The answer sent; the connection is gone if that failed or the request dropped it. -/
def handler (decode : List UInt8 → Except String Request) (conn : ℕ) : Handler (State σ) Fd := fun payload d fds =>
  let (response, d, queue) := serveConn w decode conn payload d fds
  let d := match response with
    | some r => (send w conn r d).2
    | none => d
  (d, if d.conns conn then some queue.waiting else none)

/-- How many descriptors a request is to take: three for an `Exec` of a container that is found, one for
an `ImageImport`, also on behalf of a caller who may ask for it. -/
def demand (conn : ℕ) (d : State σ) : Request → ℕ
  | .exec target .. =>
    match (execTarget w conn target d).1 with
    | .ok _ => 3
    | .error _ => 0
  | .imageImport => if d.conns conn then 1 else 0
  | .as caller request =>
    match actFor w conn caller request d with
    | (.ok _, d) => demand conn d request
    | (.error _, _) => 0
  | _ => 0

/-- How many a payload takes of those that wait: what its request is to take, or none if that is more. -/
def takes (decode : List UInt8 → Except String Request) (conn : ℕ) (h : Handling (State σ) Fd) : ℕ :=
  match decode h.payload with
  | .error _ => 0
  | .ok request =>
    let count := demand w conn h.daemon request
    if count ≤ h.waiting.length then count else 0

/-- The descriptors a payload takes. -/
def taken (decode : List UInt8 → Except String Request) (conn : ℕ) (h : Handling (State σ) Fd) : List Fd :=
  (serveConn w decode conn h.payload h.daemon h.waiting).2.2.taken

end Programs

/-! ## What one request takes -/

section Taking
variable {σ Fd : Type} {w : World σ}

/-- The first `count` descriptors, if there are as many. -/
def Queue.grab (count : ℕ) (q : Queue Fd) : Queue Fd :=
  if count ≤ q.waiting.length then { waiting := q.waiting.drop count, taken := q.taken ++ q.waiting.take count } else q

theorem grab_zero (q : Queue Fd) : q.grab 0 = q := by
  simp [Queue.grab]

theorem plain_queue {α : Type} (m : Op σ α) (s : State σ × Queue Fd) : (plain m s).2.2 = s.2 := rfl

theorem plain_bind_queue {α β : Type} (m : Op σ α) (f : α → FdOp σ Fd β) (s : State σ × Queue Fd)
    (count : State σ → ℕ) (hf : ∀ a d, (f a (d, s.2)).2.2 = s.2.grab (count d)) :
    ((plain m >>= f) s).2.2 = s.2.grab (match m s.1 with
      | (.ok _, d) => count d
      | (.error _, _) => 0) := by
  have hm : plain m s = ((m s.1).1, (m s.1).2, s.2) := rfl
  rcases h : m s.1 with ⟨e | a, d⟩
  · rw [h] at hm
    rw [Eff.bind_of_error hm]
    exact (grab_zero _).symm
  · rw [h] at hm
    rw [Eff.bind_of_ok hm]
    exact hf a d

theorem takeFds_bind_queue {α : Type} (count : ℕ) (missing : String) (m : Op σ α) (s : State σ × Queue Fd) :
    ((takeFds count missing >>= fun _ => plain m) s).2.2 = s.2.grab count := by
  unfold Queue.grab
  by_cases h : s.2.waiting.length < count
  · have hrun : (takeFds count missing : FdOp σ Fd (List Fd)) s = (.error (.invalid missing), s) := by
      unfold takeFds
      rw [Eff.get_bind_apply, if_pos h]
      rfl
    rw [Eff.bind_of_error hrun, if_neg (by omega)]
  · have hrun : (takeFds count missing : FdOp σ Fd (List Fd)) s = (.ok (s.2.waiting.take count), s.1,
        { waiting := s.2.waiting.drop count, taken := s.2.taken ++ s.2.waiting.take count }) := by
      unfold takeFds
      rw [Eff.get_bind_apply, if_neg h]
      rfl
    rw [Eff.bind_of_ok hrun, plain_queue, if_pos (by omega)]

/-- A request takes as many as it is to take, or none. -/
theorem dispatch_queue (conn : ℕ) (request : Request) (d : State σ) (q : Queue Fd) :
    (dispatch w conn request (d, q)).2.2 = q.grab (demand w conn d request) := by
  induction request generalizing d with
  | exec target argv env user workdir tty timeoutSecs service =>
    have hbind := plain_bind_queue (execTarget w conn target) (fun id => (do
      let _ ← takeFds 3 "exec needs stdin, stdout and stderr descriptors"
      plain (execWith w conn id target argv timeoutSecs service) : FdOp σ Fd (Option Response))) (d, q) (fun _ => 3)
      fun id d => takeFds_bind_queue 3 _ (execWith w conn id target argv timeoutSecs service) (d, q)
    rw [dispatch, hbind, demand]
    rcases execTarget w conn target d with ⟨e | id, d'⟩ <;> rfl
  | imageImport =>
    have hbind := plain_bind_queue (requireConn conn) (fun _ => (do
      let _ ← takeFds 1 "image import needs an archive file descriptor"
      plain (outside (w.serve .imageImport)) : FdOp σ Fd (Option Response))) (d, q) (fun _ => 1)
      fun _ d => takeFds_bind_queue 1 _ (outside (w.serve .imageImport)) (d, q)
    rw [dispatch, hbind, demand]
    unfold requireConn
    rw [Eff.get_bind_apply]
    cases d.conns conn <;> rfl
  | «as» caller request ih =>
    have hbind := plain_bind_queue (actFor w conn caller request) (fun filter => (do
      let response ← dispatch w conn request
      pure (if filter then response.map (filterResponse caller) else response) : FdOp σ Fd (Option Response)))
      (d, q) (fun d => demand w conn d request) ?_
    · rw [dispatch, hbind, demand]
      rcases actFor w conn caller request d with ⟨e | filter, d'⟩ <;> rfl
    · intro filter d
      rw [← ih d]
      rcases hrun : dispatch w conn request (d, q) with ⟨e | response, s⟩
      · rw [Eff.bind_of_error hrun]
      · rw [Eff.bind_of_ok hrun]
        rfl
  | _ => exact (grab_zero q).symm

theorem serveConn_queue (decode : List UInt8 → Except String Request) (conn : ℕ) (payload : List UInt8) (d : State σ)
    (fds : List Fd) :
    (serveConn w decode conn payload d fds).2.2 =
      { waiting := fds.drop (takes w decode conn ⟨payload, d, fds⟩)
        taken := fds.take (takes w decode conn ⟨payload, d, fds⟩) } := by
  unfold serveConn takes
  cases hdecode : decode payload with
  | error e => simp
  | ok request =>
    have hq := dispatch_queue (w := w) conn request d ({ waiting := fds } : Queue Fd)
    unfold Queue.grab at hq
    have hqueue : (match dispatch w conn request (d, ({ waiting := fds } : Queue Fd)) with
        | (.ok response, s) => (response, s)
        | (.error e, s) => (some (Response.ofError e), s)).2.2 =
        (dispatch w conn request (d, ({ waiting := fds } : Queue Fd))).2.2 := by
      rcases dispatch w conn request (d, ({ waiting := fds } : Queue Fd)) with ⟨e | r, s⟩ <;> rfl
    rw [hqueue, hq]
    split
    · rename_i h
      simp [h]
    · rename_i h
      simp [h]

theorem handler_waiting {decode : List UInt8 → Except String Request} {conn : ℕ} {payload : List UInt8} {d d' : State σ}
    {fds fds' : List Fd} (h : handler w decode conn payload d fds = (d', some fds')) :
    fds' = fds.drop (takes w decode conn ⟨payload, d, fds⟩) := by
  have hq := serveConn_queue (w := w) decode conn payload d fds
  unfold handler at h
  rcases hserve : serveConn w decode conn payload d fds with ⟨response, d₁, queue⟩
  rw [hserve] at h hq
  simp only [Prod.mk.injEq, Option.ite_none_right_eq_some, Option.some.injEq] at h
  obtain ⟨-, -, hfds⟩ := h
  rw [← hfds]
  exact congrArg Queue.waiting hq

theorem taken_eq (decode : List UInt8 → Except String Request) (conn : ℕ) (h : Handling (State σ) Fd) :
    taken w decode conn h = h.waiting.take (takes w decode conn h) :=
  congrArg Queue.taken (serveConn_queue decode conn h.payload h.daemon h.waiting)

theorem takes_le_length (decode : List UInt8 → Except String Request) (conn : ℕ) (h : Handling (State σ) Fd) :
    takes w decode conn h ≤ h.waiting.length := by
  unfold takes
  split
  · exact Nat.zero_le _
  · dsimp only
    split
    · assumption
    · exact Nat.zero_le _

theorem demand_le (conn : ℕ) (d : State σ) (request : Request) : demand w conn d request ≤ 3 := by
  fun_induction demand w conn d request with
  | case5 d caller request _ d' _ ih => exact ih
  | _ => omega

theorem takes_le (decode : List UInt8 → Except String Request) (conn : ℕ) (h : Handling (State σ) Fd) :
    takes w decode conn h ≤ 3 := by
  unfold takes
  split
  · omega
  · have := demand_le (w := w) conn h.daemon
    dsimp only
    split
    · exact demand_le ..
    · omega

end Taking

/-! ## What arrives -/

/-- A descriptor: the request it was sent with, and its place there. -/
abbrev Descriptor := ℕ × ℕ

/-- What a client sends for one request: a frame, and a number of descriptors with it. -/
structure Message where
  payload : List UInt8
  small : payload.length ≤ maxFrame
  count : ℕ

/-- A byte of the stream with the descriptors that travel with it. -/
abbrev Tagged := UInt8 × List Descriptor

/-- Room for descriptors in one `recv_fd`; the kernel closes the others. -/
def maxFds : ℕ := 4

def sentWith (i : ℕ) (m : Message) : List Descriptor := (List.range m.count).map fun j => (i, j)

def arrivesWith (i : ℕ) (m : Message) : List Descriptor := (sentWith i m).take maxFds

def Message.wire (i : ℕ) (m : Message) : List Tagged :=
  match frame m.payload with
  | [] => []
  | b :: bytes => (b, arrivesWith i m) :: bytes.map fun b => (b, [])

/-- The stream of a client, whose first message is its `i`-th. -/
def wire : ℕ → List Message → List Tagged
  | _, [] => []
  | i, m :: ms => m.wire i ++ wire (i + 1) ms

/-- The descriptors that arrive with the messages. -/
def arrivals : ℕ → List Message → List Descriptor
  | _, [] => []
  | i, m :: ms => arrivesWith i m ++ arrivals (i + 1) ms

theorem wire_bytes (i : ℕ) (ms : List Message) :
    (wire i ms).map Prod.fst = (ms.map Message.payload).flatMap frame := by
  induction ms generalizing i with
  | nil => rfl
  | cons m ms ih =>
    have hm : (m.wire i).map Prod.fst = frame m.payload := by
      unfold Message.wire
      cases frame m.payload with
      | nil => rfl
      | cons b bytes => simp [Function.comp_def]
    rw [wire, List.map_append, ih, hm]
    rfl

theorem wire_descriptors (i : ℕ) (ms : List Message) : (wire i ms).flatMap Prod.snd = arrivals i ms := by
  induction ms generalizing i with
  | nil => rfl
  | cons m ms ih =>
    have hm : (m.wire i).flatMap Prod.snd = arrivesWith i m := by
      have hf : (frame m.payload).length = m.payload.length + 4 := by simp [frame, length_toBeBytes, Nat.add_comm]
      unfold Message.wire
      cases h : frame m.payload with
      | nil =>
        rw [h] at hf
        simp at hf
      | cons b bytes => simp [List.flatMap_map]
    rw [wire, List.flatMap_append, ih, hm]
    rfl

theorem wire_append (i : ℕ) (ms ms' : List Message) : wire i (ms ++ ms') = wire i ms ++ wire (i + ms.length) ms' := by
  induction ms generalizing i with
  | nil => rfl
  | cons m ms ih =>
    rw [List.cons_append, wire, wire, ih, List.append_assoc, List.length_cons, Nat.add_assoc, Nat.add_comm 1]

theorem arrivals_append (i : ℕ) (ms ms' : List Message) :
    arrivals i (ms ++ ms') = arrivals i ms ++ arrivals (i + ms.length) ms' := by
  rw [← wire_descriptors, wire_append, List.flatMap_append, wire_descriptors, wire_descriptors]

theorem length_arrivals (i : ℕ) (ms : List Message) :
    (arrivals i ms).length = (ms.map fun m => min maxFds m.count).sum := by
  induction ms generalizing i with
  | nil => rfl
  | cons m ms ih =>
    rw [arrivals, List.length_append, ih]
    simp [arrivesWith, sentWith]

theorem le_of_mem_arrivals {i : ℕ} {ms : List Message} {f : Descriptor} (h : f ∈ arrivals i ms) : i ≤ f.1 := by
  induction ms generalizing i with
  | nil => cases h
  | cons m ms ih =>
    rcases List.mem_append.mp h with h | h
    · obtain ⟨j, -, rfl⟩ := List.mem_map.mp (List.mem_of_mem_take h)
      exact le_rfl
    · have := ih h
      omega

theorem eq_of_mem_arrivesWith {i : ℕ} {m : Message} {f : Descriptor} (h : f ∈ arrivesWith i m) : f.1 = i := by
  obtain ⟨j, -, rfl⟩ := List.mem_map.mp (List.mem_of_mem_take h)
  rfl

theorem nodup_arrivals (i : ℕ) (ms : List Message) : (arrivals i ms).Nodup := by
  induction ms generalizing i with
  | nil => exact List.nodup_nil
  | cons m ms ih =>
    have hm : (arrivesWith i m).Nodup := by
      have hsent : (sentWith i m).Nodup := List.nodup_range.map fun a b h => congrArg Prod.snd h
      exact hsent.sublist (List.take_sublist ..)
    refine List.nodup_append.mpr ⟨hm, ih (i + 1), ?_⟩
    intro f hf g hg heq
    have hfi := eq_of_mem_arrivesWith hf
    have hgi := le_of_mem_arrivals hg
    rw [← heq] at hgi
    omega

theorem items_wire (ms : List Message) :
    frames.items ((wire 0 ms).map Prod.fst) = ms.map Message.payload := by
  rw [wire_bytes, items_flatMap_frame]
  intro payload hp
  obtain ⟨m, -, rfl⟩ := List.mem_map.mp hp
  exact m.small

/-- How the last call of `recv_fd` ends the loop of `on_conn`. -/
inductive Ending
  | wouldBlock
  | closed
  | failed

def Ending.received : Ending → Received Descriptor
  | .wouldBlock => .wouldBlock
  | .closed => .data [] []
  | .failed => .failed

/-- What happens at the daemon, with the pieces of the client's stream that the kernel hands over. -/
inductive Delivery (σ : Type)
  | readable (pieces : List (Tagged × List Tagged)) (ending : Ending)
  | elsewhere (change : σ → σ) (drops : Bool)

/-- A piece has at least one byte. -/
def pieceBytes (piece : Tagged × List Tagged) : List Tagged := piece.1 :: piece.2

def pieceReceived (piece : Tagged × List Tagged) : Received Descriptor :=
  .data ((pieceBytes piece).map Prod.fst) ((pieceBytes piece).flatMap Prod.snd)

namespace Delivery

variable {σ : Type}

def event : Delivery σ → ConnEvent σ Descriptor
  | readable pieces ending => .readable (pieces.map pieceReceived ++ [ending.received])
  | elsewhere change drops => .elsewhere change drops

def tagged : Delivery σ → List Tagged
  | readable pieces _ => pieces.flatMap pieceBytes
  | elsewhere .. => []

end Delivery

theorem receive_pieces (c : Conn Descriptor) (pieces : List (Tagged × List Tagged)) (ending : Ending) :
    (receive c (pieces.map pieceReceived ++ [ending.received])).1 =
      { rbuf := c.rbuf ++ (pieces.flatMap pieceBytes).map Prod.fst
        fds := c.fds ++ (pieces.flatMap pieceBytes).flatMap Prod.snd } := by
  induction pieces generalizing c with
  | nil => cases ending <;> simp [Ending.received, receive]
  | cons piece pieces ih =>
    rw [List.map_cons, List.cons_append]
    rw [pieceReceived, receive, if_neg (by simp [pieceBytes]), ih]
    simp [pieceBytes]

theorem arriving_pieces (pieces : List (Tagged × List Tagged)) (ending : Ending) :
    arriving (pieces.map pieceReceived ++ [ending.received]) = (pieces.flatMap pieceBytes).map Prod.fst := by
  induction pieces with
  | nil => cases ending <;> simp [Ending.received, arriving]
  | cons piece pieces ih =>
    rw [List.map_cons, List.cons_append]
    rw [pieceReceived, arriving, if_neg (by simp [pieceBytes]), ih]
    simp [pieceBytes]

/-! ## Where the descriptors a request finds come from -/

section Queueing
variable {σ : Type} {serve : Handler σ Descriptor} {pending : σ → Bool} {count : Handling σ Descriptor → ℕ}
  {messages : List Message}

/-- All that the payloads handled have taken, `count` giving how many each took. -/
def takenBy (count : Handling σ Descriptor → ℕ) (handled : List (Handling σ Descriptor)) : List Descriptor :=
  handled.flatMap fun h => h.waiting.take (count h)

/-- The queue that a payload found, behind what was taken before, is what had arrived: all that came with the
messages up to its own, and perhaps with later ones. -/
def InQueue (count : Handling σ Descriptor → ℕ) (messages : List Message) (earlier : List (Handling σ Descriptor))
    (h : Handling σ Descriptor) : Prop :=
  earlier.length < messages.length ∧
    arrivals 0 (messages.take (earlier.length + 1)) <+: takenBy count earlier ++ h.waiting ∧
    takenBy count earlier ++ h.waiting <+: arrivals 0 messages

/-- The server when `arrived` is what it has received of the stream of `messages`. -/
structure Carried (count : Handling σ Descriptor → ℕ) (messages : List Message) (arrived : List Tagged)
    (s : Server σ Descriptor) : Prop where
  framed : Framed s
  stream : s.stream = arrived.map Prod.fst
  queue : ∀ c, s.conn = some c → arrived.flatMap Prod.snd = takenBy count s.handled ++ c.fds
  found : Along (InQueue count messages) s.handled

theorem prefix_flatMap {s t : List Tagged} (h : s <+: t) : s.flatMap Prod.snd <+: t.flatMap Prod.snd := by
  obtain ⟨r, rfl⟩ := h
  rw [List.flatMap_append]
  exact List.prefix_append ..

theorem takenBy_concat (handled : List (Handling σ Descriptor)) (h : Handling σ Descriptor) :
    takenBy count (handled ++ [h]) = takenBy count handled ++ h.waiting.take (count h) := by
  simp [takenBy]

/-- A payload that has arrived whole finds what was sent with it. -/
theorem inQueue_of_item {arrived : List Tagged} {handled : List (Handling σ Descriptor)} {h : Handling σ Descriptor}
    {rest : List (List UInt8)} (hwire : arrived <+: wire 0 messages)
    (hitems : frames.items (arrived.map Prod.fst) = handled.map Handling.payload ++ h.payload :: rest)
    (hqueue : arrived.flatMap Prod.snd = takenBy count handled ++ h.waiting) :
    InQueue count messages handled h := by
  obtain ⟨later, hlater⟩ := hwire
  have hprefix : handled.map Handling.payload ++ [h.payload] <+: messages.map Message.payload := by
    rw [← items_wire, ← hlater, List.map_append, Cutter.items_append, hitems]
    exact ⟨rest ++ frames.items (frames.left (arrived.map Prod.fst) ++ later.map Prod.fst), by simp⟩
  have hlength : handled.length + 1 ≤ messages.length := by
    have := hprefix.length_le
    simpa using this
  have htake : (messages.take (handled.length + 1)).map Message.payload = handled.map Handling.payload ++
    [h.payload] := by
    rw [List.map_take]
    have := List.prefix_iff_eq_take.mp hprefix
    simpa using this.symm
  -- The frames up to this one are bytes that have arrived, so the descriptors with them have, too.
  have hbytes : ((wire 0 (messages.take (handled.length + 1))).map Prod.fst) <+: arrived.map Prod.fst := by
    rw [wire_bytes, htake]
    have hall := Cutter.flatMap_items_append_left (fun _ _ _ => bytes_of_front) (arrived.map Prod.fst)
    rw [hitems] at hall
    refine ⟨rest.flatMap frame ++ frames.left (arrived.map Prod.fst), ?_⟩
    conv_rhs => rw [← hall]
    simp
  have hfirst : wire 0 (messages.take (handled.length + 1)) <+: wire 0 messages := by
    conv_rhs => rw [← List.take_append_drop (handled.length + 1) messages, wire_append]
    exact List.prefix_append ..
  have hwhole : wire 0 (messages.take (handled.length + 1)) <+: arrived := by
    apply List.prefix_of_prefix_length_le hfirst ⟨later, hlater⟩
    simpa using hbytes.length_le
  refine ⟨hlength, ?_, ?_⟩
  · rw [← hqueue, ← wire_descriptors]
    exact prefix_flatMap hwhole
  · rw [← hqueue, ← wire_descriptors]
    exact prefix_flatMap ⟨later, hlater⟩

variable (hserve : ∀ payload d fds d' fds', serve payload d fds = (d', some fds') →
    fds' = fds.drop (count ⟨payload, d, fds⟩))
include hserve

/-- The loop over the frames, from a buffer that holds the rest of what has arrived. -/
theorem carried_handleFrames {arrived : List Tagged} (hwire : arrived <+: wire 0 messages)
    (s : Server σ Descriptor) (c : Conn Descriptor) (hstream : s.stream = arrived.map Prod.fst)
    (hitems : frames.items s.stream = s.payloads ++ frames.items c.rbuf)
    (hleft : frames.left s.stream = frames.left c.rbuf)
    (hqueue : arrived.flatMap Prod.snd = takenBy count s.handled ++ c.fds)
    (hfound : Along (InQueue count messages) s.handled) :
    Carried count messages arrived (handleFrames serve s c).1 := by
  have hframed : Framed (handleFrames serve s c).1 := framed_handleFrames s c hitems hleft
  have stop (s : Server σ Descriptor) (c : Conn Descriptor) (hstream : s.stream = arrived.map Prod.fst)
      (hqueue : arrived.flatMap Prod.snd = takenBy count s.handled ++ c.fds)
      (hfound : Along (InQueue count messages) s.handled) (hframed : Framed { s with conn := some c }) :
      Carried count messages arrived { s with conn := some c } := by
    refine ⟨hframed, hstream, ?_, hfound⟩
    intro c' hc'
    cases hc'
    exact hqueue
  fun_induction handleFrames serve s c with
  | case1 s c h4 => exact stop s c hstream hqueue hfound hframed
  | case2 s c h4 len hmax => exact stop s c hstream hqueue hfound hframed
  | case3 s c h4 len hmax hlen => exact stop s c hstream hqueue hfound hframed
  | case4 s c h4 len hmax hlen payload handled daemon hrun =>
    have hfront := front_frame h4 hmax hlen
    rw [Cutter.items_item hfront, hstream] at hitems
    refine ⟨hframed, hstream, ?_, along_concat.mpr ⟨hfound, inQueue_of_item hwire hitems hqueue⟩⟩
    intro c' hc'
    cases hc'
  | case5 s c h4 len hmax hlen payload handled daemon fds hrun ih =>
    have hfront := front_frame h4 hmax hlen
    rw [Cutter.items_item hfront] at hitems
    rw [Cutter.left_item hfront] at hleft
    apply ih
    · exact hstream
    · show _ = List.map Handling.payload (s.handled ++ [_]) ++ _
      rw [List.map_append, List.append_assoc]
      exact hitems
    · exact hleft
    · show _ = takenBy count (s.handled ++ [_]) ++ fds
      rw [takenBy_concat, hserve _ _ _ _ _ hrun, List.append_assoc, List.take_append_drop]
      exact hqueue
    · rw [hstream] at hitems
      exact along_concat.mpr ⟨hfound, inQueue_of_item hwire hitems hqueue⟩
    · exact hframed

theorem carried_onConn {arrived : List Tagged} {s : Server σ Descriptor} {c : Conn Descriptor}
    (hs : Carried count messages arrived s) (hc : s.conn = some c) (pieces : List (Tagged × List Tagged))
    (ending : Ending) (hwire : arrived ++ pieces.flatMap pieceBytes <+: wire 0 messages) :
    Carried count messages (arrived ++ pieces.flatMap pieceBytes)
      (onConn serve pending s (pieces.map pieceReceived ++ [ending.received])) := by
  obtain ⟨hitems, hleft⟩ := hs.framed.all c hc
  have hqueue := hs.queue c hc
  have hcarried : Carried count messages (arrived ++ pieces.flatMap pieceBytes) (handleFrames serve
      { s with conn := some c, stream := s.stream ++ arriving (pieces.map pieceReceived ++ [ending.received]) }
      (receive c (pieces.map pieceReceived ++ [ending.received])).1).1 := by
    rw [receive_pieces, arriving_pieces]
    apply carried_handleFrames hserve hwire
    · show s.stream ++ _ = _
      rw [hs.stream, List.map_append]
    · show frames.items (s.stream ++ _) = s.payloads ++ frames.items (c.rbuf ++ _)
      rw [Cutter.items_append, ← hleft, ← hitems]
    · show frames.left (s.stream ++ _) = frames.left (c.rbuf ++ _)
      rw [Cutter.left_append, ← hleft]
    · show _ = takenBy count s.handled ++ (c.fds ++ _)
      rw [List.flatMap_append, hqueue, List.append_assoc]
    · exact hs.found
  unfold onConn
  rw [hc]
  show Carried count messages _ (if _ then _ else _)
  split
  · exact ⟨hcarried.framed.dropped _, hcarried.stream, (fun _ h => nomatch h), hcarried.found⟩
  · exact hcarried

/-- A run of the server: what it has received is all of the deliveries, or their beginning once the connection is
gone. -/
theorem carried_run (deliveries : List (Delivery σ)) {arrived sent : List Tagged} {s : Server σ Descriptor}
    (hs : Carried count messages arrived s) (hsent : s.conn.isSome → arrived = sent)
    (hwire : sent ++ deliveries.flatMap Delivery.tagged <+: wire 0 messages) :
    ∃ arrived', Carried count messages arrived' (Server.run serve pending s (deliveries.map Delivery.event)) := by
  induction deliveries generalizing arrived sent s with
  | nil => exact ⟨arrived, hs⟩
  | cons delivery deliveries ih =>
    rw [List.flatMap_cons, ← List.append_assoc] at hwire
    cases delivery with
    | elsewhere change drops =>
      have hstep : Carried count messages arrived
          (Server.step serve pending s (.elsewhere change drops)) := by
        refine ⟨framed_step hs.framed _, hs.stream, ?_, hs.found⟩
        intro c hc
        cases drops with
        | false => exact hs.queue c hc
        | true => cases hc
      apply ih hstep _ hwire
      intro hconn
      rw [Delivery.tagged, List.append_nil]
      apply hsent
      cases drops with
      | false => exact hconn
      | true => cases hconn
    | readable pieces ending =>
      cases hc : s.conn with
      | some c =>
        obtain rfl : arrived = sent := hsent (by rw [hc]; rfl)
        have hnow : arrived ++ pieces.flatMap pieceBytes <+: wire 0 messages :=
          (List.prefix_append _ (deliveries.flatMap Delivery.tagged)).trans hwire
        exact ih (carried_onConn hserve hs hc pieces ending hnow) (fun _ => rfl) hwire
      | none =>
        have hstep : Server.step serve pending s (Delivery.readable pieces ending).event = s := by
          show onConn serve pending s _ = s
          rw [onConn, hc]
        rw [List.map_cons]
        show ∃ arrived', Carried count messages arrived'
          (Server.run serve pending (Server.step serve pending s _) (deliveries.map Delivery.event))
        rw [hstep]
        exact ih hs (fun h => by rw [hc] at h; cases h) hwire

end Queueing

/-! ## Whose descriptors a request takes -/

section Owning
variable {σ : Type} (w : World σ) (decode : List UInt8 → Except String Request) (conn : ℕ)

/-- A request takes exactly the descriptors that were sent with it, if it takes any. -/
def TakesItsOwn (messages : List Message) (handled : List (Handling (State σ) Descriptor)) : Prop :=
  ∀ i h m, handled[i]? = some h → messages[i]? = some m → taken w decode conn h ≠ [] →
    taken w decode conn h = sentWith i m

/-- A request that takes descriptors carries as many as it takes, and those before it took together as many as
had arrived with them. -/
def Balanced (messages : List Message) (handled : List (Handling (State σ) Descriptor)) : Prop :=
  ∀ i h m, handled[i]? = some h → messages[i]? = some m → 0 < takes w decode conn h →
    m.count = takes w decode conn h ∧
    ((handled.take i).map (takes w decode conn)).sum = ((messages.take i).map fun m => min maxFds m.count).sum

/-- What is handled in a run on a connection that the daemon `d` has just accepted. -/
def handledIn (d : State σ) (deliveries : List (Delivery (State σ))) : List (Handling (State σ) Descriptor) :=
  (Server.run (handler w decode conn) (fun d => d.owes conn) { daemon := d } (deliveries.map Delivery.event)).handled

variable {w decode conn}

theorem length_takenBy {handled : List (Handling (State σ) Descriptor)} :
    (takenBy (takes w decode conn) handled).length = (handled.map (takes w decode conn)).sum := by
  induction handled with
  | nil => rfl
  | cons h handled ih =>
    have hle := takes_le_length (w := w) decode conn h
    show (h.waiting.take _ ++ takenBy _ handled).length = _
    rw [List.length_append, ih, List.length_take, Nat.min_eq_left hle, List.map_cons, List.sum_cons]

/-- What a request finds: behind the descriptors that came before, those that came with it and perhaps later ones. -/
theorem queue_split {count : Handling (State σ) Descriptor → ℕ} {messages : List Message}
    {earlier : List (Handling (State σ) Descriptor)} {h : Handling (State σ) Descriptor} {m : Message}
    (hfound : InQueue count messages earlier h) (hm : messages[earlier.length]? = some m) :
    ∃ later, takenBy count earlier ++ h.waiting =
      arrivals 0 (messages.take earlier.length) ++ (arrivesWith earlier.length m ++ later) := by
  obtain ⟨hlt, ⟨later, hlater⟩, -⟩ := hfound
  refine ⟨later, ?_⟩
  have hlength : (messages.take earlier.length).length = earlier.length := by
    rw [List.length_take]
    omega
  have htake : messages.take (earlier.length + 1) = messages.take earlier.length ++ [m] := by
    rw [List.take_add_one, hm]
    rfl
  rw [← hlater, htake, arrivals_append, hlength, Nat.zero_add, List.append_assoc]
  simp [arrivals]

theorem arrivesWith_of_le {i : ℕ} {m : Message} (h : m.count ≤ maxFds) : arrivesWith i m = sentWith i m := by
  apply List.take_of_length_le
  simpa [sentWith] using h

theorem length_sentWith (i : ℕ) (m : Message) : (sentWith i m).length = m.count := by
  simp [sentWith]

theorem sentWith_head {i : ℕ} {m : Message} (h : 0 < m.count) : (sentWith i m)[0]? = some (i, 0) := by
  simp [sentWith, h]

/-- One request: what it takes is what was sent with it just if it carries as many as it takes, and what is gone
from the queue is what had come before. -/
theorem takes_own_iff {messages : List Message} {earlier : List (Handling (State σ) Descriptor)}
    {h : Handling (State σ) Descriptor} {m : Message} (hfound : InQueue (takes w decode conn) messages earlier h)
    (hm : messages[earlier.length]? = some m) (hpos : 0 < takes w decode conn h) :
    taken w decode conn h = sentWith earlier.length m ↔
      m.count = takes w decode conn h ∧ (earlier.map (takes w decode conn)).sum =
        ((messages.take earlier.length).map fun m => min maxFds m.count).sum := by
  obtain ⟨later, hsplit⟩ := queue_split hfound hm
  have hle := takes_le_length (w := w) decode conn h
  rw [← length_takenBy, ← length_arrivals 0 (messages.take earlier.length), taken_eq]
  constructor
  · intro hown
    have hcount : m.count = takes w decode conn h := by
      rw [← length_sentWith earlier.length m, ← hown, List.length_take, Nat.min_eq_left hle]
    refine ⟨hcount, ?_⟩
    -- The first descriptor of the request stands once in all that has arrived.
    have hnodup : (takenBy (takes w decode conn) earlier ++ h.waiting).Nodup :=
      (nodup_arrivals 0 messages).sublist hfound.2.2.sublist
    have hthere :
        (takenBy (takes w decode conn) earlier ++ h.waiting)[(takenBy (takes w decode conn) earlier).length]? =
          some (earlier.length, 0) := by
      have hhead : h.waiting[0]? = (h.waiting.take (takes w decode conn h))[0]? := by
        rw [List.getElem?_take_of_lt hpos]
      rw [List.getElem?_append_right (Nat.le_refl _), Nat.sub_self, hhead, hown, sentWith_head (by omega)]
    have hhere :
        (takenBy (takes w decode conn) earlier ++ h.waiting)[(arrivals 0 (messages.take earlier.length)).length]? =
          some (earlier.length, 0) := by
      have hall : arrivesWith earlier.length m = sentWith earlier.length m := by
        apply arrivesWith_of_le
        have := takes_le (w := w) decode conn h
        unfold maxFds
        omega
      have hne : 0 < (sentWith earlier.length m).length := by rw [length_sentWith]; omega
      rw [hsplit, List.getElem?_append_right (Nat.le_refl _), Nat.sub_self, hall, List.getElem?_append_left hne,
        sentWith_head (by omega)]
    have hlt : (takenBy (takes w decode conn) earlier).length <
        (takenBy (takes w decode conn) earlier ++ h.waiting).length := by
      rw [List.length_append]
      omega
    exact (List.getElem?_inj hlt hnodup).mp (hthere.trans hhere.symm)
  · rintro ⟨hcount, hsum⟩
    obtain ⟨-, hwaiting⟩ := List.append_inj hsplit hsum
    have hall : arrivesWith earlier.length m = sentWith earlier.length m := by
      apply arrivesWith_of_le
      have := takes_le (w := w) decode conn h
      unfold maxFds
      omega
    rw [hwaiting, hall]
    exact List.take_left' ((length_sentWith ..).trans hcount)

theorem found_in_run (d : State σ) (messages : List Message) (deliveries : List (Delivery (State σ)))
    (hsent : deliveries.flatMap Delivery.tagged <+: wire 0 messages) :
    Along (InQueue (takes w decode conn) messages) (handledIn w decode conn d deliveries) := by
  have hstart : Carried (takes w decode conn) messages [] ({ daemon := d } : Server (State σ) Descriptor) := by
    refine ⟨⟨List.nil_prefix, ?_⟩, rfl, ?_, along_nil⟩
    · intro c hc
      cases hc
      exact ⟨Cutter.items_nil.symm, Cutter.left_nil.symm⟩
    · intro c hc
      cases hc
      rfl
  obtain ⟨arrived, hrun⟩ : ∃ arrived, Carried (takes w decode conn) messages arrived
      (Server.run (handler w decode conn) (fun d => d.owes conn) { daemon := d } (deliveries.map Delivery.event)) :=
    carried_run (fun _ _ _ _ _ h => handler_waiting h) deliveries hstart (fun _ => rfl)
      (by rw [List.nil_append]; exact hsent)
  exact hrun.found

/-- In every run on a connection, however the client's stream is cut: requests take their own descriptors exactly when
each that takes some carries as many, with as many taken before it as had come before it. -/
theorem descriptors_own_iff (w : World σ) (decode : List UInt8 → Except String Request) (conn : ℕ) (d : State σ)
    (messages : List Message) (deliveries : List (Delivery (State σ)))
    (hsent : deliveries.flatMap Delivery.tagged <+: wire 0 messages) :
    TakesItsOwn w decode conn messages (handledIn w decode conn d deliveries) ↔
      Balanced w decode conn messages (handledIn w decode conn d deliveries) := by
  have hfound : Along (InQueue (takes w decode conn) messages) (handledIn w decode conn d deliveries) :=
    found_in_run d messages deliveries hsent
  have hone (i : ℕ) (h : Handling (State σ) Descriptor) (m : Message)
      (hi : (handledIn w decode conn d deliveries)[i]? = some h) (hm : messages[i]? = some m)
      (hpos : 0 < takes w decode conn h) :
      taken w decode conn h = sentWith i m ↔ m.count = takes w decode conn h ∧
        (((handledIn w decode conn d deliveries).take i).map (takes w decode conn)).sum =
          ((messages.take i).map fun m => min maxFds m.count).sum := by
    obtain ⟨hlt, hget⟩ := List.getElem?_eq_some_iff.mp hi
    have hlength : ((handledIn w decode conn d deliveries).take i).length = i := by
      rw [List.length_take]
      omega
    have hentry := hfound _ h ((handledIn w decode conn d deliveries).drop (i + 1))
      (by rw [← hget, List.getElem_cons_drop, List.take_append_drop])
    have hiff := takes_own_iff hentry (by rw [hlength]; exact hm) hpos
    rwa [hlength] at hiff
  have htaken (h : Handling (State σ) Descriptor) : taken w decode conn h ≠ [] ↔ 0 < takes w decode conn h := by
    have hle := takes_le_length (w := w) decode conn h
    rw [taken_eq, Nat.pos_iff_ne_zero, ne_eq, List.take_eq_nil_iff]
    constructor
    · exact fun hne h0 => hne (Or.inl h0)
    · rintro hne (h0 | h0)
      · exact hne h0
      · rw [h0] at hle
        exact hne (by simpa using hle)
  constructor
  · intro hown i h m hi hm hpos
    exact (hone i h m hi hm hpos).mp (hown i h m hi hm ((htaken h).mpr hpos))
  · intro hbalanced i h m hi hm hne
    have hpos := (htaken h).mp hne
    exact (hone i h m hi hm hpos).mpr (hbalanced i h m hi hm hpos)

end Owning

/-! ## An import of another request's descriptor -/

def goneText : List UInt8 :=
  Utf8.ascii "\x7b\"verb\":\"exec\",\"target\":\"gone\",\"argv\":[\"id\"],\"env\":[],\"tty\":false\x7d"

def importText : List UInt8 := Utf8.ascii "\x7b\"verb\":\"image_import\"\x7d"

def parseTwo (payload : List UInt8) : Except String Request :=
  if payload = goneText then .ok (.exec "gone" ["id"] [] none none false none none)
  else if payload = importText then .ok .imageImport
  else .error "expected value"

def refusedThenImport : List Message :=
  [⟨goneText, by decide +kernel, 3⟩, ⟨importText, by decide +kernel, 1⟩]

/-- Each message is a piece of its own. -/
def oneByOne : List (Delivery (State ℕ)) :=
  (refusedThenImport.zipIdx.map fun (m, i) => match m.wire i with
    | [] => .elsewhere id false
    | b :: bytes => .readable [(b, bytes)] .wouldBlock)

def connected : State ℕ := { blank 0 {} .empty .overlay with conns := fun _ => true }

/-- The pieces of `oneByOne` are the client's stream, and the second payload takes the first one's descriptor. -/
theorem oneByOne_takes : oneByOne.flatMap Delivery.tagged = wire 0 refusedThenImport ∧
    ((handledIn workingWorld parseTwo 7 connected oneByOne)[1]?.map (taken workingWorld parseTwo 7)) =
      some [(0, 0)] := by
  decide +kernel

/-- An `Exec` of a container that does not exist leaves its descriptors behind; an `ImageImport` then reads the
archive from the standard input of that `Exec`. -/
theorem import_takes_left_over :
    ¬∀ (messages : List Message) (deliveries : List (Delivery (State ℕ))),
      deliveries.flatMap Delivery.tagged <+: wire 0 messages →
        TakesItsOwn workingWorld parseTwo 7 messages (handledIn workingWorld parseTwo 7 connected deliveries) := by
  intro h
  obtain ⟨hwire, hsecond⟩ := oneByOne_takes
  obtain ⟨e, he, htaken⟩ := Option.map_eq_some_iff.mp hsecond
  have hown := h refusedThenImport oneByOne (hwire ▸ List.prefix_rfl) 1 e _ he rfl (by rw [htaken]; decide)
  rw [htaken] at hown
  exact absurd hown (by decide)

/-- The daemon with a container to run commands in. -/
def connectedToWeb : State ℕ :=
  (opRun workingWorld webSpec { (boot workingWorld (blank 0 {} .empty .overlay)).2 with conns := fun _ => true }).2

def webText : List UInt8 :=
  Utf8.ascii "\x7b\"verb\":\"exec\",\"target\":\"web\",\"argv\":[\"id\"],\"env\":[],\"tty\":false\x7d"

def parseWeb (payload : List UInt8) : Except String Request :=
  if payload = webText then .ok (.exec "web" ["id"] [] none none false none none)
  else parseTwo payload

def execThenImport : List Message :=
  [⟨webText, by decide +kernel, 3⟩, ⟨importText, by decide +kernel, 1⟩]

/-- The first message arrives with some of the second, and then the rest. -/
def twoPieces : List (Delivery (State ℕ)) :=
  [(wire 0 execThenImport).take 80, (wire 0 execThenImport).drop 80].map fun piece => match piece with
    | [] => .elsewhere id false
    | b :: bytes => .readable [(b, bytes)] .wouldBlock

theorem twoPieces_take : twoPieces.flatMap Delivery.tagged = wire 0 execThenImport ∧
    (handledIn workingWorld parseWeb 7 connectedToWeb twoPieces).map (takes workingWorld parseWeb 7) = [3, 1] := by
  decide +kernel

/-- An import behind a command in a container that is there takes the archive it came with. -/
theorem import_takes_its_own : TakesItsOwn workingWorld parseWeb 7 execThenImport
    (handledIn workingWorld parseWeb 7 connectedToWeb twoPieces) := by
  obtain ⟨hwire, htakes⟩ := twoPieces_take
  refine (descriptors_own_iff workingWorld parseWeb 7 connectedToWeb execThenImport twoPieces
    (hwire ▸ List.prefix_rfl)).mpr ?_
  intro i h m hi hm hpos
  have hcount := congrArg (fun l => l[i]?) htakes
  simp only [List.getElem?_map, hi, Option.map_some] at hcount
  rw [List.map_take, htakes]
  rcases i with _ | _ | i
  · cases hm
    exact ⟨(Option.some.inj hcount).symm, rfl⟩
  · cases hm
    exact ⟨(Option.some.inj hcount).symm, rfl⟩
  · cases hcount

end Collocate.Daemon
