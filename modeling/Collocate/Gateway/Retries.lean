import Collocate.Core.Wire
import Collocate.Gateway.Serve

/-! # Calls over a kept connection (`collocate-gateway/src/lib.rs`, `collocate-core/src/client.rs`)

`daemon_call` keeps its connection from call to call, and tries again over a new one when the first attempt finds it
broken. Here a connection is the bytes that the daemon has written and the gateway has not read. As long as no answer is
longer than a frame may be, every call is told the answer to its own request, and a request is carried out
once more than its answers were lost, at most. -/
namespace Collocate.Gateway
set_option autoImplicit false

/-! ## Connections -/

/-- What `serde_json` writes and reads. -/
structure Coding where
  request : Request → List UInt8
  response : Response → List UInt8
  decode : List UInt8 → Result Response

/-- The daemon's side: what it has written to each connection and is not read yet, the requests it has carried out with
its answers, and how many of the answers were lost. -/
structure Daemon where
  inbox : Link → List UInt8 := fun _ => []
  next : Link := 0
  done : List (Request × Response) := []
  lost : ℕ := 0

/-- What becomes of a call: it cannot be written; the daemon goes away before it takes it, or after it has written
only so much of its answer; or it answers. -/
inductive Fate
  | refused (e : String)
  | dropped
  | cut (response : Response) (n : ℕ)
  | answered (response : Response)
  deriving DecidableEq

namespace Daemon

def setInbox (d : Daemon) (link : Link) (bytes : List UInt8) : Daemon :=
  { d with inbox := Function.update d.inbox link bytes }

/-- The end of `Client::call`: `read_frame` and `into_result`. -/
def readAnswer (coding : Coding) (link : Link) (d : Daemon) : Result Response × Daemon :=
  let (answer, rest) := readFrame coding.decode (d.inbox link)
  (answer.bind intoResult, d.setInbox link rest)

/-- `Daemon::send`, which writes a frame without a look at its length, as far as the first `n` bytes. -/
def carryOut (coding : Coding) (link : Link) (request : Request) (response : Response) (n : ℕ) (d : Daemon) : Daemon :=
  let answer := frame (coding.response response)
  { d with
    inbox := Function.update d.inbox link (d.inbox link ++ answer.take n)
    done := d.done ++ [(request, response)]
    lost := if n < answer.length then d.lost + 1 else d.lost }

def call (coding : Coding) (link : Link) (request : Request) (f : Fate) (d : Daemon) : Result Response × Daemon :=
  if maxFrame < (coding.request request).length then (.error (.frameTooLarge (coding.request request).length), d)
  else match f with
  | .refused e => (.error (.io e), d)
  | .dropped => readAnswer coding link d
  | .cut response n => readAnswer coding link (carryOut coding link request response n d)
  | .answered response =>
    readAnswer coding link (carryOut coding link request response (frame (coding.response response)).length d)

def connect (f : Fate) (d : Daemon) : Result Link × Daemon :=
  match f with
  | .refused e => (.error (.unreachable e), d)
  | _ => (.ok d.next, { d.setInbox d.next [] with next := d.next + 1 })

/-- The calls that `daemon_call` makes; the others have nothing to do with the daemon. -/
def exec (coding : Coding) (op : Op) (f : Fate) (d : Daemon) : Ans op × Daemon :=
  match op with
  | .connect => connect f d
  | .call link request => call coding link request f d
  | op => ((World.exec () op {} {}).1, d)

end Daemon

/-- A thread's run, whatever becomes of its calls. -/
abbrev Goes {α : Type} (coding : Coding) (thread : Thread α) (d : Daemon) (thread' : Thread α) (d' : Daemon) : Prop :=
  Job.Goes (Daemon.exec coding) (fun _ _ _ => True) thread d thread' d'

/-- The calls that one thread makes, one after the other. -/
def callAll : List Request → Option Link → Thread (List (Result Response))
  | [], _ => pure []
  | request :: requests, daemon => do
    let (result, daemon) ← daemonCall daemon request
    let results ← callAll requests daemon
    pure (result :: results)

/-! ## Reading an answer -/

/-- A connection that was broken before the answer had been read. -/
def Broken (e : Error) : Prop := e = .eof ∨ ∃ t, e = .io t

theorem readPayload_frame {payload : List UInt8} (h : payload.length ≤ maxFrame) :
    readPayload (frame payload) = (.ok payload, []) := by
  have hmax : maxFrame < 2 ^ 32 := by decide
  have htake : (frame payload).take 4 = toBeBytes payload.length := rfl
  have hdrop : (frame payload).drop 4 = payload := rfl
  have hlen : fromBeBytes (toBeBytes payload.length) = payload.length := fromBeBytes_toBeBytes _ (by omega)
  have htotal : (frame payload).length = 4 + payload.length := List.length_append
  have hne : frame payload ≠ [] := List.cons_ne_nil _ _
  unfold readPayload
  simp only [htake, hlen]
  rw [if_neg hne, if_neg (by omega), if_neg (by omega), if_neg (by omega), hdrop, List.take_length, ← List.drop_drop,
    hdrop, List.drop_length]

/-- What is cut off in the middle is read as broken, and nothing of it stays. -/
theorem readPayload_cut {payload : List UInt8} (h : payload.length ≤ maxFrame) {n : ℕ}
    (hn : n < (frame payload).length) :
    ∃ e, readPayload ((frame payload).take n) = (.error e, []) ∧ Broken e := by
  have hmax : maxFrame < 2 ^ 32 := by decide
  have hlen : fromBeBytes (toBeBytes payload.length) = payload.length := fromBeBytes_toBeBytes _ (by omega)
  have htotal : (frame payload).length = 4 + payload.length := List.length_append
  have hcut : ((frame payload).take n).length = n := by
    rw [List.length_take]
    omega
  unfold readPayload
  by_cases hzero : (frame payload).take n = []
  · exact ⟨.eof, by rw [if_pos hzero], Or.inl rfl⟩
  rw [if_neg hzero, hcut]
  by_cases hfour : n < 4
  · exact ⟨unexpectedEof, by rw [if_pos hfour], Or.inr ⟨_, rfl⟩⟩
  · have htake : ((frame payload).take n).take 4 = toBeBytes payload.length := by
      rw [List.take_take, min_eq_left (by omega)]
      rfl
    simp only [htake, hlen]
    rw [if_neg hfour, if_neg (by omega), if_pos (by omega)]
    exact ⟨unexpectedEof, rfl, Or.inr ⟨_, rfl⟩⟩

/-! ## One call -/

/-- A call that ends without an answer. -/
def Unanswered (e : Error) : Prop := Broken e ∨ (∃ n, e = .frameTooLarge n) ∨ ∃ t, e = .unreachable t

/-- What a call comes to, with the responses of the daemon to its attempts: all are lost, or all but the last. -/
inductive Outcome : Result Response → List Response → ℕ → Prop
  | answered (lost : List Response) (response : Response) :
      Outcome (intoResult response) (lost ++ [response]) lost.length
  | unanswered (lost : List Response) (e : Error) (h : Unanswered e) : Outcome (.error e) lost lost.length

/-- What a list of calls comes to, with all that the daemon has carried out for them and the number of lost answers. -/
inductive Outcomes : List Request → List (Result Response) → List (Request × Response) → ℕ → Prop
  | nil : Outcomes [] [] [] 0
  | cons {request : Request} {requests : List Request} {result : Result Response} {results : List (Result Response)}
      {responses : List Response} {done : List (Request × Response)} {lost lost' : ℕ}
      (h : Outcome result responses lost) (hfew : responses.length ≤ 2) (hrest : Outcomes requests results done lost') :
      Outcomes (request :: requests) (result :: results) (responses.map (fun r => (request, r)) ++ done) (lost + lost')

/-- Nothing is left to read on the connection that is kept. -/
def Daemon.Clean (d : Daemon) (daemon : Option Link) : Prop := ∀ link, daemon = some link → d.inbox link = []

/-- One attempt over a clean connection: nothing is carried out; or the answer is lost; or it is told. -/
structure Daemon.Attempted (request : Request) (link : Link) (d : Daemon) (result : Result Response) (d' : Daemon) :
    Prop where
  clean : d'.inbox link = []
  came : (d'.done = d.done ∧ d'.lost = d.lost ∧ ∃ e, result = .error e ∧ Unanswered e) ∨
    (∃ response, d'.done = d.done ++ [(request, response)] ∧ d'.lost = d.lost + 1 ∧ ∃ e, result = .error e ∧ Broken e) ∨
    ∃ response, d'.done = d.done ++ [(request, response)] ∧ d'.lost = d.lost ∧ result = intoResult response

variable {coding : Coding}

theorem readAnswer_error {link : Link} {d : Daemon} {e : Error} (h : readPayload (d.inbox link) = (.error e, [])) :
    Daemon.readAnswer coding link d = (.error e, d.setInbox link []) := by
  unfold Daemon.readAnswer readFrame
  rw [Eff.bind_of_error h]
  rfl

theorem readAnswer_ok {link : Link} {d : Daemon} {response : Response}
    (hdecode : coding.decode (coding.response response) = .ok response)
    (h : readPayload (d.inbox link) = (.ok (coding.response response), [])) :
    Daemon.readAnswer coding link d = (intoResult response, d.setInbox link []) := by
  unfold Daemon.readAnswer readFrame
  rw [Eff.bind_of_ok h, hdecode]
  rfl

theorem setInbox_self (d : Daemon) (link : Link) (bytes : List UInt8) : (d.setInbox link bytes).inbox link = bytes :=
  Function.update_self ..

/-- The answers to all that was carried out fit into frames, and are read as they were meant. -/
def Daemon.Legible (coding : Coding) (d : Daemon) : Prop :=
  ∀ x ∈ d.done, (coding.response x.2).length ≤ maxFrame ∧ coding.decode (coding.response x.2) = .ok x.2

/-- The daemon writes all of its answer, or a part of it. -/
theorem attempted_carryOut {link : Link} {request : Request} {response : Response} {d : Daemon}
    (hclean : d.inbox link = []) (n : ℕ)
    (hlegible : (Daemon.readAnswer coding link (Daemon.carryOut coding link request response n d)).2.Legible coding) :
    Daemon.Attempted request link d
      (Daemon.readAnswer coding link (Daemon.carryOut coding link request response n d)).1
      (Daemon.readAnswer coding link (Daemon.carryOut coding link request response n d)).2 := by
  obtain ⟨hshort, hdecode⟩ := hlegible (request, response) (List.mem_append_right _ (List.mem_singleton_self _))
  have hinbox : (Daemon.carryOut coding link request response n d).inbox link =
      (frame (coding.response response)).take n := by
    show Function.update d.inbox link _ link = _
    rw [Function.update_self, hclean, List.nil_append]
  by_cases hn : n < (frame (coding.response response)).length
  · obtain ⟨e, hread, hbroken⟩ := readPayload_cut hshort hn
    rw [← hinbox] at hread
    rw [readAnswer_error hread]
    exact ⟨setInbox_self .., Or.inr (Or.inl ⟨response, rfl, if_pos hn, e, rfl, hbroken⟩)⟩
  · have hread : readPayload ((Daemon.carryOut coding link request response n d).inbox link) =
        (.ok (coding.response response), []) := by
      rw [hinbox, List.take_of_length_le (Nat.le_of_not_lt hn)]
      exact readPayload_frame hshort
    rw [readAnswer_ok hdecode hread]
    exact ⟨setInbox_self .., Or.inr (Or.inr ⟨response, rfl, if_neg hn, rfl⟩)⟩

theorem attempted_call {link : Link} {request : Request} {f : Fate} {d : Daemon} (hclean : d.inbox link = [])
    (hlegible : (Daemon.call coding link request f d).2.Legible coding) :
    Daemon.Attempted request link d (Daemon.call coding link request f d).1
      (Daemon.call coding link request f d).2 := by
  unfold Daemon.call at hlegible ⊢
  split
  · exact ⟨hclean, Or.inl ⟨rfl, rfl, _, rfl, Or.inr (Or.inl ⟨_, rfl⟩)⟩⟩
  · rename_i hfits
    rw [if_neg hfits] at hlegible
    cases f with
    | refused e => exact ⟨hclean, Or.inl ⟨rfl, rfl, _, rfl, Or.inl (Or.inr ⟨e, rfl⟩)⟩⟩
    | dropped =>
      have hread : readPayload (d.inbox link) = (.error .eof, []) := by
        rw [hclean]
        rfl
      dsimp only
      rw [readAnswer_error hread]
      exact ⟨setInbox_self .., Or.inl ⟨rfl, rfl, _, rfl, Or.inl (Or.inl rfl)⟩⟩
    | cut response n => exact attempted_carryOut hclean n hlegible
    | answered response => exact attempted_carryOut hclean _ hlegible

/-! ## Many calls -/

theorem Outcome.lose {result : Result Response} {responses : List Response} {lost : ℕ}
    (h : Outcome result responses lost) (response : Response) : Outcome result (response :: responses) (lost + 1) := by
  cases h with
  | answered earlier last => exact .answered (response :: earlier) last
  | unanswered _ e he => exact .unanswered (response :: responses) e he

/-- An error that the daemon answers with is not taken for a broken connection. -/
theorem intoResult_unbroken {response : Response} {e : Error} (h : intoResult response = .error e) : ¬Broken e := by
  have hio : ∀ t, intoResult response ≠ .error (.io t) := by
    intro t
    unfold intoResult
    split <;> exact fun heq => by cases heq
  have heof : intoResult response ≠ .error .eof := by
    unfold intoResult
    split <;> exact fun heq => by cases heq
  rintro (rfl | ⟨t, rfl⟩)
  · exact heof h
  · exact hio t h

/-- What is known when `daemon_call` returns. -/
def Ends (request : Request) (most : ℕ) (d : Daemon) (out : Result (Result Response × Option Link)) (d' : Daemon) :
    Prop :=
  ∃ result kept responses lost, out = .ok (result, kept) ∧ Outcome result responses lost ∧ responses.length ≤ most ∧
    d'.done = d.done ++ responses.map (fun r => (request, r)) ∧ d'.lost = d.lost + lost ∧ d'.Clean kept

theorem ends_attempts (request : Request) (ns : List ℕ) (daemon : Option Link) {d d' : Daemon}
    {out : Result (Result Response × Option Link)} (hclean : d.Clean daemon)
    (h : Goes coding (attempts request ns daemon) d (.done out) d') (hlegible : d'.Legible coding) :
    Ends request ns.length d out d' := by
  induction ns generalizing daemon d with
  | nil =>
    obtain ⟨rfl, rfl⟩ := Job.Goes.of_done h
    exact ⟨_, daemon, [], 0, rfl, .unanswered [] _ (Or.inr (Or.inr ⟨_, rfl⟩)), Nat.le_refl _, by simp, rfl, hclean⟩
  | cons n rest ih =>
    -- The attempt over a connection that is there.
    have hattempt : ∀ link d, d.inbox link = [] →
        Goes coding (attempts request (n :: rest) (some link)) d (.done out) d' →
        Ends request (n :: rest).length d out d' := by
      intro link d hlink hgo
      rcases Job.Goes.of_bind hgo with ⟨e, -, hfailed⟩ | ⟨there, d₀, hthere, hgo⟩
      · cases (Job.Goes.of_done hfailed).1
      obtain ⟨hr, hsame⟩ := Job.Goes.of_done hthere
      obtain rfl := Except.ok.inj hr
      rw [hsame] at hgo
      rcases Job.Goes.of_bind hgo with ⟨e, -, hfailed⟩ | ⟨result, d₁, hcall, hgo⟩
      · obtain ⟨f, -, hr, -⟩ := Job.Goes.of_ask _ hfailed
        cases hr
      obtain ⟨f, -, hr, rfl⟩ := Job.Goes.of_ask _ hcall
      obtain rfl := Except.ok.inj hr
      -- Either the attempt is the last one, or it is broken and another one follows.
      have hlast : ∀ result,
          Goes coding (pure (result, some link)) (Daemon.call coding link request f d).2 (.done out) d' →
          result = (Daemon.call coding link request f d).1 → Ends request (n :: rest).length d out d' := by
        rintro result hdone rfl
        obtain ⟨rfl, rfl⟩ := Job.Goes.of_done hdone
        obtain ⟨hinbox, hcame⟩ := attempted_call hlink hlegible
        have hkept : (Daemon.call coding link request f d).2.Clean (some link) := by
          intro l hl
          cases hl
          exact hinbox
        rcases hcame with ⟨hdone, hlost, e, hresult, he⟩ | ⟨response, hdone, hlost, e, hresult, he⟩ |
          ⟨response, hdone, hlost, hresult⟩
        · exact ⟨_, _, [], 0, rfl, hresult ▸ .unanswered [] e he, Nat.zero_le _, by simpa using hdone, hlost, hkept⟩
        · exact ⟨_, _, [response], 1, rfl, hresult ▸ .unanswered [response] e (Or.inl he),
            Nat.succ_le_succ (Nat.zero_le _), hdone, hlost, hkept⟩
        · exact ⟨_, _, [response], 0, rfl, hresult ▸ .answered [] response, Nat.succ_le_succ (Nat.zero_le _), hdone,
            hlost, hkept⟩
      have hagain : ∀ e, Goes coding (attempts request rest none)
          (Daemon.call coding link request f d).2 (.done out) d' → Broken e →
          (Daemon.call coding link request f d).1 = .error e → Ends request (n :: rest).length d out d' := by
        intro e hmore hbroken he
        obtain ⟨result, kept, responses, lost, hout, houtcome, hfew, hdone', hlost', hkept⟩ :=
          ih none (fun l hl => by cases hl) hmore
        have hlegible' : (Daemon.call coding link request f d).2.Legible coding := by
          intro x hx
          refine hlegible x ?_
          rw [hdone']
          exact List.mem_append_left _ hx
        obtain ⟨-, hcame⟩ := attempted_call hlink hlegible'
        rcases hcame with ⟨hdone, hlost, -⟩ | ⟨response, hdone, hlost, -⟩ | ⟨response, hdone, hlost, hresult⟩
        · rw [hdone] at hdone'
          rw [hlost] at hlost'
          exact ⟨result, kept, responses, lost, hout, houtcome, hfew.trans (Nat.le_succ _), hdone', hlost', hkept⟩
        · rw [hdone, List.append_assoc] at hdone'
          rw [hlost, Nat.add_assoc, Nat.add_comm 1] at hlost'
          exact ⟨result, kept, response :: responses, lost + 1, hout, houtcome.lose response, Nat.succ_le_succ hfew,
            hdone', hlost', hkept⟩
        · rw [he] at hresult
          exact absurd hbroken (intoResult_unbroken hresult.symm)
      have hexec : Daemon.exec coding (.call link request) f d = Daemon.call coding link request f d := rfl
      rw [hexec] at hgo
      split at hgo
      · rename_i t hresult _ _
        exact hagain (.io t) hgo (Or.inr ⟨t, rfl⟩) hresult
      · rename_i hresult _ _
        exact hagain .eof hgo (Or.inl rfl) hresult
      · exact hlast _ hgo rfl
    cases daemon with
    | some link => exact hattempt link d (hclean link rfl) h
    | none =>
      rcases Job.Goes.of_bind h with ⟨e, -, hfailed⟩ | ⟨r, d₁, hconnect, hgo⟩
      · obtain ⟨f, -, hr, -⟩ := Job.Goes.of_ask _ hfailed
        cases hr
      obtain ⟨f, -, hr, rfl⟩ := Job.Goes.of_ask _ hconnect
      obtain rfl := Except.ok.inj hr
      have hopen : Daemon.exec coding .connect f d = Daemon.connect f d := rfl
      rw [hopen] at hgo
      cases f with
      | refused e =>
        obtain ⟨rfl, rfl⟩ := Job.Goes.of_done hgo
        exact ⟨_, none, [], 0, rfl, .unanswered [] _ (Or.inr (Or.inr ⟨e, rfl⟩)), Nat.zero_le _,
          (List.append_nil _).symm, rfl, fun l hl => by cases hl⟩
      | dropped | cut | answered =>
        exact hattempt d.next { d.setInbox d.next [] with next := d.next + 1 } (setInbox_self ..) hgo

theorem Outcome.length_le {result : Result Response} {responses : List Response} {lost : ℕ}
    (h : Outcome result responses lost) : responses.length ≤ lost + 1 := by
  cases h with
  | answered earlier last => rw [List.length_append, List.length_singleton]
  | unanswered => exact Nat.le_succ _

theorem Outcomes.length_le {requests : List Request} {results : List (Result Response)}
    {done : List (Request × Response)} {lost : ℕ} (h : Outcomes requests results done lost) :
    done.length ≤ requests.length + lost := by
  induction h with
  | nil => exact Nat.zero_le _
  | cons h _ _ ih =>
    have hfirst := h.length_le
    simp only [List.length_append, List.length_map, List.length_cons]
    omega

/-- What was carried out stays carried out. -/
theorem exec_done (op : Op) (f : Fate) (d : Daemon) : d.done <+: (Daemon.exec coding op f d).2.done := by
  have hcall : ∀ link request, d.done <+: (Daemon.call coding link request f d).2.done := by
    intro link request
    unfold Daemon.call
    split
    · exact List.prefix_refl _
    · cases f with
      | refused | dropped => exact List.prefix_refl _
      | cut | answered => exact List.prefix_append _ _
  cases op with
  | call link request => exact hcall link request
  | connect =>
    cases f with
    | refused | dropped | cut | answered => exact List.prefix_refl _
  | _ => exact List.prefix_refl _

theorem goes_done {α : Type} {job job' : Thread α} {d d' : Daemon}
    (h : Goes coding job d job' d') : d.done <+: d'.done := by
  induction h with
  | refl => exact List.prefix_refl _
  | step f _ _ ih => exact ih.trans (exec_done _ f _)

theorem ends_calls (requests : List Request)
    (daemon : Option Link) {d d' : Daemon} {out : Result (List (Result Response))} (hclean : d.Clean daemon)
    (h : Goes coding (callAll requests daemon) d (.done out) d')
    (hlegible : d'.Legible coding) :
    ∃ results done lost, out = .ok results ∧ Outcomes requests results done lost ∧ d'.done = d.done ++ done ∧
      d'.lost = d.lost + lost := by
  induction requests generalizing daemon d out with
  | nil =>
    obtain ⟨rfl, rfl⟩ := Job.Goes.of_done h
    exact ⟨[], [], 0, rfl, .nil, (List.append_nil _).symm, rfl⟩
  | cons request requests ih =>
    have hfirst : ∀ {out d₁}, Goes coding (daemonCall daemon request) d (.done out) d₁ →
        d₁.Legible coding → Ends request 2 d out d₁ :=
      fun hgo hlegible => ends_attempts request (List.range 2) daemon hclean hgo hlegible
    rcases Job.Goes.of_bind h with ⟨e, -, hfailed⟩ | ⟨a, d₁, hcall, hgo⟩
    · obtain ⟨result, kept, responses, lost, hout, -⟩ := hfirst hfailed hlegible
      cases hout
    · have hlegible₁ : d₁.Legible coding := fun x hx => hlegible x ((goes_done hgo).subset hx)
      obtain ⟨result, kept, responses, lost, hout, houtcome, hfew, hdone, hlost, hkept⟩ := hfirst hcall hlegible₁
      obtain rfl := Except.ok.inj hout
      rcases Job.Goes.of_bind hgo with ⟨e, -, hfailed⟩ | ⟨results, d₂, hrest, hgo⟩
      · obtain ⟨results, done, lost', hout', -⟩ := ih kept hkept hfailed
        cases hout'
      · obtain ⟨rfl, rfl⟩ := Job.Goes.of_done hgo
        obtain ⟨results', done, lost', hout', houtcomes, hdone', hlost'⟩ := ih kept hkept hrest
        obtain rfl := Except.ok.inj hout'
        refine ⟨_, _, _, rfl, .cons houtcome hfew houtcomes, ?_, ?_⟩
        · rw [hdone', hdone, List.append_assoc]
        · rw [hlost', hlost, Nat.add_assoc]

/-- Every result of a thread's calls is what its own request was answered with last, or tells that this answer was
lost; and no more was carried out than was called and lost. -/
theorem answers_belong {requests : List Request} {d : Daemon}
    {results : List (Result Response)}
    (h : Goes coding (callAll requests none) {} (.done (.ok results)) d)
    (hlegible : d.Legible coding) :
    Outcomes requests results d.done d.lost ∧ d.done.length ≤ requests.length + d.lost := by
  obtain ⟨results', done, lost, hout, houtcomes, hdone, hlost⟩ :=
    ends_calls requests none (fun link hlink => by cases hlink) h hlegible
  obtain rfl := Except.ok.inj hout
  rw [List.nil_append] at hdone
  rw [Nat.zero_add] at hlost
  rw [hdone, hlost]
  exact ⟨houtcomes, houtcomes.length_le⟩

/-! ## A call that is carried out twice -/

def plainCoding : Coding where
  request _ := []
  response
    | .ok => [79, 75]
    | _ => []
  decode
    | [79, 75] => .ok .ok
    | _ => .error (.io "expected value")

/-- The daemon goes away in the middle of its answer, and answers over another connection. -/
def cutRun : Thread (List (Result Response)) × Daemon :=
  Job.run (Daemon.exec plainCoding) [.dropped, .cut .ok 5, .dropped, .answered .ok] (callAll [.start "web"] none) {}

theorem cutRun_result : cutRun.1.result = some (.ok [.ok .ok]) ∧
    cutRun.2.done = [(.start "web", .ok), (.start "web", .ok)] := by
  decide +kernel

theorem start_twice : Outcomes [.start "web"] [.ok .ok] cutRun.2.done cutRun.2.lost ∧
    cutRun.2.done.length ≤ 1 + cutRun.2.lost := by
  have hgoes := Job.goes_of_run (fun _ _ _ _ => trivial) cutRun_result.1
  refine answers_belong hgoes ?_
  unfold Daemon.Legible
  rw [cutRun_result.2]
  decide

end Collocate.Gateway
