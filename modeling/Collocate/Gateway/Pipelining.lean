import Collocate.Gateway.Threads

/-! # Requests one behind the other (`collocate-gateway/src/lib.rs`)

On a connection that is kept, each request is taken up where the body of the one before ends, unless that body cannot
be read: then the rest of it may be taken for a request. -/
namespace Collocate.Gateway
set_option autoImplicit false
open Remote

variable {ι : Type} [DecidableEq ι]

/-- The requests of every connection are in step, or one of them had no body that can be read. -/
def Accounted (codec : Codec) (clients : ι → Client) (s : World ι) : Prop :=
  ∀ i, (clients i).sent.Faultless → InStep codec (clients i).sent.bytes (requests i s.trace) ∨
    Astray codec (clients i).sent.bytes (requests i s.trace)

theorem accounted_exec {codec : Codec} {clients : ι → Client} (j : ι) (op : Op) (w : Choice) (s : World ι)
    (hfit : Fit codec clients j s op) (hs : Accounted codec clients s) :
    Accounted codec clients (World.exec j op w s).2 := by
  intro i hfaultless
  have hsame : ∀ added : List (Event ι), (∀ e ∈ added, ∀ k r t, e ≠ .arrived k r t) →
      requests i (added ++ s.trace) = requests i s.trace := by
    intro added hadded
    induction added with
    | nil => rfl
    | cons e rest ih =>
      have hrest := ih fun e' he' => hadded e' (List.mem_cons_of_mem _ he')
      have he := hadded e (List.mem_cons_self ..)
      cases e with
      | arrived k r t => exact absurd rfl (he k r t)
      | _ => exact hrest
  rw [exec_trace]
  cases op with
  | arrived r =>
    have hrequests : requests i (World.adds j w (World.wait w s) (.arrived r) ++ s.trace) =
        if j = i then r :: requests i s.trace else requests i s.trace := rfl
    rw [hrequests]
    split
    · rename_i hij
      subst hij
      exact hfit hfaultless
    · exact hs i hfaultless
  | throttled ip =>
    rw [hsame _ ?_]
    · exact hs i hfaultless
    · intro e he k r t heq
      simp only [World.adds] at he
      split at he
      · cases he
      · rw [List.mem_singleton.mp he] at heq
        cases heq
  | enter | leave | store | recordFailure | call | sendWithFds | write =>
    rw [hsame _ fun e he k r t heq => by
      rw [List.mem_singleton.mp he] at heq
      cases heq]
    exact hs i hfaultless
  | _ => exact hs i hfaultless

/-! ## A request and one in its body -/

def lostCodec : Codec where
  parse _ := some {
    method := some "POST", path := some "/", version := some 1
    headers := [("transfer-encoding", [99, 104, 117, 110, 107, 101, 100])] }
  timedOut _ := false
  enrollment _ := .error ""
  urlSafe _ := none
  standard _ := none
  token _ := none
  caller _ := none
  request _ := .error ""
  withoutCertificate t := t
  acceptKey t := t
  eofMark _ := false
  debugResponse _ := ""

/-- Twice a head and a body of no chunks, then a head and a chunk without a size, which holds another head. -/
def sender : Client where
  peer := { fingerprint := none, pem := none, ip := none }
  sent := { bytes := [13, 10, 13, 10, 48, 10, 10] ++ [13, 10, 13, 10, 48, 10, 10] ++ [13, 10, 13, 10] ++
    [120, 10, 13, 10, 13, 10] }

def chunkedHead : Received where
  head := { method := "POST", path := "/", headers := [("transfer-encoding", "chunked")], http10 := false }
  query := []

def sendRun (calls : ℕ) : Option ((Unit → Thread Unit) × World Unit) :=
  Job.playIf World.exec (fun _ op _ _ => op != .hang) (List.replicate calls ((), {}))
    (fun _ => connection lostCodec 1 "" sender) {}

theorem sendRun_requests : (sendRun 9).map (fun r => requests () r.2.trace) = some (List.replicate 4 chunkedHead) := by
  decide +kernel

/-- On a connection whose reads do not fail, every request begins where the body of the one before ends, unless a
request before it has no body that can be read, or one that is too long for its endpoint. -/
theorem requests_in_step {codec : Codec} {rounds : ℕ} {server : String} {clients : ι → Client}
    {threads : ι → Thread Unit} {s : World ι} (h : Serving codec rounds server clients threads s) (i : ι)
    (hreads : (clients i).sent.Faultless) :
    InStep codec (clients i).sent.bytes (requests i s.trace) ∨
      Astray codec (clients i).sent.bytes (requests i s.trace) := by
  have hstart : Accounted codec clients ({} : World ι) := fun _ _ => Or.inl (Or.inl rfl)
  exact serving_keeps hstart (fun j op w s _ hfit hs => accounted_exec j op w s hfit hs) h i hreads

theorem sender_in_step : InStep lostCodec sender.sent.bytes (List.replicate 4 chunkedHead) ∨
    Astray lostCodec sender.sent.bytes (List.replicate 4 chunkedHead) := by
  obtain ⟨r, hrun, hrequests⟩ := Option.map_eq_some_iff.mp sendRun_requests
  have hserving : Serving lostCodec 1 "" (fun _ => sender) r.1 r.2 :=
    Job.runs_playIf (fun i op w s hop => bne_iff_ne.mp hop) _ hrun
  have hstep := requests_in_step hserving () (fun r hr => by cases hr)
  rwa [hrequests] at hstep

end Collocate.Gateway
