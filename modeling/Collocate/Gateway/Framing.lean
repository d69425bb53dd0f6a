import Collocate.Remote.Chunked
import Collocate.Gateway.Serve

/-! # Where a request begins (`collocate-gateway/src/lib.rs`)

`Heads` says which requests stand one behind the other in the bytes that a client sends, whatever pieces they come in.
A round of `serve` leaves the connection behind the body of its request, if that body is there and not too long. -/
namespace Collocate.Gateway
set_option autoImplicit false
open Remote

/-! ## Heads -/

theorem findEnd_bounds {bytes : List UInt8} {n : ℕ} (h : Buffered.findEnd bytes = some n) :
    4 ≤ n ∧ n ≤ bytes.length := by
  induction bytes generalizing n with
  | nil => cases h
  | cons b rest ih =>
    unfold Buffered.findEnd at h
    split at h
    · rename_i hends
      cases h
      exact ⟨Nat.le_refl _, (List.isPrefixOf_iff_prefix.mp hends).length_le⟩
    · obtain ⟨m, hm, rfl⟩ := Option.map_eq_some_iff.mp h
      have hbounds := ih hm
      exact ⟨hbounds.1.trans (Nat.le_succ m), Nat.succ_le_succ hbounds.2⟩

/-- The end of a head does not depend on what comes behind it. -/
theorem findEnd_append {bytes : List UInt8} {n : ℕ} (h : Buffered.findEnd bytes = some n) (more : List UInt8) :
    Buffered.findEnd (bytes ++ more) = some n := by
  induction bytes generalizing n with
  | nil => cases h
  | cons b rest ih =>
    unfold Buffered.findEnd at h
    rw [List.cons_append]
    unfold Buffered.findEnd
    by_cases hends : List.isPrefixOf [13, 10, 13, 10] (b :: rest) = true
    · have hends' : List.isPrefixOf [13, 10, 13, 10] (b :: (rest ++ more)) = true :=
        List.isPrefixOf_iff_prefix.mpr
          ((List.isPrefixOf_iff_prefix.mp hends).trans (List.prefix_append (b :: rest) more))
      rw [if_pos hends] at h
      rw [if_pos hends', h]
    · rw [if_neg hends] at h
      obtain ⟨m, hm, rfl⟩ := Option.map_eq_some_iff.mp h
      have hbounds := findEnd_bounds hm
      have hends' : ¬List.isPrefixOf [13, 10, 13, 10] (b :: (rest ++ more)) = true := by
        intro hmore
        have hlength : [13, 10, 13, 10].length ≤ (b :: rest).length := hbounds.1.trans (hbounds.2.trans (Nat.le_succ _))
        have hfronts := List.prefix_of_prefix_length_le (List.isPrefixOf_iff_prefix.mp hmore)
          (List.prefix_append (b :: rest) more) hlength
        exact hends (List.isPrefixOf_iff_prefix.mpr hfronts)
      rw [if_neg hends', ih hm]
      rfl

theorem fillHead_ok {max : ℕ} {c c' : Buffered} {head : List UInt8} (hpos : c.pos = 0)
    (h : Buffered.fillHead max c = (.ok (some head), c')) :
    ∃ n, Buffered.findEnd c.unread = some n ∧ head = c.unread.take n ∧ c'.unread = c.unread.drop n := by
  fun_induction Buffered.fillHead max c with
  | case1 c n hend =>
    cases h
    have hpending : c.pending = c.buf := by rw [Buffered.pending, hpos, List.drop_zero]
    have hbounds := findEnd_bounds hend
    refine ⟨n, ?_, ?_, ?_⟩
    · rw [Buffered.unread, hpending]
      exact findEnd_append hend _
    · rw [Buffered.unread, hpending, List.take_append_of_le_length hbounds.2]
    · show (c.buf.drop n).drop c.pos ++ c.inner.bytes = (c.pending ++ c.inner.bytes).drop n
      rw [hpending, List.drop_append_of_le_length hbounds.2, hpos, List.drop_zero]
  | case2 => cases h
  | case3 => cases h
  | case4 c hend hmax c₁ hread =>
    split at h <;> cases h
  | case5 c hend hmax b chunk c₁ hread ih =>
    obtain ⟨hbytes, -, -, -, hpos₁⟩ := Buffered.fromInner_ok hread
    obtain ⟨n, hn, hhead, hrest⟩ := ih (hpos₁.trans hpos) h
    have hunread : ({ c₁ with buf := c.buf ++ b :: chunk } : Buffered).unread = c.unread := by
      show (c.buf ++ b :: chunk).drop c₁.pos ++ c₁.inner.bytes = c.buf.drop c.pos ++ c.inner.bytes
      rw [hpos₁, hpos, List.drop_zero, List.drop_zero, hbytes, List.append_assoc]
    rw [hunread] at hn hhead hrest
    exact ⟨n, hn, hhead, hrest⟩

/-- A head that is read is what the unread bytes begin with, up to the first blank line. -/
theorem readHeadBytes_ok {max : ℕ} {c c' : Buffered} {head : List UInt8}
    (h : Buffered.readHeadBytes max c = (.ok (some head), c')) :
    ∃ n, Buffered.findEnd c.unread = some n ∧ head = c.unread.take n ∧ c'.unread = c.unread.drop n := by
  unfold Buffered.readHeadBytes at h
  split at h
  · have hunread : ({ c with buf := c.pending, pos := 0 } : Buffered).unread = c.unread := by
      show c.pending.drop 0 ++ c.inner.bytes = c.unread
      rw [List.drop_zero]
      rfl
    have hfill := fillHead_ok rfl h
    rw [hunread] at hfill
    exact hfill
  · exact fillHead_ok (by omega) h

theorem fromInner_faultless {c c' : Buffered} (h : c.inner.Faultless) {room : ℕ} {out : List UInt8}
    (hread : Buffered.fromInner room c = (.ok out, c')) : c'.inner.Faultless := by
  obtain ⟨out', inner, hsource, hinner⟩ := Source.read_faultless h room
  unfold Buffered.fromInner Eff.zoom at hread
  rw [hsource] at hread
  cases hread
  exact hinner

theorem fillHead_faultless {max : ℕ} {c c' : Buffered} {head : List UInt8} (hc : c.inner.Faultless)
    (h : Buffered.fillHead max c = (.ok (some head), c')) : c'.inner.Faultless := by
  fun_induction Buffered.fillHead max c with
  | case1 c n hend =>
    cases h
    exact hc
  | case2 => cases h
  | case3 => cases h
  | case4 c hend hmax c₁ hread => split at h <;> cases h
  | case5 c hend hmax b chunk c₁ hread ih =>
    have hc₁ : c₁.inner.Faultless := fromInner_faultless hc hread
    exact ih hc₁ h

/-- Bytes that begin with a request, and what stands behind its head. -/
def Begins (codec : Codec) (bytes : List UInt8) (r : Received) (rest : List UInt8) : Prop :=
  ∃ n parsed, Buffered.findEnd bytes = some n ∧ codec.parse (bytes.take n) = some parsed ∧ r = Received.of parsed ∧
    rest = bytes.drop n

theorem readRequest_ok {codec : Codec} {conn conn' : Buffered} {r : Received}
    (h : readRequest codec conn = (.ok (some r), conn')) :
    Begins codec conn.unread r conn'.unread ∧ (conn.inner.Faultless → conn'.inner.Faultless) := by
  obtain ⟨head, conn₁, hread, h⟩ := Eff.bind_ok h
  cases head with
  | none => cases h
  | some bytes =>
    dsimp only at h
    cases hparse : codec.parse bytes with
    | none =>
      rw [hparse] at h
      cases h
    | some parsed =>
      rw [hparse] at h
      cases h
      obtain ⟨n, hn, hhead, hrest⟩ := readHeadBytes_ok hread
      refine ⟨⟨n, parsed, hn, hhead ▸ hparse, rfl, hrest⟩, fun hfaultless => ?_⟩
      unfold Buffered.readHeadBytes at hread
      split at hread
      · have hpending : ({ conn with buf := conn.pending, pos := 0 } : Buffered).inner.Faultless := hfaultless
        exact fillHead_faultless hpending hread
      · exact fillHead_faultless hfaultless hread

/-! ## Bodies -/

/-- The bytes of a body, as the head of its request announces it, with the data in them. -/
def Announced (r : Received) (body data : List UInt8) : Prop :=
  ∃ f, framing r.head true = .ok f ∧ Declared f body data

/-- How much data a request may hold, where that is bounded. -/
def Received.limit (r : Received) : Option ℕ :=
  if r.head.method = "POST" ∧ r.endpoint = "/1.0/certificates" then some (64 * 1024)
  else if r.head.method = "POST" ∧ r.endpoint = "/1.0/call" then some maxFrame
  else none

/-- The body of a request is there, and not too long. -/
def Readable (r : Received) (bytes : List UInt8) : Prop :=
  ∃ body data after, Announced r body data ∧ bytes = body ++ after ∧ ∀ limit ∈ r.limit, data.length ≤ limit

/-- A connection that goes on behind the body, if that can be read, and in any case no further back. -/
structure Passes (r : Received) (conn conn' : Buffered) : Prop where
  shorter : conn'.unread.length ≤ conn.unread.length
  behind : conn.inner.Faultless → Readable r conn.unread →
    conn'.inner.Faultless ∧ ∃ body data, Announced r body data ∧ conn.unread = body ++ conn'.unread

theorem passes_withBody {α : Type} {r : Received} {m : Prog Body α} {conn : Buffered}
    (hle : ∀ b, (m b).2.unread.length ≤ b.unread.length)
    (hm : ∀ b : Body, b.Faultless → ∀ body data after, Declared b.framing body data → b.unread = body ++ after →
      (∀ limit ∈ r.limit, data.length ≤ limit) → ∃ a b', m b = (.ok a, b') ∧ b'.unread = after ∧ b'.Faultless) :
    Passes r conn (withBody r.head m conn).2 := by
  refine ⟨?_, ?_⟩
  · unfold withBody
    split
    · exact Nat.le_refl _
    · exact hle _
  rintro hfaultless ⟨body, data, after, ⟨f, hframing, hdeclared⟩, hunread, hlimit⟩
  obtain ⟨a, b', hread, hrest, hfaultless'⟩ := hm ⟨conn, f⟩ hfaultless body data after hdeclared hunread hlimit
  have hconn : (withBody r.head m conn).2 = b'.conn := by
    unfold withBody
    rw [hframing]
    show (m ⟨conn, f⟩).2.conn = b'.conn
    rw [hread]
  rw [hconn]
  refine ⟨hfaultless', body, data, ⟨f, hframing, hdeclared⟩, ?_⟩
  have hsame : b'.conn.unread = after := hrest
  rw [hsame]
  exact hunread

theorem passes_drain (r : Received) (conn : Buffered) : Passes r conn (withBody r.head Body.drain conn).2 :=
  passes_withBody Body.drain_le fun _ hb _ _ _ hdeclared hunread _ => by
    obtain ⟨b', hdrain, hrest, hfaultless⟩ := Body.drain_declared hb hdeclared hunread
    exact ⟨(), b', hdrain, hrest, hfaultless⟩

theorem passes_readAll {r : Received} {limit : ℕ} (hlimit : r.limit = some limit) (conn : Buffered) :
    Passes r conn (withBody r.head (Body.readAll limit) conn).2 :=
  passes_withBody (Body.readAllFrom_le limit []) fun _ hb _ data _ hdeclared hunread hshort => by
    obtain ⟨b', hread, hrest, hfaultless⟩ := Body.readAll_declared hb hdeclared hunread (hshort limit hlimit)
    exact ⟨data, b', hread, hrest, hfaultless⟩

/-! ## Rounds -/

theorem yields_enroll (codec : Codec) (server : String) (head : Head) (peer : Peer) (conn : Buffered) :
    Job.Yields (fun r => r.2 = (withBody head (Body.readAll (64 * 1024)) conn).2)
      (enroll codec server head peer conn) := by
  unfold enroll
  split
  · rename_i hbody
    rw [hbody]
    rfl
  · rename_i hbody
    rw [hbody]
    refine Job.yields_seq fun full => ?_
    cases full with
    | true => rfl
    | false =>
      refine Job.yields_seq fun result => ?_
      cases result with
      | ok value =>
        dsimp only
        split
        · rfl
        · exact Job.yields_seq fun _ => rfl
      | error e =>
        dsimp only
        split
        · exact Job.yields_seq fun _ => rfl
        · exact Job.yields_seq fun _ => rfl
        · rfl

theorem yields_call (codec : Codec) (head : Head) (caller : Caller) (conn : Buffered) (daemon : Option Link) :
    Job.Yields (fun r => r.2.1 = (withBody head (Body.readAll maxFrame) conn).2)
      (call codec head caller conn daemon) := by
  unfold call
  generalize withBody head (Body.readAll maxFrame) conn = read
  obtain ⟨body, conn⟩ := read
  dsimp only
  -- Whatever came of the call, the connection is left where the body ended.
  split <;> refine Job.yields_seq fun answer => ?_
  all_goals
    obtain ⟨result, daemon⟩ := answer
    dsimp only
    split <;> rfl

theorem yields_onward {r : Received} {conn conn' : Buffered} (h : Passes r conn conn') (keep : Bool)
    (daemon : Option Link) :
    Job.Yields (fun next => ∀ c d, next = some (c, d) → Passes r conn c)
      (pure (onward keep conn' daemon) : Thread (Option (Buffered × Option Link))) := by
  intro c d hnext
  unfold onward at hnext
  split at hnext
  · cases hnext
    exact h
  · cases hnext

/-- If a connection goes on after a request, it goes on behind the body. -/
theorem yields_route (codec : Codec) (rounds : ℕ) (server : String) (peer : Peer) (r : Received)
    (caller : Option Caller) (conn : Buffered) (daemon : Option Link) :
    Job.Yields (fun next => ∀ c d, next = some (c, d) → Passes r conn c)
      (route codec rounds server peer r caller conn daemon) := by
  have hover : Job.Yields (fun next => ∀ c d, next = some (c, d) → Passes r conn c)
      (pure none : Thread (Option (Buffered × Option Link))) := fun c d hnext => by cases hnext
  unfold route
  dsimp only
  split
  · refine Job.yields_seq fun _ => Job.yields_seq fun _ => ?_
    exact yields_onward (passes_drain r conn) _ _
  split
  · rename_i hget hcert
    refine (yields_enroll codec server r.head peer conn).bind fun a ha => Job.yields_seq fun _ => ?_
    have hlimit : r.limit = some (64 * 1024) := if_pos hcert
    exact yields_onward (ha ▸ passes_readAll hlimit conn) _ _
  split
  · rename_i hget hcert hguarded
    cases caller with
    | none => exact Job.yields_seq fun _ => hover
    | some caller =>
      dsimp only
      split
      · rename_i hcall
        refine (yields_call codec r.head caller conn daemon).bind fun a ha => Job.yields_seq fun _ => ?_
        have hpost : r.head.method = "POST" := by
          rw [hcall] at hguarded
          simpa [guarded] using hguarded
        have hlimit : r.limit = some maxFrame := by
          unfold Received.limit
          rw [if_neg hcert, if_pos ⟨hpost, hcall⟩]
        exact yields_onward (ha ▸ passes_readAll hlimit conn) _ _
      split
      · exact Job.yields_seq fun _ => hover
      split
      · exact Job.yields_seq fun _ => hover
      · exact Job.yields_seq fun _ => hover
  · split
    · exact Job.yields_seq fun _ => yields_onward (passes_drain r conn) _ _
    · exact Job.yields_seq fun _ => yields_onward (passes_drain r conn) _ _

theorem yields_turn (codec : Codec) (rounds : ℕ) (server : String) (peer : Peer) (conn : Buffered)
    (daemon : Option Link) :
    Job.Yields (fun next => ∀ c d, next = some (c, d) → c.unread.length < conn.unread.length)
      (turn codec rounds server peer conn daemon) := by
  have hover : Job.Yields (fun next => ∀ c d, next = some (c, d) → c.unread.length < conn.unread.length)
      (pure none : Thread (Option (Buffered × Option Link))) := fun c d hnext => by cases hnext
  unfold turn
  split
  · exact hover
  · exact hover
  · split
    · exact hover
    · exact Job.yields_seq fun _ => hover
  · exact Job.yields_seq fun _ => hover
  · rename_i r conn' hread
    obtain ⟨n, parsed, hn, -, -, hrest⟩ := (readRequest_ok hread).1
    have hbounds := findEnd_bounds hn
    refine Job.yields_seq fun _ => Job.yields_seq fun caller => ?_
    refine (yields_route codec rounds server peer r caller conn' daemon).imp fun next hnext c d hsome => ?_
    have hshorter := (hnext c d hsome).shorter
    rw [hrest, List.length_drop] at hshorter
    omega

/-- The rounds of a connection are enough: with more of them the thread would do the same. -/
theorem serveFrom_enough (codec : Codec) (rounds : ℕ) (server : String) (peer : Peer) (turns : ℕ) (conn : Buffered)
    (daemon : Option Link) (h : conn.unread.length < turns) :
    serveFrom codec rounds server peer (turns + 1) conn daemon =
      serveFrom codec rounds server peer turns conn daemon := by
  induction turns generalizing conn daemon with
  | zero => exact absurd h (Nat.not_lt_zero _)
  | succ turns ih =>
    refine Job.bind_congr (yields_turn codec rounds server peer conn daemon) fun next hnext => ?_
    cases next with
    | none => rfl
    | some next => exact ih _ _ (Nat.lt_of_lt_of_le (hnext _ _ rfl) (Nat.le_of_lt_succ h))

/-! ## The requests of a connection -/

/-- Requests, the last first, that stand one behind the other in `bytes`, with what stands behind the last head. -/
inductive Heads (codec : Codec) (bytes : List UInt8) : List Received → List UInt8 → Prop
  | first {r : Received} {rest : List UInt8} (h : Begins codec bytes r rest) : Heads codec bytes [r] rest
  | next {r r' : Received} {rs : List Received} {rest rest' body data after : List UInt8}
      (h : Heads codec bytes (r :: rs) rest) (hbody : Announced r body data) (hrest : rest = body ++ after)
      (hnext : Begins codec after r' rest') : Heads codec bytes (r' :: r :: rs) rest'

def InStep (codec : Codec) (bytes : List UInt8) (rs : List Received) : Prop :=
  rs = [] ∨ ∃ rest, Heads codec bytes rs rest

/-- Requests of which one has no body that can be read, and more came after it. -/
def Astray (codec : Codec) (bytes : List UInt8) (rs : List Received) : Prop :=
  ∃ more r before rest, rs = more ++ r :: before ∧ more ≠ [] ∧ Heads codec bytes (r :: before) rest ∧ ¬Readable r rest

/-- Where a connection stands, after the requests that were read from it. -/
def Stands (codec : Codec) (bytes : List UInt8) (rs : List Received) (conn : Buffered) : Prop :=
  (rs = [] ∧ conn.unread = bytes ∧ conn.inner.Faultless) ∨
  (∃ r before rest body data, rs = r :: before ∧ Heads codec bytes rs rest ∧ Announced r body data ∧
    rest = body ++ conn.unread ∧ conn.inner.Faultless) ∨
  (∃ r before rest, rs = r :: before ∧ Heads codec bytes rs rest ∧ ¬Readable r rest) ∨ Astray codec bytes rs

/-- After the head of the last request. -/
def Within (codec : Codec) (bytes : List UInt8) (rs : List Received) (conn : Buffered) : Prop :=
  (Heads codec bytes rs conn.unread ∧ conn.inner.Faultless) ∨ Astray codec bytes rs

theorem Stands.begin {codec : Codec} {bytes : List UInt8} {rs : List Received} {conn conn' : Buffered} {r : Received}
    (h : Stands codec bytes rs conn) (hread : readRequest codec conn = (.ok (some r), conn')) :
    Within codec bytes (r :: rs) conn' := by
  obtain ⟨hbegins, hfaultless⟩ := readRequest_ok hread
  rcases h with ⟨rfl, rfl, hconn⟩ | ⟨r₀, before, rest, body, data, rfl, hheads, hbody, hrest, hconn⟩ |
    ⟨r₀, before, rest, rfl, hheads, hnot⟩ | ⟨more, r₀, before, rest, rfl, hmore, hheads, hnot⟩
  · exact Or.inl ⟨.first hbegins, hfaultless hconn⟩
  · exact Or.inl ⟨.next hheads hbody hrest hbegins, hfaultless hconn⟩
  · exact Or.inr ⟨[r], r₀, before, rest, rfl, List.cons_ne_nil _ _, hheads, hnot⟩
  · exact Or.inr ⟨r :: more, r₀, before, rest, rfl, List.cons_ne_nil _ _, hheads, hnot⟩

theorem Within.known {codec : Codec} {bytes : List UInt8} {rs : List Received} {conn : Buffered}
    (h : Within codec bytes rs conn) : InStep codec bytes rs ∨ Astray codec bytes rs :=
  h.imp_left fun hheads => Or.inr ⟨_, hheads.1⟩

theorem Within.pass {codec : Codec} {bytes : List UInt8} {rs : List Received} {conn conn' : Buffered} {r : Received}
    (h : Within codec bytes (r :: rs) conn) (hpass : Passes r conn conn') : Stands codec bytes (r :: rs) conn' := by
  rcases h with ⟨hheads, hconn⟩ | hastray
  · by_cases hread : Readable r conn.unread
    · obtain ⟨hconn', body, data, hbody, hrest⟩ := hpass.behind hconn hread
      exact Or.inr (Or.inl ⟨r, rs, _, body, data, rfl, hheads, hbody, hrest, hconn'⟩)
    · exact Or.inr (Or.inr (Or.inl ⟨r, rs, _, rfl, hheads, hread⟩))
  · exact Or.inr (Or.inr (Or.inr hastray))

end Collocate.Gateway
