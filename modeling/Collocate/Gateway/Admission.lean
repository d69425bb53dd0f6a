import Collocate.Gateway.Threads

/-! # Who is served, and for whom (`collocate-gateway/src/lib.rs`)

However many connections come, and however their threads take turns: at most `MAX_CONNECTIONS` are served at once,
the failed enrollments of one address are bounded in every window, and what the daemon is asked on behalf of a caller
was asked under a certificate that the daemon had named that caller for, no longer ago than `TRUST_TTL` before the
request came. -/
namespace Collocate.Gateway
set_option autoImplicit false
open Remote

variable {ι : Type}

/-! ## Failed enrollments -/

/-- When enrollments from an address have failed, the first first. -/
def failedAt (ip : IpAddr) : List (Event ι) → List Instant
  | [] => []
  | .failed _ from_ t :: trace => if from_ = ip then failedAt ip trace ++ [t] else failedAt ip trace
  | _ :: trace => failedAt ip trace

/-- The times within a window. -/
def within (start : Instant) (times : List Instant) : List Instant :=
  times.filter fun t => decide (start ≤ t) && decide (t < start + enrollWindow)

theorem sub_lt_of_lt_add {a b c : ℕ} (hc : 0 < c) (h : a < b + c) : a - b < c := by omega

theorem recent_recent {now now' : Instant} (h : now ≤ now') (times : List Instant) :
    World.recent now' (World.recent now times) = World.recent now' times := by
  unfold World.recent
  rw [List.filter_filter]
  refine List.filter_congr fun t _ => ?_
  rw [Bool.and_eq_left_iff_imp, decide_eq_true_iff, decide_eq_true_iff]
  exact Nat.lt_of_le_of_lt (Nat.sub_le_sub_right h t)

theorem length_recent_le {now now' : Instant} (h : now ≤ now') (times : List Instant) :
    (World.recent now' times).length ≤ (World.recent now times).length := by
  rw [← recent_recent h]
  exact List.length_filter_le _ _

theorem recent_append (now : Instant) (times : List Instant) :
    World.recent now (times ++ [now]) = World.recent now times ++ [now] := by
  unfold World.recent
  rw [List.filter_append, List.filter_singleton, Nat.sub_self]
  rfl

/-- Past times in a window that is not over are recent. -/
theorem length_within_le {start now : Instant} {times : List Instant} (hopen : now < start + enrollWindow) :
    (within start times).length ≤ (World.recent now times).length := by
  refine (List.monotone_filter_right times fun t ht => ?_).length_le
  rw [Bool.and_eq_true, decide_eq_true_iff, decide_eq_true_iff] at ht
  rw [decide_eq_true_iff]
  have hsub : now - t ≤ now - start := Nat.sub_le_sub_left ht.1 now
  exact Nat.lt_of_le_of_lt hsub (sub_lt_of_lt_add (by decide) hopen)

/-! ## Counting -/

/-- The most failures that a window can hold: one less than what closes an address, and one for each connection. -/
def mostFailures : ℕ := enrollFailures - 1 + maxConnections

variable [DecidableEq ι]

structure Counted (s : World ι) : Prop where
  active : s.active = (inside s.trace).card + (refused s.trace).card
  room : (inside s.trace).card ≤ maxConnections
  apart : Disjoint (inside s.trace) (refused s.trace)
  tries : ∀ ip, trying ip s.trace ⊆ inside s.trace
  kept : ∀ ip, World.recent s.now (s.failures ip) = World.recent s.now (failedAt ip s.trace)
  few : ∀ ip, (World.recent s.now (s.failures ip)).length + (trying ip s.trace).card ≤ mostFailures
  windows : ∀ ip start, (within start (failedAt ip s.trace)).length ≤ mostFailures

theorem counted_start : Counted ({} : World ι) :=
  ⟨rfl, Nat.zero_le _, Finset.disjoint_empty_left _, fun _ => Finset.Subset.refl _, fun _ => rfl,
    fun _ => Nat.zero_le _, fun _ _ => Nat.zero_le _⟩

theorem counted_wait {s : World ι} (w : Choice) (hs : Counted s) : Counted (World.wait w s) := by
  have hlater : s.now ≤ s.now + w.delay := Nat.le_add_right _ _
  refine ⟨hs.active, hs.room, hs.apart, hs.tries, fun ip => ?_, fun ip => ?_, hs.windows⟩
  · show World.recent (s.now + w.delay) (s.failures ip) = World.recent (s.now + w.delay) (failedAt ip s.trace)
    rw [← recent_recent hlater (s.failures ip), hs.kept ip, recent_recent hlater]
  · exact (Nat.add_le_add_right (length_recent_le hlater _) _).trans (hs.few ip)

theorem counted_enter {i : ι} {w : Choice} {s : World ι} (hin : i ∉ inside s.trace) (href : i ∉ refused s.trace)
    (hs : Counted s) : Counted (World.answer i w s .enter).2 := by
  have hactive : (World.answer i w s .enter).2.active = s.active + 1 := rfl
  have hins : inside (World.answer i w s .enter).2.trace =
      if s.active < maxConnections then insert i (inside s.trace) else inside s.trace := rfl
  have hrefs : refused (World.answer i w s .enter).2.trace =
      if s.active < maxConnections then refused s.trace else insert i (refused s.trace) := rfl
  have htry : ∀ ip, trying ip (World.answer i w s .enter).2.trace = trying ip s.trace := fun _ => rfl
  have hcount := hs.active
  by_cases hroom : s.active < maxConnections
  · rw [if_pos hroom] at hins hrefs
    refine ⟨?_, ?_, ?_, fun ip => ?_, hs.kept, hs.few, hs.windows⟩
    · rw [hactive, hins, hrefs, Finset.card_insert_of_notMem hin]
      omega
    · rw [hins, Finset.card_insert_of_notMem hin]
      omega
    · rw [hins, hrefs]
      exact Finset.disjoint_insert_left.mpr ⟨href, hs.apart⟩
    · rw [htry, hins]
      exact (hs.tries ip).trans (Finset.subset_insert _ _)
  · rw [if_neg hroom] at hins hrefs
    refine ⟨?_, ?_, ?_, fun ip => ?_, hs.kept, hs.few, hs.windows⟩
    · rw [hactive, hins, hrefs, Finset.card_insert_of_notMem href]
      omega
    · rw [hins]
      exact hs.room
    · rw [hins, hrefs]
      exact Finset.disjoint_insert_right.mpr ⟨hin, hs.apart⟩
    · rw [htry, hins]
      exact hs.tries ip

theorem counted_leave {i : ι} {w : Choice} {s : World ι} (hi : i ∈ inside s.trace ∨ i ∈ refused s.trace)
    (hs : Counted s) : Counted (World.answer i w s .leave).2 := by
  have hcount := hs.active
  have hactive : (World.answer i w s .leave).2.active = s.active - 1 := rfl
  have hins : inside (World.answer i w s .leave).2.trace = (inside s.trace).erase i := rfl
  have hrefs : refused (World.answer i w s .leave).2.trace = (refused s.trace).erase i := rfl
  have htry : ∀ ip, trying ip (World.answer i w s .leave).2.trace = (trying ip s.trace).erase i := fun _ => rfl
  refine ⟨?_, ?_, ?_, fun ip => ?_, hs.kept, fun ip => ?_, hs.windows⟩
  · rw [hactive, hins, hrefs]
    rcases hi with hin | href
    · have hnot : i ∉ refused s.trace := Finset.disjoint_left.mp hs.apart hin
      have hpos : 0 < (inside s.trace).card := Finset.card_pos.mpr ⟨i, hin⟩
      rw [Finset.card_erase_of_mem hin, Finset.erase_eq_of_notMem hnot]
      omega
    · have hnot : i ∉ inside s.trace := Finset.disjoint_right.mp hs.apart href
      have hpos : 0 < (refused s.trace).card := Finset.card_pos.mpr ⟨i, href⟩
      rw [Finset.card_erase_of_mem href, Finset.erase_eq_of_notMem hnot]
      omega
  · rw [hins]
    exact (Finset.card_le_card (Finset.erase_subset _ _)).trans hs.room
  · rw [hins, hrefs]
    exact hs.apart.mono (Finset.erase_subset _ _) (Finset.erase_subset _ _)
  · rw [htry, hins]
    exact Finset.erase_subset_erase _ (hs.tries ip)
  · rw [htry]
    exact (Nat.add_le_add_left (Finset.card_le_card (Finset.erase_subset _ _)) _).trans (hs.few ip)

/-- What `retain` leaves is what counts. -/
theorem counted_retain {s : World ι} (ip : IpAddr) (hs : Counted s) :
    Counted { s with failures := Function.update s.failures ip (World.recent s.now (s.failures ip)) } := by
  have hsame : ∀ p, World.recent s.now (Function.update s.failures ip (World.recent s.now (s.failures ip)) p) =
      World.recent s.now (s.failures p) := by
    intro p
    by_cases hp : p = ip
    · rw [hp, Function.update_self, recent_recent (Nat.le_refl _)]
    · rw [Function.update_of_ne hp]
  refine ⟨hs.active, hs.room, hs.apart, hs.tries, fun p => ?_, fun p => ?_, hs.windows⟩
  · rw [← hs.kept p]
    exact hsame p
  · exact (congrArg (fun l : List Instant => l.length + (trying p s.trace).card) (hsame p)).trans_le (hs.few p)

theorem counted_checked {i : ι} {s : World ι} {ip : IpAddr} (hi : i ∈ inside s.trace)
    (hopen : (World.recent s.now (s.failures ip)).length < enrollFailures) (hs : Counted s) :
    Counted (World.note (.checked i ip) s) := by
  have htry : ∀ p, trying p (World.note (.checked i ip) s).trace =
      if ip = p then insert i (trying p s.trace) else trying p s.trace := fun _ => rfl
  have hsub : ∀ p, trying p (World.note (.checked i ip) s).trace ⊆ inside s.trace := by
    intro p
    rw [htry]
    split
    · exact Finset.insert_subset hi (hs.tries p)
    · exact hs.tries p
  refine ⟨hs.active, hs.room, hs.apart, hsub, hs.kept, fun p => ?_, hs.windows⟩
  by_cases hp : ip = p
  · subst hp
    -- The check has just been passed, and no more threads may try than are let in.
    have hcard := (Finset.card_le_card (hsub ip)).trans hs.room
    have hless : (World.recent s.now (s.failures ip)).length ≤ enrollFailures - 1 := Nat.le_sub_one_of_lt hopen
    exact Nat.add_le_add hless hcard
  · rw [htry, if_neg hp]
    exact hs.few p

theorem counted_failed {i : ι} {w : Choice} {s : World ι} {ip : IpAddr} (hi : i ∈ trying ip s.trace)
    (hs : Counted s) : Counted (World.answer i w s (.recordFailure ip)).2 := by
  have htry : ∀ p, trying p (World.answer i w s (.recordFailure ip)).2.trace =
      if ip = p then (trying p s.trace).erase i else trying p s.trace := fun _ => rfl
  have hfailed : ∀ p, failedAt p (World.answer i w s (.recordFailure ip)).2.trace =
      if ip = p then failedAt p s.trace ++ [s.now] else failedAt p s.trace := fun _ => rfl
  have hlist : ∀ p, (World.answer i w s (.recordFailure ip)).2.failures p =
      if ip = p then s.failures p ++ [s.now] else s.failures p := by
    intro p
    show Function.update s.failures ip (s.failures ip ++ [s.now]) p = _
    by_cases hp : ip = p
    · subst hp
      rw [Function.update_self, if_pos rfl]
    · rw [Function.update_of_ne (Ne.symm hp), if_neg hp]
  have hnow : (World.answer i w s (.recordFailure ip)).2.now = s.now := rfl
  have hkept : ∀ p, World.recent s.now ((World.answer i w s (.recordFailure ip)).2.failures p) =
      World.recent s.now (failedAt p (World.answer i w s (.recordFailure ip)).2.trace) := by
    intro p
    rw [hlist, hfailed]
    split
    · rw [recent_append, recent_append, hs.kept p]
    · exact hs.kept p
  have hfew : ∀ p, (World.recent s.now ((World.answer i w s (.recordFailure ip)).2.failures p)).length +
      (trying p (World.answer i w s (.recordFailure ip)).2.trace).card ≤ mostFailures := by
    intro p
    have hbefore := hs.few p
    rw [hlist, htry]
    by_cases hp : ip = p
    · subst hp
      have hpos : 0 < (trying ip s.trace).card := Finset.card_pos.mpr ⟨i, hi⟩
      rw [if_pos rfl, if_pos rfl, recent_append, List.length_append, Finset.card_erase_of_mem hi, List.length_singleton]
      omega
    · rw [if_neg hp, if_neg hp]
      exact hbefore
  refine ⟨hs.active, hs.room, hs.apart, fun p => ?_, hkept, hfew, fun p start => ?_⟩
  · rw [htry]
    split
    · exact (Finset.erase_subset _ _).trans (hs.tries p)
    · exact hs.tries p
  · by_cases hopen : s.now < start + enrollWindow
    · -- A window that is open holds recent failures only.
      have hrecent := hfew p
      rw [hkept p] at hrecent
      exact (length_within_le hopen).trans ((Nat.le_add_right _ _).trans hrecent)
    · rw [hfailed]
      split
      · have hout : within start (failedAt p s.trace ++ [s.now]) = within start (failedAt p s.trace) := by
          unfold within
          rw [List.filter_append, List.filter_singleton, decide_eq_false hopen, Bool.and_false]
          exact List.append_nil _
        rw [hout]
        exact hs.windows p start
      · exact hs.windows p start

theorem counted_exec {codec : Codec} {clients : ι → Client} (i : ι) (op : Op) (w : Choice) (s : World ι)
    (hfit : Fit codec clients i s op) (hs : Counted s) : Counted (World.exec i op w s).2 := by
  have hwait := counted_wait w hs
  cases op with
  | enter => exact counted_enter hfit.1 hfit.2 hwait
  | leave => exact counted_leave hfit hwait
  | recordFailure ip => exact counted_failed hfit hwait
  | throttled ip =>
    have hretain := counted_retain ip hwait
    simp only [World.exec, World.answer]
    split
    · exact hretain
    · rename_i hopen
      refine counted_checked hfit ?_ hretain
      show (World.recent _ (Function.update (World.wait w s).failures ip _ ip)).length < enrollFailures
      rw [Function.update_self, recent_recent (Nat.le_refl _)]
      exact Nat.lt_of_not_le hopen
  | _ => exact ⟨hwait.active, hwait.room, hwait.apart, hwait.tries, hwait.kept, hwait.few, hwait.windows⟩

/-- At most 256 connections are served at once, and no window of 60 seconds holds more than 265 of the enrollments of
one address that `record_failure` counts. -/
theorem load_bounded {codec : Codec} {rounds : ℕ} {server : String} {clients : ι → Client} {threads : ι → Thread Unit}
    {s : World ι} (h : Serving codec rounds server clients threads s) :
    (inside s.trace).card ≤ maxConnections ∧
      ∀ ip start, (within start (failedAt ip s.trace)).length ≤ mostFailures := by
  have hcounted : Counted s := serving_keeps counted_start (fun i op w s _ hfit hs => counted_exec i op w s hfit hs) h
  exact ⟨hcounted.room, hcounted.windows⟩

/-! ## Enrollments at the same time -/

def adminCaller : Caller := { name := "ops", fingerprint := "ab", role := .admin, projects := [] }

def plainCodec : Codec where
  parse _ := some { method := some "POST", path := some "/1.0/images", headers := [], version := some 1 }
  timedOut _ := false
  enrollment _ := .error ""
  urlSafe _ := none
  standard _ := none
  token _ := none
  caller _ := some adminCaller
  request _ := .error ""
  withoutCertificate t := t
  acceptKey t := t
  eofMark _ := false
  debugResponse _ := ""

def serverPrint : String := String.ofList (List.replicate 64 'c')

def guessCodec : Codec := { plainCodec with
  parse := fun _ =>
    some { method := some "POST", path := some "/1.0/certificates", headers := [], version := some 1 }
  enrollment := fun _ => .ok (some "dG9rZW4", none)
  urlSafe := fun _ => some []
  token := fun _ => some { addresses := ["10.0.0.1:8443"], fingerprint := serverPrint, secret := "guess" } }

def guesserIp : IpAddr := .v4 ⟨0x0a000007⟩

def guesser : Client where
  peer := { fingerprint := none, pem := some "pem", ip := some guesserIp }
  sent := { bytes := [13, 10, 13, 10] }

/-- Eleven connections of one address, each of which goes on by one call in each round. -/
def guessRun : Option ((Fin 11 → Thread Unit) × World (Fin 11)) :=
  Job.playIf World.exec (fun _ op _ _ => op != .hang)
    ((List.replicate 7 (List.finRange 11)).flatten.map fun i =>
      (i, { delay := 1, response := .error (.forbidden "the trust token is unknown or was already used") }))
    (fun _ => connection guessCodec 1 serverPrint guesser) {}

theorem guessRun_failed : guessRun.map (fun r => (failedAt guesserIp r.2.trace).length) = some 11 := by
  decide +kernel

/-- Eleven wrong tokens that pass the check together all fail, one more than is allowed of one address. -/
theorem guesses_bounded : ∃ s : World (Fin 11), (failedAt guesserIp s.trace).length = 11 ∧
    (inside s.trace).card ≤ maxConnections ∧
      ∀ ip start, (within start (failedAt ip s.trace)).length ≤ mostFailures := by
  obtain ⟨r, hrun, hfailed⟩ := Option.map_eq_some_iff.mp guessRun_failed
  have hserving : Serving guessCodec 1 serverPrint (fun _ => guesser) r.1 r.2 :=
    Job.runs_playIf (fun i op w s hop => bne_iff_ne.mp hop) _ hrun
  exact ⟨r.2, hfailed, load_bounded hserving⟩

/-! ## Callers -/

/-- What a thread hands to the daemon. -/
def Event.handed : Event ι → Option (ι × Request)
  | .called i request _ _ | .sent i request _ => some (i, request)
  | _ => none

/-- Whatever was handed to the daemon was backed by what had happened before. -/
def Supported (codec : Codec) (clients : ι → Client) (trace : List (Event ι)) : Prop :=
  ∀ e earlier, e :: earlier <:+ trace → ∀ i request, e.handed = some (i, request) →
    Backed codec clients i earlier request

theorem supported_exec {codec : Codec} {clients : ι → Client} (j : ι) (op : Op) (w : Choice) (s : World ι)
    (hfit : Fit codec clients j s op) (hs : Supported codec clients s.trace) :
    Supported codec clients (World.exec j op w s).2.trace := by
  have hcons : ∀ e : Event ι, (∀ i request, e.handed = some (i, request) → Backed codec clients i s.trace request) →
      Supported codec clients (e :: s.trace) := by
    intro e he e' earlier hsuffix
    rcases List.suffix_cons_iff.mp hsuffix with heq | hbefore
    · obtain ⟨rfl, rfl⟩ := List.cons.inj heq
      exact he
    · exact hs e' earlier hbefore
  rw [exec_trace]
  cases op with
  | call link request =>
    refine hcons _ fun i r h => ?_
    cases h
    exact hfit
  | sendWithFds link request =>
    refine hcons _ fun i r h => ?_
    cases h
    exact hfit
  | throttled ip =>
    simp only [World.adds]
    split
    · exact hs
    · exact hcons _ fun i r h => by cases h
  | enter | leave | arrived | store | recordFailure | write => exact hcons _ fun i r h => by cases h
  | _ => exact hs

/-- What the daemon is asked on behalf of a caller is asked by a connection with a certificate, which some thread was
told to be that caller's and stored so later than `TRUST_TTL` before the request came. -/
theorem callers_vouched {codec : Codec} {rounds : ℕ} {server : String} {clients : ι → Client}
    {threads : ι → Thread Unit} {s : World ι} (h : Serving codec rounds server clients threads s)
    {later earlier : List (Event ι)} {e : Event ι} (htrace : s.trace = later ++ e :: earlier) {i : ι} {caller : Caller}
    {request : Request} (hhanded : e.handed = some (i, .as caller request)) :
    ∃ f, (clients i).peer.fingerprint = some f ∧ ∃ asked kept, Kept codec earlier f caller asked kept ∧
      since i earlier < kept + trustTtl := by
  have hstart : Supported codec clients ({} : World ι).trace := by
    intro e' earlier' hsuffix
    cases List.suffix_nil.mp hsuffix
  have hsupported : Supported codec clients s.trace :=
    serving_keeps hstart (fun j op w s _ hfit hs => supported_exec j op w s hfit hs) h
  exact hsupported e earlier ⟨later, htrace.symm⟩ i _ hhanded caller rfl

/-! ## Two connections, one of which imports an image -/

def importer : Client where
  peer := { fingerprint := some "ab", pem := none, ip := none }
  sent := { bytes := [13, 10, 13, 10] }

def importRun : Option ((Bool → Thread Unit) × World Bool) :=
  Job.playIf World.exec (fun _ op _ _ => op != .hang)
    ((true, { delay := 1 }) :: (false, { delay := 1 }) :: List.replicate 9 (true,
      { delay := 1, response := .ok (.json "ops") }))
    (fun _ => connection plainCodec 1 "cd" importer) {}

def importHead : Received where
  head := { method := "POST", path := "/1.0/images", headers := [], http10 := false }
  query := []

def importEarlier : List (Event Bool) :=
  [.stored true "ab" (some adminCaller) 8, .called true (.trustLookup "ab") (.ok (.json "ops")) 7,
    .arrived true importHead 4, .entered false 1, .entered true 0]

theorem importRun_trace :
    importRun.map (fun r => r.2.trace) = some (.sent true (.as adminCaller .imageImport) 11 :: importEarlier) := by
  decide +kernel

theorem importRun_serving : ∃ threads s, Serving plainCodec 1 "cd" (fun _ => importer) threads s ∧
    s.trace = .sent true (.as adminCaller .imageImport) 11 :: importEarlier := by
  obtain ⟨r, hrun, htrace⟩ := Option.map_eq_some_iff.mp importRun_trace
  refine ⟨r.1, r.2, Job.runs_playIf (fun i op w s hop => ?_) _ hrun, htrace⟩
  exact bne_iff_ne.mp hop

theorem import_vouched : ∃ f, importer.peer.fingerprint = some f ∧
    ∃ asked kept, Kept plainCodec importEarlier f adminCaller asked kept ∧
      since true importEarlier < kept + trustTtl := by
  obtain ⟨threads, s, hserving, htrace⟩ := importRun_serving
  have hlast : s.trace = [] ++ .sent true (.as adminCaller .imageImport) 11 :: importEarlier := htrace
  have hhanded : (Event.sent true (.as adminCaller .imageImport) 11).handed =
    some (true, .as adminCaller .imageImport) :=
    rfl
  exact callers_vouched hserving hlast hhanded

end Collocate.Gateway
