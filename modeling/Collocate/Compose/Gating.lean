import Mathlib.Logic.Relation
import Collocate.Lib.Along
import Collocate.Compose.Deploy

/-! # Dependencies gate the start and the stop of services (`collocate-compose/src/up.rs`, `plan.rs`)

A host that writes down its requests with their answers shows in which order `up` and `down` make them, whatever
the API answers. A service is launched when all it depends on has been launched and been seen ready. -/
namespace Collocate.Compose
set_option autoImplicit false

/-! ## What is requested -/

structure Event where
  request : Request
  answer : Result Response
  deriving DecidableEq

section Host
variable {S : Type}

/-- The host, with a log of its calls. -/
def loggedHost (h : Host S) : Host (S × List Event) where
  call r := fun p => ((h.call r p.1).1, (h.call r p.1).2, p.2 ++ [⟨r, (h.call r p.1).1⟩])
  readToString path := Eff.zoom Prod.fst (fun s p => (s, p.2)) (h.readToString path)
  newId := Eff.zoom Prod.fst (fun s p => (s, p.2)) h.newId
  now := Eff.zoom Prod.fst (fun s p => (s, p.2)) h.now

/-- What one `up` or `down` requests, in order. -/
def requested {α : Type} (m : Prog (S × List Event) α) (s : S) : List Event := (m (s, [])).2.2

end Host

/-- The name of the replica that a request launches. -/
def launched : Request → Option String
  | .run spec => some spec.name
  | .start name => some name
  | _ => none

/-- A request that launches a replica of a service. -/
def Launches (file : ComposeFile) (svc : String) (r : Request) : Prop :=
  ∃ i, launched r = some (replicaName file.project svc i)

/-- A service depends on another, at some remove. -/
def DependsOn (file : ComposeFile) : String → String → Prop :=
  Relation.TransGen fun s d => ∃ ds, file.dependencyGraph.get? s = some ds ∧ d ∈ ds

/-- A listed container runs, and is healthy or passes the probe that its dependents bring. -/
def SeenReady (file : ComposeFile) (svc : String) (list : List ContainerInfo) (later : List Event) (name : String) :
    Prop :=
  ∃ c, list.find? (fun c => c.name = name) = some c ∧ c.state = .running ∧
    match dependencyHealthcheckOverride file svc with
    | some argv => ⟨.execProbe c.name argv 5, .ok (.exit 0)⟩ ∈ later
    | none => c.health.all (fun health => health = .healthy) = true

/-- The log has a check that came behind all launches of a service and saw each of the launched replicas ready. -/
def Checked (file : ComposeFile) (svc : String) (log : List Event) : Prop :=
  ∃ before list later, log = before ++ ⟨.ps true (some file.project), .ok (.containers list)⟩ :: later ∧
    (∀ e ∈ later, ¬Launches file svc e.request) ∧
    ∀ e ∈ before, ∀ i, launched e.request = some (replicaName file.project svc i) →
      SeenReady file svc list later (replicaName file.project svc i)

/-- What holds where a request is made, with the requests before it. -/
structure Gate (file : ComposeFile) (past : List Event) (e : Event) : Prop where
  behind : ∀ s, Launches file s e.request → ∀ d, DependsOn file s d →
    (∃ e' ∈ past, Launches file d e'.request) → Checked file d past
  ahead : ∀ d, Launches file d e.request → ∀ e' ∈ past, ∀ s, Launches file s e'.request → ¬DependsOn file s d
  balanced : ∀ d, Launches file d e.request → ∀ e' ∈ past, ∀ lb, e'.request = .lbSet lb → lb.backendService ≠ d

/-- What `up` requests, in order: every service is launched behind all launches of what it depends on and behind a check
that saw those ready, and a load balancer is set behind the launches of its backend. -/
def Gated (file : ComposeFile) (log : List Event) : Prop :=
  ∀ before e after, log = before ++ e :: after →
    (∀ s, Launches file s e.request → ∀ d, DependsOn file s d →
      (∀ e' ∈ after, ¬Launches file d e'.request) ∧
        ((∃ e' ∈ before, Launches file d e'.request) → Checked file d before)) ∧
    ∀ lb, e.request = .lbSet lb → ∀ e' ∈ after, ¬Launches file lb.backendService e'.request

def stopped : Request → Option String
  | .stop name _ => some name
  | _ => none

/-- A request that stops a replica of a service: what is listed under its name is of that service. -/
def StopsOf (list : List ContainerInfo) (svc : String) (r : Request) : Prop :=
  ∃ n, stopped r = some n ∧ (∃ c ∈ list, c.name = n) ∧ ∀ c ∈ list, c.name = n → c.service = some svc

/-- What `down` requests, in order: it lists the containers, and stops those of a service ahead of those of any service
that it depends on. -/
def StopsInOrder (file : ComposeFile) (log : List Event) : Prop :=
  (∀ e ∈ log, stopped e.request = none) ∨
    ∃ list later, log = ⟨.ps true (some file.project), .ok (.containers list)⟩ :: later ∧
      ∀ past e rest, later = past ++ e :: rest → ∀ s, StopsOf list s e.request → ∀ d, DependsOn file s d →
        ∀ e' ∈ past, ¬StopsOf list d e'.request

/-! ## Names -/

theorem toString_no_dash (n : UInt32) : '-' ∉ (toString n).toList := by
  intro hmem
  have hdigit : Char.isDigit '-' := Text.toString_digits (n := n.toNat) hmem
  exact absurd hdigit (by decide)

theorem replicaName_toList (project svc : String) (i : UInt32) :
    (replicaName project svc i).toList = project.toList ++ '-' :: (svc.toList ++ '-' :: (toString (i + 1)).toList) := by
  have hname : replicaName project svc i = project ++ "-" ++ svc ++ "-" ++ toString (i + 1) := rfl
  have hdash : "-".toList = ['-'] := rfl
  rw [hname]
  simp only [String.toList_append, hdash, List.append_assoc, List.singleton_append]
  rfl

/-- A replica's name tells its service. -/
theorem replicaName_service {project s d : String} {i j : UInt32}
    (h : replicaName project s i = replicaName project d j) :
    s = d := by
  have hlist := congrArg String.toList h
  rw [replicaName_toList, replicaName_toList] at hlist
  have htail := (List.cons.inj (List.append_cancel_left hlist)).2
  -- Read from the end: the number has no dash, so the first dash ends it.
  have hcut := congrArg (fun l => Text.cutAt '-' l.reverse) htail
  have hno (n : UInt32) : '-' ∉ (toString n).toList.reverse := by
    rw [List.mem_reverse]
    exact toString_no_dash n
  simp only [List.reverse_append, List.reverse_cons, List.append_assoc, List.singleton_append,
    Text.cutAt_append (hno _), Option.some.injEq, Prod.mk.injEq, List.reverse_inj, String.toList_inj] at hcut
  exact hcut.2

theorem launches_unique {file : ComposeFile} {s d : String} {r : Request} (hs : Launches file s r)
    (hd : Launches file d r) : s = d := by
  obtain ⟨i, hi⟩ := hs
  obtain ⟨j, hj⟩ := hd
  rw [hi] at hj
  exact replicaName_service (Option.some.inj hj)

/-! ## How far `up` has come -/

section Steps
variable {file : ComposeFile} {done names seen : List String} {svc : String} {log later : List Event} {e : Event}

/-- A request that launches nothing and sets no load balancer. -/
def Idle (r : Request) : Prop := launched r = none ∧ ∀ lb, r ≠ .lbSet lb

/-- The services up to here are launched, checked and balanced. -/
structure Progress (file : ComposeFile) (done : List String) (log : List Event) : Prop where
  gated : Along (Gate file) log
  launches : ∀ e ∈ log, ∀ s, Launches file s e.request → s ∈ done
  balances : ∀ e ∈ log, ∀ lb, e.request = .lbSet lb → lb.backendService ∈ done
  checked : ∀ s ∈ done, (∃ e ∈ log, Launches file s e.request) → Checked file s log

/-- One more service is being launched: the replicas with these names. -/
structure Launching (file : ComposeFile) (done : List String) (svc : String) (names : List String) (log : List Event) :
    Prop where
  gated : Along (Gate file) log
  launches : ∀ e ∈ log, ∀ s, Launches file s e.request → s ∈ done ∨ s = svc
  named : ∀ e ∈ log, ∀ i, launched e.request = some (replicaName file.project svc i) →
    replicaName file.project svc i ∈ names
  balances : ∀ e ∈ log, ∀ lb, e.request = .lbSet lb → lb.backendService ∈ done
  checked : ∀ s ∈ done, (∃ e ∈ log, Launches file s e.request) → Checked file s log

/-- It is being checked, against this list: these names have been seen ready. -/
def Looking (file : ComposeFile) (done : List String) (svc : String) (names : List String) (list : List ContainerInfo)
    (seen : List String) (log : List Event) : Prop :=
  ∃ before later, log = before ++ ⟨.ps true (some file.project), .ok (.containers list)⟩ :: later ∧
    Launching file done svc names before ∧ (∀ e ∈ later, Idle e.request) ∧ ∀ n ∈ seen, SeenReady file svc list later n

/-- A service whose turn it is: what it depends on has been, and nothing that has been depends on it. -/
structure Place (file : ComposeFile) (done : List String) (svc : String) : Prop where
  new : svc ∉ done
  below : ∀ d, DependsOn file svc d → d ∈ done
  above : ∀ s ∈ done, ¬DependsOn file s svc

theorem not_launches_of_idle {r : Request} (h : Idle r) (s : String) : ¬Launches file s r := by
  rintro ⟨i, hi⟩
  rw [h.1] at hi
  cases hi

theorem gate_of_quiet {r : Request} (h : launched r = none) (a : Result Response) : Gate file log ⟨r, a⟩ := by
  have hno : ∀ s, ¬Launches file s r := by
    rintro s ⟨i, hi⟩
    rw [h] at hi
    cases hi
  exact ⟨fun s hs => absurd hs (hno s), fun s hs => absurd hs (hno s), fun s hs => absurd hs (hno s)⟩

theorem Checked.concat {s : String} (h : Checked file s log) (he : ¬Launches file s e.request) :
    Checked file s (log ++ [e]) := by
  obtain ⟨before, list, later, rfl, hlater, hseen⟩ := h
  refine ⟨before, list, later ++ [e], by simp, ?_, ?_⟩
  · intro e' he'
    rw [List.mem_append, List.mem_singleton] at he'
    cases he' with
    | inl hmem => exact hlater e' hmem
    | inr heq => rw [heq]; exact he
  · intro e' he' i hi
    obtain ⟨c, hfind, hrun, hhealth⟩ := hseen e' he' i hi
    refine ⟨c, hfind, hrun, ?_⟩
    split at hhealth
    · exact List.mem_append_left _ hhealth
    · exact hhealth

theorem checked_concat_of_old {s : String} (h : (∃ e ∈ log, Launches file s e.request) → Checked file s log)
    (he : ¬Launches file s e.request) (hsome : ∃ e' ∈ log ++ [e], Launches file s e'.request) :
    Checked file s (log ++ [e]) := by
  obtain ⟨e', he', hl⟩ := hsome
  rw [List.mem_append, List.mem_singleton] at he'
  cases he' with
  | inl hmem => exact (h ⟨e', hmem, hl⟩).concat he
  | inr heq => exact absurd (heq ▸ hl) he

theorem forall_mem_concat {P : Event → Prop} (h : ∀ e' ∈ log, P e') (he : P e) : ∀ e' ∈ log ++ [e], P e' := by
  intro e' he'
  rw [List.mem_append, List.mem_singleton] at he'
  cases he' with
  | inl hmem => exact h e' hmem
  | inr heq => rw [heq]; exact he

theorem Launching.idle (h : Launching file done svc names log) (he : Idle e.request) :
    Launching file done svc names (log ++ [e]) where
  gated := along_concat.mpr ⟨h.gated, gate_of_quiet he.1 e.answer⟩
  launches := forall_mem_concat h.launches fun s hs => absurd hs (not_launches_of_idle he s)
  named := forall_mem_concat h.named fun i hi => absurd ⟨i, hi⟩ (not_launches_of_idle he svc)
  balances := forall_mem_concat h.balances fun lb hlb => absurd hlb (he.2 lb)
  checked := fun s hs => checked_concat_of_old (h.checked s hs) (not_launches_of_idle he s)

theorem Progress.idle (h : Progress file done log) (he : Idle e.request) : Progress file done (log ++ [e]) where
  gated := along_concat.mpr ⟨h.gated, gate_of_quiet he.1 e.answer⟩
  launches := forall_mem_concat h.launches fun s hs => absurd hs (not_launches_of_idle he s)
  balances := forall_mem_concat h.balances fun lb hlb => absurd hlb (he.2 lb)
  checked := fun s hs => checked_concat_of_old (h.checked s hs) (not_launches_of_idle he s)

theorem Progress.balance (h : Progress file done log) {lb : LbSpec} (hlb : lb.backendService ∈ done)
    (a : Result Response) :
    Progress file done (log ++ [⟨.lbSet lb, a⟩]) where
  gated := along_concat.mpr ⟨h.gated, gate_of_quiet rfl a⟩
  launches := forall_mem_concat h.launches fun s hs => by
    obtain ⟨i, hi⟩ := hs
    cases hi
  balances := forall_mem_concat h.balances fun lb' hlb' => by
    cases hlb'
    exact hlb
  checked := fun s hs => checked_concat_of_old (h.checked s hs) fun hl => by
    obtain ⟨i, hi⟩ := hl
    cases hi

theorem Progress.launching (h : Progress file done log) (hplace : Place file done svc) :
    Launching file done svc [] log where
  gated := h.gated
  launches := fun e he s hs => Or.inl (h.launches e he s hs)
  named := fun e he i hi => absurd (h.launches e he svc ⟨i, hi⟩) hplace.new
  balances := h.balances
  checked := h.checked

/-- A launch of the service whose turn it is. -/
theorem Launching.launch (h : Launching file done svc names log) (hplace : Place file done svc) {i : UInt32}
    (hi : launched e.request = some (replicaName file.project svc i)) (hlb : ∀ lb, e.request ≠ .lbSet lb) :
    Launching file done svc (names ++ [replicaName file.project svc i]) (log ++ [e]) := by
  have hlaunch : Launches file svc e.request := ⟨i, hi⟩
  have honly : ∀ s, Launches file s e.request → s = svc := fun s hs => launches_unique hs hlaunch
  have hgate : Gate file log e := by
    refine ⟨?_, ?_, ?_⟩
    · intro s hs d hd hsome
      rw [honly s hs] at hd
      exact h.checked d (hplace.below d hd) hsome
    · intro d hd e' he' s hs hdep
      rw [honly d hd] at hdep
      cases h.launches e' he' s hs with
      | inl hdone => exact hplace.above s hdone hdep
      | inr heq =>
        rw [heq] at hdep
        exact hplace.new (hplace.below svc hdep)
    · intro d hd e' he' lb hlb' heq
      rw [honly d hd] at heq
      exact hplace.new (heq ▸ h.balances e' he' lb hlb')
  refine ⟨along_concat.mpr ⟨h.gated, hgate⟩, ?_, ?_, ?_, ?_⟩
  · exact forall_mem_concat h.launches fun s hs => Or.inr (honly s hs)
  · refine forall_mem_concat (fun e' he' j hj => List.mem_append_left _ (h.named e' he' j hj)) ?_
    intro j hj
    rw [hi] at hj
    rw [← Option.some.inj hj]
    exact List.mem_append_right _ (List.mem_singleton_self _)
  · exact forall_mem_concat h.balances fun lb hlb' => absurd hlb' (hlb lb)
  · intro s hs
    have hne : ¬Launches file s e.request := fun hl => hplace.new (honly s hl ▸ hs)
    exact checked_concat_of_old (h.checked s hs) hne

/-- A service that was checked, or had nothing to launch, is done. -/
theorem Launching.finish (h : Launching file done svc names log)
    (hchecked : (∃ e ∈ log, Launches file svc e.request) → Checked file svc log) :
    Progress file (done ++ [svc]) log where
  gated := h.gated
  launches := fun e he s hs => by
    rw [List.mem_append, List.mem_singleton]
    exact h.launches e he s hs
  balances := fun e he lb hlb => List.mem_append_left _ (h.balances e he lb hlb)
  checked := fun s hs => by
    rw [List.mem_append, List.mem_singleton] at hs
    cases hs with
    | inl hdone => exact h.checked s hdone
    | inr heq => rw [heq]; exact hchecked

theorem Looking.launching {list : List ContainerInfo} (h : Looking file done svc names list seen log) :
    Launching file done svc names log := by
  obtain ⟨before, later, rfl, hbefore, hlater, -⟩ := h
  have hps : Idle (.ps true (some file.project)) := ⟨rfl, nofun⟩
  have hall : ∀ (rest : List Event) (log : List Event), Launching file done svc names log →
      (∀ e ∈ rest, Idle e.request) → Launching file done svc names (log ++ rest) := by
    intro rest
    induction rest with
    | nil => intro log hlog _; rw [List.append_nil]; exact hlog
    | cons e rest ih =>
      intro log hlog hrest
      have hnext := ih (log ++ [e]) (hlog.idle (hrest e (List.mem_cons_self ..)))
        fun e' he' => hrest e' (List.mem_cons_of_mem _ he')
      rw [List.append_assoc] at hnext
      exact hnext
  apply hall _ _ hbefore
  intro e he
  cases he with
  | head => exact hps
  | tail _ hmem => exact hlater e hmem

/-- When all that was launched has been seen ready, the service is done. -/
theorem Looking.finish {list : List ContainerInfo} (h : Looking file done svc names list seen log)
    (hseen : names ⊆ seen) :
    Progress file (done ++ [svc]) log := by
  apply h.launching.finish
  intro _
  obtain ⟨before, later, rfl, hbefore, hlater, hready⟩ := h
  refine ⟨before, list, later, rfl, fun e he => not_launches_of_idle (hlater e he) svc, ?_⟩
  exact fun e he i hi => hready _ (hseen (hbefore.named e he i hi))

end Steps

/-! ## What `up` does -/

section Run
variable {S : Type} {x : Extern} {h : Host S} {file : ComposeFile} {done names seen : List String} {svc : String}
  {list : List ContainerInfo}

/-- A call adds its event to the log. -/
theorem logged_call {r : Request} {P : List Event → Prop} {Q : Response → List Event → Prop} {E : List Event → Prop}
    (hok : ∀ log res, P log → Q res (log ++ [⟨r, .ok res⟩])) (herr : ∀ log e, P log → E (log ++ [⟨r, .error e⟩])) :
    Eff.Triple (fun p : S × List Event => P p.2) ((loggedHost h).call r) (fun res p => Q res p.2)
      (fun _ p => E p.2) := by
  rintro ⟨s, log⟩ hlog
  have hcall : (loggedHost h).call r (s, log) = ((h.call r s).1, (h.call r s).2, log ++ [⟨r, (h.call r s).1⟩]) := rfl
  rw [hcall]
  cases (h.call r s).1 with
  | ok res => exact hok log res hlog
  | error e => exact herr log e hlog

/-- A call that launches nothing keeps what such calls keep. -/
theorem idle_call {r : Request} {P : List Event → Prop} (hP : ∀ log a, P log → P (log ++ [⟨r, a⟩]))
    (hgated : ∀ log, P log → Along (Gate file) log) :
    Eff.Triple (fun p : S × List Event => P p.2) ((loggedHost h).call r) (fun _ p => P p.2)
      (fun _ p => Along (Gate file) p.2) :=
  logged_call (fun log res => hP log (.ok res)) fun log e hlog => hgated _ (hP log (.error e) hlog)

theorem removeContainer_keeps {P : List Event → Prop}
    (hP : ∀ log (e : Event), Idle e.request → P log → P (log ++ [e])) (hgated : ∀ log, P log → Along (Gate file) log)
    (name : String) :
    Eff.Triple (fun p : S × List Event => P p.2) (removeContainer (loggedHost h) name) (fun _ p => P p.2)
      (fun _ p => Along (Gate file) p.2) := by
  have hstop : Idle (.stop name none) := ⟨rfl, nofun⟩
  have hrm : Idle (.rm name true false) := ⟨rfl, nofun⟩
  apply Eff.Triple.bind (idle_call (fun log a => hP log ⟨_, a⟩ hstop) hgated)
  intro _
  apply Eff.Triple.bind (idle_call (fun log a => hP log ⟨_, a⟩ hrm) hgated)
  intro _
  exact Eff.Triple.pure fun _ hp => hp

theorem launching_gated (log : List Event) (hlog : Launching file done svc names log) :
    Along (Gate file) log := hlog.gated

theorem launch_call (hplace : Place file done svc) {r : Request} {i : UInt32}
    (hi : launched r = some (replicaName file.project svc i)) (hlb : ∀ lb, r ≠ .lbSet lb) :
    Eff.Triple (fun p : S × List Event => Launching file done svc names p.2) ((loggedHost h).call r)
      (fun _ p => Launching file done svc (names ++ [replicaName file.project svc i]) p.2)
      (fun _ p => Along (Gate file) p.2) :=
  logged_call (fun _ _ hlog => hlog.launch hplace hi hlb) fun _ e hlog =>
    (hlog.launch (e := ⟨r, .error e⟩) hplace hi hlb).gated

theorem applySpec_launching (hplace : Place file done svc) {plan : Plan} {spec : Spec} {i : UInt32}
    (hname : spec.name = replicaName file.project svc i) :
    Eff.Triple (fun p : S × List Event => Launching file done svc names p.2) (applySpec (loggedHost h) plan spec)
      (fun touched p => Launching file done svc (names ++ touched.toList) p.2) (fun _ p => Along (Gate file) p.2) := by
  have hrun : Eff.Triple (fun p : S × List Event => Launching file done svc names p.2)
      ((loggedHost h).call (.run spec) >>= fun _ => pure (some spec.name))
      (fun touched p => Launching file done svc (names ++ touched.toList) p.2) (fun _ p => Along (Gate file) p.2) := by
    apply Eff.Triple.bind (launch_call (r := .run spec) hplace (congrArg some hname) nofun)
    intro _
    rw [hname]
    exact Eff.Triple.pure fun _ hp => hp
  unfold applySpec
  split
  · apply Eff.Triple.bind
      (removeContainer_keeps (fun log e he hlog => hlog.idle he) launching_gated spec.name)
    intro _
    exact hrun
  · split
    · exact hrun
    · split
      · apply Eff.Triple.bind (launch_call (r := .start spec.name) hplace (congrArg some hname) nofun)
        intro _
        rw [hname]
        exact Eff.Triple.pure fun _ hp => hp
      · apply Eff.Triple.pure
        intro p hp
        rw [Option.toList_none, List.append_nil]
        exact hp

theorem collect_launching (hplace : Place file done svc) {plan : Plan} {specs : List Spec}
    (hnamed : ∀ spec ∈ specs, ∃ i, spec.name = replicaName file.project svc i) :
    Eff.Triple (fun p : S × List Event => Launching file done svc names p.2)
      (Eff.collect (applySpec (loggedHost h) plan) specs)
      (fun touched p => Launching file done svc (names ++ touched.reduceOption) p.2)
      (fun _ p => Along (Gate file) p.2) := by
  induction specs generalizing names with
  | nil =>
    apply Eff.Triple.pure
    intro p hp
    have hnames : names ++ ([] : List (Option String)).reduceOption = names := List.append_nil names
    rw [hnames]
    exact hp
  | cons spec specs ih =>
    obtain ⟨i, hi⟩ := hnamed spec (List.mem_cons_self ..)
    apply Eff.Triple.bind (applySpec_launching hplace hi)
    intro touched
    apply Eff.Triple.bind (ih fun spec' hmem => hnamed spec' (List.mem_cons_of_mem _ hmem))
    intro rest
    apply Eff.Triple.pure
    intro p hp
    cases touched with
    | none =>
      rw [Option.toList_none, List.append_nil] at hp
      exact hp
    | some n =>
      rw [Option.toList_some, List.append_assoc] at hp
      exact hp

/-- Looking at one more container, by its probe or by the list. -/
theorem probeHealthy_looking {c : ContainerInfo} {n : String} (hfind : list.find? (fun c => c.name = n) = some c)
    (hrun : c.state = .running) :
    Eff.Triple (fun p : S × List Event => Looking file done svc names list seen p.2)
      (probeHealthy (loggedHost h) (dependencyHealthcheckOverride file svc) c)
      (fun healthy p => Looking file done svc names list (if healthy then seen ++ [n] else seen) p.2)
      (fun _ p => Along (Gate file) p.2) := by
  unfold probeHealthy
  cases hprobe : dependencyHealthcheckOverride file svc with
  | none =>
    apply Eff.Triple.pure
    rintro p ⟨before, later, hlog, hbefore, hlater, hseen⟩
    refine ⟨before, later, hlog, hbefore, hlater, ?_⟩
    split
    · rename_i hhealthy
      intro n' hn'
      rw [List.mem_append, List.mem_singleton] at hn'
      cases hn' with
      | inl hmem => exact hseen n' hmem
      | inr heq =>
        rw [heq]
        refine ⟨c, hfind, hrun, ?_⟩
        rw [hprobe]
        exact hhealthy
    · exact hseen
  | some argv =>
    have hidle : Idle (.execProbe c.name argv 5) := ⟨rfl, nofun⟩
    -- The answer to the probe is what the log says it is.
    have hcall : Eff.Triple (fun p : S × List Event => Looking file done svc names list seen p.2)
        ((loggedHost h).call (.execProbe c.name argv 5))
        (fun res p => Looking file done svc names list (if res = .exit 0 then seen ++ [n] else seen) p.2)
        (fun _ p => Looking file done svc names list seen p.2) := by
      have hlook : ∀ log a, Looking file done svc names list seen log →
          Looking file done svc names list (if a = .ok (.exit 0) then seen ++ [n] else seen)
            (log ++ [⟨.execProbe c.name argv 5, a⟩]) := by
        rintro log a ⟨before, later, rfl, hbefore, hlater, hseen⟩
        refine ⟨before, later ++ [⟨.execProbe c.name argv 5, a⟩], by simp, hbefore, ?_, ?_⟩
        · exact forall_mem_concat hlater hidle
        · have hold : ∀ n' ∈ seen, SeenReady file svc list (later ++ [⟨.execProbe c.name argv 5, a⟩]) n' := by
            intro n' hn'
            obtain ⟨c', hfind', hrun', hhealth'⟩ := hseen n' hn'
            refine ⟨c', hfind', hrun', ?_⟩
            rw [hprobe] at hhealth' ⊢
            exact List.mem_append_left _ hhealth'
          split
          · rename_i hexit
            intro n' hn'
            rw [List.mem_append, List.mem_singleton] at hn'
            cases hn' with
            | inl hmem => exact hold n' hmem
            | inr heq =>
              rw [heq]
              refine ⟨c, hfind, hrun, ?_⟩
              rw [hprobe, hexit]
              exact List.mem_append_right _ (List.mem_singleton_self _)
          · exact hold
      apply logged_call
      · intro log res hlog
        have hnow := hlook log (.ok res) hlog
        simpa using hnow
      · intro log e hlog
        have hnow := hlook log (.error e) hlog
        simpa using hnow
    apply Eff.Triple.bind
      (Q := fun a p => Looking file done svc names list (if a = .ok (.exit 0) then seen ++ [n] else seen) p.2)
    · apply Eff.Triple.attempt
      apply hcall.conseq (fun _ hp => hp)
      · intro res p hp
        simpa using hp
      · intro e p hp
        simpa using hp
    · intro a
      apply Eff.Triple.pure
      intro p hp
      simpa using hp

theorem checkReady_looking (rest : List String) :
    Eff.Triple (fun p : S × List Event => Looking file done svc names list seen p.2)
      (checkReady (loggedHost h) (dependencyHealthcheckOverride file svc) list rest)
      (fun ready p => Looking file done svc names list (if ready then seen ++ rest else seen) p.2 ∨
        ready = false ∧ Launching file done svc names p.2)
      (fun _ p => Along (Gate file) p.2) := by
  induction rest generalizing seen with
  | nil =>
    apply Eff.Triple.pure
    intro p hp
    rw [if_pos rfl, List.append_nil]
    exact Or.inl hp
  | cons n rest ih =>
    unfold checkReady
    cases hfind : list.find? fun c => c.name = n with
    | none =>
      apply Eff.Triple.pure
      exact fun p hp => Or.inr ⟨rfl, hp.launching⟩
    | some c =>
      dsimp only
      by_cases hrun : c.state = .running
      · rw [if_neg (not_not.mpr hrun)]
        apply Eff.Triple.bind (probeHealthy_looking hfind hrun)
        intro healthy
        cases healthy with
        | false =>
          apply Eff.Triple.pure
          exact fun p hp => Or.inr ⟨rfl, hp.launching⟩
        | true =>
          have hrest := @ih (seen ++ [n])
          apply hrest.post
          intro ready p hp
          cases hp with
          | inl hlook =>
            cases ready with
            | true =>
              rw [if_pos rfl, List.append_assoc] at hlook
              exact Or.inl hlook
            | false => exact Or.inr ⟨rfl, hlook.launching⟩
          | inr hnot => exact Or.inr hnot
      · rw [if_pos hrun]
        apply Eff.Triple.pure
        exact fun p hp => Or.inr ⟨rfl, hp.launching⟩

/-- A list of the containers begins a check. -/
theorem containers_looking :
    Eff.Triple (fun p : S × List Event => Launching file done svc names p.2)
      (containers x (loggedHost h) file.project)
      (fun list p => Looking file done svc names list [] p.2) (fun _ p => Along (Gate file) p.2) := by
  have hidle : Idle (.ps true (some file.project)) := ⟨rfl, nofun⟩
  apply Eff.Triple.bind (Q := fun res p => ∃ before, p.2 = before ++ [⟨.ps true (some file.project), .ok res⟩] ∧
    Launching file done svc names before)
  · exact logged_call (Q := fun res log => ∃ before, log = before ++ [⟨.ps true (some file.project), .ok res⟩] ∧
      Launching file done svc names before) (fun log _ hlog => ⟨log, rfl, hlog⟩)
      fun _ e hlog => (hlog.idle (e := ⟨_, .error e⟩) hidle).gated
  · intro res
    split
    · rename_i list
      apply Eff.Triple.pure
      rintro p ⟨before, hlog, hbefore⟩
      exact ⟨before, [], hlog, hbefore, fun e he => absurd he List.not_mem_nil, fun n hn => absurd hn List.not_mem_nil⟩
    · apply Eff.Triple.throw
      rintro p ⟨before, hlog, hbefore⟩
      rw [hlog]
      exact (hbefore.idle (e := ⟨_, .ok res⟩) hidle).gated

theorem waitReady_progress (rounds : ℕ) :
    Eff.Triple (fun p : S × List Event => Launching file done svc names p.2)
      (waitReady x (loggedHost h) file svc names rounds)
      (fun _ p => Progress file (done ++ [svc]) p.2) (fun _ p => Along (Gate file) p.2) := by
  have hready : ∀ list (next : Prog (S × List Event) Unit),
      Eff.Triple (fun p => Launching file done svc names p.2) next (fun _ p => Progress file (done ++ [svc]) p.2)
        (fun _ p => Along (Gate file) p.2) →
      Eff.Triple (fun p : S × List Event => Looking file done svc names list [] p.2)
        (checkReady (loggedHost h) (dependencyHealthcheckOverride file svc) list names >>= fun ready =>
          if ready then pure () else next)
        (fun _ p => Progress file (done ++ [svc]) p.2) (fun _ p => Along (Gate file) p.2) := by
    intro list next hnext
    apply Eff.Triple.bind (checkReady_looking names)
    intro ready
    cases ready with
    | true =>
      rw [if_pos rfl]
      apply Eff.Triple.pure
      intro p hp
      cases hp with
      | inl hlook =>
        exact hlook.finish fun _ hn => hn
      | inr hnot => exact absurd hnot.1 (by decide)
    | false =>
      rw [if_neg (by decide)]
      apply hnext.pre
      intro p hp
      cases hp with
      | inl hlook => exact hlook.launching
      | inr hnot => exact hnot.2
  induction rounds with
  | zero =>
    apply Eff.Triple.bind containers_looking
    intro list
    exact hready list _ (Eff.Triple.throw fun p hp => hp.gated)
  | succ rounds ih =>
    apply Eff.Triple.bind containers_looking
    intro list
    exact hready list _ ih

theorem registerLb_progress {prep : Prepared} {name : String} {lb : LbDef} (hlb : lb.backends.service ∈ done) :
    Eff.Triple (fun p : S × List Event => Progress file done p.2) (registerLb (loggedHost h) file prep name lb)
      (fun _ p => Progress file done p.2) (fun _ p => Along (Gate file) p.2) := by
  apply Eff.Triple.bind (Q := fun _ p => Progress file done p.2)
  · exact logged_call (fun _ _ hlog => hlog.balance hlb _) fun _ e hlog => (hlog.balance hlb (.error e)).gated
  · exact fun _ => Eff.Triple.pure fun _ hp => hp

/-- One service: its replicas, their check, its load balancers. -/
theorem deployService_progress {prep : Prepared} {plan : Plan} {rounds : String → ℕ} {e : String × List Spec}
    (hplace : Place file done e.1) (hnamed : ∀ spec ∈ e.2, ∃ i, spec.name = replicaName file.project e.1 i) :
    Eff.Triple (fun p : S × List Event => Progress file done p.2)
      (deployService x (loggedHost h) file prep plan rounds e)
      (fun _ p => Progress file (done ++ [e.1]) p.2) (fun _ p => Along (Gate file) p.2) := by
  have hlaunch : Eff.Triple (fun p : S × List Event => Progress file done p.2)
      (Eff.collect (applySpec (loggedHost h) plan) e.2)
      (fun touched p => Launching file done e.1 touched.reduceOption p.2) (fun _ p => Along (Gate file) p.2) :=
    ((collect_launching hplace hnamed).pre fun p hp => hp.launching hplace).post fun touched p hp => by
      rw [List.nil_append] at hp
      exact hp
  apply Eff.Triple.bind hlaunch
  intro touched
  have hloop : ∀ lbs : List (String × LbDef), (∀ l ∈ lbs, l.2.backends.service = e.1) →
      Eff.Triple (fun p : S × List Event => Progress file (done ++ [e.1]) p.2)
        (lbs.forM fun l => registerLb (loggedHost h) file prep l.1 l.2)
        (fun _ p => Progress file (done ++ [e.1]) p.2) (fun _ p => Along (Gate file) p.2) := by
    intro lbs
    induction lbs with
    | nil => exact fun _ => Eff.Triple.pure fun _ hp => hp
    | cons l lbs ih =>
      intro hall
      have hmem : l.2.backends.service ∈ done ++ [e.1] := by
        rw [hall l (List.mem_cons_self ..)]
        exact List.mem_append_right _ (List.mem_singleton_self _)
      apply Eff.Triple.bind (registerLb_progress hmem)
      exact fun _ => ih fun l' hl' => hall l' (List.mem_cons_of_mem _ hl')
  have hlbs := hloop (file.loadbalancers.entries.filter fun l => l.2.backends.service = e.1)
    fun l hl => of_decide_eq_true (List.mem_filter.mp hl).2
  dsimp only
  split
  · exact Eff.Triple.bind (waitReady_progress _) fun _ => hlbs
  · rename_i hnone
    have hnil : touched.reduceOption = [] := not_not.mp hnone
    apply hlbs.pre
    intro p hp
    rw [hnil] at hp
    apply hp.finish
    rintro ⟨e', he', i, hi⟩
    exact absurd (hp.named e' he' i hi) List.not_mem_nil

/-! ## The order of the services -/

theorem depends_before {order : List String} (hordered : Ordered file.dependencyGraph order) {s d : String}
    (hdep : DependsOn file s d) : ∀ before after, order = before ++ s :: after → d ∈ before := by
  induction hdep with
  | single hedge =>
    obtain ⟨ds, hds, hmem⟩ := hedge
    intro before after hsplit
    exact hordered before s after hsplit ds hds _ hmem
  | tail _ hedge ih =>
    obtain ⟨ds, hds, hmem⟩ := hedge
    intro before after hsplit
    obtain ⟨first, second, rfl⟩ := List.append_of_mem (ih before after hsplit)
    have hin := hordered first _ (second ++ s :: after) (by rw [hsplit]; simp) ds hds _ hmem
    exact List.mem_append_left _ hin

theorem place_of_order {order done rest : List String} (htopo : topoOrder file.dependencyGraph = .ok order)
    (hsplit : order = done ++ svc :: rest) : Place file done svc := by
  have hordered := topoOrder_ordered htopo
  have hnodup := (topoOrder_spec htopo).1
  have hnew : svc ∉ done := by
    intro hmem
    rw [hsplit, List.nodup_append] at hnodup
    exact hnodup.2.2 svc hmem svc (List.mem_cons_self ..) rfl
  refine ⟨hnew, fun d hd => depends_before hordered hd done rest hsplit, ?_⟩
  intro s hs hdep
  obtain ⟨first, second, rfl⟩ := List.append_of_mem hs
  have hin := depends_before hordered hdep first (second ++ svc :: rest) (by rw [hsplit]; simp)
  exact hnew (List.mem_append_left _ hin)

/-! ## The whole of `up` -/

def Quietly (log : List Event) : Prop := ∀ e ∈ log, Idle e.request

theorem Quietly.concat {log : List Event} {e : Event} (h : Quietly log) (he : Idle e.request) : Quietly (log ++ [e]) :=
  forall_mem_concat h he

theorem Quietly.progress {log : List Event} (h : Quietly log) : Progress file [] log where
  gated := by
    rintro past ⟨r, a⟩ later hsplit
    have hmem : (⟨r, a⟩ : Event) ∈ log := by rw [hsplit]; exact List.mem_append_right _ (List.mem_cons_self ..)
    exact gate_of_quiet (h _ hmem).1 a
  launches := fun e he s hs => absurd hs (not_launches_of_idle (h e he) s)
  balances := fun e he lb hlb => absurd hlb ((h e he).2 lb)
  checked := fun s hs => absurd hs List.not_mem_nil

theorem idle_of_building {r : Request} (hr : Request.Building r) : Idle r := by
  constructor
  · cases r <;> first | rfl | exact absurd hr id
  · rintro lb rfl
    exact hr

/-- What is no call leaves the log alone. -/
theorem zoom_keeps_log {α : Type} (m : Prog S α) (P : List Event → Prop) :
    Eff.Keeps (fun p : S × List Event => P p.2) (Eff.zoom Prod.fst (fun s p => (s, p.2)) m) := by
  rintro ⟨s, log⟩ hlog
  have hzoom : Eff.zoom Prod.fst (fun s (p : S × List Event) => (s, p.2)) m (s, log) = ((m s).1, ((m s).2, log)) := rfl
  rw [hzoom]
  cases (m s).1 with
  | ok a => exact hlog
  | error e => exact hlog

theorem loggedHost_quiet : (loggedHost h).KeepsOn Request.Building fun p => Quietly p.2 where
  call _ hr := logged_call (fun _ _ hlog => hlog.concat (idle_of_building hr))
    fun _ _ hlog => hlog.concat (idle_of_building hr)
  readToString path := zoom_keeps_log (h.readToString path) Quietly
  newId := zoom_keeps_log h.newId Quietly
  now := zoom_keeps_log h.now Quietly

/-- What `up` may rely on when it begins to deploy. -/
theorem prepare_quiet {opts : UpOptions} :
    Eff.Triple (fun p : S × List Event => Quietly p.2) (prepare x (loggedHost h) file opts)
      (fun prep p => Quietly p.2 ∧ topoOrder file.dependencyGraph = .ok (prep.specs.map Prod.fst) ∧
        ∀ e ∈ prep.specs, ∀ spec ∈ e.2, ∃ i, spec.name = replicaName file.project e.1 i)
      (fun _ p => Quietly p.2) :=
  (prepare_keeps loggedHost_quiet).with_result fun _ _ _ hs => prepare_named hs

theorem deploy_gated {prep : Prepared} {plan : Plan} {rounds : String → ℕ}
    (htopo : topoOrder file.dependencyGraph = .ok (prep.specs.map Prod.fst))
    (hnamed : ∀ e ∈ prep.specs, ∀ spec ∈ e.2, ∃ i, spec.name = replicaName file.project e.1 i) :
    Eff.Triple (fun p : S × List Event => Progress file [] p.2)
      (prep.specs.forM (deployService x (loggedHost h) file prep plan rounds))
      (fun _ p => Progress file (prep.specs.map Prod.fst) p.2) (fun _ p => Along (Gate file) p.2) := by
  have hloop : ∀ rest done, prep.specs = done ++ rest →
      Eff.Triple (fun p : S × List Event => Progress file (done.map Prod.fst) p.2)
        (rest.forM (deployService x (loggedHost h) file prep plan rounds))
        (fun _ p => Progress file (prep.specs.map Prod.fst) p.2) (fun _ p => Along (Gate file) p.2) := by
    intro rest
    induction rest with
    | nil =>
      intro done hsplit
      rw [List.append_nil] at hsplit
      rw [hsplit]
      exact Eff.Triple.pure fun _ hp => hp
    | cons e rest ih =>
      intro done hsplit
      have horder : prep.specs.map Prod.fst = done.map Prod.fst ++ e.1 :: rest.map Prod.fst := by
        rw [hsplit, List.map_append, List.map_cons]
      have hmem : e ∈ prep.specs := by rw [hsplit]; exact List.mem_append_right _ (List.mem_cons_self ..)
      apply Eff.Triple.bind (deployService_progress (place_of_order htopo horder) (hnamed e hmem))
      intro _
      have hnext := ih (done ++ [e]) (by rw [hsplit, List.append_assoc]; rfl)
      rw [List.map_append] at hnext
      exact hnext
  exact hloop prep.specs [] rfl

theorem forM_removeContainer {P : List Event → Prop} (hP : ∀ log (e : Event), Idle e.request → P log → P (log ++ [e]))
    (hgated : ∀ log, P log → Along (Gate file) log) (names : List String) :
    Eff.Triple (fun p : S × List Event => P p.2) (names.forM (removeContainer (loggedHost h))) (fun _ p => P p.2)
      (fun _ p => Along (Gate file) p.2) := by
  induction names with
  | nil => exact Eff.Triple.pure fun _ hp => hp
  | cons name names ih => exact Eff.Triple.bind (removeContainer_keeps hP hgated name) fun _ => ih

theorem up_gated {opts : UpOptions} {rounds : String → ℕ} :
    Eff.Triple (fun p : S × List Event => Quietly p.2) (up x (loggedHost h) file opts rounds)
      (fun _ p => Along (Gate file) p.2) (fun _ p => Along (Gate file) p.2) := by
  apply Eff.Triple.bind (Eff.Triple.lift (Q := fun _ p => Quietly p.2) (fun _ _ hp _ => hp) fun _ _ hp _ =>
    hp.progress.gated)
  intro _
  apply Eff.Triple.bind (prepare_quiet.conseq (fun _ hp => hp) (fun _ _ hp => hp) fun _ _ hp => hp.progress.gated)
  intro prep
  have hquiet : Eff.Keeps (fun p : S × List Event => Quietly p.2) (containers x (loggedHost h) file.project) :=
    containers_keeps (loggedHost_quiet.mono fun _ hr => hr.fetching.building) _
  apply Eff.Triple.bind (Q := fun _ p => Quietly p.2 ∧ topoOrder file.dependencyGraph = .ok (prep.specs.map Prod.fst) ∧
    ∀ e ∈ prep.specs, ∀ spec ∈ e.2, ∃ i, spec.name = replicaName file.project e.1 i)
  · rintro p ⟨hp, htopo, hnamed⟩
    exact hquiet.conseq (fun _ hs => hs) (fun _ _ hs => ⟨hs, htopo, hnamed⟩) (fun _ _ hs => hs.progress.gated) p hp
  · intro existing
    dsimp only
    split
    · exact Eff.Triple.pure fun _ hp => hp.1.progress.gated
    · rintro p ⟨hp, htopo, hnamed⟩
      have hdeploy : Eff.Triple (fun p : S × List Event => Progress file [] p.2)
          (prep.specs.forM (deployService x (loggedHost h) file prep (makePlan prep existing) rounds) >>= fun _ =>
            (shutdownOrder (makePlan prep existing).remove).forM (removeContainer (loggedHost h)) >>= fun _ =>
            pure (makePlan prep existing))
          (fun _ p => Along (Gate file) p.2) (fun _ p => Along (Gate file) p.2) := by
        apply Eff.Triple.bind (deploy_gated htopo hnamed)
        intro _
        apply Eff.Triple.bind (forM_removeContainer (fun _ _ he hlog => hlog.idle he) (fun _ hlog => hlog.gated) _)
        exact fun _ => Eff.Triple.pure fun _ hp => hp.gated
      exact hdeploy p hp.progress

theorem gated_of_along {log : List Event} (h : Along (Gate file) log) : Gated file log := by
  intro before e after hsplit
  refine ⟨?_, ?_⟩
  · intro s hs d hd
    refine ⟨?_, (h before e after hsplit).behind s hs d hd⟩
    intro e' he' hl
    obtain ⟨first, second, rfl⟩ := List.append_of_mem he'
    have hgate := h (before ++ e :: first) e' second (by rw [hsplit]; simp)
    exact hgate.ahead d hl e (List.mem_append_right _ (List.mem_cons_self ..)) s hs hd
  · intro lb hlb e' he' hl
    obtain ⟨first, second, rfl⟩ := List.append_of_mem he'
    have hgate := h (before ++ e :: first) e' second (by rw [hsplit]; simp)
    exact hgate.balanced _ hl e (List.mem_append_right _ (List.mem_cons_self ..)) lb hlb rfl

/-! ## The whole of `down` -/

theorem mem_mine {n : String} : n ∈ mine list svc ↔ ∃ c ∈ list, c.service = some svc ∧ c.name = n := by
  unfold mine
  rw [List.mem_insertionSort, List.mem_map]
  simp [and_assoc]

theorem flatMap_split {α β : Type} {f : α → List β} {l : List α} {first second : List β} {b : β}
    (h : l.flatMap f = first ++ b :: second) :
    ∃ before a after, l = before ++ a :: after ∧ b ∈ f a ∧ ∀ b' ∈ first, ∃ a' ∈ before ++ [a], b' ∈ f a' := by
  induction l generalizing first with
  | nil => cases first <;> cases h
  | cons a l ih =>
    rw [List.flatMap_cons] at h
    cases List.append_eq_append_iff.mp h with
    | inl hlong =>
      obtain ⟨more, hfirst, hrest⟩ := hlong
      obtain ⟨before, a', after, rfl, hb, hall⟩ := ih hrest
      refine ⟨a :: before, a', after, rfl, hb, ?_⟩
      intro b' hb'
      rw [hfirst, List.mem_append] at hb'
      cases hb' with
      | inl hin => exact ⟨a, List.mem_cons_self .., hin⟩
      | inr hin =>
        obtain ⟨a'', ha'', hmem⟩ := hall b' hin
        exact ⟨a'', List.mem_cons_of_mem _ ha'', hmem⟩
    | inr hshort =>
      obtain ⟨more, hfa, hrest⟩ := hshort
      cases more with
      | nil =>
        rw [List.append_nil] at hfa
        rw [List.nil_append] at hrest
        obtain ⟨before, a', after, rfl, hb, hall⟩ := @ih [] hrest.symm
        refine ⟨a :: before, a', after, rfl, hb, ?_⟩
        intro b' hb'
        exact ⟨a, List.mem_cons_self .., by rw [hfa]; exact hb'⟩
      | cons b'' more =>
        obtain ⟨rfl, -⟩ := List.cons.inj hrest
        refine ⟨[], a, l, rfl, by rw [hfa]; exact List.mem_append_right _ (List.mem_cons_self ..), ?_⟩
        intro b' hb'
        exact ⟨a, List.mem_singleton_self _, by rw [hfa]; exact List.mem_append_left _ hb'⟩

def stops (log : List Event) : List String := log.filterMap fun e => stopped e.request

/-- The containers stopped so far are the first of those that are to go. -/
def Going (file : ComposeFile) (list : List ContainerInfo) (going : List String) (log : List Event) : Prop :=
  ∃ later, log = ⟨.ps true (some file.project), .ok (.containers list)⟩ :: later ∧ stops later <+: going

theorem going_in_order {order : List String} {log : List Event} (htopo : topoOrder file.dependencyGraph = .ok order)
    (h : Going file list ((shutdownOrder order).flatMap (mine list)) log) : StopsInOrder file log := by
  obtain ⟨later, hlog, more, hmore⟩ := h
  refine Or.inr ⟨list, later, hlog, ?_⟩
  rintro past e rest rfl s ⟨n, hn, ⟨c, hc, hcn⟩, hall⟩ d hdep e' he' ⟨n', hn', ⟨c', hc', hcn'⟩, hall'⟩
  have hsplit : (shutdownOrder order).flatMap (mine list) = stops past ++ n :: (stops rest ++ more) := by
    rw [← hmore]
    simp [stops, hn]
  have hpast : n' ∈ stops past := List.mem_filterMap.mpr ⟨e', he', hn'⟩
  obtain ⟨before, svc, after, horder, hmem, hfirst⟩ := flatMap_split hsplit
  obtain ⟨svc', hsvc', hmem'⟩ := hfirst n' hpast
  -- The two names are of the services whose blocks they stand in.
  obtain rfl : svc = s := by
    obtain ⟨c₁, hc₁, hservice, hname⟩ := mem_mine.mp hmem
    exact Option.some.inj (hservice.symm.trans (hall c₁ hc₁ hname))
  obtain rfl : svc' = d := by
    obtain ⟨c₁, hc₁, hservice, hname⟩ := mem_mine.mp hmem'
    exact Option.some.inj (hservice.symm.trans (hall' c₁ hc₁ hname))
  have hrev : order = after.reverse ++ svc :: before.reverse := by
    have := congrArg List.reverse horder
    simpa [shutdownOrder] using this
  have hplace := place_of_order htopo hrev
  have hbelow : svc' ∈ after := List.mem_reverse.mp (hplace.below svc' hdep)
  have hnodup : (shutdownOrder order).Nodup := List.nodup_reverse.mpr (topoOrder_spec htopo).1
  rw [horder, show before ++ svc :: after = (before ++ [svc]) ++ after by simp, List.nodup_append] at hnodup
  exact hnodup.2.2 svc' hsvc' svc' hbelow rfl

/-- One container is stopped and removed. -/
theorem removeContainer_going {going rest : List String} {name : String} :
    Eff.Triple (fun p : S × List Event => ∃ later,
        p.2 = ⟨.ps true (some file.project), .ok (.containers list)⟩ :: later ∧ stops later ++ name :: rest = going)
      (removeContainer (loggedHost h) name)
      (fun _ p => ∃ later,
        p.2 = ⟨.ps true (some file.project), .ok (.containers list)⟩ :: later ∧ stops later ++ rest = going)
      (fun _ p => Going file list going p.2) := by
  have hstop : ∀ a later, stops (later ++ [⟨.stop name none, a⟩]) = stops later ++ [name] := by
    intro a later
    rw [stops, List.filterMap_append]
    rfl
  have hrm : ∀ a later, stops (later ++ [⟨.rm name true false, a⟩]) = stops later := by
    intro a later
    rw [stops, List.filterMap_append]
    exact List.append_nil _
  apply Eff.Triple.bind (logged_call
    (P := fun log => ∃ later, log = ⟨.ps true (some file.project), .ok (.containers list)⟩ :: later ∧
      stops later ++ name :: rest = going)
    (Q := fun _ log => ∃ later, log = ⟨.ps true (some file.project), .ok (.containers list)⟩ :: later ∧
      stops later ++ rest = going)
    (E := Going file list going) ?_ ?_)
  · intro _
    apply Eff.Triple.bind (logged_call
      (P := fun log => ∃ later, log = ⟨.ps true (some file.project), .ok (.containers list)⟩ :: later ∧
        stops later ++ rest = going)
      (Q := fun _ log => ∃ later, log = ⟨.ps true (some file.project), .ok (.containers list)⟩ :: later ∧
        stops later ++ rest = going)
      (E := Going file list going) ?_ ?_)
    · exact fun _ => Eff.Triple.pure fun _ hp => hp
    · rintro log res ⟨later, rfl, hgoing⟩
      exact ⟨later ++ [⟨_, .ok res⟩], rfl, by rw [hrm, hgoing]⟩
    · rintro log e ⟨later, rfl, hgoing⟩
      exact ⟨later ++ [⟨_, .error e⟩], rfl, rest, by rw [hrm, hgoing]⟩
  · rintro log res ⟨later, rfl, hgoing⟩
    exact ⟨later ++ [⟨_, .ok res⟩], rfl, by rw [hstop, List.append_assoc]; exact hgoing⟩
  · rintro log e ⟨later, rfl, hgoing⟩
    exact ⟨later ++ [⟨_, .error e⟩], rfl, rest, by rw [hstop, List.append_assoc]; exact hgoing⟩

theorem removeAll_going {going : List String} (rest : List String) :
    Eff.Triple (fun p : S × List Event => ∃ later,
        p.2 = ⟨.ps true (some file.project), .ok (.containers list)⟩ :: later ∧ stops later ++ rest = going)
      (rest.forM (removeContainer (loggedHost h))) (fun _ p => Going file list going p.2)
      (fun _ p => Going file list going p.2) := by
  induction rest with
  | nil =>
    apply Eff.Triple.pure
    rintro p ⟨later, hlog, hgoing⟩
    exact ⟨later, hlog, [], hgoing⟩
  | cons name rest ih => exact Eff.Triple.bind removeContainer_going fun _ => ih

theorem removeLb_going {going : List String} (name : String) :
    Eff.Keeps (fun p : S × List Event => Going file list going p.2) (removeLb (loggedHost h) file.project name) := by
  have hcall : Eff.Keeps (fun p : S × List Event => Going file list going p.2)
      ((loggedHost h).call (.lbRemove file.project name)) := by
    have hkeep : ∀ log (a : Result Response), Going file list going log →
        Going file list going (log ++ [⟨.lbRemove file.project name, a⟩]) := by
      rintro log a ⟨later, rfl, hgoing⟩
      refine ⟨later ++ [⟨_, a⟩], rfl, ?_⟩
      rw [stops, List.filterMap_append]
      exact (List.append_nil (stops later)).symm ▸ hgoing
    exact logged_call (fun log _ hlog => hkeep log _ hlog) fun log _ hlog => hkeep log _ hlog
  apply Eff.Keeps.bind hcall.attempt
  intro a
  split
  · exact Eff.Keeps.pure _
  · exact Eff.Keeps.pure _
  · exact Eff.Keeps.throw _

theorem containers_listed :
    Eff.Triple (fun p : S × List Event => p.2 = []) (containers x (loggedHost h) file.project)
      (fun list p => p.2 = [⟨.ps true (some file.project), .ok (.containers list)⟩])
      (fun _ p => ∀ e ∈ p.2, stopped e.request = none) := by
  apply Eff.Triple.bind (Q := fun res p => p.2 = [⟨.ps true (some file.project), .ok res⟩])
  · apply logged_call (P := fun log => log = []) (Q := fun res log => log = [⟨.ps true (some file.project), .ok res⟩])
      (E := fun log => ∀ e ∈ log, stopped e.request = none)
    · rintro log res rfl
      rfl
    · rintro log e rfl e' he'
      rw [List.nil_append, List.mem_singleton] at he'
      rw [he']
      rfl
  · intro res
    split
    · exact Eff.Triple.pure fun _ hp => hp
    · apply Eff.Triple.throw
      intro p hp e he
      rw [hp, List.mem_singleton] at he
      rw [he]
      rfl

theorem down_in_order {opts : UpOptions} :
    Eff.Triple (fun p : S × List Event => p.2 = []) (down x (loggedHost h) file opts)
      (fun _ p => StopsInOrder file p.2) (fun _ p => StopsInOrder file p.2) := by
  apply Eff.Triple.bind (Eff.Triple.lift
    (Q := fun order p => p.2 = [] ∧ topoOrder file.dependencyGraph = .ok order) (fun _ _ hp ho => ⟨hp, ho⟩) ?_)
  · intro order
    rintro p ⟨hp, htopo⟩
    have hrest : Eff.Triple (fun p : S × List Event => p.2 = [])
        (containers x (loggedHost h) file.project >>= fun existing =>
          if opts.dryRun then pure ((shutdownOrder order).flatMap (mine existing))
          else do
            ((shutdownOrder order).flatMap (mine existing)).forM (removeContainer (loggedHost h))
            file.loadbalancers.keys.forM (removeLb (loggedHost h) file.project)
            pure ((shutdownOrder order).flatMap (mine existing)))
        (fun _ p => StopsInOrder file p.2) (fun _ p => StopsInOrder file p.2) := by
      apply Eff.Triple.bind (containers_listed.conseq (fun _ hp => hp) (fun _ _ hp => hp) fun _ _ hp => Or.inl hp)
      intro existing
      have hgoing : ∀ log, Going file existing ((shutdownOrder order).flatMap (mine existing)) log →
          StopsInOrder file log := fun _ hlog => going_in_order htopo hlog
      split
      · apply Eff.Triple.pure
        intro p hp
        exact hgoing _ ⟨[], hp, List.nil_prefix⟩
      · apply Eff.Triple.bind (((removeAll_going _).pre fun p hp => ⟨[], hp, rfl⟩).conseq (fun _ hp => hp)
          (fun _ _ hp => hp) fun _ p hp => hgoing p.2 hp)
        intro _
        have hlbs : Eff.Keeps (fun p : S × List Event =>
            Going file existing ((shutdownOrder order).flatMap (mine existing)) p.2)
            (file.loadbalancers.keys.forM (removeLb (loggedHost h) file.project)) :=
          Eff.Keeps.forM _ fun name _ => removeLb_going name
        apply Eff.Triple.bind (hlbs.conseq (fun _ hp => hp) (fun _ _ hp => hp) fun _ p hp => hgoing p.2 hp)
        exact fun _ => Eff.Triple.pure fun p hp => hgoing p.2 hp
    exact hrest p hp
  · intro e p hp _
    refine Or.inl ?_
    rw [hp]
    exact fun e he => absurd he List.not_mem_nil

/-- Dependencies gate the start and the stop of services, whatever the API answers. -/
theorem dependencies_gate (x : Extern) (h : Host S) (file : ComposeFile) (opts : UpOptions) (rounds : String → ℕ)
    (s : S) :
    Gated file (requested (up x (loggedHost h) file opts rounds) s) ∧
      StopsInOrder file (requested (down x (loggedHost h) file opts) s) := by
  constructor
  · have hrun : Eff.Triple (fun p : S × List Event => Quietly p.2) (up x (loggedHost h) file opts rounds)
        (fun _ p => Along (Gate file) p.2) (fun _ p => Along (Gate file) p.2) := up_gated
    have hup := hrun (s, []) fun e he => absurd he List.not_mem_nil
    apply gated_of_along
    unfold requested
    rcases hr : up x (loggedHost h) file opts rounds (s, []) with ⟨_ | _, p⟩ <;> rw [hr] at hup <;> exact hup
  · have hrun : Eff.Triple (fun p : S × List Event => p.2 = []) (down x (loggedHost h) file opts)
        (fun _ p => StopsInOrder file p.2) (fun _ p => StopsInOrder file p.2) := down_in_order
    have hdown := hrun (s, []) rfl
    unfold requested
    rcases hr : down x (loggedHost h) file opts (s, []) with ⟨_ | _, p⟩ <;> rw [hr] at hdown <;> exact hdown

end Run
end Collocate.Compose
