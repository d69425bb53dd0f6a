import Collocate.Daemon.Disk
import Collocate.Secrets.Files

/-! # Lists for restricted callers

What a restricted caller is told by the requests that list things depends only on what belongs to its
projects: the handler leaves the rest out when a project is named, and `filter_response` when none is. -/
namespace Collocate.Daemon
set_option autoImplicit false

variable {τ : Type}

/-! ## The answers -/

/-- The answer to a request that lists something, when everything can be read. -/
def listing (base : World τ) (d : State (Outside τ)) : Request → Option Response
  | .ps all project =>
    let specs := d.store.specs.values.insertionSort earlier
    let mine := specs.filter fun s => project.isNone || s.labels.project == project
    some (.containers ((mine.map (containerInfo d.live)).filter fun c => all || c.state == .running))
  | .stats project =>
    let mine := d.live.values.filter fun l => project.isNone || l.spec.labels.project == project
    some (.stats (mine.filterMap fun l => statsFrom l (base.stats l.spec.id d.outer.2).1))
  | .secretList project => match (Secrets.list project ⟨d.disk.secrets, []⟩).1 with
    | .ok list => some (.names list)
    | .error _ => none
  | .lbList => some (.lbs (d.lbs.values.map (lbStatus d.live)))
  | _ => none

/-- Reading peer credentials, specs and statistics changes nothing. -/
structure ReadOnly (base : World τ) : Prop where
  peer : ∀ conn s, (base.act (.requireRoot conn) s).2 = s
  specs : ∀ s, (base.act .readSpecs s).2 = s
  stats : ∀ id s, (base.stats id s).2 = s

section Answers
variable {base : World τ} {stateDir : String} {draw : ℕ → τ → String × τ}

/-- A program of the other world that changes nothing there changes nothing at all. -/
theorem outside_onRest {α : Type} {m : Prog τ α} (hm : ∀ s, (m s).2 = s) (d : State (Outside τ)) :
    outside (onRest m) d = ((m d.outer.2).1, d) := by
  show ((m d.outer.2).1, { d with outer := (d.outer.1, (m d.outer.2).2) }) = _
  rw [hm]

theorem loadAll_eq (hread : ReadOnly base) (d : State (Outside τ))
    (hdecode : (base.act .readSpecs d.outer.2).1 = .ok ()) :
    loadAll (onDisk base stateDir draw) d = (.ok (d.store.specs.values.insertionSort earlier), d) := by
  have hact : act (onDisk base stateDir draw) .readSpecs d = (.ok (), d) := by
    rw [← hdecode]
    exact outside_onRest hread.specs d
  unfold loadAll
  rw [Eff.bind_of_ok hact, Eff.get_bind_apply]
  rfl

theorem collect_statsOf (hread : ReadOnly base) (d : State (Outside τ)) (ls : List Live) :
    Eff.collect (statsOf (onDisk base stateDir draw)) ls d =
      (.ok (ls.map fun l => statsFrom l (base.stats l.spec.id d.outer.2).1), d) := by
  induction ls with
  | nil => rfl
  | cons l ls ih =>
    have hone : statsOf (onDisk base stateDir draw) l d = (.ok (statsFrom l (base.stats l.spec.id d.outer.2).1),
      d) := by
      have hstats : outside ((onDisk base stateDir draw).stats l.spec.id) d = ((base.stats l.spec.id d.outer.2).1, d) :=
        outside_onRest (hread.stats l.spec.id) d
      unfold statsOf
      rw [Eff.bind_of_ok (Eff.attempt_of hstats)]
      rfl
    unfold Eff.collect
    rw [Eff.bind_of_ok hone, Eff.bind_of_ok ih]
    rfl

/-- The handler gives the listing, and changes nothing. -/
theorem handle_listing (hread : ReadOnly base) (conn : ℕ) (d : State (Outside τ))
    (hdecode : (base.act .readSpecs d.outer.2).1 = .ok ()) (hfate : d.outer.1.fate = []) {request : Request}
    {response : Response} (h : listing base d request = some response) :
    (handle (onDisk base stateDir draw) conn request d).1 = .ok (some response) := by
  cases request with
  | ps all project =>
    cases h
    show (opPs _ all project d).1 = _
    unfold opPs
    rw [Eff.bind_of_ok (loadAll_eq hread d hdecode), Eff.get_bind_apply]
    rfl
  | stats project =>
    cases h
    show (opStats _ project d).1 = _
    unfold opStats
    rw [Eff.get_bind_apply, Eff.bind_of_ok (collect_statsOf hread d _), List.filterMap_map]
    rfl
  | secretList project =>
    have hlist := Secrets.list_eq (F := d.disk.secrets) project
    rw [listing, hlist] at h
    cases h
    show ((onFiles (onSecrets (Secrets.list project)) >>= fun list => pure (some (Response.names list))) d.outer :
      _ × Outside τ).1 = _
    rw [Eff.map_fst]
    show (Secrets.list project ⟨d.disk.secrets, d.outer.1.fate⟩).1.map _ = _
    rw [hfate, hlist]
    rfl
  | lbList =>
    cases h
    rfl
  | _ => cases h

end Answers

/-! ## Two states that look alike to a caller -/

/-- The container is of one of the caller's projects. -/
def Owns (caller : Caller) (d : State (Outside τ)) (id : ContainerId) : Prop :=
  (∃ spec, d.store.get? id = some spec ∧ caller.allowsProject spec.labels.project = true) ∨
    ∃ l, d.live.get? id = some l ∧ caller.allowsProject l.spec.labels.project = true

/-- The specs and files can be read in `d`. -/
structure Readable (base : World τ) (d : State (Outside τ)) : Prop where
  decode : (base.act .readSpecs d.outer.2).1 = .ok ()
  fate : d.outer.1.fate = []

/-- The states agree on what is of the caller's projects, and on who is at the other end of `conn`. -/
structure Agree (base : World τ) (conn : ℕ) (caller : Caller) (d d' : State (Outside τ)) : Prop where
  conns : d.conns conn = d'.conns conn
  peer : (base.act (.requireRoot conn) d.outer.2).1 = (base.act (.requireRoot conn) d'.outer.2).1
  specs : ∀ id spec, caller.allowsProject spec.labels.project = true →
    (d.store.get? id = some spec ↔ d'.store.get? id = some spec)
  live : ∀ id, Owns caller d id ∨ Owns caller d' id → d.live.get? id = d'.live.get? id
  stats : ∀ id l, d.live.get? id = some l → caller.allowsProject l.spec.labels.project = true →
    (base.stats l.spec.id d.outer.2).1 = (base.stats l.spec.id d'.outer.2).1
  lbs : ∀ key lb, caller.allowsProject (some lb.project) = true → (d.lbs.get? key = some lb ↔ d'.lbs.get? key = some lb)
  secrets : ∀ p n, caller.allowsProject (some p) = true →
    Secrets.content d.disk.secrets p n = Secrets.content d'.disk.secrets p n

section Agree
variable {base : World τ} {conn : ℕ} {caller : Caller} {d d' : State (Outside τ)}

theorem Agree.live_iff (h : Agree base conn caller d d') {id : ContainerId} {l : Live}
    (hl : caller.allowsProject l.spec.labels.project = true) : d.live.get? id = some l ↔ d'.live.get? id = some l := by
  constructor
  · intro hget
    rw [← h.live id (.inl (.inr ⟨l, hget, hl⟩))]
    exact hget
  · intro hget
    rw [h.live id (.inr (.inr ⟨l, hget, hl⟩))]
    exact hget

/-! ### Containers -/

theorem earlier_iff {a b : Spec} :
    earlier a b ↔ a.created.toNat < b.created.toNat ∨ a.created.toNat = b.created.toNat ∧ a.id ≤ b.id := by
  unfold earlier
  rw [UInt64.lt_iff_toNat_lt, UInt64.toNat_inj]

instance : Std.Total earlier where
  total a b := by
    rw [earlier_iff, earlier_iff]
    rcases lt_trichotomy a.created.toNat b.created.toNat with h | h | h
    · exact .inl (.inl h)
    · rcases le_total a.id b.id with h' | h'
      · exact .inl (.inr ⟨h, h'⟩)
      · exact .inr (.inr ⟨h.symm, h'⟩)
    · exact .inr (.inl h)

instance : IsTrans Spec earlier where
  trans a b c := by
    rw [earlier_iff, earlier_iff, earlier_iff]
    rintro (hab | ⟨hab, hab'⟩) (hbc | ⟨hbc, hbc'⟩)
    · exact .inl (hab.trans hbc)
    · exact .inl (hbc ▸ hab)
    · exact .inl (hab ▸ hbc)
    · exact .inr ⟨hab.trans hbc, le_trans hab' hbc'⟩

theorem sorted_filter_congr {s s' : SpecStore} {p : Spec → Bool}
    (h : ∀ id spec, p spec = true → (s.get? id = some spec ↔ s'.get? id = some spec)) :
    (s.specs.values.insertionSort earlier).filter p = (s'.specs.values.insertionSort earlier).filter p := by
  have hsort (t : SpecStore) := (List.pairwise_insertionSort earlier t.specs.values).filter p
  have hperm (t : SpecStore) := (List.perm_insertionSort earlier t.specs.values).filter p
  have hvalues : s.specs.values.filter p = s'.specs.values.filter p := OrdMap.filter_values_congr h
  refine ((hperm s).trans (hvalues ▸ (hperm s').symm)).eq_of_pairwise ?_ (hsort s) (hsort s')
  -- Specs that are neither before nor after each other have the same id, and so are the same.
  intro a b ha hb hab hba
  have hid : a.id = b.id := by
    rw [earlier_iff] at hab hba
    rcases hab with hab | ⟨hab, hab'⟩
    · omega
    · exact le_antisymm hab' (hba.resolve_left (by omega)).2
  have hmem : ∀ {t : SpecStore} {spec : Spec}, spec ∈ (t.specs.values.insertionSort earlier).filter p →
      p spec = true ∧ t.get? spec.id = some spec := fun hm =>
    ⟨(List.mem_filter.mp hm).2, (SpecStore.mem_values _).mp ((List.mem_insertionSort _).mp (List.mem_filter.mp hm).1)⟩
  obtain ⟨hpa, hga⟩ := hmem ha
  obtain ⟨-, hgb⟩ := hmem hb
  have hga' := (h a.id a hpa).mp hga
  rw [hid, hgb] at hga'
  exact (Option.some.inj hga').symm

/-- The containers of the specs with `p`. -/
def containersOf (d : State (Outside τ)) (all : Bool) (p : Spec → Bool) : List ContainerInfo :=
  ((((d.store.specs.values.insertionSort earlier).filter p).map (containerInfo d.live)).filter
    fun c => all || c.state == .running)

theorem filter_containersOf (d : State (Outside τ)) (all : Bool) (p : Spec → Bool) :
    (containersOf d all p).filter (fun c => caller.allowsProject c.project) =
      containersOf d all fun s => caller.allowsProject s.labels.project && p s := by
  unfold containersOf
  rw [List.filter_comm, List.filter_map, ← List.filter_filter]
  rfl

theorem Agree.containersOf (h : Agree base conn caller d d') (all : Bool) {p : Spec → Bool}
    (hp : ∀ s, p s = true → caller.allowsProject s.labels.project = true) :
    Daemon.containersOf d all p = Daemon.containersOf d' all p := by
  unfold Daemon.containersOf
  rw [sorted_filter_congr fun id spec hs => h.specs id spec (hp spec hs)]
  congr 1
  refine List.map_congr_left fun spec hmem => ?_
  obtain ⟨hsorted, hspec⟩ := List.mem_filter.mp hmem
  have hget := (SpecStore.mem_values _).mp ((List.mem_insertionSort _).mp hsorted)
  unfold containerInfo
  rw [h.live spec.id (.inr (.inl ⟨spec, hget, hp spec hspec⟩))]

/-! ### Statistics -/

theorem statsFrom_project {l : Live} {usage : Result Usage} {s : ContainerStats} (h : statsFrom l usage = some s) :
    s.project = l.spec.labels.project := by
  cases usage <;> cases h
  rfl

/-- The statistics of the live containers with `p`. -/
def statsWhere (base : World τ) (d : State (Outside τ)) (p : Live → Bool) : List ContainerStats :=
  (d.live.values.filter p).filterMap fun l => statsFrom l (base.stats l.spec.id d.outer.2).1

theorem Agree.statsWhere (h : Agree base conn caller d d') {p : Live → Bool}
    (hp : ∀ l, p l = true → caller.allowsProject l.spec.labels.project = true) :
    Daemon.statsWhere base d p = Daemon.statsWhere base d' p := by
  unfold Daemon.statsWhere
  rw [← OrdMap.filter_values_congr fun id l hl => h.live_iff (hp l hl)]
  refine List.filterMap_congr fun l hmem => ?_
  obtain ⟨hvalue, hl⟩ := List.mem_filter.mp hmem
  obtain ⟨⟨id, l⟩, hentry, rfl⟩ := List.mem_map.mp hvalue
  rw [h.stats id l (OrdMap.get?_eq_some.mpr hentry) (hp l hl)]

theorem filter_statsWhere (d : State (Outside τ)) (p : Live → Bool) :
    (statsWhere base d p).filter (fun s => caller.allowsProject s.project) =
      statsWhere base d fun l => p l && caller.allowsProject l.spec.labels.project := by
  unfold Daemon.statsWhere
  rw [List.filter_filterMap, List.filterMap_filter, List.filterMap_filter]
  refine List.filterMap_congr fun l _ => ?_
  cases hs : statsFrom l (base.stats l.spec.id d.outer.2).1 with
  | none => simp
  | some s =>
    rw [← statsFrom_project hs]
    cases p l <;> rfl

/-! ### Load balancers -/

theorem Agree.lbStatus (h : Agree base conn caller d d') {lb : LbSpec}
    (hlb : caller.allowsProject (some lb.project) = true) : Daemon.lbStatus d.live lb = Daemon.lbStatus d'.live lb := by
  have hvalues : d.live.values.filter (takesTraffic lb) = d'.live.values.filter (takesTraffic lb) := by
    refine OrdMap.filter_values_congr fun id l hl => h.live_iff ?_
    simp only [takesTraffic, Bool.and_eq_true, beq_iff_eq] at hl
    rw [hl.1.1.1]
    exact hlb
  unfold Daemon.lbStatus backends
  rw [hvalues]

theorem Agree.lbList (h : Agree base conn caller d d') :
    (d.lbs.values.map (Daemon.lbStatus d.live)).filter (fun l => caller.allowsProject (some l.spec.project)) =
      (d'.lbs.values.map (Daemon.lbStatus d'.live)).filter fun l => caller.allowsProject (some l.spec.project) := by
  rw [List.filter_map, List.filter_map]
  have hvalues : d.lbs.values.filter (fun lb => caller.allowsProject (some lb.project)) =
      d'.lbs.values.filter fun lb => caller.allowsProject (some lb.project) :=
    OrdMap.filter_values_congr h.lbs
  show (d.lbs.values.filter fun lb => caller.allowsProject (some lb.project)).map _ =
    (d'.lbs.values.filter fun lb => caller.allowsProject (some lb.project)).map _
  rw [hvalues]
  exact List.map_congr_left fun lb hmem => h.lbStatus (List.mem_filter.mp hmem).2

/-! ### Secrets -/

theorem splitOnce_reference {p n : String} (hp : Secrets.valid p = true) :
    Text.splitOnce '/' (p ++ "/" ++ n) = some (p, n) := by
  have hlist : (p ++ "/" ++ n).toList = p.toList ++ '/' :: n.toList := by simp
  unfold Text.splitOnce
  rw [hlist, Text.cutAt_append (Secrets.valid_no_slash hp)]
  simp

/-- The secrets that are listed and pass `p`. -/
theorem Agree.secretList (h : Agree base conn caller d d') {project : Option String} {q : String → Bool}
    (hq : ∀ p n, Secrets.valid p = true → (∀ p', project = some p' → p = p') → q (p ++ "/" ++ n) = true →
      caller.allowsProject (some p) = true) {l l' : List String}
    (hl : (Secrets.list project ⟨d.disk.secrets, []⟩).1 = .ok l)
    (hl' : (Secrets.list project ⟨d'.disk.secrets, []⟩).1 = .ok l') : l.filter q = l'.filter q := by
  obtain ⟨_, heq, hsorted, hmem⟩ := Secrets.list_spec d.disk.secrets project
  obtain ⟨_, heq', hsorted', hmem'⟩ := Secrets.list_spec d'.disk.secrets project
  rw [hl] at heq
  rw [hl'] at heq'
  cases heq
  cases heq'
  have hperm : (l.filter q).Perm (l'.filter q) := by
    have hnodup {k : List String} (hk : k.Pairwise (· < ·)) : k.Nodup := hk.imp fun hlt => ne_of_lt hlt
    refine (List.perm_ext_iff_of_nodup ((hnodup hsorted).filter _) ((hnodup hsorted').filter _)).mpr fun s => ?_
    rw [List.mem_filter, List.mem_filter, hmem, hmem']
    refine and_congr_left fun hs => ?_
    constructor
    · rintro ⟨p, n, rfl, hproject, hp, hn, hthere⟩
      rw [h.secrets p n (hq p n hp hproject hs)] at hthere
      exact ⟨p, n, rfl, hproject, hp, hn, hthere⟩
    · rintro ⟨p, n, rfl, hproject, hp, hn, hthere⟩
      rw [← h.secrets p n (hq p n hp hproject hs)] at hthere
      exact ⟨p, n, rfl, hproject, hp, hn, hthere⟩
  exact hperm.eq_of_pairwise (fun _ _ _ _ hlt hgt => absurd hgt (lt_asymm hlt)) (hsorted.filter _) (hsorted'.filter _)

/-! ### Any list -/

/-- The lists of one of the caller's own projects agree, and so do all lists after the filter. -/
theorem Agree.listing (h : Agree base conn caller d d') {request : Request} {project : Option String}
    (hscope : request.access.scope = .filtered project) : ∃ r r', listing base d request = some r ∧
      listing base d' request = some r' ∧ filterResponse caller r = filterResponse caller r' ∧
        ∀ p, project = some p → caller.allowsProject (some p) = true → r = r' := by
  have hnamed {p : String} {q : Option String} (hp : project = some p) (hallows : caller.allowsProject (some p) = true)
      (hq : (project.isNone || q == project) = true) : caller.allowsProject q = true := by
    subst hp
    have hq : q = some p := by simpa using hq
    rw [hq]
    exact hallows
  cases request with
  | ps all named =>
    cases hscope
    refine ⟨_, _, rfl, rfl, congrArg Response.containers ?_, fun p hp hallows => congrArg Response.containers ?_⟩
    · exact (filter_containersOf d all _).trans
        ((h.containersOf all fun s hs => by simp_all).trans (filter_containersOf d' all _).symm)
    · exact h.containersOf all fun s hs => hnamed hp hallows hs
  | stats named =>
    cases hscope
    refine ⟨_, _, rfl, rfl, congrArg Response.stats ?_, fun p hp hallows => congrArg Response.stats ?_⟩
    · exact (filter_statsWhere d _).trans ((h.statsWhere fun l hl => by simp_all).trans (filter_statsWhere d' _).symm)
    · exact h.statsWhere fun l hl => hnamed hp hallows hl
  | secretList named =>
    cases hscope
    obtain ⟨l, hl, -, hmem⟩ := Secrets.list_spec d.disk.secrets project
    obtain ⟨l', hl', -, hmem'⟩ := Secrets.list_spec d'.disk.secrets project
    refine ⟨.names l, .names l', ?_, ?_, congrArg Response.names ?_, fun p hp hallows => congrArg Response.names ?_⟩
    · rw [Daemon.listing, hl]
    · rw [Daemon.listing, hl']
    · refine h.secretList (fun p n hp _ hs => ?_) hl hl'
      rw [splitOnce_reference hp] at hs
      exact hs
    · have hall := h.secretList (q := fun _ => true) (fun q _ _ hq _ => (hq p hp) ▸ hallows) hl hl'
      rw [List.filter_true, List.filter_true] at hall
      exact hall
  | lbList =>
    cases hscope
    exact ⟨_, _, rfl, rfl, congrArg Response.lbs h.lbList, fun p hp => nomatch hp⟩
  | _ => cases hscope

end Agree

/-! ## Remote callers -/

section Remote
variable {base : World τ} {stateDir : String} {draw : ℕ → τ → String × τ} {conn : ℕ} {caller : Caller}

/-- Whether the other end of `conn` is the gateway. -/
def gateway (base : World τ) (conn : ℕ) (d : State (Outside τ)) : Result Unit :=
  if d.conns conn then
    match (base.act (.requireRoot conn) d.outer.2).1 with
    | .ok _ => .ok ()
    | .error _ => .error (.denied "only the collocate gateway can act for remote callers")
  else .error (.internal "connection vanished")

theorem requireGateway_eq (hread : ReadOnly base) (d : State (Outside τ)) :
    requireGateway (onDisk base stateDir draw) conn d = (gateway base conn d, d) := by
  unfold requireGateway requireConn gateway
  cases hconn : d.conns conn with
  | false =>
    have hvanished : (do
        let d ← Eff.get
        if d.conns conn then pure () else Eff.throw (.internal "connection vanished") : Op (Outside τ) Unit) d =
          (.error (.internal "connection vanished"), d) := by
      rw [Eff.get_bind_apply, hconn]
      rfl
    rw [Eff.bind_of_error hvanished]
    rfl
  | true =>
    have hthere : (do
        let d ← Eff.get
        if d.conns conn then pure () else Eff.throw (.internal "connection vanished") : Op (Outside τ) Unit) d =
          (.ok (), d) := by
      rw [Eff.get_bind_apply, hconn]
      rfl
    have hact : act (onDisk base stateDir draw) (.requireRoot conn) d =
        ((base.act (.requireRoot conn) d.outer.2).1, d) := outside_onRest (hread.peer conn) d
    rw [Eff.bind_of_ok hthere, Eff.bind_of_ok (Eff.attempt_of hact)]
    cases (base.act (.requireRoot conn) d.outer.2).1 <;> rfl

/-- What `authorize` says of a request for a list does not depend on the state: it is refused, or what is
listed is of one project that the caller may see, or the answer is filtered. -/
theorem authorize_filtered {σ : Type} (hrestricted : caller.restricted = true) (verb : String) {access : Access}
    {project : Option String} (hscope : access.scope = .filtered project)
    (targetProject : String → Op σ (Option String)) :
    (∃ e, ∀ d, authorize caller verb access targetProject d = (.error e, d)) ∨
      (∃ p, project = some p ∧ caller.allowsProject (some p) = true ∧
        ∀ d, authorize caller verb access targetProject d = (.ok false, d)) ∨
      ∀ d, authorize caller verb access targetProject d = (.ok true, d) := by
  unfold authorize
  rw [hscope, if_neg (by simp)]
  by_cases hrole : caller.role.rank < access.role.rank
  · rw [if_pos hrole]
    exact .inl ⟨_, fun _ => rfl⟩
  rw [if_neg hrole]
  cases project with
  | none =>
    rw [hrestricted]
    exact .inr (.inr fun _ => rfl)
  | some p =>
    dsimp only
    unfold forbidUnless
    by_cases hallows : caller.allowsProject (some p) = true
    · rw [if_pos hallows]
      exact .inr (.inl ⟨p, rfl, hallows, fun _ => rfl⟩)
    · rw [if_neg hallows]
      exact .inl ⟨_, fun _ => rfl⟩

/-- What a restricted caller is answered when it asks for a list depends only on what is of its projects. -/
theorem lists_reveal_nothing (hread : ReadOnly base) (hrestricted : caller.restricted = true) {request : Request}
    {project : Option String} (hscope : request.access.scope = .filtered project) {d d' : State (Outside τ)}
    (hd : Readable base d) (hd' : Readable base d') (hagree : Agree base conn caller d d') :
    (handle (onDisk base stateDir draw) conn (.as caller request) d).1 =
      (handle (onDisk base stateDir draw) conn (.as caller request) d').1 := by
  obtain ⟨r, r', hr, hr', hfiltered, hnamed⟩ := hagree.listing hscope
  have hanswer : (handle (onDisk base stateDir draw) conn request d).1 = .ok (some r) :=
    handle_listing hread conn d hd.decode hd.fate hr
  have hanswer' : (handle (onDisk base stateDir draw) conn request d').1 = .ok (some r') :=
    handle_listing hread conn d' hd'.decode hd'.fate hr'
  have hgateway : gateway base conn d = gateway base conn d' := by
    unfold gateway
    rw [hagree.conns, hagree.peer]
  have hgate : requireGateway (onDisk base stateDir draw) conn d = (gateway base conn d, d) := requireGateway_eq hread d
  have hgate' : requireGateway (onDisk base stateDir draw) conn d' = (gateway base conn d', d') :=
    requireGateway_eq hread d'
  rw [← hgateway] at hgate'
  unfold handle
  cases hresult : gateway base conn d with
  | error e =>
    rw [hresult] at hgate hgate'
    rw [Eff.bind_of_error hgate, Eff.bind_of_error hgate']
  | ok _ =>
    rw [hresult] at hgate hgate'
    rw [Eff.bind_of_ok hgate, Eff.bind_of_ok hgate']
    rcases authorize_filtered hrestricted request.verb hscope (targetProject (onDisk base stateDir draw)) with
      ⟨e, hrefused⟩ | ⟨p, hp, hallows, hopen⟩ | hfilter
    · rw [Eff.bind_of_error (hrefused d), Eff.bind_of_error (hrefused d')]
    · rw [Eff.bind_of_ok (hopen d), Eff.bind_of_ok (hopen d'), Eff.map_fst, Eff.map_fst, hanswer, hanswer',
        hnamed p hp hallows]
    · rw [Eff.bind_of_ok (hfilter d), Eff.bind_of_ok (hfilter d'), Eff.map_fst, Eff.map_fst, hanswer, hanswer']
      show Except.ok (some (filterResponse caller r)) = Except.ok (some (filterResponse caller r'))
      rw [hfiltered]

end Remote

/-! ### A caller for one project -/

def shopViewer : Caller where
  name := "shop"
  fingerprint := "0123456789ab"
  role := .viewer
  projects := ["shop"]

def bankSpec : Spec := { webSpec with labels := { project := some "bank" } }

/-- A node with one connection, the containers of `store` and the given secrets. -/
def nodeWith (store : SpecStore) (secrets : Secrets.Files) : State (Outside ℕ) :=
  { blank (⟨{ secrets }, []⟩, 0) {} store .overlay with conns := fun conn => conn == 101 }

theorem workingWorld_readOnly : ReadOnly workingWorld := ⟨fun _ _ => rfl, fun _ => rfl, fun _ _ => rfl⟩

/-- Nodes without anything of the shop look alike to it. -/
theorem agree_shopViewer : Agree workingWorld 101 shopViewer
    (nodeWith (SpecStore.empty.put bankSpec) (OrdMap.empty.insert "bank" (OrdMap.empty.insert "key" "1234")))
    (nodeWith .empty .empty) where
  conns := rfl
  peer := rfl
  specs id spec hallows := by
    show (OrdMap.empty.insert bankSpec.id bankSpec).get? id = some spec ↔ OrdMap.empty.get? id = some spec
    rw [OrdMap.get?_insert]
    split
    · refine ⟨fun h => ?_, fun h => nomatch h⟩
      cases h
      exact absurd hallows (by decide)
    · exact Iff.rfl
  live _ _ := rfl
  stats _ _ h := nomatch h
  lbs _ _ _ := Iff.rfl
  secrets p n hallows := by
    have hbank : p ≠ "bank" := by
      rintro rfl
      exact absurd hallows (by decide)
    show ((OrdMap.empty.insert "bank" _).get? p).bind _ = ((OrdMap.empty : Secrets.Files).get? p).bind _
    rw [OrdMap.get?_insert, if_neg hbank]

theorem lists_reveal_nothing_shop :
    let ps := handle (onDisk workingWorld "/var/lib/collocate" fun _ t => ("", t)) 101 (.as shopViewer (.ps true none))
    let secrets := OrdMap.empty.insert "bank" (OrdMap.empty.insert "key" "1234")
    (ps (nodeWith (SpecStore.empty.put bankSpec) secrets)).1 = (ps (nodeWith .empty .empty)).1 :=
  lists_reveal_nothing workingWorld_readOnly (by decide) rfl ⟨rfl, rfl⟩ ⟨rfl, rfl⟩ agree_shopViewer

end Collocate.Daemon
