import Collocate.Daemon.Disk
import Collocate.Net.IpamSound

/-! # Setting a load balancer

`op_lb_set` reserves the address before it adds it to the bridge and saves the file, and gives nothing back
when one of these fails. What it leaves then is what was there before exactly when the reservation changed
nothing and the file was not opened for writing. -/
namespace Collocate.Daemon
set_option autoImplicit false

/-! ## The reservation -/

/-- The address for a load balancer, and who owns which then. -/
def reservation (sha256 : List UInt8 → List UInt8) (ipam : Ipam) (lb : LbSpec) : Result (Ipv4Addr × Ipam) :=
  match lb.vip with
  | none => ipam.vip sha256 lb.project lb.name
  | some vip => (ipam.reserve vip (vipOwner lb.project lb.name)).map fun m => (vip, m)

/-- The load balancer has the address it asks for. -/
def HasAddress (ipam : Ipam) (lb : LbSpec) : Prop :=
  match lb.vip with
  | none => ∃ vip, ipam.byOwner (vipOwner lb.project lb.name) = some vip
  | some vip => ipam.byOwner (vipOwner lb.project lb.name) = some vip ∧
      ipam.byAddr vip = some (vipOwner lb.project lb.name)

theorem assignVip_eq {σ : Type} (w : World σ) (lb : LbSpec) (d : State σ) :
    assignVip w lb d = match reservation w.sha256 d.ipam lb with
      | .ok (vip, ipam) => (.ok vip, { d with ipam })
      | .error e => (.error e, d) := by
  unfold assignVip reservation
  rw [Eff.get_bind_apply]
  cases lb.vip with
  | none =>
    cases d.ipam.vip w.sha256 lb.project lb.name with
    | ok r => rfl
    | error e => rfl
  | some vip =>
    cases hreserve : d.ipam.reserve vip (vipOwner lb.project lb.name) with
    | ok m => simp only [hreserve]; rfl
    | error e => simp only [hreserve]; rfl

section Reserve
variable {m m' : Ipam} {addr : Ipv4Addr} {owner : String}

/-- A reservation of what is reserved already changes nothing, and no other. -/
theorem reserve_same_iff (h : m.reserve addr owner = .ok m') :
    m' = m ↔ m.byOwner owner = some addr ∧ m.byAddr addr = some owner := by
  obtain ⟨-, -, hsubnet, howner, haddr⟩ := Ipam.reserve_ok h
  constructor
  · rintro rfl
    have hthis := congrFun howner owner
    have hthat := congrFun haddr addr
    rw [Function.update_self] at hthis hthat
    exact ⟨hthis, hthat⟩
  · rintro ⟨hthis, hthat⟩
    obtain ⟨n, byOwner, byAddr⟩ := m
    obtain ⟨n', byOwner', byAddr'⟩ := m'
    have hnone : (fun a => if byOwner owner = some a ∧ a ≠ addr then none else byAddr a) = byAddr := by
      funext a
      refine if_neg fun hold => hold.2 ?_
      have heq := hthis.symm.trans hold.1
      exact (Option.some.inj heq).symm
    simp only at hsubnet howner haddr hthis hthat
    rw [hnone] at haddr
    rw [hsubnet, howner, haddr, ← hthis, ← hthat, Function.update_eq_self, Function.update_eq_self]

theorem probeFrom_reserves {start len base step : UInt32} {left : ℕ}
    (h : m.probeFrom owner start len base left step = .ok (addr, m')) : m.reserve addr owner = .ok m' := by
  induction left generalizing step with
  | zero => cases h
  | succ left ih =>
    unfold Ipam.probeFrom at h
    extract_lets a at h
    split at h
    · obtain ⟨m₁, hreserve, hok⟩ := Result.bind_ok h
      obtain ⟨rfl, rfl⟩ := Prod.mk.inj (Except.ok.inj hok)
      exact hreserve
    · exact ih h

theorem vip_same_iff {sha256 : List UInt8 → List UInt8} {project name : String}
    (h : m.vip sha256 project name = .ok (addr, m')) :
    m' = m ↔ ∃ a, m.byOwner (vipOwner project name) = some a := by
  cases howner : m.byOwner (vipOwner project name) with
  | some a =>
    rw [Ipam.vip_of_some howner] at h
    cases h
    exact ⟨fun _ => ⟨addr, rfl⟩, fun _ => rfl⟩
  | none =>
    rw [Ipam.vip_of_none howner] at h
    have hreserve : m.reserve addr (vipOwner project name) = .ok m' := by
      split at h
      · cases h
      · unfold Ipam.probe at h
        split at h
        · cases h
        · exact probeFrom_reserves h
    rw [reserve_same_iff hreserve, howner]
    constructor
    · rintro ⟨hnone, -⟩
      cases hnone
    · rintro ⟨a, hnone⟩
      cases hnone

end Reserve

theorem reservation_same_iff {sha256 : List UInt8 → List UInt8} {m m' : Ipam} {lb : LbSpec} {vip : Ipv4Addr}
    (h : reservation sha256 m lb = .ok (vip, m')) : m' = m ↔ HasAddress m lb := by
  unfold reservation at h
  unfold HasAddress
  cases hvip : lb.vip with
  | none =>
    rw [hvip] at h
    exact vip_same_iff h
  | some v =>
    rw [hvip] at h
    cases hreserve : m.reserve v (vipOwner lb.project lb.name) with
    | error e =>
      simp only [hreserve] at h
      cases h
    | ok m₁ =>
      simp only [hreserve] at h
      cases h
      exact reserve_same_iff hreserve

/-! ## The file -/

/-- The file that gets opened: its directory can be created, its name leads to a file, and the file opens. -/
def opened (lb : LbSpec) (s : Faulty Disk) : Option String :=
  if s.fate.getD 0 true && s.fate.getD 1 true then s.it.leads (lbFile (lbKey lb.project lb.name)) else none

/-- The content of a file that is open gets written. -/
def fills (s : Faulty Disk) : Bool := s.fate.getD 2 true

/-- A change takes the next of the fates. -/
theorem change_apply {S ε : Type} (e : ε) (f : S → S) (s : Faulty S) :
    (Faulty.change e f : Eff (Faulty S) ε Unit) s =
      if s.fate.getD 0 true then (.ok (), ⟨f s.it, s.fate.tail⟩) else (.error e, ⟨s.it, s.fate.tail⟩) := by
  rcases s with ⟨it, _ | ⟨_ | _, fate⟩⟩ <;> rfl

theorem change_bind_apply {S ε α : Type} (e : ε) (f : S → S) (g : Unit → Eff (Faulty S) ε α) (s : Faulty S) :
    (Faulty.change e f >>= g) s =
      if s.fate.getD 0 true then g () ⟨f s.it, s.fate.tail⟩ else (.error e, ⟨s.it, s.fate.tail⟩) := by
  rcases s with ⟨it, _ | ⟨_ | _, fate⟩⟩ <;> rfl

/-- The file is not opened and stays as it is, or it is opened and filled, or it is left empty. -/
theorem writeLbFile_cases (lb : LbSpec) (s : Faulty Disk) :
    match opened lb s with
    | none => ∃ e fate, writeLbFile lb s = (.error e, ⟨s.it, fate⟩)
    | some file =>
      if fills s then ∃ s', writeLbFile lb s = (.ok (), s')
      else ∃ fate, writeLbFile lb s =
        (.error ioError, ⟨{ s.it with lbFiles := s.it.lbFiles.insert file none }, fate⟩) := by
  have hsecond : s.fate.tail.getD 0 true = s.fate.getD 1 true := by rcases s.fate with _ | ⟨_, _⟩ <;> rfl
  have hthird : s.fate.tail.tail.getD 0 true = s.fate.getD 2 true := by
    rcases s.fate with _ | ⟨_, _ | ⟨_, _⟩⟩ <;> rfl
  unfold writeLbFile opened
  rw [change_bind_apply]
  cases hmade : s.fate.getD 0 true with
  | false => exact ⟨_, _, rfl⟩
  | true =>
    rw [if_pos rfl, Eff.get_bind_apply]
    cases hleads : s.it.leads (lbFile (lbKey lb.project lb.name)) with
    | none =>
      simp only [id, hleads, ite_self]
      exact ⟨_, _, rfl⟩
    | some file =>
      simp only [id, hleads, Bool.true_and]
      rw [change_bind_apply, hsecond]
      cases hopen : s.fate.getD 1 true with
      | false => exact ⟨_, _, rfl⟩
      | true =>
        simp only [if_true]
        rw [change_apply, hthird]
        unfold fills
        cases s.fate.getD 2 true with
        | false => exact ⟨_, rfl⟩
        | true => exact ⟨_, rfl⟩

/-! ## The request -/

section Request
variable {τ : Type} {base : World τ} {stateDir : String} {draw : ℕ → τ → String × τ} {lb : LbSpec}
  {vip : Ipv4Addr} {m : Ipam} {d : State (Outside τ)}

/-- The address can be added to the bridge. -/
def bridgeTakes (base : World τ) (vip : Ipv4Addr) (d : State (Outside τ)) : Bool :=
  match (base.act (.vip "add" vip) d.outer.2).1 with
  | .ok _ => true
  | .error _ => false

/-- What `op_lb_set` answers from is as it was. -/
structure Untouched (d d' : State (Outside τ)) : Prop where
  ipam : d'.ipam = d.ipam
  lbs : d'.lbs = d.lbs
  files : d'.disk.lbFiles = d.disk.lbFiles

/-- What is left of the files when a step after the reservation fails. -/
def leftFiles (base : World τ) (lb : LbSpec) (vip : Ipv4Addr) (d : State (Outside τ)) :
    Option (OrdMap String (Option LbSpec)) :=
  if bridgeTakes base vip d then
    match opened lb d.outer.1 with
    | none => some d.disk.lbFiles
    | some file => if fills d.outer.1 then none else some (d.disk.lbFiles.insert file none)
  else some d.disk.lbFiles

theorem leftFiles_none_iff (base : World τ) (lb : LbSpec) (vip : Ipv4Addr) (d : State (Outside τ)) :
    leftFiles base lb vip d = none ↔
      bridgeTakes base vip d = true ∧ (opened lb d.outer.1).isSome = true ∧ fills d.outer.1 = true := by
  unfold leftFiles
  cases bridgeTakes base vip d with
  | false => simp
  | true =>
    cases opened lb d.outer.1 with
    | none => simp
    | some file => cases fills d.outer.1 <;> simp

/-- The files change when one is left empty that was not. -/
theorem leftFiles_same_iff {files : OrdMap String (Option LbSpec)} (h : leftFiles base lb vip d = some files) :
    files = d.disk.lbFiles ↔ ∀ file, bridgeTakes base vip d = true → opened lb d.outer.1 = some file →
      fills d.outer.1 = true ∨ d.disk.lbFiles.get? file = some none := by
  unfold leftFiles at h
  cases hbridge : bridgeTakes base vip d with
  | false =>
    rw [hbridge] at h
    cases h
    exact ⟨fun _ _ hfalse => (by cases hfalse), fun _ => rfl⟩
  | true =>
    rw [hbridge] at h
    cases hopen : opened lb d.outer.1 with
    | none =>
      rw [hopen] at h
      cases h
      exact ⟨fun _ _ _ hnone => (by cases hnone), fun _ => rfl⟩
    | some file =>
      cases hfills : fills d.outer.1 with
      | true => simp [hopen, hfills] at h
      | false =>
        simp only [hopen, hfills, Bool.false_eq_true, if_false, if_true, Option.some.injEq] at h
        constructor
        · intro hsame file' _ hfile'
          cases hfile'
          rw [← hsame, ← h, OrdMap.get?_insert, if_pos rfl]
          exact .inr rfl
        · intro hheld
          obtain hfalse | hnone := hheld file rfl rfl
          · cases hfalse
          · rw [← h]
            exact OrdMap.insert_of_get? hnone

theorem opLbSet_refused {e : Error} (h : reservation base.sha256 d.ipam lb = .error e) :
    opLbSet (onDisk base stateDir draw) lb d = (.error e, d) := by
  have hassign := assignVip_eq (onDisk base stateDir draw) lb d
  rw [show (onDisk base stateDir draw).sha256 = base.sha256 from rfl, h] at hassign
  exact Eff.bind_of_error hassign _

/-- Once the address is reserved, the request fails exactly when one of the steps after it does. -/
theorem opLbSet_reserved (h : reservation base.sha256 d.ipam lb = .ok (vip, m)) :
    match leftFiles base lb vip d with
    | none => ∃ d', opLbSet (onDisk base stateDir draw) lb d = (.ok (), d')
    | some files => ∃ e d', opLbSet (onDisk base stateDir draw) lb d = (.error e, d') ∧
        d'.ipam = m ∧ d'.lbs = d.lbs ∧ d'.disk.lbFiles = files := by
  have hassign := assignVip_eq (onDisk base stateDir draw) lb d
  rw [show (onDisk base stateDir draw).sha256 = base.sha256 from rfl, h] at hassign
  unfold opLbSet leftFiles bridgeTakes
  rw [Eff.bind_of_ok hassign]
  rcases hbridge : base.act (.vip "add" vip) d.outer.2 with ⟨e | _, s⟩
  · have hact : act (onDisk base stateDir draw) (.vip "add" vip) { d with ipam := m } =
        (.error e, { d with ipam := m, outer := (d.outer.1, s) }) := by
      show ((base.act (.vip "add" vip) d.outer.2).1,
        { d with ipam := m, outer := (d.outer.1, (base.act (.vip "add" vip) d.outer.2).2) }) = _
      rw [hbridge]
    exact ⟨e, _, Eff.bind_of_error hact _, rfl, rfl, rfl⟩
  · have hact : act (onDisk base stateDir draw) (.vip "add" vip) { d with ipam := m } =
        (.ok (), { d with ipam := m, outer := (d.outer.1, s) }) := by
      show ((base.act (.vip "add" vip) d.outer.2).1,
        { d with ipam := m, outer := (d.outer.1, (base.act (.vip "add" vip) d.outer.2).2) }) = _
      rw [hbridge]
    rw [Eff.bind_of_ok hact, if_pos rfl]
    have hwrite := writeLbFile_cases { lb with vip := some vip } d.outer.1
    rw [show opened { lb with vip := some vip } d.outer.1 = opened lb d.outer.1 from rfl] at hwrite
    have hsave : act (onDisk base stateDir draw) (.writeLb { lb with vip := some vip })
        { d with ipam := m, outer := (d.outer.1, s) } =
        ((writeLbFile { lb with vip := some vip } d.outer.1).1,
          { d with ipam := m, outer := ((writeLbFile { lb with vip := some vip } d.outer.1).2, s) }) := rfl
    cases hopen : opened lb d.outer.1 with
    | none =>
      rw [hopen] at hwrite
      obtain ⟨e, fate, hwrite⟩ := hwrite
      rw [hwrite] at hsave
      exact ⟨e, _, Eff.bind_of_error hsave _, rfl, rfl, rfl⟩
    | some file =>
      rw [hopen] at hwrite
      cases hfills : fills d.outer.1 with
      | true =>
        simp only [hfills, if_true] at hwrite
        obtain ⟨s', hwrite⟩ := hwrite
        rw [hwrite] at hsave
        exact ⟨_, Eff.bind_of_ok hsave _⟩
      | false =>
        simp only [hfills, Bool.false_eq_true, if_false] at hwrite
        obtain ⟨fate, hwrite⟩ := hwrite
        rw [hwrite] at hsave
        exact ⟨_, _, Eff.bind_of_error hsave _, rfl, rfl, rfl⟩

/-- A failed request leaves everything as it was if and only if the reservation was refused, or it changed
nothing and the file was not opened and left empty. -/
theorem lbSet_all_or_nothing_iff (base : World τ) (stateDir : String) (draw : ℕ → τ → String × τ) (lb : LbSpec)
    (d : State (Outside τ)) :
    (∀ e d', opLbSet (onDisk base stateDir draw) lb d = (.error e, d') → Untouched d d') ↔
      ∀ vip m, reservation base.sha256 d.ipam lb = .ok (vip, m) →
        (bridgeTakes base vip d = true ∧ (opened lb d.outer.1).isSome = true ∧ fills d.outer.1 = true) ∨
        (HasAddress d.ipam lb ∧ ∀ file, bridgeTakes base vip d = true → opened lb d.outer.1 = some file →
          fills d.outer.1 = true ∨ d.disk.lbFiles.get? file = some none) := by
  cases hreserve : reservation base.sha256 d.ipam lb with
  | error e =>
    constructor
    · intro _ vip m h
      cases h
    · intro _ e' d' herror
      rw [opLbSet_refused hreserve] at herror
      cases herror
      exact ⟨rfl, rfl, rfl⟩
  | ok r =>
    obtain ⟨vip, m⟩ := r
    have hleft := @opLbSet_reserved _ _ stateDir draw _ _ _ _ hreserve
    have hsame := reservation_same_iff hreserve
    cases hfiles : leftFiles base lb vip d with
    | none =>
      rw [hfiles] at hleft
      obtain ⟨d', hok⟩ := hleft
      have hworks := (leftFiles_none_iff base lb vip d).mp hfiles
      constructor
      · intro _ vip' m' h
        cases h
        exact .inl hworks
      · intro _ e' d' herror
        rw [hok] at herror
        cases herror
    | some files =>
      rw [hfiles] at hleft
      obtain ⟨e, d', herror, hipam, hlbs, hdisk⟩ := hleft
      have hworks : ¬ _ := fun h => Option.some_ne_none _ (hfiles.symm.trans ((leftFiles_none_iff base lb vip d).mpr h))
      have hkept := leftFiles_same_iff hfiles
      constructor
      · intro hall vip' m' h
        cases h
        have hun := hall e d' herror
        refine .inr ⟨hsame.mp (hipam.symm.trans hun.ipam), ?_⟩
        exact hkept.mp (hdisk.symm.trans hun.files)
      · intro hcond e' d'' herror'
        rw [herror] at herror'
        cases herror'
        obtain hall | ⟨haddress, hfile⟩ := hcond vip m rfl
        · exact absurd hall hworks
        · exact ⟨hipam.trans (hsame.mpr haddress), hlbs, hdisk.trans (hkept.mpr hfile)⟩

end Request

/-! ## A load balancer that is moved -/

def shopLb (vip : Ipv4Addr) : LbSpec where
  project := "shop"
  name := "web"
  proto := .tcp
  listen := 80
  publish := [8080]
  backendService := "web"
  backendPort := 80
  algorithm := .roundRobin
  onNoBackends := .reject
  drainSecs := 0
  vip := some vip

/-- Addresses can no longer be added to the bridge. -/
def deafWorld : World ℕ := { workingWorld with
  act a := match a with
    | .vip "add" _ => Eff.throw (.internal "Cannot find device \"collocate0\"")
    | _ => pure () }

/-- The load balancer has the address 172.30.0.5. -/
def shopSet : State (Outside ℕ) :=
  (opLbSet (onDisk workingWorld "/var/lib/collocate" fun _ t => ("", t)) (shopLb ⟨0xac1e0005⟩)
    (blank (⟨{}, []⟩, 0) {} .empty .overlay)).2

/-- A request for 172.30.0.6 fails, and the load balancer still owns that address and not its own. -/
theorem moved_after_failure :
    ∃ e d', opLbSet (onDisk deafWorld "/var/lib/collocate" fun _ t => ("", t)) (shopLb ⟨0xac1e0006⟩) shopSet =
      (.error e, d') ∧ ¬ Untouched shopSet d' := by
  refine ⟨_, _, rfl, fun h => ?_⟩
  have howner := congrArg (fun m => m.byOwner "vip:shop/web") h.ipam
  revert howner
  decide +kernel

end Collocate.Daemon
