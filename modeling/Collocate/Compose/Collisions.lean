import Collocate.Compose.Addresses
import Collocate.Compose.Buildable

/-! # Addresses across the node

When the addresses that `BuildState` chooses are free on the node. It is not told what other projects have, nor which
load balancer has which virtual address, so it depends on where the names hash to. -/
namespace Collocate.Compose
set_option autoImplicit false
open Probing

/-! ## What is chosen -/

section Specs
variable {S : Type} (x : Extern) (h : Host S)

/-- `BuildState::spec` for these replicas, one after the other. -/
def BuildState.specs (file : ComposeFile) (opts : UpOptions) :
    List Replica → BuildState → Prog S (List Spec × BuildState)
  | [], st => pure ([], st)
  | r :: rs, st => do
    let (spec, st) ← st.spec x h file opts r.1 r.2
    let (rest, st) ← BuildState.specs file opts rs st
    pure (spec :: rest, st)

variable {x h} {file : ComposeFile} {opts : UpOptions} {s s' : S} {st st' : BuildState} {n : Subnet}

theorem BuildState.spec_addr {r : Replica} {spec : Spec}
    (hs : st.spec x h file opts r.1 r.2 s = (.ok (spec, st'), s')) :
    ∃ a, spec.net.addr = some a ∧ st.ipam.forService x.sha256 file.project r.1 r.2 = .ok (a, st'.ipam) := by
  obtain ⟨⟨built, images⟩, s₁, -, hs⟩ := Eff.bind_ok hs
  obtain ⟨⟨a, ipam⟩, haddr, hs⟩ := Eff.lift_bind_ok hs
  cases hs
  exact ⟨a, rfl, haddr⟩

theorem BuildState.specs_serve {rs : List Replica} {specs : List Spec} (hst : st.ipam.Sound n)
    (hs : BuildState.specs x h file opts rs st s = (.ok (specs, st'), s')) :
    ∃ addrs, specs.map (fun spec => spec.net.addr) = addrs.map some ∧
      ServesPool x file.project n st.ipam rs addrs st'.ipam ∧ SameVips file.project n st.ipam st'.ipam := by
  induction rs generalizing st s specs with
  | nil =>
    cases hs
    exact ⟨[], rfl, .nil _ _, ⟨rfl, rfl⟩⟩
  | cons r rs ih =>
    obtain ⟨⟨spec, st₁⟩, s₁, hspec, hs⟩ := Eff.bind_ok hs
    obtain ⟨⟨rest, st₂⟩, s₂, hrest, hs⟩ := Eff.bind_ok hs
    cases hs
    obtain ⟨a, haddr, hserve⟩ := BuildState.spec_addr hspec
    obtain ⟨hfirst, hsame, hsound⟩ := forService_serves hst hserve
    obtain ⟨addrs, haddrs, hserves, hsame'⟩ := ih hsound hrest
    refine ⟨a :: addrs, ?_, hfirst.append hserves, hsame.trans hsame'⟩
    rw [List.map_cons, List.map_cons, haddr, haddrs]

end Specs

/-! ## On the node -/

/-- The daemon has the address for nobody, or for the container of this replica. -/
def Free (ipam : Ipam) (existing : List ContainerInfo) (project : String) (r : Replica) (a : Ipv4Addr) : Prop :=
  ipam.byAddr a = none ∨
    ∃ c ∈ existing, c.service = some r.1 ∧ c.name = replicaName project r.1 r.2 ∧ ipam.byAddr a = some c.id.display

/-- The daemon has the address for nobody or for this load balancer, and has no other address for it. -/
def VipFree (ipam : Ipam) (project lb : String) (a : Ipv4Addr) : Prop :=
  (ipam.byAddr a = none ∨ ipam.byAddr a = some (vipOwner project lb)) ∧
    ∀ old, ipam.byOwner (vipOwner project lb) = some old → a = old

/-- The daemon's addresses once the containers under the replica's name are removed. -/
def released (ipam : Ipam) (existing : List ContainerInfo) (project : String) (r : Replica) : Ipam :=
  (existing.filter fun c => c.name = replicaName project r.1 r.2).foldl (fun m c => m.release c.id.display) ipam

/-- The address is free for the replica, and no launch of it there is refused for a conflict. -/
structure Available (ipam : Ipam) (existing : List ContainerInfo) (project : String) (r : Replica) (a : Ipv4Addr) :
    Prop where
  free : Free ipam existing project r a
  accepted : ∀ (id : ContainerId) e, (released ipam existing project r).reserve a id.display ≠ .error (.conflict e)

/-- The address is free for the load balancer, and setting it there is not refused for a conflict. -/
structure VipAvailable (ipam : Ipam) (project lb : String) (a : Ipv4Addr) : Prop where
  free : VipFree ipam project lb a
  accepted : ∀ e, ipam.reserve a (vipOwner project lb) ≠ .error (.conflict e)

/-- What was chosen for the replicas of a file, for those asked for afterwards, and for the load balancers, is
available. -/
structure Undisturbed (ipam : Ipam) (existing : List ContainerInfo) (file : ComposeFile) (st : BuildState)
    (asked : List Replica) (specs : List Spec) : Prop where
  addresses : ∀ svc list, st.addresses svc = some list → ∀ i a, list[i]? = some a →
    Available ipam existing file.project (svc, UInt32.ofNat i) a
  specs : ∀ e ∈ asked.zip specs, ∀ a, e.2.net.addr = some a → Available ipam existing file.project e.1 a
  vips : ∀ lb a, st.lbVips lb = some a → VipAvailable ipam file.project lb a

/-- What listed containers hold for the replicas is free for them; and so are the slots of the pool that get filled,
counting what is listed and where the names hash to, with a replica that has no address yet, and those of the virtual
addresses that get filled with a load balancer. -/
structure Clear (x : Extern) (ipam : Ipam) (existing : List ContainerInfo) (file : ComposeFile) (n : Subnet)
    (rs : List Replica) : Prop where
  held : ∀ r ∈ rs, ∀ a, (listedIpam file.project n existing).byOwner (replicaOwner file.project r) = some a →
    Free ipam existing file.project r a
  filled : ∀ r slot,
    Reaches (poolLen (Ipam.new n)).toNat (fun r => Ipam.home (poolLen (Ipam.new n)) (replicaHash x file.project r))
      (fun r => (listedIpam file.project n existing).byOwner (replicaOwner file.project r))
      ((listedIpam file.project n existing).taken (Ipam.new n).first (poolLen (Ipam.new n))) rs r slot →
    Free ipam existing file.project r (Ipam.slotAddr (Ipam.new n).first slot)
  vips : ∀ lb slot,
    Reaches (Ipam.new n).vipCount.toNat (fun lb => Ipam.home (Ipam.new n).vipCount (vipHash x file.project lb))
      (fun _ => (none : Option Ipv4Addr))
      ((listedIpam file.project n existing).taken ((Ipam.new n).poolEnd + 1) (Ipam.new n).vipCount)
      file.loadbalancers.keys lb slot →
    VipFree ipam file.project lb (Ipam.slotAddr ((Ipam.new n).poolEnd + 1) slot)

section Accepted
variable {ipam : Ipam} {n : Subnet} {a : Ipv4Addr} {project : String}

/-- A conflict is with another owner. -/
theorem reserve_conflict {owner e : String} (h : ipam.reserve a owner = .error (.conflict e)) :
    ∃ other, ipam.byAddr a = some other ∧ other ≠ owner := by
  unfold Ipam.reserve at h
  split at h
  · cases h
  · split at h
    · rename_i other hother
      rw [Option.filter_eq_some_iff] at hother
      exact ⟨other, hother.1, by simpa using hother.2⟩
    · cases h

theorem release_byAddr (hm : ipam.Sound n) (owner : String) :
    (ipam.release owner).byAddr a = if ipam.byAddr a = some owner then none else ipam.byAddr a := by
  unfold Ipam.release
  cases hown : ipam.byOwner owner with
  | none =>
    have hnot : ipam.byAddr a ≠ some owner := by
      rw [Ne, ← hm.inverse, hown]
      exact nofun
    rw [if_neg hnot]
  | some old =>
    by_cases ha : a = old
    · subst ha
      rw [if_pos ((hm.inverse _ _).mp hown)]
      exact Function.update_self ..
    · have hnot : ipam.byAddr a ≠ some owner := by
        rw [Ne, ← hm.inverse, hown, Option.some.injEq]
        exact fun heq => ha heq.symm
      rw [if_neg hnot]
      exact Function.update_of_ne ha ..

theorem released_byAddr (hm : ipam.Sound n) {cs : List ContainerInfo}
    (h : ipam.byAddr a = none ∨ ∃ c ∈ cs, ipam.byAddr a = some c.id.display) :
    (cs.foldl (fun m c => m.release c.id.display) ipam).byAddr a = none := by
  induction cs generalizing ipam with
  | nil =>
    rcases h with h | ⟨c, hc, -⟩
    · exact h
    · cases hc
  | cons c cs ih =>
    rw [List.foldl_cons]
    refine ih (Ipam.release_sound hm _) ?_
    rw [release_byAddr hm]
    rcases h with h | ⟨d, hd, h⟩
    · left
      rw [h]
      rfl
    · by_cases hc : ipam.byAddr a = some c.id.display
      · left
        rw [if_pos hc]
      · right
        rcases List.mem_cons.mp hd with rfl | hd
        · exact absurd h hc
        · exact ⟨d, hd, by rw [if_neg hc, h]⟩

theorem available_iff (hm : ipam.Sound n) {existing : List ContainerInfo} {r : Replica} :
    Available ipam existing project r a ↔ Free ipam existing project r a := by
  refine ⟨Available.free, fun hfree => ⟨hfree, fun id e hconflict => ?_⟩⟩
  obtain ⟨other, hother, -⟩ := reserve_conflict hconflict
  have hnone : (released ipam existing project r).byAddr a = none := by
    refine released_byAddr hm ?_
    rcases hfree with hfree | ⟨c, hc, -, hname, hid⟩
    · exact .inl hfree
    · exact .inr ⟨c, List.mem_filter.mpr ⟨hc, decide_eq_true hname⟩, hid⟩
  rw [hnone] at hother
  cases hother

theorem vipAvailable_iff {lb : String} : VipAvailable ipam project lb a ↔ VipFree ipam project lb a := by
  refine ⟨VipAvailable.free, fun hfree => ⟨hfree, fun e hconflict => ?_⟩⟩
  obtain ⟨other, hother, hne⟩ := reserve_conflict hconflict
  rcases hfree.1 with hnone | hown
  · rw [hnone] at hother
    cases hother
  · exact hne (Option.some.inj (hother.symm.trans hown))

end Accepted

/-! ## From the lists to the maps -/

theorem assoc_iff {V : Type} {l : List (String × V)} (hl : (l.map Prod.fst).Nodup) {k : String} {v : V} :
    assoc l k = some v ↔ (k, v) ∈ l := by
  unfold assoc
  induction l with
  | nil => simp [OrdMap.lookup]
  | cons e l ih =>
    obtain ⟨k', v'⟩ := e
    rw [List.map_cons, List.nodup_cons] at hl
    rw [OrdMap.lookup, List.mem_cons]
    by_cases hk : k = k'
    · subst hk
      have hnot : (k, v) ∉ l := fun hmem => hl.1 (List.mem_map.mpr ⟨(k, v), hmem, rfl⟩)
      simp [hnot, eq_comm]
    · rw [if_neg hk, ih hl.2]
      simp [hk]

/-- A property of the addresses of a service, by index. -/
theorem forall_indices {svc : String} {list : List Ipv4Addr} (P : Replica → Ipv4Addr → Prop) :
    (∀ e ∈ (indices svc 0 list.length).zip list, P e.1 e.2) ↔
      ∀ i a, list[i]? = some a → P (svc, UInt32.ofNat i) a := by
  have hindex {i : ℕ} (hi : i < list.length) : (indices svc 0 list.length)[i]? = some (svc, UInt32.ofNat i) := by
    simp [indices, hi]
  constructor
  · intro hall i a ha
    have hi := (List.getElem?_eq_some_iff.mp ha).1
    have hzip : ((indices svc 0 list.length).zip list)[i]? = some ((svc, UInt32.ofNat i), a) := by
      rw [List.getElem?_zip_eq_some]
      exact ⟨hindex hi, ha⟩
    exact hall _ (List.mem_of_getElem? hzip)
  · rintro hall ⟨r, a⟩ he
    obtain ⟨i, hi⟩ := List.mem_iff_getElem?.mp he
    obtain ⟨hr, ha⟩ := List.getElem?_zip_eq_some.mp hi
    rw [hindex (List.getElem?_eq_some_iff.mp ha).1] at hr
    cases hr
    exact hall i a ha

theorem forall_addresses {file : ComposeFile} {addresses : List (String × List Ipv4Addr)}
    (hlengths : ∀ e ∈ addresses, e.2.length = replicasOf file e.1) (P : Replica → Ipv4Addr → Prop) :
    (∀ e ∈ (replicaKeys file (addresses.map Prod.fst)).zip (addresses.flatMap Prod.snd), P e.1 e.2) ↔
      ∀ e ∈ addresses, ∀ i a, e.2[i]? = some a → P (e.1, UInt32.ofNat i) a := by
  induction addresses with
  | nil => simp [replicaKeys]
  | cons e addresses ih =>
    obtain ⟨hlen, hlengths⟩ := List.forall_mem_cons.mp hlengths
    have hkeys : replicaKeys file ((e :: addresses).map Prod.fst) =
        indices e.1 0 e.2.length ++ replicaKeys file (addresses.map Prod.fst) := by
      rw [hlen]
      rfl
    have hsame : (indices e.1 0 e.2.length).length = e.2.length := by rw [indices, List.length_map, List.length_range']
    rw [hkeys, List.flatMap_cons, List.zip_append hsame, List.forall_mem_append, List.forall_mem_cons, ih hlengths,
      forall_indices]

/-- A property of the addresses that `BuildState` has by service. -/
theorem forall_assoc {addresses : List (String × List Ipv4Addr)} (hnodup : (addresses.map Prod.fst).Nodup)
    (P : Replica → Ipv4Addr → Prop) :
    (∀ svc list, assoc (addresses.filter fun e => !e.2.isEmpty) svc = some list →
        ∀ i a, list[i]? = some a → P (svc, UInt32.ofNat i) a) ↔
      ∀ e ∈ addresses, ∀ i a, e.2[i]? = some a → P (e.1, UInt32.ofNat i) a := by
  have hfilter : ((addresses.filter fun e => !e.2.isEmpty).map Prod.fst).Nodup :=
    hnodup.sublist (List.filter_sublist.map _)
  constructor
  · intro hall e he i a ha
    refine hall e.1 e.2 ((assoc_iff hfilter).mpr (List.mem_filter.mpr ⟨he, ?_⟩)) i a ha
    cases hlist : e.2 with
    | nil =>
      rw [hlist] at ha
      cases ha
    | cons => rfl
  · intro hall svc list hlist i a ha
    exact hall (svc, list) (List.mem_filter.mp ((assoc_iff hfilter).mp hlist)).1 i a ha

theorem forall_specs {asked : List Replica} {specs : List Spec} {addrs : List Ipv4Addr}
    (haddrs : specs.map (fun spec => spec.net.addr) = addrs.map some) (P : Replica → Ipv4Addr → Prop) :
    (∀ e ∈ asked.zip specs, ∀ a, e.2.net.addr = some a → P e.1 a) ↔ ∀ e ∈ asked.zip addrs, P e.1 e.2 := by
  induction asked generalizing specs addrs with
  | nil => simp
  | cons r asked ih =>
    cases specs with
    | nil =>
      have hnil : addrs = [] := by simpa using haddrs.symm
      simp [hnil]
    | cons spec specs =>
      cases addrs with
      | nil => cases haddrs
      | cons a addrs =>
        rw [List.map_cons, List.map_cons, List.cons.injEq] at haddrs
        rw [List.zip_cons_cons, List.zip_cons_cons, List.forall_mem_cons, List.forall_mem_cons, ih haddrs.2]
        simp only [haddrs.1, Option.some.injEq, forall_eq']

theorem forall_vips {names : List String} {vips : List (String × Ipv4Addr)} (hnames : vips.map Prod.fst = names)
    (hnodup : names.Nodup) (P : String → Ipv4Addr → Prop) :
    (∀ lb a, assoc vips lb = some a → P lb a) ↔ ∀ e ∈ names.zip (vips.map Prod.snd), P e.1 e.2 := by
  subst hnames
  have hzip : (vips.map Prod.fst).zip (vips.map Prod.snd) = vips := (List.zip_of_prod rfl rfl).symm
  rw [hzip]
  constructor
  · exact fun hall e he => hall e.1 e.2 ((assoc_iff hnodup).mpr he)
  · exact fun hall lb a ha => hall (lb, a) ((assoc_iff hnodup).mp ha)

/-! ## When nothing collides -/

section Theorem
variable {S σ : Type} {x : Extern} {h : Host S} {d : Daemon.State σ} {file : ComposeFile} {opts : UpOptions}
  {s s₁ s₂ s₃ : S} {st st' : BuildState} {existing : List ContainerInfo} {asked : List Replica} {specs : List Spec}
  {order : List String} {n node : Subnet}

/-- The lists behind what `BuildState` has chosen, and what they were served from. -/
structure Chosen (x : Extern) (file : ComposeFile) (n : Subnet) (existing : List ContainerInfo) (order : List String)
    (asked : List Replica) (st st' : BuildState) (specs : List Spec) where
  addresses : List (String × List Ipv4Addr)
  vips : List (String × Ipv4Addr)
  addrs : List Ipv4Addr
  addressed : Ipam
  haddresses : st.addresses = assoc (addresses.filter fun e => !e.2.isEmpty)
  hvips : st.lbVips = assoc vips
  haddrs : specs.map (fun spec => spec.net.addr) = addrs.map some
  horder : addresses.map Prod.fst = order
  hlbs : vips.map Prod.fst = file.loadbalancers.keys
  hlengths : ∀ e ∈ addresses, e.2.length = replicasOf file e.1
  hpool : ServesPool x file.project n (listedIpam file.project n existing) (replicaKeys file order)
    (addresses.flatMap Prod.snd) addressed
  hasked : ServesPool x file.project n addressed asked addrs st'.ipam
  hsame : SameVips file.project n (listedIpam file.project n existing) addressed
  hserved : ServesVips x file.project n addressed file.loadbalancers.keys (vips.map Prod.snd) st.ipam

theorem chosen (hsubnet : Subnet.parse opts.subnet = .ok n) (htopo : topoOrder file.dependencyGraph = .ok order)
    (hlist : containers x h file.project s = (.ok existing, s₁)) (hnew : BuildState.new x h file opts s = (.ok st, s₂))
    (hspecs : BuildState.specs x h file opts asked st s₂ = (.ok (specs, st'), s₃)) :
    Nonempty (Chosen x file n existing order asked st st' specs) := by
  obtain ⟨steps⟩ := BuildState.new_ok hnew
  have horder : steps.order = order := Except.ok.inj (steps.htopo.symm.trans htopo)
  have hexisting : steps.existing = existing := Except.ok.inj (congrArg Prod.fst (steps.hlist.symm.trans hlist))
  have hparsed : steps.subnet = n := Except.ok.inj (steps.hsubnet.symm.trans hsubnet)
  have haddresses := steps.haddresses
  rw [horder, hexisting, hparsed] at haddresses
  have hknown := listedIpam_sound (Subnet.parse_valid hsubnet) file.project existing
  obtain ⟨hnames, hlengths, hpool, hsame, haddressed⟩ := allAddresses_serves hknown haddresses
  obtain ⟨hlbs, hserved, hsamePool, hipam⟩ := allVips_serves haddressed steps.hvips
  have hst : st.ipam = steps.ipam := congrArg BuildState.ipam steps.hst
  rw [← hst] at hipam
  obtain ⟨addrs, haddrs, hasked, -⟩ := BuildState.specs_serve hipam hspecs
  unfold ServesPool at hasked
  rw [hst, hsamePool.owners, hsamePool.taken] at hasked
  rw [← hst] at hserved
  exact ⟨{
    addresses := steps.addresses, vips := steps.vips, addrs, addressed := steps.addressed
    haddresses := congrArg BuildState.addresses steps.hst, hvips := congrArg BuildState.lbVips steps.hst
    haddrs, horder := hnames, hlbs, hlengths, hpool, hasked, hsame, hserved }⟩

/-- What holds of the addresses of the replicas, by what is listed and where the names hash to. -/
theorem Chosen.replicas_iff (c : Chosen x file n existing order asked st st' specs) (hnodup : order.Nodup)
    (P : Replica → Ipv4Addr → Prop) :
    ((∀ svc list, st.addresses svc = some list → ∀ i a, list[i]? = some a → P (svc, UInt32.ofNat i) a) ∧
        ∀ e ∈ asked.zip specs, ∀ a, e.2.net.addr = some a → P e.1 a) ↔
      (∀ r ∈ replicaKeys file order ++ asked, ∀ a,
          (listedIpam file.project n existing).byOwner (replicaOwner file.project r) = some a → P r a) ∧
        ∀ r slot, Reaches (poolLen (Ipam.new n)).toNat
            (fun r => Ipam.home (poolLen (Ipam.new n)) (replicaHash x file.project r))
            (fun r => (listedIpam file.project n existing).byOwner (replicaOwner file.project r))
            ((listedIpam file.project n existing).taken (Ipam.new n).first (poolLen (Ipam.new n)))
            (replicaKeys file order ++ asked) r slot → P r (Ipam.slotAddr (Ipam.new n).first slot) := by
  have hserves := c.hpool.append c.hasked
  have hzip : (replicaKeys file order).length = (c.addresses.flatMap Prod.snd).length := c.hpool.length.symm
  have haddresses := forall_addresses c.hlengths P
  have hnames : (c.addresses.map Prod.fst).Nodup := by
    rw [c.horder]
    exact hnodup
  rw [c.horder] at haddresses
  rw [← hserves.forall_iff (Ipam.taken_bound _) (fun hpos _ => Ipam.home_lt _ hpos) P, List.zip_append hzip,
    List.forall_mem_append, haddresses, c.haddresses, forall_assoc hnames, forall_specs c.haddrs]

/-- What holds of the virtual addresses, by where the names hash to. -/
theorem Chosen.vips_iff (c : Chosen x file n existing order asked st st' specs) (P : String → Ipv4Addr → Prop) :
    (∀ lb a, st.lbVips lb = some a → P lb a) ↔
      ∀ lb slot, Reaches (Ipam.new n).vipCount.toNat
          (fun lb => Ipam.home (Ipam.new n).vipCount (vipHash x file.project lb)) (fun _ => (none : Option Ipv4Addr))
          ((listedIpam file.project n existing).taken ((Ipam.new n).poolEnd + 1) (Ipam.new n).vipCount)
          file.loadbalancers.keys lb slot → P lb (Ipam.slotAddr ((Ipam.new n).poolEnd + 1) slot) := by
  have hnone : (fun lb => c.addressed.byOwner (vipOwner file.project lb)) = fun _ => none := by
    rw [c.hsame.owners]
    funext lb
    exact listedIpam_vip file.project n existing lb
  have hserved := c.hserved
  unfold ServesVips at hserved
  rw [hnone, c.hsame.taken] at hserved
  rw [c.hvips, forall_vips c.hlbs file.loadbalancers.keys_nodup,
    hserved.forall_iff (Ipam.taken_bound _) (fun hpos _ => Ipam.home_lt _ hpos) P]
  exact ⟨And.right, fun hreach => ⟨fun _ _ _ hhas => (by cases hhas), hreach⟩⟩

/-- The addresses that `BuildState` chooses, for the file and for what is asked for afterwards, do not collide on the
node exactly when it is clear where the names hash to. -/
theorem undisturbed_iff (hd : d.ipam.Sound node) (hsubnet : Subnet.parse opts.subnet = .ok n)
    (htopo : topoOrder file.dependencyGraph = .ok order) (hlist : containers x h file.project s = (.ok existing, s₁))
    (hnew : BuildState.new x h file opts s = (.ok st, s₂))
    (hspecs : BuildState.specs x h file opts asked st s₂ = (.ok (specs, st'), s₃)) :
    Undisturbed d.ipam existing file st asked specs ↔
      Clear x d.ipam existing file n (replicaKeys file order ++ asked) := by
  obtain ⟨c⟩ := chosen hsubnet htopo hlist hnew hspecs
  have hreplicas := c.replicas_iff (topoOrder_spec htopo).1 fun r a => Available d.ipam existing file.project r a
  have hvips := c.vips_iff fun lb a => VipAvailable d.ipam file.project lb a
  simp only [available_iff hd, vipAvailable_iff] at hreplicas hvips
  constructor
  · rintro ⟨haddresses, hasked, hlbs⟩
    simp only [available_iff hd, vipAvailable_iff] at haddresses hasked hlbs
    obtain ⟨hheld, hfilled⟩ := hreplicas.mp ⟨haddresses, hasked⟩
    exact ⟨hheld, hfilled, hvips.mp hlbs⟩
  · rintro ⟨hheld, hfilled, hlbs⟩
    obtain ⟨haddresses, hasked⟩ := hreplicas.mpr ⟨hheld, hfilled⟩
    refine ⟨?_, ?_, ?_⟩
    · simpa only [available_iff hd] using haddresses
    · simpa only [available_iff hd] using hasked
    · simpa only [vipAvailable_iff] using hvips.mpr hlbs

end Theorem

/-! ## A load balancer more -/

/-- SHA-256 of what is hashed for the load balancers `api` and `metrics` and the service `web` of the project `site`. -/
def siteSha256 (bytes : List UInt8) : List UInt8 :=
  if bytes = [115, 105, 116, 101, 0, 97, 112, 105, 0, 118, 105, 112, 0] then
    [0x6e, 0x62, 0xfb, 0x21, 0x94, 0xa0, 0x01, 0x33, 0xa1, 0x8b, 0x8f, 0x7c, 0xed, 0x1a, 0x1b, 0x8d,
      0x2c, 0x87, 0xfc, 0xff, 0x0d, 0x47, 0xab, 0xef, 0x36, 0xf4, 0xd2, 0xb5, 0xb3, 0x44, 0xf1, 0x87]
  else if bytes = [115, 105, 116, 101, 0, 109, 101, 116, 114, 105, 99, 115, 0, 118, 105, 112, 0] then
    [0x88, 0x6b, 0x8b, 0x1f, 0x89, 0x69, 0xa5, 0x20, 0xd7, 0x6e, 0x9f, 0x81, 0xad, 0xf5, 0x87, 0xa0,
      0x34, 0x3a, 0x9f, 0x4b, 0x12, 0x73, 0x5a, 0x82, 0x0b, 0x1c, 0xfe, 0x0a, 0xc2, 0xb3, 0xa9, 0x04]
  else if bytes = [115, 105, 116, 101, 0, 119, 101, 98, 0, 48, 0] then
    [0x4e, 0x29, 0x4c, 0xcd, 0x58, 0xcf, 0x75, 0x11, 0xcd, 0x24, 0xd5, 0x68, 0x98, 0x9f, 0xde, 0x8a,
      0xef, 0x6f, 0x67, 0x47, 0x3f, 0x5b, 0x74, 0x2a, 0x85, 0xcc, 0x30, 0xb2, 0xc4, 0x9b, 0x99, 0x35]
  else []

def siteExtern : Extern := { argvExtern with sha256 := siteSha256 }

def siteOpts : UpOptions := { subnet := "172.30.0.0/16", baseDir := "" }

/-- A service behind load balancers of these names, each on a port. -/
def siteFile (lbs : List (String × UInt16)) : ComposeFile where
  project := "site"
  services := OrdMap.empty.insert "web" { image := some "httpd" }
  loadbalancers := lbs.foldl (fun m lb => m.insert lb.1 { listen := lb.2, backends := ⟨"web", 8080⟩ }) OrdMap.empty

def metricsFile : ComposeFile := siteFile [("metrics", 9090)]

def apiFile : ComposeFile := siteFile [("metrics", 9090), ("api", 80)]

/-- What `BuildState` chooses for the load balancers when the project has no container. -/
def siteVip (file : ComposeFile) (lb : String) : Result (Option Ipv4Addr) :=
  (BuildState.new siteExtern fakeHost file siteOpts {}).1.map fun st => st.lbVips lb

/-- The node once `metrics` has the virtual address that it is given on its own. -/
def siteNode : Daemon.State Unit where
  outer := ()
  cfg := {}
  ipam := match (Ipam.new ⟨0xac1e0000, 16⟩).reserve ⟨0xac1eff57⟩ (vipOwner "site" "metrics") with
    | .ok m => m
    | .error _ => Ipam.new ⟨0xac1e0000, 16⟩

theorem siteNode_sound : siteNode.ipam.Sound ⟨0xac1e0000, 16⟩ := by
  have hvalid : (⟨0xac1e0000, 16⟩ : Subnet).Valid := by
    have hparse : Subnet.parse "172.30.0.0/16" = .ok ⟨0xac1e0000, 16⟩ := by decide +kernel
    exact Subnet.parse_valid hparse
  unfold siteNode
  dsimp only
  split
  · rename_i m hreserve
    exact Ipam.reserve_sound (Ipam.new_sound hvalid) hreserve
  · exact Ipam.new_sound hvalid

theorem api_new {file : ComposeFile} {lb : String} {a : Option Ipv4Addr} (hvip : siteVip file lb = .ok a) :
    ∃ st s', BuildState.new siteExtern fakeHost file siteOpts {} = (.ok st, s') ∧ st.lbVips lb = a := by
  unfold siteVip at hvip
  rcases hnew : BuildState.new siteExtern fakeHost file siteOpts {} with ⟨e | st, s'⟩
  · rw [hnew] at hvip
    cases hvip
  · rw [hnew] at hvip
    exact ⟨st, s', rfl, Except.ok.inj hvip⟩

/-- Without `api` it is clear where the names hash to. -/
theorem metrics_clear : Clear siteExtern siteNode.ipam [] metricsFile ⟨0xac1e0000, 16⟩ [("web", 0)] := by
  have hlisted : listedIpam metricsFile.project ⟨0xac1e0000, 16⟩ [] = Ipam.new ⟨0xac1e0000, 16⟩ := rfl
  have hnone (base len : UInt32) : (Ipam.new ⟨0xac1e0000, 16⟩).taken base len = ∅ :=
    Finset.filter_false_of_mem fun _ _ => Bool.false_ne_true
  refine ⟨fun r _ a ha => ?_, fun r slot hreach => ?_, fun lb slot hreach => ?_⟩
  · rw [hlisted] at ha
    cases ha
  · rw [hlisted, hnone] at hreach
    obtain ⟨rfl, rfl⟩ := hreach.alone (by decide +kernel) rfl
    exact .inl (by decide +kernel)
  · rw [hlisted, hnone] at hreach
    obtain ⟨rfl, rfl⟩ := Reaches.alone (k := "metrics") (by decide +kernel) rfl hreach
    refine ⟨.inr (by decide +kernel), fun old hold => ?_⟩
    have hown : siteNode.ipam.byOwner (vipOwner "site" "metrics") = some ⟨0xac1eff57⟩ := by decide +kernel
    rw [← Option.some.inj (hown.symm.trans hold)]
    decide +kernel

theorem api_undisturbed_iff :
    (∃ st s', BuildState.new siteExtern fakeHost metricsFile siteOpts {} = (.ok st, s') ∧
      Undisturbed siteNode.ipam [] metricsFile st [] []) ∧
    ∃ st s' st', BuildState.new siteExtern fakeHost apiFile siteOpts {} = (.ok st, s') ∧
      BuildState.specs siteExtern fakeHost apiFile siteOpts [] st s' = (.ok ([], st'), s') ∧
      (Undisturbed siteNode.ipam [] apiFile st [] [] ↔
        Clear siteExtern siteNode.ipam [] apiFile ⟨0xac1e0000, 16⟩ [("web", 0)]) := by
  have hsubnet : Subnet.parse siteOpts.subnet = .ok ⟨0xac1e0000, 16⟩ := by decide +kernel
  have hlist (file : ComposeFile) : containers siteExtern fakeHost file.project {} = (.ok [], ({} : Fake)) := rfl
  have hspecs (file : ComposeFile) (st : BuildState) (s' : Fake) :
      BuildState.specs siteExtern fakeHost file siteOpts [] st s' = (.ok ([], st), s') := rfl
  constructor
  · have hchosen : siteVip metricsFile "metrics" = .ok (some ⟨0xac1eff57⟩) := by decide +kernel
    obtain ⟨st, s', hnew, -⟩ := api_new hchosen
    have htopo : topoOrder metricsFile.dependencyGraph = .ok ["web"] := by decide +kernel
    have hkeys : replicaKeys metricsFile ["web"] ++ [] = [("web", 0)] := by decide +kernel
    have hiff := undisturbed_iff siteNode_sound hsubnet htopo (hlist metricsFile) hnew (hspecs metricsFile st s')
    rw [hkeys] at hiff
    exact ⟨st, s', hnew, hiff.mpr metrics_clear⟩
  · have hchosen : siteVip apiFile "api" = .ok (some ⟨0xac1eff57⟩) := by decide +kernel
    obtain ⟨st, s', hnew, -⟩ := api_new hchosen
    have htopo : topoOrder apiFile.dependencyGraph = .ok ["web"] := by decide +kernel
    have hkeys : replicaKeys apiFile ["web"] ++ [] = [("web", 0)] := by decide +kernel
    have hiff := undisturbed_iff siteNode_sound hsubnet htopo (hlist apiFile) hnew (hspecs apiFile st s')
    rw [hkeys] at hiff
    exact ⟨st, s', st, hnew, hspecs apiFile st s', hiff⟩

/-- With the load balancer `api` in the file, `metrics` is moved and `api` is given the address that `metrics` has,
which the daemon refuses. -/
theorem api_takes_vip : apiFile.validate = .ok () ∧ siteVip metricsFile "metrics" = .ok (some ⟨0xac1eff57⟩) ∧
    siteVip apiFile "metrics" = .ok (some ⟨0xac1eff58⟩) ∧
    siteNode.ipam.byAddr ⟨0xac1eff57⟩ = some (vipOwner "site" "metrics") ∧
    (siteNode.ipam.reserve ⟨0xac1eff57⟩ (vipOwner "site" "api")).map (fun _ => ()) =
      .error (.conflict "172.30.255.87 is already assigned to vip:site/metrics") ∧
    ∃ st s', BuildState.new siteExtern fakeHost apiFile siteOpts {} = (.ok st, s') ∧
      ¬Undisturbed siteNode.ipam [] apiFile st [] [] := by
  have hheld : siteNode.ipam.byAddr ⟨0xac1eff57⟩ = some (vipOwner "site" "metrics") := by decide +kernel
  refine ⟨by decide +kernel, by decide +kernel, by decide +kernel, hheld, by decide +kernel, ?_⟩
  have hchosen : siteVip apiFile "api" = .ok (some ⟨0xac1eff57⟩) := by decide +kernel
  obtain ⟨st, s', hnew, hvip⟩ := api_new hchosen
  refine ⟨st, s', hnew, fun hundisturbed => ?_⟩
  have hfree := (hundisturbed.vips "api" _ hvip).free.1
  rw [hheld] at hfree
  rcases hfree with hnone | hown
  · cases hnone
  · exact absurd (vipOwner_injective "site" (Option.some.inj hown)) (by decide)

end Collocate.Compose
