import Collocate.Compose.Buildable
import Collocate.Compose.Order

/-! # Valid files

`ComposeFile::validate` goes through a file once, with the ports that it has met so far. What it accepts is said here
field by field, with the host ports of the whole file as one list without repetition. -/
namespace Collocate.Compose
set_option autoImplicit false

/-! ## Folds that claim -/

section Claim
variable {K α : Type}

/-- A step accepts `a` and claims the keys of `a`, each of which is new. -/
def ClaimsBy (keys : α → List K) (P : α → Prop) (f : List K → α → Result (List K)) : Prop :=
  ∀ seen a after, f seen a = .ok after ↔
    P a ∧ (keys a).Nodup ∧ (∀ k ∈ keys a, k ∉ seen) ∧ after = (keys a).reverse ++ seen

/-- So does the fold, for all keys together. -/
theorem ClaimsBy.foldlM {keys : α → List K} {P : α → Prop} {f : List K → α → Result (List K)} (hf : ClaimsBy keys P f)
    {l : List α} {seen after : List K} : l.foldlM f seen = .ok after ↔
      (∀ a ∈ l, P a) ∧ (l.flatMap keys).Nodup ∧ (∀ k ∈ l.flatMap keys, k ∉ seen) ∧
        after = (l.flatMap keys).reverse ++ seen := by
  induction l generalizing seen with
  | nil =>
    constructor
    · intro h
      cases h
      exact ⟨fun a ha => absurd ha List.not_mem_nil, List.nodup_nil, fun k hk => absurd hk List.not_mem_nil, rfl⟩
    · intro h
      rw [h.2.2.2]
      rfl
  | cons a l ih =>
    rw [List.foldlM_cons, List.flatMap_cons, List.nodup_append]
    constructor
    · intro h
      obtain ⟨next, hnext, h⟩ := Result.bind_ok h
      obtain ⟨ha, hnodup, hnew, rfl⟩ := (hf seen a next).mp hnext
      obtain ⟨hl, hrest, hothers, rfl⟩ := ih.mp h
      refine ⟨?_, ⟨hnodup, hrest, ?_⟩, ?_, ?_⟩
      · intro b hb
        cases hb with
        | head => exact ha
        | tail _ hmem => exact hl b hmem
      · intro k hk k' hk' heq
        exact hothers k' hk' (List.mem_append_left _ (List.mem_reverse.mpr (heq ▸ hk)))
      · intro k hk
        rw [List.mem_append] at hk
        cases hk with
        | inl hin => exact hnew k hin
        | inr hin => exact fun hseen => hothers k hin (List.mem_append_right _ hseen)
      · rw [List.reverse_append, List.append_assoc]
    · intro h
      obtain ⟨hall, ⟨hnodup, hrest, hapart⟩, hnew, rfl⟩ := h
      have hnext := (hf seen a ((keys a).reverse ++ seen)).mpr
        ⟨hall a (List.mem_cons_self ..), hnodup, fun k hk => hnew k (List.mem_append_left _ hk), rfl⟩
      rw [hnext]
      refine ih.mpr ⟨fun b hb => hall b (List.mem_cons_of_mem _ hb), hrest, ?_, ?_⟩
      · intro k hk hseen
        rw [List.mem_append, List.mem_reverse] at hseen
        cases hseen with
        | inl hin => exact hapart k hin k hk rfl
        | inr hin => exact hnew k (List.mem_append_right _ hk) hin
      · rw [List.reverse_append, List.append_assoc]

end Claim

namespace ComposeFile

/-! ## References -/

/-- What a reference names is in the file. -/
def Declares (f : ComposeFile) : Reference → Prop
  | .secret n => f.secrets.contains n = true
  | .serviceAddress n | .serviceAddresses n => f.services.contains n = true
  | .lbAddress n => f.loadbalancers.contains n = true

theorem checkRef_ok_iff {f : ComposeFile} {owner : String} {r : Reference} :
    f.checkRef owner r = .ok () ↔ f.Declares r := by
  unfold checkRef Declares
  cases r with
  | secret n =>
    dsimp only
    split
    · rename_i h
      exact iff_of_true rfl h
    · rename_i h
      exact iff_of_false nofun h
  | serviceAddress n =>
    dsimp only
    split
    · rename_i h
      exact iff_of_true rfl h
    · rename_i h
      exact iff_of_false nofun h
  | serviceAddresses n =>
    dsimp only
    split
    · rename_i h
      exact iff_of_true rfl h
    · rename_i h
      exact iff_of_false nofun h
  | lbAddress n =>
    dsimp only
    split
    · rename_i h
      exact iff_of_true rfl h
    · rename_i h
      exact iff_of_false nofun h

theorem forM_ok_iff {α : Type} {f : α → Result Unit} {l : List α} : l.forM f = .ok () ↔ ∀ a ∈ l, f a = .ok () := by
  refine ⟨forM_ok, fun h => ?_⟩
  induction l with
  | nil => rfl
  | cons a l ih =>
    have hfirst : f a = .ok () := h a (List.mem_cons_self ..)
    show (f a >>= fun _ => l.forM f) = .ok ()
    rw [hfirst]
    exact ih fun b hb => h b (List.mem_cons_of_mem _ hb)

/-- The references of a text can be read, and are of what the file declares. -/
def Linked (f : ComposeFile) (text : String) : Prop := ∃ refs, references text = .ok refs ∧ ∀ r ∈ refs, f.Declares r

theorem checkRefs_ok_iff {f : ComposeFile} {owner text : String} : f.checkRefs owner text = .ok () ↔ f.Linked text := by
  unfold checkRefs Linked
  cases references text with
  | error e => exact iff_of_false nofun fun h => by simp at h
  | ok refs =>
    show refs.forM (f.checkRef owner) = .ok () ↔ _
    rw [forM_ok_iff]
    simp only [checkRef_ok_iff, Except.ok.injEq, exists_eq_left']

/-! ## Ports -/

/-- The host port of a mapping, on a node. -/
def portKeys (node : Option String) (text : String) : Published :=
  match Publish.parse text with
  | .error _ => []
  | .ok p => [(node, p.host, p.proto.display)]

def Parses (text : String) : Prop := ∃ p, Publish.parse text = .ok p

/-- One turn of `claimPorts`. -/
def claimPort (node : Option String) (published : Published) (text : String) : Result Published := do
  let p ← Publish.parse text
  let key := (node, p.host, p.proto.display)
  if key ∈ published then invalid s!"host port {p.host} is published twice"
  else pure (key :: published)

theorem claimPort_claims (node : Option String) : ClaimsBy (portKeys node) Parses (claimPort node) := by
  intro seen text after
  unfold claimPort portKeys Parses
  cases Publish.parse text with
  | error e =>
    refine iff_of_false (fun h => by cases h) fun h => ?_
    obtain ⟨p, hp⟩ := h.1
    cases hp
  | ok p =>
    show (if (node, p.host, p.proto.display) ∈ seen then invalid s!"host port {p.host} is published twice"
      else .ok ((node, p.host, p.proto.display) :: seen)) = .ok after ↔ _
    by_cases hin : (node, p.host, p.proto.display) ∈ seen
    · rw [if_pos hin]
      exact iff_of_false (fun h => by cases h) fun h => h.2.2.1 _ (List.mem_singleton_self _) hin
    · rw [if_neg hin]
      simp [hin, eq_comm]

theorem claimPorts_claims (node : Option String) :
    ClaimsBy (fun maps : List String => maps.flatMap (portKeys node)) (fun maps => ∀ text ∈ maps, Parses text)
      (claimPorts node) :=
  fun _ _ _ => (claimPort_claims node).foldlM

/-! ## Services -/

/-- A service passes all checks but those that depend on the services before it. -/
structure Passes (f : ComposeFile) (name : String) (s : Service) : Prop where
  root : checkRoot name s = .ok ()
  links : f.checkLinks name s = .ok ()
  memory : ∀ m, s.memory = some m → ∃ v, parseSize m = .ok v
  publish : ∀ text ∈ s.publish, Parses text
  health : ∀ h, s.healthcheck = some h → checkHealth name s h = .ok ()
  restart : ∀ r, s.restart = some r → restartOk r = true
  autoscale : ∀ a, s.autoscale = some a → checkAutoscale name s a = .ok ()

theorem ifSome_ok_iff {α : Type} {field : Option α} {check : α → Result Unit} :
    ifSome field check = .ok () ↔ ∀ a, field = some a → check a = .ok () := by
  refine ⟨ifSome_ok, fun h => ?_⟩
  cases field with
  | none => rfl
  | some a => exact h a rfl

theorem bind_unit_ok_iff {β : Type} {m : Result Unit} {f : Unit → Result β} {b : β} :
    m >>= f = .ok b ↔ m = .ok () ∧ f () = .ok b := by
  cases m with
  | error e => exact iff_of_false nofun fun h => by simp at h
  | ok u => exact ⟨fun h => ⟨rfl, h⟩, fun h => h.2⟩

theorem parseSize_check_iff {m : String} : (do let _ ← parseSize m : Result Unit) = .ok () ↔ ∃ v,
    parseSize m = .ok v := by
  cases parseSize m with
  | error e => exact iff_of_false nofun fun h => by simp at h
  | ok v => exact iff_of_true rfl ⟨v, rfl⟩

theorem restart_check_iff {name r : String} :
    (if !restartOk r then invalid s!"service {name}: invalid restart policy {r}"
    else pure () : Result Unit) = .ok () ↔ restartOk r = true := by
  cases restartOk r with
  | false => exact iff_of_false nofun nofun
  | true => exact iff_of_true rfl rfl

/-- The host ports that a service publishes. -/
def servicePorts (e : String × Service) : Published := e.2.publish.flatMap (portKeys e.2.node)

theorem checkService_claims (f : ComposeFile) :
    ClaimsBy servicePorts (fun e => f.Passes e.1 e.2) fun published e => f.checkService published e.1 e.2 := by
  intro seen e after
  obtain ⟨name, s⟩ := e
  show f.checkService seen name s = .ok after ↔ _
  unfold checkService servicePorts
  rw [bind_unit_ok_iff, bind_unit_ok_iff, bind_unit_ok_iff, ifSome_ok_iff]
  constructor
  · intro h
    obtain ⟨hroot, hlinks, hmemory, h⟩ := h
    obtain ⟨claimed, hclaimed, h⟩ := Result.bind_ok h
    rw [bind_unit_ok_iff, bind_unit_ok_iff, bind_unit_ok_iff, ifSome_ok_iff, ifSome_ok_iff, ifSome_ok_iff] at h
    obtain ⟨hhealth, hrestart, hscale, hafter⟩ := h
    obtain rfl := Except.ok.inj hafter
    obtain ⟨hparse, hrest⟩ := (claimPorts_claims s.node seen s.publish claimed).mp hclaimed
    exact ⟨⟨hroot, hlinks, fun m hm => parseSize_check_iff.mp (hmemory m hm), hparse, hhealth,
      fun r hr => restart_check_iff.mp (hrestart r hr), hscale⟩, hrest⟩
  · intro h
    obtain ⟨hp, hrest⟩ := h
    have hclaimed := (claimPorts_claims s.node seen s.publish after).mpr ⟨hp.publish, hrest⟩
    refine ⟨hp.root, hp.links, fun m hm => parseSize_check_iff.mpr (hp.memory m hm), ?_⟩
    rw [hclaimed]
    show (do
      ifSome s.healthcheck (checkHealth name s)
      ifSome s.restart fun r =>
        if !restartOk r then invalid s!"service {name}: invalid restart policy {r}" else pure ()
      ifSome s.autoscale (checkAutoscale name s)
      pure after : Result Published) = .ok after
    rw [bind_unit_ok_iff, bind_unit_ok_iff, bind_unit_ok_iff, ifSome_ok_iff, ifSome_ok_iff, ifSome_ok_iff]
    exact ⟨hp.health, fun r hr => restart_check_iff.mpr (hp.restart r hr), hp.autoscale, rfl⟩

/-! ## Load balancers -/

def lbPorts (e : String × LbDef) : Published := e.2.publish.flatMap (portKeys none)

theorem checkLb_ok_iff {f : ComposeFile} {seen seen' : Published × List UInt16} {name : String} {lb : LbDef} :
    f.checkLb seen name lb = .ok seen' ↔ f.services.contains lb.backends.service = true ∧ lb.listen ∉ seen.2 ∧
      claimPorts none seen.1 lb.publish = .ok seen'.1 ∧ seen'.2 = lb.listen :: seen.2 := by
  unfold checkLb
  by_cases hbackend : f.services.contains lb.backends.service = true
  · by_cases hlisten : lb.listen ∈ seen.2
    · simp only [hbackend, Bool.not_true, Bool.false_eq_true, if_false, hlisten, if_true]
      exact iff_of_false (fun h => by cases h) fun h => h.2.1 trivial
    · simp only [hbackend, Bool.not_true, Bool.false_eq_true, if_false, hlisten]
      constructor
      · intro h
        obtain ⟨published, hpublished, h⟩ := Result.bind_ok h
        cases h
        exact ⟨trivial, not_false, hpublished, rfl⟩
      · intro h
        obtain ⟨-, -, hpublished, hlistens⟩ := h
        obtain ⟨published, listens⟩ := seen'
        obtain rfl : listens = lb.listen :: seen.2 := hlistens
        show (claimPorts none seen.1 lb.publish >>= fun published => pure (published, lb.listen :: seen.2)) = _
        rw [hpublished]
        rfl
  · have hnot : f.services.contains lb.backends.service = false := Bool.eq_false_iff.mpr hbackend
    simp only [hnot, Bool.not_false, if_true]
    exact iff_of_false (fun h => by cases h) fun h => Bool.false_ne_true h.1

/-- The load balancers go through when each has its backends, and neither a port that they listen on nor a host port
comes twice. -/
theorem checkLbs_ok_iff {f : ComposeFile} {entries : List (String × LbDef)} {seen : Published × List UInt16} :
    (∃ seen', entries.foldlM (fun seen e => f.checkLb seen e.1 e.2) seen = .ok seen') ↔
      (∀ e ∈ entries, f.services.contains e.2.backends.service = true ∧ ∀ text ∈ e.2.publish, Parses text) ∧
      (entries.map fun e => e.2.listen).Nodup ∧ (∀ e ∈ entries, e.2.listen ∉ seen.2) ∧
      (entries.flatMap lbPorts).Nodup ∧ ∀ k ∈ entries.flatMap lbPorts, k ∉ seen.1 := by
  induction entries generalizing seen with
  | nil => exact iff_of_true ⟨seen, rfl⟩ (by simp)
  | cons e entries ih =>
    rw [List.foldlM_cons, List.map_cons, List.nodup_cons, List.flatMap_cons, List.nodup_append]
    constructor
    · intro h
      obtain ⟨seen', h⟩ := h
      obtain ⟨next, hnext, h⟩ := Result.bind_ok h
      obtain ⟨hbackend, hlisten, hports, hlistens⟩ := checkLb_ok_iff.mp hnext
      obtain ⟨hparse, hnodup, hnew, hpublished⟩ := (claimPorts_claims none seen.1 e.2.publish next.1).mp hports
      obtain ⟨hall, hdistinct, hothers, hrest, hfresh⟩ := ih.mp ⟨seen', h⟩
      rw [hlistens] at hothers
      rw [hpublished] at hfresh
      refine ⟨?_, ⟨?_, hdistinct⟩, ?_, ⟨hnodup, hrest, ?_⟩, ?_⟩
      · intro e' he'
        cases he' with
        | head => exact ⟨hbackend, hparse⟩
        | tail _ hmem => exact hall e' hmem
      · intro hmem
        obtain ⟨e', he', heq⟩ := List.mem_map.mp hmem
        exact hothers e' he' (heq ▸ List.mem_cons_self ..)
      · intro e' he'
        cases he' with
        | head => exact hlisten
        | tail _ hmem => exact fun hin => hothers e' hmem (List.mem_cons_of_mem _ hin)
      · intro k hk k' hk' heq
        exact hfresh k' hk' (List.mem_append_left _ (List.mem_reverse.mpr (heq ▸ hk)))
      · intro k hk
        rw [List.mem_append] at hk
        cases hk with
        | inl hin => exact hnew k hin
        | inr hin => exact fun hseen => hfresh k hin (List.mem_append_right _ hseen)
    · intro h
      obtain ⟨hall, ⟨hfirst, hdistinct⟩, hothers, ⟨hnodup, hrest, hapart⟩, hnew⟩ := h
      obtain ⟨hbackend, hparse⟩ := hall e (List.mem_cons_self ..)
      have hports := (claimPorts_claims none seen.1 e.2.publish ((lbPorts e).reverse ++ seen.1)).mpr
        ⟨hparse, hnodup, fun k hk => hnew k (List.mem_append_left _ hk), rfl⟩
      have hnext : f.checkLb seen e.1 e.2 = .ok ((lbPorts e).reverse ++ seen.1, e.2.listen :: seen.2) :=
        checkLb_ok_iff.mpr ⟨hbackend, hothers e (List.mem_cons_self ..), hports, rfl⟩
      rw [hnext]
      refine ih.mpr ⟨fun e' he' => hall e' (List.mem_cons_of_mem _ he'), hdistinct, ?_, hrest, ?_⟩
      · intro e' he' hin
        rw [List.mem_cons] at hin
        cases hin with
        | inl heq => exact hfirst (List.mem_map.mpr ⟨e', he', heq⟩)
        | inr hmem => exact hothers e' (List.mem_cons_of_mem _ he') hmem
      · intro k hk hseen
        rw [List.mem_append, List.mem_reverse] at hseen
        cases hseen with
        | inl hin => exact hapart k hin k hk rfl
        | inr hin => exact hnew k (List.mem_append_right _ hk) hin

/-! ## Files -/

/-- The host ports that the services and load balancers of a file publish. -/
def claimed (f : ComposeFile) : Published :=
  f.services.entries.flatMap servicePorts ++ f.loadbalancers.entries.flatMap lbPorts

/-- What `validate` accepts. -/
structure Valid (f : ComposeFile) : Prop where
  version : f.version = supportedVersion
  services : ∀ e ∈ f.services.entries, f.Passes e.1 e.2
  loadbalancers : ∀ e ∈ f.loadbalancers.entries,
    f.services.contains e.2.backends.service = true ∧ ∀ text ∈ e.2.publish, Parses text
  listens : (f.loadbalancers.entries.map fun e => e.2.listen).Nodup
  ports : f.claimed.Nodup
  registries : ∀ e ∈ f.registries.entries, f.Linked e.2.username ∧ f.Linked e.2.password
  order : ∃ order, topoOrder f.dependencyGraph = .ok order

theorem validate_ok_iff {f : ComposeFile} : f.validate = .ok () ↔ f.Valid := by
  unfold validate
  have hservices : ∀ after : Published, f.services.entries.foldlM
    (fun published e => f.checkService published e.1 e.2) [] =
      .ok after ↔ (∀ e ∈ f.services.entries, f.Passes e.1 e.2) ∧ (f.services.entries.flatMap servicePorts).Nodup ∧
        after = (f.services.entries.flatMap servicePorts).reverse := by
    intro after
    rw [(checkService_claims f).foldlM]
    simp
  have hregistries : (f.registries.entries.forM fun e => do
      f.checkRefs s!"registry {e.1}" e.2.username
      f.checkRefs s!"registry {e.1}" e.2.password) = .ok () ↔
        ∀ e ∈ f.registries.entries, f.Linked e.2.username ∧ f.Linked e.2.password := by
    rw [forM_ok_iff]
    refine forall₂_congr fun e _ => ?_
    rw [bind_unit_ok_iff, checkRefs_ok_iff, checkRefs_ok_iff]
  by_cases hversion : f.version = supportedVersion
  · rw [if_neg (not_not.mpr hversion)]
    constructor
    · intro h
      obtain ⟨published, hpublished, hrest⟩ := Result.bind_ok h
      obtain ⟨seen, hseen, hrest⟩ := Result.bind_ok hrest
      rw [bind_unit_ok_iff, hregistries] at hrest
      obtain ⟨hlinked, hrest⟩ := hrest
      obtain ⟨order, horder, -⟩ := Result.bind_ok hrest
      obtain ⟨hpasses, hnodup, rfl⟩ := (hservices published).mp hpublished
      obtain ⟨hall, hdistinct, -, hlbs, hnew⟩ := checkLbs_ok_iff.mp ⟨seen, hseen⟩
      refine ⟨hversion, hpasses, hall, hdistinct, List.nodup_append.mpr ⟨hnodup, hlbs, ?_⟩, hlinked, order, horder⟩
      intro k hk k' hk' heq
      exact hnew k' hk' (List.mem_reverse.mpr (heq ▸ hk))
    · intro h
      obtain ⟨hnodup, hlbs, hapart⟩ := List.nodup_append.mp h.ports
      rw [(hservices _).mpr ⟨h.services, hnodup, rfl⟩]
      have hnew : ∀ k ∈ f.loadbalancers.entries.flatMap lbPorts,
        k ∉ (f.services.entries.flatMap servicePorts).reverse :=
        fun k hk hin => hapart k (List.mem_reverse.mp hin) k hk rfl
      obtain ⟨seen, hseen⟩ : ∃ seen, f.loadbalancers.entries.foldlM (fun seen e => f.checkLb seen e.1 e.2)
          ((f.services.entries.flatMap servicePorts).reverse, []) = .ok seen :=
        checkLbs_ok_iff.mpr ⟨h.loadbalancers, h.listens, fun e _ => List.not_mem_nil, hlbs, hnew⟩
      show (f.loadbalancers.entries.foldlM (fun seen e => f.checkLb seen e.1 e.2) _ >>= _) = _
      rw [hseen]
      show ((f.registries.entries.forM _ : Result Unit) >>= _) = _
      rw [bind_unit_ok_iff, hregistries]
      refine ⟨h.registries, ?_⟩
      obtain ⟨order, horder⟩ := h.order
      rw [horder]
      rfl
  · rw [if_pos hversion]
    exact iff_of_false (fun h => by cases h) fun h => hversion h.version

/-- The links of a service, one kind at a time. -/
theorem checkLinks_ok_iff {f : ComposeFile} {name : String} {s : Service} : f.checkLinks name s = .ok () ↔
    (∀ n, s.node = some n → f.nodes.isEmpty = true ∨ f.nodes.contains n = true) ∧
    (∀ d ∈ s.dependsOn, f.services.contains d.service = true) ∧ (∀ sec ∈ s.secrets, f.secrets.contains sec = true) ∧
    (∀ cfg ∈ s.configs.keys, f.configs.contains cfg = true) ∧
    ∀ text ∈ s.env.values ++ s.command ++ s.entrypoint, f.Linked text := by
  have hcheck : ∀ {c : Bool} {text : String}, (if c then .ok () else invalid text : Result Unit) = .ok () ↔
    c = true := by
    intro c text
    cases c with
    | false => exact iff_of_false (fun h => by cases h) nofun
    | true => exact iff_of_true rfl rfl
  have hnode : ∀ n, (if !f.nodes.isEmpty && !f.nodes.contains n then invalid s!"service {name} uses unknown node {n}"
      else pure () : Result Unit) = .ok () ↔ f.nodes.isEmpty = true ∨ f.nodes.contains n = true := by
    intro n
    cases f.nodes.isEmpty with
    | true => exact iff_of_true rfl (Or.inl rfl)
    | false =>
      cases f.nodes.contains n with
      | true => exact iff_of_true rfl (Or.inr rfl)
      | false => exact iff_of_false (fun h => by cases h) fun h => by simp at h
  unfold checkLinks
  rw [bind_unit_ok_iff, bind_unit_ok_iff, bind_unit_ok_iff, bind_unit_ok_iff, ifSome_ok_iff, forM_ok_iff, forM_ok_iff,
    forM_ok_iff, forM_ok_iff]
  simp only [hnode, hcheck, checkRefs_ok_iff]

end ComposeFile
end Collocate.Compose
