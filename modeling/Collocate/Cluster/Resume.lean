import Mathlib.Data.Finset.Lattice.Lemmas
import Collocate.Cluster.Provision

/-! # Provisioning that was cut short

What is observed is coarser than what the steps do: the profile is seen but not its nesting, the package but not the
connected interfaces or the enabled daemon. `Noticed` says that nothing lacks behind what is seen; exactly then does a
new plan finish what an interrupted run left. -/
namespace Collocate.Cluster
set_option autoImplicit false

/-! ## What provisioning comes to -/

def plugName (plug : String) : String := s!"collocate:{plug}"

/-- The interfaces of the daemon. -/
def plugs : Finset String := (daemonPlugs.map plugName).toFinset

/-- The mode installs something: package files without any path install nothing. -/
def Install.names : Install → Bool
  | .deb paths => !paths.isEmpty
  | _ => true

/-- An instance with all steps done. -/
def Install.finish (install : Install) (i : Instance) : Instance where
  status := running
  installed := true
  connected := if install.isSnap then i.connected ∪ plugs else i.connected
  enabled := !install.isSnap || i.enabled
  initialized := true

def Install.finished (install : Install) (i : Option Instance) : Instance :=
  install.finish (i.getD { status := running })

def finish (nodes : OrdMap String NodeRecord) (install : Install) (l : Lxd) : Lxd where
  profile := some true
  instances n := if nodes.contains n then some (install.finished (l.instances n)) else l.instances n

/-- The instance is up, with the package, its interfaces or the enabled daemon, and an initialized daemon. -/
structure Ready (install : Install) (i : Instance) : Prop where
  status : i.status = running
  installed : i.installed = true
  initialized : i.initialized = true
  connected : install.isSnap = true → plugs ⊆ i.connected
  enabled : install.isSnap = false → i.enabled = true

/-- The end that provisioning is for. -/
structure Provisioned (nodes : OrdMap String NodeRecord) (install : Install) (l : Lxd) : Prop where
  profile : l.profile = some true
  instances : ∀ n, nodes.contains n = true → ∃ i, l.instances n = some i ∧ Ready install i

/-- What an instance lacks is seen: where the package is observed, the daemon is enabled, and where the daemon is
observed initialized too, the interfaces are connected; and a mode that installs nothing finds the package there. -/
structure Seen (install : Install) (i : Option Instance) : Prop where
  enabled : ∀ j, i = some j → j.status = running → j.installed = true → install.isSnap = false → j.enabled = true
  connected : ∀ j, i = some j → j.status = running → j.installed = true → j.initialized = true →
    install.isSnap = true → plugs ⊆ j.connected
  installed : install.names = false → ∃ j, i = some j ∧ j.installed = true

/-- All that lacks is seen: nesting is set in the profile, or the profile is still to be made, which only an instance
that is still to be launched brings about. -/
structure Noticed (nodes : OrdMap String NodeRecord) (install : Install) (l : Lxd) : Prop where
  profile : l.profile = some true ∨ (l.profile = none ∧ ∃ n, nodes.contains n = true ∧ l.instances n = none)
  instances : ∀ n, nodes.contains n = true → Seen install (l.instances n)

/-! ## Steps on an instance -/

theorem exec_append (t : LxdTarget) (node : String) (argv : List String) :
    exec t node argv = exec t node [] ++ argv := by
  simp [exec]

theorem argv_exec (t : LxdTarget) (s : Step) {argv : List String} (h : s.args = exec t s.node argv) :
    s.argv t = argv := by
  rw [Step.argv, h, exec_append t s.node argv, List.drop_left]

/-- A step of an install mode: it connects interfaces of the daemon for a snap and enables the daemon for packages. -/
structure Proper (t : LxdTarget) (install : Install) (s : Step) : Prop where
  profile : s.kind ≠ .profile
  connect : s.kind = .connect → install.isSnap = true ∧ ∃ plug ∈ daemonPlugs, (s.argv t).getLast? = some (plugName plug)
  enable : s.kind = .enable → install.isSnap = false
  install : s.kind = .install → installs (s.argv t) = true → install.names = true

theorem Proper.of_kind {t : LxdTarget} {install : Install} {s : Step} (hprofile : s.kind ≠ .profile)
    (hconnect : s.kind ≠ .connect) (henable : s.kind ≠ .enable) (hinstall : s.kind ≠ .install) : Proper t install s :=
  ⟨hprofile, fun h => absurd h hconnect, fun h => absurd h henable, fun h => absurd h hinstall⟩

theorem Proper.of_install {t : LxdTarget} {install : Install} {s : Step} (hkind : s.kind = .install)
    (h : installs (s.argv t) = true → install.names = true) : Proper t install s := by
  refine ⟨fun hprofile => ?_, fun hconnect => ?_, fun henable => ?_, fun _ => h⟩
  · rw [hkind] at hprofile
    cases hprofile
  · rw [hkind] at hconnect
    cases hconnect
  · rw [hkind] at henable
    cases henable

theorem Proper.of_connect {t : LxdTarget} {install : Install} {node plug : String} (hsnap : install.isSnap = true)
    (hplug : plug ∈ daemonPlugs) : Proper t install (connectStep t node plug) := by
  have hlast : ((connectStep t node plug).argv t).getLast? = some (plugName plug) := by
    rw [argv_exec t (connectStep t node plug) rfl]
    rfl
  exact ⟨nofun, fun _ => ⟨hsnap, plug, hplug, hlast⟩, nofun, nofun⟩

theorem plugName_mem {plug : String} (h : plug ∈ daemonPlugs) : plugName plug ∈ plugs := by
  rw [plugs, List.mem_toFinset]
  exact List.mem_map_of_mem h

/-- No step changes what provisioning comes to. -/
theorem Proper.finished {t : LxdTarget} {install : Install} {s : Step} (h : Proper t install s) (i : Option Instance) :
    install.finished (s.onInstance t i) = install.finished i := by
  obtain ⟨node, kind, args, stdin⟩ := s
  cases kind with
  | profile => rfl
  | waitReady => rfl
  | push => rfl
  | launch => cases i <;> rfl
  | start => cases i <;> rfl
  | install =>
    cases i with
    | none => rfl
    | some j =>
      simp only [Step.onInstance, Option.map_some]
      split <;> rfl
  | init => cases i <;> rfl
  | enable =>
    have hdeb := h.enable rfl
    cases i with
    | none => rfl
    | some j => simp [Step.onInstance, Install.finished, Install.finish, hdeb]
  | connect =>
    obtain ⟨hsnap, plug, hplug, hlast⟩ := h.connect rfl
    cases i with
    | none => rfl
    | some j =>
      have hmem : plugName plug ∈ plugs := plugName_mem hplug
      simp only [Step.onInstance, Option.map_some, hlast, Install.finished, Install.finish, hsnap, if_true,
        Option.getD_some]
      rw [Finset.insert_union, Finset.insert_eq_of_mem (Finset.mem_union_right _ hmem)]

theorem onInstance_profile {t : LxdTarget} {s : Step} (h : s.kind = .profile) (i : Option Instance) :
    s.onInstance t i = i := by
  simp only [Step.onInstance, h]

theorem Proper.onProfile {t : LxdTarget} {install : Install} {s : Step} (h : Proper t install s) (p : Option Bool) :
    s.onProfile p = p := by
  unfold Step.onProfile
  split
  · rename_i hkind _
    exact absurd hkind h.profile
  · rename_i hkind _
    exact absurd hkind h.profile
  · rfl

/-- No step removes an instance. -/
theorem onInstance_isSome {t : LxdTarget} (s : Step) {i : Option Instance} (h : i.isSome = true) :
    (s.onInstance t i).isSome = true := by
  obtain ⟨j, rfl⟩ := Option.isSome_iff_exists.mp h
  unfold Step.onInstance
  split <;> rfl

/-- A mode that installs nothing leaves the package out. -/
theorem Proper.uninstalled {t : LxdTarget} {install : Install} {s : Step} (h : Proper t install s)
    (hnames : install.names = false) {i : Option Instance} (hi : ∀ j, i = some j → j.installed = false) :
    ∀ j, s.onInstance t i = some j → j.installed = false := by
  intro j hj
  have hnot : s.kind = .install → installs (s.argv t) = false := by
    intro hkind
    rw [Bool.eq_false_iff]
    intro hinstalls
    rw [h.install hkind hinstalls] at hnames
    cases hnames
  unfold Step.onInstance at hj
  cases i with
  | none =>
    split at hj <;> simp only [Option.map_none, Option.getD_none, reduceCtorEq, Option.some.injEq] at hj
    rw [← hj]
  | some k =>
    have hk := hi k rfl
    split at hj <;> simp only [Option.map_some, Option.getD_some, Option.some.injEq] at hj
    · rw [← hj]
      exact hk
    · rw [← hj]
      exact hk
    · rename_i hkind
      rw [hnot hkind, if_neg Bool.false_ne_true] at hj
      rw [← hj]
      exact hk
    · split at hj <;> rw [← hj] <;> exact hk
    · rw [← hj]
      exact hk
    · rw [← hj]
      exact hk
    · rw [← hj]
      exact hk
    · rw [← hj]
      exact hk
    · rw [← hj]
      exact hk

theorem installSteps_proper {t : LxdTarget} {node : String} {install : Install} {s : Step}
    (h : s ∈ installSteps t node install) : s.node = node ∧ Proper t install s := by
  unfold installSteps at h
  cases install with
  | channel ch =>
    simp only [Install.isSnap, if_true, List.mem_append, List.mem_singleton, List.mem_map] at h
    obtain rfl | ⟨plug, hplug, rfl⟩ := h
    · exact ⟨rfl, Proper.of_install rfl fun _ => rfl⟩
    · exact ⟨rfl, Proper.of_connect rfl hplug⟩
  | snapFile path =>
    simp only [Install.isSnap, if_true, List.mem_append, List.mem_cons, List.not_mem_nil, or_false, List.mem_map] at h
    obtain (rfl | rfl) | ⟨plug, hplug, rfl⟩ := h
    · exact ⟨rfl, Proper.of_kind nofun nofun nofun nofun⟩
    · exact ⟨rfl, Proper.of_install rfl fun _ => rfl⟩
    · exact ⟨rfl, Proper.of_connect rfl hplug⟩
  | deb paths =>
    simp only [Install.isSnap, Bool.false_eq_true, if_false, List.mem_append, List.mem_map, List.mem_cons,
      List.not_mem_nil, or_false] at h
    obtain ⟨p, -, rfl⟩ | rfl | rfl | rfl := h
    · exact ⟨rfl, Proper.of_kind nofun nofun nofun nofun⟩
    · refine ⟨rfl, Proper.of_install rfl fun hinstalls => ?_⟩
      rw [argv_exec t _ rfl] at hinstalls
      cases hinstalls
    · refine ⟨rfl, Proper.of_install rfl fun hinstalls => ?_⟩
      rw [argv_exec t _ rfl] at hinstalls
      cases paths with
      | nil => cases hinstalls
      | cons => rfl
    · exact ⟨rfl, nofun, nofun, fun _ => rfl, nofun⟩

/-! ## The steps of a node -/

theorem run_connects (t : LxdTarget) (node : String) (l : List String) (i : Instance) :
    runAll (Step.onInstance t) (l.map (connectStep t node)) (some i) =
      some { i with connected := i.connected ∪ (l.map plugName).toFinset } := by
  induction l generalizing i with
  | nil => simp [runAll]
  | cons plug l ih =>
    have hstep : (connectStep t node plug).onInstance t (some i) =
        some { i with connected := insert (plugName plug) i.connected } := by
      have hargv : (connectStep t node plug).argv t = ["snap", "connect", plugName plug] := argv_exec t _ rfl
      have hlast : ((connectStep t node plug).argv t).getLast? = some (plugName plug) := by
        rw [hargv]
        rfl
      have hkind : (connectStep t node plug).kind = .connect := rfl
      simp only [Step.onInstance, hkind, hlast, Option.map_some]
    rw [List.map_cons, runAll_cons, hstep, ih, List.map_cons, List.toFinset_cons, Finset.union_insert,
      Finset.insert_union]

theorem onInstance_install {t : LxdTarget} {node : String} {argv : List String} (i : Instance) :
    Step.onInstance t { node := node, kind := .install, args := exec t node argv } (some i) =
      some (if installs argv then { i with installed := true } else i) := by
  have hargv : Step.argv t { node := node, kind := .install, args := exec t node argv } = argv := argv_exec t _ rfl
  simp only [Step.onInstance, Option.map_some, hargv]

theorem run_pushes {t : LxdTarget} {steps : List Step} (h : ∀ a ∈ steps, a.kind = .push) (i : Option Instance) :
    runAll (Step.onInstance t) steps i = i := by
  have hnone : ∀ a ∈ steps, ∀ j, id (a.onInstance t j) = id j := by
    intro a ha j
    simp only [Step.onInstance, h a ha]
  exact runAll_constant hnone i

/-- The install steps, on an instance that is there. -/
theorem run_installSteps (t : LxdTarget) (node : String) {install : Install} {i : Instance}
    (h : install.names = false → i.installed = true) :
    runAll (Step.onInstance t) (installSteps t node install) (some i) =
      some { i with
        installed := true
        connected := if install.isSnap then i.connected ∪ plugs else i.connected
        enabled := !install.isSnap || i.enabled } := by
  unfold installSteps
  cases install with
  | channel ch =>
    simp only [Install.isSnap, if_true, List.cons_append, List.nil_append, runAll_cons, onInstance_install, installs]
    exact run_connects t node daemonPlugs _
  | snapFile path =>
    simp only [Install.isSnap, if_true, List.cons_append, List.nil_append, runAll_cons]
    show runAll (Step.onInstance t) _ (Step.onInstance t _ (some i)) = _
    rw [onInstance_install]
    exact run_connects t node daemonPlugs _
  | deb paths =>
    simp only [Install.isSnap, Bool.false_eq_true, if_false]
    have hpush : runAll (Step.onInstance t) (paths.map fun p => pushStep t node p (debDest p)) (some i) = some i := by
      apply run_pushes
      intro a ha
      obtain ⟨p, -, rfl⟩ := List.mem_map.mp ha
      rfl
    rw [runAll_append, hpush]
    simp only [runAll_cons, sh, onInstance_install]
    cases paths with
    | nil =>
      have hinstalled : i.installed = true := h rfl
      obtain ⟨status, installed, connected, enabled, initialized⟩ := i
      obtain rfl : installed = true := hinstalled
      rfl
    | cons p paths => rfl

theorem filter_connects (t : LxdTarget) (node : String) {install : Install} (h : install.isSnap = true) :
    ((installSteps t node install).filter fun s => s.kind = .connect) = daemonPlugs.map (connectStep t node) := by
  cases install with
  | channel ch => rfl
  | snapFile path => rfl
  | deb paths => cases h

/-- What is observed of a node whose instance is `i`. -/
structure Shows (observed : Observed) (name : String) (i : Option Instance) : Prop where
  instances : observed.instances name = i.map Instance.status
  installed : observed.installed name = i.any fun j => j.status == running && j.installed
  initialized : observed.initialized name = i.any fun j => j.status == running && j.installed && j.initialized

theorem observe_shows {nodes : OrdMap String NodeRecord} (l : Lxd) {n : String} (h : nodes.contains n = true) :
    Shows (observe nodes l) n (l.instances n) := by
  constructor
  · simp only [observe, if_pos h]
  · simp only [observe, h, Bool.true_and]
  · simp only [observe, h, Bool.true_and]

variable {x : Outside} {t : LxdTarget} {image : String} {install : Install} {settings : DaemonSettings}

/-- The node is seen to be done. -/
def Done (i : Option Instance) : Prop := ∃ j, i = some j ∧ j.status = running ∧ j.installed = true ∧
    j.initialized = true

instance (i : Option Instance) : Decidable (Done i) :=
  match i with
  | none => isFalse (by rintro ⟨j, h, -⟩; cases h)
  | some j => decidable_of_iff (j.status = running ∧ j.installed = true ∧ j.initialized = true)
    ⟨fun h => ⟨j, rfl, h⟩, fun ⟨_, h, hj⟩ => Option.some.inj h ▸ hj⟩

theorem Shows.done_iff {observed : Observed} {n : String} {i : Option Instance} (h : Shows observed n i) :
    (observed.installed n && observed.initialized n) = true ↔ Done i := by
  rw [h.installed, h.initialized]
  cases i with
  | none => simp [Done]
  | some j =>
    simp only [Option.any_some, Bool.and_eq_true, beq_iff_eq, Done, Option.some.injEq, exists_eq_left']
    tauto

/-- The steps for a node that is not done, with the text for its daemon. -/
def undoneSteps (x : Outside) (t : LxdTarget) (image : String) (install : Install) (observed : Observed) (name : String)
    (rec : NodeRecord) (stdin : String) : List Step :=
  beginSteps x t image observed name rec ++
    (waitStep t name install :: missingSteps t name install (observed.installed name)) ++ [initStep t name stdin]

theorem nodeSteps_done {observed : Observed} {n : String} {i : Option Instance} (h : Shows observed n i)
    (hdone : Done i) (rec : NodeRecord) : nodeSteps x t image install settings observed n rec = .ok [] := by
  have hbegin : beginSteps x t image observed n rec = [] := by
    obtain ⟨j, rfl, hstatus, -⟩ := hdone
    unfold beginSteps
    rw [h.instances]
    simp only [Option.map_some, if_pos hstatus]
  unfold nodeSteps
  simp only [h.done_iff.mpr hdone, if_true, hbegin]

theorem nodeSteps_undone {observed : Observed} {n : String} {i : Option Instance} (h : Shows observed n i)
    (hdone : ¬Done i) (rec : NodeRecord) : nodeSteps x t image install settings observed n rec =
      (nodePreseed x settings n).map (undoneSteps x t image install observed n rec) := by
  unfold nodeSteps
  have hfalse : (observed.installed n && observed.initialized n) = false :=
    Bool.eq_false_iff.mpr fun htrue => hdone (h.done_iff.mp htrue)
  simp only [hfalse, Bool.false_eq_true, if_false]
  cases nodePreseed x settings n <;> rfl

theorem undoneSteps_proper {observed : Observed} {n stdin : String} {rec : NodeRecord} {s : Step}
    (h : s ∈ undoneSteps x t image install observed n rec stdin) : s.node = n ∧ Proper t install s := by
  unfold undoneSteps at h
  rw [List.mem_append, List.mem_append, List.mem_cons, List.mem_singleton] at h
  obtain (hbegin | rfl | hmissing) | rfl := h
  · unfold beginSteps at hbegin
    split at hbegin
    · rw [List.mem_singleton] at hbegin
      subst hbegin
      exact ⟨rfl, Proper.of_kind nofun nofun nofun nofun⟩
    · split at hbegin
      · cases hbegin
      · rw [List.mem_singleton] at hbegin
        subst hbegin
        exact ⟨rfl, Proper.of_kind nofun nofun nofun nofun⟩
  · exact ⟨rfl, Proper.of_kind nofun nofun nofun nofun⟩
  · unfold missingSteps at hmissing
    split at hmissing
    · exact installSteps_proper hmissing
    · split at hmissing
      · exact installSteps_proper (List.mem_filter.mp hmissing).1
      · cases hmissing
  · exact ⟨rfl, Proper.of_kind nofun nofun nofun nofun⟩

/-- The first steps bring up the instance. -/
theorem run_beginSteps {observed : Observed} {n : String} {i : Option Instance} (h : Shows observed n i)
    (rec : NodeRecord) :
    runAll (Step.onInstance t) (beginSteps x t image observed n rec) i =
      some { i.getD { status := running } with status := running } := by
  unfold beginSteps
  rw [h.instances]
  cases i with
  | none => rfl
  | some j =>
    simp only [Option.map_some, Option.getD_some]
    split
    · rename_i hstatus
      obtain ⟨status, installed, connected, enabled, initialized⟩ := j
      obtain rfl : status = running := hstatus
      rfl
    · rfl

/-- All steps of a node of which nothing lacks unseen. -/
theorem run_undoneSteps {observed : Observed} {n : String} {i : Option Instance} (h : Shows observed n i)
    (hdone : ¬Done i) (hseen : Seen install i) (rec : NodeRecord) (stdin : String) :
    runAll (Step.onInstance t) (undoneSteps x t image install observed n rec stdin) i = some (install.finished i) := by
  have hwait : ∀ j, (waitStep t n install).onInstance t j = j := fun _ => rfl
  have hinit : ∀ j : Instance, (initStep t n stdin).onInstance t (some j) = some { j with initialized := true } :=
    fun _ => rfl
  unfold undoneSteps
  rw [runAll_append, runAll_append, run_beginSteps h, runAll_cons _ (waitStep t n install), hwait]
  unfold missingSteps
  cases hinstalled : observed.installed n with
  | false =>
    simp only [Bool.not_false, if_true]
    rw [run_installSteps, runAll_cons, hinit]
    · rfl
    · intro hnames
      obtain ⟨j, rfl, hj⟩ := hseen.installed hnames
      exact hj
  | true =>
    rw [h.installed] at hinstalled
    cases i with
    | none => cases hinstalled
    | some j =>
      obtain ⟨hstatus, hj⟩ : j.status = running ∧ j.installed = true := by simpa using hinstalled
      simp only [Bool.not_true, Bool.false_eq_true, if_false, Option.getD_some]
      cases hsnap : install.isSnap with
      | true =>
        simp only [if_true]
        rw [filter_connects t n hsnap, run_connects, runAll_cons, hinit]
        simp only [runAll_nil, Install.finished, Install.finish, Option.getD_some, hsnap, if_true, hj,
          Bool.not_true, Bool.false_or]
        rfl
      | false =>
        simp only [Bool.false_eq_true, if_false]
        rw [runAll_nil, runAll_cons, hinit]
        have henabled := hseen.enabled j rfl hstatus hj hsnap
        simp only [runAll_nil, Install.finished, Install.finish, Option.getD_some, hsnap, hj, henabled,
          Bool.false_eq_true, if_false, Bool.not_false, Bool.true_or]

theorem finished_of_done {i : Option Instance} (hdone : Done i) (hseen : Seen install i) :
    i = some (install.finished i) := by
  obtain ⟨j, rfl, hstatus, hinstalled, hinit⟩ := hdone
  have henabled := hseen.enabled j rfl hstatus hinstalled
  have hconnected := hseen.connected j rfl hstatus hinstalled hinit
  obtain ⟨status, installed, connected, enabled, initialized⟩ := j
  obtain rfl : status = running := hstatus
  obtain rfl : installed = true := hinstalled
  obtain rfl : initialized = true := hinit
  simp only [Install.finished, Install.finish, Option.getD_some]
  cases hsnap : install.isSnap with
  | true => rw [if_pos rfl, Finset.union_eq_left.mpr (hconnected hsnap)]; rfl
  | false =>
    obtain rfl : enabled = true := henabled hsnap
    rfl

/-- Where the package is seen, no step of a package mode enables the daemon. -/
theorem undoneSteps_enabled {observed : Observed} {n stdin : String} {rec : NodeRecord} {j : Instance}
    (h : Shows observed n (some j)) (hstatus : j.status = running) (hinstalled : j.installed = true)
    (hsnap : install.isSnap = false) {s : Step} (hs : s ∈ undoneSteps x t image install observed n rec stdin) :
    s.kind = .waitReady ∨ s.kind = .init := by
  have hobserved : observed.installed n = true := by
    rw [h.installed]
    simp [hstatus, hinstalled]
  have hbegin : beginSteps x t image observed n rec = [] := by
    unfold beginSteps
    rw [h.instances]
    simp only [Option.map_some, if_pos hstatus]
  unfold undoneSteps missingSteps at hs
  simp only [hbegin, hobserved, hsnap, Bool.not_true, Bool.false_eq_true, if_false, List.nil_append, List.mem_append,
    List.mem_singleton] at hs
  obtain rfl | rfl := hs
  · exact Or.inl rfl
  · exact Or.inr rfl

/-- What some of the steps leave unseen was unseen before them. -/
theorem seen_of_run {observed : Observed} {n stdin : String} {rec : NodeRecord} {i : Option Instance}
    (h : Shows observed n i) (hdone : ¬Done i) {cut : List Step}
    (hcut : ∀ s ∈ cut, s.kind = .profile ∨ s ∈ undoneSteps x t image install observed n rec stdin)
    (hseen : Seen install (runAll (Step.onInstance t) cut i)) : Seen install i := by
  constructor
  · intro j hj hstatus hinstalled hsnap
    subst hj
    have hkeeps : ∀ s ∈ cut, ∀ i' : Option Instance,
        (∃ j', i' = some j' ∧ j'.status = running ∧ j'.installed = true ∧ j'.enabled = j.enabled) →
        ∃ j', s.onInstance t i' = some j' ∧ j'.status = running ∧ j'.installed = true ∧ j'.enabled = j.enabled := by
      intro s hs i' hi'
      obtain ⟨j', rfl, hj'⟩ := hi'
      obtain hkind | hkind | hkind :=
        (hcut s hs).imp_right fun hin => undoneSteps_enabled h hstatus hinstalled hsnap hin
      · rw [onInstance_profile hkind]
        exact ⟨j', rfl, hj'⟩
      · simp only [Step.onInstance, hkind]
        exact ⟨j', rfl, hj'⟩
      · simp only [Step.onInstance, hkind, Option.map_some]
        exact ⟨_, rfl, hj'⟩
    obtain ⟨j', hrun, hstatus', hinstalled', henabled⟩ := runAll_keeps hkeeps ⟨j, rfl, hstatus, hinstalled, rfl⟩
    rw [← henabled]
    exact hseen.enabled j' hrun hstatus' hinstalled' hsnap
  · intro j hj hstatus hinstalled hinit _
    exact absurd ⟨j, hj, hstatus, hinstalled, hinit⟩ hdone
  · intro hnames
    by_contra hnone
    have hkeeps : ∀ s ∈ cut, ∀ i' : Option Instance, (∀ j, i' = some j → j.installed = false) →
        ∀ j, s.onInstance t i' = some j → j.installed = false := by
      intro s hs i' hi'
      obtain hkind | hin := hcut s hs
      · rw [onInstance_profile hkind]
        exact hi'
      · exact (undoneSteps_proper hin).2.uninstalled hnames hi'
    have hnot : ∀ j, i = some j → j.installed = false := by
      intro j hj
      rw [Bool.eq_false_iff]
      exact fun htrue => hnone ⟨j, hj, htrue⟩
    obtain ⟨j, hrun, hj⟩ := hseen.installed hnames
    rw [runAll_keeps hkeeps hnot j hrun] at hj
    cases hj

/-! ## The steps of a plan -/

theorem nodeSteps_node {observed : Observed} {n : String} {i : Option Instance} {rec : NodeRecord} {steps : List Step}
    (h : Shows observed n i) (hsteps : nodeSteps x t image install settings observed n rec = .ok steps) :
    ∀ s ∈ steps, s.node = n ∧ Proper t install s := by
  by_cases hdone : Done i
  · rw [nodeSteps_done h hdone] at hsteps
    cases hsteps
    exact fun s hs => absurd hs List.not_mem_nil
  · rw [nodeSteps_undone h hdone] at hsteps
    cases hpreseed : nodePreseed x settings n with
    | error e =>
      rw [hpreseed] at hsteps
      cases hsteps
    | ok stdin =>
      rw [hpreseed] at hsteps
      cases hsteps
      exact fun s hs => undoneSteps_proper hs

theorem plansFor_mem {observed : Observed} {entries : List (String × NodeRecord)} {rest : List Step}
    (h : plansFor x t image install settings observed entries = .ok rest) {s : Step} (hs : s ∈ rest) :
    ∃ n rec steps, (n, rec) ∈ entries ∧ nodeSteps x t image install settings observed n rec = .ok steps ∧
      s ∈ steps := by
  induction entries generalizing rest with
  | nil =>
    cases h
    cases hs
  | cons e entries ih =>
    obtain ⟨n, rec⟩ := e
    unfold plansFor at h
    split at h
    · cases h
    · rename_i steps hsteps
      split at h
      · cases h
      · rename_i more hmore
        cases h
        rw [List.mem_append] at hs
        cases hs with
        | inl hin => exact ⟨n, rec, steps, List.mem_cons_self .., hsteps, hin⟩
        | inr hin =>
          obtain ⟨n', rec', steps', hmem, hrest⟩ := ih hmore hin
          exact ⟨n', rec', steps', List.mem_cons_of_mem _ hmem, hrest⟩

/-- A plan is made when each node's steps are. -/
theorem plansFor_ok_iff {observed : Observed} {entries : List (String × NodeRecord)} :
    (∃ rest, plansFor x t image install settings observed entries = .ok rest) ↔
      ∀ n rec, (n, rec) ∈ entries → ∃ steps, nodeSteps x t image install settings observed n rec = .ok steps := by
  induction entries with
  | nil => exact iff_of_true ⟨[], rfl⟩ fun n rec h => absurd h List.not_mem_nil
  | cons e entries ih =>
    obtain ⟨n, rec⟩ := e
    constructor
    · intro h n' rec' hmem
      obtain ⟨rest, h⟩ := h
      unfold plansFor at h
      split at h
      · cases h
      · rename_i steps hsteps
        split at h
        · cases h
        · rename_i more hmore
          cases hmem with
          | head => exact ⟨steps, hsteps⟩
          | tail _ hmem => exact ih.mp ⟨more, hmore⟩ n' rec' hmem
    · intro h
      obtain ⟨steps, hsteps⟩ := h n rec (List.mem_cons_self ..)
      obtain ⟨more, hmore⟩ := ih.mpr fun n' rec' hmem => h n' rec' (List.mem_cons_of_mem _ hmem)
      refine ⟨steps ++ more, ?_⟩
      unfold plansFor
      simp only [hsteps, hmore]

/-- The plan's steps on a node are the node's steps. -/
theorem plansFor_filter {observed : Observed} {entries : List (String × NodeRecord)} {rest : List Step}
    (hshows : ∀ n rec, (n, rec) ∈ entries → ∃ i, Shows observed n i)
    (hsorted : entries.Pairwise fun a b => a.1 < b.1)
    (h : plansFor x t image install settings observed entries = .ok rest)
    {n : String} {rec : NodeRecord} (hmem : (n, rec) ∈ entries) :
    nodeSteps x t image install settings observed n rec = .ok (rest.filter fun s => s.node = n) := by
  induction entries generalizing rest with
  | nil => cases hmem
  | cons e entries ih =>
    obtain ⟨n', rec'⟩ := e
    have hshows' : ∀ n rec, (n, rec) ∈ entries → ∃ i, Shows observed n i :=
      fun n rec hin => hshows n rec (List.mem_cons_of_mem _ hin)
    obtain ⟨hfirst, hsorted⟩ := List.pairwise_cons.mp hsorted
    unfold plansFor at h
    split at h
    · cases h
    · rename_i steps hsteps
      split at h
      · cases h
      · rename_i more hmore
        cases h
        obtain ⟨i, hi⟩ := hshows n' rec' (List.mem_cons_self ..)
        have hnodes := nodeSteps_node hi hsteps
        rw [List.filter_append]
        cases hmem with
        | head =>
          have hothers : more.filter (fun s => s.node = n) = [] := by
            rw [List.filter_eq_nil_iff]
            intro s hs
            obtain ⟨n₂, rec₂, steps₂, hin, hsteps₂, hs₂⟩ := plansFor_mem hmore hs
            obtain ⟨i₂, hi₂⟩ := hshows' n₂ rec₂ hin
            have hlt := hfirst (n₂, rec₂) hin
            have hnode := (nodeSteps_node hi₂ hsteps₂ s hs₂).1
            simpa [hnode] using ne_of_gt hlt
          have hall : steps.filter (fun s => s.node = n) = steps := by
            rw [List.filter_eq_self]
            intro s hs
            simpa using (hnodes s hs).1
          rw [hall, hothers, List.append_nil]
          exact hsteps
        | tail _ hmem =>
          have hnone : steps.filter (fun s => s.node = n) = [] := by
            rw [List.filter_eq_nil_iff]
            intro s hs
            have hlt := hfirst (n, rec) hmem
            simpa [(hnodes s hs).1] using ne_of_lt hlt
          rw [hnone, List.nil_append]
          exact ih hshows' hsorted hmore hmem

/-- The profile is to be made. -/
def Unmade (nodes : OrdMap String NodeRecord) (l : Lxd) : Prop :=
  l.profile = none ∧ ∃ n, nodes.contains n = true ∧ l.instances n = none

theorem contains_iff {nodes : OrdMap String NodeRecord} {n : String} :
    nodes.contains n = true ↔ ∃ rec, (n, rec) ∈ nodes.entries := by
  unfold OrdMap.contains
  rw [Option.isSome_iff_exists]
  exact exists_congr fun rec => OrdMap.get?_eq_some

theorem unmade_iff {nodes : OrdMap String NodeRecord} {l : Lxd} :
    (!(observe nodes l).profile && nodes.keys.any fun n => ((observe nodes l).instances n).isNone) = true ↔
      Unmade nodes l := by
  have hkeys : ∀ n, n ∈ nodes.keys ↔ nodes.contains n = true := by
    intro n
    rw [OrdMap.mem_keys]
    exact Option.isSome_iff_exists.symm
  rw [Bool.and_eq_true, List.any_eq_true]
  refine and_congr (by simp [observe]) (exists_congr fun n => ?_)
  rw [hkeys]
  refine and_congr_right fun hn => ?_
  simp [observe, hn]

theorem plan_ok {nodes : OrdMap String NodeRecord} {l : Lxd} {steps : List Step}
    (h : plan x t nodes image install settings (observe nodes l) = .ok steps) :
    ∃ first rest, plansFor x t image install settings (observe nodes l) nodes.entries = .ok rest ∧ steps = first ++
      rest ∧
      (first = profileSteps t ∧ Unmade nodes l ∨ first = [] ∧ ¬Unmade nodes l) := by
  unfold plan at h
  dsimp only at h
  split at h
  · cases h
  · rename_i rest hrest
    cases h
    refine ⟨_, rest, hrest, rfl, ?_⟩
    by_cases hunmade : Unmade nodes l
    · exact Or.inl ⟨if_pos (unmade_iff.mpr hunmade), hunmade⟩
    · exact Or.inr ⟨if_neg fun htrue => hunmade (unmade_iff.mp htrue), hunmade⟩

/-! ## Runs -/

theorem runAll_profile (t : LxdTarget) (steps : List Step) (l : Lxd) :
    (runAll (Step.apply t) steps l).profile = runAll Step.onProfile steps l.profile := by
  induction steps generalizing l with
  | nil => rfl
  | cons s steps ih => rw [runAll_cons, runAll_cons, ih]; rfl

theorem apply_self {t : LxdTarget} {s : Step} {n : String} (h : s.node = n) (l : Lxd) :
    (s.apply t l).instances n = s.onInstance t (l.instances n) := by
  subst h
  exact Function.update_self ..

theorem apply_other {t : LxdTarget} {s : Step} {n : String} (h : s.node ≠ n) (l : Lxd) :
    (s.apply t l).instances n = l.instances n := Function.update_of_ne (Ne.symm h) ..

/-- An instance goes through the steps of its node. -/
theorem runAll_instances (t : LxdTarget) (steps : List Step) (l : Lxd) (n : String) :
    (runAll (Step.apply t) steps l).instances n =
      runAll (Step.onInstance t) (steps.filter fun s => s.node = n) (l.instances n) := by
  induction steps generalizing l with
  | nil => rfl
  | cons s steps ih =>
    rw [runAll_cons, ih, List.filter_cons]
    by_cases hnode : s.node = n
    · rw [if_pos (by simpa using hnode), runAll_cons, apply_self hnode]
    · rw [if_neg (by simpa using hnode), apply_other hnode]

theorem profileSteps_kind {t : LxdTarget} {s : Step} (h : s ∈ profileSteps t) : s.kind = .profile := by
  unfold profileSteps at h
  rw [List.mem_cons, List.mem_singleton] at h
  obtain rfl | rfl := h <;> rfl

theorem run_profileSteps (t : LxdTarget) : runAll Step.onProfile (profileSteps t) none = some true := by
  obtain ⟨remote, project⟩ := t
  cases project <;> rfl

variable {nodes : OrdMap String NodeRecord} {l : Lxd} {steps cut : List Step}

/-- A step of a plan is one of the profile's or one of a node's. -/
theorem plan_mem (h : plan x t nodes image install settings (observe nodes l) = .ok steps) {s : Step} (hs : s ∈ steps) :
    (s.kind = .profile ∧ Unmade nodes l) ∨ ∃ n rec own, nodes.contains n = true ∧ s.node = n ∧ Proper t install s ∧
      nodeSteps x t image install settings (observe nodes l) n rec = .ok own ∧ s ∈ own := by
  obtain ⟨first, rest, hrest, rfl, hfirst⟩ := plan_ok h
  rw [List.mem_append] at hs
  cases hs with
  | inl hin =>
    obtain ⟨rfl, hunmade⟩ | ⟨rfl, -⟩ := hfirst
    · exact Or.inl ⟨profileSteps_kind hin, hunmade⟩
    · cases hin
  | inr hin =>
    obtain ⟨n, rec, own, hmem, hown, hs⟩ := plansFor_mem hrest hin
    have hn : nodes.contains n = true := contains_iff.mpr ⟨rec, hmem⟩
    obtain ⟨hnode, hproper⟩ := nodeSteps_node (observe_shows l hn) hown s hs
    exact Or.inr ⟨n, rec, own, hn, hnode, hproper, hown, hs⟩

/-- The steps that a plan has for a node. -/
theorem plan_node (h : plan x t nodes image install settings (observe nodes l) = .ok steps) {n : String}
    (hn : nodes.contains n = true) :
    ∃ rec own, nodeSteps x t image install settings (observe nodes l) n rec = .ok own ∧
      (∀ i, runAll (Step.onInstance t) (steps.filter fun s => s.node = n) i = runAll (Step.onInstance t) own i) ∧
      ∀ s ∈ steps, s.node = n → s.kind = .profile ∨ s ∈ own := by
  obtain ⟨first, rest, hrest, rfl, hfirst⟩ := plan_ok h
  obtain ⟨rec, hmem⟩ := contains_iff.mp hn
  have hkind : ∀ s ∈ first, s.kind = .profile := by
    intro s hs
    obtain ⟨rfl, -⟩ | ⟨rfl, -⟩ := hfirst
    · exact profileSteps_kind hs
    · cases hs
  have hown := plansFor_filter (fun n rec hin => ⟨_, observe_shows l (contains_iff.mpr ⟨rec, hin⟩)⟩) nodes.sorted
    hrest hmem
  refine ⟨rec, _, hown, ?_, ?_⟩
  · intro i
    have hnone : ∀ s ∈ first.filter (fun s => s.node = n), ∀ i, id (s.onInstance t i) = id i :=
      fun s hs i => onInstance_profile (hkind s (List.mem_filter.mp hs).1) i
    rw [List.filter_append, runAll_append]
    have hfirst : runAll (Step.onInstance t) (first.filter fun s => s.node = n) i = i := runAll_constant hnone i
    rw [hfirst]
  · intro s hs hnode
    rw [List.mem_append] at hs
    exact hs.imp (hkind s) fun hin => List.mem_filter.mpr ⟨hin, by simpa using hnode⟩

theorem runAll_isSome {n : String} (h : (l.instances n).isSome = true) :
    ((runAll (Step.apply t) steps l).instances n).isSome = true := by
  rw [runAll_instances]
  exact runAll_keeps (P := fun i : Option Instance => i.isSome = true) (fun s _ i hi => onInstance_isSome s hi) h

/-- A node that is done is left alone. -/
theorem run_done (h : plan x t nodes image install settings (observe nodes l) = .ok steps) (hcut : cut <+: steps)
    {n : String} (hn : nodes.contains n = true) (hdone : Done (l.instances n)) :
    (runAll (Step.apply t) cut l).instances n = l.instances n := by
  obtain ⟨rec, own, hown, -, hmem⟩ := plan_node h hn
  rw [nodeSteps_done (observe_shows l hn) hdone] at hown
  cases hown
  rw [runAll_instances]
  have hnone : ∀ s ∈ cut.filter (fun s => s.node = n), ∀ i, id (s.onInstance t i) = id i := by
    intro s hs i
    obtain ⟨hs, hnode⟩ := List.mem_filter.mp hs
    obtain hkind | hin := hmem s (hcut.subset hs) (by simpa using hnode)
    · exact onInstance_profile hkind i
    · cases hin
  exact runAll_constant hnone _

/-- Without a profile to be made, the profile stays as it is. -/
theorem run_profile (h : plan x t nodes image install settings (observe nodes l) = .ok steps) (hcut : cut <+: steps)
    (hmade : ¬Unmade nodes l) : (runAll (Step.apply t) cut l).profile = l.profile := by
  rw [runAll_profile]
  have hkept : ∀ s ∈ cut, ∀ p, id (s.onProfile p) = id p := by
    intro s hs p
    obtain ⟨-, hunmade⟩ | ⟨n, rec, own, -, -, hproper, -⟩ := plan_mem h (hcut.subset hs)
    · exact absurd hunmade hmade
    · exact hproper.onProfile p
  exact runAll_constant hkept _

theorem plan_settled (h : plan x t nodes image install settings (observe nodes l) = .ok steps) {s : Step}
    (hs : s ∈ steps) (l' : Lxd) : finish nodes install (s.apply t l') = finish nodes install l' := by
  have hinstances : ∀ n, (finish nodes install (s.apply t l')).instances n = (finish nodes install l').instances n := by
    intro n
    obtain ⟨hkind, -⟩ | ⟨n', rec, own, hn', hnode, hproper, -⟩ := plan_mem h hs
    · have hsame : (s.apply t l').instances = l'.instances := by
        rw [Step.apply, onInstance_profile hkind, Function.update_eq_self]
      simp only [finish, hsame]
    · by_cases hsame : n = n'
      · subst hsame
        simp only [finish, hn', if_true, apply_self hnode, hproper.finished]
      · have hother : s.node ≠ n := fun heq => hsame (heq.symm.trans hnode)
        simp only [finish, apply_other hother]
  exact Lxd.ext rfl (funext hinstances)

theorem plan_finishes (h : plan x t nodes image install settings (observe nodes l) = .ok steps)
    (hnoticed : Noticed nodes install l) : runAll (Step.apply t) steps l = finish nodes install l := by
  have hprofile : (runAll (Step.apply t) steps l).profile = some true := by
    by_cases hunmade : Unmade nodes l
    · obtain ⟨first, rest, hrest, hsteps, hfirst⟩ := plan_ok h
      obtain ⟨rfl, -⟩ | ⟨-, hmade⟩ := hfirst
      · rw [runAll_profile, hunmade.1, hsteps, runAll_append, run_profileSteps]
        refine runAll_keeps (P := fun p => p = some true) (fun s hs p hp => ?_) rfl
        obtain ⟨n, rec, own, hmem, hown, hs⟩ := plansFor_mem hrest hs
        have hn : nodes.contains n = true := contains_iff.mpr ⟨rec, hmem⟩
        rw [(nodeSteps_node (observe_shows l hn) hown s hs).2.onProfile, hp]
      · exact absurd hunmade hmade
    · rw [run_profile h List.prefix_rfl hunmade]
      exact hnoticed.profile.resolve_right hunmade
  have hinstances : ∀ n, (runAll (Step.apply t) steps l).instances n = (finish nodes install l).instances n := by
    intro n
    by_cases hn : nodes.contains n = true
    · have hseen := hnoticed.instances n hn
      have hgoal : (finish nodes install l).instances n = some (install.finished (l.instances n)) := if_pos hn
      rw [hgoal]
      by_cases hdone : Done (l.instances n)
      · rw [run_done h List.prefix_rfl hn hdone]
        exact finished_of_done hdone hseen
      · obtain ⟨rec, own, hown, hrun, -⟩ := plan_node h hn
        rw [nodeSteps_undone (observe_shows l hn) hdone] at hown
        rw [runAll_instances, hrun]
        cases hpreseed : nodePreseed x settings n with
        | error e =>
          rw [hpreseed] at hown
          cases hown
        | ok stdin =>
          rw [hpreseed] at hown
          cases hown
          exact run_undoneSteps (observe_shows l hn) hdone hseen rec stdin
    · have hgoal : (finish nodes install l).instances n = l.instances n := if_neg hn
      rw [hgoal, runAll_instances]
      have hnone : ∀ s ∈ steps.filter (fun s => s.node = n), ∀ i, id (s.onInstance t i) = id i := by
        intro s hs i
        obtain ⟨hs, hnode⟩ := List.mem_filter.mp hs
        obtain ⟨hkind, -⟩ | ⟨n', rec, own, hn', hnode', -⟩ := plan_mem h hs
        · exact onInstance_profile hkind i
        · have hsame : n' = n := hnode'.symm.trans (by simpa using hnode)
          exact absurd (hsame ▸ hn') hn
      exact runAll_constant hnone _
  exact Lxd.ext hprofile (funext hinstances)

theorem plan_hides (h : plan x t nodes image install settings (observe nodes l) = .ok steps) (hcut : cut <+: steps)
    (hnoticed : Noticed nodes install (runAll (Step.apply t) cut l)) : Noticed nodes install l := by
  constructor
  · by_contra hunseen
    rw [not_or] at hunseen
    have hmade : ¬Unmade nodes l := hunseen.2
    obtain hset | ⟨hnone, n, hn, hmissing⟩ := hnoticed.profile
    · rw [run_profile h hcut hmade] at hset
      exact hunseen.1 hset
    · rw [run_profile h hcut hmade] at hnone
      cases hi : l.instances n with
      | none => exact hmade ⟨hnone, n, hn, hi⟩
      | some i =>
        have hthere : (l.instances n).isSome = true := by
          rw [hi]
          rfl
        have hsome : ((runAll (Step.apply t) cut l).instances n).isSome = true := runAll_isSome hthere
        rw [hmissing] at hsome
        cases hsome
  · intro n hn
    have hseen := hnoticed.instances n hn
    by_cases hdone : Done (l.instances n)
    · rw [run_done h hcut hn hdone] at hseen
      exact hseen
    · obtain ⟨rec, own, hown, -, hmem⟩ := plan_node h hn
      rw [nodeSteps_undone (observe_shows l hn) hdone] at hown
      rw [runAll_instances] at hseen
      cases hpreseed : nodePreseed x settings n with
      | error e =>
        rw [hpreseed] at hown
        cases hown
      | ok stdin =>
        rw [hpreseed] at hown
        cases hown
        have hin : ∀ s ∈ cut.filter (fun s => s.node = n),
            s.kind = .profile ∨ s ∈ undoneSteps x t image install (observe nodes l) n rec stdin := by
          intro s hs
          obtain ⟨hs, hnode⟩ := List.mem_filter.mp hs
          exact hmem s (hcut.subset hs) (by simpa using hnode)
        exact seen_of_run (observe_shows l hn) hdone hin hseen

theorem plan_again (h : plan x t nodes image install settings (observe nodes l) = .ok steps) (hcut : cut <+: steps) :
    ∃ more, plan x t nodes image install settings (observe nodes (runAll (Step.apply t) cut l)) = .ok more := by
  have hnodes : ∃ rest, plansFor x t image install settings (observe nodes (runAll (Step.apply t) cut l))
    nodes.entries =
      .ok rest := by
    rw [plansFor_ok_iff]
    intro n rec hmem
    have hn : nodes.contains n = true := contains_iff.mpr ⟨rec, hmem⟩
    by_cases hdone : Done ((runAll (Step.apply t) cut l).instances n)
    · exact ⟨[], nodeSteps_done (observe_shows _ hn) hdone rec⟩
    · have hbefore : ¬Done (l.instances n) := by
        intro hdone'
        rw [run_done h hcut hn hdone'] at hdone
        exact hdone hdone'
      obtain ⟨rec', own, hown, -⟩ := plan_node h hn
      rw [nodeSteps_undone (observe_shows l hn) hbefore] at hown
      rw [nodeSteps_undone (observe_shows _ hn) hdone]
      cases hpreseed : nodePreseed x settings n with
      | error e =>
        rw [hpreseed] at hown
        cases hown
      | ok stdin => exact ⟨_, rfl⟩
  obtain ⟨rest, hrest⟩ := hnodes
  unfold plan
  simp only [hrest]
  exact ⟨_, rfl⟩

theorem plan_rests (l : Lxd) :
    plan x t nodes image install settings (observe nodes (finish nodes install l)) = .ok [] := by
  have hnil : ∀ entries : List (String × NodeRecord), (∀ n rec, (n, rec) ∈ entries → nodes.contains n = true) →
      plansFor x t image install settings (observe nodes (finish nodes install l)) entries = .ok [] := by
    intro entries hall
    induction entries with
    | nil => rfl
    | cons e entries ih =>
      obtain ⟨n, rec⟩ := e
      have hn := hall n rec (List.mem_cons_self ..)
      have hinstance : (finish nodes install l).instances n = some (install.finished (l.instances n)) := if_pos hn
      have hdone : Done ((finish nodes install l).instances n) := ⟨_, hinstance, rfl, rfl, rfl⟩
      unfold plansFor
      simp only [nodeSteps_done (observe_shows _ hn) hdone,
        ih fun n rec hmem => hall n rec (List.mem_cons_of_mem _ hmem), List.nil_append]
  unfold plan
  rw [hnil nodes.entries fun n rec hmem => contains_iff.mpr ⟨rec, hmem⟩]
  rfl

theorem provisioned_finish (l : Lxd) : Provisioned nodes install (finish nodes install l) := by
  refine ⟨rfl, fun n hn => ⟨_, if_pos hn, rfl, rfl, rfl, fun hsnap => ?_, fun hdeb => ?_⟩⟩
  · simp only [Install.finished, Install.finish, hsnap, if_true]
    exact Finset.subset_union_right
  · simp only [Install.finished, Install.finish, hdeb, Bool.not_false, Bool.true_or]

theorem Provisioned.noticed {l : Lxd} (h : Provisioned nodes install l) : Noticed nodes install l := by
  refine ⟨Or.inl h.profile, fun n hn => ?_⟩
  obtain ⟨i, hi, hready⟩ := h.instances n hn
  rw [hi]
  refine ⟨?_, ?_, fun _ => ⟨i, rfl, hready.installed⟩⟩
  · intro j hj _ _ hdeb
    cases hj
    exact hready.enabled hdeb
  · intro j hj _ _ _ hsnap
    cases hj
    exact hready.connected hsnap

theorem plan_resumable (x : Outside) (t : LxdTarget) (nodes : OrdMap String NodeRecord) (image : String)
    (install : Install) (settings : DaemonSettings) :
    Resumable (Step.apply t) (fun l => plan x t nodes image install settings (observe nodes l)) (finish nodes install)
      (Noticed nodes install) (Provisioned nodes install) where
  settled _ _ h _ ha l' := plan_settled h ha l'
  finishes _ _ h hnoticed := plan_finishes h hnoticed
  hides _ _ _ h hcut hnoticed := plan_hides h hcut hnoticed
  again _ _ _ h hcut := plan_again h hcut
  rests l := plan_rests l
  goal l := provisioned_finish l
  noticed _ h := h.noticed

/-- Provisioning resumes to the same end exactly when the interruption left nothing undone that is not seen. -/
theorem resumes_iff (x : Outside) (t : LxdTarget) (nodes : OrdMap String NodeRecord) (image : String)
    (install : Install) (settings : DaemonSettings) (l : Lxd) (steps cut : List Step)
    (hplan : plan x t nodes image install settings (observe nodes l) = .ok steps) (hcut : cut <+: steps) :
    Resumes (Step.apply t) (fun l => plan x t nodes image install settings (observe nodes l))
      (Provisioned nodes install) l
      steps cut ↔ Noticed nodes install (runAll (Step.apply t) cut l) :=
  (plan_resumable x t nodes image install settings).completes_iff hplan hcut

/-! ## A profile without nesting -/

/-- The serializer, for settings that are the default but for their names. -/
def plainYaml : Outside where
  preseedYaml settings :=
    let node := settings.nodeName.getD ""
    .ok (s!"mode: local\ndaemon:\n  subnet: {settings.subnet}\n  bridge: {settings.bridge}\n" ++
      s!"  root_mode: auto\n  group: {settings.group}\n  node_name: {node}\n")
  ceil _ := 0

def oneNode : OrdMap String NodeRecord := OrdMap.ofList [("n1", {})]

/-- Nothing is there yet. -/
def bare : Lxd := ⟨none, fun _ => none⟩

def planBare (l : Lxd) : Result (List Step) :=
  plan plainYaml {} oneNode "ubuntu:24.04" (.channel "latest/stable") {} (observe oneNode l)

def stepsBare : List Step := (planBare bare).toOption.getD []

theorem planBare_ok : planBare bare = .ok stepsBare := by decide +kernel

/-- The steps up to the one that makes the profile. -/
def cutBare : List Step := stepsBare.take 1

theorem resumes_iff_bare :
    Resumes (Step.apply {}) planBare (Provisioned oneNode (.channel "latest/stable")) bare stepsBare
    cutBare ↔ Noticed oneNode (.channel "latest/stable") (runAll (Step.apply {}) cutBare bare) :=
  resumes_iff plainYaml {} oneNode "ubuntu:24.04" (.channel "latest/stable") {} bare stepsBare cutBare planBare_ok
    (List.take_prefix ..)

/-- After the step that makes the profile, no plan sets nesting in it. -/
theorem bare_not_resumed : planBare bare = .ok stepsBare ∧ cutBare <+: stepsBare ∧
    ¬Resumes (Step.apply {}) planBare (Provisioned oneNode (.channel "latest/stable")) bare stepsBare cutBare := by
  refine ⟨planBare_ok, List.take_prefix .., fun h => ?_⟩
  obtain ⟨more, hmore, hsame, hgoal, -⟩ := h
  have hplanned : planBare (runAll (Step.apply {}) cutBare bare) = .ok (stepsBare.drop 2) := by decide +kernel
  have hend : (runAll (Step.apply {}) (stepsBare.drop 2) (runAll (Step.apply {}) cutBare bare)).profile =
    some false := by
    decide +kernel
  obtain rfl : stepsBare.drop 2 = more := Except.ok.inj (hplanned.symm.trans hmore)
  rw [hsame, hgoal.profile] at hend
  cases hend

end Collocate.Cluster
