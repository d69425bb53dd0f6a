import Collocate.Net.Netcfg
import Collocate.Daemon.Apart
import Collocate.Daemon.Loop
import Collocate.Store.Views

/-! # Containers on one host

Of the host, what containers have there: pairs of interfaces, control groups, directories under the run
directory and merged roots. Everything else may behave as it likes. A container that starts or ends leaves
alone what others have, as long as no interface of theirs has the name of one of its own. -/
namespace Collocate.Daemon
set_option autoImplicit false
open Netcfg

/-! ## The host -/

/-- The directories of a container under the run directory. -/
structure RunDirs where
  hosts : Option Ipv4Addr := none
  secrets : List (String × String) := []
  runtime : Option (Option HealthState) := none
  deriving DecidableEq

/-- Each by the name it goes by, the interfaces apart. -/
structure Host where
  links : List Veth := []
  cgroups : String → Option Limits := fun _ => none
  dirs : String → Option RunDirs := fun _ => none
  merged : String → Bool := fun _ => false

namespace Host

def changeDirs (h : Host) (id : ContainerId) (change : RunDirs → RunDirs) : Host :=
  { h with dirs := Function.update h.dirs id.display ((h.dirs id.display).map change) }

/-- What an action does to the host. -/
def after (h : Host) : Act → Host
  | .createDirs id => { h with dirs := Function.update h.dirs id.display (some ((h.dirs id.display).getD {})) }
  | .writeHostFiles id addr => h.changeDirs id fun r => { r with hosts := some addr }
  | .writeSecret id project name => h.changeDirs id fun r => { r with secrets := r.secrets ++ [(project, name)] }
  | .writeRuntime id health => h.changeDirs id fun r => { r with runtime := some health }
  | .removeRuntimeDirs id => { h with dirs := Function.update h.dirs id.display none }
  | .fuseOverlay id => { h with merged := Function.update h.merged id.display true }
  | .umountFuse id => { h with merged := Function.update h.merged id.display false }
  | .createCgroup id limits => { h with cgroups := Function.update h.cgroups id.display (some limits) }
  | .removeCgroup id => { h with cgroups := Function.update h.cgroups id.display none }
  | .teardownVeth id => { h with links := (kernel h.links (teardownVeth id)).toOption.getD h.links }
  | .deleteVeth name => { h with links := h.links.filter fun v => v.host != name }
  | _ => h

end Host

/-- How far a launch that fails on its own comes: not to the interfaces, not to a process, or to one. -/
inductive Reach
  | early
  | attached
  | started (pid : ℤ)

/-- What the host's ways depend on: which commands fail by themselves and with what words, how far failing
launches come, and whether a failing action took effect. -/
structure Ways (τ : Type) where
  bridge : String
  prefixLen : UInt8
  gateway : Ipv4Addr
  fails : Cmd → τ → Option String
  reach : Spec → τ → Reach
  took : Act → τ → Bool

section World
variable {τ : Type} (base : World τ) (ways : Ways τ)

def Ways.net (spec : Spec) : NetSetup := ⟨ways.bridge, spec.net.addr.getD ⟨0⟩, ways.prefixLen, ways.gateway⟩

/-- The part of `spawn` that is about interfaces, with the outcome of the rest. -/
def Ways.attaching (spec : Spec) (t : τ) (outcome : Result ℤ) : Net ℤ :=
  let fails := fun c => ways.fails c t
  match outcome with
  | .ok pid => do
    attach fails spec.id (ways.net spec)
    setup fails spec.id pid (ways.net spec)
    pure pid
  | .error e =>
    match ways.reach spec t with
    | .early => Eff.throw e
    | .attached => do
      attach fails spec.id (ways.net spec)
      Eff.throw e
    | .started pid => do
      attach fails spec.id (ways.net spec)
      setup fails spec.id pid (ways.net spec)
      Eff.throw e

def Ways.spawn (spec : Spec) : Prog (Host × τ) ℤ := fun p =>
  let run := base.spawn spec p.2
  let attached := ways.attaching spec p.2 run.1 p.1.links
  (attached.1, { p.1 with links := attached.2 }, run.2)

def Ways.act (a : Act) : Prog (Host × τ) Unit := fun p =>
  let run := base.act a p.2
  let host := match run.1 with
    | .ok () => p.1.after a
    | .error _ => if ways.took a p.2 then p.1.after a else p.1
  (run.1, host, run.2)

/-- Any world, with the host in it. -/
def hosting : World (Host × τ) where
  now := beside base.now
  act := ways.act base
  write change := beside (base.write change)
  lowers root := beside (base.lowers root)
  spawn := ways.spawn base
  wait token := beside (base.wait token)
  tcpCheck addr port := beside (base.tcpCheck addr port)
  httpCheck addr port path := beside (base.httpCheck addr port path)
  pebbleHealth id level := beside (base.pebbleHealth id level)
  stats id := beside (base.stats id)
  adoptPid id := beside (base.adoptPid id)
  savedLbs := beside base.savedLbs
  observe := beside base.observe
  serve request := beside (base.serve request)
  cpusMilli := base.cpusMilli
  sha256 := base.sha256

end World

/-! ## What a container has -/

structure Belongings where
  links : List Veth
  cgroup : Option Limits
  dirs : Option RunDirs
  merged : Bool
  fuse : Bool
  addr : Option Ipv4Addr
  deriving DecidableEq

def belongings {τ : Type} (id : ContainerId) (d : State (Host × τ)) : Belongings where
  links := linksOf id d.outer.1.links
  cgroup := d.outer.1.cgroups id.display
  dirs := d.outer.1.dirs id.display
  merged := d.outer.1.merged id.display
  fuse := d.fuseProcs id
  addr := d.ipam.byOwner id.display

section Apart
variable {τ : Type} {id other : ContainerId} (hne : id ≠ other) (hnames : Distinct id other)
include hne hnames

theorem after_apart {a : Act} (ha : a.About id) (h : Host) :
    linksOf other (h.after a).links = linksOf other h.links ∧
      (h.after a).cgroups other.display = h.cgroups other.display ∧
      (h.after a).dirs other.display = h.dirs other.display ∧
        (h.after a).merged other.display = h.merged other.display := by
  have hdisplay : other.display ≠ id.display := fun heq => hne (Store.display_injective heq).symm
  have hdirs (dirs : Option RunDirs) : Function.update h.dirs id.display dirs other.display = h.dirs other.display :=
    Function.update_of_ne hdisplay ..
  cases a with
  | createDirs | removeRuntimeDirs =>
    subst ha
    dsimp only [Host.after]
    exact ⟨rfl, rfl, hdirs _, rfl⟩
  | writeHostFiles | writeSecret | writeRuntime =>
    subst ha
    dsimp only [Host.after, Host.changeDirs]
    exact ⟨rfl, rfl, hdirs _, rfl⟩
  | fuseOverlay | umountFuse =>
    subst ha
    dsimp only [Host.after]
    exact ⟨rfl, rfl, rfl, Function.update_of_ne hdisplay ..⟩
  | createCgroup | removeCgroup =>
    subst ha
    dsimp only [Host.after]
    exact ⟨rfl, Function.update_of_ne hdisplay .., rfl, rfl⟩
  | teardownVeth id' =>
    subst ha
    dsimp only [Host.after]
    refine ⟨?_, rfl, rfl, rfl⟩
    cases hkernel : kernel h.links (teardownVeth id') with
    | ok links => exact kernel_apart hne hnames (c := teardownVeth id') rfl hkernel
    | error => rfl
  | deleteVeth => exact ha.elim
  | _ => exact ⟨rfl, rfl, rfl, rfl⟩

theorem quiet_attaching (ways : Ways τ) {spec : Spec} (hid : spec.id = id) (t : τ) (outcome : Result ℤ) :
    Quiet (linksOf other) (ways.attaching spec t outcome) := by
  have hattach := quiet_attach (fun c => ways.fails c t) hne hnames (ways.net spec)
  have hsetup (pid : ℤ) := quiet_setup (fun c => ways.fails c t) hne hnames pid (ways.net spec)
  unfold Ways.attaching
  rw [hid]
  cases outcome with
  | ok pid => exact hattach.bind fun _ => (hsetup pid).bind fun _ => Quiet.pure _
  | error e =>
    cases ways.reach spec t with
    | early => exact Quiet.throw e
    | attached => exact hattach.bind fun _ => Quiet.throw e
    | started pid => exact hattach.bind fun _ => (hsetup pid).bind fun _ => Quiet.throw e

theorem apart_belongings (base : World τ) (ways : Ways τ) : Apart (hosting base ways) (belongings other) id where
  now _ := rfl
  acts a d ha := by
    have hafter := after_apart hne hnames ha d.outer.1
    have hsame : belongings other { d with outer := (d.outer.1.after a, (base.act a d.outer.2).2) } =
      belongings other d :=
      Belongings.mk.injEq .. ▸ ⟨hafter.1, hafter.2.1, hafter.2.2.1, hafter.2.2.2, rfl, rfl⟩
    show belongings other { d with outer := ((ways.act base a d.outer).2.1, (base.act a d.outer.2).2) } = _
    unfold Ways.act
    dsimp only
    split
    · exact hsame
    · split
      · exact hsame
      · rfl
  write _ _ := rfl
  roots _ _ := rfl
  spawn spec d hid := by
    have hlinks := (quiet_attaching hne hnames ways hid d.outer.2 (base.spawn spec d.outer.2).1).eq d.outer.1.links
    exact Belongings.mk.injEq .. ▸ ⟨hlinks, rfl, rfl, rfl, rfl, rfl⟩
  wait _ _ := rfl
  within d d' houter hfuse hipam := by
    have hdisplay : other.display ≠ id.display := fun heq => hne (Store.display_injective heq).symm
    unfold belongings
    rw [houter, hfuse other hne.symm, hipam other.display hdisplay]

end Apart

/-! ## Starting and ending one container -/

/-- What may happen to a container: a launch, well or not, its exit, its removal, and its end for being idle. -/
inductive Turn
  | launch (spec : Spec)
  | exit (code : Option ℤ)
  | remove
  | reapIdle

def Turn.run {σ : Type} (w : World σ) (id : ContainerId) : Turn → Op σ Unit
  | .launch spec => Collocate.Daemon.launch w { spec with id }
  | .exit code => onExit w id code
  | .remove => purge w id
  | .reapIdle => Collocate.Daemon.reapIdle w id

theorem Apart.quiet_turn {σ C : Type} {w : World σ} {view : State σ → C} {id : ContainerId} (h : Apart w view id)
    (turn : Turn) :
    Quiet view (turn.run w id) := by
  cases turn with
  | launch spec => exact h.quiet_launch rfl
  | exit code => exact (h.silent_onExit code).quiet
  | remove => exact h.quiet_purge
  | reapIdle => exact h.silent_reapIdle.quiet

/-! ## A launch without a process -/

/-- Everything works but that no process starts. -/
def barrenWorld : World ℕ := { workingWorld with spawn := fun _ => Eff.throw (.internal "clone: EAGAIN") }

def plainWays : Ways ℕ where
  bridge := "collocate0"
  prefixLen := 16
  gateway := ⟨0xac1e0001⟩
  fails _ _ := none
  reach _ _ := .early
  took _ _ := false

/-- The host has one pair of interfaces, that of a container that runs. -/
def neighbourly (other : ContainerId) : State (Host × ℕ) :=
  blank ({ links := [⟨other, true⟩] }, 0) {} .empty .overlay

def addressed (id : ContainerId) : Spec := { webSpec with id, net := { addr := some ⟨0xac1e0009⟩ } }

theorem reserve_fresh (owner : String) : ∃ ipam, (Ipam.new defaultSubnet).reserve ⟨0xac1e0009⟩ owner = .ok ipam := by
  unfold Ipam.reserve
  rw [if_neg (by decide +kernel)]
  exact ⟨_, rfl⟩

section Barren
variable (id : ContainerId) (d : State (Host × ℕ))

theorem barren_root (hd : d.rootMode = .overlay) : prepareRoot (hosting barrenWorld plainWays) (addressed id) d =
    (.ok (), { d with outer := (d.outer.1.after (.createDirs id), d.outer.2) }) := by
  cases d
  subst hd
  rfl

theorem barren_place (hd : d.ipam = Ipam.new defaultSubnet) :
    ∃ ipam, place (hosting barrenWorld plainWays) (addressed id) d =
    (.ok ⟨0xac1e0009⟩, { d with outer := (d.outer.1.after (.writeHostFiles id ⟨0xac1e0009⟩), d.outer.2), ipam }) := by
  obtain ⟨ipam, hreserve⟩ := reserve_fresh id.display
  have hassign : assignAddress (addressed id) d = (.ok ⟨0xac1e0009⟩, { d with ipam }) := by
    show (do
      let ipam ← Eff.lift (d.ipam.reserve ⟨0xac1e0009⟩ id.display)
      Eff.modify fun d => { d with ipam }
      pure _ : Op (Host × ℕ) Ipv4Addr) d = _
    rw [hd, hreserve]
    rfl
  refine ⟨ipam, ?_⟩
  unfold place
  rw [Eff.bind_of_ok hassign]
  rfl

theorem barren_try (a : Act) : tryAct (hosting barrenWorld plainWays) a d =
    (.ok (), { d with outer := (d.outer.1.after a, d.outer.2) }) := rfl

theorem barren_cleanup (hfuse : d.fuseProcs = fun _ => false) : ∃ host,
    cleanupRuntime (hosting barrenWorld plainWays) id d = (.ok (), { d with outer := (host, d.outer.2) }) ∧
      host.links = (kernel d.outer.1.links (teardownVeth id)).toOption.getD d.outer.1.links := by
  let host := (((d.outer.1.after (.killCgroup id)).after (.removeCgroup id)).after (.teardownVeth id)).after
    (.removeRuntimeDirs id)
  have hlinks : host.links = (kernel d.outer.1.links (teardownVeth id)).toOption.getD d.outer.1.links := by
    simp only [host, Host.after]
  refine ⟨host, ?_, hlinks⟩
  unfold cleanupRuntime
  rw [Eff.bind_of_ok (barren_try _ _), Eff.bind_of_ok (barren_try _ _), Eff.bind_of_ok (barren_try _ _)]
  unfold removeRuntimeDirs
  rw [Eff.get_bind_apply, if_neg (by simp [hfuse])]
  exact barren_try _ _

theorem barren_prepare (hcfg : d.cfg = {}) (hmode : d.rootMode = .overlay) (hipam : d.ipam = Ipam.new defaultSubnet)
    (hfuse : d.fuseProcs = fun _ => false) :
    ∃ d', prepareLaunch (hosting barrenWorld plainWays) (addressed id) d = (.error (.internal "clone: EAGAIN"), d') ∧
      d'.outer.1.links = (kernel d.outer.1.links (teardownVeth id)).toOption.getD d.outer.1.links := by
  have hsubnet : Subnet.parse d.cfg.subnet = .ok ⟨0xac1e0000, 16⟩ := by
    rw [hcfg]
    decide +kernel
  have hspawn (e : State (Host × ℕ)) :
    outside ((hosting barrenWorld plainWays).spawn (placedAt (addressed id) ⟨0xac1e0009⟩)) e =
      (.error (.internal "clone: EAGAIN"), e) := rfl
  obtain ⟨ipam, hplace⟩ := barren_place id { d with outer := (d.outer.1.after (.createDirs id), d.outer.2) } hipam
  let host := ((d.outer.1.after (.createDirs id)).after (.writeHostFiles id ⟨0xac1e0009⟩)).after
    (.createCgroup id (addressed id).limits)
  have hhost : host.links = d.outer.1.links := by simp only [host, Host.after, Host.changeDirs]
  obtain ⟨gone, hcleanup, hgone⟩ := barren_cleanup id { d with outer := (host, d.outer.2), ipam } hfuse
  refine ⟨{ d with outer := (gone, d.outer.2), ipam }, ?_, hhost ▸ hgone⟩
  unfold prepareLaunch
  rw [Eff.bind_of_ok (barren_root id d hmode), Eff.bind_of_ok hplace]
  show (Eff.lift (Subnet.parse d.cfg.subnet) >>= fun _ => _) { d with outer := (host, d.outer.2), ipam } = _
  rw [hsubnet, Eff.lift_ok_bind, Eff.bind_of_ok (Eff.attempt_of (hspawn _))]
  show (cleanupRuntime (hosting barrenWorld plainWays) id >>= fun _ => Eff.throw _) _ = _
  rw [Eff.bind_of_ok hcleanup]
  rfl

end Barren

theorem launch_of_error {σ : Type} {w : World σ} {spec : Spec} {d d' : State σ} {e : Error}
    (h : prepareLaunch w spec { d with log := d.log ++ [.launching spec.id] } = (.error e, d')) :
      launch w spec d = (.error e, d') := by
  unfold launch
  rw [Eff.bind_of_ok (show note (.launching spec.id) d = (.ok (),
    { d with log := d.log ++ [.launching spec.id] }) from rfl),
    Eff.bind_of_error h]

theorem barren_launch (id other : ContainerId) :
    (launch (hosting barrenWorld plainWays) (addressed id) (neighbourly other)).2.outer.1.links =
      (kernel [⟨other, true⟩] (teardownVeth id)).toOption.getD [⟨other, true⟩] := by
  obtain ⟨d, hprepare, hlinks⟩ := barren_prepare id { neighbourly other with log := [.launching id] } rfl rfl rfl rfl
  rw [launch_of_error hprepare]
  exact hlinks

/-- What was made for a container goes when a launch of another one fails that is named like it. -/
theorem barren_cuts {id other : ContainerId} (hsame : id.val / 2 ^ 8 = other.val / 2 ^ 8) :
    (belongings other (launch (hosting barrenWorld plainWays) (addressed id) (neighbourly other)).2).links = [] := by
  have hhost : (Veth.mk other true).host = (vethNames id).1 := (veth_host_iff.mpr hsame).symm
  unfold belongings
  rw [barren_launch, kernel_del_all fun v hv => List.mem_singleton.mp hv ▸ hhost]
  rfl

/-! ## Which neighbours are left alone -/

/-- Whatever the world does, a container is left alone by whatever happens to another one if and only if the ids
differ in their first ten digits; so do the names of the interfaces. -/
theorem neighbours_kept_iff {id other : ContainerId} (hne : id ≠ other) :
    ((∀ (τ : Type) (base : World τ) (ways : Ways τ) (turn : Turn) (d : State (Host × τ)),
      belongings other (turn.run (hosting base ways) id d).2 = belongings other d) ↔
        id.val / 2 ^ 8 ≠ other.val / 2 ^ 8) ∧
    (Distinct id other ↔ id.val / 2 ^ 8 ≠ other.val / 2 ^ 8) := by
  refine ⟨⟨fun hkept hsame => ?_, fun hdiffer τ base ways turn d => ?_⟩, distinct_iff⟩
  · have hlinks : (belongings other
      (launch (hosting barrenWorld plainWays) (addressed id) (neighbourly other)).2).links =
        (belongings other (neighbourly other)).links :=
      congrArg Belongings.links (hkept ℕ barrenWorld plainWays (.launch (addressed id)) (neighbourly other))
    have hown : (belongings other (neighbourly other)).links = [⟨other, true⟩] := by
      show linksOf other [⟨other, true⟩] = _
      simp [linksOf]
    rw [barren_cuts hsame, hown] at hlinks
    cases hlinks
  · exact ((apart_belongings hne (distinct_iff.mpr hdiffer) base ways).quiet_turn turn).eq d

theorem neighbours_apart :
    ((∀ (τ : Type) (base : World τ) (ways : Ways τ) (turn : Turn) (d : State (Host × τ)),
      belongings 0x107 (turn.run (hosting base ways) 7 d).2 = belongings 0x107 d) ↔
        (7 : ContainerId).val / 2 ^ 8 ≠ (0x107 : ContainerId).val / 2 ^ 8) ∧
    (Distinct 7 0x107 ↔ (7 : ContainerId).val / 2 ^ 8 ≠ (0x107 : ContainerId).val / 2 ^ 8) :=
  @neighbours_kept_iff 7 0x107 (by decide)

/-- The daemon has run `webSpec`, with the id 7; everything works. -/
def settled : State (Host × ℕ) :=
  let w := hosting workingWorld plainWays
  (opRun w webSpec (boot w (blank ({}, 0) {} .empty .overlay)).2).2

def intruder : Spec := { webSpec with id := 9, name := "other", net := {} }

/-- Running a second container, with the id 9, fails and takes away the interface of the first, which still runs. -/
theorem intruder_cuts :
    settled.live.contains 7 = true ∧ (belongings 7 settled).links = [⟨7, true⟩] ∧
      (opRun (hosting workingWorld plainWays) intruder settled).1 =
        .error (.internal "ip link set vc0000000000 netns 42 failed: Cannot find device \"vc0000000000\"") ∧
      (opRun (hosting workingWorld plainWays) intruder settled).2.live.contains 7 = true ∧
      (belongings 7 (opRun (hosting workingWorld plainWays) intruder settled).2).links = [] := by
  refine ⟨by decide +kernel, by decide +kernel, by decide +kernel, by decide +kernel, by decide +kernel⟩

end Collocate.Daemon
