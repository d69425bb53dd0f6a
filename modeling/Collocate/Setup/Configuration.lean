import Collocate.Net.IpamChecked
import Collocate.Setup.Settings

/-! # The configuration file (`collocated/src/config.rs`, `collocated/src/setup.rs`)

How a configuration is read, and how settings are written into it. -/
namespace Collocate.Setup
set_option autoImplicit false

/-! ## The configuration -/

/-- Where the files of an installation are. -/
structure Layout where
  stateDir : String
  runDir : String
  initSrc : String
  snap : Bool

structure Config where
  stateDir : String
  runDir : String
  subnet : String
  bridge : String
  rootMode : RootModeSetting
  initPath : String
  cgroupRoot : String
  cgroupSlice : String
  nodeName : Option String
  group : String
  moveSelfToSupervisor : Bool
  nameserverFiles : List String
  defaults : Defaults
  httpsAddress : Option String
  deriving DecidableEq

namespace Config

def fromSettings (layout : Layout) (s : DaemonSettings) : Config where
  stateDir := layout.stateDir
  runDir := layout.runDir
  subnet := s.subnet
  bridge := s.bridge
  rootMode := s.rootMode
  initPath := layout.initSrc
  cgroupRoot := "/sys/fs/cgroup"
  cgroupSlice := "collocate.slice"
  nodeName := s.nodeName
  group := s.group
  moveSelfToSupervisor := !layout.snap
  nameserverFiles := ["/run/systemd/resolve/resolv.conf", "/etc/resolv.conf"]
  defaults := s.defaults
  httpsAddress := s.httpsAddress

def withLayout (layout : Layout) : Config := fromSettings layout {}

def settings (c : Config) : DaemonSettings where
  subnet := c.subnet
  bridge := c.bridge
  rootMode := c.rootMode
  group := c.group
  nodeName := c.nodeName
  defaults := c.defaults
  httpsAddress := c.httpsAddress

def keys : List String :=
  ["state_dir", "run_dir", "subnet", "bridge", "root_mode", "init_path", "cgroup_root", "cgroup_slice", "node_name",
    "group", "move_self_to_supervisor", "nameserver_files", "defaults", "https_address"]

/-- The configuration a table stands for: a key that is not known is refused, and a field that is absent is that of
the layout. -/
def ofTable (layout : Layout) (t : Toml.Table F64) : Option Config :=
  let d := withLayout layout
  if t.keys.all (keys.contains ·) then do
    let stateDir ← fieldOf (t.get? "state_dir") stringOf d.stateDir
    let runDir ← fieldOf (t.get? "run_dir") stringOf d.runDir
    let subnet ← fieldOf (t.get? "subnet") stringOf d.subnet
    let bridge ← fieldOf (t.get? "bridge") stringOf d.bridge
    let rootMode ← fieldOf (t.get? "root_mode") rootModeOf d.rootMode
    let initPath ← fieldOf (t.get? "init_path") stringOf d.initPath
    let cgroupRoot ← fieldOf (t.get? "cgroup_root") stringOf d.cgroupRoot
    let cgroupSlice ← fieldOf (t.get? "cgroup_slice") stringOf d.cgroupSlice
    let nodeName ← fieldOf (t.get? "node_name") (fun v => some <$> stringOf v) d.nodeName
    let group ← fieldOf (t.get? "group") stringOf d.group
    let moveSelfToSupervisor ← fieldOf (t.get? "move_self_to_supervisor") booleanOf d.moveSelfToSupervisor
    let nameserverFiles ← fieldOf (t.get? "nameserver_files") stringsOf d.nameserverFiles
    let defaults ← fieldOf (t.get? "defaults") defaultsOf d.defaults
    let httpsAddress ← fieldOf (t.get? "https_address") (fun v => some <$> stringOf v) d.httpsAddress
    pure ⟨stateDir, runDir, subnet, bridge, rootMode, initPath, cgroupRoot, cgroupSlice, nodeName, group,
      moveSelfToSupervisor, nameserverFiles, defaults, httpsAddress⟩
  else none

def fromToml (x : TomlText F64) (layout : Layout) (text : String) : Result Config :=
  match x.parse text with
  | .error e => .error (.invalid s!"config: {e}")
  | .ok t =>
    match ofTable layout t with
    | none => .error (.invalid s!"config: {x.refusal text}")
    | some c => (Subnet.parse c.subnet).map fun _ => c

end Config

/-! ## Writing settings -/

def settingsKeys : List String := ["subnet", "bridge", "root_mode", "group", "node_name", "defaults", "https_address"]

def existingTable (x : TomlText F64) : Option String → Except String (Toml.Table F64)
  | some text => x.parse text
  | none => .ok OrdMap.empty

def renderConfig (x : TomlText F64) (existing : Option String) (s : DaemonSettings) : Result String := do
  let table ← (existingTable x existing).mapError fun e => .invalid s!"existing config: {e}"
  let text ← toToml x s
  let fresh ← (x.parse text).mapError .internal
  (x.print ((Toml.Table.removeAll settingsKeys table).extend fresh)).mapError fun e => .internal s!"render config: {e}"

/-! ## Fields of a table -/

/-- A configuration that a table stands for, field by field. -/
structure Reads (layout : Layout) (t : Toml.Table F64) (c : Config) : Prop where
  known : ∀ k v, t.get? k = some v → k ∈ Config.keys
  stateDir : fieldOf (t.get? "state_dir") stringOf layout.stateDir = some c.stateDir
  runDir : fieldOf (t.get? "run_dir") stringOf layout.runDir = some c.runDir
  subnet : fieldOf (t.get? "subnet") stringOf (Config.withLayout layout).subnet = some c.subnet
  bridge : fieldOf (t.get? "bridge") stringOf (Config.withLayout layout).bridge = some c.bridge
  rootMode : fieldOf (t.get? "root_mode") rootModeOf .auto = some c.rootMode
  initPath : fieldOf (t.get? "init_path") stringOf layout.initSrc = some c.initPath
  cgroupRoot : fieldOf (t.get? "cgroup_root") stringOf (Config.withLayout layout).cgroupRoot = some c.cgroupRoot
  cgroupSlice : fieldOf (t.get? "cgroup_slice") stringOf (Config.withLayout layout).cgroupSlice = some c.cgroupSlice
  nodeName : fieldOf (t.get? "node_name") (fun v => some <$> stringOf v) none = some c.nodeName
  group : fieldOf (t.get? "group") stringOf (Config.withLayout layout).group = some c.group
  moveSelfToSupervisor : fieldOf (t.get? "move_self_to_supervisor") booleanOf (!layout.snap) =
    some c.moveSelfToSupervisor
  nameserverFiles : fieldOf (t.get? "nameserver_files") stringsOf (Config.withLayout layout).nameserverFiles =
    some c.nameserverFiles
  defaults : fieldOf (t.get? "defaults") defaultsOf {} = some c.defaults
  httpsAddress : fieldOf (t.get? "https_address") (fun v => some <$> stringOf v) none = some c.httpsAddress

theorem keys_known_iff {t : Toml.Table F64} :
    (t.keys.all (Config.keys.contains ·)) = true ↔ ∀ k v, t.get? k = some v → k ∈ Config.keys := by
  rw [List.all_eq_true]
  constructor
  · intro h k v hv
    exact List.contains_iff_mem.mp (h k (OrdMap.mem_keys.mpr ⟨v, hv⟩))
  · intro h k hk
    obtain ⟨v, hv⟩ := OrdMap.mem_keys.mp hk
    exact List.contains_iff_mem.mpr (h k v hv)

theorem reads_of_ofTable {layout : Layout} {t : Toml.Table F64} {c : Config} (h : Config.ofTable layout t = some c) :
    Reads layout t c := by
  unfold Config.ofTable at h
  dsimp only at h
  split at h
  · rename_i hknown
    obtain ⟨stateDir, hstate, h⟩ := Option.bind_eq_some_iff.mp h
    obtain ⟨runDir, hrun, h⟩ := Option.bind_eq_some_iff.mp h
    obtain ⟨subnet, hsubnet, h⟩ := Option.bind_eq_some_iff.mp h
    obtain ⟨bridge, hbridge, h⟩ := Option.bind_eq_some_iff.mp h
    obtain ⟨rootMode, hroot, h⟩ := Option.bind_eq_some_iff.mp h
    obtain ⟨initPath, hinit, h⟩ := Option.bind_eq_some_iff.mp h
    obtain ⟨cgroupRoot, hcgroup, h⟩ := Option.bind_eq_some_iff.mp h
    obtain ⟨cgroupSlice, hslice, h⟩ := Option.bind_eq_some_iff.mp h
    obtain ⟨nodeName, hnode, h⟩ := Option.bind_eq_some_iff.mp h
    obtain ⟨group, hgroup, h⟩ := Option.bind_eq_some_iff.mp h
    obtain ⟨move, hmove, h⟩ := Option.bind_eq_some_iff.mp h
    obtain ⟨files, hfiles, h⟩ := Option.bind_eq_some_iff.mp h
    obtain ⟨defaults, hdefaults, h⟩ := Option.bind_eq_some_iff.mp h
    obtain ⟨https, hhttps, h⟩ := Option.bind_eq_some_iff.mp h
    cases h
    exact ⟨keys_known_iff.mp hknown, hstate, hrun, hsubnet, hbridge, hroot, hinit, hcgroup, hslice, hnode, hgroup,
      hmove, hfiles, hdefaults, hhttps⟩
  · cases h

theorem Reads.ofTable {layout : Layout} {t : Toml.Table F64} {c : Config} (h : Reads layout t c) :
    Config.ofTable layout t = some c := by
  refine (if_pos (keys_known_iff.mpr h.known)).trans ?_
  refine Option.bind_eq_some_iff.mpr ⟨_, h.stateDir, ?_⟩
  refine Option.bind_eq_some_iff.mpr ⟨_, h.runDir, ?_⟩
  refine Option.bind_eq_some_iff.mpr ⟨_, h.subnet, ?_⟩
  refine Option.bind_eq_some_iff.mpr ⟨_, h.bridge, ?_⟩
  refine Option.bind_eq_some_iff.mpr ⟨_, h.rootMode, ?_⟩
  refine Option.bind_eq_some_iff.mpr ⟨_, h.initPath, ?_⟩
  refine Option.bind_eq_some_iff.mpr ⟨_, h.cgroupRoot, ?_⟩
  refine Option.bind_eq_some_iff.mpr ⟨_, h.cgroupSlice, ?_⟩
  refine Option.bind_eq_some_iff.mpr ⟨_, h.nodeName, ?_⟩
  refine Option.bind_eq_some_iff.mpr ⟨_, h.group, ?_⟩
  refine Option.bind_eq_some_iff.mpr ⟨_, h.moveSelfToSupervisor, ?_⟩
  refine Option.bind_eq_some_iff.mpr ⟨_, h.nameserverFiles, ?_⟩
  refine Option.bind_eq_some_iff.mpr ⟨_, h.defaults, ?_⟩
  exact Option.bind_eq_some_iff.mpr ⟨_, h.httpsAddress, rfl⟩

/-! ## The table written -/

/-- The table of a configuration with settings written into it. -/
def written (t : Toml.Table F64) (s : DaemonSettings) : Toml.Table F64 :=
  (Toml.Table.removeAll settingsKeys t).extend (Toml.Table.ofFields (settingsFields s))

theorem settingsFields_keys (s : DaemonSettings) : (settingsFields s).map Prod.fst = settingsKeys := rfl

theorem mem_settingsKeys {s : DaemonSettings} {k : String} :
    k ∈ settingsKeys ↔ ∃ e ∈ settingsFields s, e.1 = k := by
  rw [← settingsFields_keys s]
  exact List.mem_map

/-- A setting is there exactly when it is written. -/
theorem written_setting {t : Toml.Table F64} {s : DaemonSettings} {k : String} {v : Option (Toml F64)}
    (h : (k, v) ∈ settingsFields s) : (written t s).get? k = v := by
  have hkey : k ∈ settingsKeys := mem_settingsKeys.mpr ⟨(k, v), h, rfl⟩
  have hnodup : ((settingsFields s).map Prod.fst).Nodup := by
    rw [settingsFields_keys]
    decide
  unfold written
  rw [Toml.Table.get?_extend, Toml.Table.get?_removeAll, if_pos hkey, Toml.Table.get?_ofFields hnodup h, Option.or_none]

theorem written_other {t : Toml.Table F64} {s : DaemonSettings} {k : String} (h : k ∉ settingsKeys) :
    (written t s).get? k = t.get? k := by
  have habsent : (Toml.Table.ofFields (settingsFields s)).get? k = none := Toml.Table.get?_ofFields_absent h
  unfold written
  rw [Toml.Table.get?_extend, Toml.Table.get?_removeAll, if_neg h, habsent, Option.none_or]

/-- Settings that are written twice stand as if written once. -/
theorem written_written (t : Toml.Table F64) (s : DaemonSettings) : written (written t s) s = written t s := by
  apply OrdMap.ext_get?
  intro k
  by_cases hk : k ∈ settingsKeys
  · obtain ⟨e, he, rfl⟩ := (@mem_settingsKeys s k).mp hk
    rw [written_setting he, written_setting he]
  · rw [written_other hk]

/-! ## Reading it back -/

def Config.withSettings (c : Config) (s : DaemonSettings) : Config :=
  { c with
    subnet := s.subnet
    bridge := s.bridge
    rootMode := s.rootMode
    group := s.group
    nodeName := s.nodeName
    defaults := s.defaults
    httpsAddress := s.httpsAddress }

theorem written_reads {layout : Layout} {t : Toml.Table F64} {old : Config} (h : Reads layout t old)
    {s : DaemonSettings} (hpids : (s.defaults.pidsMax.getD 0).toNat < 2 ^ 63) :
    Reads layout (written t s) (old.withSettings s) := by
  have hsetting : ∀ {k v}, (k, v) ∈ settingsFields s → (written t s).get? k = v := fun hmem => written_setting hmem
  constructor
  case known =>
    intro k v hv
    by_cases hk : k ∈ settingsKeys
    · have hall : ∀ k ∈ settingsKeys, k ∈ Config.keys := by decide
      exact hall k hk
    · rw [written_other hk] at hv
      exact h.known k v hv
  case subnet => rw [@hsetting "subnet" (some (.string s.subnet)) (by simp [settingsFields])]; rfl
  case bridge => rw [@hsetting "bridge" (some (.string s.bridge)) (by simp [settingsFields])]; rfl
  case rootMode =>
    rw [@hsetting "root_mode" (some (.string (variantName s.rootMode))) (by simp [settingsFields])]
    exact variantOf_variantName s.rootMode
  case group => rw [@hsetting "group" (some (.string s.group)) (by simp [settingsFields])]; rfl
  case nodeName =>
    rw [@hsetting "node_name" (s.nodeName.map .string) (by simp [settingsFields])]
    exact fieldOf_map fun _ _ => rfl
  case defaults =>
    rw [@hsetting "defaults" (if defaultsEmpty s.defaults then none else some (.table (defaultsEntries s.defaults)))
      (by simp [settingsFields])]
    by_cases hempty : defaultsEmpty s.defaults = true
    · rw [if_pos hempty]
      exact congrArg some (absent_of_empty hempty).symm
    · rw [if_neg hempty]
      exact defaultsOf_entries hpids
  case httpsAddress =>
    rw [@hsetting "https_address" (s.httpsAddress.map .string) (by simp [settingsFields])]
    exact fieldOf_map fun _ _ => rfl
  all_goals rw [written_other (by decide)]
  case stateDir => exact h.stateDir
  case runDir => exact h.runDir
  case initPath => exact h.initPath
  case cgroupRoot => exact h.cgroupRoot
  case cgroupSlice => exact h.cgroupSlice
  case moveSelfToSupervisor => exact h.moveSelfToSupervisor
  case nameserverFiles => exact h.nameserverFiles

/-! ## Its text -/

theorem kept_of_string {v : Toml F64} {s : String} (h : stringOf v = some s) : TextKept v := by
  cases v <;> first | exact .string _ | cases h

theorem kept_of_boolean {v : Toml F64} {b : Bool} (h : booleanOf v = some b) : TextKept v := by
  cases v <;> first | exact .boolean _ | cases h

theorem string_of_mapM {items : List (Toml F64)} {l : List String} (h : items.mapM stringOf = some l) {v : Toml F64}
    (hv : v ∈ items) : ∃ s, stringOf v = some s := by
  induction items generalizing l with
  | nil => cases hv
  | cons a items ih =>
    rw [List.mapM_cons] at h
    obtain ⟨s, hs, h⟩ := Option.bind_eq_some_iff.mp h
    obtain ⟨rest, hrest, -⟩ := Option.bind_eq_some_iff.mp h
    cases List.mem_cons.mp hv with
    | inl heq => exact ⟨s, heq ▸ hs⟩
    | inr hmem => exact ih hrest hmem

theorem kept_of_strings {v : Toml F64} {l : List String} (h : stringsOf v = some l) : TextKept v := by
  cases v with
  | array items =>
    refine .array items ?_
    intro v hv
    obtain ⟨s, hs⟩ := string_of_mapM h hv
    exact kept_of_string hs
  | _ => cases h

/-- What stays in a table that was read is kept by its text. -/
theorem reads_kept {layout : Layout} {t : Toml.Table F64} {c : Config} (h : Reads layout t c) {k : String}
    {v : Toml F64} (hv : t.get? k = some v) (hk : k ∉ settingsKeys) : TextKept v := by
  have hcase : k ∈ ["state_dir", "run_dir", "init_path", "cgroup_root", "cgroup_slice"] ∨
      k = "move_self_to_supervisor" ∨ k = "nameserver_files" := by
    have hall : ∀ k ∈ Config.keys, k ∉ settingsKeys →
        k ∈ ["state_dir", "run_dir", "init_path", "cgroup_root", "cgroup_slice"] ∨
        k = "move_self_to_supervisor" ∨ k = "nameserver_files" := by decide
    exact hall k (h.known k v hv) hk
  rcases hcase with hstring | rfl | rfl
  · simp only [List.mem_cons, List.not_mem_nil, or_false] at hstring
    rcases hstring with rfl | rfl | rfl | rfl | rfl
    · exact kept_of_string (read_of_fieldOf h.stateDir hv)
    · exact kept_of_string (read_of_fieldOf h.runDir hv)
    · exact kept_of_string (read_of_fieldOf h.initPath hv)
    · exact kept_of_string (read_of_fieldOf h.cgroupRoot hv)
    · exact kept_of_string (read_of_fieldOf h.cgroupSlice hv)
  · exact kept_of_boolean (read_of_fieldOf h.moveSelfToSupervisor hv)
  · exact kept_of_strings (read_of_fieldOf h.nameserverFiles hv)

theorem written_kept {layout : Layout} {t : Toml.Table F64} {c : Config} (h : Reads layout t c) {s : DaemonSettings}
    (hcpus : ∀ c, s.defaults.cpus = some c → c.isNaN = false) {k : String} {v : Toml F64}
    (hv : (written t s).get? k = some v) : TextKept v := by
  by_cases hk : k ∈ settingsKeys
  · obtain ⟨e, he, rfl⟩ := (@mem_settingsKeys s k).mp hk
    rw [written_setting he] at hv
    exact settingsFields_kept hcpus he hv
  · rw [written_other hk] at hv
    exact reads_kept h hv hk

/-! ## Configurations -/

/-- What an existing text gives, or the default where there is none. -/
def configured (x : TomlText F64) (layout : Layout) : Option String → Result Config
  | some text => Config.fromToml x layout text
  | none => .ok (Config.withLayout layout)

theorem fromToml_ok_iff {x : TomlText F64} {layout : Layout} {text : String} {c : Config} :
    Config.fromToml x layout text = .ok c ↔
      ∃ t n, x.parse text = .ok t ∧ Reads layout t c ∧ Subnet.parse c.subnet = .ok n := by
  unfold Config.fromToml
  constructor
  · intro h
    cases hparse : x.parse text with
    | error e =>
      rw [hparse] at h
      cases h
    | ok t =>
      rw [hparse] at h
      dsimp only at h
      cases htable : Config.ofTable layout t with
      | none =>
        rw [htable] at h
        cases h
      | some c' =>
        rw [htable] at h
        dsimp only at h
        cases hsubnet : Subnet.parse c'.subnet with
        | error e =>
          rw [hsubnet] at h
          cases h
        | ok n =>
          rw [hsubnet] at h
          cases h
          exact ⟨t, n, rfl, reads_of_ofTable htable, hsubnet⟩
  · intro h
    obtain ⟨t, n, hparse, hreads, hsubnet⟩ := h
    rw [hparse]
    dsimp only
    rw [hreads.ofTable]
    dsimp only
    rw [hsubnet]
    rfl

theorem configured_reads {x : TomlText F64} {layout : Layout} {existing : Option String} {c : Config}
    (h : configured x layout existing = .ok c) : ∃ t, existingTable x existing = .ok t ∧ Reads layout t c := by
  cases existing with
  | none =>
    cases h
    refine ⟨OrdMap.empty, rfl, ?_⟩
    constructor
    case known => nofun
    all_goals rfl
  | some text =>
    obtain ⟨t, n, hparse, hreads, -⟩ := fromToml_ok_iff.mp h
    exact ⟨t, hparse, hreads⟩

section Rendering
variable {x : TomlText F64} (hx : x.RoundTrips fun n => n.isNaN = false) {s : DaemonSettings}
  (hpids : (s.defaults.pidsMax.getD 0).toNat < 2 ^ 63) (hcpus : ∀ c, s.defaults.cpus = some c → c.isNaN = false)
include hx hpids hcpus

/-- The settings are printed, and read as their table. -/
theorem toToml_parsed :
    ∃ text, toToml x s = .ok text ∧ x.parse text = .ok (Toml.Table.ofFields (settingsFields s)) := by
  obtain ⟨text, hprint, hparse⟩ := hx (Toml.Table.ofFields (settingsFields s)) fun k v hv =>
    settingsFields_kept hcpus (Toml.Table.ofFields_mem hv) rfl
  have htable : settingsTable x s = .ok (Toml.Table.ofFields (settingsFields s)) := if_pos hpids
  refine ⟨text, ?_, hparse⟩
  unfold toToml
  rw [htable]
  show (x.print (Toml.Table.ofFields (settingsFields s))).mapError _ = _
  rw [hprint]
  rfl

theorem renderConfig_eq {existing : Option String} {t : Toml.Table F64} (ht : existingTable x existing = .ok t)
    {text : String} (hprint : x.print (written t s) = .ok text) : renderConfig x existing s = .ok text := by
  obtain ⟨fresh, hfresh, hparse⟩ := toToml_parsed hx hpids hcpus
  unfold renderConfig
  rw [ht, hfresh]
  show (x.parse fresh).mapError Error.internal >>= _ = _
  rw [hparse]
  show (x.print (written t s)).mapError _ = _
  rw [hprint]
  rfl

end Rendering

/-- Writing settings that pass the checks into a configuration that is read, or into none, gives one that is read with
these settings and with every other field as it was, and writing them again changes nothing. -/
theorem settings_written (x : TomlText F64) (hx : x.RoundTrips fun n => n.isNaN = false) (std : StdText)
    (layout : Layout) (existing : Option String) (old : Config) (hold : configured x layout existing = .ok old)
    (s : DaemonSettings) (hvalid : validate std s = .ok ()) (hsubnet : ∃ n, Subnet.parse s.subnet = .ok n)
    (hpids : ∀ p, s.defaults.pidsMax = some p → p.toNat < 2 ^ 63) :
    ∃ text c, renderConfig x existing s = .ok text ∧ Config.fromToml x layout text = .ok c ∧ c.settings = s ∧
      c = old.withSettings s ∧ renderConfig x (some text) s = .ok text := by
  have hfits : (s.defaults.pidsMax.getD 0).toNat < 2 ^ 63 := by
    cases hp : s.defaults.pidsMax with
    | none => decide
    | some p => exact hpids p hp
  have hcpus : ∀ c, s.defaults.cpus = some c → c.isNaN = false := fun c hc => validate_cpus hvalid hc
  obtain ⟨n, hn⟩ := hsubnet
  obtain ⟨t, ht, hreads⟩ := configured_reads hold
  obtain ⟨text, hprint, hparse⟩ := hx (written t s) fun k v hv => written_kept hreads hcpus hv
  have hagain : x.print (written (written t s) s) = .ok text := by
    rw [written_written]
    exact hprint
  exact ⟨text, old.withSettings s, renderConfig_eq hx hfits hcpus ht hprint,
    fromToml_ok_iff.mpr ⟨_, n, hparse, written_reads hreads hfits, hn⟩, rfl, rfl,
    @renderConfig_eq _ hx _ hfits hcpus (some text) _ hparse _ hagain⟩

/-! A node name and a CPU count are dropped, and a directory stays. -/

def oldText : String := "state_dir = \"/srv/state\"\nnode_name = \"web\"\n\n[defaults]\ncpus = 2.0\n"

def oldTable : Toml.Table F64 :=
  Toml.Table.ofFields [("state_dir", some (.string "/srv/state")), ("node_name", some (.string "web")),
    ("defaults", some (.table [("cpus", .float ⟨0x4000000000000000⟩)]))]

def newSettings : DaemonSettings := { defaults := { memory := some "1g" }, httpsAddress := some ":8443" }

def settingsText : String :=
  "subnet = \"172.30.0.0/16\"\nbridge = \"collocate0\"\nroot_mode = \"auto\"\ngroup = \"collocate\"\n" ++
    "https_address = \":8443\"\n\n[defaults]\nmemory = \"1g\"\n"

def newText : String :=
  "bridge = \"collocate0\"\ngroup = \"collocate\"\nhttps_address = \":8443\"\nroot_mode = \"auto\"\n" ++
    "state_dir = \"/srv/state\"\nsubnet = \"172.30.0.0/16\"\n\n[defaults]\nmemory = \"1g\"\n"

noncomputable def sampleText : TomlText F64 :=
  TomlText.keeping (fun n => n.bits.toNat)
    [(oldText, oldTable), (settingsText, Toml.Table.ofFields (settingsFields newSettings)),
      (newText, written oldTable newSettings)]

theorem sampleText_roundTrips : sampleText.RoundTrips fun n => n.isNaN = false := by
  apply TomlText.keeping_roundTrips
  · intro m n h
    cases m
    cases n
    exact congrArg F64.mk (UInt64.toNat_inj.mp h)
  · decide +kernel
  · decide +kernel

def noAddresses : StdText := ⟨fun _ => none, fun _ => none, fun _ => ""⟩

def sampleLayout : Layout := ⟨"/var/lib/collocate", "/run/collocate", "/usr/libexec/collocate/collocate-init", false⟩

def oldConfig : Config :=
  { Config.withLayout sampleLayout with
    stateDir := "/srv/state"
    nodeName := some "web"
    defaults := { cpus := some ⟨0x4000000000000000⟩ } }

theorem node_name_dropped :
    ∃ text c, renderConfig sampleText (some oldText) newSettings = .ok text ∧
      Config.fromToml sampleText sampleLayout text = .ok c ∧ c.settings = newSettings ∧
      c = oldConfig.withSettings newSettings ∧ renderConfig sampleText (some text) newSettings = .ok text :=
  settings_written sampleText sampleText_roundTrips noAddresses sampleLayout (some oldText) oldConfig
    (by decide +kernel)
    newSettings (by decide +kernel) ⟨⟨0xac1e0000, 16⟩, by decide +kernel⟩ nofun

end Collocate.Setup
