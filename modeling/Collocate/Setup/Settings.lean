import Collocate.Core.Request
import Collocate.Core.Sizes
import Collocate.Lib.Toml

/-! # Settings of the daemon (`collocate-core/src/settings.rs`)

How settings are checked, and how they stand in TOML. Addresses are read, and numbers printed, by parameters. -/
namespace Collocate.Setup
set_option autoImplicit false

/-! ## Checks -/

inductive IpAddr
  | v4 (addr : Ipv4Addr)
  | v6 (addr : BitVec 128)

/-- The text of socket addresses, of IP addresses and of floating-point numbers. -/
structure StdText where
  socketAddr : String → Option (IpAddr × UInt16)
  ipAddr : String → Option IpAddr
  float : F64 → String

def defaultHttpsPort : UInt16 := 8443

def parseListenAddress (std : StdText) (addr : String) : Result (Option IpAddr × UInt16) :=
  let bad := .error
    (.invalid s!"https address {Text.debugStr addr} must look like :8443, 0.0.0.0:8443, 10.0.0.5:8443 or [::]:8443")
  let a := Text.trim addr
  match std.socketAddr a with
  | some (ip, port) => .ok (some ip, port)
  | none =>
    match Text.stripPrefix ":" a with
    | some port =>
      match (Text.parseU16 port).filter (0 < ·) with
      | some p => .ok (none, p)
      | none => bad
    | none =>
      match std.ipAddr (Text.trimEndMatches (· == ']') (String.ofList (a.toList.dropWhile (· == '[')))) with
      | some ip => .ok (some ip, defaultHttpsPort)
      | none => bad

def nameWithin (most : ℕ) (name : String) : Bool :=
  !name.isEmpty && decide (name.utf8ByteSize ≤ most) &&
    name.toList.all fun c => Text.isAlphanumeric c || c == '-' || c == '_' || c == '.'

def validBridge (name : String) : Bool := nameWithin 15 name

def validName (name : String) : Bool := nameWithin 63 name

/-- `x > 0.0`. -/
def gtZero (x : F64) : Bool := !x.isNaN && !x.leZero

def ensure (c : Bool) (e : Error) : Result Unit := if c then .ok () else .error e

/-- A check of a value where there is one. -/
def checkSome {α : Type} (check : α → Result Unit) : Option α → Result Unit
  | some a => check a
  | none => .ok ()

def validate (std : StdText) (s : DaemonSettings) : Result Unit := do
  ensure (validBridge s.bridge)
    (.invalid s!"bridge name {Text.debugStr s.bridge} must be 1-15 characters of letters, digits, '-', '_' or '.'")
  ensure (validName s.group) (.invalid s!"group name {Text.debugStr s.group} is not valid")
  checkSome (fun n => ensure (validName n) (.invalid s!"node name {Text.debugStr n} is not valid")) s.nodeName
  checkSome (fun m => discard (parseSize m)) s.defaults.memory
  checkSome (fun c => ensure (gtZero c && c.isFinite)
    (.invalid s!"default cpus must be positive, got {std.float c}")) s.defaults.cpus
  ensure (s.defaults.pidsMax != some 0) (.invalid "default pids_max must be positive")
  checkSome (fun a => discard (parseListenAddress std a)) s.httpsAddress

theorem not_isNaN_of_isFinite {x : F64} (h : x.isFinite = true) : x.isNaN = false := by
  unfold F64.isFinite at h
  unfold F64.isNaN
  rw [bne_iff_ne] at h
  rw [beq_eq_false_iff_ne.mpr h, Bool.false_and]

theorem ensure_ok {c : Bool} {e : Error} (h : ensure c e = .ok ()) : c = true := by
  cases c with
  | false => cases h
  | true => rfl

theorem validate_cpus {std : StdText} {s : DaemonSettings} (h : validate std s = .ok ()) {c : F64}
    (hc : s.defaults.cpus = some c) : c.isNaN = false := by
  unfold validate at h
  simp only [Result.then_ok_iff] at h
  obtain ⟨-, -, -, -, hcpus, -⟩ := h
  rw [hc] at hcpus
  have hfinite := ensure_ok hcpus
  rw [Bool.and_eq_true] at hfinite
  exact not_isNaN_of_isFinite hfinite.2

/-! ## TOML -/

/-- The name of a variant in TOML. -/
def variantName : RootModeSetting → String
  | .auto => "auto"
  | .overlay => "overlay"
  | .fuseOverlay => "fuse-overlay"
  | .bindRo => "bind-ro"

def defaultsEmpty (d : Defaults) : Bool := d.memory.isNone && d.cpus.isNone && d.pidsMax.isNone

/-- The entries of the defaults, in the order of their keys. -/
def defaultsEntries (d : Defaults) : List (String × Toml F64) :=
  [("cpus", d.cpus.map .float), ("memory", d.memory.map .string),
    ("pids_max", d.pidsMax.map fun p => .integer p.toInt64)].filterMap fun e => e.2.map fun v => (e.1, v)

/-- The fields that are written, where a field that is skipped has no value. -/
def settingsFields (s : DaemonSettings) : List (String × Option (Toml F64)) :=
  [("subnet", some (.string s.subnet)), ("bridge", some (.string s.bridge)),
    ("root_mode", some (.string (variantName s.rootMode))), ("group", some (.string s.group)),
    ("node_name", s.nodeName.map .string),
    ("defaults", if defaultsEmpty s.defaults then none else some (.table (defaultsEntries s.defaults))),
    ("https_address", s.httpsAddress.map .string)]

/-- What `to_toml` prints; integers of TOML are signed. -/
def settingsTable (x : TomlText F64) (s : DaemonSettings) : Except String (Toml.Table F64) :=
  if (s.defaults.pidsMax.getD 0).toNat < 2 ^ 63 then .ok (Toml.Table.ofFields (settingsFields s))
  else .error x.outOfRange

def toToml (x : TomlText F64) (s : DaemonSettings) : Result String :=
  (settingsTable x s >>= x.print).mapError fun e => .internal s!"render settings: {e}"

/-! ## Reading -/

def stringOf : Toml F64 → Option String
  | .string s => some s
  | _ => none

def booleanOf : Toml F64 → Option Bool
  | .boolean b => some b
  | _ => none

def stringsOf : Toml F64 → Option (List String)
  | .array items => items.mapM stringOf
  | _ => none

/-- `i as f64`: rounded to the nearest number of 53 bits, and to the even one between two. -/
def intAsFloat (i : Int64) : F64 :=
  let n := i.toInt.natAbs
  let sign := if i < 0 then 2 ^ 63 else 0
  let e := n.log2
  let half := 2 ^ (e - 53)
  let low := n % (2 * half)
  let up := if half < low ∨ half = low ∧ n / (2 * half) % 2 = 1 then 1 else 0
  if n = 0 then ⟨0⟩
  else if e ≤ 52 then ⟨UInt64.ofNat (sign + (1022 + e) * 2 ^ 52 + n * 2 ^ (52 - e))⟩
  else ⟨UInt64.ofNat (sign + (1022 + e) * 2 ^ 52 + n / (2 * half) + up)⟩

def floatOf : Toml F64 → Option F64
  | .float x => some x
  | .integer i => some (intAsFloat i)
  | _ => none

def unsignedOf : Toml F64 → Option UInt64
  | .integer i => if 0 ≤ i then some i.toUInt64 else none
  | _ => none

/-- A field, or its default where it is absent. -/
def fieldOf {α : Type} (v : Option (Toml F64)) (read : Toml F64 → Option α) (absent : α) : Option α :=
  match v with
  | some v => read v
  | none => some absent

def variantOf : String → Option RootModeSetting
  | "auto" => some .auto
  | "overlay" => some .overlay
  | "fuse-overlay" => some .fuseOverlay
  | "bind-ro" => some .bindRo
  | _ => none

/-- A variant is a string, or the key of a table whose only value is empty. -/
def rootModeOf : Toml F64 → Option RootModeSetting
  | .string s => variantOf s
  | .table [(k, .array [])] => variantOf k
  | .table [(k, .table [])] => variantOf k
  | _ => none

def defaultsFrom (memory cpus pidsMax : Option (Toml F64)) : Option Defaults := do
  let memory ← fieldOf memory (fun v => some <$> stringOf v) none
  let cpus ← fieldOf cpus (fun v => some <$> floatOf v) none
  let pidsMax ← fieldOf pidsMax (fun v => some <$> unsignedOf v) none
  pure { memory, cpus, pidsMax }

/-- The defaults are a table of known keys, or a list of the fields in their order. -/
def defaultsOf : Toml F64 → Option Defaults
  | .table entries =>
    if entries.all fun e => ["memory", "cpus", "pids_max"].contains e.1 then
      defaultsFrom (OrdMap.lookup "memory" entries) (OrdMap.lookup "cpus" entries) (OrdMap.lookup "pids_max" entries)
    else none
  | .array items => defaultsFrom items[0]? items[1]? items[2]?
  | _ => none

theorem variantOf_variantName (m : RootModeSetting) : variantOf (variantName m) = some m := by
  cases m <;> rfl

theorem unsigned_kept {p : UInt64} (h : p.toNat < 2 ^ 63) : unsignedOf (.integer p.toInt64) = some p := by
  have hint : p.toInt64.toInt = p.toNat := BitVec.toInt_eq_toNat_of_lt (by
    show 2 * p.toNat < 2 ^ 64
    omega)
  have hpos : 0 ≤ p.toInt64 := by
    rw [Int64.le_iff_toInt_le, hint]
    exact Int.natCast_nonneg _
  exact if_pos hpos

theorem read_of_fieldOf {α : Type} {o : Option (Toml F64)} {read : Toml F64 → Option α} {absent a : α}
    (h : fieldOf o read absent = some a) {v : Toml F64} (hv : o = some v) : read v = some a := by
  rw [hv] at h
  exact h

/-- An optional field is read as it was written. -/
theorem fieldOf_map {α : Type} {write : α → Toml F64} {read : Toml F64 → Option α} {o : Option α}
    (h : ∀ a, o = some a → read (write a) = some a) :
    fieldOf (o.map write) (fun v => some <$> read v) none = some o := by
  cases o with
  | none => rfl
  | some a => exact congrArg (Option.map some) (h a rfl)

theorem defaultsOf_entries {d : Defaults} (h : (d.pidsMax.getD 0).toNat < 2 ^ 63) :
    defaultsOf (.table (defaultsEntries d)) = some d := by
  have hread : defaultsOf (.table (defaultsEntries d)) =
      defaultsFrom (d.memory.map .string) (d.cpus.map .float) (d.pidsMax.map fun p => .integer p.toInt64) := by
    obtain ⟨memory, cpus, pidsMax⟩ := d
    cases memory <;> cases cpus <;> cases pidsMax <;> rfl
  have hmemory := @fieldOf_map _ .string stringOf d.memory fun _ _ => rfl
  have hcpus := @fieldOf_map _ .float floatOf d.cpus fun _ _ => rfl
  have hpids := @fieldOf_map _ (fun p => .integer p.toInt64) unsignedOf d.pidsMax fun p hp =>
    unsigned_kept (by rwa [hp] at h)
  rw [hread, defaultsFrom, hmemory, hcpus, hpids]
  rfl

theorem absent_of_empty {d : Defaults} (h : defaultsEmpty d = true) : d = {} := by
  obtain ⟨memory, cpus, pidsMax⟩ := d
  cases memory <;> cases cpus <;> cases pidsMax <;> first | rfl | cases h

/-! ## Text -/

/-- No number is NaN. -/
abbrev TextKept (v : Toml F64) : Prop := Toml.Plain (fun x => x.isNaN = false) v

theorem defaultsEntries_sorted (d : Defaults) : (defaultsEntries d).Pairwise fun a b => a.1 < b.1 := by
  have hkeys : ["cpus", "memory", "pids_max"].Pairwise (· < ·) := by decide +kernel
  have hfields : [("cpus", d.cpus.map Toml.float), ("memory", d.memory.map .string),
      ("pids_max", d.pidsMax.map fun p => .integer p.toInt64)].Pairwise fun a b => a.1 < b.1 :=
    List.pairwise_map.mp hkeys
  refine hfields.filterMap _ ?_
  intro a a' hlt e he e' he'
  obtain ⟨v, -, rfl⟩ := Option.map_eq_some_iff.mp he
  obtain ⟨v', -, rfl⟩ := Option.map_eq_some_iff.mp he'
  exact hlt

theorem defaultsEntries_kept {d : Defaults} (hcpus : ∀ c, d.cpus = some c → c.isNaN = false) :
    TextKept (.table (defaultsEntries d)) := by
  refine .table _ (defaultsEntries_sorted d) ?_
  intro e he
  obtain ⟨f, hf, hmap⟩ := List.mem_filterMap.mp he
  obtain ⟨v, hv, rfl⟩ := Option.map_eq_some_iff.mp hmap
  have hcase : f = ("cpus", d.cpus.map .float) ∨ f = ("memory", d.memory.map .string) ∨
      f = ("pids_max", d.pidsMax.map fun p => .integer p.toInt64) := by
    simpa using hf
  rcases hcase with rfl | rfl | rfl
  · obtain ⟨c, hc, rfl⟩ := Option.map_eq_some_iff.mp hv
    exact .float c (hcpus c hc)
  · obtain ⟨m, -, rfl⟩ := Option.map_eq_some_iff.mp hv
    exact .string m
  · obtain ⟨p, -, rfl⟩ := Option.map_eq_some_iff.mp hv
    exact .integer _

theorem settingsFields_kept {s : DaemonSettings} (hcpus : ∀ c, s.defaults.cpus = some c → c.isNaN = false)
    {e : String × Option (Toml F64)} (he : e ∈ settingsFields s) {v : Toml F64} (hv : e.2 = some v) : TextKept v := by
  have hcase : (∃ text, v = .string text) ∨ v = .table (defaultsEntries s.defaults) := by
    unfold settingsFields at he
    simp only [List.mem_cons, List.not_mem_nil, or_false] at he
    rcases he with rfl | rfl | rfl | rfl | rfl | rfl | rfl
    · exact .inl ⟨_, (Option.some.inj hv).symm⟩
    · exact .inl ⟨_, (Option.some.inj hv).symm⟩
    · exact .inl ⟨_, (Option.some.inj hv).symm⟩
    · exact .inl ⟨_, (Option.some.inj hv).symm⟩
    · obtain ⟨n, -, rfl⟩ := Option.map_eq_some_iff.mp hv
      exact .inl ⟨n, rfl⟩
    · dsimp only at hv
      split at hv
      · cases hv
      · exact .inr (Option.some.inj hv).symm
    · obtain ⟨a, -, rfl⟩ := Option.map_eq_some_iff.mp hv
      exact .inl ⟨a, rfl⟩
  rcases hcase with ⟨text, rfl⟩ | rfl
  · exact .string text
  · exact defaultsEntries_kept hcpus

end Collocate.Setup
