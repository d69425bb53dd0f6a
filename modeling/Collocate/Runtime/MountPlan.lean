import Collocate.Core.Spec
import Collocate.Image.Disk
import Collocate.Lib.MountTable

/-! # The mounts of a container (`collocate-runtime/src/mountplan.rs`, `launch.rs`)

The plan lists the standard filesystems parents first, then the files of the runtime, the mounts of the spec as they
were declared, and the masks. `child_run` executes it in sequence on the root that is staged for the container. What
the kernel finds at a path, and what it refuses, is a parameter; symbolic links in the image are left out, so that a
destination is its components. -/
namespace Collocate.Runtime
open MountTable
open Image (components)
set_option autoImplicit false

/-! ## The plan -/

inductive MountOp
  | proc
  | sysfsRo
  | cgroup2Ro
  | devTmpfs
  | devNode (name : String)
  | devPts
  | devShm (size : UInt64)
  | runTmpfs
  | tmpfs (dst : String) (size : Option UInt64)
  | bind (src dst : String) (ro : Bool)
  | maskFile (path : String)
  | maskDir (path : String)
  | procSysRo
  deriving DecidableEq, Repr

structure Extras where
  resolv : String
  hosts : String
  hostname : String
  init : String
  secretsDir : String
  volumes : String → Option String

def devNodes : List String := ["null", "zero", "full", "random", "urandom", "tty"]
def maskedFiles : List String := ["/proc/kcore", "/proc/keys", "/proc/sysrq-trigger"]
def shmSize : UInt64 := (64 : UInt64) <<< 20

/-- `Path::join`: an absolute path replaces what it is joined to. -/
def join (dir path : String) : String :=
  if Text.startsWith path "/" then path else if Text.endsWith dir "/" then dir ++ path else dir ++ "/" ++ path

/-- The operation of a mount of the spec. -/
def declaredOp (extras : Extras) : Mount → Result MountOp
  | .bind src dst ro => .ok (.bind src dst ro)
  | .tmpfs dst size => .ok (.tmpfs dst size)
  | .volume name dst =>
    match extras.volumes name with
    | some src => .ok (.bind src dst false)
    | none => .error (.notFound s!"volume {name}")
  | .secret name dst => .ok (.bind (join extras.secretsDir name) dst true)
  | .config src dst => .ok (.bind src dst true)

/-- What the plan mounts before the mounts of the spec. -/
def standardOps (spec : Spec) (extras : Extras) : List MountOp :=
  [.proc, .devTmpfs] ++ devNodes.map .devNode ++ [.devPts, .devShm shmSize, .sysfsRo, .cgroup2Ro, .runTmpfs] ++
    (if spec.mounts.any fun m => m.dst == "/tmp" then [] else [.tmpfs "/tmp" none]) ++
    [.bind extras.resolv "/etc/resolv.conf" true, .bind extras.hosts "/etc/hosts" true,
      .bind extras.hostname "/etc/hostname" true, .bind extras.init "/.collocate/init" true]

def maskOps : List MountOp := maskedFiles.map .maskFile ++ [.maskDir "/sys/firmware", .procSysRo]

def mountPlan (spec : Spec) (extras : Extras) : Result (List MountOp) := do
  let declared ← spec.mounts.mapM (declaredOp extras)
  .ok (standardOps spec extras ++ declared ++ maskOps)

/-! ## Its execution -/

inductive Kind
  | file
  | dir
  deriving DecidableEq, Repr

namespace MountOp

/-- Where an operation mounts. -/
def path : MountOp → String
  | .proc => "/proc"
  | .sysfsRo => "/sys"
  | .cgroup2Ro => "/sys/fs/cgroup"
  | .devTmpfs => "/dev"
  | .devNode n => "/dev/" ++ n
  | .devPts => "/dev/pts"
  | .devShm _ => "/dev/shm"
  | .runTmpfs => "/run"
  | .tmpfs dst _ | .bind _ dst _ => dst
  | .maskFile p | .maskDir p => p
  | .procSysRo => "/proc/sys"

def target (op : MountOp) : List String := components op.path

/-- Whether a directory or a file is mounted. -/
def kind (isDir : String → Bool) : MountOp → Kind
  | .devNode _ | .maskFile _ => .file
  | .bind src _ _ => if isDir src then .dir else .file
  | _ => .dir

/-- The name of an operation in an error, as `Debug` writes it. -/
def debug : MountOp → String
  | .proc => "Proc"
  | .sysfsRo => "SysfsRo"
  | .cgroup2Ro => "Cgroup2Ro"
  | .devTmpfs => "DevTmpfs"
  | .devNode n => "DevNode(" ++ Text.debugStr n ++ ")"
  | .devPts => "DevPts"
  | .devShm size => s!"DevShm \x7b size: {size} \x7d"
  | .runTmpfs => "RunTmpfs"
  | .tmpfs dst size =>
    let written := match size with
      | some s => s!"Some({s})"
      | none => "None"
    "Tmpfs \x7b dst: " ++ Text.debugStr dst ++ ", size: " ++ written ++ " \x7d"
  | .bind src dst ro =>
    "Bind \x7b src: " ++ Text.debugStr src ++ ", dst: " ++ Text.debugStr dst ++ s!", ro: {ro} \x7d"
  | .maskFile p => "MaskFile(" ++ Text.debugStr p ++ ")"
  | .maskDir p => "MaskDir(" ++ Text.debugStr p ++ ")"
  | .procSysRo => "ProcSysRo"

end MountOp

/-- What the kernel finds at a path after some mounts, and the error it stops an operation with. -/
structure Kernel where
  lookup : Table String MountOp → List String → Option Kind
  isDir : String → Bool
  refuses : Table String MountOp → MountOp → Option String

/-- What mounting does to the paths that can be found. -/
structure Kernel.Lawful (k : Kernel) : Prop where
  mounted : ∀ {table op}, op ≠ .procSysRo → k.refuses table op = none →
    k.lookup (attach table op.target op) op.target = some (op.kind k.isDir)
  kept : ∀ {table op p kind}, k.refuses table op = none → k.lookup table p = some kind → ¬op.target <+: p →
    k.lookup (attach table op.target op) p = some kind
  above : ∀ {table p q kind}, k.lookup table p = some kind → q <+: p → q ≠ p → k.lookup table q = some .dir

section Apply
variable (k : Kernel)

/-- Whether an operation mounts at all: a mask is left out where there is nothing to mask. -/
def Kernel.mounts (table : Table String MountOp) (op : MountOp) : Bool :=
  match op with
  | .maskFile _ => (k.lookup table op.target).isSome
  | .maskDir _ => k.lookup table op.target == some .dir
  | _ => true

def applyOp (table : Table String MountOp) (op : MountOp) : Except String (Table String MountOp) :=
  if k.mounts table op then
    match k.refuses table op with
    | some e => .error s!"{op.debug}: {e}"
    | none => .ok (attach table op.target op)
  else .ok table

def execute (ops : List MountOp) (table : Table String MountOp) : Except String (Table String MountOp) :=
  ops.foldlM (applyOp k) table

end Apply

/-! ## One operation -/

section Visible
variable {k : Kernel}

theorem applyOp_ok {table table' : Table String MountOp} {op : MountOp} (h : applyOp k table op = .ok table') :
    k.mounts table op = true ∧ k.refuses table op = none ∧ table' = attach table op.target op ∨
      k.mounts table op = false ∧ table' = table := by
  unfold applyOp at h
  cases hmounts : k.mounts table op with
  | false =>
    rw [hmounts, if_neg Bool.false_ne_true] at h
    cases h
    exact Or.inr ⟨rfl, rfl⟩
  | true =>
    rw [hmounts, if_pos rfl] at h
    cases hrefuses : k.refuses table op with
    | some e =>
      rw [hrefuses] at h
      cases h
    | none =>
      rw [hrefuses] at h
      cases h
      exact Or.inl ⟨rfl, rfl, rfl⟩

theorem applyOp_ranked {table table' : Table String MountOp} {op : MountOp} (h : applyOp k table op = .ok table')
    (hranked : Ranked table) : Ranked table' := by
  cases applyOp_ok h with
  | inl hmounted =>
    rw [hmounted.2.2]
    exact hranked.attach _ _
  | inr hleft => rwa [hleft.2]

/-- An operation is what is seen at a path, which is a directory or a file as the operation mounts it. -/
structure Sees (k : Kernel) (op : MountOp) (d : List String) (table : Table String MountOp) : Prop where
  ranked : Ranked table
  top : topmost table d = some op
  found : k.lookup table d = some (op.kind k.isDir)

structure Hidden (op : MountOp) (d : List String) (table : Table String MountOp) : Prop where
  ranked : Ranked table
  top : topmost table d ≠ some op

/-- Whether an operation mounts over a path that is there. A mask of a directory leaves a file alone. -/
def Covers (later : MountOp) (d : List String) (kind : Kind) : Prop :=
  later.target <+: d ∧ ∀ p, later = .maskDir p → later.target = d → kind = .dir

/-- An operation that covers what is found at a path mounts, unless the kernel refuses it. -/
theorem mounts_of_covers (hk : k.Lawful) {table : Table String MountOp} {later : MountOp} {d : List String}
    {kind : Kind}
    (hfound : k.lookup table d = some kind) (hcovers : Covers later d kind) : k.mounts table later = true := by
  by_cases heq : later.target = d
  · unfold Kernel.mounts
    split
    · rw [heq, hfound]
      rfl
    · rw [heq, hfound, hcovers.2 _ rfl heq]
      rfl
    · rfl
  · have hdir : k.lookup table later.target = some .dir := hk.above hfound hcovers.1 heq
    unfold Kernel.mounts
    split
    · rw [hdir]
      rfl
    · rw [hdir]
      rfl
    · rfl

theorem Sees.step (hk : k.Lawful) {op later : MountOp} {d : List String} {table table' : Table String MountOp}
    (hsees : Sees k op d table) (h : applyOp k table later = .ok table') (hne : later ≠ op) :
    Covers later d (op.kind k.isDir) ∧ Hidden op d table' ∨
      ¬Covers later d (op.kind k.isDir) ∧ Sees k op d table' := by
  by_cases hcovers : Covers later d (op.kind k.isDir)
  · refine Or.inl ⟨hcovers, applyOp_ranked h hsees.ranked, ?_⟩
    cases applyOp_ok h with
    | inr hleft =>
      rw [mounts_of_covers hk hsees.found hcovers] at hleft
      exact absurd hleft.1.symm Bool.false_ne_true
    | inl hmounted =>
      rw [hmounted.2.2, topmost_attach hsees.ranked, if_pos hcovers.1]
      exact fun heq => hne (Option.some.inj heq)
  · refine Or.inr ⟨hcovers, ?_⟩
    cases applyOp_ok h with
    | inr hleft => rwa [hleft.2]
    | inl hmounted =>
      obtain ⟨hmounts, hrefuses, rfl⟩ := hmounted
      -- a mask that mounts at the path itself found a directory there
      have hpre : ¬later.target <+: d := by
        intro hpre
        refine hcovers ⟨hpre, ?_⟩
        intro p hmask heq
        subst hmask
        have hfound : (k.lookup table (MountOp.target (.maskDir p)) == some Kind.dir) = true := hmounts
        rw [heq, hsees.found] at hfound
        exact Option.some.inj (eq_of_beq hfound)
      have htop : topmost (attach table later.target later) d = some op := by
        rw [topmost_attach hsees.ranked, if_neg hpre]
        exact hsees.top
      exact ⟨hsees.ranked.attach _ _, htop, hk.kept hrefuses hsees.found hpre⟩

theorem Hidden.step {op later : MountOp} {d : List String} {table table' : Table String MountOp}
    (hhidden : Hidden op d table) (h : applyOp k table later = .ok table') (hne : later ≠ op) : Hidden op d table' := by
  refine ⟨applyOp_ranked h hhidden.ranked, ?_⟩
  cases applyOp_ok h with
  | inr hleft =>
    rw [hleft.2]
    exact hhidden.top
  | inl hmounted =>
    rw [hmounted.2.2, topmost_attach hhidden.ranked]
    by_cases hpre : later.target <+: d
    · rw [if_pos hpre]
      exact fun heq => hne (Option.some.inj heq)
    · rw [if_neg hpre]
      exact hhidden.top

/-! ## A run -/

theorem execute_cons {op : MountOp} {ops : List MountOp} {table table' : Table String MountOp}
    (h : execute k (op :: ops) table = .ok table') :
    ∃ next, applyOp k table op = .ok next ∧ execute k ops next = .ok table' := by
  unfold execute at h
  rw [List.foldlM_cons] at h
  cases hop : applyOp k table op with
  | error e =>
    rw [hop] at h
    cases h
  | ok next =>
    rw [hop] at h
    exact ⟨next, rfl, h⟩

theorem execute_append {front ops : List MountOp} {table table' : Table String MountOp}
    (h : execute k (front ++ ops) table = .ok table') :
    ∃ next, execute k front table = .ok next ∧ execute k ops next = .ok table' := by
  unfold execute at h
  rw [List.foldlM_append] at h
  cases hfront : front.foldlM (applyOp k) table with
  | error e =>
    rw [hfront] at h
    cases h
  | ok next =>
    rw [hfront] at h
    exact ⟨next, hfront, h⟩

theorem execute_ranked {ops : List MountOp} {table table' : Table String MountOp} (h : execute k ops table = .ok table')
    (hranked : Ranked table) : Ranked table' := by
  induction ops generalizing table with
  | nil =>
    cases h
    exact hranked
  | cons op ops ih =>
    obtain ⟨next, hop, hrest⟩ := execute_cons h
    exact ih hrest (applyOp_ranked hop hranked)

theorem Hidden.run {op : MountOp} {d : List String} {later : List MountOp} {table table' : Table String MountOp}
    (hhidden : Hidden op d table) (h : execute k later table = .ok table') (hne : ∀ op' ∈ later, op' ≠ op) :
    Hidden op d table' := by
  induction later generalizing table with
  | nil =>
    cases h
    exact hhidden
  | cons op' later ih =>
    obtain ⟨next, hop, hrest⟩ := execute_cons h
    have hnext : Hidden op d next := hhidden.step hop (hne op' List.mem_cons_self)
    exact ih hnext hrest fun op'' hmem => hne op'' (List.mem_cons_of_mem _ hmem)

/-- An operation stays in sight exactly when no later one covers it. -/
theorem Sees.run (hk : k.Lawful) {op : MountOp} {d : List String} {later : List MountOp}
    {table table' : Table String MountOp} (hsees : Sees k op d table) (h : execute k later table = .ok table')
    (hne : ∀ op' ∈ later, op' ≠ op) :
    topmost table' d = some op ↔ ∀ op' ∈ later, ¬Covers op' d (op.kind k.isDir) := by
  induction later generalizing table with
  | nil =>
    cases h
    exact iff_of_true hsees.top fun op' hmem => absurd hmem List.not_mem_nil
  | cons op' later ih =>
    obtain ⟨next, hop, hrest⟩ := execute_cons h
    have hnelater : ∀ op'' ∈ later, op'' ≠ op := fun op'' hmem => hne op'' (List.mem_cons_of_mem _ hmem)
    rw [List.forall_mem_cons]
    cases hsees.step hk hop (hne op' List.mem_cons_self) with
    | inl hcovered => exact iff_of_false (hcovered.2.run hrest hnelater).top fun hall => hall.1 hcovered.1
    | inr hclear =>
      rw [ih hclear.2 hrest hnelater]
      exact ⟨fun hall => ⟨hclear.1, hall⟩, fun hall => hall.2⟩

/-! ## Declared operations -/

/-- Whether an operation masks a part of the standard filesystems. -/
def MountOp.isMask : MountOp → Bool
  | .maskFile _ | .maskDir _ | .procSysRo => true
  | _ => false

theorem declaredOp_ok {extras : Extras} {m : Mount} {op : MountOp} (h : declaredOp extras m = .ok op) :
    op.path = m.dst ∧ op.isMask = false := by
  cases m with
  | volume name dst =>
    rw [declaredOp] at h
    split at h
    · cases h
      exact ⟨rfl, rfl⟩
    · cases h
  | bind src dst ro =>
    cases h
    exact ⟨rfl, rfl⟩
  | tmpfs dst size =>
    cases h
    exact ⟨rfl, rfl⟩
  | secret name dst =>
    cases h
    exact ⟨rfl, rfl⟩
  | config src dst =>
    cases h
    exact ⟨rfl, rfl⟩

theorem isMask_of_mem_maskOps {op : MountOp} (h : op ∈ maskOps) : op.isMask = true := by
  simp only [maskOps, maskedFiles, List.map_cons, List.map_nil, List.cons_append, List.nil_append, List.mem_cons,
    List.not_mem_nil, or_false] at h
  rcases h with rfl | rfl | rfl | rfl | rfl <;> rfl

theorem standardOps_isMask {spec : Spec} {extras : Extras} {op : MountOp} (h : op ∈ standardOps spec extras) :
    op.isMask = false := by
  have htmp : op ∈ (if spec.mounts.any fun m => m.dst == "/tmp" then [] else [MountOp.tmpfs "/tmp" none]) →
      op.isMask = false := by
    intro hop
    split at hop
    · cases hop
    · rw [List.mem_singleton.mp hop]
      rfl
  simp only [standardOps, devNodes, List.mem_append, List.map_cons, List.map_nil, List.mem_cons, List.not_mem_nil,
    or_false] at h
  rcases h with (((h | h) | h) | h) | h
  · rcases h with rfl | rfl <;> rfl
  · rcases h with rfl | rfl | rfl | rfl | rfl | rfl <;> rfl
  · rcases h with rfl | rfl | rfl | rfl | rfl <;> rfl
  · exact htmp h
  · rcases h with rfl | rfl | rfl | rfl <;> rfl

/-- A declared operation is seen where it has mounted. -/
theorem sees_declared (hk : k.Lawful) {op : MountOp} (hmask : op.isMask = false) {table table' : Table String MountOp}
    (hranked : Ranked table) (h : applyOp k table op = .ok table') : Sees k op op.target table' := by
  have hmounts : k.mounts table op = true := by
    unfold Kernel.mounts
    split
    · cases hmask
    · cases hmask
    · rfl
  have hne : op ≠ .procSysRo := by
    rintro rfl
    cases hmask
  cases applyOp_ok h with
  | inr hleft =>
    rw [hmounts] at hleft
    exact absurd hleft.1.symm Bool.false_ne_true
  | inl hmounted =>
    obtain ⟨-, hrefuses, rfl⟩ := hmounted
    have htop : topmost (attach table op.target op) op.target = some op := by
      rw [topmost_attach hranked, if_pos List.prefix_rfl]
    exact ⟨hranked.attach _ _, htop, hk.mounted hne hrefuses⟩

theorem mapM_declared_split {extras : Extras} {before after : List Mount} {m : Mount} {ops : List MountOp}
    (h : (before ++ m :: after).mapM (declaredOp extras) = .ok ops) :
    ∃ first op rest, before.mapM (declaredOp extras) = .ok first ∧ declaredOp extras m = .ok op ∧
      after.mapM (declaredOp extras) = .ok rest ∧ ops = first ++ op :: rest := by
  rw [List.mapM_append] at h
  obtain ⟨first, hfirst, h⟩ := Result.bind_ok h
  obtain ⟨others, hothers, h⟩ := Result.bind_ok h
  obtain ⟨op, rest, hop, hrest, rfl⟩ := Result.mapM_cons_ok hothers
  cases h
  exact ⟨first, op, rest, hfirst, hop, hrest, rfl⟩

/-- A path as the checks of the client leave it: absolute, and nothing in it but names. -/
def Normalised (path : String) : Prop := path = "/" ++ Text.joinWith "/" (components path) ∧ ".." ∉ components path

/-- Whether a destination lies above another one. -/
def Ancestor (dst dst' : String) : Prop := components dst <+: components dst' ∧ components dst ≠ components dst'

end Visible

/-! ## An image with nothing in it -/

/-- What a new filesystem holds. -/
def contents : MountOp → List String → Option Kind
  | .proc, ["kcore"] | .proc, ["keys"] | .proc, ["sysrq-trigger"] => some .file
  | .proc, ["sys"] => some .dir
  | .sysfsRo, ["firmware"] | .sysfsRo, ["fs"] | .sysfsRo, ["fs", "cgroup"] => some .dir
  | _, _ => none

/-- What is found at a path, the newest mount first. -/
def found : Table String MountOp → List String → Option Kind
  | [], p => if p = [] then some .dir else none
  | e :: older, p =>
    if e.point = p then some (e.what.kind fun _ => false)
    else if p <+: e.point then some .dir
    else if e.point <+: p then contents e.what (p.drop e.point.length)
    else found older p

/-- The kernel over an empty image, with plain files to bind. -/
def bare : Kernel where
  lookup table p := found table.reverse p
  isDir _ := false
  refuses table op :=
    let here := found table.reverse op.target
    if op.target.inits.any fun q => q != op.target && found table.reverse q == some .file then
      some "Not a directory (os error 20)"
    else if here.isSome && here != some (op.kind fun _ => false) then some "Not a directory (os error 20)"
    else if here.isNone && (op == .cgroup2Ro || op == .procSysRo) then some "No such file or directory (os error 2)"
    else none

theorem contents_above {op : MountOp} {p q : List String} {kind : Kind} (h : contents op p = some kind)
    (hpre : q <+: p) (hne : q ≠ p) : q = [] ∨ contents op q = some .dir := by
  have hlength : q.length < p.length := lt_of_le_of_ne hpre.length_le fun hlen => hne (hpre.eq_of_length hlen)
  unfold contents at h
  split at h
  case h_7 =>
    cases q with
    | nil => exact Or.inl rfl
    | cons a q =>
      obtain ⟨ha, hq⟩ := List.cons_prefix_cons.mp hpre
      have hnil : q = [] := List.length_eq_zero_iff.mp (by
        simp only [List.length_cons, List.length_nil] at hlength
        omega)
      rw [ha, hnil]
      exact Or.inr rfl
  case h_8 => cases h
  all_goals exact Or.inl (List.length_eq_zero_iff.mp (Nat.lt_one_iff.mp hlength))

/-- Only directories hold anything. -/
theorem kind_of_contents {op : MountOp} {p : List String} {kind : Kind} (h : contents op p = some kind) :
    (op.kind fun _ => false) = .dir := by
  unfold contents at h
  split at h <;> first | rfl | cases h

theorem found_above {table : Table String MountOp} {p q : List String} {kind : Kind} (h : found table p = some kind)
    (hpre : q <+: p) (hne : q ≠ p) : found table q = some .dir := by
  induction table with
  | nil =>
    rw [found] at h
    split at h
    · next hp =>
      rw [hp] at hpre hne
      exact absurd (List.prefix_nil.mp hpre) hne
    · cases h
  | cons e older ih =>
    rw [found] at h ⊢
    by_cases heq : e.point = q
    · rw [if_pos heq]
      subst heq
      rw [if_neg hne, if_neg fun hback => hne (hpre.eq_of_length_le hback.length_le), if_pos hpre] at h
      rw [kind_of_contents h]
    rw [if_neg heq]
    by_cases habove : q <+: e.point
    · rw [if_pos habove]
    rw [if_neg habove]
    have hp : e.point ≠ p := fun hp => habove (hp ▸ hpre)
    rw [if_neg hp, if_neg fun hback => habove (hpre.trans hback)] at h
    by_cases hbelow : e.point <+: p
    · rw [if_pos hbelow] at h
      -- two prefixes of one path: the mount lies above `q`
      have hq : e.point <+: q := (List.prefix_or_prefix_of_prefix hbelow hpre).resolve_right habove
      rw [if_pos hq]
      obtain ⟨rest, rfl⟩ := hq
      obtain ⟨tail, rfl⟩ := hpre
      rw [List.append_assoc, List.drop_left] at h
      rw [List.drop_left]
      have hrest : rest <+: rest ++ tail := List.prefix_append _ _
      have htail : rest ≠ rest ++ tail := fun hsame => hne (by rw [List.append_assoc, ← hsame])
      cases contents_above h hrest htail with
      | inl hnil => exact absurd (by rw [hnil, List.append_nil]) heq
      | inr hdir => exact hdir
    · rw [if_neg hbelow] at h
      rw [if_neg fun hq => hbelow (hq.trans hpre)]
      exact ih h

theorem bare_refuses {table : Table String MountOp} {op : MountOp} (h : bare.refuses table op = none) {q : List String}
    {kind : Kind} (hpre : q <+: op.target) (hne : q ≠ op.target) (hq : bare.lookup table q = some kind) :
    kind = .dir := by
  cases kind with
  | dir => rfl
  | file =>
    have hany : (op.target.inits.any fun q => q != op.target && found table.reverse q == some .file) = true := by
      rw [List.any_eq_true]
      refine ⟨q, (List.mem_inits q op.target).mpr hpre, ?_⟩
      have hfile : found table.reverse q = some .file := hq
      rw [hfile, bne_iff_ne.mpr hne]
      rfl
    have hsome : bare.refuses table op = some "Not a directory (os error 20)" := if_pos hany
    rw [hsome] at h
    cases h

theorem bare_lookup_attach {table : Table String MountOp} {op : MountOp} {p : List String} :
    bare.lookup (attach table op.target op) p = found (⟨seen table op.target, op.target, op⟩ :: table.reverse) p := by
  show found (table ++ [_]).reverse p = _
  rw [List.reverse_append]
  rfl

theorem bare_lawful : bare.Lawful where
  mounted := by
    intro table op _ _
    rw [bare_lookup_attach, found, if_pos rfl]
    rfl
  kept := by
    intro table op p kind hrefuses hfound hpre
    have hne : op.target ≠ p := fun heq => hpre (heq ▸ List.prefix_rfl)
    rw [bare_lookup_attach, found, if_neg hne]
    by_cases habove : p <+: op.target
    · rw [if_pos habove, bare_refuses hrefuses habove hne.symm hfound]
    · rw [if_neg habove, if_neg hpre]
      exact hfound
  above := fun hfound hpre hne => found_above hfound hpre hne

/-- A container with two filesystems in memory. -/
def cached (first second : String) : Spec :=
  { Spec.new 1 0 "web" (.oci "sha256:0" []) ["sleep", "60"] with mounts := [.tmpfs first none, .tmpfs second none] }

def prepared : Extras := ⟨"/run/c/resolv.conf", "/run/c/hosts", "/run/c/hostname", "/usr/bin/init", "/run/c",
    fun _ => none⟩

def planOf (spec : Spec) : List MountOp := (mountPlan spec prepared).toOption.getD []

def mountsOf (spec : Spec) : Table String MountOp := (execute bare (planOf spec) []).toOption.getD []

end Collocate.Runtime
