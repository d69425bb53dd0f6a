import Mathlib.Data.List.Infix
import Mathlib.Logic.Function.Basic
import Collocate.Lib.Text

/-! # Directories, links and inodes

A filesystem as its kernel sees it: names in directories lead to inodes, and the names of a path are followed one after
the other, through links. `exec` carries out a call; the environment may refuse it, and leave a recursive removal half
done. -/
namespace Collocate.Posix
set_option autoImplicit false

abbrev Path := List String

/-- A name that does not stand for the directory it is looked up in, or for the one above. -/
def Plain (name : String) : Prop := name ≠ "" ∧ name ≠ "." ∧ name ≠ ".."

/-- A name that an entry of a directory can have. -/
def Proper (name : String) : Prop := Plain name ∧ '/' ∉ name.toList

instance (name : String) : Decidable (Plain name) := inferInstanceAs (Decidable (_ ∧ _))
instance (name : String) : Decidable (Proper name) := inferInstanceAs (Decidable (_ ∧ _))

/-! ## Filesystems -/

inductive Kind
  | dir
  | link (target : String)
  | file (data : List UInt8)
  | char (dev : ℕ)
  | block (dev : ℕ)
  | fifo
  deriving DecidableEq, Repr

/-- `isOpaque` stands for the attribute by which a union of directories hides what lies below. -/
structure Inode where
  kind : Kind
  mode : ℕ
  uid : ℕ
  gid : ℕ
  isOpaque : Bool := false
  deriving DecidableEq, Repr

structure Fs where
  entry : Path → Option ℕ
  inode : ℕ → Inode
  next : ℕ
  root : (entry []).map (fun i => (inode i).kind) = some .dir
  parents : ∀ p n i, entry (p ++ [n]) = some i → Proper n ∧ (entry p).map (fun i => (inode i).kind) = some .dir
  bounded : ∀ p i, entry p = some i → i < next
  single : ∀ p q i, entry p = some i → entry q = some i → (inode i).kind = .dir → p = q

namespace Fs

def kindAt (t : Fs) (p : Path) : Option Kind := (t.entry p).map fun i => (t.inode i).kind

abbrev IsDir (t : Fs) (p : Path) : Prop := t.kindAt p = some .dir

theorem kindAt_of_entry {t : Fs} {p : Path} {i : ℕ} (h : t.entry p = some i) : t.kindAt p = some (t.inode i).kind := by
  rw [kindAt, h]
  rfl

theorem isDir_iff {t : Fs} {p : Path} : t.IsDir p ↔ ∃ i, t.entry p = some i ∧ (t.inode i).kind = .dir :=
  Option.map_eq_some_iff

theorem isDir_root (t : Fs) : t.IsDir [] := t.root

/-- What has an entry below it is a directory. -/
theorem isDir_of_entry {t : Fs} {p : Path} {n : String} {i : ℕ} (h : t.entry (p ++ [n]) = some i) : t.IsDir p :=
  (t.parents p n i h).2

theorem proper_of_entry {t : Fs} {p : Path} {n : String} {i : ℕ} (h : t.entry (p ++ [n]) = some i) : Proper n :=
  (t.parents p n i h).1

theorem entry_of_append {t : Fs} {p q : Path} {i : ℕ} (h : t.entry (p ++ q) = some i) : ∃ j, t.entry p = some j := by
  induction q using List.reverseRecOn generalizing i with
  | nil => exact ⟨i, List.append_nil p ▸ h⟩
  | append_singleton q n ih =>
    rw [← List.append_assoc] at h
    obtain ⟨j, hj, -⟩ := isDir_iff.mp (isDir_of_entry h)
    exact ih hj

theorem isDir_of_append {t : Fs} {p q : Path} (h : t.IsDir (p ++ q)) : t.IsDir p := by
  induction q using List.reverseRecOn with
  | nil => exact List.append_nil p ▸ h
  | append_singleton q n ih =>
    obtain ⟨i, hi, -⟩ := isDir_iff.mp h
    rw [← List.append_assoc] at hi
    exact ih (isDir_of_entry hi)

/-! ## Changes -/

theorem snoc_ne_nil (dir : Path) (name : String) : dir ++ [name] ≠ [] :=
  List.append_ne_nil_of_right_ne_nil dir (List.cons_ne_nil name [])

/-- A new entry of an inode that is not in use yet, or of one that is no directory. -/
def put (t : Fs) (dir : Path) (name : String) (i : ℕ) (x : Inode) (next : ℕ) (hdir : t.IsDir dir) (hname : Proper name)
    (hfree : t.entry (dir ++ [name]) = none)
    (hnew : (∀ p, t.entry p ≠ some i) ∨ t.inode i = x ∧ x.kind ≠ .dir) (hi : i < next) (hnext : t.next ≤ next) : Fs :=
  have hsame : ∀ q j, t.entry q = some j → Function.update t.inode i x j = t.inode j := by
    intro q j hj
    by_cases hji : j = i
    · subst hji
      rw [Function.update_self]
      exact (hnew.resolve_left fun h => h q hj).1.symm
    · exact Function.update_of_ne hji ..
  have hkind : ∀ q, (t.entry q).map (fun j => (Function.update t.inode i x j).kind) = t.kindAt q := by
    intro q
    refine Option.map_congr fun j hj => ?_
    rw [hsame q j hj]
  have hold : ∀ q, q ≠ dir ++ [name] → Function.update t.entry (dir ++ [name]) (some i) q = t.entry q :=
    fun q hq => Function.update_of_ne hq ..
  have hnewEntry : ∀ q j, Function.update t.entry (dir ++ [name]) (some i) q = some j →
      q = dir ++ [name] ∧ j = i ∨ q ≠ dir ++ [name] ∧ t.entry q = some j := by
    intro q j hj
    by_cases hq : q = dir ++ [name]
    · rw [hq, Function.update_self] at hj
      exact Or.inl ⟨hq, (Option.some.inj hj).symm⟩
    · rw [hold q hq] at hj
      exact Or.inr ⟨hq, hj⟩
  { entry := Function.update t.entry (dir ++ [name]) (some i)
    inode := Function.update t.inode i x
    next
    root := by
      rw [hold [] (snoc_ne_nil dir name).symm, hkind]
      exact t.root
    parents := by
      intro p n j hj
      rcases hnewEntry _ _ hj with ⟨heq, -⟩ | ⟨-, hj⟩
      · obtain ⟨rfl, hn⟩ := List.append_inj' heq rfl
        cases hn
        rw [hold p (by simp), hkind]
        exact ⟨hname, hdir⟩
      · have hp := t.isDir_of_entry hj
        rw [hold p fun heq => ?_, hkind]
        · exact ⟨t.proper_of_entry hj, hp⟩
        · obtain ⟨k, hk, -⟩ := isDir_iff.mp hp
          rw [heq, hfree] at hk
          cases hk
    bounded := by
      intro p j hj
      rcases hnewEntry _ _ hj with ⟨-, rfl⟩ | ⟨-, hj⟩
      · exact hi
      · exact Nat.lt_of_lt_of_le (t.bounded p j hj) hnext
    single := by
      intro p q j hp hq hdir'
      have hlinked : ∀ q, t.entry q = some i → (Function.update t.inode i x i).kind ≠ .dir := by
        intro q hq
        rw [hsame q i hq]
        rcases hnew with hunused | ⟨hx, hfile⟩
        · exact absurd hq (hunused q)
        · rwa [hx]
      rcases hnewEntry _ _ hp with ⟨hp', hj⟩ | ⟨-, hp⟩
      · rcases hnewEntry _ _ hq with ⟨hq', -⟩ | ⟨-, hq⟩
        · rw [hp', hq']
        · exact absurd (hj ▸ hdir') (hlinked q (hj ▸ hq))
      · rcases hnewEntry _ _ hq with ⟨-, hj⟩ | ⟨-, hq⟩
        · exact absurd (hj ▸ hdir') (hlinked p (hj ▸ hp))
        · rw [hsame _ _ hp] at hdir'
          exact t.single p q j hp hq hdir' }

/-- A path and all below it, as far as `gone` tells, go away. The root stays. -/
def prune (t : Fs) (gone : Path → Bool) (hroot : gone [] = false) : Fs :=
  have hsome : ∀ q j, (if q.inits.any gone then none else t.entry q) = some j → t.entry q = some j := by
    intro q j hj
    split at hj
    · cases hj
    · exact hj
  { entry := fun p => if p.inits.any gone then none else t.entry p
    inode := t.inode
    next := t.next
    root := by
      rw [if_neg (by simp [hroot])]
      exact t.root
    parents := by
      intro p n j hj
      have hp := hsome _ _ hj
      refine ⟨t.proper_of_entry hp, ?_⟩
      have hkeep : ¬p.inits.any gone := by
        intro hgone
        rw [if_pos] at hj
        · cases hj
        · obtain ⟨q, hq, hg⟩ := List.any_eq_true.mp hgone
          refine List.any_eq_true.mpr ⟨q, ?_, hg⟩
          exact (List.mem_inits _ _).mpr (((List.mem_inits _ _).mp hq).trans (List.prefix_append _ _))
      rw [if_neg hkeep]
      exact t.isDir_of_entry hp
    bounded := fun p j hj => t.bounded p j (hsome p j hj)
    single := fun p q j hp hq => t.single p q j (hsome p j hp) (hsome q j hq) }

/-- An inode with other attributes, or a file with other contents. -/
def alter (t : Fs) (i : ℕ) (x : Inode) (hkind : x.kind = .dir ↔ (t.inode i).kind = .dir) : Fs :=
  have hdir : ∀ j, (Function.update t.inode i x j).kind = .dir ↔ (t.inode j).kind = .dir := by
    intro j
    by_cases hj : j = i
    · subst hj
      rw [Function.update_self]
      exact hkind
    · rw [Function.update_of_ne hj]
  have hmap : ∀ q, (t.entry q).map (fun j => (Function.update t.inode i x j).kind) = some .dir ↔ t.IsDir q := by
    intro q
    rw [Option.map_eq_some_iff, isDir_iff]
    exact exists_congr fun j => and_congr_right fun _ => hdir j
  { t with
    inode := Function.update t.inode i x
    root := (hmap []).mpr t.root
    parents := fun p n j hj => ⟨t.proper_of_entry hj, (hmap p).mpr (t.isDir_of_entry hj)⟩
    single := fun p q j hp hq hd => t.single p q j hp hq ((hdir j).mp hd) }

/-- Directories only, each with the one it is in. -/
def ofDirs (paths : List Path) (hroot : [] ∈ paths)
    (h : ∀ p ∈ paths, p ≠ [] → Proper (p.getLastD "") ∧ p.dropLast ∈ paths) : Fs :=
  have hentry : ∀ {p i}, (if p ∈ paths then some (paths.idxOf p) else none) = some i →
      p ∈ paths ∧ paths.idxOf p = i := by
    intro p i hi
    split at hi
    · next hp => exact ⟨hp, Option.some.inj hi⟩
    · cases hi
  { entry := fun p => if p ∈ paths then some (paths.idxOf p) else none
    inode := fun _ => ⟨.dir, 0o755, 0, 0, false⟩
    next := paths.length
    root := by
      rw [if_pos hroot]
      rfl
    parents := by
      intro p n i hi
      obtain ⟨hname, hp⟩ := h _ (hentry hi).1 (snoc_ne_nil p n)
      rw [List.getLastD_concat] at hname
      rw [List.dropLast_concat] at hp
      rw [if_pos hp]
      exact ⟨hname, rfl⟩
    bounded := by
      intro p i hi
      obtain ⟨hp, rfl⟩ := hentry hi
      exact List.idxOf_lt_length_of_mem hp
    single := by
      intro p q i hp hq _
      obtain ⟨hp, hpi⟩ := hentry hp
      obtain ⟨-, hqi⟩ := hentry hq
      exact (List.idxOf_inj hp).mp (hpi.trans hqi.symm) }

/-! ## Where a path leads -/

/-- One stretch of the way, up to a link, from which `follow` goes on. -/
def descend (t : Fs) (follow : Path → List String → String → Option Path) : List String → Path → Option Path
  | [], dir => some dir
  | name :: rest, dir =>
    if name = "" ∨ name = "." then descend t follow rest dir
    else if name = ".." then descend t follow rest dir.dropLast
    else match t.kindAt (dir ++ [name]) with
      | some .dir => descend t follow rest (dir ++ [name])
      | some (.link target) => follow dir rest target
      | _ => none

/-- The directory that the names lead to from a directory, over so many links at most. -/
def lead (t : Fs) : ℕ → List String → Path → Option Path
  | 0 => descend t fun _ _ _ => none
  | n + 1 => descend t fun dir rest target =>
    lead t n (Text.split '/' target ++ rest) (if Text.startsWith target "/" then [] else dir)

def maxLinks : ℕ := 40

/-- The directory of the last name of a path from a directory, and the name. -/
def spot (t : Fs) (path : List String) (from_ : Path) : Option (Path × String) :=
  match path.getLast? with
  | none => none
  | some name => (t.lead maxLinks path.dropLast from_).map fun dir => (dir, name)

/-- What a last name stands for in a directory. -/
def settle (dir : Path) (name : String) : Path :=
  if name = "" ∨ name = "." then dir else if name = ".." then dir.dropLast else dir ++ [name]

/-- Where a path leads when a link at its end is not followed. -/
def locate (t : Fs) (path : List String) : Option Path :=
  if path = [] then some [] else (t.spot path []).map fun s => settle s.1 s.2

/-- Where a path leads when a link at its end is followed. -/
def chase (t : Fs) : ℕ → Path → Option Path
  | 0, p => match t.kindAt p with
    | some (.link _) => none
    | _ => some p
  | n + 1, p => match t.kindAt p with
    | some (.link target) =>
      ((t.spot (Text.split '/' target) (if Text.startsWith target "/" then [] else p.dropLast)).map
        fun s => settle s.1 s.2).bind (chase t n)
    | _ => some p

def reach (t : Fs) (path : List String) : Option Path := (t.locate path).bind (t.chase maxLinks)

theorem descend_proper {t : Fs} {follow : Path → List String → String → Option Path} {names dir : Path}
    (h : t.IsDir (dir ++ names)) : descend t follow names dir = some (dir ++ names) := by
  induction names generalizing dir with
  | nil => rw [descend, List.append_nil]
  | cons name rest ih =>
    rw [List.append_cons] at h
    obtain ⟨i, hi, hkind⟩ := isDir_iff.mp (isDir_of_append h)
    obtain ⟨⟨hempty, hhere, hup⟩, -⟩ := t.proper_of_entry hi
    rw [descend, if_neg (not_or.mpr ⟨hempty, hhere⟩), if_neg hup, kindAt_of_entry hi, hkind]
    dsimp only
    rw [ih h, ← List.append_cons]

/-- A path of directories leads where it says. -/
theorem lead_proper {t : Fs} (n : ℕ) {names dir : Path} (h : t.IsDir (dir ++ names)) :
    t.lead n names dir = some (dir ++ names) := by
  cases n with
  | zero => exact descend_proper h
  | succ n => exact descend_proper h

theorem spot_proper {t : Fs} {dir : Path} (name : String) (h : t.IsDir dir) :
    t.spot (dir ++ [name]) [] = some (dir, name) := by
  have hlead : t.lead maxLinks dir [] = some dir := lead_proper maxLinks h
  rw [spot, List.getLast?_concat, List.dropLast_concat]
  dsimp only
  rw [hlead]
  rfl

theorem isDir_dropLast {t : Fs} {p : Path} (h : t.IsDir p) : t.IsDir p.dropLast := by
  cases p using List.reverseRecOn with
  | nil => exact h
  | append_singleton dir name =>
    rw [List.dropLast_concat]
    exact isDir_of_append h

theorem descend_isDir {t : Fs} {follow : Path → List String → String → Option Path} {names dir d : Path}
    (hfollow : ∀ dir rest target, t.IsDir dir → follow dir rest target = some d → t.IsDir d) (h : t.IsDir dir)
    (hd : descend t follow names dir = some d) : t.IsDir d := by
  induction names generalizing dir with
  | nil => exact Option.some.inj hd ▸ h
  | cons name rest ih =>
    rw [descend] at hd
    split at hd
    · exact ih h hd
    · split at hd
      · exact ih (isDir_dropLast h) hd
      · split at hd
        · next hnext => exact ih hnext hd
        · exact hfollow dir rest _ h hd
        · cases hd

/-- What the names lead to is a directory. -/
theorem lead_isDir {t : Fs} (n : ℕ) {names dir d : Path} (h : t.IsDir dir) (hd : t.lead n names dir = some d) :
    t.IsDir d := by
  induction n generalizing names dir with
  | zero => exact descend_isDir (fun _ _ _ _ hnone => by cases hnone) h hd
  | succ n ih =>
    refine descend_isDir (fun dir rest target hdir hfollow => ih ?_ hfollow) h hd
    split
    · exact t.isDir_root
    · exact hdir

theorem spot_isDir {t : Fs} {path dir : Path} {name : String} (h : t.spot path [] = some (dir, name)) :
    t.IsDir dir := by
  unfold spot at h
  split at h
  · cases h
  · obtain ⟨d, hlead, heq⟩ := Option.map_eq_some_iff.mp h
    cases heq
    exact lead_isDir maxLinks t.isDir_root hlead

theorem settle_plain {name : String} (dir : Path) (h : Plain name) : settle dir name = dir ++ [name] := by
  rw [settle, if_neg (not_or.mpr ⟨h.1, h.2.1⟩), if_neg h.2.2]

theorem locate_of_spot {t : Fs} {path dir : Path} {name : String} (h : t.spot path [] = some (dir, name)) :
    t.locate path = some (settle dir name) := by
  have hne : path ≠ [] := by
    rintro rfl
    cases h
  rw [locate, if_neg hne, h]
  rfl

theorem locate_plain {t : Fs} {dir : Path} {name : String} (h : t.IsDir dir) (hname : Plain name) :
    t.locate (dir ++ [name]) = some (dir ++ [name]) := by
  rw [locate_of_spot (spot_proper name h), settle_plain dir hname]

theorem locate_isDir {t : Fs} {p : Path} (h : t.IsDir p) : t.locate p = some p := by
  cases p using List.reverseRecOn with
  | nil => exact if_pos rfl
  | append_singleton dir name =>
    obtain ⟨i, hi, -⟩ := isDir_iff.mp h
    exact locate_plain (t.isDir_of_entry hi) (t.proper_of_entry hi).1

theorem chase_of_not_link {t : Fs} (n : ℕ) {p : Path} (h : ∀ target, t.kindAt p ≠ some (.link target)) :
    t.chase n p = some p := by
  cases n with
  | zero | succ =>
    unfold chase
    split
    · next target hlink => exact absurd hlink (h target)
    · rfl

theorem reach_of_locate {t : Fs} {path loc : Path} (h : t.locate path = some loc)
    (hlink : ∀ target, t.kindAt loc ≠ some (.link target)) : t.reach path = some loc := by
  rw [reach, h]
  exact chase_of_not_link maxLinks hlink

/-- A path on which every name is a directory, or is not there. -/
structure Unlinked (t : Fs) (p : Path) : Prop where
  plain : ∀ n ∈ p, Plain n
  clear : ∀ q, q <+: p → t.entry q = none ∨ t.IsDir q

theorem unlinked_of_isDir {t : Fs} {p : Path} (h : t.IsDir p) : t.Unlinked p := by
  have hfronts : ∀ q, q <+: p → t.IsDir q := by
    rintro q ⟨r, rfl⟩
    exact isDir_of_append h
  refine ⟨fun n hn => ?_, fun q hq => Or.inr (hfronts q hq)⟩
  obtain ⟨front, back, rfl⟩ := List.append_of_mem hn
  obtain ⟨i, hi, -⟩ := isDir_iff.mp (hfronts (front ++ [n]) ⟨back, by simp⟩)
  exact (t.proper_of_entry hi).1

theorem descend_unlinked {t : Fs} {follow : Path → List String → String → Option Path} {names dir d : Path}
    (h : t.Unlinked (dir ++ names)) (hd : descend t follow names dir = some d) : d = dir ++ names := by
  induction names generalizing dir with
  | nil =>
    rw [descend] at hd
    rw [List.append_nil]
    exact (Option.some.inj hd).symm
  | cons name rest ih =>
    obtain ⟨hempty, hhere, hup⟩ := h.plain name (by simp)
    rw [descend, if_neg (not_or.mpr ⟨hempty, hhere⟩), if_neg hup] at hd
    rw [List.append_cons] at h ⊢
    rcases h.clear (dir ++ [name]) (List.prefix_append _ _) with hnone | hdir
    · rw [kindAt, hnone] at hd
      cases hd
    · rw [hdir] at hd
      exact ih h hd

theorem spot_unlinked {t : Fs} {p dir : Path} {name name' : String} (h : t.Unlinked p)
    (hspot : t.spot (p ++ [name]) [] = some (dir, name')) : dir = p ∧ name' = name := by
  rw [spot, List.getLast?_concat, List.dropLast_concat] at hspot
  obtain ⟨d, hlead, heq⟩ := Option.map_eq_some_iff.mp hspot
  cases heq
  have hunlinked : t.Unlinked ([] ++ p) := h
  exact ⟨descend_unlinked hunlinked hlead, rfl⟩

end Fs

/-! ## Calls -/

inductive Call
  | lstat (path : Path)
  | isDir (path : Path)
  | readLink (path : Path)
  | unlink (path : Path)
  | removeAll (path : Path)
  | mkdir (path : Path) (mode : ℕ)
  | mknod (path : Path) (kind : Kind) (mode : ℕ)
  | symlink (target : String) (path : Path)
  | hardLink (old path : Path)
  | create (path : Path) (mode : ℕ)
  | write (i : ℕ) (data : List UInt8)
  | chmod (path : Path) (mode : ℕ)
  | lchown (path : Path) (uid gid : ℕ)
  | setOpaque (path : Path)
  deriving DecidableEq, Repr

def Answer : Call → Type
  | .lstat _ => Option Kind
  | .isDir _ => Bool
  | .readLink _ => Except String String
  | .create .. => Except String ℕ
  | _ => Except String Unit

/-- Who makes the calls. -/
structure Creds where
  uid : ℕ := 0
  gid : ℕ := 0
  umask : ℕ := 0o022
  deriving DecidableEq, Repr

/-- A call may be refused, and a recursive removal that is refused has removed some of what it was to remove. -/
structure Choice where
  refuse : Option String := none
  gone : List Path := []
  deriving DecidableEq, Repr

def noEntry : String := "No such file or directory (os error 2)"
def existing : String := "File exists (os error 17)"
def isDirectory : String := "Is a directory (os error 21)"
def notDirectory : String := "Not a directory (os error 20)"
def invalidArgument : String := "Invalid argument (os error 22)"
def notPermitted : String := "Operation not permitted (os error 1)"
def notEmpty : String := "Directory not empty (os error 39)"

/-- The rights that a file loses when it gets another owner, even from the superuser. -/
def dropSpecial (mode : ℕ) : ℕ :=
  let dropped := if mode.testBit 3 then 0o6000 else 0o4000
  mode - (mode &&& dropped)

namespace Inode

def chmod (mode : ℕ) (x : Inode) : Inode := { x with mode }

def chown (uid gid : ℕ) (x : Inode) : Inode :=
  { x with uid, gid, mode := if x.kind = .dir then x.mode else dropSpecial x.mode }

def hide (x : Inode) : Inode := { x with isOpaque := true }

theorem chmod_kind (mode : ℕ) (x : Inode) : (x.chmod mode).kind = x.kind := rfl

theorem chown_kind (uid gid : ℕ) (x : Inode) : (x.chown uid gid).kind = x.kind := rfl

theorem hide_kind (x : Inode) : x.hide.kind = x.kind := rfl

end Inode

namespace Fs

def newEntry (t : Fs) (spot : Option (Path × String)) (x : Inode) : Except String Fs :=
  match spot with
  | none => .error noEntry
  | some (dir, name) =>
    if h : t.IsDir dir ∧ Proper name ∧ t.entry (dir ++ [name]) = none then
      .ok (t.put dir name t.next x (t.next + 1) h.1 h.2.1 h.2.2
        (.inl fun _ hp => Nat.lt_irrefl _ (t.bounded _ _ hp)) (Nat.lt_succ_self _) (Nat.le_succ _))
    else .error existing

def alterAt (t : Fs) (loc : Option Path) (f : Inode → Inode) (hf : ∀ x, (f x).kind = x.kind) : Except String Fs :=
  match loc.bind t.entry with
  | none => .error noEntry
  | some i => .ok (t.alter i (f (t.inode i)) (by rw [hf]))

def unlink (t : Fs) (path : Path) : Except String Fs :=
  match t.locate path with
  | none => .error noEntry
  | some loc => match t.kindAt loc with
    | none => .error noEntry
    | some .dir => .error isDirectory
    | some _ => .ok (t.prune (fun q => decide (q = loc) && !q.isEmpty) (Bool.and_false _))

def hardLink (t : Fs) (old path : Path) : Except String Fs :=
  match (t.locate old).bind t.entry, t.spot path [] with
  | some i, some (dir, name) =>
    if (t.inode i).kind = .dir then .error notPermitted
    else if h : t.IsDir dir ∧ Proper name ∧ t.entry (dir ++ [name]) = none ∧ (t.inode i).kind ≠ .dir ∧ i < t.next then
      .ok (t.put dir name i (t.inode i) t.next h.1 h.2.1 h.2.2.1 (.inr ⟨rfl, h.2.2.2.1⟩) h.2.2.2.2 (Nat.le_refl _))
    else .error existing
  | _, _ => .error noEntry

/-- What `rmdir` says of an emptied directory that it does not remove: the way to it led through what is gone, or its
path ends in a way that is not taken. -/
def rmdirRefusal (dir : Path) (name : String) : Option String :=
  if name = ".." then some (if dir = [] then notEmpty else noEntry)
  else if name = "." ∨ settle dir name = [] then some invalidArgument
  else none

/-- What lies below a directory goes away, and then the directory itself if `rmdir` removes it. -/
def removeAll (t : Fs) (path : Path) (w : Choice) : Except String Unit × Fs :=
  match t.spot path [] with
  | none => (.error noEntry, t)
  | some (dir, name) =>
    let loc := settle dir name
    match t.kindAt loc with
    | none => (.error noEntry, t)
    | some .dir => match w.refuse with
      | some e => (.error e, t.prune (fun q => loc.isPrefixOf q && w.gone.contains q && !q.isEmpty) (Bool.and_false _))
      | none =>
        match rmdirRefusal dir name with
        | some e => (.error e, t.prune (fun q => loc.isPrefixOf q && decide (q ≠ loc) && !q.isEmpty) (Bool.and_false _))
        | none => (.ok (), t.prune (fun q => decide (q = loc) && !q.isEmpty) (Bool.and_false _))
    | some (.link _) => match w.refuse with
      | some e => (.error e, t)
      | none => (.ok (), t.prune (fun q => decide (q = loc) && !q.isEmpty) (Bool.and_false _))
    | some _ => (.error notDirectory, t)

/-- A file that is there is cut to nothing; what is there and no file is not written to. -/
def create (t : Fs) (path : Path) (x : Inode) : Except String (ℕ × Fs) :=
  match t.reach path with
  | none => .error noEntry
  | some loc => match t.entry loc with
    | some i => match hk : (t.inode i).kind with
      | .file _ => .ok (i, t.alter i { t.inode i with kind := .file [] } (by simp [hk]))
      | .dir => .error isDirectory
      | _ => .error notPermitted
    | none => match loc.getLast? with
      | none => .error isDirectory
      | some name => (t.newEntry (some (loc.dropLast, name)) x).map fun t' => (t.next, t')

def write (t : Fs) (i : ℕ) (data : List UInt8) : Except String Fs :=
  match hk : (t.inode i).kind with
  | .file old => .ok (t.alter i { t.inode i with kind := .file (old ++ data) } (by rw [hk]; simp))
  | _ => .error notPermitted

end Fs

/-- The call as far as it answers with nothing but success. -/
def effect (me : Creds) : Call → Fs → Except String Fs
  | .unlink path, t => t.unlink path
  | .mkdir path mode, t => t.newEntry (t.spot path []) ⟨.dir, mode - (mode &&& me.umask), me.uid, me.gid, false⟩
  | .mknod path kind mode, t =>
    if kind = .dir then .error notPermitted
    else t.newEntry (t.spot path []) ⟨kind, mode - (mode &&& me.umask), me.uid, me.gid, false⟩
  | .symlink target path, t => t.newEntry (t.spot path []) ⟨.link target, 0o777, me.uid, me.gid, false⟩
  | .hardLink old path, t => t.hardLink old path
  | .write i data, t => t.write i data
  | .chmod path mode, t => t.alterAt (t.reach path) (Inode.chmod mode) (Inode.chmod_kind mode)
  | .lchown path uid gid, t => t.alterAt (t.locate path) (Inode.chown uid gid) (Inode.chown_kind uid gid)
  | .setOpaque path, t => t.alterAt (t.reach path) Inode.hide Inode.hide_kind
  | _, t => .ok t

/-- What a call with an effect answers. -/
def perform (me : Creds) (call : Call) (w : Choice) (t : Fs) : Except String Unit × Fs :=
  match w.refuse with
  | some e => (.error e, t)
  | none => match effect me call t with
    | .error e => (.error e, t)
    | .ok t' => (.ok (), t')

def exec (me : Creds) (call : Call) (w : Choice) (t : Fs) : Answer call × Fs :=
  match call with
  | .lstat path => ((t.locate path).bind t.kindAt, t)
  | .isDir path => (decide ((t.reach path).bind t.kindAt = some .dir), t)
  | .readLink path => match w.refuse with
    | some e => (.error e, t)
    | none => match (t.locate path).bind t.kindAt with
      | some (.link target) => (.ok target, t)
      | _ => (.error invalidArgument, t)
  | .removeAll path => t.removeAll path w
  | .create path mode => match w.refuse with
    | some e => (.error e, t)
    | none => match t.create path ⟨.file [], mode - (mode &&& me.umask), me.uid, me.gid, false⟩ with
      | .error e => (.error e, t)
      | .ok (i, t') => (.ok i, t')
  | .unlink path => perform me (.unlink path) w t
  | .mkdir path mode => perform me (.mkdir path mode) w t
  | .mknod path kind mode => perform me (.mknod path kind mode) w t
  | .symlink target path => perform me (.symlink target path) w t
  | .hardLink old path => perform me (.hardLink old path) w t
  | .write i data => perform me (.write i data) w t
  | .chmod path mode => perform me (.chmod path mode) w t
  | .lchown path uid gid => perform me (.lchown path uid gid) w t
  | .setOpaque path => perform me (.setOpaque path) w t

end Collocate.Posix
