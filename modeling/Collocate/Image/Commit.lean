import Collocate.Image.Extract

/-! # Archiving an upper directory (`collocate-image/src/commit.rs`)

`tar_layer` goes down a directory and writes an entry for everything in it: a whiteout of an overlay and the mark of an
opaque directory become files whose names start with `.wh.`, and the second and later names of a file become links to
the first. Reading does not fail here. -/
namespace Collocate.Image.Commit
set_option autoImplicit false

open Posix (Path Fs Inode)
open Extract (TarEntry EntryType Stats)

/-! ## The directory that is archived -/

/-- A directory as it can be read: `readDir` lists what is in a directory below it, in any order, and `nlink` counts the
names of an inode. `linkText` is what an archive keeps of the target of a link. -/
structure Upper where
  fs : Fs
  src : Path
  isDir : fs.IsDir src
  readDir : Path → List String
  listed : ∀ p n, n ∈ readDir p ↔ ∃ i, fs.entry (src ++ (p ++ [n])) = some i
  distinct : ∀ p, (readDir p).Nodup
  depth : ℕ
  shallow : ∀ p i, fs.entry (src ++ p) = some i → p.length ≤ depth
  nlink : ℕ → ℕ
  counted : ∀ p q i, fs.entry p = some i → fs.entry q = some i → p ≠ q → 1 < nlink i
  linkText : String → String

namespace Upper

def entry (u : Upper) (p : Path) : Option ℕ := u.fs.entry (u.src ++ p)

def inode (u : Upper) (i : ℕ) : Inode := u.fs.inode i

/-- `entries.sort_by_key(|e| e.file_name())`. -/
def sorted (u : Upper) (p : Path) : List String := (u.readDir p).mergeSort fun a b => decide (a ≤ b)

end Upper

/-! ## Entries -/

def pathText (p : Path) : String := Text.joinWith "/" p

def dirEntry (rel : Path) (x : Inode) : TarEntry :=
  { path := pathText rel ++ "/", kind := .directory, mode := some (x.mode &&& 0o7777), uid := some x.uid,
    gid := some x.gid }

/-- The header has no owner. -/
def markerEntry (path : Path) : TarEntry :=
  { path := pathText path, kind := .regular, mode := some 0o644, uid := none, gid := none }

def regularEntry (rel : Path) (x : Inode) (data : List UInt8) : TarEntry :=
  { path := pathText rel, kind := .regular, mode := some (x.mode &&& 0o7777), uid := some x.uid, gid := some x.gid,
    data }

def symlinkEntry (u : Upper) (rel : Path) (target : String) : TarEntry :=
  { path := pathText rel, kind := .symlink, mode := some 0o777, uid := none, gid := none,
    linkName := some (u.linkText target) }

def hardlinkEntry (u : Upper) (rel first : Path) (x : Inode) : TarEntry :=
  { path := pathText rel, kind := .link, mode := some (x.mode &&& 0o7777), uid := none, gid := none,
    linkName := some (u.linkText (pathText first)) }

/-! ## The walk -/

/-- What has been written, and the first path of each file with several names. -/
structure Walk where
  entries : List TarEntry := []
  inodes : ℕ → Option Path := fun _ => none
  stats : Stats := {}

namespace Walk

def append (w : Walk) (e : TarEntry) : Walk := { w with entries := w.entries ++ [e] }

def countFile (w : Walk) : Walk := { w with stats := { w.stats with files := w.stats.files + 1 } }

def countWhiteout (w : Walk) : Walk := { w with stats := { w.stats with whiteouts := w.stats.whiteouts + 1 } }

def countOpaque (w : Walk) : Walk := { w with stats := { w.stats with opaqueDirs := w.stats.opaqueDirs + 1 } }

def remember (w : Walk) (i : ℕ) (rel : Path) : Walk := { w with inodes := Function.update w.inodes i (some rel) }

end Walk

/-- A file, of which an earlier name may have been archived. -/
def walkFile (u : Upper) (rel : Path) (i : ℕ) (data : List UInt8) (w : Walk) : Walk :=
  if 1 < u.nlink i then
    match w.inodes i with
    | some first => (w.append (hardlinkEntry u rel first (u.inode i))).countFile
    | none => ((w.remember i rel).append (regularEntry rel (u.inode i) data)).countFile
  else (w.append (regularEntry rel (u.inode i) data)).countFile

def special (rel : Path) : Error := .invalid s!"cannot commit special file {pathText rel}"

/-- One child of a directory; `down` is what is done with a directory. -/
def walkChild (u : Upper) (down : Path → Walk → Result Walk) (rel : Path) (name : String) (w : Walk) : Result Walk :=
  match u.entry (rel ++ [name]) with
  | none => .ok w
  | some i => match (u.inode i).kind with
    | .dir => down (rel ++ [name]) (w.append (dirEntry (rel ++ [name]) (u.inode i)))
    | .char 0 => .ok (w.append (markerEntry (rel ++ [".wh." ++ name]))).countWhiteout
    | .link target => .ok (w.append (symlinkEntry u (rel ++ [name]) target)).countFile
    | .file data => .ok (walkFile u (rel ++ [name]) i data w)
    | _ => .error (special (rel ++ [name]))

/-- The children of a directory in their order. -/
def walkChildren (u : Upper) (down : Path → Walk → Result Walk) (rel : Path) : List String → Walk → Result Walk
  | [], w => .ok w
  | name :: names, w => (walkChild u down rel name w).bind (walkChildren u down rel names)

def isOpaque (u : Upper) (rel : Path) : Bool :=
  match u.entry rel with
  | some i => (u.inode i).isOpaque
  | none => false

/-- The mark of an opaque directory comes before what is in it. -/
def walkMark (u : Upper) (rel : Path) (w : Walk) : Walk :=
  if isOpaque u rel then (w.append (markerEntry (rel ++ [".wh..wh..opq"]))).countOpaque else w

/-- `walk`, to a depth that no directory exceeds. -/
def walk (u : Upper) : ℕ → Path → Walk → Result Walk
  | 0, _, w => .ok w
  | n + 1, rel, w => walkChildren u (walk u n) rel (u.sorted rel) (walkMark u rel w)

def tarLayer (u : Upper) : Result (List TarEntry × Stats) :=
  (walk u (u.depth + 1) [] {}).map fun w => (w.entries, w.stats)

end Collocate.Image.Commit
