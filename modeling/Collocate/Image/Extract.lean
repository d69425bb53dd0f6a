import Collocate.Lib.PosixCalls
import Collocate.Image.Resolving

/-! # Extracting a layer, call by call (`collocate-image/src/extract.rs`)

`extract_layer` with the calls it makes of the kernel, on a whole filesystem: paths are given from its root, and a link
that one of them meets is followed as the kernel follows it. `dest` is where its own name leads: no name of it is a
link. Names are text, without NUL. -/
namespace Collocate.Image.Extract
set_option autoImplicit false

open Posix (Path Call Creds)

abbrev Work := Job Posix.Call Posix.Answer Error

/-! ## Archives -/

inductive EntryType
  | regular
  | continuous
  | gnuSparse
  | directory
  | symlink
  | link
  | char
  | block
  | fifo
  | other
  deriving DecidableEq, Repr

/-- An entry of an archive as the reader hands it over: a field of the header that cannot be parsed is `none`, and
`fault` is what reading the data ends with. -/
structure TarEntry where
  path : String
  kind : EntryType
  mode : Option ℕ := some 0o644
  uid : Option ℕ := some 0
  gid : Option ℕ := some 0
  linkName : Option String := none
  device : Except String (Option ℕ × Option ℕ) := .ok (none, none)
  data : List UInt8 := []
  fault : Option String := none

structure Stats where
  files : ℕ := 0
  whiteouts : ℕ := 0
  opaqueDirs : ℕ := 0
  deriving DecidableEq, Repr

/-! ## Calls -/

def ask (call : Call) : Work (Posix.Answer call) := Job.ask call

/-- The `?` behind a call. -/
def demand {α : Type} (answer : Except String α) : Work α := Job.lift (answer.mapError .io)

def createDir (path : Path) : Work Unit := do
  let r ← ask (.mkdir path 0o777)
  demand r

def clean (path : String) : Result (List String) :=
  if ".." ∈ components path then .error (.invalid s!"path traversal in layer entry {Text.debugStr path}")
  else .ok (components path)

/-! ## Directories -/

/-- What is done with a component that is no link. -/
def enterDir (path : Path) : Option Posix.Kind → Work Unit
  | some .dir => pure ()
  | some _ => do
    demand (← ask (.unlink path))
    createDir path
  | none => createDir path

def descend (dest : Path) (follow : List String → String → List String → Work (List String)) :
    List String → List String → Work (List String)
  | [], resolved => pure resolved
  | part :: pending, resolved => do
    match ← ask (.lstat (dest ++ (resolved ++ [part]))) with
    | some (.link _) => follow resolved part pending
    | kind => do
      enterDir (dest ++ (resolved ++ [part])) kind
      descend dest follow pending (resolved ++ [part])

/-- The loop of `resolve_dir`, of which `left` links may still be followed. -/
def resolveFrom (dest : Path) : ℕ → List String → List String → Work (List String)
  | 0 => descend dest fun _ _ _ => Job.throw Resolving.tooManyLinks
  | left + 1 => descend dest fun resolved part pending => do
    let target ← demand (← ask (.readLink (dest ++ (resolved ++ [part]))))
    let (resolved, fresh) := Resolving.expand resolved target
    resolveFrom dest left (fresh ++ pending) resolved

def resolveDir (dest : Path) (parts : List String) : Work (List String) :=
  resolveFrom dest Resolving.maxSymlinkDepth parts []

def parentAndName (dest : Path) (rel : List String) : Work (Path × String) :=
  match rel.getLast? with
  | none => Job.throw (.invalid "empty layer entry name")
  | some name => do
    let dir ← resolveDir dest rel.dropLast
    pure (dest ++ dir, name)

/-! ## Entries -/

def removeExisting (path : Path) : Work Unit := do
  match ← ask (.lstat path) with
  | some .dir => demand (← ask (.removeAll path))
  | some _ => demand (← ask (.unlink path))
  | none => pure ()

def isRoot (me : Creds) : Bool := me.uid == 0

/-- The result of the call is not looked at. -/
def chown (me : Creds) (path : Path) (uid gid : ℕ) : Work Unit :=
  if isRoot me then do
    let _ ← ask (.lchown path uid gid)
    pure ()
  else pure ()

def setPermissions (path : Path) (mode : ℕ) : Work Unit := do demand (← ask (.chmod path mode))

def mknodWhiteout (path : Path) : Work Unit := do demand (← ask (.mknod path (.char 0) 0))

def setOpaque (dir : Path) : Work Unit := do demand (← ask (.setOpaque dir))

/-- `makedev` of the C library. -/
def makedev (major minor : ℕ) : ℕ :=
  (major &&& 0xfffff000) <<< 32 ||| (major &&& 0xfff) <<< 8 ||| (minor &&& 0xffffff00) <<< 12 ||| (minor &&& 0xff)

def headerMode (e : TarEntry) : ℕ := e.mode.getD 0o644 &&& 0o7777

/-- `uid as u32`. -/
def ownerId (id : Option ℕ) : ℕ := id.getD 0 % 2 ^ 32

def extractDir (me : Creds) (dest : Path) (e : TarEntry) (rel : List String) : Work Unit := do
  let dir ← resolveDir dest rel
  setPermissions (dest ++ dir) (headerMode e)
  chown me (dest ++ dir) (ownerId e.uid) (ownerId e.gid)

/-- A name that starts with `.wh.`, of which `target` is the rest. -/
def extractMarker (mode : WhiteoutMode) (parent : Path) (target : String) (stats : Stats) : Work Stats :=
  if target = ".wh..opq" then do
    if mode = .overlay then setOpaque parent
    pure { stats with opaqueDirs := stats.opaqueDirs + 1 }
  else if !Text.startsWith target ".wh." then do
    if mode = .overlay then do
      removeExisting (parent ++ [target])
      mknodWhiteout (parent ++ [target])
    pure { stats with whiteouts := stats.whiteouts + 1 }
  else pure stats

def extractFile (me : Creds) (path : Path) (e : TarEntry) : Work Unit := do
  removeExisting path
  let f ← demand (← ask (.create path 0o666))
  demand (← ask (.write f e.data))
  match e.fault with
  | some fault => Job.throw (.io fault)
  | none => pure ()
  setPermissions path (headerMode e)
  chown me path (ownerId e.uid) (ownerId e.gid)

def extractSymlink (me : Creds) (path : Path) (e : TarEntry) : Work Unit :=
  match e.linkName with
  | none => Job.throw (.invalid "symlink without target")
  | some target => do
    removeExisting path
    demand (← ask (.symlink target path))
    chown me path (ownerId e.uid) (ownerId e.gid)

def extractLink (dest path : Path) (e : TarEntry) : Work Unit :=
  match e.linkName with
  | none => Job.throw (.invalid "hardlink without target")
  | some target => do
    let trel ← Job.lift (clean target)
    let (tparent, tname) ← parentAndName dest trel
    removeExisting path
    demand (← ask (.hardLink (tparent ++ [tname]) path))

def deviceKind (kind : EntryType) (dev : ℕ) : Posix.Kind :=
  match kind with
  | .char => .char dev
  | .block => .block dev
  | _ => .fifo

/-- The result of `mknod` is not looked at. -/
def extractDevice (me : Creds) (path : Path) (e : TarEntry) : Work Unit :=
  if isRoot me then do
    removeExisting path
    let (major, minor) ← demand e.device
    let _ ← ask (.mknod path (deviceKind e.kind (makedev (major.getD 0) (minor.getD 0))) (headerMode e))
    pure ()
  else pure ()

def extractNode (me : Creds) (dest path : Path) (e : TarEntry) : Work Unit :=
  match e.kind with
  | .regular | .continuous | .gnuSparse => extractFile me path e
  | .symlink => extractSymlink me path e
  | .link => extractLink dest path e
  | .char | .block | .fifo => extractDevice me path e
  | .directory | .other => pure ()

/-! ## Layers -/

def extractEntry (me : Creds) (dest : Path) (mode : WhiteoutMode) (e : TarEntry) (stats : Stats) : Work Stats := do
  let rel ← Job.lift (clean e.path)
  if rel = [] then pure stats
  else if e.kind = .directory then do
    extractDir me dest e rel
    pure stats
  else do
    let (parent, name) ← parentAndName dest rel
    match Text.stripPrefix ".wh." name with
    | some target => extractMarker mode parent target stats
    | none => do
      extractNode me dest (parent ++ [name]) e
      pure { stats with files := stats.files + 1 }

/-- The loop over the entries, which come as far as the archive can be read. -/
def extractEntries (me : Creds) (dest : Path) (mode : WhiteoutMode) : List (Except String TarEntry) → Stats → Work Stats
  | [], stats => pure stats
  | item :: items, stats => do
    let e ← demand item
    let stats ← extractEntry me dest mode e stats
    extractEntries me dest mode items stats

def isDir (path : Path) : Work Bool := ask (.isDir path)

/-- `fs::create_dir_all`, on the names from the last to the first. -/
def createDirAll : List String → Work Unit
  | [] => pure ()
  | name :: names => do
    let path := (name :: names).reverse
    match ← ask (.mkdir path 0o777) with
    | .ok () => pure ()
    | .error e =>
      if e = Posix.noEntry then do
        createDirAll names
        match ← ask (.mkdir path 0o777) with
        | .ok () => pure ()
        | .error e => do
          if ← isDir path then pure () else Job.throw (.io e)
      else do
        if ← isDir path then pure () else Job.throw (.io e)

def extractLayer (me : Creds) (dest : Path) (mode : WhiteoutMode) (items : List (Except String TarEntry)) :
    Work Stats := do
  createDirAll dest.reverse
  extractEntries me dest mode items {}

/-! ## Undisturbed runs -/

/-- The whole job when nothing is refused. -/
def run {α : Type} (me : Creds) (job : Work α) (s : Posix.Fs) : Result α × Posix.Fs :=
  Job.finish (Posix.exec me) {} job s

theorem run_goes {α : Type} (me : Creds) (job : Work α) (s : Posix.Fs) :
    Job.Goes (Posix.exec me) (fun _ _ _ => True) job s (.done (run me job s).1) (run me job s).2 :=
  Job.goes_finish (fun _ _ => trivial) job s

section Run
variable {me : Creds} {α β : Type} {s s' : Posix.Fs}

theorem run_bind {m : Work α} {a : α} (h : run me m s = (.ok a, s')) (f : α → Work β) :
    run me (m >>= f) s = run me (f a) s' := by
  rw [run, Job.finish_bind]
  rw [run] at h
  rw [h]
  rfl

theorem run_bind_error {m : Work α} {e : Error} (h : run me m s = (.error e, s')) (f : α → Work β) :
    run me (m >>= f) s = (.error e, s') := by
  rw [run, Job.finish_bind]
  rw [run] at h
  rw [h]

theorem run_ask (call : Call) :
    run me (ask call) s = (.ok (Posix.exec me call {} s).1, (Posix.exec me call {} s).2) := rfl

theorem run_lstat (path : Path) : run me (ask (.lstat path)) s = (.ok ((s.locate path).bind s.kindAt), s) := rfl

theorem run_pure (a : α) : run me (pure a : Work α) s = (.ok a, s) := rfl

/-- A call that answers with success. -/
theorem run_tried (call : Call) (f : Posix.Answer call → Except String α) {a : α} {k : α → Work β}
    (h : f (Posix.exec me call {} s).1 = .ok a) :
    run me (ask call >>= fun r => demand (f r) >>= k) s = run me (k a) (Posix.exec me call {} s).2 := by
  rw [run_bind (run_ask call), h]
  rfl

end Run

end Collocate.Image.Extract
