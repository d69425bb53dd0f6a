import Mathlib.Logic.Function.Iterate
import Collocate.Image.Disk

/-! # The directories of layer entries (`collocate-image/src/extract.rs`)

`resolve_dir` goes down the components that lead to an entry of a layer, from the root of the layer, and makes the
directories that are missing. Where it meets a link it goes on as a process would whose root is that of the layer,
except that it takes every `..` of the target before the names. What the filesystem refuses is a parameter. -/
namespace Collocate.Image.Resolving
set_option autoImplicit false

/-! ## Trees -/

inductive Node
  | dir
  | link (target : String)
  | other
  deriving DecidableEq, Repr

/-- What lies below the root of a layer, by its path. Only directories have anything in them. -/
structure Tree where
  node : List String → Option Node
  root : node [] = some .dir
  parents : ∀ path name n, node (path ++ [name]) = some n → node path = some .dir

def Tree.isLink (t : Tree) (path : List String) : Bool :=
  match t.node path with
  | some (.link _) => true
  | _ => false

/-- Something new in a directory, in the place of what is no directory. -/
def Tree.put (t : Tree) (path : List String) (name : String) (n : Node) (hdir : t.node path = some .dir)
    (hfree : n = .dir ∨ t.node (path ++ [name]) ≠ some .dir) : Tree where
  node p := if p = path ++ [name] then some n else t.node p
  root := by
    rw [if_neg (List.append_ne_nil_of_right_ne_nil path (List.cons_ne_nil name [])).symm]
    exact t.root
  parents := by
    intro p m k hk
    by_cases hnew : p ++ [m] = path ++ [name]
    · obtain rfl := (List.append_inj' hnew rfl).1
      rw [if_neg fun heq => absurd (congrArg List.length heq) (by simp)]
      exact hdir
    · rw [if_neg hnew] at hk
      have hp := t.parents p m k hk
      by_cases heq : p = path ++ [name]
      · rw [if_pos heq, hfree.resolve_right fun hne => hne (heq ▸ hp)]
      · rw [if_neg heq]
        exact hp

def Tree.makeDir (t : Tree) (path : List String) (name : String) (h : t.node path = some .dir) : Tree :=
  t.put path name .dir h (.inl rfl)

/-! ## The walk -/

inductive Touch
  | readLink (path : List String)
  | removeFile (path : List String)
  | createDir (path : List String)
  deriving DecidableEq, Repr

abbrev Refuses := Touch → Option String

/-- The paths that a walk has looked at, in their order, and where it has ended with which tree. -/
structure Walked where
  looked : List (List String)
  result : Result (List String × Tree)

def Walked.looking (path : List String) (w : Walked) : Walked := ⟨path :: w.looked, w.result⟩

def maxSymlinkDepth : ℕ := 40
def tooManyLinks : Error := .invalid "too many symbolic links in layer path"
def noSuchDir : Error := .io "No such file or directory (os error 2)"

section Walk
variable (refuses : Refuses)

def touch (call : Touch) : Result Unit :=
  match refuses call with
  | some e => .error (.io e)
  | none => .ok ()

def createDir (t : Tree) (path : List String) (name : String) : Result Tree := do
  touch refuses (.createDir (path ++ [name]))
  if h : t.node path = some .dir then .ok (t.makeDir path name h) else .error noSuchDir

/-- What is done with a component that is no link. -/
def enter (t : Tree) (path : List String) (name : String) : Result Tree :=
  match t.node (path ++ [name]) with
  | some .dir => .ok t
  | some _ => do
    touch refuses (.removeFile (path ++ [name]))
    createDir refuses t path name
  | none => createDir refuses t path name

/-- The parts up to a link, which `follow` goes on from. -/
def descend (follow : List String → String → List String → List String → Tree → Walked) :
    List String → List String → Tree → Walked
  | [], resolved, t => ⟨[], .ok (resolved, t)⟩
  | part :: pending, resolved, t =>
    Walked.looking (resolved ++ [part]) (match t.node (resolved ++ [part]) with
      | some (.link target) => follow (resolved ++ [part]) target pending resolved t
      | _ => match enter refuses t resolved part with
        | .ok t' => descend follow pending (resolved ++ [part]) t'
        | .error e => ⟨[], .error e⟩)

/-- What a target leaves of the directory its link is in, and the names it adds. -/
def expand (resolved : List String) (target : String) : List String × List String :=
  (components target).foldl (fun acc c => if c = ".." then (acc.1.dropLast, acc.2) else (acc.1, acc.2 ++ [c]))
    (if Text.startsWith target "/" then [] else resolved, [])

/-- The loop of `resolve_dir`, of which `left` links may still be followed. -/
def resolveFrom : ℕ → List String → List String → Tree → Walked
  | 0 => descend refuses fun _ _ _ _ _ => ⟨[], .error tooManyLinks⟩
  | left + 1 => descend refuses fun path target pending resolved t =>
    match refuses (.readLink path) with
    | some e => ⟨[], .error (.io e)⟩
    | none => resolveFrom left ((expand resolved target).2 ++ pending) (expand resolved target).1 t

def resolveDir (parts : List String) (t : Tree) : Walked := resolveFrom refuses maxSymlinkDepth parts [] t

/-! ## The walk below a root

A process whose root is that of the layer takes one component after the other: `..` goes up, and not beyond the root. -/

/-- Where the target of a link in a directory starts. -/
def startOf (resolved : List String) (target : String) : List String :=
  if Text.startsWith target "/" then [] else resolved

def chrootDescend (follow : List String → String → List String → List String → Tree → Walked) :
    List String → List String → Tree → Walked
  | [], resolved, t => ⟨[], .ok (resolved, t)⟩
  | part :: pending, resolved, t =>
    if part = ".." then chrootDescend follow pending resolved.dropLast t
    else Walked.looking (resolved ++ [part]) (match t.node (resolved ++ [part]) with
      | some (.link target) => follow (resolved ++ [part]) target pending resolved t
      | _ => match enter refuses t resolved part with
        | .ok t' => chrootDescend follow pending (resolved ++ [part]) t'
        | .error e => ⟨[], .error e⟩)

def chrootFrom : ℕ → List String → List String → Tree → Walked
  | 0 => chrootDescend refuses fun _ _ _ _ _ => ⟨[], .error tooManyLinks⟩
  | left + 1 => chrootDescend refuses fun path target pending resolved t =>
    match refuses (.readLink path) with
    | some e => ⟨[], .error (.io e)⟩
    | none => chrootFrom left (components target ++ pending) (startOf resolved target) t

def chrootDir (parts : List String) (t : Tree) : Walked := chrootFrom refuses maxSymlinkDepth parts [] t

/-! ## Where the order does not matter -/

/-- How often a target goes up before its first name. -/
def leading (cs : List String) : ℕ := (cs.takeWhile (· = "..")).length

/-- A target from its first name on. -/
def behind (cs : List String) : List String := cs.dropWhile (· = "..")

def straightDescend (follow : List String → String → List String → List String → Tree → Prop) :
    List String → List String → Tree → Prop
  | [], _, _ => True
  | part :: pending, resolved, t =>
    if part = ".." then resolved = [] ∧ straightDescend follow pending [] t
    else match t.node (resolved ++ [part]) with
      | some (.link target) => follow (resolved ++ [part]) target pending resolved t
      | _ => match enter refuses t resolved part with
        | .ok t' => straightDescend follow pending (resolved ++ [part]) t'
        | .error _ => True

/-- On the way of a process below the root, a `..` behind a name in the target of a link is only met where it has no
effect: the names of the target start at the root, and so does the `..`. -/
def Straight : ℕ → List String → List String → Tree → Prop
  | 0 => straightDescend refuses fun _ _ _ _ _ => True
  | left + 1 => straightDescend refuses fun path target pending resolved t =>
    refuses (.readLink path) = none →
      let start := List.dropLast^[leading (components target)] (startOf resolved target)
      (".." ∈ behind (components target) → start = []) ∧
        Straight left (behind (components target) ++ pending) start t

end Walk

/-! ## Targets -/

/-- The names of a list of components. -/
def namesOf (cs : List String) : List String := cs.filter (· ≠ "..")

theorem namesOf_append (as bs : List String) : namesOf (as ++ bs) = namesOf as ++ namesOf bs := List.filter_append ..

theorem namesOf_up (cs : List String) : namesOf (".." :: cs) = namesOf cs := by
  rw [namesOf, List.filter_cons_of_neg (by decide)]
  rfl

theorem namesOf_name {c : String} (hc : c ≠ "..") (cs : List String) : namesOf (c :: cs) = c :: namesOf cs :=
  List.filter_cons_of_pos (decide_eq_true hc)

theorem namesOf_of_not_mem {cs : List String} (h : ".." ∉ cs) : namesOf cs = cs :=
  List.filter_eq_self.mpr fun _ hc => decide_eq_true fun heq => h (heq ▸ hc)

theorem foldl_expand (cs : List String) (resolved fresh : List String) :
    cs.foldl (fun acc c => if c = ".." then (acc.1.dropLast, acc.2) else (acc.1, acc.2 ++ [c])) (resolved, fresh) =
      (List.dropLast^[cs.count ".."] resolved, fresh ++ namesOf cs) := by
  induction cs generalizing resolved fresh with
  | nil => simp [namesOf]
  | cons c cs ih =>
    rw [List.foldl_cons]
    by_cases hc : c = ".."
    · subst hc
      rw [if_pos rfl, ih, List.count_cons_self, namesOf_up]
      rfl
    · rw [if_neg hc, ih, List.count_cons_of_ne hc, namesOf_name hc, List.append_assoc]
      rfl

theorem expand_eq (resolved : List String) (target : String) : expand resolved target =
    (List.dropLast^[(components target).count ".."] (startOf resolved target), namesOf (components target)) :=
  foldl_expand (components target) (startOf resolved target) []

theorem leading_up (cs : List String) : leading (".." :: cs) = leading cs + 1 := by
  rw [leading, List.takeWhile_cons_of_pos (by decide)]
  rfl

theorem behind_up (cs : List String) : behind (".." :: cs) = behind cs := by
  rw [behind, List.dropWhile_cons_of_pos (by decide)]
  rfl

theorem leading_name {c : String} (hc : c ≠ "..") (cs : List String) : leading (c :: cs) = 0 := by
  rw [leading, List.takeWhile_cons_of_neg (by simpa using hc)]
  rfl

theorem behind_name {c : String} (hc : c ≠ "..") (cs : List String) : behind (c :: cs) = c :: cs := by
  rw [behind, List.dropWhile_cons_of_neg (by simpa using hc)]

theorem namesOf_behind (cs : List String) : namesOf (behind cs) = namesOf cs := by
  induction cs with
  | nil => rfl
  | cons c cs ih =>
    by_cases hc : c = ".."
    · subst hc
      rw [behind_up, ih, namesOf_up]
    · rw [behind_name hc]

theorem count_eq (cs : List String) : cs.count ".." = leading cs + (behind cs).count ".." := by
  induction cs with
  | nil => rfl
  | cons c cs ih =>
    by_cases hc : c = ".."
    · subst hc
      rw [List.count_cons_self, ih, leading_up, behind_up]
      omega
    · rw [leading_name hc, behind_name hc, Nat.zero_add]

/-- What is behind the leading `..` starts with a name. -/
theorem behind_cases (cs : List String) : behind cs = [] ∨ ∃ c rest, behind cs = c :: rest ∧ c ≠ ".." := by
  induction cs with
  | nil => exact Or.inl rfl
  | cons c cs ih =>
    by_cases hc : c = ".."
    · subst hc
      rw [behind_up]
      exact ih
    · exact Or.inr ⟨c, cs, behind_name hc cs, hc⟩

theorem length_dropLasts (n : ℕ) (l : List String) : (List.dropLast^[n] l).length = l.length - n := by
  induction n generalizing l with
  | zero => rfl
  | succ n ih =>
    rw [Function.iterate_succ_apply, ih, List.length_dropLast]
    omega

/-! ## Where the walks part -/

section Follow
variable {refuses : Refuses} {follow chroot : List String → String → List String → List String → Tree → Walked}

theorem looking_inj {path : List String} {w w' : Walked} : w.looking path = w'.looking path ↔ w = w' := by
  constructor
  · intro h
    have hlooked := congrArg Walked.looked h
    have hresult := congrArg Walked.result h
    cases w
    cases w'
    exact congr (congrArg Walked.mk (List.cons.inj hlooked).2) hresult
  · exact fun h => h ▸ rfl

theorem chrootDescend_up (pending resolved : List String) (t : Tree) :
    chrootDescend refuses chroot (".." :: pending) resolved t =
      chrootDescend refuses chroot pending resolved.dropLast t := by
  rw [chrootDescend, if_pos rfl]

/-- The leading `..` of a target are taken first in either walk. -/
theorem chrootDescend_leading (cs pending resolved : List String) (t : Tree) :
    chrootDescend refuses chroot (cs ++ pending) resolved t =
      chrootDescend refuses chroot (behind cs ++ pending) (List.dropLast^[leading cs] resolved) t := by
  induction cs generalizing resolved with
  | nil => rfl
  | cons c cs ih =>
    by_cases hc : c = ".."
    · subst hc
      rw [List.cons_append, chrootDescend_up, ih, behind_up, leading_up]
      rfl
    · rw [behind_name hc, leading_name hc]
      rfl

/-- The walk below the root looks next at a component of a directory that is not deeper. -/
theorem chrootDescend_next (pending resolved : List String) (t : Tree) :
    ∃ r : List String, r.length ≤ resolved.length ∧
      (namesOf pending = [] → chrootDescend refuses chroot pending resolved t = ⟨[], .ok (r, t)⟩) ∧
      ∀ n rest, namesOf pending = n :: rest →
        (chrootDescend refuses chroot pending resolved t).looked.head? = some (r ++ [n]) := by
  induction pending generalizing resolved with
  | nil => exact ⟨resolved, le_rfl, fun _ => rfl, fun n rest h => nomatch h⟩
  | cons part pending ih =>
    by_cases hpart : part = ".."
    · subst hpart
      obtain ⟨r, hlength, hnil, hcons⟩ := ih resolved.dropLast
      rw [chrootDescend_up, namesOf_up]
      refine ⟨r, ?_, hnil, hcons⟩
      rw [List.length_dropLast] at hlength
      omega
    · rw [namesOf_name hpart]
      refine ⟨resolved, le_rfl, fun h => (List.cons_ne_nil _ _ h).elim, ?_⟩
      intro n rest heq
      rw [(List.cons.inj heq).1.symm, chrootDescend, if_neg hpart]
      rfl

/-- Two walks that have left to see the same names part where their directories lie at different depths. -/
theorem descend_parts {pending resolved r : List String} {t : Tree} {w : Walked} (hlength : r.length ≠ resolved.length)
    (hnil : namesOf pending = [] → w = ⟨[], .ok (r, t)⟩)
    (hcons : ∀ n rest, namesOf pending = n :: rest → w.looked.head? = some (r ++ [n])) :
    descend refuses follow (namesOf pending) resolved t ≠ w := by
  intro heq
  cases hnames : namesOf pending with
  | nil =>
    rw [hnames, hnil hnames, descend] at heq
    have hresult := congrArg Walked.result heq
    cases hresult
    exact hlength rfl
  | cons n rest =>
    have hhead := hcons n rest hnames
    rw [← heq, hnames, descend] at hhead
    have hpath : resolved ++ [n] = r ++ [n] := Option.some.inj hhead
    exact hlength (congrArg List.length (List.append_inj' hpath rfl).1).symm

/-- One stretch of the walks, when they agree about the links that follow. -/
theorem descend_iff {straight : List String → String → List String → List String → Tree → Prop}
    (hfollow : ∀ path target pending resolved t,
      follow path target (namesOf pending) resolved t = chroot path target pending resolved t ↔
        straight path target pending resolved t) (pending resolved : List String) (t : Tree) :
    descend refuses follow (namesOf pending) resolved t = chrootDescend refuses chroot pending resolved t ↔
      straightDescend refuses straight pending resolved t := by
  induction pending generalizing resolved t with
  | nil => exact iff_of_true rfl trivial
  | cons part pending ih =>
    by_cases hpart : part = ".."
    · subst hpart
      rw [namesOf_up, chrootDescend_up, straightDescend, if_pos rfl]
      by_cases hroot : resolved = []
      · subst hroot
        exact (ih [] t).trans (and_iff_right rfl).symm
      · refine iff_of_false ?_ fun h => hroot h.1
        obtain ⟨r, hlength, hnil, hcons⟩ := @chrootDescend_next refuses chroot pending resolved.dropLast t
        refine descend_parts ?_ hnil hcons
        have hpos := List.length_pos_of_ne_nil hroot
        rw [List.length_dropLast] at hlength
        omega
    · rw [namesOf_name hpart, descend, chrootDescend, if_neg hpart, straightDescend, if_neg hpart, looking_inj]
      split
      · exact hfollow _ _ _ _ _
      · cases enter refuses t resolved part with
        | ok t' => exact ih _ t'
        | error e => exact iff_of_true rfl trivial

end Follow

/-! ## The whole walks -/

section Whole
variable {refuses : Refuses}

theorem resolveFrom_descend (left : ℕ) : ∃ follow, resolveFrom refuses left = descend refuses follow := by
  cases left with
  | zero => exact ⟨_, rfl⟩
  | succ left => exact ⟨_, rfl⟩

theorem chrootFrom_descend (left : ℕ) : ∃ follow, chrootFrom refuses left = chrootDescend refuses follow := by
  cases left with
  | zero => exact ⟨_, rfl⟩
  | succ left => exact ⟨_, rfl⟩

/-- A link whose target goes up behind a name, from a directory that is not the root, parts the walks. -/
theorem followed_parts (left : ℕ) {cs : List String} (hstray : ".." ∈ behind cs) (base pending : List String) (t : Tree)
    (hstart : List.dropLast^[leading cs] base ≠ []) :
    resolveFrom refuses left (namesOf (behind cs ++ pending)) (List.dropLast^[cs.count ".."] base) t ≠
      chrootFrom refuses left (behind cs ++ pending) (List.dropLast^[leading cs] base) t := by
  obtain ⟨follow, hfollow⟩ := @resolveFrom_descend refuses left
  obtain ⟨chroot, hchroot⟩ := @chrootFrom_descend refuses left
  obtain hnil | ⟨c, rest, hbehind, hc⟩ := behind_cases cs
  · rw [hnil] at hstray
    cases hstray
  have hcount : 0 < (behind cs).count ".." := List.count_pos_iff.mpr hstray
  have hpos := List.length_pos_of_ne_nil hstart
  have hlength : (List.dropLast^[leading cs] base).length ≠ (List.dropLast^[cs.count ".."] base).length := by
    rw [length_dropLasts] at hpos
    rw [length_dropLasts, length_dropLasts, count_eq]
    omega
  rw [hfollow, hchroot]
  refine descend_parts hlength ?_ ?_
  · intro h
    rw [hbehind, List.cons_append, namesOf_name hc] at h
    cases h
  · intro n names h
    rw [hbehind, List.cons_append, namesOf_name hc] at h
    rw [hbehind, List.cons_append, chrootDescend, if_neg hc, ← (List.cons.inj h).1]
    rfl

theorem resolveFrom_iff (left : ℕ) (pending resolved : List String) (t : Tree) :
    resolveFrom refuses left (namesOf pending) resolved t = chrootFrom refuses left pending resolved t ↔
      Straight refuses left pending resolved t := by
  induction left generalizing pending resolved t with
  | zero => exact descend_iff (fun _ _ _ _ _ => iff_of_true rfl trivial) pending resolved t
  | succ left ih =>
    refine descend_iff ?_ pending resolved t
    intro path target pending resolved t
    cases refuses (.readLink path) with
    | some e => exact iff_of_true rfl fun h => nomatch h
    | none =>
      have hleading : chrootFrom refuses left (components target ++ pending) (startOf resolved target) t =
          chrootFrom refuses left (behind (components target) ++ pending)
            (List.dropLast^[leading (components target)] (startOf resolved target)) t := by
        obtain ⟨chroot, hchroot⟩ := @chrootFrom_descend refuses left
        rw [hchroot]
        exact chrootDescend_leading (components target) pending (startOf resolved target) t
      have hnames : namesOf (components target) ++ namesOf pending =
          namesOf (behind (components target) ++ pending) := by
        rw [namesOf_append, namesOf_behind]
      rw [hleading, expand_eq]
      simp only [hnames, forall_const]
      by_cases hstray : ".." ∈ behind (components target)
      · by_cases hstart : List.dropLast^[leading (components target)] (startOf resolved target) = []
        · have hsame : List.dropLast^[(components target).count ".."] (startOf resolved target) = [] := by
            have hzero := congrArg List.length hstart
            rw [length_dropLasts, List.length_nil] at hzero
            refine List.length_eq_zero_iff.mp ?_
            rw [length_dropLasts, count_eq]
            omega
          rw [hsame, hstart]
          exact (ih _ [] t).trans (and_iff_right fun _ => rfl).symm
        · exact iff_of_false (followed_parts left hstray _ pending t hstart) fun h => hstart (h.1 hstray)
      · have hsame : (components target).count ".." = leading (components target) := by
          rw [count_eq, List.count_eq_zero.mpr hstray, Nat.add_zero]
        rw [hsame]
        exact (ih _ _ t).trans (and_iff_right fun h => absurd h hstray).symm

/-! ## Links and directories -/

theorem touch_ne (call : Touch) : touch refuses call ≠ .error tooManyLinks := by
  unfold touch
  split
  · exact nofun
  · exact nofun

theorem createDir_ne (t : Tree) (path : List String) (name : String) :
    createDir refuses t path name ≠ .error tooManyLinks := by
  intro h
  unfold createDir at h
  cases hcall : touch refuses (.createDir (path ++ [name])) with
  | error e =>
    rw [hcall] at h
    cases h
    exact touch_ne _ hcall
  | ok u =>
    rw [hcall] at h
    by_cases hdir : t.node path = some .dir
    · have hok : (if h : t.node path = some .dir then .ok (t.makeDir path name h) else .error noSuchDir : Result Tree) =
          .error tooManyLinks := h
      rw [dif_pos hdir] at hok
      cases hok
    · have hfailed :
          (if h : t.node path = some .dir then .ok (t.makeDir path name h) else .error noSuchDir : Result Tree) =
          .error tooManyLinks := h
      rw [dif_neg hdir] at hfailed
      cases hfailed

theorem createDir_ok {t t' : Tree} {path : List String} {name : String} (h : createDir refuses t path name = .ok t') :
    t'.node = Function.update t.node (path ++ [name]) (some .dir) := by
  unfold createDir at h
  obtain ⟨u, -, h⟩ := Result.bind_ok h
  by_cases hdir : t.node path = some .dir
  · rw [dif_pos hdir] at h
    cases h
    funext p
    rw [Function.update_apply]
    rfl
  · rw [dif_neg hdir] at h
    cases h

theorem enter_ne (t : Tree) (path : List String) (name : String) : enter refuses t path name ≠ .error tooManyLinks := by
  intro h
  unfold enter at h
  split at h
  · cases h
  · cases hcall : touch refuses (.removeFile (path ++ [name])) with
    | error e =>
      rw [hcall] at h
      cases h
      exact touch_ne _ hcall
    | ok u =>
      rw [hcall] at h
      exact createDir_ne t path name h
  · exact createDir_ne t path name h

/-- Entering a component that is no link leaves a directory there, and every other path as it is. -/
theorem enter_ok {t t' : Tree} {path : List String} {name : String} (h : enter refuses t path name = .ok t') :
    t'.node = Function.update t.node (path ++ [name]) (some .dir) := by
  unfold enter at h
  split at h
  · next hdir =>
    cases h
    rw [← hdir, Function.update_eq_self]
  · obtain ⟨u, -, h⟩ := Result.bind_ok h
    exact createDir_ok h
  · exact createDir_ok h

theorem enter_isLink {t t' : Tree} {path : List String} {name : String} (hlink : t.isLink (path ++ [name]) = false)
    (h : enter refuses t path name = .ok t') : t'.isLink = t.isLink := by
  funext p
  unfold Tree.isLink
  rw [enter_ok h, Function.update_apply]
  by_cases hp : p = path ++ [name]
  · rw [if_pos hp, hp]
    exact hlink.symm
  · rw [if_neg hp]

theorem Tree.dir_dropLasts (t : Tree) (n : ℕ) {path : List String} (h : t.node path = some .dir) :
    t.node (List.dropLast^[n] path) = some .dir := by
  induction n generalizing path with
  | zero => exact h
  | succ n ih =>
    rw [Function.iterate_succ_apply]
    refine ih ?_
    cases List.eq_nil_or_concat path with
    | inl hnil =>
      rw [hnil]
      exact t.root
    | inr hconcat =>
      obtain ⟨front, a, rfl⟩ := hconcat
      rw [List.concat_eq_append, List.dropLast_concat]
      rw [List.concat_eq_append] at h
      exact t.parents front a .dir h

/-! ## Ends -/

/-- A walk follows at most as many links as it may, and fails for their number exactly when it meets one more. -/
structure Counted (links : List String → Bool) (left : ℕ) (w : Walked) : Prop where
  atMost : w.looked.countP links ≤ left
  exceeded : w.result = .error tooManyLinks ↔ w.looked.countP links = left

theorem Counted.link {links : List String → Bool} {left : ℕ} {w : Walked} (h : Counted links left w)
    {path : List String} (hlink : links path = true) : Counted links (left + 1) (w.looking path) := by
  have hcount : (w.looking path).looked.countP links = w.looked.countP links + 1 := List.countP_cons_of_pos hlink
  refine ⟨?_, ?_⟩
  · rw [hcount]
    exact Nat.succ_le_succ h.atMost
  · rw [hcount, Nat.add_right_cancel_iff]
    exact h.exceeded

theorem Counted.other {links : List String → Bool} {left : ℕ} {w : Walked} (h : Counted links left w)
    {path : List String} (hlink : links path = false) : Counted links left (w.looking path) := by
  have hcount : (w.looking path).looked.countP links = w.looked.countP links :=
    List.countP_cons_of_neg (by rw [hlink]; exact Bool.false_ne_true)
  refine ⟨?_, ?_⟩
  · rw [hcount]
    exact h.atMost
  · rw [hcount]
    exact h.exceeded

theorem counted_end (links : List String → Bool) (left : ℕ) {r : Result (List String × Tree)}
    (hr : r ≠ .error tooManyLinks) : Counted links (left + 1) ⟨[], r⟩ :=
  ⟨Nat.zero_le _, iff_of_false hr (Nat.succ_ne_zero left).symm⟩

theorem descend_counted {follow : List String → String → List String → List String → Tree → Walked}
    {links : List String → Bool} {left : ℕ} (hfollow : ∀ path target pending resolved t, t.isLink = links →
      Counted links left (follow path target pending resolved t)) (pending resolved : List String) {t : Tree}
    (ht : t.isLink = links) : Counted links (left + 1) (descend refuses follow pending resolved t) := by
  induction pending generalizing resolved t with
  | nil => exact counted_end links left nofun
  | cons part pending ih =>
    rw [descend]
    split
    · next target hnode =>
      refine (hfollow _ target _ _ t ht).link ?_
      rw [← ht, Tree.isLink, hnode]
    · next hnode =>
      have hlink : t.isLink (resolved ++ [part]) = false := by
        unfold Tree.isLink
        split
        · next target heq => exact absurd heq (hnode target)
        · rfl
      refine Counted.other ?_ (ht ▸ hlink)
      cases henter : enter refuses t resolved part with
      | ok t' => exact ih _ ((enter_isLink hlink henter).trans ht)
      | error e => exact counted_end links left fun heq => enter_ne t resolved part (henter.trans (by cases heq; rfl))

theorem resolveFrom_counted (left : ℕ) (pending resolved : List String) {t : Tree} :
    Counted t.isLink (left + 1) (resolveFrom refuses left pending resolved t) := by
  suffices h : ∀ links pending resolved t, t.isLink = links →
      Counted links (left + 1) (resolveFrom refuses left pending resolved t) from h _ pending resolved t rfl
  intro links
  induction left with
  | zero =>
    intro pending resolved t ht
    refine descend_counted ?_ pending resolved ht
    intro _ _ _ _ _ _
    exact ⟨le_rfl, iff_of_true rfl rfl⟩
  | succ left ih =>
    intro pending resolved t ht
    refine descend_counted ?_ pending resolved ht
    intro path target pending resolved t ht
    cases refuses (.readLink path) with
    | some e => exact counted_end links left nofun
    | none => exact ih _ _ t ht

theorem descend_dir {follow : List String → String → List String → List String → Tree → Walked}
    (hfollow : ∀ path target pending resolved t r t', t.node resolved = some .dir →
      (follow path target pending resolved t).result = .ok (r, t') → t'.node r = some .dir)
    {pending resolved : List String} {t : Tree} (hdir : t.node resolved = some .dir) {r : List String} {t' : Tree}
    (h : (descend refuses follow pending resolved t).result = .ok (r, t')) : t'.node r = some .dir := by
  induction pending generalizing resolved t with
  | nil =>
    cases h
    exact hdir
  | cons part pending ih =>
    rw [descend] at h
    split at h
    · exact hfollow _ _ _ _ t _ _ hdir h
    · cases henter : enter refuses t resolved part with
      | ok t₁ =>
        rw [henter] at h
        refine ih ?_ h
        rw [enter_ok henter, Function.update_self]
      | error e =>
        rw [henter] at h
        cases h

/-- The walk ends in a directory. -/
theorem resolveFrom_dir (left : ℕ) {pending resolved : List String} {t : Tree} (hdir : t.node resolved = some .dir)
    {r : List String} {t' : Tree} (h : (resolveFrom refuses left pending resolved t).result = .ok (r, t')) :
    t'.node r = some .dir := by
  induction left generalizing pending resolved t r t' with
  | zero =>
    refine descend_dir ?_ hdir h
    intro _ _ _ _ _ _ _ _ hresult
    cases hresult
  | succ left ih =>
    refine descend_dir ?_ hdir h
    intro path target pending resolved t r' t'' hdir hresult
    have hstart : t.node (startOf resolved target) = some .dir := by
      unfold startOf
      split
      · exact t.root
      · exact hdir
    cases hrefuses : refuses (.readLink path) with
    | some e =>
      rw [hrefuses] at hresult
      cases hresult
    | none =>
      rw [hrefuses, expand_eq] at hresult
      exact ih (t.dir_dropLasts _ hstart) hresult

/-- A component as `clean` leaves it. -/
structure Normal (part : String) : Prop where
  filled : part ≠ ""
  single : '/' ∉ part.toList
  here : part ≠ "."
  up : part ≠ ".."

/-- `resolve_dir` walks as a process below the root does exactly where the order of `..` and names in the targets does
not matter. It ends on every tree. It meets at most 41 links, and fails for their number exactly when it meets so many.
Where it succeeds it ends in a directory. -/
theorem resolveDir_follows_iff (refuses : Refuses) (t : Tree) {parts : List String} (hparts : ∀ p ∈ parts, Normal p) :
    (resolveDir refuses parts t = chrootDir refuses parts t ↔ Straight refuses maxSymlinkDepth parts [] t) ∧
      Counted t.isLink (maxSymlinkDepth + 1) (resolveDir refuses parts t) ∧
      ∀ r t', (resolveDir refuses parts t).result = .ok (r, t') → t'.node r = some .dir := by
  have hnames : namesOf parts = parts := namesOf_of_not_mem fun hmem => (hparts ".." hmem).up rfl
  refine ⟨?_, resolveFrom_counted maxSymlinkDepth parts [], fun r t' h => resolveFrom_dir maxSymlinkDepth t.root h⟩
  have hiff := @resolveFrom_iff refuses maxSymlinkDepth parts [] t
  rwa [hnames] at hiff

/-! ## Links that go up first -/

/-- No target in the tree goes up behind a name. -/
def Ordered (t : Tree) : Prop :=
  ∀ path target, t.node path = some (.link target) → ".." ∉ behind (components target)

theorem Ordered.enter {t t' : Tree} {path : List String} {name : String} (ht : Ordered t)
    (h : enter refuses t path name = .ok t') : Ordered t' := by
  intro p target hp
  rw [enter_ok h, Function.update_apply] at hp
  by_cases heq : p = path ++ [name]
  · rw [if_pos heq] at hp
    cases hp
  · rw [if_neg heq] at hp
    exact ht p target hp

theorem straightDescend_ordered {straight : List String → String → List String → List String → Tree → Prop}
    (hstraight : ∀ path target pending resolved t, Ordered t → ".." ∉ pending → t.node path = some (.link target) →
      straight path target pending resolved t) {pending resolved : List String} {t : Tree} (ht : Ordered t)
    (hpending : ".." ∉ pending) : straightDescend refuses straight pending resolved t := by
  induction pending generalizing resolved t with
  | nil => trivial
  | cons part pending ih =>
    have hpart : part ≠ ".." := fun heq => hpending (heq ▸ List.mem_cons_self)
    have hrest : ".." ∉ pending := fun hmem => hpending (List.mem_cons_of_mem _ hmem)
    rw [straightDescend, if_neg hpart]
    split
    · next target hnode => exact hstraight _ target pending resolved t ht hrest hnode
    · cases henter : Resolving.enter refuses t resolved part with
      | ok t' => exact ih (ht.enter henter) hrest
      | error e => trivial

/-- In a tree whose links all go up first, the order does not matter on any way. -/
theorem straight_of_ordered (left : ℕ) {pending resolved : List String} {t : Tree} (ht : Ordered t)
    (hpending : ".." ∉ pending) : Straight refuses left pending resolved t := by
  induction left generalizing pending resolved t with
  | zero => exact straightDescend_ordered (fun _ _ _ _ _ _ _ _ => trivial) ht hpending
  | succ left ih =>
    refine straightDescend_ordered ?_ ht hpending
    intro path target pending resolved t ht hpending hnode _
    have hbehind := ht path target hnode
    refine ⟨fun hstray => absurd hstray hbehind, ih ht ?_⟩
    intro hmem
    exact (List.mem_append.mp hmem).elim hbehind hpending

end Whole

/-! ## A link beside its target -/

def bareTree : Tree where
  node p := if p = [] then some .dir else none
  root := rfl
  parents := by
    intro path name n h
    rw [if_neg (List.append_ne_nil_of_right_ne_nil path (List.cons_ne_nil name []))] at h
    cases h

/-- A directory with one link in it. -/
def linked (target : String) : Tree :=
  (bareTree.put [] "opt" .dir rfl (.inl rfl)).put ["opt"] "current" (.link target) rfl (.inr nofun)

def anything : Refuses := fun _ => none

theorem sibling_followed : resolveDir anything ["opt", "current", "bin"] (linked "../srv/v2") =
    chrootDir anything ["opt", "current", "bin"] (linked "../srv/v2") := by
  have hordered : Ordered (linked "../srv/v2") := by
    intro path target h
    by_cases hcurrent : path = ["opt"] ++ ["current"]
    · have hlink : (linked "../srv/v2").node path = some (.link "../srv/v2") := if_pos hcurrent
      rw [hlink] at h
      cases h
      decide +kernel
    · have hother : (linked "../srv/v2").node path =
          if path = ["opt"] then some .dir else if path = [] then some .dir else none := if_neg hcurrent
      rw [hother] at h
      split at h
      · cases h
      · split at h
        · cases h
        · cases h
  have hparts : ∀ p ∈ ["opt", "current", "bin"], Normal p := by
    intro p hp
    simp only [List.mem_cons, List.not_mem_nil, or_false] at hp
    obtain rfl | rfl | rfl := hp
    · exact ⟨by decide, by decide, by decide, by decide⟩
    · exact ⟨by decide, by decide, by decide, by decide⟩
    · exact ⟨by decide, by decide, by decide, by decide⟩
  exact (resolveDir_follows_iff anything _ hparts).1.mpr (straight_of_ordered maxSymlinkDepth hordered (by decide))

/-- The `..` of `releases/../v2` is taken in the directory of the link, and not in `releases`. -/
theorem detour_misread :
    ((resolveDir anything ["opt", "current"] (linked "releases/../v2")).result.map Prod.fst = .ok ["releases", "v2"]) ∧
      (chrootDir anything ["opt", "current"] (linked "releases/../v2")).result.map Prod.fst = .ok ["opt", "v2"] := by
  decide +kernel

end Collocate.Image.Resolving
