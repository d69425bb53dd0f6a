import Collocate.Image.Extract

/-! # Extraction stays in its directory (`collocate-image/src/extract.rs`)

Whatever an archive holds and wherever the extraction is cut off, what is not below the destination is as it was, and
nothing from outside has come below it, as long as no entry asks for a whiteout of `..`. Every path that is handed to
the kernel goes through directories that `resolve_dir` has seen or made, so that no link is followed on the way. -/
namespace Collocate.Image.Extract
set_option autoImplicit false

open Posix (Path Call Creds Choice Fs Frame Grown Plain)

/-! ## Calls -/

/-- From `P` the job leaves everything outside as it was, at every call, and returns with `Q`. -/
abbrev Keeps (me : Creds) (dest : Path) (s₀ : Fs) {α : Type} (P : Fs → Prop) (job : Work α) (Q : α → Fs → Prop) :
    Prop :=
  Job.Keeps (Posix.exec me) (fun _ _ _ => True) (Frame dest s₀) P job Q fun _ _ => True

section Keeps
variable {me : Creds} {dest : Path} {s₀ : Fs} {P : Fs → Prop}

theorem keeps_ask {call : Call} {Q : Posix.Answer call → Fs → Prop} (hP : ∀ s, P s → Frame dest s₀ s)
    (hwithin : ∀ s, P s → call.Within dest s)
    (hQ : ∀ s w, P s → Q (Posix.exec me call w s).1 (Posix.exec me call w s).2) :
    Keeps me dest s₀ P (ask call) Q :=
  Job.Keeps.ask fun s w hs _ => ⟨(hP s hs).trans (Posix.frame_exec me _ w (hwithin s hs)), hQ s w hs⟩

theorem keeps_demand {α : Type} {r : Except String α} {Q : α → Fs → Prop} (hQ : ∀ a s, P s → r = .ok a → Q a s) :
    Keeps me dest s₀ P (demand r) Q := by
  refine Job.Keeps.lift (fun a s hs hr => hQ a s hs ?_) fun _ _ _ _ => trivial
  cases r with
  | ok b => exact congrArg Except.ok (Except.ok.inj hr)
  | error e => cases hr

/-- A call whose failure ends the job. -/
theorem keeps_tried (c : Call) {α : Type} (f : Posix.Answer c → Except String α) {Q : α → Fs → Prop}
    (hP : ∀ s, P s → Frame dest s₀ s) (hwithin : ∀ s, P s → c.Within dest s)
    (hQ : ∀ s w a, P s → f (Posix.exec me c w s).1 = .ok a → Q a (Posix.exec me c w s).2) :
    Keeps me dest s₀ P (ask c >>= fun r => demand (f r)) Q := by
  refine Job.Keeps.bind (keeps_ask (Q := fun r s => ∀ a, f r = .ok a → Q a s) hP hwithin fun s w hs a => ?_) fun r => ?_
  · exact hQ s w a hs
  · exact keeps_demand fun a s hs hr => hs a hr

theorem keeps_then (c : Call) {α β : Type} (f : Posix.Answer c → Except String α) {Q : α → Fs → Prop}
    {k : α → Work β} {S : β → Fs → Prop} (htried : Keeps me dest s₀ P (ask c >>= fun r => demand (f r)) Q)
    (hk : ∀ a, Keeps me dest s₀ (Q a) (k a) S) :
    Keeps me dest s₀ P (ask c >>= fun r => demand (f r) >>= k) S := by
  have hbind := Job.Keeps.bind htried hk
  rwa [Job.bind_assoc_eq] at hbind

/-! ## Directories -/

/-- The state while a directory is looked for, which has come to `resolved`. -/
structure At (dest : Path) (s₀ s₁ : Fs) (resolved : List String) (s : Fs) : Prop where
  frame : Frame dest s₀ s
  isDir : s.IsDir (dest ++ resolved)
  grown : Grown s₁ s

theorem At.locate {s₁ s : Fs} {resolved : List String} (h : At dest s₀ s₁ resolved s) {part : String}
    (hpart : Plain part) : s.locate (dest ++ (resolved ++ [part])) = some (dest ++ (resolved ++ [part])) := by
  rw [← List.append_assoc]
  exact Fs.locate_plain h.isDir hpart

theorem At.inside {s₁ s : Fs} {resolved : List String} (h : At dest s₀ s₁ resolved s) {part : String}
    (hpart : Plain part) (loc : Path) (hloc : s.locate (dest ++ (resolved ++ [part])) = some loc) : dest <+: loc := by
  rw [h.locate hpart] at hloc
  exact Option.some.inj hloc ▸ List.prefix_append _ _

theorem At.moved {s₁ s : Fs} {resolved : List String} (h : At dest s₀ s₁ resolved s) (call : Call) (me : Creds)
    (w : Choice) (hwithin : call.Within dest s) (hcall : ∀ path, call ≠ .removeAll path) :
    At dest s₀ s₁ resolved (Posix.exec me call w s).2 :=
  ⟨h.frame.trans (Posix.frame_exec me _ w hwithin), Posix.grown_exec me w hcall _ h.isDir,
    h.grown.trans (Posix.grown_exec me w hcall)⟩

theorem keeps_createDir {s₁ : Fs} {resolved : List String} {part : String} (hpart : Plain part) :
    Keeps me dest s₀ (At dest s₀ s₁ resolved) (createDir (dest ++ (resolved ++ [part])))
      fun _ => At dest s₀ s₁ (resolved ++ [part]) := by
  refine keeps_tried (.mkdir (dest ++ (resolved ++ [part])) 0o777) (fun r => r) (fun s hs => hs.frame)
    (fun s hs => hs.inside hpart) fun s w _ hs hok => ?_
  have hnew := Posix.perform_ok hok
  have hmoved := hs.moved (.mkdir (dest ++ (resolved ++ [part])) 0o777) me w (hs.inside hpart) (by simp)
  refine ⟨hmoved.frame, ?_, hmoved.grown⟩
  have hspot := Fs.spot_proper part hs.isDir
  rw [List.append_assoc] at hspot
  have hkind := (Fs.added_of_spot hnew hspot).kindAt_self
  rwa [List.append_assoc] at hkind

theorem keeps_enterDir {s₁ : Fs} {resolved : List String} {part : String} (hpart : Plain part)
    (kind : Option Posix.Kind) :
    Keeps me dest s₀ (fun s => At dest s₀ s₁ resolved s ∧ s.kindAt (dest ++ (resolved ++ [part])) = kind)
      (enterDir (dest ++ (resolved ++ [part])) kind) fun _ => At dest s₀ s₁ (resolved ++ [part]) := by
  have hunlink : Keeps me dest s₀ (At dest s₀ s₁ resolved)
      (ask (.unlink (dest ++ (resolved ++ [part]))) >>= fun r => demand r) fun _ => At dest s₀ s₁ resolved :=
    keeps_tried (.unlink (dest ++ (resolved ++ [part]))) (fun r => r) (fun s hs => hs.frame)
      (fun s hs => hs.inside hpart) fun s w _ hs _ => hs.moved _ me w (hs.inside hpart) (by simp)
  unfold enterDir
  split
  · exact Job.Keeps.pure fun s hs => ⟨hs.1.frame, hs.2, hs.1.grown⟩
  · exact (keeps_then _ _ hunlink fun _ => keeps_createDir hpart).pre fun s hs => hs.1
  · exact (keeps_createDir hpart).pre fun s hs => hs.1

theorem keeps_descend {s₁ : Fs} {follow : List String → String → List String → Work (List String)}
    (hfollow : ∀ resolved part pending, Plain part → (∀ p ∈ pending, Plain p) →
      Keeps me dest s₀ (At dest s₀ s₁ resolved) (follow resolved part pending) (At dest s₀ s₁))
    (pending resolved : List String) (hpending : ∀ p ∈ pending, Plain p) :
    Keeps me dest s₀ (At dest s₀ s₁ resolved) (descend dest follow pending resolved) (At dest s₀ s₁) := by
  induction pending generalizing resolved with
  | nil => exact Job.Keeps.pure fun s hs => hs
  | cons part pending ih =>
    have hpart := hpending part List.mem_cons_self
    have hrest : ∀ p ∈ pending, Plain p := fun p hp => hpending p (List.mem_cons_of_mem _ hp)
    have hlook : Keeps me dest s₀ (At dest s₀ s₁ resolved) (ask (.lstat (dest ++ (resolved ++ [part]))))
        fun kind s => At dest s₀ s₁ resolved s ∧ s.kindAt (dest ++ (resolved ++ [part])) = kind := by
      refine keeps_ask (fun s hs => hs.frame) (fun _ _ => trivial) fun s w hs => ⟨hs, ?_⟩
      show _ = (s.locate (dest ++ (resolved ++ [part]))).bind s.kindAt
      rw [hs.locate hpart]
      rfl
    refine Job.Keeps.bind hlook fun kind => ?_
    have henter : Keeps me dest s₀
        (fun s => At dest s₀ s₁ resolved s ∧ s.kindAt (dest ++ (resolved ++ [part])) = kind)
        (enterDir (dest ++ (resolved ++ [part])) kind >>= fun _ => descend dest follow pending (resolved ++ [part]))
        (At dest s₀ s₁) := Job.Keeps.bind (keeps_enterDir hpart kind) fun _ => ih (resolved ++ [part]) hrest
    split
    · exact (hfollow resolved part pending hpart hrest).pre fun s hs => hs.1
    · exact henter

/-- What is above a directory on the way to it is one. -/
theorem At.above {s₁ s : Fs} {resolved r : List String} (h : At dest s₀ s₁ resolved s) (hr : r <+: resolved) :
    At dest s₀ s₁ r s := by
  obtain ⟨rest, rfl⟩ := hr
  refine ⟨h.frame, ?_, h.grown⟩
  have hdir := h.isDir
  rw [← List.append_assoc] at hdir
  exact Fs.isDir_of_append hdir

theorem dropLasts_above (n : ℕ) (l : List String) : List.dropLast^[n] l <+: l := by
  induction n generalizing l with
  | zero => exact List.prefix_refl l
  | succ n ih =>
    rw [Function.iterate_succ_apply]
    exact (ih l.dropLast).trans (List.dropLast_prefix l)

theorem plain_of_components {path c : String} (hc : c ∈ components path) (hup : c ≠ "..") : Plain c := by
  have hfilter := (List.mem_filter.mp hc).2
  rw [Bool.and_eq_true, bne_iff_ne, bne_iff_ne] at hfilter
  exact ⟨hfilter.1, hfilter.2, hup⟩

theorem keeps_resolveFrom {s₁ : Fs} (left : ℕ) (pending resolved : List String) (hpending : ∀ p ∈ pending, Plain p) :
    Keeps me dest s₀ (At dest s₀ s₁ resolved) (resolveFrom dest left pending resolved) (At dest s₀ s₁) := by
  induction left generalizing pending resolved with
  | zero => exact keeps_descend (fun _ _ _ _ _ => Job.Keeps.throw fun _ _ => trivial) pending resolved hpending
  | succ left ih =>
    refine keeps_descend (fun resolved part pending _ hpending => ?_) pending resolved hpending
    refine keeps_then (.readLink (dest ++ (resolved ++ [part]))) (fun r => r) (Q := fun _ => At dest s₀ s₁ resolved) ?_
      fun target => ?_
    · exact keeps_tried _ _ (fun s hs => hs.frame) (fun _ _ => trivial) fun s w _ hs _ =>
        hs.moved _ me w trivial (by simp)
    · rw [Resolving.expand_eq]
      have hnames : ∀ p ∈ Resolving.namesOf (components target) ++ pending, Plain p := by
        intro p hp
        rcases List.mem_append.mp hp with hname | hp
        · obtain ⟨hcomponent, hup⟩ := List.mem_filter.mp hname
          exact plain_of_components hcomponent (of_decide_eq_true hup)
        · exact hpending p hp
      refine (ih _ _ hnames).pre fun s hs => hs.above ?_
      refine (dropLasts_above _ _).trans ?_
      unfold Resolving.startOf
      split
      · exact List.nil_prefix
      · exact List.prefix_refl _

/-- `resolve_dir` ends in a directory below the destination, and leaves all directories. -/
theorem keeps_resolveDir {s₁ : Fs} (parts : List String) (hparts : ∀ p ∈ parts, Plain p) :
    Keeps me dest s₀ (At dest s₀ s₁ []) (resolveDir dest parts) (At dest s₀ s₁) :=
  keeps_resolveFrom _ parts [] hparts

/-! ## What is in the way -/

/-- A directory below the destination, and a path without links. -/
structure Ready (dest : Path) (s₀ : Fs) (dir : List String) (q : Path) (s : Fs) : Prop where
  frame : Frame dest s₀ s
  isDir : s.IsDir (dest ++ dir)
  unlinked : s.Unlinked q

/-- After a removal: the directory of a plain name is there still, and the name is free. -/
structure Cleared (dest : Path) (s₀ : Fs) (dir : List String) (name : String) (q : Path) (s : Fs) : Prop where
  frame : Frame dest s₀ s
  unlinked : s.Unlinked q
  isDir : Plain name → s.IsDir (dest ++ dir)
  free : Plain name → s.kindAt (dest ++ (dir ++ [name])) = none

theorem settle_inside {dir : List String} {name : String} (hname : name ≠ "..") :
    dest <+: Fs.settle (dest ++ dir) name := by
  rw [Fs.settle, if_neg hname]
  split
  · exact List.prefix_append _ _
  · rw [List.append_assoc]
    exact List.prefix_append _ _

theorem Ready.spot {s : Fs} {dir : List String} {q : Path} (h : Ready dest s₀ dir q s) (name : String) :
    s.spot (dest ++ (dir ++ [name])) [] = some (dest ++ dir, name) := by
  rw [← List.append_assoc]
  exact Fs.spot_proper name h.isDir

theorem Ready.inside {s : Fs} {dir : List String} {q : Path} (h : Ready dest s₀ dir q s) {name : String}
    (hname : name ≠ "..") (loc : Path) (hloc : s.locate (dest ++ (dir ++ [name])) = some loc) : dest <+: loc := by
  rw [Fs.locate_of_spot (h.spot name)] at hloc
  exact Option.some.inj hloc ▸ settle_inside hname

/-- What was taken away at a name leaves its directory. -/
theorem Ready.cleared {s : Fs} {dir : List String} {q : Path} (h : Ready dest s₀ dir q s) {name : String}
    {gone : Path → Bool} {hroot : gone [] = false} (hframe : Frame dest s₀ (s.prune gone hroot))
    (hgone : ∀ p, gone p = true → Fs.settle (dest ++ dir) name <+: p)
    (hfree : (s.prune gone hroot).entry (Fs.settle (dest ++ dir) name) = none) :
    Cleared dest s₀ dir name q (s.prune gone hroot) := by
  refine ⟨hframe, Posix.unlinked_prune h.unlinked, fun hname => ?_, fun hname => ?_⟩
  · refine Posix.isDir_prune hgone (fun hle => ?_) h.isDir
    rw [Fs.settle_plain _ hname] at hle
    have hlength := hle.length_le
    rw [List.length_append, List.length_singleton] at hlength
    omega
  · rw [Fs.settle_plain _ hname, List.append_assoc] at hfree
    rw [Fs.kindAt, hfree]
    rfl

theorem keeps_removeExisting {dir : List String} {name : String} (q : Path) (hname : name ≠ "..") :
    Keeps me dest s₀ (Ready dest s₀ dir q) (removeExisting (dest ++ (dir ++ [name])))
      fun _ => Cleared dest s₀ dir name q := by
  have hlook : Keeps me dest s₀ (Ready dest s₀ dir q) (ask (.lstat (dest ++ (dir ++ [name]))))
      fun kind s => Ready dest s₀ dir q s ∧ s.kindAt (Fs.settle (dest ++ dir) name) = kind := by
    refine keeps_ask (fun s hs => hs.frame) (fun _ _ => trivial) fun s w hs => ⟨hs, ?_⟩
    show _ = (s.locate (dest ++ (dir ++ [name]))).bind s.kindAt
    rw [Fs.locate_of_spot (hs.spot name)]
    rfl
  refine Job.Keeps.bind hlook fun kind => ?_
  split
  · refine keeps_tried (.removeAll (dest ++ (dir ++ [name]))) (fun r => r) (fun s hs => hs.1.frame)
      (fun s hs => hs.1.inside hname) fun s w _ hs hok => ?_
    have hremoved := Posix.removeAll_removed w (hs.1.spot name)
    have hframe := hs.1.frame.trans
      (Posix.frame_exec me (.removeAll (dest ++ (dir ++ [name]))) w (hs.1.inside hname))
    obtain ⟨gone, hroot, hstate, hgone⟩ := hremoved.pruned
    have hfree := (hremoved.whole hok).1
    change Frame dest s₀ (s.removeAll (dest ++ (dir ++ [name])) w).2 at hframe
    show Cleared dest s₀ dir name q (s.removeAll (dest ++ (dir ++ [name])) w).2
    rw [hstate] at hframe hfree ⊢
    exact hs.1.cleared hframe hgone hfree
  · refine keeps_tried (.unlink (dest ++ (dir ++ [name]))) (fun r => r) (fun s hs => hs.1.frame)
      (fun s hs => hs.1.inside hname) fun s w _ hs hok => ?_
    have hframe := hs.1.frame.trans
      (Posix.frame_exec me (.unlink (dest ++ (dir ++ [name]))) w (hs.1.inside hname))
    obtain ⟨loc, gone, hroot, hloc, hstate, hat, hgone⟩ := Fs.pruned_of_unlink (Posix.perform_ok hok)
    rw [Fs.locate_of_spot (hs.1.spot name)] at hloc
    obtain rfl := Option.some.inj hloc
    change Frame dest s₀ (Posix.perform me (.unlink (dest ++ (dir ++ [name]))) w s).2 at hframe
    show Cleared dest s₀ dir name q (Posix.perform me (.unlink (dest ++ (dir ++ [name]))) w s).2
    rw [hstate] at hframe ⊢
    exact hs.1.cleared hframe (fun p hp => hgone p hp ▸ List.prefix_refl _) (Posix.prune_entry _ hat)
  · refine Job.Keeps.pure fun s hs => ⟨hs.1.frame, hs.1.unlinked, fun _ => hs.1.isDir, fun hplain => ?_⟩
    rw [← List.append_assoc, ← Fs.settle_plain _ hplain]
    exact hs.2

theorem Cleared.inside {dir : List String} {name : String} {q : Path} {s : Fs} (h : Cleared dest s₀ dir name q s)
    (hname : Plain name) (loc : Path) (hloc : s.locate (dest ++ (dir ++ [name])) = some loc) : dest <+: loc := by
  rw [← List.append_assoc, Fs.locate_plain (h.isDir hname) hname, List.append_assoc] at hloc
  exact Option.some.inj hloc ▸ List.prefix_append _ _

/-! ## Entries -/

/-- Between entries. -/
structure Between (dest : Path) (s₀ s : Fs) : Prop where
  frame : Frame dest s₀ s
  isDir : s.IsDir dest

/-- A new inode at a name, which has no other name. -/
structure Mine (dest : Path) (s₀ : Fs) (dir : List String) (name : String) (i : ℕ) (s : Fs) : Prop where
  frame : Frame dest s₀ s
  isDir : s.IsDir (dest ++ dir)
  entry : s.entry (dest ++ (dir ++ [name])) = some i
  only : ∀ p, s.entry p = some i → p = dest ++ (dir ++ [name])

/-- What a call has made under a plain name. -/
theorem Cleared.mine {dir : List String} {name : String} {q : Path} {s s' : Fs} {x : Posix.Inode}
    (hs : Cleared dest s₀ dir name q s) (hname : Plain name) (hframe : Frame dest s₀ s')
    (hadded : Posix.Added s (dest ++ dir) name x s') : Mine dest s₀ dir name s.next s' := by
  refine ⟨hframe, hadded.grown _ (hs.isDir hname), ?_, fun p hp => ?_⟩
  · rw [← List.append_assoc]
    exact hadded.entry_self
  · rw [← List.append_assoc]
    exact hadded.only hp

theorem Mine.between {dir : List String} {name : String} {i : ℕ} {s : Fs} (h : Mine dest s₀ dir name i s) :
    Between dest s₀ s := ⟨h.frame, Fs.isDir_of_append h.isDir⟩

theorem Mine.owned {dir : List String} {name : String} {i : ℕ} {s : Fs} (h : Mine dest s₀ dir name i s) :
    Posix.Owned dest s i := fun p hp => h.only p hp ▸ List.prefix_append _ _

theorem Mine.locate {dir : List String} {name : String} {i : ℕ} {s : Fs} (h : Mine dest s₀ dir name i s)
    (hname : Plain name) : s.locate (dest ++ (dir ++ [name])) = some (dest ++ (dir ++ [name])) := by
  rw [← List.append_assoc]
  exact Fs.locate_plain h.isDir hname

theorem Mine.mild {dir : List String} {name : String} {i : ℕ} {s : Fs} (h : Mine dest s₀ dir name i s) {c : Call}
    (w : Choice) (hmild : c.Mild = true) (hwithin : c.Within dest s) :
    Mine dest s₀ dir name i (Posix.exec me c w s).2 := by
  have hsame := Posix.mild_exec me (t := s) w hmild
  refine ⟨h.frame.trans (Posix.frame_exec me _ w hwithin), hsame.isDir_iff.mpr h.isDir, ?_, fun p hp => h.only p ?_⟩
  · rw [hsame.entry]
    exact h.entry
  · rw [← hsame.entry]
    exact hp

theorem keeps_chown {dir : List String} {name : String} {i : ℕ} (hname : Plain name) (uid gid : ℕ) :
    Keeps me dest s₀ (Mine dest s₀ dir name i) (chown me (dest ++ (dir ++ [name])) uid gid)
      fun _ => Between dest s₀ := by
  have hwithin : ∀ s, Mine dest s₀ dir name i s → (Call.lchown (dest ++ (dir ++ [name])) uid gid).Within dest s := by
    intro s hs loc j hloc hj
    rw [hs.locate hname] at hloc
    obtain rfl := Option.some.inj hloc
    rw [hs.entry] at hj
    exact Option.some.inj hj ▸ hs.owned
  unfold chown
  split
  · refine Job.Keeps.bind (keeps_ask (Q := fun _ => Between dest s₀) (fun s hs => hs.frame) hwithin fun s w hs => ?_)
      fun _ => Job.Keeps.pure fun s hs => hs
    exact (hs.mild w rfl (hwithin s hs)).between
  · exact Job.Keeps.pure fun s hs => hs.between

/-- The new file at a name. -/
structure MyFile (dest : Path) (s₀ : Fs) (dir : List String) (name : String) (i : ℕ) (s : Fs) : Prop where
  mine : Mine dest s₀ dir name i s
  file : ∃ data, (s.inode i).kind = .file data

theorem MyFile.mild {dir : List String} {name : String} {i : ℕ} {s : Fs} (h : MyFile dest s₀ dir name i s) {c : Call}
    (w : Choice) (hmild : c.Mild = true) (hwithin : c.Within dest s) :
    MyFile dest s₀ dir name i (Posix.exec me c w s).2 := by
  refine ⟨h.mine.mild w hmild hwithin, ?_⟩
  obtain ⟨data, hdata⟩ := h.file
  rcases (Posix.mild_exec me (t := s) w hmild).kind i with hsame | ⟨old, new, -, hnew⟩
  · exact ⟨data, hsame.trans hdata⟩
  · exact ⟨new, hnew⟩

theorem keeps_extractFile {dir : List String} {name : String} (hname : Plain name) (e : TarEntry) :
    Keeps me dest s₀ (Ready dest s₀ dir []) (extractFile me (dest ++ (dir ++ [name])) e) fun _ => Between dest s₀ := by
  have hreach : ∀ s, Cleared dest s₀ dir name [] s →
      s.reach (dest ++ (dir ++ [name])) = some (dest ++ (dir ++ [name])) := by
    intro s hs
    refine Fs.reach_of_locate ?_ fun target hlink => ?_
    · rw [← List.append_assoc]
      exact Fs.locate_plain (hs.isDir hname) hname
    · rw [hs.free hname] at hlink
      cases hlink
  have hfree : ∀ s, Cleared dest s₀ dir name [] s → s.entry (dest ++ (dir ++ [name])) = none :=
    fun s hs => Option.map_eq_none_iff.mp (hs.free hname)
  have hcreate : ∀ s, Cleared dest s₀ dir name [] s → (Call.create (dest ++ (dir ++ [name])) 0o666).Within dest s := by
    intro s hs loc hloc
    rw [hreach s hs] at hloc
    obtain rfl := Option.some.inj hloc
    refine ⟨List.prefix_append _ _, fun i hi => ?_⟩
    rw [hfree s hs] at hi
    cases hi
  have hchmod : ∀ i s, MyFile dest s₀ dir name i s →
      (Call.chmod (dest ++ (dir ++ [name])) (headerMode e)).Within dest s := by
    intro i s hs loc j hloc hj
    obtain ⟨data, hdata⟩ := hs.file
    rw [Fs.reach_of_locate (hs.mine.locate hname)] at hloc
    · obtain rfl := Option.some.inj hloc
      rw [hs.mine.entry] at hj
      exact Option.some.inj hj ▸ hs.mine.owned
    · intro target hlink
      rw [Fs.kindAt_of_entry hs.mine.entry, hdata] at hlink
      cases hlink
  refine Job.Keeps.bind (keeps_removeExisting [] hname.2.2) fun _ => ?_
  refine keeps_then (.create (dest ++ (dir ++ [name])) 0o666) (fun r => r) (Q := fun i => MyFile dest s₀ dir name i)
    (keeps_tried _ _ (fun s hs => hs.frame) hcreate fun s w i hs hok => ?_) fun i => ?_
  · have hframe := hs.frame.trans (Posix.frame_exec me _ w (hcreate s hs))
    have hreach' := hreach s hs
    have hfree' := hfree s hs
    rw [← List.append_assoc] at hreach' hfree'
    obtain ⟨rfl, hadded⟩ := Fs.added_of_create (Posix.create_ok hok) (by rwa [← List.append_assoc]) hfree'
    exact ⟨hs.mine hname hframe hadded, [], congrArg Posix.Inode.kind hadded.inode_self⟩
  · refine keeps_then (.write i e.data) (fun r => r) (Q := fun _ => MyFile dest s₀ dir name i)
      (keeps_tried _ _ (fun s hs => hs.mine.frame) (fun s hs => hs.mine.owned) fun s w _ hs _ =>
        hs.mild w rfl hs.mine.owned) fun _ => ?_
    have hrest : Keeps me dest s₀ (MyFile dest s₀ dir name i)
        (setPermissions (dest ++ (dir ++ [name])) (headerMode e) >>= fun _ =>
          chown me (dest ++ (dir ++ [name])) (ownerId e.uid) (ownerId e.gid)) fun _ => Between dest s₀ := by
      refine Job.Keeps.bind (Q := fun _ => MyFile dest s₀ dir name i) ?_ fun _ =>
        (keeps_chown hname _ _).pre fun s hs => hs.mine
      exact keeps_tried (.chmod (dest ++ (dir ++ [name])) (headerMode e)) (fun r => r) (fun s hs => hs.mine.frame)
        (hchmod i) fun s w _ hs _ => hs.mild w rfl (hchmod i s hs)
    cases e.fault with
    | some fault => exact Job.Keeps.throw fun _ _ => trivial
    | none => exact hrest

theorem keeps_extractSymlink {dir : List String} {name : String} (hname : Plain name) (e : TarEntry) :
    Keeps me dest s₀ (Ready dest s₀ dir []) (extractSymlink me (dest ++ (dir ++ [name])) e)
      fun _ => Between dest s₀ := by
  unfold extractSymlink
  cases e.linkName with
  | none => exact Job.Keeps.throw fun _ _ => trivial
  | some target =>
    have hwithin : ∀ s, Cleared dest s₀ dir name [] s → (Call.symlink target (dest ++ (dir ++ [name]))).Within dest s :=
      fun s hs => hs.inside hname
    refine Job.Keeps.bind (keeps_removeExisting [] hname.2.2) fun _ => ?_
    refine keeps_then (.symlink target (dest ++ (dir ++ [name]))) (fun r => r)
      (Q := fun _ s => ∃ i, Mine dest s₀ dir name i s)
      (keeps_tried _ _ (fun s hs => hs.frame) hwithin fun s w _ hs hok => ?_) fun _ => ?_
    · have hframe := hs.frame.trans (Posix.frame_exec me _ w (hwithin s hs))
      have hspot := Fs.spot_proper name (hs.isDir hname)
      rw [List.append_assoc] at hspot
      exact ⟨_, hs.mine hname hframe (Fs.added_of_spot (Posix.perform_ok hok) hspot)⟩
    · refine Job.Keeps.each fun s hs => ?_
      obtain ⟨i, hmine⟩ := hs
      exact (keeps_chown hname _ _).pre fun s' hs' => hs' ▸ hmine

theorem keeps_extractDevice {dir : List String} {name : String} (hname : Plain name) (e : TarEntry) :
    Keeps me dest s₀ (Ready dest s₀ dir []) (extractDevice me (dest ++ (dir ++ [name])) e)
      fun _ => Between dest s₀ := by
  unfold extractDevice
  split
  · refine Job.Keeps.bind (keeps_removeExisting [] hname.2.2) fun _ => ?_
    refine Job.Keeps.bind (Q := fun _ => Cleared dest s₀ dir name []) (keeps_demand fun _ _ hs _ =>
      hs) fun numbers => ?_
    have hwithin : ∀ s kind, Cleared dest s₀ dir name [] s →
        (Call.mknod (dest ++ (dir ++ [name])) kind (headerMode e)).Within dest s := fun s _ hs => hs.inside hname
    refine Job.Keeps.bind (keeps_ask (Q := fun _ => Between dest s₀) (fun s hs => hs.frame) (fun s hs => hwithin s _ hs)
      fun s w hs => ?_) fun _ => Job.Keeps.pure fun s hs => hs
    exact ⟨hs.frame.trans (Posix.frame_exec me _ w (hwithin s _ hs)),
      Posix.grown_exec me w (by simp) _ (Fs.isDir_of_append (hs.isDir hname))⟩
  · exact Job.Keeps.pure fun s hs => ⟨hs.frame, Fs.isDir_of_append hs.isDir⟩

/-! ## Names -/

theorem plain_of_clean {path : String} {rel : List String} (h : clean path = .ok rel) : ∀ p ∈ rel, Plain p := by
  unfold clean at h
  split at h
  · cases h
  · next hup =>
    cases h
    exact fun p hp => plain_of_components hp fun heq => hup (heq ▸ hp)

theorem keeps_parentAndName {s₁ : Fs} {rel : List String} (hrel : ∀ p ∈ rel, Plain p) :
    Keeps me dest s₀ (At dest s₀ s₁ []) (parentAndName dest rel)
      fun found s => ∃ dir name, rel.getLast? = some name ∧ found = (dest ++ dir, name) ∧ Plain name ∧
        At dest s₀ s₁ dir s := by
  unfold parentAndName
  cases hlast : rel.getLast? with
  | none => exact Job.Keeps.throw fun _ _ => trivial
  | some name =>
    have hfront : ∀ p ∈ rel.dropLast, Plain p := fun p hp => hrel p (List.dropLast_subset rel hp)
    refine Job.Keeps.bind (keeps_resolveDir rel.dropLast hfront) fun dir => Job.Keeps.pure fun s hs => ?_
    exact ⟨dir, name, rfl, rfl, hrel name (List.mem_of_getLast? hlast), hs⟩

theorem keeps_extractLink {dir : List String} {name : String} (hname : Plain name) (e : TarEntry) :
    Keeps me dest s₀ (Ready dest s₀ dir []) (extractLink dest (dest ++ (dir ++ [name])) e)
      fun _ => Between dest s₀ := by
  unfold extractLink
  cases e.linkName with
  | none => exact Job.Keeps.throw fun _ _ => trivial
  | some target =>
    refine Job.Keeps.bind (Job.Keeps.lift (Q := fun trel s => Ready dest s₀ dir [] s ∧ clean target = .ok trel)
      (fun _ _ hs hr => ⟨hs, hr⟩) fun _ _ _ _ => trivial) fun trel => ?_
    refine Job.Keeps.each fun s₁ hs₁ => ?_
    have hstart : ∀ s, s = s₁ → At dest s₀ s₁ [] s := by
      rintro s rfl
      refine ⟨hs₁.1.frame, ?_, Grown.refl s⟩
      rw [List.append_nil]
      exact Fs.isDir_of_append hs₁.1.isDir
    refine Job.Keeps.bind ((keeps_parentAndName (plain_of_clean hs₁.2)).pre hstart) fun found => ?_
    refine Job.Keeps.each fun s₂ hs₂ => ?_
    obtain ⟨tdir, tname, -, rfl, htname, hs₂⟩ := hs₂
    have hready : ∀ s, s = s₂ → Ready dest s₀ dir (dest ++ tdir) s := by
      rintro s rfl
      exact ⟨hs₂.frame, hs₂.grown _ hs₁.1.isDir, Fs.unlinked_of_isDir hs₂.isDir⟩
    refine Job.Keeps.bind ((keeps_removeExisting (dest ++ tdir) hname.2.2).pre hready) fun _ => ?_
    have hwithin : ∀ s, Cleared dest s₀ dir name (dest ++ tdir) s →
        (Call.hardLink (dest ++ tdir ++ [tname]) (dest ++ (dir ++ [name]))).Within dest s := by
      refine fun s hs => ⟨fun loc hloc => ?_, hs.inside hname⟩
      cases hspot : s.spot (dest ++ tdir ++ [tname]) [] with
      | none =>
        rw [Fs.locate, if_neg (Fs.snoc_ne_nil _ _), hspot] at hloc
        cases hloc
      | some spot =>
        rw [Fs.locate_of_spot hspot] at hloc
        obtain ⟨hdir, hlast⟩ := Fs.spot_unlinked hs.unlinked hspot
        rw [hdir, hlast] at hloc
        exact Option.some.inj hloc ▸ settle_inside htname.2.2
    refine keeps_tried (.hardLink (dest ++ tdir ++ [tname]) (dest ++ (dir ++ [name]))) (fun r => r)
      (fun s hs => hs.frame) hwithin fun s w _ hs _ => ?_
    exact ⟨hs.frame.trans (Posix.frame_exec me _ w (hwithin s hs)),
      Posix.grown_exec me w (by simp) _ (Fs.isDir_of_append (hs.isDir hname))⟩

theorem keeps_extractNode {dir : List String} {name : String} (hname : Plain name) (e : TarEntry) :
    Keeps me dest s₀ (Ready dest s₀ dir []) (extractNode me dest (dest ++ (dir ++ [name])) e)
      fun _ => Between dest s₀ := by
  unfold extractNode
  split
  · exact keeps_extractFile hname e
  · exact keeps_extractFile hname e
  · exact keeps_extractFile hname e
  · exact keeps_extractSymlink hname e
  · exact keeps_extractLink hname e
  · exact keeps_extractDevice hname e
  · exact keeps_extractDevice hname e
  · exact keeps_extractDevice hname e
  · exact Job.Keeps.pure fun s hs => ⟨hs.frame, Fs.isDir_of_append hs.isDir⟩
  · exact Job.Keeps.pure fun s hs => ⟨hs.frame, Fs.isDir_of_append hs.isDir⟩

/-! ## Directories and markers -/

/-- A directory below the destination. -/
structure Under (dest : Path) (s₀ : Fs) (dir : List String) (s : Fs) : Prop where
  frame : Frame dest s₀ s
  isDir : s.IsDir (dest ++ dir)

theorem Under.between {dir : List String} {s : Fs} (h : Under dest s₀ dir s) : Between dest s₀ s :=
  ⟨h.frame, Fs.isDir_of_append h.isDir⟩

theorem Under.owned {dir : List String} {s : Fs} (h : Under dest s₀ dir s) {i : ℕ}
    (hi : s.entry (dest ++ dir) = some i) : Posix.Owned dest s i := by
  intro p hp
  obtain ⟨j, hj, hkind⟩ := Fs.isDir_iff.mp h.isDir
  rw [hi] at hj
  rw [s.single p (dest ++ dir) i hp hi (Option.some.inj hj ▸ hkind)]
  exact List.prefix_append _ _

theorem Under.located {dir : List String} {s : Fs} (h : Under dest s₀ dir s) (loc : Path) (i : ℕ)
    (hloc : s.locate (dest ++ dir) = some loc) (hi : s.entry loc = some i) : Posix.Owned dest s i := by
  rw [Fs.locate_isDir h.isDir] at hloc
  obtain rfl := Option.some.inj hloc
  exact h.owned hi

theorem Under.reached {dir : List String} {s : Fs} (h : Under dest s₀ dir s) (loc : Path) (i : ℕ)
    (hloc : s.reach (dest ++ dir) = some loc) (hi : s.entry loc = some i) : Posix.Owned dest s i := by
  rw [Fs.reach_of_locate (Fs.locate_isDir h.isDir)] at hloc
  · obtain rfl := Option.some.inj hloc
    exact h.owned hi
  · intro target hlink
    rw [h.isDir] at hlink
    cases hlink

theorem Under.mild {dir : List String} {s : Fs} (h : Under dest s₀ dir s) {c : Call} (w : Choice)
    (hmild : c.Mild = true) (hwithin : c.Within dest s) : Under dest s₀ dir (Posix.exec me c w s).2 :=
  ⟨h.frame.trans (Posix.frame_exec me _ w hwithin), (Posix.mild_exec me w hmild).isDir_iff.mpr h.isDir⟩

theorem keeps_extractDir {rel : List String} (hrel : ∀ p ∈ rel, Plain p) (e : TarEntry) :
    Keeps me dest s₀ (Between dest s₀) (extractDir me dest e rel) fun _ => Between dest s₀ := by
  refine Job.Keeps.each fun s₁ hs₁ => ?_
  have hstart : ∀ s, s = s₁ → At dest s₀ s₁ [] s := by
    rintro s rfl
    refine ⟨hs₁.frame, ?_, Grown.refl s⟩
    rw [List.append_nil]
    exact hs₁.isDir
  refine Job.Keeps.bind ((keeps_resolveDir rel hrel).pre hstart) fun dir => ?_
  refine Job.Keeps.bind (Q := fun _ => Under dest s₀ dir) ?_ fun _ => ?_
  · refine (keeps_tried (P := Under dest s₀ dir) (.chmod (dest ++ dir) (headerMode e)) (fun r => r)
      (fun s hs => hs.frame)
      (fun s hs => hs.reached) fun s w _ hs _ => hs.mild w rfl hs.reached).pre fun s hs => ?_
    exact ⟨hs.frame, hs.isDir⟩
  · have hwithin : ∀ s, Under dest s₀ dir s →
      (Call.lchown (dest ++ dir) (ownerId e.uid) (ownerId e.gid)).Within dest s :=
      fun s hs => hs.located
    unfold chown
    split
    · exact Job.Keeps.bind (keeps_ask (Q := fun _ => Between dest s₀) (fun s hs => hs.frame) hwithin
        fun s w hs => (hs.mild w rfl (hwithin s hs)).between) fun _ => Job.Keeps.pure fun s hs => hs
    · exact Job.Keeps.pure fun s hs => hs.between

theorem keeps_whiteout {dir : List String} {target : String} (htarget : target ≠ "..") :
    Keeps me dest s₀ (Under dest s₀ dir)
      (do
        removeExisting (dest ++ (dir ++ [target]))
        mknodWhiteout (dest ++ (dir ++ [target])))
      fun _ => Between dest s₀ := by
  have hready : ∀ s, Under dest s₀ dir s → Ready dest s₀ dir (dest ++ dir) s :=
    fun s hs => ⟨hs.frame, hs.isDir, Fs.unlinked_of_isDir hs.isDir⟩
  refine Job.Keeps.bind ((keeps_removeExisting (dest ++ dir) htarget).pre hready) fun _ => ?_
  have hspot : ∀ s d n, Cleared dest s₀ dir target (dest ++ dir) s →
      s.spot (dest ++ (dir ++ [target])) [] = some (d, n) → d = dest ++ dir ∧ n = target := by
    intro s d n hs hspot
    rw [← List.append_assoc] at hspot
    exact Fs.spot_unlinked hs.unlinked hspot
  have hwithin : ∀ s, Cleared dest s₀ dir target (dest ++ dir) s →
      (Call.mknod (dest ++ (dir ++ [target])) (.char 0) 0).Within dest s := by
    intro s hs loc hloc
    cases hfound : s.spot (dest ++ (dir ++ [target])) [] with
    | none =>
      rw [Fs.locate, if_neg (by simp), hfound] at hloc
      cases hloc
    | some spot =>
      rw [Fs.locate_of_spot hfound] at hloc
      obtain ⟨hdir, hlast⟩ := hspot s _ _ hs hfound
      rw [hdir, hlast] at hloc
      exact Option.some.inj hloc ▸ settle_inside htarget
  refine keeps_tried (.mknod (dest ++ (dir ++ [target])) (.char 0) 0) (fun r => r) (fun s hs => hs.frame) hwithin
    fun s w _ hs hok => ?_
  -- A name that is not plain cannot be made.
  have hnew : s.newEntry (s.spot (dest ++ (dir ++ [target])) []) _ = .ok _ := Posix.perform_ok hok
  obtain ⟨d, n, hfound, hadded⟩ := Fs.added_of_newEntry hnew
  obtain ⟨-, rfl⟩ := hspot s d n hs hfound
  exact ⟨hs.frame.trans (Posix.frame_exec me _ w (hwithin s hs)),
    hadded.grown _ (Fs.isDir_of_append (hs.isDir hadded.proper.1))⟩

/-- A marker stays below the destination, unless it asks for the directory above. -/
theorem keeps_extractMarker {dir : List String} {mode : WhiteoutMode} {target : String}
    (htarget : mode = .overlay → target ≠ "..") (stats : Stats) :
    Keeps me dest s₀ (Under dest s₀ dir) (extractMarker mode (dest ++ dir) target stats) fun _ => Between dest s₀ := by
  have hdone : ∀ stats : Stats, Keeps me dest s₀ (Under dest s₀ dir) (pure stats) fun _ => Between dest s₀ :=
    fun stats => Job.Keeps.pure fun s hs => hs.between
  unfold extractMarker
  split
  · split
    · refine keeps_then (.setOpaque (dest ++ dir)) (fun r => r) (Q := fun _ => Under dest s₀ dir)
        (keeps_tried _ _ (fun s hs => hs.frame) (fun s hs => hs.reached) fun s w _ hs _ => hs.mild w rfl hs.reached)
        fun _ => hdone _
    · exact hdone _
  · split
    · split
      · next hmode =>
        have hboth : Keeps me dest s₀ (Under dest s₀ dir)
            ((removeExisting (dest ++ (dir ++ [target])) >>= fun _ => mknodWhiteout (dest ++ (dir ++ [target]))) >>=
              fun _ => pure { stats with whiteouts := stats.whiteouts + 1 }) fun _ => Between dest s₀ :=
          Job.Keeps.bind (keeps_whiteout (htarget hmode)) fun _ => Job.Keeps.pure fun s hs => hs
        rw [Job.bind_assoc_eq, ← List.append_assoc] at hboth
        exact hboth
      · exact hdone _
    · exact hdone _

/-! ## Layers -/

/-- An entry that is no whiteout of the directory above. -/
def Tame (mode : WhiteoutMode) (e : TarEntry) : Prop :=
  mode = .overlay → e.kind ≠ .directory → (components e.path).getLast? ≠ some ".wh..."

theorem keeps_extractEntry {mode : WhiteoutMode} {e : TarEntry} (htame : Tame mode e) (stats : Stats) :
    Keeps me dest s₀ (Between dest s₀) (extractEntry me dest mode e stats) fun _ => Between dest s₀ := by
  refine Job.Keeps.bind (Job.Keeps.lift (Q := fun rel s => Between dest s₀ s ∧ clean e.path = .ok rel)
    (fun _ _ hs hr => ⟨hs, hr⟩) fun _ _ _ _ => trivial) fun rel => ?_
  refine Job.Keeps.each fun s₁ hs₁ => ?_
  have hplain := plain_of_clean hs₁.2
  have hrel : rel = components e.path := by
    have hclean := hs₁.2
    unfold clean at hclean
    split at hclean
    · cases hclean
    · cases hclean
      rfl
  split
  · exact Job.Keeps.pure fun s hs => hs ▸ hs₁.1
  · split
    · exact Job.Keeps.bind ((keeps_extractDir hplain e).pre fun s hs => hs ▸ hs₁.1) fun _ =>
        Job.Keeps.pure fun s hs => hs
    · next hkind =>
      have hstart : ∀ s, s = s₁ → At dest s₀ s₁ [] s := by
        rintro s rfl
        refine ⟨hs₁.1.frame, ?_, Grown.refl s⟩
        rw [List.append_nil]
        exact hs₁.1.isDir
      refine Job.Keeps.bind ((keeps_parentAndName hplain).pre hstart) fun found => ?_
      refine Job.Keeps.each fun s₂ hs₂ => ?_
      obtain ⟨dir, name, hlast, rfl, hname, hs₂⟩ := hs₂
      dsimp only
      split
      · next target htarget =>
        refine (keeps_extractMarker (fun hmode heq => ?_) stats).pre fun s hs => hs ▸ ⟨hs₂.frame, hs₂.isDir⟩
        refine htame hmode hkind ?_
        rw [← hrel, hlast, Text.stripPrefix_eq_some.mp htarget, heq]
        rfl
      · have hready : ∀ s, s = s₂ → Ready dest s₀ dir [] s := by
          rintro s rfl
          refine ⟨hs₂.frame, hs₂.isDir, fun n hn => ?_, fun q hq => Or.inr ?_⟩
          · cases hn
          · rw [List.prefix_nil.mp hq]
            exact s.isDir_root
        have hnode : Keeps me dest s₀ (· = s₂) (extractNode me dest (dest ++ (dir ++ [name])) e)
            fun _ => Between dest s₀ := (keeps_extractNode hname e).pre hready
        rw [← List.append_assoc] at hnode
        exact Job.Keeps.bind hnode fun _ => Job.Keeps.pure fun s hs => hs

theorem keeps_extractEntries {mode : WhiteoutMode} {items : List (Except String TarEntry)}
    (htame : ∀ e, .ok e ∈ items → Tame mode e) (stats : Stats) :
    Keeps me dest s₀ (Between dest s₀) (extractEntries me dest mode items stats) fun _ => Between dest s₀ := by
  induction items generalizing stats with
  | nil => exact Job.Keeps.pure fun s hs => hs
  | cons item items ih =>
    refine Job.Keeps.bind (Q := fun e s => Between dest s₀ s ∧ item = .ok e)
      (keeps_demand fun _ _ hs hr => ⟨hs, hr⟩) fun e => ?_
    refine Job.Keeps.each fun s₁ hs₁ => ?_
    have hentry := htame e (hs₁.2 ▸ List.mem_cons_self)
    refine Job.Keeps.bind ((keeps_extractEntry hentry stats).pre fun s hs => hs ▸ hs₁.1) fun stats => ?_
    exact ih (fun e he => htame e (List.mem_cons_of_mem _ he)) stats

theorem keeps_createDirAll (names : List String) (hnames : s₀.IsDir names.reverse) :
    Keeps me dest s₀ (· = s₀) (createDirAll names) fun _ => (· = s₀) := by
  induction names with
  | nil => exact Job.Keeps.pure fun s hs => hs
  | cons name names ih =>
    have habove : s₀.IsDir names.reverse := by
      rw [List.reverse_cons] at hnames
      exact Fs.isDir_of_append hnames
    have hmkdir : Keeps me dest s₀ (· = s₀) (ask (.mkdir (name :: names).reverse 0o777)) fun _ => (· = s₀) := by
      refine Job.Keeps.ask fun s w hs _ => ?_
      have hsame : (Posix.exec me (.mkdir (name :: names).reverse 0o777) w s).2 = s₀ := by
        obtain ⟨e, he, -⟩ := Posix.mkdir_existing me 0o777 w hnames
        rw [hs, he]
      rw [hsame]
      exact ⟨Frame.refl dest s₀, rfl⟩
    have hcheck : ∀ e : String, Keeps me dest s₀ (· = s₀)
        (do if ← isDir (name :: names).reverse then pure () else Job.throw (.io e)) fun _ => (· = s₀) := by
      intro e
      have hlook : Keeps me dest s₀ (· = s₀) (isDir (name :: names).reverse) fun _ => (· = s₀) :=
        Job.Keeps.ask fun s w hs _ => ⟨hs ▸ Frame.refl dest s₀, hs⟩
      refine Job.Keeps.bind hlook fun there => ?_
      cases there with
      | true => exact Job.Keeps.pure fun s hs => hs
      | false => exact Job.Keeps.throw fun _ _ => trivial
    refine Job.Keeps.bind hmkdir fun r => ?_
    cases r with
    | ok u => exact Job.Keeps.pure fun s hs => hs
    | error e =>
      dsimp only
      split
      · refine Job.Keeps.bind (ih habove) fun _ => Job.Keeps.bind hmkdir fun r => ?_
        cases r with
        | ok u => exact Job.Keeps.pure fun s hs => hs
        | error e => exact hcheck e
      · exact hcheck e

/-- A directory is made where there was nothing. -/
theorem keeps_makeDir {above : Path} {name : String} (habove : s₀.IsDir above) (hname : Posix.Proper name)
    (hfree : s₀.entry (above ++ [name]) = none) :
    Keeps me (above ++ [name]) s₀ (· = s₀) (createDirAll (above ++ [name]).reverse) fun _ =>
      Between (above ++ [name]) s₀ := by
  have hreverse : (above ++ [name]).reverse = name :: above.reverse := List.reverse_concat
  have hpath : (name :: above.reverse).reverse = above ++ [name] := by rw [← hreverse, List.reverse_reverse]
  have hspot : s₀.spot (above ++ [name]) [] = some (above, name) := Fs.spot_proper name habove
  have hlocate : s₀.locate (above ++ [name]) = some (above ++ [name]) := Fs.locate_plain habove hname.1
  have hmkdir : Keeps me (above ++ [name]) s₀ (· = s₀) (ask (.mkdir (above ++ [name]) 0o777)) fun r s =>
      (r = .ok () → Between (above ++ [name]) s₀ s) ∧ ∀ e, r = .error e → s = s₀ := by
    have hwithin : (Call.mkdir (above ++ [name]) 0o777).Within (above ++ [name]) s₀ := fun loc hloc =>
      Option.some.inj (hlocate.symm.trans hloc) ▸ List.prefix_refl _
    refine keeps_ask (fun s hs => by rw [hs]; exact Frame.refl _ s₀) (fun s hs => hs ▸ hwithin) fun s w hs => ?_
    subst hs
    refine ⟨fun hok => ⟨Posix.frame_exec me _ w hwithin, ?_⟩, fun e herror => ?_⟩
    · exact (Fs.added_of_spot (Posix.perform_ok hok) hspot).kindAt_self
    · exact Posix.perform_error herror
  have hcheck (e : String) : Keeps me (above ++ [name]) s₀ (· = s₀)
      (do if ← isDir (above ++ [name]) then pure () else Job.throw (.io e)) fun _ => Between (above ++ [name]) s₀ := by
    have hlook : Keeps me (above ++ [name]) s₀ (· = s₀) (isDir (above ++ [name])) fun there _ => there = false := by
      refine Job.Keeps.ask fun s w hs _ => ?_
      subst hs
      refine ⟨Frame.refl _ s, ?_⟩
      have hnone : s.kindAt (above ++ [name]) = none := by
        rw [Fs.kindAt, hfree]
        rfl
      have hreach : s.reach (above ++ [name]) = some (above ++ [name]) :=
        Fs.reach_of_locate hlocate fun target hlink => by rw [hnone] at hlink; cases hlink
      refine decide_eq_false fun hdir => ?_
      rw [hreach, Option.bind_some, hnone] at hdir
      cases hdir
    refine Job.Keeps.bind hlook fun there => ?_
    cases there with
    | true => exact Job.Keeps.pure fun _ hs => by cases hs
    | false => exact Job.Keeps.throw fun _ _ => trivial
  rw [hreverse]
  unfold createDirAll
  rw [hpath]
  refine Job.Keeps.bind hmkdir fun r => ?_
  cases r with
  | ok u => exact Job.Keeps.pure fun s hs => hs.1 rfl
  | error e =>
    dsimp only
    split
    · have hthere : Keeps me (above ++ [name]) s₀ (· = s₀) (createDirAll above.reverse) fun _ => (· = s₀) :=
        keeps_createDirAll above.reverse (by rwa [List.reverse_reverse])
      refine Job.Keeps.bind (hthere.pre fun s hs => hs.2 e rfl) fun _ => Job.Keeps.bind hmkdir fun r => ?_
      cases r with
      | ok u => exact Job.Keeps.pure fun s hs => hs.1 rfl
      | error e => exact (hcheck e).pre fun s hs => hs.2 e rfl
    · exact (hcheck e).pre fun s hs => hs.2 e rfl

/-- The destination is a directory, or there is nothing there yet in the directory that it is to be in. -/
def Extractable (s : Fs) (dest : Path) : Prop :=
  s.IsDir dest ∨ ∃ above name, dest = above ++ [name] ∧ s.IsDir above ∧ Posix.Proper name ∧ s.entry dest = none

theorem keeps_createDest (hdest : Extractable s₀ dest) :
    Keeps me dest s₀ (· = s₀) (createDirAll dest.reverse) fun _ => Between dest s₀ := by
  rcases hdest with hdir | ⟨above, name, rfl, habove, hname, hfree⟩
  · have hthere : s₀.IsDir dest.reverse.reverse := by rwa [List.reverse_reverse]
    refine (keeps_createDirAll dest.reverse hthere).conseq (fun _ hs => hs) (fun _ s hs => ?_) fun _ _ h => h
    rw [hs]
    exact ⟨Frame.refl dest s₀, hdir⟩
  · exact keeps_makeDir habove hname hfree

end Keeps

def superuser : Creds := {}

/-- Two directories beside each other. -/
def host : Fs := Fs.ofDirs [[], ["srv"], ["srv", "data"], ["srv", "layer"]] (by decide) (by decide +kernel)

/-- A link that leads out, and a file behind it. -/
def hostile : List (Except String TarEntry) :=
  [.ok { path := "up", kind := .symlink, linkName := some "../data" }, .ok { path := "up/passwd", kind := .regular }]

/-- The directories of the host, and a place beside them where there is nothing. -/
theorem host_extractable : Extractable host ["srv", "layer"] ∧ Extractable host ["srv", "new"] :=
  ⟨.inl (by decide +kernel),
    .inr ⟨["srv"], "new", rfl, by decide +kernel, by decide +kernel, by decide +kernel⟩⟩

/-- Everything below a directory taken away. -/
def emptied (loc : Path) (t : Fs) : Fs :=
  t.prune (fun q => loc.isPrefixOf q && decide (q ≠ loc) && !q.isEmpty) (Bool.and_false _)

theorem emptied_entry {t : Fs} {loc q : Path} (hlt : loc <+: q) (hne : q ≠ loc) : (emptied loc t).entry q = none := by
  have hq : q ≠ [] := by
    rintro rfl
    exact hne (List.prefix_nil.mp hlt).symm
  refine Posix.prune_entry _ ?_
  rw [List.isPrefixOf_iff_prefix.mpr hlt, decide_eq_true hne]
  simpa using hq

theorem run_createDirAll {me : Creds} {dest : Path} {s : Fs} (h : s.IsDir dest) :
    run me (createDirAll dest.reverse) s = (.ok (), s) := by
  cases hnames : dest.reverse with
  | nil => rfl
  | cons name names =>
    have hpath : (name :: names).reverse = dest := by rw [← hnames, List.reverse_reverse]
    have hne : dest ≠ [] := by
      rintro rfl
      cases hnames
    obtain ⟨e, hmkdir, hexisting⟩ := Posix.mkdir_existing me 0o777 {} h
    have hreach : s.reach dest = some dest := by
      refine Fs.reach_of_locate (Fs.locate_isDir h) fun target hlink => ?_
      rw [h] at hlink
      cases hlink
    have hthere : run me (isDir dest) s = (.ok true, s) := by
      show (Except.ok (decide ((s.reach dest).bind s.kindAt = some .dir)), s) = _
      rw [hreach]
      exact congrArg (fun b => (Except.ok b, s)) (decide_eq_true h)
    unfold createDirAll
    rw [hpath, run_bind (run_ask _), hmkdir]
    dsimp only
    rw [hexisting rfl hne, if_neg (by decide), run_bind hthere]
    rfl

theorem run_createDest (me : Creds) {dest : Path} {s : Fs} (h : Extractable s dest) :
    ∃ s', run me (createDirAll dest.reverse) s = (.ok (), s') ∧ s'.IsDir dest := by
  rcases h with hdir | ⟨above, name, rfl, habove, hname, hfree⟩
  · exact ⟨s, run_createDirAll hdir, hdir⟩
  · have heffect : Posix.effect me (.mkdir (above ++ [name]) 0o777) s =
        s.newEntry (s.spot (above ++ [name]) []) ⟨.dir, 0o777 - (0o777 &&& me.umask), me.uid, me.gid, false⟩ := rfl
    obtain ⟨s', hmade, hadded⟩ := Posix.exec_new me heffect habove hname hfree
    have hexec : Posix.exec me (.mkdir (above ++ [name]) 0o777) {} s = (.ok (), s') := hmade
    refine ⟨s', ?_, hadded.kindAt_self⟩
    have hreverse : (above ++ [name]).reverse = name :: above.reverse := List.reverse_concat
    have hpath : (name :: above.reverse).reverse = above ++ [name] := by rw [← hreverse, List.reverse_reverse]
    rw [hreverse]
    unfold createDirAll
    rw [hpath, run_bind (run_ask _), hexec]
    rfl

/-- The kernel refuses to remove the directory above the destination, but all that was in it is gone. -/
theorem run_whiteout_up (me : Creds) {dest : Path} {e : TarEntry} {s : Fs} (hdest : s.IsDir dest)
    (hkind : e.kind ≠ .directory) (hpath : components e.path = [".wh..."]) :
    ∃ refusal, run me (extractEntry me dest .overlay e {}) s = (.error (.io refusal), emptied dest.dropLast s) := by
  have hclean : clean e.path = .ok [".wh..."] := by
    rw [clean, hpath]
    rfl
  have hspot : s.spot (dest ++ [".."]) [] = some (dest, "..") := Fs.spot_proper ".." hdest
  have habove : s.IsDir dest.dropLast := Fs.isDir_dropLast hdest
  have hsettle : Fs.settle dest ".." = dest.dropLast := rfl
  have hlook : (s.locate (dest ++ [".."])).bind s.kindAt = some .dir := by
    rw [Fs.locate_of_spot hspot, hsettle]
    exact habove
  obtain ⟨refusal, hrefusal⟩ : ∃ refusal, Fs.rmdirRefusal dest ".." = some refusal := ⟨_, if_pos rfl⟩
  have hremove : Posix.exec me (.removeAll (dest ++ [".."])) {} s = (.error refusal, emptied dest.dropLast s) := by
    show s.removeAll _ {} = _
    unfold Fs.removeAll
    rw [hspot]
    simp only [hsettle, habove, hrefusal]
    rfl
  have hexisting : run me (removeExisting (dest ++ [".."])) s = (.error (.io refusal), emptied dest.dropLast s) := by
    unfold removeExisting
    rw [run_bind (run_lstat _), hlook]
    dsimp only
    rw [run_bind (run_ask _), hremove]
    rfl
  refine ⟨refusal, ?_⟩
  unfold extractEntry
  rw [hclean, Job.lift_ok_bind, if_neg (List.cons_ne_nil _ _), if_neg hkind]
  have hfound : run me (parentAndName dest [".wh..."]) s = (.ok (dest ++ [], ".wh..."), s) := rfl
  rw [run_bind hfound, List.append_nil]
  exact run_bind_error hexisting _

/-- An entry at the top of an archive that is a whiteout of `..`: nothing that was in the directory above the
destination is left. -/
theorem whiteout_up_empties {me : Creds} {dest : Path} {e : TarEntry} {items : List (Except String TarEntry)}
    {s : Fs} (hdest : Extractable s dest) (hkind : e.kind ≠ .directory) (hpath : components e.path = [".wh..."])
    {q : Path} (hq : dest.dropLast <+: q) (hne : q ≠ dest.dropLast) :
    (run me (extractLayer me dest .overlay (.ok e :: items)) s).2.entry q = none := by
  obtain ⟨s', hcreate, hdir⟩ := run_createDest me hdest
  obtain ⟨refusal, hentry⟩ := run_whiteout_up me hdir hkind hpath
  have hall : run me (extractLayer me dest .overlay (.ok e :: items)) s =
      (.error (.io refusal), emptied dest.dropLast s') := by
    unfold extractLayer
    rw [run_bind hcreate]
    exact run_bind_error hentry _
  rw [hall]
  exact emptied_entry hq hne

theorem sibling_lost : host.IsDir ["srv", "data"] ∧
    (run superuser (extractLayer superuser ["srv", "layer"] .overlay [.ok { path := ".wh...", kind := .regular }])
      host).2.entry ["srv", "data"] = none ∧
    (run superuser (extractLayer superuser ["srv", "new"] .overlay [.ok { path := ".wh...", kind := .regular }])
      host).2.entry ["srv", "data"] = none :=
  ⟨by decide +kernel,
    @whiteout_up_empties superuser ["srv", "layer"] { path := ".wh...", kind := .regular } [] host host_extractable.1
      (by decide) (by decide +kernel) ["srv", "data"] ⟨["data"], rfl⟩ (by decide),
    @whiteout_up_empties superuser ["srv", "new"] { path := ".wh...", kind := .regular } [] host host_extractable.2
      (by decide) (by decide +kernel) ["srv", "data"] ⟨["data"], rfl⟩ (by decide)⟩

end Collocate.Image.Extract
