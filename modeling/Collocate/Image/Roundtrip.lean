import Collocate.Image.Commit
import Collocate.Image.Confined

/-! # Archiving and extracting (`collocate-image/src/commit.rs`, `extract.rs`)

What `tar_layer` writes of a directory, `extract_layer` makes again below an empty one: the same names, kinds, contents,
rights, owners, marks and names of one file. TarEntry after entry, what has been made is what has been walked. -/
namespace Collocate.Image.Commit
set_option autoImplicit false

open Posix (Path Fs Inode Creds Kind Added Altered Linked Plain)
open Extract (TarEntry EntryType Stats run)

/-! ## Paths as text -/

theorem joinWith_concat_empty {sep : String} {parts : List String} (hne : parts ≠ []) :
    Text.joinWith sep (parts ++ [""]) = Text.joinWith sep parts ++ sep := by
  induction parts with
  | nil => exact absurd rfl hne
  | cons front rest ih =>
    cases rest with
    | nil => simp [Text.joinWith]
    | cons second rest =>
      have hrest := ih (List.cons_ne_nil _ _)
      show front ++ sep ++ Text.joinWith sep (second :: rest ++ [""]) = front ++ sep ++
        Text.joinWith sep (second :: rest) ++ sep
      rw [hrest]
      simp only [String.append_assoc]

theorem filter_plain {parts : List String} (h : ∀ p ∈ parts, Plain p) :
    (parts.filter fun c => c != "" && c != ".") = parts := by
  refine List.filter_eq_self.mpr fun p hp => ?_
  rw [Bool.and_eq_true, bne_iff_ne, bne_iff_ne]
  exact ⟨(h p hp).1, (h p hp).2.1⟩

theorem components_pathText {p : Path} (hne : p ≠ []) (hp : ∀ n ∈ p, Posix.Proper n) : components (pathText p) = p := by
  rw [components, pathText, Text.split_joinWith rfl (fun n hn => (hp n hn).2) hne]
  exact filter_plain fun n hn => (hp n hn).1

theorem components_dirText {p : Path} (hne : p ≠ []) (hp : ∀ n ∈ p, Posix.Proper n) :
    components (pathText p ++ "/") = p := by
  have hslash : ∀ n ∈ p ++ [""], '/' ∉ n.toList := by
    intro n hn
    rcases List.mem_append.mp hn with hn | hn
    · exact (hp n hn).2
    · rw [List.mem_singleton.mp hn]
      exact List.not_mem_nil
  rw [components, pathText, ← joinWith_concat_empty hne, Text.split_joinWith rfl hslash (Fs.snoc_ne_nil p ""),
    List.filter_append, filter_plain fun n hn => (hp n hn).1]
  exact List.append_nil p

theorem clean_of_components {path : String} {p : Path} (h : components path = p) (hp : ∀ n ∈ p, Posix.Proper n) :
    Extract.clean path = .ok p := by
  rw [Extract.clean, h, if_neg]
  exact fun hup => (hp ".." hup).1.2.2 rfl

/-! ## Directories -/

section Forward
variable {me : Creds} {dest : Path} {s : Fs}

theorem run_descend {follow : List String → String → List String → Extract.Work (List String)}
    (parts more resolved : List String) (h : s.IsDir (dest ++ (resolved ++ parts))) :
    run me (Extract.descend dest follow (parts ++ more) resolved) s =
      run me (Extract.descend dest follow more (resolved ++ parts)) s := by
  induction parts generalizing resolved with
  | nil => rw [List.append_nil, List.nil_append]
  | cons part parts ih =>
    rw [List.append_cons resolved part parts] at h
    have hpart : s.IsDir (dest ++ (resolved ++ [part])) := by
      rw [← List.append_assoc] at h
      exact Fs.isDir_of_append h
    have hlook : (s.locate (dest ++ (resolved ++ [part]))).bind s.kindAt = some .dir := by
      rw [Fs.locate_isDir hpart]
      exact hpart
    rw [List.cons_append, Extract.descend, Extract.run_bind (Extract.run_lstat _), hlook]
    dsimp only [Extract.enterDir]
    rw [Extract.run_bind (Extract.run_pure ()), ih (resolved ++ [part]) h, List.append_assoc]
    rfl

theorem resolveDir_descend (dest : Path) :
    ∃ follow, ∀ parts, Extract.resolveDir dest parts = Extract.descend dest follow parts [] :=
  ⟨_, fun _ => rfl⟩

/-- A path of directories is where it says. -/
theorem run_resolveDir {parts : List String} (h : s.IsDir (dest ++ parts)) :
    run me (Extract.resolveDir dest parts) s = (.ok parts, s) := by
  obtain ⟨follow, hfollow⟩ := resolveDir_descend dest
  have hrun := @run_descend me dest s follow parts [] [] h
  rw [List.append_nil] at hrun
  rw [hfollow, hrun]
  rfl

/-- The last directory of a path is made when it is missing. -/
theorem run_resolveDir_new (me : Creds) {rel : List String} {name : String} (hdir : s.IsDir (dest ++ rel))
    (hname : Posix.Proper name) (hfree : s.entry (dest ++ rel ++ [name]) = none) :
    ∃ s', run me (Extract.resolveDir dest (rel ++ [name])) s = (.ok (rel ++ [name]), s') ∧
      Added s (dest ++ rel) name ⟨.dir, 0o777 - (0o777 &&& me.umask), me.uid, me.gid, false⟩ s' := by
  obtain ⟨follow, hfollow⟩ := resolveDir_descend dest
  have heffect : Posix.effect me (.mkdir (dest ++ rel ++ [name]) 0o777) s =
      s.newEntry (s.spot (dest ++ rel ++ [name]) []) ⟨.dir, 0o777 - (0o777 &&& me.umask), me.uid, me.gid, false⟩ := rfl
  obtain ⟨s', hmade, hadded⟩ := Posix.exec_new me heffect hdir hname hfree
  refine ⟨s', ?_, hadded⟩
  have hnone : (s.locate (dest ++ (rel ++ [name]))).bind s.kindAt = none := by
    rw [← List.append_assoc, Fs.locate_plain hdir hname.1]
    show s.kindAt _ = none
    rw [Fs.kindAt, hfree]
    rfl
  have hcreate : run me (Extract.createDir (dest ++ (rel ++ [name]))) s = (.ok (), s') := by
    rw [← List.append_assoc]
    unfold Extract.createDir
    rw [Extract.run_bind (Extract.run_ask _)]
    have hexec : Posix.exec me (.mkdir (dest ++ rel ++ [name]) 0o777) {} s = (.ok (), s') := hmade
    rw [hexec]
    rfl
  rw [hfollow, run_descend rel [name] [] hdir, List.nil_append, Extract.descend,
    Extract.run_bind (Extract.run_lstat _), hnone]
  dsimp only [Extract.enterDir]
  rw [Extract.run_bind hcreate]
  rfl

theorem run_parentAndName {rel : List String} (name : String) (hdir : s.IsDir (dest ++ rel)) :
    run me (Extract.parentAndName dest (rel ++ [name])) s = (.ok (dest ++ rel, name), s) := by
  unfold Extract.parentAndName
  rw [List.getLast?_concat, List.dropLast_concat]
  dsimp only
  rw [Extract.run_bind (run_resolveDir hdir)]
  rfl

/-! ## One entry -/

theorem run_last (c : Posix.Call) {α : Type} (f : Posix.Answer c → Except String α) {a : α} {s' : Fs}
    (h : f (Posix.exec me c {} s).1 = .ok a) (hs : (Posix.exec me c {} s).2 = s') :
    run me (Extract.ask c >>= fun r => Extract.demand (f r)) s = (.ok a, s') := by
  rw [Extract.run_bind (Extract.run_ask c), h, hs]
  rfl

theorem Added.locate {dir : Path} {name : String} {x : Inode} {s' : Fs} (h : Added s dir name x s') :
    s'.locate (dir ++ [name]) = some (dir ++ [name]) := Fs.locate_plain (h.grown _ h.isDir) h.proper.1

theorem Added.reach {dir : Path} {name : String} {x : Inode} {s' : Fs} (h : Added s dir name x s')
    (hx : ∀ target, x.kind ≠ .link target) : s'.reach (dir ++ [name]) = some (dir ++ [name]) := by
  refine Fs.reach_of_locate (Added.locate h) fun target hlink => ?_
  rw [h.kindAt_self] at hlink
  exact hx target (Option.some.inj hlink)

theorem run_setPermissions (me : Creds) {dir : Path} {name : String} {x : Inode} {s₁ : Fs} (h : Added s dir name x s₁)
    (hx : ∀ target, x.kind ≠ .link target) (mode : ℕ) :
    ∃ s₂, run me (Extract.setPermissions (dir ++ [name]) mode) s₁ = (.ok (), s₂) ∧
      Added s dir name (x.chmod mode) s₂ := by
  have heffect : Posix.effect me (.chmod (dir ++ [name]) mode) s₁ =
      s₁.alterAt (s₁.reach (dir ++ [name])) (Inode.chmod mode) (Inode.chmod_kind mode) := rfl
  obtain ⟨s₂, hmade, haltered⟩ := Posix.exec_alter me (Inode.chmod_kind mode) heffect (Added.reach h hx) h.entry_self
  rw [h.inode_self] at haltered
  have hexec : Posix.exec me (.chmod (dir ++ [name]) mode) {} s₁ = (.ok (), s₂) := hmade
  exact ⟨s₂, run_last (.chmod (dir ++ [name]) mode) (fun r => r) (congrArg Prod.fst hexec) (congrArg Prod.snd hexec),
    h.altered haltered⟩

theorem run_chown (hroot : me.uid = 0) {dir : Path} {name : String} {x : Inode} {s₁ : Fs} (h : Added s dir name x s₁)
    (uid gid : ℕ) :
    ∃ s₂, run me (Extract.chown me (dir ++ [name]) uid gid) s₁ = (.ok (), s₂) ∧
      Added s dir name (x.chown uid gid) s₂ := by
  have heffect : Posix.effect me (.lchown (dir ++ [name]) uid gid) s₁ =
      s₁.alterAt (s₁.locate (dir ++ [name])) (Inode.chown uid gid) (Inode.chown_kind uid gid) := rfl
  obtain ⟨s₂, hmade, haltered⟩ := Posix.exec_alter me (Inode.chown_kind uid gid) heffect (Added.locate h) h.entry_self
  rw [h.inode_self] at haltered
  have hexec : Posix.exec me (.lchown (dir ++ [name]) uid gid) {} s₁ = (.ok (), s₂) := hmade
  refine ⟨s₂, ?_, h.altered haltered⟩
  have hsuper : Extract.isRoot me = true := beq_iff_eq.mpr hroot
  unfold Extract.chown
  rw [if_pos hsuper, Extract.run_bind (Extract.run_ask _), hexec]
  rfl

/-- Nothing is in the way of a name that is free. -/
theorem run_removeExisting {dir : Path} {name : String} (hdir : s.IsDir dir) (hname : Posix.Proper name)
    (hfree : s.entry (dir ++ [name]) = none) : run me (Extract.removeExisting (dir ++ [name])) s = (.ok (), s) := by
  have hnone : (s.locate (dir ++ [name])).bind s.kindAt = none := by
    rw [Fs.locate_plain hdir hname.1]
    show s.kindAt _ = none
    rw [Fs.kindAt, hfree]
    rfl
  unfold Extract.removeExisting
  rw [Extract.run_bind (Extract.run_lstat _), hnone]
  rfl

theorem run_extractDir (hroot : me.uid = 0) {rel : List String} {name : String} (e : TarEntry)
    (hdir : s.IsDir (dest ++ rel)) (hname : Posix.Proper name) (hfree : s.entry (dest ++ rel ++ [name]) = none) :
    ∃ s', run me (Extract.extractDir me dest e (rel ++ [name])) s = (.ok (), s') ∧
      Added s (dest ++ rel) name
        ⟨.dir, Extract.headerMode e, Extract.ownerId e.uid, Extract.ownerId e.gid, false⟩ s' := by
  obtain ⟨s₁, hresolve, hadded₁⟩ := run_resolveDir_new me hdir hname hfree
  obtain ⟨s₂, hchmod, hadded₂⟩ := run_setPermissions me hadded₁ (fun _ => by simp) (Extract.headerMode e)
  obtain ⟨s₃, hchown, hadded₃⟩ := run_chown hroot hadded₂ (Extract.ownerId e.uid) (Extract.ownerId e.gid)
  refine ⟨s₃, ?_, hadded₃⟩
  unfold Extract.extractDir
  rw [Extract.run_bind hresolve, ← List.append_assoc, Extract.run_bind hchmod, hchown]

theorem run_extractFile (hroot : me.uid = 0) {dir : Path} {name : String} {e : TarEntry} (hfault : e.fault = none)
    (hdir : s.IsDir dir) (hname : Posix.Proper name) (hfree : s.entry (dir ++ [name]) = none) :
    ∃ s', run me (Extract.extractFile me (dir ++ [name]) e) s = (.ok (), s') ∧
      Added s dir name ⟨.file e.data, Posix.dropSpecial (Extract.headerMode e), Extract.ownerId e.uid,
        Extract.ownerId e.gid, false⟩ s' := by
  obtain ⟨s₁, hcreate, hadded₁⟩ := Posix.exec_create me 0o666 hdir hname hfree
  obtain ⟨s₂, hmade, haltered⟩ := Posix.exec_write me e.data (congrArg Inode.kind hadded₁.inode_self)
  have hwrite : Posix.exec me (.write s.next e.data) {} s₁ = (.ok (), s₂) := hmade
  have hadded₂ := hadded₁.altered haltered
  rw [hadded₁.inode_self] at hadded₂
  obtain ⟨s₃, hchmod, hadded₃⟩ := run_setPermissions me hadded₂ (fun _ => by simp) (Extract.headerMode e)
  obtain ⟨s₄, hchown, hadded₄⟩ := run_chown hroot hadded₃ (Extract.ownerId e.uid) (Extract.ownerId e.gid)
  refine ⟨s₄, ?_, hadded₄⟩
  unfold Extract.extractFile
  rw [Extract.run_bind (run_removeExisting hdir hname hfree),
    Extract.run_tried (.create (dir ++ [name]) 0o666) (fun r => r) (congrArg Prod.fst hcreate), hcreate,
    Extract.run_tried (.write s.next e.data) (fun r => r) (congrArg Prod.fst hwrite), hwrite, hfault]
  dsimp only
  rw [Extract.run_bind hchmod, hchown]

theorem run_extractSymlink (hroot : me.uid = 0) {dir : Path} {name target : String} {e : TarEntry}
    (htarget : e.linkName = some target) (hdir : s.IsDir dir) (hname : Posix.Proper name)
    (hfree : s.entry (dir ++ [name]) = none) :
    ∃ s', run me (Extract.extractSymlink me (dir ++ [name]) e) s = (.ok (), s') ∧
      Added s dir name ⟨.link target, 0o777, Extract.ownerId e.uid, Extract.ownerId e.gid, false⟩ s' := by
  have heffect : Posix.effect me (.symlink target (dir ++ [name])) s =
      s.newEntry (s.spot (dir ++ [name]) []) ⟨.link target, 0o777, me.uid, me.gid, false⟩ := rfl
  obtain ⟨s₁, hmade, hadded₁⟩ := Posix.exec_new me heffect hdir hname hfree
  have hsymlink : Posix.exec me (.symlink target (dir ++ [name])) {} s = (.ok (), s₁) := hmade
  obtain ⟨s₂, hchown, hadded₂⟩ := run_chown hroot hadded₁ (Extract.ownerId e.uid) (Extract.ownerId e.gid)
  have hmode : Posix.dropSpecial 0o777 = 0o777 := by decide
  have hinode : Inode.chown (Extract.ownerId e.uid) (Extract.ownerId e.gid) ⟨.link target, 0o777, me.uid, me.gid,
    false⟩ =
      ⟨.link target, 0o777, Extract.ownerId e.uid, Extract.ownerId e.gid, false⟩ := by
    rw [Inode.chown, if_neg (by simp), hmode]
  refine ⟨s₂, ?_, hinode ▸ hadded₂⟩
  unfold Extract.extractSymlink
  rw [htarget]
  dsimp only
  rw [Extract.run_bind (run_removeExisting hdir hname hfree),
    Extract.run_tried (.symlink target (dir ++ [name])) (fun r => r) (congrArg Prod.fst hsymlink), hsymlink, hchown]

theorem run_extractLink (me : Creds) {dir : Path} {name target : String} {first : List String} {last : String}
    {e : TarEntry} {i : ℕ} (htarget : e.linkName = some target) (hclean : Extract.clean target = .ok (first ++ [last]))
    (hfirst : s.entry (dest ++ first ++ [last]) = some i) (hkind : (s.inode i).kind ≠ .dir) (hdir : s.IsDir dir)
    (hname : Posix.Proper name) (hfree : s.entry (dir ++ [name]) = none) :
    ∃ s', run me (Extract.extractLink dest (dir ++ [name]) e) s = (.ok (), s') ∧ Linked s dir name i s' := by
  have htdir : s.IsDir (dest ++ first) := Fs.isDir_of_entry hfirst
  have hold := Fs.locate_plain htdir (Fs.proper_of_entry hfirst).1
  obtain ⟨s', hmade, hlinked⟩ := Posix.exec_hardLink me hold hfirst hkind hdir hname hfree
  have hlink : Posix.exec me (.hardLink (dest ++ first ++ [last]) (dir ++ [name])) {} s = (.ok (), s') := hmade
  refine ⟨s', ?_, hlinked⟩
  unfold Extract.extractLink
  rw [htarget]
  dsimp only
  rw [hclean, Job.lift_ok_bind, Extract.run_bind (run_parentAndName last htdir)]
  dsimp only
  rw [Extract.run_bind (run_removeExisting hdir hname hfree)]
  exact run_last (.hardLink (dest ++ first ++ [last]) (dir ++ [name])) (fun r => r) (congrArg Prod.fst hlink)
    (congrArg Prod.snd hlink)

theorem run_whiteout (me : Creds) {dir : Path} {name : String} (hdir : s.IsDir dir) (hname : Posix.Proper name)
    (hfree : s.entry (dir ++ [name]) = none) :
    ∃ s', run me (Extract.mknodWhiteout (dir ++ [name])) s = (.ok (), s') ∧
      Added s dir name ⟨.char 0, 0, me.uid, me.gid, false⟩ s' := by
  have heffect : Posix.effect me (.mknod (dir ++ [name]) (.char 0) 0) s =
      s.newEntry (s.spot (dir ++ [name]) []) ⟨.char 0, 0 - (0 &&& me.umask), me.uid, me.gid, false⟩ := rfl
  obtain ⟨s', hmade, hadded⟩ := Posix.exec_new me heffect hdir hname hfree
  have hexec : Posix.exec me (.mknod (dir ++ [name]) (.char 0) 0) {} s = (.ok (), s') := hmade
  rw [Nat.zero_sub] at hadded
  exact ⟨s', run_last (.mknod (dir ++ [name]) (.char 0) 0) (fun r => r) (congrArg Prod.fst hexec)
    (congrArg Prod.snd hexec), hadded⟩

theorem run_setOpaque (me : Creds) {dir : Path} {i : ℕ} (hdir : s.IsDir dir) (hi : s.entry dir = some i) :
    ∃ s', run me (Extract.setOpaque dir) s = (.ok (), s') ∧ Altered s i (s.inode i).hide s' := by
  have hreach : s.reach dir = some dir := by
    refine Fs.reach_of_locate (Fs.locate_isDir hdir) fun target hlink => ?_
    rw [hdir] at hlink
    cases hlink
  have heffect : Posix.effect me (.setOpaque dir) s = s.alterAt (s.reach dir) Inode.hide Inode.hide_kind := rfl
  obtain ⟨s', hmade, haltered⟩ := Posix.exec_alter me Inode.hide_kind heffect hreach hi
  have hexec : Posix.exec me (.setOpaque dir) {} s = (.ok (), s') := hmade
  exact ⟨s', run_last (.setOpaque dir) (fun r => r) (congrArg Prod.fst hexec) (congrArg Prod.snd hexec), haltered⟩

theorem run_extractEntry_dir (hroot : me.uid = 0) {rel : List String} {name : String} {e : TarEntry}
    (hpath : Extract.clean e.path = .ok (rel ++ [name])) (hkind : e.kind = .directory) (hdir : s.IsDir (dest ++ rel))
    (hname : Posix.Proper name) (hfree : s.entry (dest ++ rel ++ [name]) = none) (stats : Stats) :
    ∃ s', run me (Extract.extractEntry me dest .overlay e stats) s = (.ok stats, s') ∧
      Added s (dest ++ rel) name
        ⟨.dir, Extract.headerMode e, Extract.ownerId e.uid, Extract.ownerId e.gid, false⟩ s' := by
  obtain ⟨s', hmade, hadded⟩ := run_extractDir hroot e hdir hname hfree
  refine ⟨s', ?_, hadded⟩
  unfold Extract.extractEntry
  rw [hpath, Job.lift_ok_bind, if_neg (Fs.snoc_ne_nil rel name), if_pos hkind, Extract.run_bind hmade]
  rfl

theorem run_extractEntry_marker {rel : List String} {target : String} {e : TarEntry}
    (hpath : Extract.clean e.path = .ok (rel ++ [".wh." ++ target])) (hkind : e.kind ≠ .directory)
    (hdir : s.IsDir (dest ++ rel)) {stats : Stats} :
    run me (Extract.extractEntry me dest .overlay e stats) s =
      run me (Extract.extractMarker .overlay (dest ++ rel) target stats) s := by
  unfold Extract.extractEntry
  rw [hpath, Job.lift_ok_bind, if_neg (Fs.snoc_ne_nil rel _), if_neg hkind,
    Extract.run_bind (run_parentAndName (".wh." ++ target) hdir)]
  dsimp only
  rw [Text.stripPrefix_eq_some.mpr rfl]

theorem run_extractEntry_node {rel : List String} {name : String} {e : TarEntry}
    (hpath : Extract.clean e.path = .ok (rel ++ [name])) (hkind : e.kind ≠ .directory)
    (hname : Text.stripPrefix ".wh." name = none) (hdir : s.IsDir (dest ++ rel)) {s' : Fs}
    (hnode : run me (Extract.extractNode me dest (dest ++ rel ++ [name]) e) s = (.ok (), s')) (stats : Stats) :
    run me (Extract.extractEntry me dest .overlay e stats) s = (.ok { stats with files := stats.files + 1 }, s') := by
  unfold Extract.extractEntry
  rw [hpath, Job.lift_ok_bind, if_neg (Fs.snoc_ne_nil rel name), if_neg hkind,
    Extract.run_bind (run_parentAndName name hdir)]
  dsimp only
  rw [hname]
  dsimp only
  rw [Extract.run_bind hnode]
  rfl

theorem run_marker_opaque (me : Creds) {dir : Path} {i : ℕ} (hdir : s.IsDir dir) (hi : s.entry dir = some i)
    (stats : Stats) :
    ∃ s', run me (Extract.extractMarker .overlay dir ".wh..opq" stats) s =
        (.ok { stats with opaqueDirs := stats.opaqueDirs + 1 }, s') ∧ Altered s i (s.inode i).hide s' := by
  obtain ⟨s', hmade, haltered⟩ := run_setOpaque me hdir hi
  refine ⟨s', ?_, haltered⟩
  unfold Extract.extractMarker
  rw [if_pos rfl, if_pos rfl, Extract.run_bind hmade]
  rfl

theorem run_marker_whiteout (me : Creds) {dir : Path} {name : String} (hdir : s.IsDir dir) (hname : Posix.Proper name)
    (hmark : Text.startsWith name ".wh." = false) (hfree : s.entry (dir ++ [name]) = none) (stats : Stats) :
    ∃ s', run me (Extract.extractMarker .overlay dir name stats) s =
        (.ok { stats with whiteouts := stats.whiteouts + 1 }, s') ∧
      Added s dir name ⟨.char 0, 0, me.uid, me.gid, false⟩ s' := by
  obtain ⟨s', hmade, hadded⟩ := run_whiteout me hdir hname hfree
  refine ⟨s', ?_, hadded⟩
  have hother : name ≠ ".wh..opq" := by
    rintro rfl
    have hopq : Text.stripPrefix ".wh." ".wh..opq" = some ".opq" := Text.stripPrefix_eq_some.mpr rfl
    rw [Text.startsWith, hopq] at hmark
    cases hmark
  have hnot : (!Text.startsWith name ".wh.") = true := by rw [hmark]; rfl
  unfold Extract.extractMarker
  rw [if_neg hother, if_pos hnot, if_pos rfl, Extract.run_bind (run_removeExisting hdir hname hfree),
    Extract.run_bind hmade]
  rfl

end Forward

/-! ## What has been made -/

/-- What an inode is after it has been archived and extracted: a file loses the rights that go with another owner, and
links and whiteouts belong to who extracts. -/
def restored (me : Creds) (x : Inode) : Inode :=
  match x.kind with
  | .dir => ⟨.dir, x.mode &&& 0o7777, x.uid % 2 ^ 32, x.gid % 2 ^ 32, x.isOpaque⟩
  | .file data => ⟨.file data, Posix.dropSpecial (x.mode &&& 0o7777), x.uid % 2 ^ 32, x.gid % 2 ^ 32, false⟩
  | .link target => ⟨.link target, 0o777, 0, 0, false⟩
  | kind => ⟨kind, 0, me.uid, me.gid, false⟩

theorem restored_kind (me : Creds) (x : Inode) : (restored me x).kind = x.kind := by
  unfold restored
  split
  · next h => exact h.symm
  · next h => exact h.symm
  · next h => exact h.symm
  · rfl

/-- What `tar_layer` refuses. -/
def Special : Posix.Kind → Prop
  | .char dev => dev ≠ 0
  | .block _ | .fifo => True
  | _ => False

/-- A directory without special files whose names are no marks, with targets that an archive keeps. -/
structure Archivable (u : Upper) : Prop where
  plain : ∀ p i, u.entry p = some i → ¬Special (u.inode i).kind
  unmarked : ∀ p name i, u.entry (p ++ [name]) = some i → (u.inode i).kind ≠ .dir →
    Text.startsWith name ".wh." = false
  targets : ∀ p i target, u.entry p = some i → (u.inode i).kind = .link target → u.linkText target = target
  paths : ∀ p, p ≠ [] → (∀ n ∈ p, Posix.Proper n) → u.linkText (pathText p) = pathText p

/-- Below `dest`, the paths of `D` have been made as they are in the upper directory, and nothing else. -/
structure Sofar (me : Creds) (u : Upper) (dest : Path) (top : Inode) (D : Path → Prop) (inodes : ℕ → Option Path)
    (s : Fs) : Prop where
  root : ∃ i, s.entry dest = some i ∧ s.inode i = top
  made : ∀ p i, p ≠ [] → D p → u.entry p = some i →
    ∃ j, s.entry (dest ++ p) = some j ∧ s.inode j = restored me (u.inode i)
  rest : ∀ p, p ≠ [] → (D p → u.entry p = none) → s.entry (dest ++ p) = none
  same : ∀ p q i j data, p ≠ [] → q ≠ [] → D p → D q → u.entry p = some i → u.entry q = some j →
    (u.inode i).kind = .file data → (s.entry (dest ++ p) = s.entry (dest ++ q) ↔ i = j)
  known : ∀ p i data, p ≠ [] → D p → u.entry p = some i → (u.inode i).kind = .file data → 1 < u.nlink i →
    (inodes i).isSome
  first : ∀ i p, inodes i = some p → p ≠ [] ∧ D p ∧ u.entry p = some i ∧ ∃ data, (u.inode i).kind = .file data

namespace Upper

theorem proper {u : Upper} {p : Path} {i : ℕ} (h : u.entry p = some i) : ∀ n ∈ p, Posix.Proper n := by
  intro n hn
  obtain ⟨front, back, rfl⟩ := List.append_of_mem hn
  have hfront : u.src ++ (front ++ n :: back) = u.src ++ front ++ [n] ++ back := by simp
  unfold entry at h
  rw [hfront] at h
  obtain ⟨j, hj⟩ := Fs.entry_of_append h
  exact Fs.proper_of_entry hj

end Upper

section Made
variable {me : Creds} {u : Upper} {dest : Path} {top : Inode} {D : Path → Prop} {inodes : ℕ → Option Path} {s s' : Fs}

theorem Sofar.isDir (h : Sofar me u dest top D inodes s) (htop : top.kind = .dir) : s.IsDir dest := by
  obtain ⟨i, hi, hinode⟩ := h.root
  exact Fs.isDir_iff.mpr ⟨i, hi, hinode ▸ htop⟩

/-- A directory of the upper one that has been made. -/
theorem Sofar.isDir_made (h : Sofar me u dest top D inodes s) (htop : top.kind = .dir) {p : Path} {i : ℕ}
    (hp : p ≠ [] → D p) (hi : u.entry p = some i) (hkind : (u.inode i).kind = .dir) : s.IsDir (dest ++ p) := by
  by_cases hroot : p = []
  · rw [hroot, List.append_nil]
    exact h.isDir htop
  · obtain ⟨j, hj, hinode⟩ := h.made p i hroot (hp hroot) hi
    refine Fs.isDir_iff.mpr ⟨j, hj, ?_⟩
    rw [hinode, restored_kind]
    exact hkind

/-- Only paths that are there matter. -/
theorem Sofar.congr (h : Sofar me u dest top D inodes s) {D' : Path → Prop}
    (hD : ∀ p i, u.entry p = some i → (D p ↔ D' p)) : Sofar me u dest top D' inodes s where
  root := h.root
  made := fun p i hp hp' hi => h.made p i hp ((hD p i hi).mpr hp') hi
  rest := by
    intro p hp hnone
    refine h.rest p hp fun hpD => ?_
    cases hi : u.entry p with
    | none => rfl
    | some i =>
      rw [hnone ((hD p i hi).mp hpD)] at hi
      cases hi
  same := fun p q i j data hp hq hp' hq' hi hj => h.same p q i j data hp hq ((hD p i hi).mpr hp')
    ((hD q j hj).mpr hq') hi hj
  known := fun p i data hp hp' hi => h.known p i data hp ((hD p i hi).mpr hp') hi
  first := by
    intro i p hp
    obtain ⟨hne, hpD, hi, hfile⟩ := h.first i p hp
    exact ⟨hne, (hD p i hi).mp hpD, hi, hfile⟩

/-- A path that is free has not been made. -/
theorem Sofar.not_made (h : Sofar me u dest top D inodes s) {p : Path} {i : ℕ} (hp : p ≠ []) (hi : u.entry p = some i)
    (hfree : s.entry (dest ++ p) = none) : ¬D p := by
  intro hD
  obtain ⟨j, hj, -⟩ := h.made p i hp hD hi
  rw [hfree] at hj
  cases hj

/-- A new inode is the first of its kind: no other name of the file has been made. -/
theorem Sofar.add (h : Sofar me u dest top D inodes s) {rel : Path} {name : String} {x : Inode} {i : ℕ}
    (hadded : Added s (dest ++ rel) name x s') (hi : u.entry (rel ++ [name]) = some i)
    (hx : x = restored me (u.inode i)) {inodes' : ℕ → Option Path}
    (hinodes : inodes' = inodes ∧ (∀ data, (u.inode i).kind = .file data → ¬1 < u.nlink i) ∨
      inodes' = Function.update inodes i (some (rel ++ [name])) ∧ inodes i = none ∧ ∃ data,
        (u.inode i).kind = .file data) :
    Sofar me u dest top (fun p => D p ∨ p = rel ++ [name]) inodes' s' := by
  have hne : rel ++ [name] ≠ [] := Fs.snoc_ne_nil rel name
  have hpath : dest ++ rel ++ [name] = dest ++ (rel ++ [name]) := List.append_assoc ..
  have hfree := hadded.free
  have hself := hadded.entry_self
  rw [hpath] at hfree hself
  have hnot : ¬D (rel ++ [name]) := h.not_made hne hi hfree
  have hold : ∀ q, q ≠ rel ++ [name] → s'.entry (dest ++ q) = s.entry (dest ++ q) := by
    intro q hq
    refine hadded.entry_of_ne ?_
    rw [hpath]
    exact fun heq => hq (List.append_cancel_left heq)
  have hmade : ∀ q j, q ≠ [] → D q → u.entry q = some j →
      ∃ k, s'.entry (dest ++ q) = some k ∧ s'.inode k = restored me (u.inode j) ∧ k < s.next := by
    intro q j hq hD hj
    obtain ⟨k, hk, hinode⟩ := h.made q j hq hD hj
    have hother : q ≠ rel ++ [name] := by
      rintro rfl
      exact hnot hD
    exact ⟨k, (hold q hother).trans hk, (hadded.inode_old hk).trans hinode, s.bounded _ k hk⟩
  have hfirst : ∀ q data, q ≠ [] → D q → u.entry q = some i → (u.inode i).kind ≠ .file data := by
    intro q data hq hD hqi hdata
    have hother : u.src ++ q ≠ u.src ++ (rel ++ [name]) := by
      intro heq
      rw [List.append_cancel_left heq] at hD
      exact hnot hD
    have hmany := u.counted _ _ i hqi hi hother
    rcases hinodes with ⟨-, hone⟩ | ⟨-, hnone, -⟩
    · exact hone data hdata hmany
    · have hknown := h.known q i data hq hD hqi hdata hmany
      rw [hnone] at hknown
      cases hknown
  have hapart : ∀ q j, q ≠ [] → D q → u.entry q = some j → s'.entry (dest ++ (rel ++ [name])) ≠ s'.entry
    (dest ++ q) := by
    intro q j hq hD hj heq
    obtain ⟨k, hk, -, hlt⟩ := hmade q j hq hD hj
    rw [hself, hk] at heq
    exact Nat.ne_of_gt hlt (Option.some.inj heq)
  refine ⟨?_, ?_, ?_, ?_, ?_, ?_⟩
  · obtain ⟨k, hk, hinode⟩ := h.root
    refine ⟨k, ?_, (hadded.inode_old hk).trans hinode⟩
    rw [← List.append_nil dest] at hk ⊢
    rw [hold [] hne.symm, hk]
  · rintro p j hp (hD | rfl) hj
    · obtain ⟨k, hk, hinode, -⟩ := hmade p j hp hD hj
      exact ⟨k, hk, hinode⟩
    · rw [hi] at hj
      cases hj
      exact ⟨s.next, hself, hadded.inode_self.trans hx⟩
  · intro p hp hnone
    have hother : p ≠ rel ++ [name] := by
      rintro rfl
      rw [hnone (Or.inr rfl)] at hi
      cases hi
    rw [hold p hother]
    exact h.rest p hp fun hD => hnone (Or.inl hD)
  · rintro p q j k data hp hq (hpD | rfl) (hqD | rfl) hj hk hdata
    · have hpne : p ≠ rel ++ [name] := by
        rintro rfl
        exact hnot hpD
      have hqne : q ≠ rel ++ [name] := by
        rintro rfl
        exact hnot hqD
      rw [hold p hpne, hold q hqne]
      exact h.same p q j k data hp hq hpD hqD hj hk hdata
    · rw [hi] at hk
      cases hk
      refine iff_of_false (fun heq => hapart p j hp hpD hj heq.symm) ?_
      rintro rfl
      exact hfirst p data hp hpD hj hdata
    · rw [hi] at hj
      cases hj
      refine iff_of_false (hapart q k hq hqD hk) ?_
      rintro rfl
      exact hfirst q data hq hqD hk hdata
    · rw [hj] at hk
      exact iff_of_true rfl (Option.some.inj hk)
  · rintro p j data hp hD hj hdata hmany
    rcases hinodes with ⟨rfl, hone⟩ | ⟨rfl, -, -⟩
    · rcases hD with hD | rfl
      · exact h.known p j data hp hD hj hdata hmany
      · rw [hi] at hj
        cases hj
        exact absurd hmany (hone data hdata)
    · by_cases hji : j = i
      · rw [hji, Function.update_self]
        rfl
      · rw [Function.update_of_ne hji]
        rcases hD with hD | rfl
        · exact h.known p j data hp hD hj hdata hmany
        · rw [hi] at hj
          exact absurd (Option.some.inj hj).symm hji
  · intro j p hp
    rcases hinodes with ⟨rfl, -⟩ | ⟨rfl, -, hfile⟩
    · obtain ⟨hp', hD, hrest⟩ := h.first j p hp
      exact ⟨hp', Or.inl hD, hrest⟩
    · by_cases hji : j = i
      · rw [hji, Function.update_self] at hp
        cases hp
        exact ⟨hne, Or.inr rfl, hji ▸ hi, hji ▸ hfile⟩
      · rw [Function.update_of_ne hji] at hp
        obtain ⟨hp', hD, hrest⟩ := h.first j p hp
        exact ⟨hp', Or.inl hD, hrest⟩

/-- A link to the first name of a file. -/
theorem Sofar.link (h : Sofar me u dest top D inodes s) {rel first : Path} {name : String} {i k : ℕ}
    (hfirst : inodes i = some first) (hk : s.entry (dest ++ first) = some k)
    (hlinked : Linked s (dest ++ rel) name k s')
    (hi : u.entry (rel ++ [name]) = some i) : Sofar me u dest top (fun p => D p ∨ p = rel ++ [name]) inodes s' := by
  obtain ⟨hfne, hfD, hfi, data, hfile⟩ := h.first i first hfirst
  have hne : rel ++ [name] ≠ [] := Fs.snoc_ne_nil rel name
  have hpath : dest ++ rel ++ [name] = dest ++ (rel ++ [name]) := List.append_assoc ..
  have hfree := hlinked.free
  rw [hpath] at hfree
  have hself : s'.entry (dest ++ (rel ++ [name])) = some k := by
    rw [hlinked.entry, hpath, Function.update_self]
  have hnot : ¬D (rel ++ [name]) := h.not_made hne hi hfree
  have hold : ∀ q, q ≠ rel ++ [name] → s'.entry (dest ++ q) = s.entry (dest ++ q) := by
    intro q hq
    rw [hlinked.entry, hpath, Function.update_of_ne fun heq => hq (List.append_cancel_left heq)]
  have hother : ∀ {q}, D q → q ≠ rel ++ [name] := by
    rintro q hD rfl
    exact hnot hD
  refine ⟨?_, ?_, ?_, ?_, ?_, ?_⟩
  · obtain ⟨j, hj, hinode⟩ := h.root
    refine ⟨j, ?_, (congrFun hlinked.inode j).trans hinode⟩
    rw [← List.append_nil dest] at hj ⊢
    rw [hold [] hne.symm, hj]
  · rintro p j hp (hD | rfl) hj
    · obtain ⟨l, hl, hinode⟩ := h.made p j hp hD hj
      exact ⟨l, (hold p (hother hD)).trans hl, (congrFun hlinked.inode l).trans hinode⟩
    · rw [hi] at hj
      cases hj
      obtain ⟨l, hl, hinode⟩ := h.made first i hfne hfD hfi
      rw [hk] at hl
      cases hl
      exact ⟨k, hself, (congrFun hlinked.inode k).trans hinode⟩
  · intro p hp hnone
    have hne : p ≠ rel ++ [name] := by
      rintro rfl
      rw [hnone (Or.inr rfl)] at hi
      cases hi
    rw [hold p hne]
    exact h.rest p hp fun hD => hnone (Or.inl hD)
  · rintro p q j l data' hp hq (hpD | rfl) (hqD | rfl) hj hl hdata
    · rw [hold p (hother hpD), hold q (hother hqD)]
      exact h.same p q j l data' hp hq hpD hqD hj hl hdata
    · rw [hold p (hother hpD), hself, ← hk, h.same p first j i data' hp hfne hpD hfD hj hfi hdata]
      rw [hi] at hl
      rw [Option.some.inj hl]
    · rw [hold q (hother hqD), hself, ← hk, h.same first q i l data hfne hq hfD hqD hfi hl hfile]
      rw [hi] at hj
      rw [Option.some.inj hj]
    · rw [hj] at hl
      exact iff_of_true rfl (Option.some.inj hl)
  · rintro p j data' hp (hD | rfl) hj hdata hmany
    · exact h.known p j data' hp hD hj hdata hmany
    · rw [hi] at hj
      cases hj
      rw [hfirst]
      rfl
  · intro j p hp
    obtain ⟨hp', hD, hrest⟩ := h.first j p hp
    exact ⟨hp', Or.inl hD, hrest⟩

end Made

/-! ## Steps -/

/-- Extracting what one stretch of the walk has written. -/
def Ahead (me : Creds) (dest : Path) (w : Walk) (s : Fs) (w' : Walk) (s' : Fs) : Prop :=
  ∃ es : List TarEntry, w'.entries = w.entries ++ es ∧
    run me (Extract.extractEntries me dest .overlay (es.map Except.ok) w.stats) s = (.ok w'.stats, s')

section Steps
variable {me : Creds} {dest : Path} {w w' w'' : Walk} {s s' s'' : Fs}

theorem Ahead.refl (me : Creds) (dest : Path) (w : Walk) (s : Fs) : Ahead me dest w s w s :=
  ⟨[], (List.append_nil _).symm, rfl⟩

theorem run_extractEntries_append {es es' : List TarEntry} {stats stats' : Stats}
    (h : run me (Extract.extractEntries me dest .overlay (es.map Except.ok) stats) s = (.ok stats', s')) :
    run me (Extract.extractEntries me dest .overlay ((es ++ es').map Except.ok) stats) s =
      run me (Extract.extractEntries me dest .overlay (es'.map Except.ok) stats') s' := by
  induction es generalizing stats s with
  | nil =>
    have hsame : (Except.ok stats, s) = (Except.ok stats', s') := h
    cases hsame
    rfl
  | cons e es ih =>
    have hgo : ∀ rest : List TarEntry,
      run me (Extract.extractEntries me dest .overlay ((e :: rest).map Except.ok) stats) s =
        run me (Extract.extractEntry me dest .overlay e stats >>= fun stats =>
          Extract.extractEntries me dest .overlay (rest.map Except.ok) stats) s := fun _ => rfl
    rw [hgo] at h
    rw [List.cons_append, hgo]
    obtain ⟨s₁, hone⟩ : ∃ s₁, (run me (Extract.extractEntry me dest .overlay e stats) s).2 = s₁ := ⟨_, rfl⟩
    cases hentry : (run me (Extract.extractEntry me dest .overlay e stats) s).1 with
    | error fault =>
      rw [Extract.run_bind_error (Prod.ext hentry hone)] at h
      cases congrArg Prod.fst h
    | ok stats₁ =>
      rw [Extract.run_bind (Prod.ext hentry hone)] at h ⊢
      exact ih h

theorem Ahead.trans (h : Ahead me dest w s w' s') (h' : Ahead me dest w' s' w'' s'') : Ahead me dest w s w'' s'' := by
  obtain ⟨es, hes, hrun⟩ := h
  obtain ⟨es', hes', hrun'⟩ := h'
  refine ⟨es ++ es', ?_, ?_⟩
  · rw [hes', hes, List.append_assoc]
  · rw [run_extractEntries_append hrun, hrun']

theorem Ahead.one {e : TarEntry} (hentries : w'.entries = w.entries ++ [e])
    (hrun : run me (Extract.extractEntry me dest .overlay e w.stats) s = (.ok w'.stats, s')) :
    Ahead me dest w s w' s' := by
  refine ⟨[e], hentries, ?_⟩
  have hgo : run me (Extract.extractEntries me dest .overlay ([e].map Except.ok) w.stats) s =
      run me (Extract.extractEntry me dest .overlay e w.stats >>= fun stats => pure stats) s := rfl
  rw [hgo, Extract.run_bind hrun]
  rfl

theorem headerMode_masked (e : TarEntry) {mode : ℕ} (h : e.mode = some (mode &&& 0o7777)) :
    Extract.headerMode e = mode &&& 0o7777 := by
  rw [Extract.headerMode, h, Option.getD_some, Nat.and_assoc, Nat.and_self]

variable {u : Upper} {top : Inode} {D : Path → Prop} {rel : Path} {name : String} {i : ℕ}

/-- A directory and its mark. -/
theorem dir_ahead (hroot : me.uid = 0) (hi : u.entry (rel ++ [name]) = some i) (hkind : (u.inode i).kind = .dir)
    (hdir : s.IsDir (dest ++ rel)) (hfree : s.entry (dest ++ rel ++ [name]) = none) :
    ∃ s', Ahead me dest w s (walkMark u (rel ++ [name]) (w.append (dirEntry (rel ++ [name]) (u.inode i)))) s' ∧
      Added s (dest ++ rel) name (restored me (u.inode i)) s' := by
  have hproper := u.proper hi
  have hname : Posix.Proper name := hproper name (by simp)
  have hclean : Extract.clean (dirEntry (rel ++ [name]) (u.inode i)).path = .ok (rel ++ [name]) :=
    clean_of_components (components_dirText (Fs.snoc_ne_nil rel name) hproper) hproper
  obtain ⟨s₁, hentry, hadded⟩ := run_extractEntry_dir hroot hclean rfl hdir hname hfree w.stats
  have hone : Ahead me dest w s (w.append (dirEntry (rel ++ [name]) (u.inode i))) s₁ := Ahead.one rfl hentry
  have hmade : restored me (u.inode i) = ⟨.dir, Extract.headerMode (dirEntry (rel ++ [name]) (u.inode i)),
      Extract.ownerId (some (u.inode i).uid), Extract.ownerId (some (u.inode i).gid), (u.inode i).isOpaque⟩ := by
    rw [restored, hkind, headerMode_masked _ rfl]
    rfl
  have hmark : isOpaque u (rel ++ [name]) = (u.inode i).isOpaque := by
    rw [isOpaque, hi]
  unfold walkMark
  split
  · next hopaque =>
    rw [hmark] at hopaque
    have hmarker : Extract.clean (markerEntry (rel ++ [name] ++ [".wh..wh..opq"])).path =
        .ok (rel ++ [name] ++ [".wh..wh..opq"]) := by
      have hall : ∀ n ∈ rel ++ [name] ++ [".wh..wh..opq"], Posix.Proper n := by
        intro n hn
        rcases List.mem_append.mp hn with hn | hn
        · exact hproper n hn
        · rw [List.mem_singleton.mp hn]
          decide
      exact clean_of_components (components_pathText (Fs.snoc_ne_nil _ _) hall) hall
    have hsub : s₁.IsDir (dest ++ (rel ++ [name])) := by
      rw [← List.append_assoc]
      exact hadded.kindAt_self
    have hat : s₁.entry (dest ++ (rel ++ [name])) = some s.next := by
      rw [← List.append_assoc]
      exact hadded.entry_self
    obtain ⟨s₂, hhide, haltered⟩ := run_marker_opaque me hsub hat w.stats
    rw [hadded.inode_self] at haltered
    refine ⟨s₂, hone.trans (Ahead.one rfl ?_), ?_⟩
    · exact (run_extractEntry_marker hmarker (by simp [markerEntry]) hsub).trans hhide
    · rw [hmade, hopaque]
      exact hadded.altered haltered
  · next hclear =>
    rw [hmark, Bool.not_eq_true] at hclear
    rw [hmade, hclear]
    exact ⟨s₁, hone, hadded⟩

theorem whiteout_ahead (hi : u.entry (rel ++ [name]) = some i) (hkind : (u.inode i).kind = .char 0)
    (hmark : Text.startsWith name ".wh." = false) (hdir : s.IsDir (dest ++ rel))
    (hfree : s.entry (dest ++ rel ++ [name]) = none) :
    ∃ s', Ahead me dest w s (w.append (markerEntry (rel ++ [".wh." ++ name]))).countWhiteout s' ∧
      Added s (dest ++ rel) name (restored me (u.inode i)) s' := by
  have hproper := u.proper hi
  have hname : Posix.Proper name := hproper name (by simp)
  have hmarked : Posix.Proper (".wh." ++ name) := by
    refine ⟨⟨?_, ?_, ?_⟩, ?_⟩
    · exact fun heq => by simpa using congrArg String.length heq
    · exact fun heq => by simpa using congrArg String.toList heq
    · exact fun heq => by simpa using congrArg String.toList heq
    · rw [String.toList_append, List.mem_append]
      rintro (hdot | hslash)
      · exact absurd hdot (by decide)
      · exact hname.2 hslash
  have hclean : Extract.clean (markerEntry (rel ++ [".wh." ++ name])).path = .ok (rel ++ [".wh." ++ name]) := by
    have hall : ∀ n ∈ rel ++ [".wh." ++ name], Posix.Proper n := by
      intro n hn
      rcases List.mem_append.mp hn with hn | hn
      · exact hproper n (List.mem_append_left _ hn)
      · rw [List.mem_singleton.mp hn]
        exact hmarked
    exact clean_of_components (components_pathText (Fs.snoc_ne_nil _ _) hall) hall
  obtain ⟨s', hmade, hadded⟩ := run_marker_whiteout me hdir hname hmark hfree w.stats
  refine ⟨s', Ahead.one rfl ((run_extractEntry_marker hclean (by simp [markerEntry]) hdir).trans hmade), ?_⟩
  have hrestored : restored me (u.inode i) = ⟨.char 0, 0, me.uid, me.gid, false⟩ := by
    rw [restored, hkind]
  rw [hrestored]
  exact hadded

theorem symlink_ahead (hroot : me.uid = 0) {target : String} (hi : u.entry (rel ++ [name]) = some i)
    (hkind : (u.inode i).kind = .link target) (htarget : u.linkText target = target)
    (hmark : Text.startsWith name ".wh." = false) (hdir : s.IsDir (dest ++ rel))
    (hfree : s.entry (dest ++ rel ++ [name]) = none) :
    ∃ s', Ahead me dest w s (w.append (symlinkEntry u (rel ++ [name]) target)).countFile s' ∧
      Added s (dest ++ rel) name (restored me (u.inode i)) s' := by
  have hproper := u.proper hi
  have hname : Posix.Proper name := hproper name (by simp)
  have hclean : Extract.clean (symlinkEntry u (rel ++ [name]) target).path = .ok (rel ++ [name]) :=
    clean_of_components (components_pathText (Fs.snoc_ne_nil rel name) hproper) hproper
  have hlink : (symlinkEntry u (rel ++ [name]) target).linkName = some target := congrArg some htarget
  obtain ⟨s', hmade, hadded⟩ := run_extractSymlink hroot hlink hdir hname hfree
  have hstrip : Text.stripPrefix ".wh." name = none := Option.isNone_iff_eq_none.mp
    (by simpa [Text.startsWith] using hmark)
  have hnode : run me (Extract.extractNode me dest (dest ++ rel ++ [name]) (symlinkEntry u (rel ++ [name]) target)) s =
      (.ok (), s') := hmade
  refine ⟨s', Ahead.one rfl (run_extractEntry_node hclean (by simp [symlinkEntry]) hstrip hdir hnode w.stats), ?_⟩
  have hrestored : restored me (u.inode i) = ⟨.link target, 0o777, 0, 0, false⟩ := by
    rw [restored, hkind]
  rw [hrestored]
  exact hadded

theorem regular_ahead (hroot : me.uid = 0) {data : List UInt8} (hi : u.entry (rel ++ [name]) = some i)
    (hkind : (u.inode i).kind = .file data) (hmark : Text.startsWith name ".wh." = false) (hdir : s.IsDir (dest ++ rel))
    (hfree : s.entry (dest ++ rel ++ [name]) = none) :
    ∃ s', Ahead me dest w s (w.append (regularEntry (rel ++ [name]) (u.inode i) data)).countFile s' ∧
      Added s (dest ++ rel) name (restored me (u.inode i)) s' := by
  have hproper := u.proper hi
  have hname : Posix.Proper name := hproper name (by simp)
  have hclean : Extract.clean (regularEntry (rel ++ [name]) (u.inode i) data).path = .ok (rel ++ [name]) :=
    clean_of_components (components_pathText (Fs.snoc_ne_nil rel name) hproper) hproper
  have hwhole : (regularEntry (rel ++ [name]) (u.inode i) data).fault = none := rfl
  obtain ⟨s', hmade, hadded⟩ := run_extractFile hroot hwhole hdir hname hfree
  have hstrip : Text.stripPrefix ".wh." name = none := Option.isNone_iff_eq_none.mp
    (by simpa [Text.startsWith] using hmark)
  have hnode : run me (Extract.extractNode me dest
    (dest ++ rel ++ [name]) (regularEntry (rel ++ [name]) (u.inode i) data))
      s = (.ok (), s') := hmade
  refine ⟨s', Ahead.one rfl (run_extractEntry_node hclean (by simp [regularEntry]) hstrip hdir hnode w.stats), ?_⟩
  have hrestored : restored me (u.inode i) = ⟨.file data,
      Posix.dropSpecial (Extract.headerMode (regularEntry (rel ++ [name]) (u.inode i) data)),
      Extract.ownerId (some (u.inode i).uid), Extract.ownerId (some (u.inode i).gid), false⟩ := by
    rw [restored, hkind, headerMode_masked _ rfl]
    rfl
  rw [hrestored]
  exact hadded

theorem hardlink_ahead {first : Path} {last : String} {k : ℕ} (hpaths : ∀ p, p ≠ [] → (∀ n ∈ p, Posix.Proper n) →
      u.linkText (pathText p) = pathText p) (hi : u.entry (rel ++ [name]) = some i)
    (hfirst : u.entry (first ++ [last]) = some i) (hk : s.entry (dest ++ first ++ [last]) = some k)
    (hkind : (s.inode k).kind ≠ .dir) (hmark : Text.startsWith name ".wh." = false) (hdir : s.IsDir (dest ++ rel))
    (hfree : s.entry (dest ++ rel ++ [name]) = none) :
    ∃ s', Ahead me dest w s (w.append (hardlinkEntry u (rel ++ [name]) (first ++ [last]) (u.inode i))).countFile s' ∧
      Linked s (dest ++ rel) name k s' := by
  have hproper := u.proper hi
  have hname : Posix.Proper name := hproper name (by simp)
  have hclean : Extract.clean (hardlinkEntry u (rel ++ [name]) (first ++ [last]) (u.inode i)).path =
    .ok (rel ++ [name]) :=
    clean_of_components (components_pathText (Fs.snoc_ne_nil rel name) hproper) hproper
  have hfproper := u.proper hfirst
  have hlink : (hardlinkEntry u (rel ++ [name]) (first ++ [last]) (u.inode i)).linkName =
      some (pathText (first ++ [last])) := congrArg some (hpaths _ (Fs.snoc_ne_nil first last) hfproper)
  have hcleanFirst : Extract.clean (pathText (first ++ [last])) = .ok (first ++ [last]) :=
    clean_of_components (components_pathText (Fs.snoc_ne_nil first last) hfproper) hfproper
  obtain ⟨s', hmade, hlinked⟩ := run_extractLink me hlink hcleanFirst hk hkind hdir hname hfree
  have hstrip : Text.stripPrefix ".wh." name = none := Option.isNone_iff_eq_none.mp
    (by simpa [Text.startsWith] using hmark)
  have hnode : run me (Extract.extractNode me dest (dest ++ rel ++ [name])
      (hardlinkEntry u (rel ++ [name]) (first ++ [last]) (u.inode i))) s = (.ok (), s') := hmade
  exact ⟨s', Ahead.one rfl (run_extractEntry_node hclean (by simp [hardlinkEntry]) hstrip hdir hnode w.stats), hlinked⟩

/-- Nothing is below what is no directory. -/
theorem eq_of_below (hi : u.entry rel = some i) (hkind : (u.inode i).kind ≠ .dir) {p : Path} {j : ℕ}
    (hbelow : rel <+: p) (hj : u.entry p = some j) : p = rel := by
  obtain ⟨q, rfl⟩ := hbelow
  cases q using List.reverseRecOn with
  | nil => exact List.append_nil rel
  | append_singleton q n =>
    unfold Upper.entry at hi hj
    rw [← List.append_assoc, ← List.append_assoc] at hj
    obtain ⟨k, hk, hdir⟩ := Fs.isDir_iff.mp (Fs.isDir_of_append (Fs.isDir_of_entry hj))
    rw [hi] at hk
    cases hk
    exact absurd hdir hkind

/-- A file is made anew, or is a link to its first name. -/
theorem file_ahead (hroot : me.uid = 0) (hu : Archivable u) {data : List UInt8}
    (h : Sofar me u dest top D w.inodes s) (hi : u.entry (rel ++ [name]) = some i)
    (hkind : (u.inode i).kind = .file data) (hmark : Text.startsWith name ".wh." = false) (hdir : s.IsDir (dest ++ rel))
    (hfree : s.entry (dest ++ rel ++ [name]) = none) :
    ∃ s', Ahead me dest w s (walkFile u (rel ++ [name]) i data w) s' ∧
      Sofar me u dest top (fun p => D p ∨ p = rel ++ [name]) (walkFile u (rel ++ [name]) i data w).inodes s' := by
  obtain ⟨s₁, hahead, hadded⟩ := regular_ahead (w := w) hroot hi hkind hmark hdir hfree
  unfold walkFile
  split
  · split
    · next first hfirst =>
      obtain ⟨hne, hD, hentry, -⟩ := h.first i first hfirst
      obtain ⟨k, hk, hinode⟩ := h.made first i hne hD hentry
      obtain ⟨front, last, rfl⟩ := (List.eq_nil_or_concat first).resolve_left hne
      rw [List.concat_eq_append] at hfirst hentry hk ⊢
      have hfile : (s.inode k).kind ≠ .dir := by
        rw [hinode, restored_kind, hkind]
        exact fun heq => by cases heq
      have hk' := hk
      rw [← List.append_assoc] at hk'
      obtain ⟨s₂, hlink, hlinked⟩ := hardlink_ahead (w := w) hu.paths hi hentry hk' hfile hmark hdir hfree
      exact ⟨s₂, hlink, h.link hfirst hk hlinked hi⟩
    · next hnone =>
      obtain ⟨s₂, hahead₂, hadded₂⟩ := regular_ahead (w := w.remember i (rel ++ [name])) hroot hi hkind hmark hdir hfree
      exact ⟨s₂, hahead₂, h.add hadded₂ hi rfl (Or.inr ⟨rfl, hnone, data, hkind⟩)⟩
  · next hone => exact ⟨s₁, hahead, h.add hadded hi rfl (Or.inl ⟨rfl, fun _ _ => hone⟩)⟩

/-- One child that is no directory. -/
theorem leaf_ahead (hroot : me.uid = 0) (hu : Archivable u) {down : Path → Walk → Result Walk}
    (h : Sofar me u dest top D w.inodes s) (hdir : s.IsDir (dest ++ rel))
    (hfresh : ∀ p, rel ++ [name] <+: p → ¬D p) (hleaf : ∀ i, u.entry (rel ++ [name]) = some i → (u.inode i).kind ≠ .dir)
    (hwalk : walkChild u down rel name w = .ok w') :
    ∃ s', Ahead me dest w s w' s' ∧ Sofar me u dest top (fun p => D p ∨ rel ++ [name] <+: p) w'.inodes s' := by
  cases hi : u.entry (rel ++ [name]) with
  | none =>
    rw [walkChild, hi] at hwalk
    cases hwalk
    refine ⟨s, Ahead.refl me dest w s, h.congr fun p j hj => ⟨Or.inl, fun hp => hp.resolve_right ?_⟩⟩
    rintro ⟨q, rfl⟩
    unfold Upper.entry at hi hj
    rw [← List.append_assoc] at hj
    obtain ⟨k, hk⟩ := Fs.entry_of_append hj
    rw [hi] at hk
    cases hk
  | some i =>
    have hkind := hleaf i hi
    have hmark := hu.unmarked rel name i hi hkind
    have hfree : s.entry (dest ++ rel ++ [name]) = none := by
      rw [List.append_assoc]
      exact h.rest _ (Fs.snoc_ne_nil rel name) fun hD => absurd hD (hfresh _ (List.prefix_refl _))
    have hbelow : ∀ {inodes s'}, Sofar me u dest top (fun p => D p ∨ p = rel ++ [name]) inodes s' →
        Sofar me u dest top (fun p => D p ∨ rel ++ [name] <+: p) inodes s' := by
      intro inodes s' h'
      refine h'.congr fun p j hj => or_congr_right ⟨?_, fun hp => eq_of_below hi hkind hp hj⟩
      rintro rfl
      exact List.prefix_refl _
    have hother : ∀ {s'}, (∀ data, (u.inode i).kind ≠ .file data) →
        Added s (dest ++ rel) name (restored me (u.inode i)) s' →
        Sofar me u dest top (fun p => D p ∨ rel ++ [name] <+: p) w.inodes s' := fun hfile hadded =>
      hbelow (h.add hadded hi rfl (Or.inl ⟨rfl, fun data hdata => absurd hdata (hfile data)⟩))
    rw [walkChild, hi] at hwalk
    cases hk : (u.inode i).kind with
    | dir => exact absurd hk hkind
    | link target =>
      simp only [hk] at hwalk
      cases hwalk
      obtain ⟨s', hahead, hadded⟩ :=
        symlink_ahead (w := w) hroot hi hk (hu.targets _ i target hi hk) hmark hdir hfree
      exact ⟨s', hahead, hother (by simp [hk]) hadded⟩
    | file data =>
      simp only [hk] at hwalk
      cases hwalk
      obtain ⟨s', hahead, hsofar⟩ := file_ahead hroot hu h hi hk hmark hdir hfree
      exact ⟨s', hahead, hbelow hsofar⟩
    | char dev =>
      simp only [hk] at hwalk
      split at hwalk
      · next heq => cases heq
      · next heq =>
        cases heq
        cases hwalk
        obtain ⟨s', hahead, hadded⟩ := whiteout_ahead (w := w) hi hk hmark hdir hfree
        exact ⟨s', hahead, hother (by simp [hk]) hadded⟩
      · next heq => cases heq
      · next heq => cases heq
      · cases hwalk
    | block dev =>
      simp only [hk] at hwalk
      cases hwalk
    | fifo =>
      simp only [hk] at hwalk
      cases hwalk

theorem prefix_cons_iff {p q : Path} : p <+: q ↔ q = p ∨ ∃ n, p ++ [n] <+: q := by
  constructor
  · rintro ⟨r, rfl⟩
    cases r with
    | nil => exact Or.inl (List.append_nil p)
    | cons n r => exact Or.inr ⟨n, r, by simp⟩
  · rintro (rfl | ⟨n, hn⟩)
    · exact List.prefix_refl _
    · exact (List.prefix_append p [n]).trans hn

theorem mem_sorted (u : Upper) (p : Path) (n : String) : n ∈ u.sorted p ↔ ∃ i, u.entry (p ++ [n]) = some i := by
  unfold Upper.sorted
  rw [List.mem_mergeSort]
  exact u.listed p n

theorem walkMark_inodes (u : Upper) (rel : Path) (w : Walk) : (walkMark u rel w).inodes = w.inodes := by
  unfold walkMark
  split
  · rfl
  · rfl

/-- What is to be shown of one child that is a directory, with everything below it. -/
def Down (me : Creds) (u : Upper) (dest : Path) (top : Inode) (down : Path → Walk → Result Walk) (rel : Path)
    (name : String) : Prop :=
  ∀ (D : Path → Prop) (w w' : Walk) (s : Fs) (i : ℕ), u.entry (rel ++ [name]) = some i → (u.inode i).kind = .dir →
    s.IsDir (dest ++ rel) → (∀ p, rel ++ [name] <+: p → ¬D p) → Sofar me u dest top D w.inodes s →
    down (rel ++ [name]) (w.append (dirEntry (rel ++ [name]) (u.inode i))) = .ok w' →
    ∃ s', Ahead me dest w s w' s' ∧ Sofar me u dest top (fun p => D p ∨ rel ++ [name] <+: p) w'.inodes s'

theorem child_ahead (hroot : me.uid = 0) (hu : Archivable u) {down : Path → Walk → Result Walk}
    (hdown : Down me u dest top down rel name) (h : Sofar me u dest top D w.inodes s) (hdir : s.IsDir (dest ++ rel))
    (hfresh : ∀ p, rel ++ [name] <+: p → ¬D p) (hwalk : walkChild u down rel name w = .ok w') :
    ∃ s', Ahead me dest w s w' s' ∧ Sofar me u dest top (fun p => D p ∨ rel ++ [name] <+: p) w'.inodes s' := by
  by_cases hleaf : ∀ i, u.entry (rel ++ [name]) = some i → (u.inode i).kind ≠ .dir
  · exact leaf_ahead hroot hu h hdir hfresh hleaf hwalk
  · push Not at hleaf
    obtain ⟨i, hi, hkind⟩ := hleaf
    rw [walkChild, hi] at hwalk
    simp only [hkind] at hwalk
    exact hdown D w w' s i hi hkind hdir hfresh h hwalk

/-- The children of a directory, one after the other. -/
theorem children_ahead (hroot : me.uid = 0) (hu : Archivable u) (htop : top.kind = .dir)
    {down : Path → Walk → Result Walk} (hdown : ∀ name, Down me u dest top down rel name) (hi : u.entry rel = some i)
    (hkind : (u.inode i).kind = .dir) {names : List String} (hnodup : names.Nodup) (hmade : rel ≠ [] → D rel)
    (hfresh : ∀ name ∈ names, ∀ p, rel ++ [name] <+: p → ¬D p) (h : Sofar me u dest top D w.inodes s)
    (hwalk : walkChildren u down rel names w = .ok w') :
    ∃ s', Ahead me dest w s w' s' ∧
      Sofar me u dest top (fun p => D p ∨ ∃ name ∈ names, rel ++ [name] <+: p) w'.inodes s' := by
  induction names generalizing D w s with
  | nil =>
    have hsame : w = w' := Except.ok.inj hwalk
    rw [← hsame]
    refine ⟨s, Ahead.refl me dest w s, h.congr fun p j _ => ⟨Or.inl, fun hp => hp.resolve_right ?_⟩⟩
    rintro ⟨name, hname, -⟩
    cases hname
  | cons name names ih =>
    rw [walkChildren] at hwalk
    cases hchild : walkChild u down rel name w with
    | error e =>
      rw [hchild] at hwalk
      cases hwalk
    | ok w₁ =>
      rw [hchild] at hwalk
      have hdir := h.isDir_made htop hmade hi hkind
      obtain ⟨s₁, hahead₁, hsofar₁⟩ :=
        child_ahead hroot hu (hdown name) h hdir (hfresh name List.mem_cons_self) hchild
      have hfresh₁ : ∀ name' ∈ names, ∀ p, rel ++ [name'] <+: p → ¬(D p ∨ rel ++ [name] <+: p) := by
        rintro name' hname' p hp (hD | hbelow)
        · exact hfresh name' (List.mem_cons_of_mem _ hname') p hp hD
        · have heq := (List.prefix_of_prefix_length_le hbelow hp (by simp)).eq_of_length (by simp)
          cases List.append_cancel_left heq
          exact (List.nodup_cons.mp hnodup).1 hname'
      obtain ⟨s₂, hahead₂, hsofar₂⟩ :=
        ih (List.nodup_cons.mp hnodup).2 (fun hne => Or.inl (hmade hne)) hfresh₁ hsofar₁ hwalk
      refine ⟨s₂, hahead₁.trans hahead₂, hsofar₂.congr fun p j _ => ?_⟩
      rw [or_assoc]
      refine or_congr_right ?_
      simp only [List.mem_cons, exists_eq_or_imp]

/-- Everything below a directory, by induction on the depth that is left. -/
theorem walk_ahead (hroot : me.uid = 0) (hu : Archivable u) (htop : top.kind = .dir) (n : ℕ) {rel : Path}
    (hdepth : rel.length + n = u.depth) (name : String) : Down me u dest top (walk u n) rel name := by
  induction n generalizing rel name with
  | zero =>
    intro D w w' s i hi _ _ _ _ _
    have hshallow := u.shallow _ i hi
    rw [List.length_append, List.length_singleton] at hshallow
    omega
  | succ n ih =>
    intro D w w' s i hi hkind hdir hfresh h hwalk
    have hne : rel ++ [name] ≠ [] := Fs.snoc_ne_nil rel name
    have hfree : s.entry (dest ++ rel ++ [name]) = none := by
      rw [List.append_assoc]
      exact h.rest _ hne fun hD => absurd hD (hfresh _ (List.prefix_refl _))
    obtain ⟨s₁, hahead₁, hadded⟩ := dir_ahead (w := w) hroot hi hkind hdir hfree
    have hsofar₁ := h.add hadded hi rfl
      (Or.inl ⟨walkMark_inodes u (rel ++ [name]) (w.append (dirEntry (rel ++ [name]) (u.inode i))), by simp [hkind]⟩)
    have hnodup : (u.sorted (rel ++ [name])).Nodup := (List.mergeSort_perm _ _).nodup_iff.mpr (u.distinct _)
    have hfresh₁ : ∀ name' ∈ u.sorted (rel ++ [name]), ∀ p, rel ++ [name] ++ [name'] <+: p →
        ¬(D p ∨ p = rel ++ [name]) := by
      rintro name' - p hp (hD | rfl)
      · exact hfresh p ((List.prefix_append _ _).trans hp) hD
      · have hlength := hp.length_le
        simp at hlength
    have hdown : ∀ name', Down me u dest top (walk u n) (rel ++ [name]) name' := by
      intro name'
      refine ih ?_ name'
      rw [List.length_append, List.length_singleton]
      omega
    obtain ⟨s₂, hahead₂, hsofar₂⟩ := children_ahead hroot hu htop hdown hi hkind hnodup (fun _ => Or.inr rfl) hfresh₁
      hsofar₁ hwalk
    refine ⟨s₂, hahead₁.trans hahead₂, hsofar₂.congr fun p j hj => ?_⟩
    rw [or_assoc]
    refine or_congr_right ?_
    rw [prefix_cons_iff]
    refine or_congr_right ⟨?_, ?_⟩
    · rintro ⟨n', -, hn'⟩
      exact ⟨n', hn'⟩
    · rintro ⟨n', hn'⟩
      refine ⟨n', (mem_sorted u _ n').mpr ?_, hn'⟩
      obtain ⟨q, rfl⟩ := hn'
      unfold Upper.entry at hj ⊢
      rw [← List.append_assoc] at hj
      exact Fs.entry_of_append hj

end Steps

/-! ## Whole layers -/

/-- `t'` has below `dest` what is in the upper directory, and `t` had nothing there. -/
structure Restored (me : Creds) (u : Upper) (dest : Path) (t t' : Fs) : Prop where
  entries : ∀ p, (t'.entry (dest ++ p)).isSome = (u.entry p).isSome
  inodes : ∀ p i j, p ≠ [] → u.entry p = some i → t'.entry (dest ++ p) = some j → t'.inode j = restored me (u.inode i)
  files : ∀ p q i j data, p ≠ [] → q ≠ [] → u.entry p = some i → u.entry q = some j → (u.inode i).kind = .file data →
    (t'.entry (dest ++ p) = t'.entry (dest ++ q) ↔ i = j)
  root : ∃ i j, t.entry dest = some i ∧ t'.entry dest = some j ∧
    t'.inode j = if isOpaque u [] then (t.inode i).hide else t.inode i

theorem Sofar.restored {me : Creds} {u : Upper} {dest : Path} {top : Inode} {D : Path → Prop} {inodes : ℕ → Option Path}
    {t t' : Fs} (h : Sofar me u dest top D inodes t') (hall : ∀ p i, p ≠ [] → u.entry p = some i → D p) {i : ℕ}
    (hi : t.entry dest = some i) (htop : top = if isOpaque u [] then (t.inode i).hide else t.inode i) :
    Restored me u dest t t' where
  entries := by
    intro p
    by_cases hp : p = []
    · obtain ⟨j, hj, -⟩ := Fs.isDir_iff.mp u.isDir
      have hroot : u.entry [] = some j := by
        rw [Upper.entry, List.append_nil, hj]
      obtain ⟨k, hk, -⟩ := h.root
      rw [hp, List.append_nil, hk, hroot]
      rfl
    · cases hi : u.entry p with
      | none =>
        rw [h.rest p hp fun _ => hi]
      | some j =>
        obtain ⟨k, hk, -⟩ := h.made p j hp (hall p j hp hi) hi
        rw [hk]
        rfl
  inodes := by
    intro p j k hp hj hk
    obtain ⟨l, hl, hinode⟩ := h.made p j hp (hall p j hp hj) hj
    rw [hk] at hl
    cases hl
    exact hinode
  files := fun p q j k data hp hq hj hk => h.same p q j k data hp hq (hall p j hp hj) (hall q k hq hk) hj hk
  root := by
    obtain ⟨j, hj, hinode⟩ := h.root
    exact ⟨i, j, hi, hj, hinode.trans htop⟩

/-- Nothing has been made yet in an empty directory. -/
theorem sofar_empty (me : Creds) (u : Upper) {dest : Path} {t : Fs} (hempty : ∀ p, p ≠ [] → t.entry (dest ++ p) = none)
    {i : ℕ} (hi : t.entry dest = some i) :
    Sofar me u dest (t.inode i) (fun _ => False) (fun _ => none) t where
  root := ⟨i, hi, rfl⟩
  made := fun _ _ _ hD => hD.elim
  rest := fun p hp _ => hempty p hp
  same := fun _ _ _ _ _ _ _ hD => hD.elim
  known := fun _ _ _ _ hD => hD.elim
  first := fun _ _ hp => by cases hp

/-- The mark of the whole directory comes first. -/
theorem root_ahead (me : Creds) (u : Upper) {dest : Path} {t : Fs} (hdest : t.IsDir dest)
    (hempty : ∀ p, p ≠ [] → t.entry (dest ++ p) = none) {i : ℕ} (hi : t.entry dest = some i) :
    ∃ t', Ahead me dest {} t (walkMark u [] {}) t' ∧
      Sofar me u dest (if isOpaque u [] then (t.inode i).hide else t.inode i) (fun _ => False) (fun _ => none) t' := by
  unfold walkMark
  split
  · have hclean : Extract.clean (markerEntry ([] ++ [".wh..wh..opq"])).path = .ok ([] ++ [".wh..wh..opq"]) := by
      have hall : ∀ n ∈ ([] ++ [".wh..wh..opq"] : Path), Posix.Proper n := by
        intro n hn
        rw [List.mem_singleton.mp hn]
        decide
      exact clean_of_components (components_pathText (Fs.snoc_ne_nil [] _) hall) hall
    have hdir : t.IsDir (dest ++ []) := by rwa [List.append_nil]
    have hat : t.entry (dest ++ []) = some i := by rwa [List.append_nil]
    obtain ⟨t', hmade, haltered⟩ := run_marker_opaque me hdir hat {}
    refine ⟨t', Ahead.one rfl ((run_extractEntry_marker hclean (by simp [markerEntry]) hdir).trans hmade), ?_⟩
    have hinode : t'.inode i = (t.inode i).hide := by
      rw [haltered.inode, Function.update_self]
    rw [← hinode]
    refine sofar_empty me u (fun p hp => ?_) (by rw [haltered.entry, hi])
    rw [haltered.entry]
    exact hempty p hp
  · exact ⟨t, Ahead.refl me dest {} t, sofar_empty me u hempty hi⟩

theorem walkChild_ok {u : Upper} (hu : Archivable u) {down : Path → Walk → Result Walk}
    (hdown : ∀ rel w, ∃ w', down rel w = .ok w') (rel : Path) (name : String) (w : Walk) :
    ∃ w', walkChild u down rel name w = .ok w' := by
  unfold walkChild
  split
  · exact ⟨w, rfl⟩
  · next i hi =>
    split
    · exact hdown _ _
    · exact ⟨_, rfl⟩
    · exact ⟨_, rfl⟩
    · exact ⟨_, rfl⟩
    · next hdir hwhite hlink hfile =>
      exfalso
      have hplain := hu.plain _ i hi
      cases hk : (u.inode i).kind with
      | dir => exact hdir hk
      | link target => exact hlink target hk
      | file data => exact hfile data hk
      | char dev =>
        rw [hk] at hplain
        exact hplain fun hzero => hwhite (by rw [hk, hzero])
      | block dev =>
        rw [hk] at hplain
        exact hplain trivial
      | fifo =>
        rw [hk] at hplain
        exact hplain trivial

theorem walkChildren_ok {u : Upper} (hu : Archivable u) {down : Path → Walk → Result Walk}
    (hdown : ∀ rel w, ∃ w', down rel w = .ok w') (rel : Path) (names : List String) (w : Walk) :
    ∃ w', walkChildren u down rel names w = .ok w' := by
  induction names generalizing w with
  | nil => exact ⟨w, rfl⟩
  | cons name names ih =>
    obtain ⟨w₁, hw₁⟩ := walkChild_ok hu hdown rel name w
    rw [walkChildren, hw₁]
    exact ih w₁

/-- Only special files stop the walk. -/
theorem walk_ok {u : Upper} (hu : Archivable u) (n : ℕ) (rel : Path) (w : Walk) : ∃ w', walk u n rel w = .ok w' := by
  induction n generalizing rel w with
  | zero => exact ⟨w, rfl⟩
  | succ n ih => exact walkChildren_ok hu ih rel _ _

/-- Two directories, and a file with two names in a directory below one of them. -/
def host : Fs :=
  let dirs := Fs.ofDirs [[], ["up"], ["up", "etc"], ["srv"]] (by decide) (by decide +kernel)
  let one := dirs.put ["up", "etc"] "motd" 4 ⟨.file [104, 105], 0o4755, 7, 7, false⟩ 5 (by decide +kernel)
    (by decide +kernel) (by decide +kernel) (.inl fun p hp => absurd (dirs.bounded p 4 hp) (by decide)) (by decide)
    (by decide)
  one.put ["up", "etc"] "issue" 4 ⟨.file [104, 105], 0o4755, 7, 7, false⟩ 5 (by decide +kernel) (by decide +kernel)
    (by decide +kernel) (.inr ⟨by decide +kernel, by decide⟩) (by decide) (by decide)

theorem host_entry (p : Path) : (host.entry p).isSome ↔
    p ∈ [["up", "etc", "issue"], ["up", "etc", "motd"], [], ["up"], ["up", "etc"], ["srv"]] := by
  have hentry : host.entry p = if p = ["up", "etc", "issue"] then some 4 else if p = ["up", "etc", "motd"] then some 4
      else if p ∈ [[], ["up"], ["up", "etc"], ["srv"]] then
        some (List.idxOf p [[], ["up"], ["up", "etc"], ["srv"]]) else none := by
    show Function.update (Function.update _ ["up", "etc", "motd"] _) ["up", "etc", "issue"] _ p = _
    rw [Function.update_apply, Function.update_apply]
    rfl
  rw [hentry]
  by_cases hissue : p = ["up", "etc", "issue"]
  · simp [hissue]
  · by_cases hmotd : p = ["up", "etc", "motd"]
    · simp [hmotd]
    · rw [if_neg hissue, if_neg hmotd, Option.isSome_iff_exists]
      simp only [Option.ite_none_right_eq_some, List.mem_cons, hissue, hmotd, false_or, exists_and_left, exists_eq',
        and_true, Option.some.injEq]

theorem host_inode (i : ℕ) : host.inode i =
    if i = 4 then ⟨.file [104, 105], 0o4755, 7, 7, false⟩ else ⟨.dir, 0o755, 0, 0, false⟩ := by
  show Function.update (Function.update _ 4 _) 4 _ i = _
  rw [Function.update_idem, Function.update_apply]
  rfl

def upperNames : Path → List String
  | [] => ["etc"]
  | ["etc"] => ["motd", "issue"]
  | _ => []

theorem upperNames_iff (p : Path) (n : String) :
    n ∈ upperNames p ↔ p ++ [n] ∈ [["etc", "issue"], ["etc", "motd"], ["etc"]] := by
  cases p with
  | nil => simp [upperNames]
  | cons a p =>
    cases p with
    | nil =>
      by_cases ha : a = "etc"
      · subst ha
        simp [upperNames, or_comm]
      · simp [upperNames, ha]
    | cons b p => simp [upperNames]

def upper : Upper where
  fs := host
  src := ["up"]
  isDir := by decide +kernel
  readDir := upperNames
  listed := by
    intro p n
    rw [← Option.isSome_iff_exists, host_entry, upperNames_iff]
    simp
  distinct := by
    intro p
    unfold upperNames
    split
    · decide
    · decide
    · exact List.nodup_nil
  depth := 2
  shallow := by
    intro p i hi
    have hmem := (host_entry _).mp (Option.isSome_iff_exists.mpr ⟨i, hi⟩)
    simp only [List.mem_cons, List.not_mem_nil, or_false, List.cons_append, List.nil_append, List.cons.injEq, true_and,
      reduceCtorEq, false_or] at hmem
    rcases hmem with rfl | rfl | rfl | rfl | h
    · decide
    · decide
    · decide
    · decide
    · exact absurd h.1 (by decide)
  nlink := fun i => if i = 4 then 2 else 1
  counted := by
    intro p q i hp hq hne
    by_cases hi : i = 4
    · rw [if_pos hi]
      decide
    · refine absurd (host.single p q i hp hq ?_) hne
      rw [host_inode, if_neg hi]
  linkText := fun target => target

theorem upper_archivable : Archivable upper := by
  have hkind : ∀ i, (upper.inode i).kind = .file [104, 105] ∨ (upper.inode i).kind = .dir := by
    intro i
    show (host.inode i).kind = _ ∨ (host.inode i).kind = _
    rw [host_inode]
    split
    · exact Or.inl rfl
    · exact Or.inr rfl
  refine ⟨fun p i _ => ?_, fun p name i hi hdir => ?_, fun _ _ _ _ _ => rfl, fun _ _ _ => rfl⟩
  · rcases hkind i with hk | hk
    · rw [hk]
      exact id
    · rw [hk]
      exact id
  · have hname : name ∈ upperNames p := (upper.listed p name).mpr ⟨i, hi⟩
    have hmem := (upperNames_iff p name).mp hname
    have hcases : name = "issue" ∨ name = "motd" ∨ name = "etc" := by
      have hlast : ∀ {q : Path}, p ++ [name] = q → some name = q.getLast? := by
        rintro q rfl
        rw [List.getLast?_concat]
      simp only [List.mem_cons, List.not_mem_nil, or_false] at hmem
      rcases hmem with h | h | h
      · exact Or.inl (Option.some.inj (hlast h))
      · exact Or.inr (Or.inl (Option.some.inj (hlast h)))
      · exact Or.inr (Or.inr (Option.some.inj (hlast h)))
    rcases hcases with rfl | rfl | rfl
    · decide +kernel
    · decide +kernel
    · decide +kernel

end Collocate.Image.Commit
