import Collocate.Lib.Posix

/-! # What a call of the kernel leaves

What a call can change is bounded by where its path leads (`Call.Within`, `frame_exec`): a program all of whose calls
stay below a directory leaves everything else as it was. Only a recursive removal takes directories away
(`grown_exec`). -/
namespace Collocate.Posix
set_option autoImplicit false

/-! ## What stays as it was -/

/-- Outside a directory everything is as it was, and what is inside now was inside before or is new. -/
structure Frame (d : Path) (t t' : Fs) : Prop where
  entries : ∀ q, ¬d <+: q → t'.entry q = t.entry q
  inodes : ∀ q j, ¬d <+: q → t.entry q = some j → t'.inode j = t.inode j
  sources : ∀ q i, d <+: q → t'.entry q = some i → (∃ p, d <+: p ∧ t.entry p = some i) ∨ t.next ≤ i
  next : t.next ≤ t'.next

theorem Frame.refl (d : Path) (t : Fs) : Frame d t t :=
  ⟨fun _ _ => rfl, fun _ _ _ _ => rfl, fun q _ hq hi => Or.inl ⟨q, hq, hi⟩, Nat.le_refl _⟩

theorem Frame.trans {d : Path} {t₁ t₂ t₃ : Fs} (h : Frame d t₁ t₂) (h' : Frame d t₂ t₃) : Frame d t₁ t₃ := by
  refine ⟨fun q hq => (h'.entries q hq).trans (h.entries q hq), ?_, ?_, h.next.trans h'.next⟩
  · intro q i hq hi
    rw [h'.inodes q i hq (by rw [h.entries q hq, hi]), h.inodes q i hq hi]
  · intro q i hq hi
    rcases h'.sources q i hq hi with ⟨p, hp, hpi⟩ | hnew
    · exact h.sources p i hp hpi
    · exact Or.inr (h.next.trans hnew)

theorem Fs.put_inode {t : Fs} {i : ℕ} {x : Inode} (hnew : (∀ p, t.entry p ≠ some i) ∨ t.inode i = x ∧ x.kind ≠ .dir)
    {q : Path} {j : ℕ} (hj : t.entry q = some j) : Function.update t.inode i x j = t.inode j := by
  by_cases hji : j = i
  · subst hji
    rw [Function.update_self]
    exact (hnew.resolve_left fun h => h q hj).1.symm
  · exact Function.update_of_ne hji ..

section Frames
variable {d : Path} {t : Fs}

theorem frame_put {dir : Path} {name : String} {i : ℕ} {x : Inode} {next : ℕ} {hdir : t.IsDir dir} {hname : Proper name}
    {hfree : t.entry (dir ++ [name]) = none} {hnew : (∀ p, t.entry p ≠ some i) ∨ t.inode i = x ∧ x.kind ≠ .dir}
    {hi : i < next} {hnext : t.next ≤ next} (hin : d <+: dir ++ [name])
    (hsource : (∃ p, d <+: p ∧ t.entry p = some i) ∨ t.next ≤ i) :
    Frame d t (t.put dir name i x next hdir hname hfree hnew hi hnext) where
  entries := by
    intro q hq
    have hne : q ≠ dir ++ [name] := fun heq => hq (heq ▸ hin)
    exact Function.update_of_ne hne ..
  inodes := fun q j _ hj => Fs.put_inode hnew hj
  sources := by
    intro q j hq hj
    change Function.update t.entry (dir ++ [name]) (some i) q = some j at hj
    by_cases heq : q = dir ++ [name]
    · rw [heq, Function.update_self] at hj
      exact Option.some.inj hj ▸ hsource
    · rw [Function.update_of_ne heq] at hj
      exact Or.inl ⟨q, hq, hj⟩
  next := hnext

theorem frame_prune {gone : Path → Bool} (hroot : gone [] = false) (hin : ∀ q, gone q = true → d <+: q) :
    Frame d t (t.prune gone hroot) where
  entries := by
    intro q hq
    refine if_neg fun hgone => hq ?_
    obtain ⟨p, hp, hg⟩ := List.any_eq_true.mp hgone
    exact (hin p hg).trans ((List.mem_inits _ _).mp hp)
  inodes := fun _ _ _ _ => rfl
  sources := by
    intro q j hq hj
    have hj' : (if q.inits.any gone then none else t.entry q) = some j := hj
    split at hj'
    · cases hj'
    · exact Or.inl ⟨q, hq, hj'⟩
  next := Nat.le_refl _

/-- An inode that has no name outside. -/
def Owned (d : Path) (t : Fs) (i : ℕ) : Prop := ∀ p, t.entry p = some i → d <+: p

theorem frame_alter {i : ℕ} {x : Inode} {hkind : x.kind = .dir ↔ (t.inode i).kind = .dir} (howned : Owned d t i) :
    Frame d t (t.alter i x hkind) where
  entries := fun _ _ => rfl
  inodes := by
    intro q j hq hj
    have hne : j ≠ i := fun heq => hq (howned q (heq ▸ hj))
    exact Function.update_of_ne hne ..
  sources := fun q _ hq hj => Or.inl ⟨q, hq, hj⟩
  next := Nat.le_refl _

/-- What a call needs to leave everything outside a directory as it is. -/
def Call.Within (d : Path) (t : Fs) : Call → Prop
  | .unlink path | .removeAll path | .mkdir path _ | .mknod path _ _ | .symlink _ path =>
    ∀ loc, t.locate path = some loc → d <+: loc
  | .hardLink old path =>
    (∀ loc, t.locate old = some loc → d <+: loc) ∧ ∀ loc, t.locate path = some loc → d <+: loc
  | .create path _ => ∀ loc, t.reach path = some loc → d <+: loc ∧ ∀ i, t.entry loc = some i → Owned d t i
  | .write i _ => Owned d t i
  | .chmod path _ | .setOpaque path => ∀ loc i, t.reach path = some loc → t.entry loc = some i → Owned d t i
  | .lchown path _ _ => ∀ loc i, t.locate path = some loc → t.entry loc = some i → Owned d t i
  | _ => True

theorem frame_newEntry {spot : Option (Path × String)} {x : Inode} {t' : Fs}
    (hin : ∀ dir name, spot = some (dir, name) → Proper name → d <+: dir ++ [name])
    (h : t.newEntry spot x = .ok t') : Frame d t t' := by
  unfold Fs.newEntry at h
  split at h
  · cases h
  · next dir name =>
    split at h
    · next hfree =>
      cases h
      exact frame_put (hin dir name rfl hfree.2.1) (Or.inr (Nat.le_refl _))
    · cases h

theorem proper_spot_within {path : Path} (hin : ∀ loc, t.locate path = some loc → d <+: loc) (dir : Path)
    (name : String) (hspot : t.spot path [] = some (dir, name)) (hname : Proper name) : d <+: dir ++ [name] := by
  rw [← Fs.settle_plain dir hname.1]
  exact hin _ (Fs.locate_of_spot hspot)

theorem frame_alterAt {loc : Option Path} {f : Inode → Inode} (hf : ∀ x, (f x).kind = x.kind) {t' : Fs}
    (hin : ∀ p i, loc = some p → t.entry p = some i → Owned d t i) (h : t.alterAt loc f hf = .ok t') :
    Frame d t t' := by
  unfold Fs.alterAt at h
  split at h
  · cases h
  · next i hi =>
    cases h
    obtain ⟨p, hp, hentry⟩ := Option.bind_eq_some_iff.mp hi
    exact frame_alter (hin p i hp hentry)

theorem frame_unlink {path : Path} {t' : Fs} (hin : ∀ loc, t.locate path = some loc → d <+: loc)
    (h : t.unlink path = .ok t') : Frame d t t' := by
  unfold Fs.unlink at h
  split at h
  · cases h
  · next loc hloc =>
    split at h
    · cases h
    · cases h
    · cases h
      refine frame_prune (Bool.and_false _) fun q hq => ?_
      rw [Bool.and_eq_true, decide_eq_true_eq] at hq
      exact hq.1 ▸ hin loc hloc

theorem frame_hardLink {old path : Path} {t' : Fs} (hold : ∀ loc, t.locate old = some loc → d <+: loc)
    (hin : ∀ loc, t.locate path = some loc → d <+: loc) (h : t.hardLink old path = .ok t') : Frame d t t' := by
  unfold Fs.hardLink at h
  split at h
  · next i dir name hi hspot =>
    split at h
    · cases h
    · split at h
      · next hfree =>
        cases h
        obtain ⟨p, hp, hentry⟩ := Option.bind_eq_some_iff.mp hi
        exact frame_put (proper_spot_within hin dir name hspot hfree.2.1) (Or.inl ⟨p, hold p hp, hentry⟩)
      · cases h
  · cases h

theorem prune_none (t : Fs) : t.prune (fun _ => false) rfl = t := by
  unfold Fs.prune
  simp

theorem prune_entry {gone : Path → Bool} (hroot : gone [] = false) {p : Path} (h : gone p = true) :
    (t.prune gone hroot).entry p = none :=
  if_pos (List.any_eq_true.mpr ⟨p, (List.mem_inits _ _).mpr (List.prefix_refl p), h⟩)

/-- A recursive removal takes nothing but what lies below, and has taken all when it succeeds. -/
structure Removed (t : Fs) (loc : Path) (name : String) (r : Except String Unit × Fs) : Prop where
  pruned : ∃ gone hroot, r.2 = t.prune gone hroot ∧ ∀ q, gone q = true → loc <+: q
  whole : r.1 = .ok () → r.2.entry loc = none ∧ name ≠ "." ∧ name ≠ ".."

theorem removed_error (loc : Path) (name e : String) : Removed t loc name (.error e, t) :=
  ⟨⟨_, rfl, (prune_none t).symm, fun _ hq => by cases hq⟩, fun h => by cases h⟩

theorem removed_at {loc : Path} (name : String) {r : Except String Unit} (hloc : loc ≠ [])
    (hname : r = .ok () → name ≠ "." ∧ name ≠ "..") :
    Removed t loc name (r, t.prune (fun q => decide (q = loc) && !q.isEmpty) (Bool.and_false _)) := by
  have hgone : (decide (loc = loc) && !loc.isEmpty) = true := by simp [hloc]
  refine ⟨⟨_, Bool.and_false _, rfl, fun q hq => ?_⟩, fun h => ⟨prune_entry (Bool.and_false _) hgone, hname h⟩⟩
  rw [Bool.and_eq_true, decide_eq_true_eq] at hq
  rw [hq.1]

theorem rmdirRefusal_none {dir : Path} {name : String} (h : Fs.rmdirRefusal dir name = none) :
    name ≠ "." ∧ name ≠ ".." ∧ Fs.settle dir name ≠ [] := by
  unfold Fs.rmdirRefusal at h
  split at h
  · cases h
  · next hdots =>
    split at h
    · cases h
    · next hend => exact ⟨fun hdot => hend (.inl hdot), hdots, fun hroot => hend (.inr hroot)⟩

theorem removeAll_removed {path dir : Path} {name : String} (w : Choice) (hspot : t.spot path [] = some (dir, name)) :
    Removed t (Fs.settle dir name) name (t.removeAll path w) := by
  unfold Fs.removeAll
  rw [hspot]
  dsimp only
  cases hkind : t.kindAt (Fs.settle dir name) with
  | none => exact removed_error ..
  | some kind =>
    cases kind with
    | dir =>
      cases w.refuse with
      | some e =>
        refine ⟨⟨_, Bool.and_false _, rfl, fun q hq => ?_⟩, fun h => by cases h⟩
        rw [Bool.and_eq_true, Bool.and_eq_true] at hq
        exact List.isPrefixOf_iff_prefix.mp hq.1.1
      | none =>
        dsimp only
        split
        · refine ⟨⟨_, Bool.and_false _, rfl, fun q hq => ?_⟩, fun h => by cases h⟩
          rw [Bool.and_eq_true, Bool.and_eq_true] at hq
          exact List.isPrefixOf_iff_prefix.mp hq.1.1
        · next htaken =>
          obtain ⟨hdot, hdots, hroot⟩ := rmdirRefusal_none htaken
          exact removed_at name hroot fun _ => ⟨hdot, hdots⟩
    | link target =>
      cases w.refuse with
      | some e => exact removed_error ..
      | none =>
        have hdir := Fs.spot_isDir hspot
        have hne : ∀ {p}, t.IsDir p → Fs.settle dir name ≠ p := by
          intro p hp heq
          rw [heq, hp] at hkind
          cases hkind
        refine removed_at name (hne t.isDir_root) fun _ => ⟨?_, ?_⟩
        · rintro rfl
          exact hne hdir (if_pos (Or.inr rfl))
        · rintro rfl
          exact hne (Fs.isDir_dropLast hdir) rfl
    | file | char | block | fifo => exact removed_error ..

theorem frame_removeAll {path : Path} (w : Choice) (hin : ∀ loc, t.locate path = some loc → d <+: loc) :
    Frame d t (t.removeAll path w).2 := by
  cases hspot : t.spot path [] with
  | none =>
    have hsame : (t.removeAll path w).2 = t := by
      unfold Fs.removeAll
      rw [hspot]
    rw [hsame]
    exact Frame.refl d t
  | some spot =>
    obtain ⟨gone, hroot, hstate, hgone⟩ := (removeAll_removed w hspot).pruned
    rw [hstate]
    exact frame_prune hroot fun q hq => (hin _ (Fs.locate_of_spot hspot)).trans (hgone q hq)

theorem frame_create {path : Path} {x : Inode} {i : ℕ} {t' : Fs}
    (hin : ∀ loc, t.reach path = some loc → d <+: loc ∧ ∀ i, t.entry loc = some i → Owned d t i)
    (h : t.create path x = .ok (i, t')) : Frame d t t' := by
  unfold Fs.create at h
  split at h
  · cases h
  · next loc hloc =>
    obtain ⟨hbelow, howned⟩ := hin loc hloc
    split at h
    · next j hj =>
      split at h
      · cases h
        exact frame_alter (howned _ hj)
      · cases h
      · cases h
    · split at h
      · cases h
      · next name hname =>
        cases hnew : t.newEntry (some (loc.dropLast, name)) x with
        | error e =>
          rw [hnew] at h
          cases h
        | ok t₁ =>
        rw [hnew] at h
        cases h
        refine frame_newEntry ?_ hnew
        intro dir n hspot _
        cases hspot
        rwa [List.dropLast_append_getLast? _ hname]

theorem frame_write {i : ℕ} {data : List UInt8} {t' : Fs} (howned : Owned d t i) (h : t.write i data = .ok t') :
    Frame d t t' := by
  unfold Fs.write at h
  split at h
  · cases h
    exact frame_alter howned
  · cases h

theorem frame_perform (me : Creds) {call : Call} (w : Choice)
    (h : ∀ t', effect me call t = .ok t' → Frame d t t') : Frame d t (perform me call w t).2 := by
  unfold perform
  cases w.refuse with
  | some e => exact Frame.refl d t
  | none =>
    cases heffect : effect me call t with
    | error e => exact Frame.refl d t
    | ok t' => exact h t' heffect

/-- A call that stays within a directory leaves what is outside as it is. -/
theorem frame_exec (me : Creds) (call : Call) (w : Choice) (h : call.Within d t) : Frame d t (exec me call w t).2 := by
  have hnew : ∀ {path x t'}, (∀ loc, t.locate path = some loc → d <+: loc) → t.newEntry (t.spot path []) x = .ok t' →
      Frame d t t' := fun hin hnew => frame_newEntry (proper_spot_within hin) hnew
  cases call with
  | lstat | isDir => exact Frame.refl d t
  | readLink path =>
    have hsame : (exec me (.readLink path) w t).2 = t := by
      unfold exec
      cases w.refuse with
      | some e => rfl
      | none => dsimp only; split <;> rfl
    rw [hsame]
    exact Frame.refl d t
  | removeAll path => exact frame_removeAll w h
  | create path mode =>
    unfold exec
    cases w.refuse with
    | some e => exact Frame.refl d t
    | none =>
      dsimp only
      split
      · exact Frame.refl d t
      · next hcreate => exact frame_create h hcreate
  | unlink path => exact frame_perform me w fun t' ht' => frame_unlink h ht'
  | mkdir path mode => exact frame_perform me w fun t' ht' => hnew h ht'
  | mknod path kind mode =>
    refine frame_perform me w fun t' ht' => ?_
    change (if kind = .dir then .error notPermitted else t.newEntry (t.spot path []) _) = Except.ok t' at ht'
    split at ht'
    · cases ht'
    · exact hnew h ht'
  | symlink target path => exact frame_perform me w fun t' ht' => hnew h ht'
  | hardLink old path => exact frame_perform me w fun t' ht' => frame_hardLink h.1 h.2 ht'
  | write i data => exact frame_perform me w fun t' ht' => frame_write h ht'
  | chmod path mode => exact frame_perform me w fun t' ht' => frame_alterAt (Inode.chmod_kind mode) h ht'
  | lchown path uid gid => exact frame_perform me w fun t' ht' => frame_alterAt (Inode.chown_kind uid gid) h ht'
  | setOpaque path => exact frame_perform me w fun t' ht' => frame_alterAt Inode.hide_kind h ht'

end Frames

/-! ## What a call leaves -/

section Leaves
variable {t t' : Fs}

/-- A new inode under a new name. -/
structure Added (t : Fs) (dir : Path) (name : String) (x : Inode) (t' : Fs) : Prop where
  isDir : t.IsDir dir
  proper : Proper name
  free : t.entry (dir ++ [name]) = none
  entry : t'.entry = Function.update t.entry (dir ++ [name]) (some t.next)
  inode : t'.inode = Function.update t.inode t.next x
  next : t'.next = t.next + 1

theorem Fs.newEntry_added {dir : Path} {name : String} {x : Inode} (hdir : t.IsDir dir) (hname : Proper name)
    (hfree : t.entry (dir ++ [name]) = none) :
    ∃ t', t.newEntry (some (dir, name)) x = .ok t' ∧ Added t dir name x t' := by
  unfold Fs.newEntry
  dsimp only
  rw [dif_pos ⟨hdir, hname, hfree⟩]
  exact ⟨_, rfl, hdir, hname, hfree, rfl, rfl, rfl⟩

theorem Fs.added_of_newEntry {spot : Option (Path × String)} {x : Inode} (h : t.newEntry spot x = .ok t') :
    ∃ dir name, spot = some (dir, name) ∧ Added t dir name x t' := by
  unfold Fs.newEntry at h
  split at h
  · cases h
  · next dir name =>
    split at h
    · next hfree =>
      cases h
      exact ⟨dir, name, rfl, hfree.1, hfree.2.1, hfree.2.2, rfl, rfl, rfl⟩
    · cases h

theorem Added.entry_self {dir : Path} {name : String} {x : Inode} (h : Added t dir name x t') :
    t'.entry (dir ++ [name]) = some t.next := by
  rw [h.entry, Function.update_self]

theorem Added.inode_self {dir : Path} {name : String} {x : Inode} (h : Added t dir name x t') :
    t'.inode t.next = x := by
  rw [h.inode, Function.update_self]

theorem Added.entry_of_ne {dir : Path} {name : String} {x : Inode} (h : Added t dir name x t') {p : Path}
    (hp : p ≠ dir ++ [name]) : t'.entry p = t.entry p := by
  rw [h.entry, Function.update_of_ne hp]

theorem Added.inode_old {dir : Path} {name : String} {x : Inode} (h : Added t dir name x t') {p : Path} {i : ℕ}
    (hi : t.entry p = some i) : t'.inode i = t.inode i := by
  rw [h.inode, Function.update_of_ne (Nat.ne_of_lt (t.bounded p i hi))]

theorem Added.kindAt_self {dir : Path} {name : String} {x : Inode} (h : Added t dir name x t') :
    t'.kindAt (dir ++ [name]) = some x.kind := by
  rw [Fs.kindAt_of_entry h.entry_self, h.inode_self]

theorem Added.kindAt_of_ne {dir : Path} {name : String} {x : Inode} (h : Added t dir name x t') {p : Path}
    (hp : p ≠ dir ++ [name]) : t'.kindAt p = t.kindAt p := by
  unfold Fs.kindAt
  rw [h.entry_of_ne hp]
  exact Option.map_congr fun i hi => by rw [h.inode_old hi]

/-- The new name is the only one. -/
theorem Added.only {dir : Path} {name : String} {x : Inode} (h : Added t dir name x t') {p : Path}
    (hp : t'.entry p = some t.next) : p = dir ++ [name] := by
  by_contra hne
  rw [h.entry_of_ne hne] at hp
  exact Nat.lt_irrefl _ (t.bounded p _ hp)

/-- Every directory is one still. -/
def Grown (t t' : Fs) : Prop := ∀ p, t.IsDir p → t'.IsDir p

theorem Grown.refl (t : Fs) : Grown t t := fun _ hp => hp

theorem Grown.trans {t₁ t₂ t₃ : Fs} (h : Grown t₁ t₂) (h' : Grown t₂ t₃) : Grown t₁ t₃ := fun p hp => h' p (h p hp)

theorem Added.grown {dir : Path} {name : String} {x : Inode} (h : Added t dir name x t') : Grown t t' := by
  intro p hp
  have hne : p ≠ dir ++ [name] := by
    rintro rfl
    rw [Fs.IsDir, Fs.kindAt, h.free] at hp
    cases hp
  exact (h.kindAt_of_ne hne).trans hp

theorem kindAt_prune {gone : Path → Bool} {hroot : gone [] = false} {p : Path} :
    (t.prune gone hroot).kindAt p = if p.inits.any gone then none else t.kindAt p := by
  unfold Fs.kindAt Fs.prune
  dsimp only
  split
  · rfl
  · rfl

/-- What is not below the place of a removal stays. -/
theorem isDir_prune {gone : Path → Bool} {hroot : gone [] = false} {loc : Path} (hgone : ∀ q, gone q = true → loc <+: q)
    {p : Path} (hloc : ¬loc <+: p) (hp : t.IsDir p) : (t.prune gone hroot).IsDir p := by
  rw [Fs.IsDir, kindAt_prune, if_neg, hp]
  intro hany
  obtain ⟨q, hq, hg⟩ := List.any_eq_true.mp hany
  exact hloc ((hgone q hg).trans ((List.mem_inits _ _).mp hq))

theorem unlinked_prune {gone : Path → Bool} {hroot : gone [] = false} {p : Path} (h : t.Unlinked p) :
    (t.prune gone hroot).Unlinked p := by
  refine ⟨h.plain, fun q hq => ?_⟩
  show (if q.inits.any gone then none else t.entry q) = none ∨ _
  rw [Fs.IsDir, kindAt_prune]
  split
  · exact Or.inl rfl
  · exact h.clear q hq

theorem grown_unlink {path : Path} (h : t.unlink path = .ok t') : Grown t t' := by
  unfold Fs.unlink at h
  split at h
  · cases h
  · next loc hloc =>
    split at h
    · cases h
    · cases h
    · next kind hdir hkind =>
      cases h
      intro p hp
      refine @isDir_prune _ _ _ loc (fun q hq => ?_) _ ?_ hp
      · rw [Bool.and_eq_true, decide_eq_true_eq] at hq
        rw [hq.1]
      · rintro ⟨r, rfl⟩
        have hloc := Fs.isDir_of_append hp
        rw [Fs.IsDir, hkind] at hloc
        exact hdir (Option.some.inj hloc)

theorem grown_hardLink {old path : Path} (h : t.hardLink old path = .ok t') : Grown t t' := by
  unfold Fs.hardLink at h
  split at h
  · next i dir name hi hspot =>
    split at h
    · cases h
    · split at h
      · next hfree =>
        cases h
        intro p hp
        obtain ⟨j, hj, hkind⟩ := Fs.isDir_iff.mp hp
        have hne : p ≠ dir ++ [name] := by
          rintro rfl
          rw [hfree.2.2.1] at hj
          cases hj
        have hentry : (t.put dir name i (t.inode i) t.next hfree.1 hfree.2.1 hfree.2.2.1 (.inr ⟨rfl, hfree.2.2.2.1⟩)
            hfree.2.2.2.2 (Nat.le_refl _)).entry p = some j := (Function.update_of_ne hne ..).trans hj
        refine Fs.isDir_iff.mpr ⟨j, hentry, ?_⟩
        show (Function.update t.inode i (t.inode i) j).kind = .dir
        rwa [Function.update_eq_self]
      · cases h
  · cases h

theorem Fs.alter_of_alterAt {loc : Option Path} {f : Inode → Inode} {hf : ∀ x, (f x).kind = x.kind}
    (h : t.alterAt loc f hf = .ok t') :
    ∃ p i hkind, loc = some p ∧ t.entry p = some i ∧ t' = t.alter i (f (t.inode i)) hkind := by
  unfold Fs.alterAt at h
  split at h
  · cases h
  · next i hi =>
    cases h
    obtain ⟨p, hp, hentry⟩ := Option.bind_eq_some_iff.mp hi
    exact ⟨p, i, _, hp, hentry, rfl⟩

theorem Fs.alter_of_write {i : ℕ} {data : List UInt8} (h : t.write i data = .ok t') :
    ∃ old hkind, (t.inode i).kind = .file old ∧
      t' = t.alter i { t.inode i with kind := .file (old ++ data) } hkind := by
  unfold Fs.write at h
  split at h
  · next old hold =>
    cases h
    exact ⟨old, by simp [hold], hold, rfl⟩
  · cases h

/-- A call that changes attributes or contents only. -/
def Call.Mild : Call → Bool
  | .lstat _ | .isDir _ | .readLink _ | .write .. | .chmod .. | .lchown .. | .setOpaque _ => true
  | _ => false

/-- Such a call leaves every name and every kind, up to what a file contains. -/
structure Mild (t t' : Fs) : Prop where
  entry : t'.entry = t.entry
  kind : ∀ i, (t'.inode i).kind = (t.inode i).kind ∨
    ∃ old new, (t.inode i).kind = .file old ∧ (t'.inode i).kind = .file new

theorem Mild.refl (t : Fs) : Mild t t := ⟨rfl, fun _ => Or.inl rfl⟩

theorem mild_alter {i : ℕ} {x : Inode} {hkind : x.kind = .dir ↔ (t.inode i).kind = .dir}
    (h : x.kind = (t.inode i).kind ∨ ∃ old new, (t.inode i).kind = .file old ∧ x.kind = .file new) :
    Mild t (t.alter i x hkind) := by
  refine ⟨rfl, fun j => ?_⟩
  show (Function.update t.inode i x j).kind = _ ∨ ∃ old new, _ ∧ (Function.update t.inode i x j).kind = _
  by_cases hj : j = i
  · rw [hj, Function.update_self]
    exact h
  · rw [Function.update_of_ne hj]
    exact Or.inl rfl

theorem mild_exec (me : Creds) {call : Call} (w : Choice) (h : call.Mild = true) : Mild t (exec me call w t).2 := by
  have hperform : ∀ {call}, (∀ t', effect me call t = .ok t' → Mild t t') → Mild t (perform me call w t).2 := by
    intro call h
    unfold perform
    cases w.refuse with
    | some e => exact Mild.refl t
    | none =>
      cases heffect : effect me call t with
      | error e => exact Mild.refl t
      | ok t' => exact h t' heffect
  have halter : ∀ {loc f t'} (hf : ∀ x, (f x).kind = x.kind), t.alterAt loc f hf = .ok t' → Mild t t' := by
    intro loc f t' hf h
    obtain ⟨p, i, hkind, -, -, rfl⟩ := Fs.alter_of_alterAt h
    exact mild_alter (Or.inl (hf _))
  cases call with
  | lstat | isDir => exact Mild.refl t
  | readLink path =>
    unfold exec
    cases w.refuse with
    | some e => exact Mild.refl t
    | none => dsimp only; split <;> exact Mild.refl t
  | write i data =>
    refine hperform fun t' ht' => ?_
    obtain ⟨old, hkind, hold, rfl⟩ := Fs.alter_of_write ht'
    exact mild_alter (Or.inr ⟨old, old ++ data, hold, rfl⟩)
  | chmod path mode => exact hperform fun t' ht' => halter (Inode.chmod_kind mode) ht'
  | lchown path uid gid => exact hperform fun t' ht' => halter (Inode.chown_kind uid gid) ht'
  | setOpaque path => exact hperform fun t' ht' => halter Inode.hide_kind ht'
  | _ => cases h

theorem Mild.isDir_iff (h : Mild t t') {p : Path} : t'.IsDir p ↔ t.IsDir p := by
  rw [Fs.isDir_iff, Fs.isDir_iff, h.entry]
  refine exists_congr fun i => and_congr_right fun _ => ?_
  rcases h.kind i with heq | ⟨old, new, hold, hnew⟩
  · rw [heq]
  · simp [hold, hnew]

theorem Mild.grown (h : Mild t t') : Grown t t' := fun _ hp => h.isDir_iff.mpr hp

theorem grown_create {path : Path} {x : Inode} {i : ℕ} (h : t.create path x = .ok (i, t')) : Grown t t' := by
  unfold Fs.create at h
  split at h
  · cases h
  · next loc _ =>
    split at h
    · next j hj =>
      split at h
      · next old hold =>
        cases h
        exact (mild_alter (Or.inr ⟨old, [], hold, rfl⟩)).grown
      · cases h
      · cases h
    · split at h
      · cases h
      · next name hname =>
        cases hnew : t.newEntry (some (loc.dropLast, name)) x with
        | error e =>
          rw [hnew] at h
          cases h
        | ok t₁ =>
          rw [hnew] at h
          cases h
          obtain ⟨dir, name, -, hadded⟩ := Fs.added_of_newEntry hnew
          exact hadded.grown

/-- Only a recursive removal takes directories away. -/
theorem grown_exec (me : Creds) {call : Call} (w : Choice) (h : ∀ path, call ≠ .removeAll path) :
    Grown t (exec me call w t).2 := by
  have hperform : ∀ {call}, (∀ t', effect me call t = .ok t' → Grown t t') → Grown t (perform me call w t).2 := by
    intro call h
    unfold perform
    cases w.refuse with
    | some e => exact Grown.refl t
    | none =>
      cases heffect : effect me call t with
      | error e => exact Grown.refl t
      | ok t' => exact h t' heffect
  have hnew : ∀ {spot x t'}, t.newEntry spot x = .ok t' → Grown t t' := by
    intro spot x t' h
    obtain ⟨dir, name, -, hadded⟩ := Fs.added_of_newEntry h
    exact hadded.grown
  cases call with
  | removeAll path => exact absurd rfl (h path)
  | unlink path => exact hperform fun t' ht' => grown_unlink ht'
  | mkdir path mode => exact hperform fun t' ht' => hnew ht'
  | mknod path kind mode =>
    refine hperform fun t' ht' => ?_
    change (if kind = .dir then .error notPermitted else t.newEntry (t.spot path []) _) = Except.ok t' at ht'
    split at ht'
    · cases ht'
    · exact hnew ht'
  | symlink target path => exact hperform fun t' ht' => hnew ht'
  | hardLink old path => exact hperform fun t' ht' => grown_hardLink ht'
  | create path mode =>
    unfold exec
    cases w.refuse with
    | some e => exact Grown.refl t
    | none =>
      dsimp only
      split
      · exact Grown.refl t
      · next hcreate => exact grown_create hcreate
  | lstat | isDir | readLink | write | chmod | lchown | setOpaque => exact (mild_exec me w rfl).grown

theorem perform_ok {me : Creds} {call : Call} {w : Choice} (h : (perform me call w t).1 = .ok ()) :
    effect me call t = .ok (perform me call w t).2 := by
  unfold perform at h ⊢
  cases hrefuse : w.refuse with
  | some e =>
    rw [hrefuse] at h
    cases h
  | none =>
    rw [hrefuse] at h
    cases heffect : effect me call t with
    | error e =>
      rw [heffect] at h
      cases h
    | ok t' => rfl

theorem perform_error {me : Creds} {call : Call} {w : Choice} {e : String} (h : (perform me call w t).1 = .error e) :
    (perform me call w t).2 = t := by
  unfold perform at h ⊢
  cases hrefuse : w.refuse with
  | some e => rfl
  | none =>
    cases heffect : effect me call t with
    | error e => rfl
    | ok t' =>
      rw [hrefuse, heffect] at h
      cases h

/-- An entry that was made with success is new. -/
theorem Fs.added_of_spot {path dir : Path} {name : String} {x : Inode} (h : t.newEntry (t.spot path []) x = .ok t')
    (hspot : t.spot path [] = some (dir, name)) : Added t dir name x t' := by
  obtain ⟨dir', name', heq, hadded⟩ := Fs.added_of_newEntry h
  rw [hspot] at heq
  cases heq
  exact hadded

theorem Fs.pruned_of_unlink {path : Path} (h : t.unlink path = .ok t') :
    ∃ loc gone hroot, t.locate path = some loc ∧ t' = t.prune gone hroot ∧ gone loc = true ∧
      ∀ q, gone q = true → q = loc := by
  unfold Fs.unlink at h
  split at h
  · cases h
  · next loc hloc =>
    split at h
    · cases h
    · cases h
    · next kind hdir hkind =>
      cases h
      refine ⟨loc, _, Bool.and_false _, hloc, rfl, ?_, fun q hq => ?_⟩
      · have hne : loc ≠ [] := by
          rintro rfl
          exact hdir (Option.some.inj (hkind.symm.trans t.isDir_root))
        simp [hne]
      · rw [Bool.and_eq_true, decide_eq_true_eq] at hq
        exact hq.1

/-- A file that was made where nothing was. -/
theorem Fs.added_of_create {path dir : Path} {name : String} {x : Inode} {i : ℕ} (h : t.create path x = .ok (i, t'))
    (hreach : t.reach path = some (dir ++ [name])) (hfree : t.entry (dir ++ [name]) = none) :
    i = t.next ∧ Added t dir name x t' := by
  unfold Fs.create at h
  rw [hreach] at h
  dsimp only at h
  split at h
  · next j hj =>
    rw [hfree] at hj
    cases hj
  · rw [List.getLast?_concat, List.dropLast_concat] at h
    dsimp only at h
    cases hnew : t.newEntry (some (dir, name)) x with
    | error e =>
      rw [hnew] at h
      cases h
    | ok t₁ =>
      rw [hnew] at h
      cases h
      obtain ⟨dir', name', heq, hadded⟩ := Fs.added_of_newEntry hnew
      cases heq
      exact ⟨rfl, hadded⟩

theorem create_ok {me : Creds} {path : Path} {mode i : ℕ} {w : Choice}
    (h : (exec me (.create path mode) w t).1 = .ok i) :
    t.create path ⟨.file [], mode - (mode &&& me.umask), me.uid, me.gid, false⟩ =
      .ok (i, (exec me (.create path mode) w t).2) := by
  unfold exec at h ⊢
  cases hrefuse : w.refuse with
  | some e =>
    rw [hrefuse] at h
    cases h
  | none =>
    rw [hrefuse] at h
    dsimp only at h ⊢
    split at h
    · cases h
    · next hcreate =>
      rw [hcreate]
      exact congrArg (fun j => Except.ok (j, _)) (Except.ok.inj h)

/-- A directory that is there is not made again. -/
theorem Fs.newEntry_existing {path : Path} (h : t.IsDir path) (x : Inode) :
    ∃ e, t.newEntry (t.spot path []) x = .error e ∧ (path ≠ [] → e = existing) := by
  cases path using List.reverseRecOn with
  | nil => exact ⟨noEntry, rfl, fun hne => absurd rfl hne⟩
  | append_singleton dir name =>
    obtain ⟨i, hi, -⟩ := Fs.isDir_iff.mp h
    rw [Fs.spot_proper name (t.isDir_of_entry hi), Fs.newEntry, dif_neg]
    · exact ⟨existing, rfl, fun _ => rfl⟩
    · rintro ⟨-, -, hfree⟩
      rw [hi] at hfree
      cases hfree

theorem mkdir_existing (me : Creds) {path : Path} (mode : ℕ) (w : Choice) (h : t.IsDir path) :
    ∃ e, exec me (.mkdir path mode) w t = (.error e, t) ∧ (w.refuse = none → path ≠ [] → e = existing) := by
  obtain ⟨e, he, hexisting⟩ := Fs.newEntry_existing h ⟨.dir, mode - (mode &&& me.umask), me.uid, me.gid, false⟩
  have heffect : effect me (.mkdir path mode) t = .error e := he
  show ∃ e, perform me (.mkdir path mode) w t = (.error e, t) ∧ _
  unfold perform
  cases w.refuse with
  | some e' => exact ⟨e', rfl, fun h => by cases h⟩
  | none =>
    dsimp only
    rw [heffect]
    exact ⟨e, rfl, fun _ => hexisting⟩

end Leaves

/-! ## Calls that nothing stands against -/

section Quiet
variable {t t' t'' : Fs}

/-- An inode that is another now. -/
structure Altered (t : Fs) (i : ℕ) (x : Inode) (t' : Fs) : Prop where
  entry : t'.entry = t.entry
  inode : t'.inode = Function.update t.inode i x
  next : t'.next = t.next

theorem Added.altered {dir : Path} {name : String} {x y : Inode} (h : Added t dir name x t')
    (h' : Altered t' t.next y t'') : Added t dir name y t'' :=
  ⟨h.isDir, h.proper, h.free, h'.entry.trans h.entry, by rw [h'.inode, h.inode, Function.update_idem],
    h'.next.trans h.next⟩

theorem exec_new (me : Creds) {call : Call} {dir : Path} {name : String} {x : Inode}
    (hcall : effect me call t = t.newEntry (t.spot (dir ++ [name]) []) x) (hdir : t.IsDir dir) (hname : Proper name)
    (hfree : t.entry (dir ++ [name]) = none) : ∃ t', perform me call {} t = (.ok (), t') ∧ Added t dir name x t' := by
  obtain ⟨t', hnew, hadded⟩ := Fs.newEntry_added hdir hname hfree (x := x)
  refine ⟨t', ?_, hadded⟩
  unfold perform
  dsimp only
  rw [hcall, Fs.spot_proper name hdir, hnew]

theorem exec_alter (me : Creds) {call : Call} {loc : Option Path} {f : Inode → Inode} (hf : ∀ x, (f x).kind = x.kind)
    (hcall : effect me call t = t.alterAt loc f hf) {p : Path} {i : ℕ} (hloc : loc = some p) (hi : t.entry p = some i) :
    ∃ t', perform me call {} t = (.ok (), t') ∧ Altered t i (f (t.inode i)) t' := by
  have hsome : loc.bind t.entry = some i := by
    rw [hloc]
    exact hi
  have heffect : effect me call t = .ok (t.alter i (f (t.inode i)) (by rw [hf])) := by
    rw [hcall, Fs.alterAt, hsome]
  unfold perform
  dsimp only
  rw [heffect]
  exact ⟨_, rfl, rfl, rfl, rfl⟩

theorem exec_write (me : Creds) {i : ℕ} {old : List UInt8} (data : List UInt8) (hi : (t.inode i).kind = .file old) :
    ∃ t', perform me (.write i data) {} t = (.ok (), t') ∧
      Altered t i { t.inode i with kind := .file (old ++ data) } t' := by
  have heffect : ∃ t', effect me (.write i data) t = .ok t' ∧
      Altered t i { t.inode i with kind := .file (old ++ data) } t' := by
    show ∃ t', t.write i data = .ok t' ∧ _
    unfold Fs.write
    split
    · next old' hold =>
      rw [hi] at hold
      cases hold
      exact ⟨_, rfl, rfl, rfl, rfl⟩
    · next hno => exact absurd hi (hno old)
  obtain ⟨t', ht', haltered⟩ := heffect
  refine ⟨t', ?_, haltered⟩
  unfold perform
  dsimp only
  rw [ht']

theorem exec_create (me : Creds) {dir : Path} {name : String} (mode : ℕ) (hdir : t.IsDir dir) (hname : Proper name)
    (hfree : t.entry (dir ++ [name]) = none) :
    ∃ t', exec me (.create (dir ++ [name]) mode) {} t = (.ok t.next, t') ∧
      Added t dir name ⟨.file [], mode - (mode &&& me.umask), me.uid, me.gid, false⟩ t' := by
  have hkind : t.kindAt (dir ++ [name]) = none := by
    rw [Fs.kindAt, hfree]
    rfl
  have hreach : t.reach (dir ++ [name]) = some (dir ++ [name]) := by
    refine Fs.reach_of_locate (Fs.locate_plain hdir hname.1) fun target hlink => ?_
    rw [hkind] at hlink
    cases hlink
  obtain ⟨t', hnew, hadded⟩ :=
    Fs.newEntry_added hdir hname hfree (x := ⟨.file [], mode - (mode &&& me.umask), me.uid, me.gid, false⟩)
  refine ⟨t', ?_, hadded⟩
  have hcreate : t.create (dir ++ [name]) ⟨.file [], mode - (mode &&& me.umask), me.uid, me.gid, false⟩ =
      .ok (t.next, t') := by
    unfold Fs.create
    rw [hreach]
    dsimp only
    split
    · next i hi =>
      rw [hfree] at hi
      cases hi
    · rw [List.getLast?_concat, List.dropLast_concat]
      dsimp only
      rw [hnew]
      rfl
  unfold exec
  dsimp only
  rw [hcreate]

/-- Another name for a file. -/
structure Linked (t : Fs) (dir : Path) (name : String) (i : ℕ) (t' : Fs) : Prop where
  isDir : t.IsDir dir
  free : t.entry (dir ++ [name]) = none
  entry : t'.entry = Function.update t.entry (dir ++ [name]) (some i)
  inode : t'.inode = t.inode
  next : t'.next = t.next

theorem exec_hardLink (me : Creds) {old dir : Path} {name : String} {i : ℕ} (hold : t.locate old = some old)
    (hi : t.entry old = some i) (hkind : (t.inode i).kind ≠ .dir) (hdir : t.IsDir dir) (hname : Proper name)
    (hfree : t.entry (dir ++ [name]) = none) :
    ∃ t', perform me (.hardLink old (dir ++ [name])) {} t = (.ok (), t') ∧ Linked t dir name i t' := by
  have heffect : ∃ t', effect me (.hardLink old (dir ++ [name])) t = .ok t' ∧ Linked t dir name i t' := by
    show ∃ t', t.hardLink old (dir ++ [name]) = .ok t' ∧ _
    unfold Fs.hardLink
    have hsource : (t.locate old).bind t.entry = some i := by
      rw [hold]
      exact hi
    rw [hsource, Fs.spot_proper name hdir]
    dsimp only
    rw [if_neg hkind, dif_pos ⟨hdir, hname, hfree, hkind, t.bounded old i hi⟩]
    exact ⟨_, rfl, hdir, hfree, rfl, Function.update_eq_self .., rfl⟩
  obtain ⟨t', ht', hlinked⟩ := heffect
  refine ⟨t', ?_, hlinked⟩
  unfold perform
  dsimp only
  rw [ht']

end Quiet

end Collocate.Posix
