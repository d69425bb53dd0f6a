import Collocate.Lib.Slicing
import Collocate.Lib.Text

/-! # The mount table (`collocate-sys/src/mount.rs`)

`parse_mountinfo` reads the lines of `/proc/self/mountinfo`, in which the kernel writes a few characters as a
backslash and three octal digits. `unescape` takes the digits as a slice of the text. -/
namespace Collocate.Sys
set_option autoImplicit false

/-! ## Escapes -/

def octDigits : List UInt8 → ℕ → Option ℕ
  | [], n => some n
  | b :: bs, n => if 0x30 ≤ b ∧ b ≤ 0x37 then octDigits bs (8 * n + (b.toNat - 0x30)) else none

/-- `u8::from_str_radix` with radix 8, on the bytes of the text: a leading `+` is accepted. -/
def parseOct (bytes : List UInt8) : Option UInt8 :=
  let digits := if bytes.head? = some 0x2B then bytes.tail else bytes
  if digits.isEmpty then none else ((octDigits digits 0).filter (· < 256)).map UInt8.ofNat

/-- The loop of `unescape` from an index on. -/
def unescapeFrom (bytes : List UInt8) (i : ℕ) : Option (List UInt8) :=
  if h : i < bytes.length then
    if bytes[i] = 0x5C ∧ i + 4 ≤ bytes.length then
      match Slicing.strSlice bytes (i + 1) (i + 4) with
      | none => none
      | some digits => match parseOct digits with
        | some v => (unescapeFrom bytes (i + 4)).map (v :: ·)
        | none => (unescapeFrom bytes (i + 1)).map (bytes[i] :: ·)
    else (unescapeFrom bytes (i + 1)).map (bytes[i] :: ·)
  else some []
termination_by bytes.length - i

def unescape (s : String) : Option String := (unescapeFrom s.toUTF8.data.toList 0).map Utf8.lossy

/-! ## Lines -/

structure MountEntry where
  mountPoint : String
  fstype : String
  source : String
  options : String
  deriving DecidableEq, Repr

/-- The characters before the first occurrence of a pattern, and those after it. -/
def cutAtText (pat : List Char) : List Char → Option (List Char × List Char)
  | [] => (Text.dropPrefix pat []).map fun rest => ([], rest)
  | c :: cs => match Text.dropPrefix pat (c :: cs) with
    | some rest => some ([], rest)
    | none => (cutAtText pat cs).map fun (a, b) => (c :: a, b)

/-- What a line says, its escapes as they are; not every line is one of an entry. -/
def fieldsOf (line : String) : Option MountEntry :=
  match cutAtText " - ".toList line.toList with
  | none => none
  | some (left, right) =>
    match Text.splitWhitespace (String.ofList left), Text.splitWhitespace (String.ofList right) with
    | _ :: _ :: _ :: _ :: mountPoint :: options :: _, fstype :: source :: _ =>
      some { mountPoint, fstype, source, options }
    | _, _ => none

/-- The entry of a line, if it has one. -/
def entryOf (line : String) : Option (Option MountEntry) :=
  match fieldsOf line with
  | none => some none
  | some e => do
    let mountPoint ← unescape e.mountPoint
    let source ← unescape e.source
    pure (some { e with mountPoint, source })

def parseMountinfo (text : String) : Option (List MountEntry) :=
  ((Text.lines text).mapM entryOf).map fun entries => entries.filterMap id

def isMountPoint (entries : List MountEntry) (path : String) : Bool := entries.any fun e => e.mountPoint == path

example : fieldsOf "36 35 98:0 / /mnt/a\\040b rw,noatime shared:1 - ext4 /dev/sda1 rw" =
    some ⟨"/mnt/a\\040b", "ext4", "/dev/sda1", "rw,noatime"⟩ := by
  decide +kernel

/-! ## What the kernel writes -/

/-- A character of a path, escaped if the kernel escapes it. -/
def mangleChar (c : Char) : List Char :=
  if c ∈ [' ', '\t', '\n', '\\', '#'] then
    ['\\', Nat.digitChar (c.toNat / 64), Nat.digitChar (c.toNat / 8 % 8), Nat.digitChar (c.toNat % 8)]
  else [c]

def mangle (p : String) : String := String.ofList (p.toList.flatMap mangleChar)

example : mangle "/a b#" = "/a\\040b\\043" := by decide +kernel

/-! ## Steps -/

section Steps
variable {front tail : List UInt8}

theorem unescapeFrom_other {b : UInt8} (hb : b ≠ 0x5C) :
    unescapeFrom (front ++ b :: tail) front.length =
      (unescapeFrom (front ++ b :: tail) (front.length + 1)).map (b :: ·) := by
  have hlt : front.length < (front ++ b :: tail).length := by
    rw [List.length_append, List.length_cons]
    omega
  have hget : (front ++ b :: tail)[front.length] = b := by simp
  conv_lhs => rw [unescapeFrom, dif_pos hlt]
  rw [hget, if_neg fun h => hb h.1]

theorem unescapeFrom_others {bs : List UInt8} (hbs : ∀ b ∈ bs, b ≠ 0x5C) :
    unescapeFrom (front ++ (bs ++ tail)) front.length =
      (unescapeFrom (front ++ (bs ++ tail)) (front.length + bs.length)).map (bs ++ ·) := by
  induction bs generalizing front with
  | nil => simp
  | cons b bs ih =>
    have hrest := @ih (front ++ [b]) fun d hd => hbs d (List.mem_cons_of_mem _ hd)
    rw [List.append_assoc, List.length_append, List.length_singleton, List.singleton_append] at hrest
    rw [List.cons_append, unescapeFrom_other (hbs b List.mem_cons_self), hrest, Option.map_map, List.length_cons,
      Nat.add_assoc, Nat.add_comm 1]
    rfl

theorem unescapeFrom_escape {digits : List UInt8} {v : UInt8} (hlength : digits.length = 3)
    (hdigits : parseOct digits = some v)
    (hfirst : Slicing.isCharBoundary (front ++ 0x5C :: (digits ++ tail)) (front.length + 1) = true)
    (hlast : Slicing.isCharBoundary (front ++ 0x5C :: (digits ++ tail)) (front.length + 4) = true) :
    unescapeFrom (front ++ 0x5C :: (digits ++ tail)) front.length =
      (unescapeFrom (front ++ 0x5C :: (digits ++ tail)) (front.length + 4)).map (v :: ·) := by
  have hlt : front.length < (front ++ 0x5C :: (digits ++ tail)).length := by
    rw [List.length_append, List.length_cons]
    omega
  have hget : (front ++ 0x5C :: (digits ++ tail))[front.length] = 0x5C := by simp
  have hroom : front.length + 4 ≤ (front ++ 0x5C :: (digits ++ tail)).length := by
    rw [List.length_append, List.length_cons, List.length_append]
    omega
  have hslice : Slicing.slice (front ++ 0x5C :: (digits ++ tail)) (front.length + 1) (front.length + 4) =
      some digits := @Slicing.slice_behind front digits tail 0x5C 3 hlength
  conv_lhs => rw [unescapeFrom, dif_pos hlt]
  rw [hget, if_pos ⟨rfl, hroom⟩, Slicing.strSlice_of_boundary hfirst hlast, hslice]
  simp only [hdigits]

end Steps

/-! ## Escaped text -/

/-- The digits of an escape are those of its character. -/
theorem escape_digits {c : Char} (hc : c ∈ [' ', '\t', '\n', '\\', '#']) :
    (mangleChar c).flatMap String.utf8EncodeChar = 0x5C :: (mangleChar c).tail.flatMap String.utf8EncodeChar ∧
      ((mangleChar c).tail.flatMap String.utf8EncodeChar).length = 3 ∧
      parseOct ((mangleChar c).tail.flatMap String.utf8EncodeChar) = some (UInt8.ofNat c.toNat) ∧
      String.utf8EncodeChar c = [UInt8.ofNat c.toNat] := by
  simp only [List.mem_cons, List.not_mem_nil, or_false] at hc
  rcases hc with rfl | rfl | rfl | rfl | rfl
  all_goals decide +kernel

theorem utf8EncodeChar_ne_backslash {c : Char} (hc : c ≠ '\\') : ∀ b ∈ String.utf8EncodeChar c, b ≠ 0x5C := by
  intro b hb heq
  subst heq
  by_cases h : c.toNat < 128
  · rw [Slicing.utf8EncodeChar_ascii h, List.mem_singleton] at hb
    have hnat : (0x5C : UInt8).toNat = c.toNat := by
      rw [hb, Utf8.toNat_byte (Nat.lt_trans h (by decide))]
    exact hc (Char.toNat_inj.mp hnat.symm)
  · obtain ⟨first, tail, heq, -, hall⟩ := Slicing.utf8EncodeChar_wide h
    rw [heq] at hb
    exact absurd (hall _ hb) (by decide)

theorem unescapeFrom_char (front : List UInt8) (c : Char) (rest : List Char) :
    unescapeFrom (front ++ ((mangleChar c).flatMap String.utf8EncodeChar ++ rest.flatMap String.utf8EncodeChar))
        front.length =
      (unescapeFrom (front ++ ((mangleChar c).flatMap String.utf8EncodeChar ++ rest.flatMap String.utf8EncodeChar))
        (front.length + ((mangleChar c).flatMap String.utf8EncodeChar).length)).map
          (String.utf8EncodeChar c ++ ·) := by
  by_cases hc : c ∈ [' ', '\t', '\n', '\\', '#']
  · obtain ⟨hbytes, hlength, hdigits, hone⟩ := escape_digits hc
    generalize (mangleChar c).tail = digits at hbytes hlength hdigits
    have hfirst := Slicing.isCharBoundary_append (front ++ [0x5C]) (digits ++ rest)
    have hlast := Slicing.isCharBoundary_append (front ++ 0x5C :: digits.flatMap String.utf8EncodeChar) rest
    rw [List.flatMap_append, List.append_assoc, List.length_append, List.length_singleton] at hfirst
    rw [List.append_assoc, List.length_append, List.length_cons, hlength] at hlast
    have hstep := unescapeFrom_escape hlength hdigits hfirst hlast
    rw [hbytes, hone, List.length_cons, hlength]
    exact hstep
  · have hplain : (mangleChar c).flatMap String.utf8EncodeChar = String.utf8EncodeChar c := by
      unfold mangleChar
      rw [if_neg hc, List.flatMap_singleton]
    have hne : c ≠ '\\' := by
      rintro rfl
      exact hc (by decide)
    rw [hplain]
    exact unescapeFrom_others (utf8EncodeChar_ne_backslash hne)

theorem unescapeFrom_mangled (front : List UInt8) (cs : List Char) :
    unescapeFrom (front ++ (cs.flatMap mangleChar).flatMap String.utf8EncodeChar) front.length =
      some (cs.flatMap String.utf8EncodeChar) := by
  induction cs generalizing front with
  | nil =>
    rw [unescapeFrom, dif_neg (by simp)]
    rfl
  | cons c cs ih =>
    have hrest := ih (front ++ (mangleChar c).flatMap String.utf8EncodeChar)
    rw [List.append_assoc, List.length_append] at hrest
    rw [List.flatMap_cons, List.flatMap_append, unescapeFrom_char, hrest]
    rfl

/-- What the kernel escapes is read as it was. -/
theorem unescape_mangle (p : String) : unescape (mangle p) = some p := by
  have hall := unescapeFrom_mangled [] p.toList
  rw [List.nil_append, List.length_nil] at hall
  rw [unescape, Utf8.toUTF8_eq, mangle, String.toList_ofList, hall, Option.map_some, ← Utf8.toUTF8_eq,
    Utf8.lossy_toUTF8]

/-! ## Slices inside characters -/

/-- Three bytes after a backslash, a character begins or the text ends; or there are not so many. -/
def Clean (s : String) : Prop :=
  ∀ i, s.toUTF8.data.toList[i]? = some 0x5C → i + 4 ≤ s.toUTF8.data.toList.length →
    Slicing.isCharBoundary s.toUTF8.data.toList (i + 4) = true

theorem octDigits_mem {bs : List UInt8} {n m : ℕ} (h : octDigits bs n = some m) : ∀ b ∈ bs, b ≤ 0x37 := by
  induction bs generalizing n with
  | nil => exact fun b hb => absurd hb List.not_mem_nil
  | cons b bs ih =>
    unfold octDigits at h
    split at h
    · rename_i hb
      intro d hd
      cases hd with
      | head => exact hb.2
      | tail _ hmem => exact ih h d hmem
    · cases h

/-- No backslash stands among digits. -/
theorem parseOct_mem {bytes : List UInt8} {v : UInt8} (h : parseOct bytes = some v) : 0x5C ∉ bytes := by
  intro hmem
  have hrest : 0x5C ∈ if bytes.head? = some 0x2B then bytes.tail else bytes := by
    split
    · rename_i hplus
      obtain ⟨rest, rfl⟩ := List.head?_eq_some_iff.mp hplus
      exact (List.mem_cons.mp hmem).resolve_left (by decide)
    · exact hmem
  unfold parseOct at h
  dsimp only at h
  generalize (if bytes.head? = some 0x2B then bytes.tail else bytes) = digits at h hrest
  split at h
  · cases h
  · obtain ⟨n, hn, -⟩ := Option.map_eq_some_iff.mp h
    exact absurd (octDigits_mem (Option.filter_eq_some_iff.mp hn).1 _ hrest) (by decide)

/-- A step that goes on from `next`, past bytes of which only the first may be a backslash. -/
theorem clean_from {bytes : List UInt8} {i next : ℕ} (hi : i < next)
    (hfirst : bytes[i]? = some 0x5C → i + 4 ≤ bytes.length → Slicing.isCharBoundary bytes (i + 4) = true)
    (hpast : ∀ j, i < j → j < next → bytes[j]? ≠ some 0x5C) :
    (∀ j, next ≤ j → bytes[j]? = some 0x5C → j + 4 ≤ bytes.length → Slicing.isCharBoundary bytes (j + 4) = true) ↔
      ∀ j, i ≤ j → bytes[j]? = some 0x5C → j + 4 ≤ bytes.length → Slicing.isCharBoundary bytes (j + 4) = true := by
  constructor
  · intro h j hj hget hroom
    by_cases hnext : next ≤ j
    · exact h j hnext hget hroom
    · by_cases hlater : i < j
      · exact absurd hget (hpast j hlater (Nat.not_le.mp hnext))
      · obtain rfl : i = j := Nat.le_antisymm hj (Nat.not_lt.mp hlater)
        exact hfirst hget hroom
  · exact fun h j hj => h j (Nat.le_trans (Nat.le_of_lt hi) hj)

theorem map_returns {α β : Type} {f : α → β} {o : Option α} : (∃ b, o.map f = some b) ↔ ∃ a, o = some a := by
  cases o <;> simp

theorem unescapeFrom_iff {bytes : List UInt8}
    (hbytes : ∀ i, bytes[i]? = some 0x5C → Slicing.isCharBoundary bytes (i + 1) = true) (i : ℕ) :
    (∃ out, unescapeFrom bytes i = some out) ↔ ∀ j, i ≤ j → bytes[j]? = some 0x5C → j + 4 ≤ bytes.length →
      Slicing.isCharBoundary bytes (j + 4) = true := by
  fun_induction unescapeFrom bytes i with
  | case1 i hi hescape hslice =>
    have hget : bytes[i]? = some 0x5C := by rw [List.getElem?_eq_getElem hi, hescape.1]
    refine iff_of_false nofun fun h => ?_
    rw [Slicing.strSlice_of_boundary (hbytes i hget) (h i (Nat.le_refl i) hget hescape.2),
      Slicing.slice_eq_some (by omega) hescape.2] at hslice
    cases hslice
  | case2 i hi hescape digits hslice v hv ih =>
    obtain ⟨hlast, hdigits⟩ := Slicing.strSlice_eq_some hslice
    refine map_returns.trans (ih.trans (clean_from (by omega) (fun _ _ => hlast) ?_))
    -- The bytes passed over are the digits.
    intro j hj hnext hget
    have hmem : 0x5C ∈ digits := by
      rw [hdigits]
      apply List.mem_of_getElem? (i := j - (i + 1))
      rw [List.getElem?_take_of_lt (by omega), List.getElem?_drop, Nat.add_sub_cancel' hj]
      exact hget
    exact parseOct_mem hv hmem
  | case3 i hi hescape digits hslice hv ih =>
    obtain ⟨hlast, -⟩ := Slicing.strSlice_eq_some hslice
    exact map_returns.trans (ih.trans (clean_from (Nat.lt_succ_self i) (fun _ _ => hlast) (by omega)))
  | case4 i hi hescape ih =>
    refine map_returns.trans (ih.trans (clean_from (Nat.lt_succ_self i) (fun hget hroom => ?_) (by omega)))
    rw [List.getElem?_eq_getElem hi] at hget
    exact absurd ⟨Option.some.inj hget, hroom⟩ hescape
  | case5 i hi =>
    refine iff_of_true ⟨[], rfl⟩ fun j hj hget => ?_
    rw [List.getElem?_eq_none (by omega)] at hget
    cases hget

theorem unescape_iff (s : String) : (∃ t, unescape s = some t) ↔ Clean s := by
  have hbytes : ∀ i, s.toUTF8.data.toList[i]? = some 0x5C →
      Slicing.isCharBoundary s.toUTF8.data.toList (i + 1) = true := by
    intro i hget
    rw [Utf8.toUTF8_eq] at hget ⊢
    exact Slicing.isCharBoundary_succ s.toList [] hget (Nat.zero_le i) (by decide)
  refine map_returns.trans ((unescapeFrom_iff hbytes 0).trans ?_)
  exact ⟨fun h i => h i (Nat.zero_le i), fun h i _ => h i⟩

/-! ## Lines that are read -/

theorem entryOf_iff (line : String) : (∃ e, entryOf line = some e) ↔
    ∀ e, fieldsOf line = some e → Clean e.mountPoint ∧ Clean e.source := by
  unfold entryOf
  cases hfields : fieldsOf line with
  | none => exact iff_of_true ⟨none, rfl⟩ nofun
  | some e =>
    constructor
    · intro h e' he'
      cases he'
      obtain ⟨entry, hentry⟩ := h
      obtain ⟨mountPoint, hpoint, hentry⟩ := Option.bind_eq_some_iff.mp hentry
      obtain ⟨source, hsource, -⟩ := Option.bind_eq_some_iff.mp hentry
      exact ⟨(unescape_iff _).mp ⟨mountPoint, hpoint⟩, (unescape_iff _).mp ⟨source, hsource⟩⟩
    · intro h
      obtain ⟨mountPoint, hpoint⟩ := (unescape_iff _).mpr (h e rfl).1
      obtain ⟨source, hsource⟩ := (unescape_iff _).mpr (h e rfl).2
      exact ⟨_, by simp only [hpoint, hsource]; rfl⟩

theorem mapM_returns {α β : Type} {f : α → Option β} {l : List α} :
    (∃ bs, l.mapM f = some bs) ↔ ∀ a ∈ l, ∃ b, f a = some b := by
  induction l with
  | nil => exact iff_of_true ⟨[], rfl⟩ fun a ha => absurd ha List.not_mem_nil
  | cons a l ih =>
    rw [List.mapM_cons, List.forall_mem_cons, ← ih]
    constructor
    · intro h
      obtain ⟨bs, h⟩ := h
      obtain ⟨b, hb, h⟩ := Option.bind_eq_some_iff.mp h
      obtain ⟨rest, hrest, -⟩ := Option.bind_eq_some_iff.mp h
      exact ⟨⟨b, hb⟩, ⟨rest, hrest⟩⟩
    · intro h
      obtain ⟨⟨b, hb⟩, ⟨rest, hrest⟩⟩ := h
      exact ⟨b :: rest, by rw [hb, hrest]; rfl⟩

theorem parseMountinfo_iff (text : String) : (∃ entries, parseMountinfo text = some entries) ↔
    ∀ line ∈ Text.lines text, ∀ e, fieldsOf line = some e → Clean e.mountPoint ∧ Clean e.source := by
  refine map_returns.trans (mapM_returns.trans ?_)
  exact forall₂_congr fun line _ => entryOf_iff line

/-- Text that the kernel has escaped is read back. Any other is read exactly when no slice of three bytes after a
backslash ends inside a character. -/
theorem unescape_returns_iff (s : String) :
    unescape (mangle s) = some s ∧
    ((∃ t, unescape s = some t) ↔ Clean s) ∧
    ((∃ entries, parseMountinfo s = some entries) ↔
      ∀ line ∈ Text.lines s, ∀ e, fieldsOf line = some e → Clean e.mountPoint ∧ Clean e.source) :=
  ⟨unescape_mangle s, unescape_iff s, parseMountinfo_iff s⟩

/-- A backslash before two characters of two bytes, in a mount point. -/
def loneBackslash : String := "36 35 98:0 / \\éé rw - ext4 /dev/sda1 rw"

/-- The slice after the backslash ends inside the second of them. -/
theorem lone_backslash_panics : unescape "\\éé" = none ∧ parseMountinfo loneBackslash = none := by
  have hclean : ¬Clean "\\éé" := by
    intro h
    exact absurd (h 0 (by decide +kernel) (by decide +kernel)) (by decide +kernel)
  constructor
  · cases h : unescape "\\éé" with
    | none => rfl
    | some t => exact absurd ((unescape_iff _).mp ⟨t, h⟩) hclean
  · cases h : parseMountinfo loneBackslash with
    | none => rfl
    | some entries =>
      have hline : loneBackslash ∈ Text.lines loneBackslash := by decide +kernel
      have hfields : fieldsOf loneBackslash = some ⟨"\\éé", "ext4", "/dev/sda1", "rw"⟩ := by decide +kernel
      exact absurd ((parseMountinfo_iff loneBackslash).mp ⟨entries, h⟩ loneBackslash hline _ hfields).1 hclean

end Collocate.Sys
