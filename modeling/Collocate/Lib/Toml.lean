import Collocate.Lib.OrdMap
import Mathlib.Logic.Equiv.List

/-! # TOML values

The values of a TOML document, the tables they make up, and a text form of tables, whose reading and printing are
parameters. The floating-point numbers are of any type. -/
namespace Collocate
set_option autoImplicit false

inductive Toml (F : Type)
  | string (s : String)
  | integer (i : Int64)
  | float (x : F)
  | boolean (b : Bool)
  | datetime (text : String)
  | array (items : List (Toml F))
  | table (entries : List (String × Toml F))

namespace Toml
variable {F : Type}

abbrev Table (F : Type) := OrdMap String (Toml F)

/-- A value that its text gives back: the keys of tables are in order, and `num` holds of the numbers. -/
inductive Plain (num : F → Prop) : Toml F → Prop
  | string (s : String) : Plain num (.string s)
  | integer (i : Int64) : Plain num (.integer i)
  | float (x : F) (h : num x) : Plain num (.float x)
  | boolean (b : Bool) : Plain num (.boolean b)
  | datetime (text : String) : Plain num (.datetime text)
  | array (items : List (Toml F)) (h : ∀ v ∈ items, Plain num v) : Plain num (.array items)
  | table (entries : List (String × Toml F)) (hsorted : entries.Pairwise fun a b => a.1 < b.1)
      (h : ∀ e ∈ entries, Plain num e.2) : Plain num (.table entries)

/-! ## Tables -/

namespace Table

/-- `Map::extend`. -/
def extend (t more : Table F) : Table F := more.entries.foldl (fun t e => t.insert e.1 e.2) t

def removeAll (keys : List String) (t : Table F) : Table F := keys.foldl (fun t k => t.erase k) t

/-- The table of those fields that have a value. -/
def ofFields : List (String × Option (Toml F)) → Table F
  | [] => OrdMap.empty
  | (k, some v) :: fields => (ofFields fields).insert k v
  | (_, none) :: fields => ofFields fields

theorem get?_insertAll {entries : List (String × Toml F)} (hsorted : entries.Pairwise fun a b => a.1 < b.1)
    (t : Table F) (k : String) :
    (entries.foldl (fun t e => t.insert e.1 e.2) t).get? k = (OrdMap.lookup k entries).or (t.get? k) := by
  induction entries generalizing t with
  | nil => rfl
  | cons e entries ih =>
    obtain ⟨hlt, hrest⟩ := List.pairwise_cons.mp hsorted
    rw [List.foldl_cons, ih hrest, OrdMap.get?_insert]
    show _ = (if k = e.1 then some e.2 else OrdMap.lookup k entries).or (t.get? k)
    by_cases hk : k = e.1
    · have hnone : OrdMap.lookup k entries = none := by
        rw [Option.eq_none_iff_forall_ne_some]
        intro v hv
        have hself : e.1 < k := hlt (k, v) ((OrdMap.lookup_eq_some hrest).mp hv)
        exact absurd hk.symm (ne_of_lt hself)
      rw [if_pos hk, if_pos hk, hnone]
      rfl
    · rw [if_neg hk, if_neg hk]

theorem get?_extend (t more : Table F) (k : String) : (t.extend more).get? k = (more.get? k).or (t.get? k) :=
  get?_insertAll more.sorted t k

theorem get?_removeAll (keys : List String) (t : Table F) (k : String) :
    (removeAll keys t).get? k = if k ∈ keys then none else t.get? k := by
  induction keys generalizing t with
  | nil => rfl
  | cons x keys ih =>
    show (removeAll keys (t.erase x)).get? k = _
    rw [ih, OrdMap.get?_erase]
    by_cases hx : k = x
    · simp [hx]
    · simp [hx]

theorem ofFields_mem {fields : List (String × Option (Toml F))} {k : String} {v : Toml F}
    (h : (ofFields fields).get? k = some v) : (k, some v) ∈ fields := by
  induction fields with
  | nil => cases h
  | cons e fields ih =>
    obtain ⟨x, w⟩ := e
    cases w with
    | none => exact List.mem_cons_of_mem _ (ih h)
    | some w =>
      have hget : ((ofFields fields).insert x w).get? k = some v := h
      rw [OrdMap.get?_insert] at hget
      by_cases hx : k = x
      · rw [if_pos hx] at hget
        cases hget
        subst hx
        exact List.mem_cons_self
      · rw [if_neg hx] at hget
        exact List.mem_cons_of_mem _ (ih hget)

theorem get?_ofFields_absent {fields : List (String × Option (Toml F))} {k : String} (h : k ∉ fields.map Prod.fst) :
    (ofFields fields).get? k = none := by
  rw [Option.eq_none_iff_forall_ne_some]
  intro v hv
  exact h (List.mem_map.mpr ⟨(k, some v), ofFields_mem hv, rfl⟩)

theorem get?_ofFields {fields : List (String × Option (Toml F))} (hnodup : (fields.map Prod.fst).Nodup) {k : String}
    {v : Option (Toml F)} (h : (k, v) ∈ fields) : (ofFields fields).get? k = v := by
  induction fields with
  | nil => cases h
  | cons e fields ih =>
    obtain ⟨x, w⟩ := e
    obtain ⟨hfresh, hrest⟩ := List.nodup_cons.mp hnodup
    cases List.mem_cons.mp h with
    | inl heq =>
      cases heq
      cases v with
      | none =>
        show (ofFields fields).get? k = none
        exact get?_ofFields_absent hfresh
      | some v => exact (OrdMap.get?_insert _ _ _ _).trans (if_pos rfl)
    | inr hmem =>
      have hkey : k ∈ fields.map Prod.fst := List.mem_map.mpr ⟨(k, v), hmem, rfl⟩
      have hne : k ≠ x := fun hx => hfresh (hx ▸ hkey)
      rw [← ih hrest hmem]
      cases w with
      | none => rfl
      | some w => exact (OrdMap.get?_insert _ _ _ _).trans (if_neg hne)

end Table

/-! ## Text -/

end Toml

/-- Reading and printing of tables; `refusal` is the message for a text that is a table, but not one of the type
asked for, and `outOfRange` the one for a number that no table holds. -/
structure TomlText (F : Type) where
  parse : String → Except String (Toml.Table F)
  print : Toml.Table F → Except String String
  refusal : String → String
  outOfRange : String

namespace TomlText
variable {F : Type}

/-- A table that its text gives back is printed, and read as it was. -/
def RoundTrips (x : TomlText F) (num : F → Prop) : Prop :=
  ∀ t : Toml.Table F, (∀ k v, t.get? k = some v → Toml.Plain num v) →
    ∃ text, x.print t = .ok text ∧ x.parse text = .ok t

end TomlText

namespace Toml
variable {F : Type}

/-! ## Codes

Lists of numbers that tell any two values apart, also when other numbers follow. -/

def textCode (s : String) : List ℕ := s.length :: s.toList.map Char.toNat

mutual
def code (num : F → ℕ) : Toml F → List ℕ
  | .string s => 0 :: textCode s
  | .integer i => [1, i.toUInt64.toNat]
  | .float x => [2, num x]
  | .boolean b => [3, b.toNat]
  | .datetime text => 4 :: textCode text
  | .array items => 5 :: itemsCode num items
  | .table entries => 6 :: entriesCode num entries
def itemsCode (num : F → ℕ) : List (Toml F) → List ℕ
  | [] => [0]
  | v :: items => 1 :: (code num v ++ itemsCode num items)
def entriesCode (num : F → ℕ) : List (String × Toml F) → List ℕ
  | [] => [0]
  | (k, v) :: entries => 1 :: (textCode k ++ (code num v ++ entriesCode num entries))
end

theorem textCode_inj {s s' : String} {r r' : List ℕ} (h : textCode s ++ r = textCode s' ++ r') : s = s' ∧ r = r' := by
  obtain ⟨hlen, hrest⟩ := List.cons.inj h
  have hsame : (s.toList.map Char.toNat).length = (s'.toList.map Char.toNat).length := by
    rw [List.length_map, List.length_map, String.length_toList, String.length_toList, hlen]
  obtain ⟨hcodes, hr⟩ := List.append_inj hrest hsame
  have hchars : s.toList = s'.toList := List.map_injective_iff.mpr (fun _ _ hc => Char.toNat_inj.mp hc) hcodes
  exact ⟨String.toList_inj.mp hchars, hr⟩

mutual
theorem code_inj {num : F → ℕ} (hnum : Function.Injective num) :
    ∀ (v w : Toml F) (r r' : List ℕ), code num v ++ r = code num w ++ r' → v = w ∧ r = r'
  | .string s, w, r, r', h => by
    cases w with
    | string s' =>
      obtain ⟨hs, hr⟩ := textCode_inj (List.cons.inj h).2
      exact ⟨congrArg _ hs, hr⟩
    | _ => exact absurd (List.cons.inj h).1 (by decide)
  | .integer i, w, r, r', h => by
    cases w with
    | integer i' =>
      obtain ⟨hi, hr⟩ := List.cons.inj (List.cons.inj h).2
      have hbits : i.toUInt64 = i'.toUInt64 := UInt64.toNat_inj.mp hi
      cases i
      cases i'
      exact ⟨congrArg (fun bits => Toml.integer (Int64.ofUInt64 bits)) hbits, hr⟩
    | _ => exact absurd (List.cons.inj h).1 (by decide)
  | .float x, w, r, r', h => by
    cases w with
    | float x' =>
      obtain ⟨hx, hr⟩ := List.cons.inj (List.cons.inj h).2
      exact ⟨congrArg _ (hnum hx), hr⟩
    | _ => exact absurd (List.cons.inj h).1 (by decide)
  | .boolean b, w, r, r', h => by
    cases w with
    | boolean b' =>
      obtain ⟨hb, hr⟩ := List.cons.inj (List.cons.inj h).2
      have hbool : b = b' := by
        cases b <;> cases b' <;> first | rfl | exact absurd hb (by decide)
      exact ⟨congrArg _ hbool, hr⟩
    | _ => exact absurd (List.cons.inj h).1 (by decide)
  | .datetime text, w, r, r', h => by
    cases w with
    | datetime text' =>
      obtain ⟨htext, hr⟩ := textCode_inj (List.cons.inj h).2
      exact ⟨congrArg _ htext, hr⟩
    | _ => exact absurd (List.cons.inj h).1 (by decide)
  | .array items, w, r, r', h => by
    cases w with
    | array items' =>
      obtain ⟨hitems, hr⟩ := itemsCode_inj hnum items items' r r' (List.cons.inj h).2
      exact ⟨congrArg _ hitems, hr⟩
    | _ => exact absurd (List.cons.inj h).1 (by decide)
  | .table entries, w, r, r', h => by
    cases w with
    | table entries' =>
      obtain ⟨hentries, hr⟩ := entriesCode_inj hnum entries entries' r r' (List.cons.inj h).2
      exact ⟨congrArg _ hentries, hr⟩
    | _ => exact absurd (List.cons.inj h).1 (by decide)
theorem itemsCode_inj {num : F → ℕ} (hnum : Function.Injective num) :
    ∀ (vs ws : List (Toml F)) (r r' : List ℕ), itemsCode num vs ++ r = itemsCode num ws ++ r' → vs = ws ∧ r = r'
  | [], ws, r, r', h => by
    cases ws with
    | nil => exact ⟨rfl, (List.cons.inj h).2⟩
    | cons w ws => exact absurd (List.cons.inj h).1 (by decide)
  | v :: vs, ws, r, r', h => by
    cases ws with
    | nil => exact absurd (List.cons.inj h).1 (by decide)
    | cons w ws =>
      have hrest : (code num v ++ itemsCode num vs) ++ r = (code num w ++ itemsCode num ws) ++ r' :=
        (List.cons.inj h).2
      rw [List.append_assoc, List.append_assoc] at hrest
      obtain ⟨hv, hrest⟩ := code_inj hnum v w _ _ hrest
      obtain ⟨hvs, hr⟩ := itemsCode_inj hnum vs ws r r' hrest
      exact ⟨congrArg₂ _ hv hvs, hr⟩
theorem entriesCode_inj {num : F → ℕ} (hnum : Function.Injective num) :
    ∀ (es fs : List (String × Toml F)) (r r' : List ℕ),
      entriesCode num es ++ r = entriesCode num fs ++ r' → es = fs ∧ r = r'
  | [], fs, r, r', h => by
    cases fs with
    | nil => exact ⟨rfl, (List.cons.inj h).2⟩
    | cons f fs => exact absurd (List.cons.inj h).1 (by decide)
  | (k, v) :: es, fs, r, r', h => by
    cases fs with
    | nil => exact absurd (List.cons.inj h).1 (by decide)
    | cons f fs =>
      obtain ⟨k', w⟩ := f
      have hrest : (textCode k ++ (code num v ++ entriesCode num es)) ++ r =
          (textCode k' ++ (code num w ++ entriesCode num fs)) ++ r' := (List.cons.inj h).2
      rw [List.append_assoc, List.append_assoc, List.append_assoc, List.append_assoc] at hrest
      obtain ⟨hk, hrest⟩ := textCode_inj hrest
      obtain ⟨hv, hrest⟩ := code_inj hnum v w _ _ hrest
      obtain ⟨hes, hr⟩ := entriesCode_inj hnum es fs r r' hrest
      exact ⟨congrArg₂ _ (congrArg₂ _ hk hv) hes, hr⟩
end

def Table.code (num : F → ℕ) (t : Table F) : List ℕ := entriesCode num t.entries

theorem Table.code_injective {num : F → ℕ} (hnum : Function.Injective num) :
    Function.Injective (Table.code num) := by
  intro t u h
  have hentries := (entriesCode_inj hnum t.entries u.entries [] [] (congrArg (· ++ []) h)).1
  cases t
  cases u
  cases hentries
  rfl

end Toml

namespace TomlText
variable {F : Type}

/-! ## A text form

Some texts are those of given tables; every other table has a comment as its text, as long as its code says. -/

def comment (num : F → ℕ) (t : Toml.Table F) : String :=
  String.ofList ('#' :: List.replicate (Encodable.encode (t.code num)) ' ')

theorem comment_injective {num : F → ℕ} (hnum : Function.Injective num) : Function.Injective (comment num) := by
  intro t u h
  have hchars := (List.cons.inj (String.ofList_injective h)).2
  have hlen : Encodable.encode (t.code num) = Encodable.encode (u.code num) := by
    have := congrArg List.length hchars
    rwa [List.length_replicate, List.length_replicate] at this
  exact Toml.Table.code_injective hnum (Encodable.encode_injective hlen)

open Classical in
noncomputable def keeping (num : F → ℕ) (known : List (String × Toml.Table F)) : TomlText F where
  parse text := match known.lookup text with
    | some t => .ok t
    | none => if h : ∃ t, comment num t = text then .ok h.choose else .error "not a table"
  print t := match known.find? fun e => e.2.code num == t.code num with
    | some e => .ok e.1
    | none => .ok (comment num t)
  refusal _ := "not of the type asked for"
  outOfRange := "out of range"

theorem lookup_known {known : List (String × Toml.Table F)} (hnodup : (known.map Prod.fst).Nodup)
    {e : String × Toml.Table F} (he : e ∈ known) : known.lookup e.1 = some e.2 := by
  induction known with
  | nil => cases he
  | cons a known ih =>
    obtain ⟨hfresh, hrest⟩ := List.nodup_cons.mp hnodup
    cases List.mem_cons.mp he with
    | inl heq =>
      subst heq
      exact List.lookup_cons_self
    | inr hmem =>
      have hne : (e.1 == a.1) = false :=
        beq_eq_false_iff_ne.mpr fun heq => hfresh (heq ▸ List.mem_map_of_mem hmem)
      rw [List.lookup_cons, hne]
      exact ih hrest hmem

theorem keeping_roundTrips {num : F → ℕ} (hnum : Function.Injective num) {known : List (String × Toml.Table F)}
    (hnodup : (known.map Prod.fst).Nodup) (hplain : ∀ e ∈ known, e.1.toList.head? ≠ some '#') (P : F → Prop) :
    (keeping num known).RoundTrips P := by
  intro t _
  unfold keeping
  dsimp only
  cases hfind : known.find? fun e => e.2.code num == t.code num with
  | some e =>
    have hcode : e.2.code num = t.code num := by simpa using List.find?_some hfind
    refine ⟨e.1, rfl, ?_⟩
    rw [lookup_known hnodup (List.mem_of_find?_eq_some hfind), Toml.Table.code_injective hnum hcode]
  | none =>
    have hnone : known.lookup (comment num t) = none := by
      rw [List.lookup_eq_none_iff]
      intro e he
      rw [bne_iff_ne]
      intro heq
      apply hplain e he
      rw [← heq]
      unfold comment
      rw [String.toList_ofList]
      rfl
    have hsome : ∃ u, comment num u = comment num t := ⟨t, rfl⟩
    refine ⟨comment num t, rfl, ?_⟩
    rw [hnone]
    dsimp only
    rw [dif_pos hsome, comment_injective hnum hsome.choose_spec]

end TomlText
end Collocate
