import Collocate.Core.Sizes
import Collocate.Cluster.Provision

/-! # Memory limits of nodes (`collocate-cluster/src/provision.rs`)

A node's memory limit is accepted by `parse_size` and handed to LXD in the spelling of `memory_arg`. LXD reads
digits and one of five units. -/
namespace Collocate.Cluster
set_option autoImplicit false

/-! ## What LXD reads -/

/-- The units of LXD that are longer than a byte, by their first letter. -/
def lxdUnits : List (Char × ℕ) := [('K', 10), ('M', 20), ('G', 30), ('T', 40)]

inductive LxdUnit : List Char → ℕ → Prop
  | bytes : LxdUnit ['B'] 0
  | binary (c : Char) (shift : ℕ) (h : (c, shift) ∈ lxdUnits) : LxdUnit [c, 'i', 'B'] shift

/-- The text is a size of `v` bytes to LXD. -/
def LxdSize (cs : List Char) (v : ℕ) : Prop :=
  ∃ ds unit n shift, cs = ds ++ unit ∧ Text.Decimal ds n ∧ LxdUnit unit shift ∧ v = n * 2 ^ shift

/-- A size that `memory_arg` spells for LXD, last character first: one that does not end in the mark of bytes, and in
an `i` only as LXD writes it. -/
def SpelledForLxd : List Char → Bool
  | 'b' :: _ | 'B' :: _ | 'I' :: _ => false
  | 'i' :: c :: _ => c ∈ lxdUnits.map Prod.fst
  | _ => true

theorem lxdSize_bytes_iff {cs : List Char} {v : ℕ} : LxdSize (cs ++ ['B']) v ↔
    Text.Decimal cs v ∨ ∃ ds c n shift, cs = ds ++ [c, 'i'] ∧ Text.Decimal ds n ∧
      (c, shift) ∈ lxdUnits ∧ v = n * 2 ^ shift := by
  constructor
  · rintro ⟨ds, unit, n, shift, hcs, hdecimal, hunit, hv⟩
    cases hunit with
    | bytes =>
      cases List.append_cancel_right hcs
      exact .inl (by rwa [hv, pow_zero, Nat.mul_one])
    | binary c shift hc =>
      have hcs' : cs ++ ['B'] = ds ++ [c, 'i'] ++ ['B'] := by rw [hcs, List.append_assoc]; rfl
      exact .inr ⟨ds, c, n, shift, List.append_cancel_right hcs', hdecimal, hc, hv⟩
  · intro h
    cases h with
    | inl h => exact ⟨cs, ['B'], v, 0, rfl, h, .bytes, by rw [pow_zero, Nat.mul_one]⟩
    | inr h =>
      obtain ⟨ds, c, n, shift, hcs, hdecimal, hc, hv⟩ := h
      exact ⟨ds, [c, 'i', 'B'], n, shift, by rw [hcs, List.append_assoc]; rfl, hdecimal, .binary c shift hc, hv⟩

/-! ## What `memory_arg` writes -/

/-- The unit that a last letter is written as. -/
def writtenUnit (c : Char) : Option String :=
  match (if Text.isUpper c then Char.ofNat (c.toNat + 32) else c) with
  | 'k' => some "KiB"
  | 'm' => some "MiB"
  | 'g' => some "GiB"
  | 't' => some "TiB"
  | _ => none

theorem memoryArg_concat {input : String} {front : List Char} {c : Char} (h : (Text.trim input).toList = front ++ [c]) :
    (memoryArg input).toList = match writtenUnit c with
      | some unit => front ++ unit.toList
      | none => front ++ [c] ++ ['B'] := by
  have hlast : (Text.toAsciiLowercase (String.ofList (front ++ [c]))).toList.getLast? =
      some (if Text.isUpper c then Char.ofNat (c.toNat + 32) else c) := by
    unfold Text.toAsciiLowercase
    rw [String.toList_ofList, String.toList_ofList, List.map_append, List.map_singleton, List.getLast?_concat]
  unfold memoryArg writtenUnit
  simp only [h, hlast, List.dropLast_concat]
  split <;> simp_all

theorem writtenUnit_letter {c : Char} {shift : ℕ} (h : UnitLetter c shift) :
    ∃ unit, writtenUnit c = some unit ∧ LxdUnit unit.toList shift := by
  obtain ⟨lower, upper, hmem, hc⟩ := h
  simp only [sizeUnits, List.mem_cons, Prod.mk.injEq, List.not_mem_nil, or_false] at hmem
  rcases hmem with ⟨rfl, rfl, rfl⟩ | ⟨rfl, rfl, rfl⟩ | ⟨rfl, rfl, rfl⟩ | ⟨rfl, rfl, rfl⟩
  · exact ⟨"KiB", by rcases hc with rfl | rfl <;> decide, .binary 'K' 10 (by decide)⟩
  · exact ⟨"MiB", by rcases hc with rfl | rfl <;> decide, .binary 'M' 20 (by decide)⟩
  · exact ⟨"GiB", by rcases hc with rfl | rfl <;> decide, .binary 'G' 30 (by decide)⟩
  · exact ⟨"TiB", by rcases hc with rfl | rfl <;> decide, .binary 'T' 40 (by decide)⟩

theorem digit_range {c : Char} (h : c.isDigit) : 48 ≤ c.toNat ∧ c.toNat ≤ 57 := by
  have hval : (48 : UInt32) ≤ c.val ∧ c.val ≤ 57 := by simpa [Char.isDigit] using h
  exact hval

theorem writtenUnit_digit {c : Char} (h : c.isDigit) : writtenUnit c = none := by
  have hrange := digit_range h
  have hupper : Text.isUpper c = false := by
    have hlow : ¬('A' ≤ c) := fun hle => by
      have : (65 : ℕ) ≤ c.toNat := hle
      omega
    simp [Text.isUpper, hlow]
  have hne (d : Char) (hd : 57 < d.toNat) : c ≠ d := fun heq => by
    rw [heq] at hrange
    omega
  unfold writtenUnit
  rw [hupper]
  split
  · exact absurd ‹c = 'k'› (hne _ (by decide))
  · exact absurd ‹c = 'm'› (hne _ (by decide))
  · exact absurd ‹c = 'g'› (hne _ (by decide))
  · exact absurd ‹c = 't'› (hne _ (by decide))
  · rfl

theorem spelled_digit {c : Char} (h : c.isDigit) (cs : List Char) : SpelledForLxd (c :: cs) = true := by
  have hrange := digit_range h
  have hne (d : Char) (hd : 57 < d.toNat) : c ≠ d := fun heq => by
    rw [heq] at hrange
    omega
  unfold SpelledForLxd
  split
  · exact absurd (List.cons.inj ‹_›).1 (hne _ (by decide))
  · exact absurd (List.cons.inj ‹_›).1 (hne _ (by decide))
  · exact absurd (List.cons.inj ‹_›).1 (hne _ (by decide))
  · exact absurd (List.cons.inj ‹_›).1 (hne _ (by decide))
  · rfl

theorem spelled_letter {c : Char} {shift : ℕ} (h : UnitLetter c shift) (cs : List Char) :
    SpelledForLxd (c :: cs) = true := by
  obtain ⟨lower, upper, hmem, hc⟩ := h
  simp only [sizeUnits, List.mem_cons, Prod.mk.injEq, List.not_mem_nil, or_false] at hmem
  rcases hmem with ⟨rfl, rfl, rfl⟩ | ⟨rfl, rfl, rfl⟩ | ⟨rfl, rfl, rfl⟩ | ⟨rfl, rfl, rfl⟩ <;>
    rcases hc with rfl | rfl <;> rfl

/-- A text of digits ends in a digit. -/
theorem Decimal.ends {cs : List Char} {n : ℕ} (h : Text.Decimal cs n) : ∃ front d, cs = front ++ [d] ∧ d.isDigit := by
  obtain ⟨front, d, hcs⟩ := List.eq_nil_or_concat' cs |>.resolve_left h.some
  exact ⟨front, d, hcs, h.digits d (by rw [hcs]; simp)⟩

/-- Which texts LXD reads when a `B` is put behind them that `memory_arg` did not write a unit for. -/
theorem lxdSize_kept {cs : List Char} {v : ℕ} (h : LxdSize (cs ++ ['B']) v) :
    ∃ front c, cs = front ++ [c] ∧
      (c.isDigit ∨ c = 'i' ∧ ∃ u ∈ lxdUnits.map Prod.fst, ∃ front', front = front' ++ [u]) := by
  cases lxdSize_bytes_iff.mp h with
  | inl h =>
    obtain ⟨front, d, hcs, hd⟩ := Decimal.ends h
    exact ⟨front, d, hcs, .inl hd⟩
  | inr h =>
    obtain ⟨ds, c, n, shift, hcs, -, hc, -⟩ := h
    exact ⟨ds ++ [c], 'i', by rw [hcs, List.append_assoc]; rfl, .inr ⟨rfl, c, List.mem_map.mpr ⟨_, hc, rfl⟩, ds, rfl⟩⟩

/-! ## Which limits reach LXD as they were validated -/

/-- A limit that `parse_size` accepts reaches LXD as that number of bytes if and only if its trimmed text does not end
in the mark of bytes, and in an `i` only behind one of the capital letters that LXD writes it with. -/
theorem memory_kept_iff {input : String} {v : UInt64} (h : parseSize input = .ok v) :
    LxdSize (memoryArg input).toList v.toNat ↔ SpelledForLxd (Text.trim input).toList.reverse = true := by
  obtain ⟨ds, unit, mark, n, shift, hs, hdecimal, hunit, hmark, hv⟩ := parseSize_ok_iff.mp h
  have hspelled (front : List Char) (c : Char) (hcs : (Text.trim input).toList = front ++ [c]) :
      (Text.trim input).toList.reverse = c :: front.reverse := by rw [hcs]; simp
  cases hmark with
  | byte b hb =>
    have harg : (memoryArg input).toList = (ds ++ unit ++ [b]) ++ ['B'] := by
      rw [memoryArg_concat hs]
      rcases hb with rfl | rfl <;> rfl
    rw [hspelled _ b hs, harg]
    refine iff_of_false (fun hlxd => ?_) (by rcases hb with rfl | rfl <;> exact Bool.false_ne_true)
    obtain ⟨front, c, hcs, hc⟩ := lxdSize_kept hlxd
    cases (List.append_inj' hcs rfl).2
    cases hc with
    | inl hc => rcases hb with rfl | rfl <;> exact absurd hc (by decide)
    | inr hc =>
      rw [hc.1] at hb
      exact absurd hb (by decide)
  | none =>
    rw [List.append_nil] at hs
    cases hunit with
    | none =>
      rw [List.append_nil] at hs
      obtain ⟨front, d, hds, hd⟩ := Decimal.ends hdecimal
      have harg : (memoryArg input).toList = ds ++ ['B'] := by
        rw [memoryArg_concat (hs.trans hds), writtenUnit_digit hd, hds]
      rw [hspelled _ d (hs.trans hds), harg, hv]
      refine iff_of_true (lxdSize_bytes_iff.mpr (.inl ?_)) (spelled_digit hd _)
      rwa [pow_zero, Nat.mul_one]
    | letter c shift hc =>
      obtain ⟨written, hwritten, hlxd⟩ := writtenUnit_letter hc
      have harg : (memoryArg input).toList = ds ++ written.toList := by
        rw [memoryArg_concat hs, hwritten]
      rw [hspelled _ c hs, harg]
      exact iff_of_true ⟨ds, _, n, shift, rfl, hdecimal, hlxd, hv⟩ (spelled_letter hc _)
    | binary c i shift hc hi =>
      have hs' : (Text.trim input).toList = (ds ++ [c]) ++ [i] := by rw [hs, List.append_assoc]; rfl
      have harg : (memoryArg input).toList = ds ++ [c, i] ++ ['B'] := by
        rw [memoryArg_concat hs', List.append_assoc ds]
        rcases hi with rfl | rfl <;> rfl
      have hrev : (ds ++ [c]).reverse = c :: ds.reverse := by simp
      rw [hspelled _ i hs', harg, hrev]
      constructor
      · intro hlxd
        obtain ⟨front, c', hcs, hc'⟩ := lxdSize_kept hlxd
        rw [← hs, hs'] at hcs
        obtain ⟨hfront, hlast⟩ := List.append_inj' hcs rfl
        cases hlast
        cases hc' with
        | inl hc' => rcases hi with rfl | rfl <;> exact absurd hc' (by decide)
        | inr hc' =>
          obtain ⟨rfl, u, hu, front', hu'⟩ := hc'
          rw [← hfront] at hu'
          cases (List.append_inj' hu' rfl).2
          exact decide_eq_true hu
      · intro hspell
        cases hi with
        | inr hi =>
          rw [hi] at hspell
          cases hspell
        | inl hi =>
          rw [hi] at hspell ⊢
          obtain ⟨⟨c', shift'⟩, hmem, hc'⟩ := List.mem_map.mp (of_decide_eq_true hspell)
          cases hc'
          have hshift : shift' = shift := by
            have hletter : UnitLetter c' shift' := by
              simp only [lxdUnits, List.mem_cons, Prod.mk.injEq, List.not_mem_nil, or_false] at hmem
              rcases hmem with ⟨rfl, rfl⟩ | ⟨rfl, rfl⟩ | ⟨rfl, rfl⟩ | ⟨rfl, rfl⟩
              · exact ⟨'k', 'K', by decide, .inr rfl⟩
              · exact ⟨'m', 'M', by decide, .inr rfl⟩
              · exact ⟨'g', 'G', by decide, .inr rfl⟩
              · exact ⟨'t', 'T', by decide, .inr rfl⟩
            have hsame := (unitShift_eq_some.mpr hletter).symm.trans (unitShift_eq_some.mpr hc)
            exact Option.some.inj hsame
          exact lxdSize_bytes_iff.mpr (.inr ⟨ds, c', n, shift', rfl, hdecimal, hmem, by rw [hv, hshift]⟩)

theorem four_gib : LxdSize (memoryArg "4g").toList 4294967296 :=
  (memory_kept_iff (v := 4294967296) (by decide +kernel)).mpr (by decide +kernel)

/-- `4GB` is four gibibytes to `parse_size`, and nothing to LXD as `memory_arg` writes it. -/
theorem gigabytes_refused : parseSize "4GB" = .ok 4294967296 ∧ memoryArg "4GB" = "4GBB" ∧
    ¬∃ v, LxdSize (memoryArg "4GB").toList v := by
  have harg : memoryArg "4GB" = "4GBB" := by decide +kernel
  refine ⟨by decide +kernel, harg, ?_⟩
  rintro ⟨v, hv⟩
  rw [harg] at hv
  obtain ⟨front, c, hcs, hc⟩ := @lxdSize_kept [ '4', 'G', 'B'] v hv
  have hlast : front = ['4', 'G'] ∧ c = 'B' := by
    have hinj := @List.append_inj' Char [ '4', 'G'] [ 'B'] front [c] hcs rfl
    exact ⟨hinj.1.symm, (List.singleton_inj.mp hinj.2).symm⟩
  rw [hlast.2] at hc
  exact hc.elim (by decide) fun h => absurd h.1 (by decide)

end Collocate.Cluster
