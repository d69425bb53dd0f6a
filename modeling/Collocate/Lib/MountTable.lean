import Mathlib.Data.List.Infix
import Mathlib.Data.Nat.Init

/-! # Mount tables

What is seen at a path when filesystems are mounted over one another. A mount lies on the mount that was seen at its
point, and looking at a path goes down its prefixes, at each to the mount that lies there. So what is seen at a path is
what was mounted last at or above it. -/
namespace Collocate.MountTable
set_option autoImplicit false

/-- A mount: the number of the mount it lies on, its point, and what is mounted. -/
structure Entry (α β : Type) where
  parent : ℕ
  point : List α
  what : β
  deriving DecidableEq, Repr

/-- The mounts in their order, numbered from one. The root has number zero. -/
abbrev Table (α β : Type) := List (Entry α β)

section Seen
variable {α β : Type} [DecidableEq α]

/-- The mount on top of mount `cur` at a point. A mount has a higher number than what it lies on. -/
def climb (q : List α) : Table α β → ℕ → ℕ → ℕ
  | [], _, cur => cur
  | e :: rest, n, cur => climb q rest (n + 1) (if e.parent = cur ∧ e.point = q then n else cur)

/-- The mount that is seen at a path, in a walk down its prefixes. -/
def seen (table : Table α β) (d : List α) : ℕ := d.inits.foldl (fun cur q => climb q table 1 cur) 0

/-- Mounting at a point. -/
def attach (table : Table α β) (p : List α) (what : β) : Table α β := table ++ [⟨seen table p, p, what⟩]

/-- What is mounted on top at a path. -/
def topmost (table : Table α β) (d : List α) : Option β :=
  match seen table d with
  | 0 => none
  | n + 1 => (table[n]?).map Entry.what

/-- No mount lies on one that is still to come. -/
def Ranked (table : Table α β) : Prop := ∀ e ∈ table, e.parent ≤ table.length

/-! ## Climbing -/

theorem climb_append (q : List α) (table : Table α β) (e : Entry α β) (n cur : ℕ) :
    climb q (table ++ [e]) n cur =
      if e.parent = climb q table n cur ∧ e.point = q then n + table.length else climb q table n cur := by
  induction table generalizing n cur with
  | nil => rfl
  | cons e' rest ih =>
    rw [List.cons_append, climb, ih, climb, List.length_cons]
    congr 1
    omega

theorem climb_le (q : List α) (table : Table α β) (n cur m : ℕ) (hcur : cur ≤ m) (hm : n + table.length ≤ m + 1) :
    climb q table n cur ≤ m := by
  induction table generalizing n cur with
  | nil => exact hcur
  | cons e rest ih =>
    rw [List.length_cons] at hm
    refine ih (n + 1) _ ?_ (by omega)
    split <;> omega

/-- Nothing lies on a mount that has no number yet. -/
theorem climb_new (q : List α) (table : Table α β) (n cur : ℕ) (h : ∀ e ∈ table, e.parent ≠ cur) :
    climb q table n cur = cur := by
  induction table generalizing n with
  | nil => rfl
  | cons e rest ih =>
    rw [climb, if_neg fun hon => h e List.mem_cons_self hon.1]
    exact ih _ fun e' he' => h e' (List.mem_cons_of_mem _ he')

/-! ## Walking -/

theorem seen_snoc (table : Table α β) (d : List α) (a : α) :
    seen table (d ++ [a]) = climb (d ++ [a]) table 1 (seen table d) := by
  unfold seen
  have hinits : (d ++ [a]).inits = d.inits ++ [d ++ [a]] := by
    rw [List.inits_append]
    rfl
  rw [hinits, List.foldl_append]
  rfl

theorem seen_le (table : Table α β) (d : List α) : seen table d ≤ table.length := by
  induction d using List.reverseRecOn with
  | nil => exact climb_le [] table 1 0 table.length (Nat.zero_le _) (by omega)
  | append_singleton d a ih =>
    rw [seen_snoc]
    exact climb_le (d ++ [a]) table 1 (seen table d) table.length ih (by omega)

theorem Ranked.attach {table : Table α β} (h : Ranked table) (p : List α) (what : β) :
    Ranked (attach table p what) := by
  intro e he
  have hlen : (MountTable.attach table p what).length = table.length + 1 := List.length_append
  rw [hlen]
  cases List.mem_append.mp he with
  | inl hold => exact (h e hold).trans (Nat.le_succ _)
  | inr hnew =>
    rw [List.mem_singleton.mp hnew]
    exact (seen_le table p).trans (Nat.le_succ _)

/-- A new mount is seen at its point and below it, and nowhere else. -/
theorem seen_attach {table : Table α β} (h : Ranked table) (p : List α) (what : β) (d : List α) :
    seen (attach table p what) d = if p <+: d then table.length + 1 else seen table d := by
  induction d using List.reverseRecOn with
  | nil =>
    show climb [] (table ++ [⟨seen table p, p, what⟩]) 1 0 = _
    rw [climb_append]
    by_cases hp : p = []
    · subst hp
      rw [if_pos ⟨rfl, rfl⟩, if_pos List.nil_prefix]
      omega
    · rw [if_neg fun hand => hp hand.2, if_neg fun hpre => hp (List.prefix_nil.mp hpre)]
      rfl
  | append_singleton d a ih =>
    rw [seen_snoc, ih]
    show climb (d ++ [a]) (table ++ [⟨seen table p, p, what⟩]) 1 _ = _
    rw [climb_append]
    have hpre : p <+: d ++ [a] ↔ p = d ++ [a] ∨ p <+: d := List.prefix_concat_iff
    by_cases hp : p <+: d
    · have hnew : climb (d ++ [a]) table 1 (table.length + 1) = table.length + 1 :=
        climb_new _ _ _ _ fun e he hparent => absurd (h e he) (by omega)
      have hparent : seen table p ≠ table.length + 1 := fun heq => absurd (seen_le table p) (by omega)
      rw [if_pos hp, hnew, if_neg fun hand => hparent hand.1, if_pos (hpre.mpr (Or.inr hp))]
    · rw [if_neg hp, ← seen_snoc]
      by_cases heq : p = d ++ [a]
      · subst heq
        rw [if_pos ⟨rfl, rfl⟩, if_pos (hpre.mpr (Or.inl rfl))]
        omega
      · rw [if_neg fun hand => heq hand.2, if_neg fun hor => (hpre.mp hor).elim heq hp]

theorem topmost_attach {table : Table α β} (h : Ranked table) (p : List α) (what : β) (d : List α) :
    topmost (attach table p what) d = if p <+: d then some what else topmost table d := by
  unfold topmost
  rw [seen_attach h]
  by_cases hp : p <+: d
  · rw [if_pos hp, if_pos hp]
    show ((table ++ [_])[table.length]?).map Entry.what = some what
    rw [List.getElem?_concat_length]
    rfl
  · rw [if_neg hp, if_neg hp]
    cases hseen : seen table d with
    | zero => rfl
    | succ n =>
      have hle := seen_le table d
      show ((table ++ [_])[n]?).map Entry.what = (table[n]?).map Entry.what
      rw [List.getElem?_append_left (by omega)]

end Seen
end Collocate.MountTable
