import Mathlib.Algebra.Order.Group.Nat
import Mathlib.Data.Finset.Card
import Mathlib.Logic.Function.Basic
import Mathlib.Order.Interval.Finset.Nat

/-! # Linear probing

Keys take slots of a ring one after the other, each the first free one from its home on. Who takes which slot need not
be found by probing: a slot is taken as soon as the slots that end in it, for some number of them, are too few for what
is held there and for the keys whose homes are there. -/
namespace Collocate.Probing
set_option autoImplicit false

/-- The steps from a slot forward to another, on a ring of `n` slots. -/
def ahead (n s c : ℕ) : ℕ := if s ≤ c then c - s else c + n - s

/-- A key with this home takes the slot: it is free, and those from the home up to it are held. -/
def Takes (n : ℕ) (held : Finset ℕ) (home slot : ℕ) : Prop :=
  ∃ k < n, slot = (home + k) % n ∧ slot ∉ held ∧ ∀ j < k, (home + j) % n ∈ held

/-- Among the last `m + 1` slots up to `c`, the held ones and the homes are more than `m`. -/
def Crowded (n : ℕ) (held : Finset ℕ) (homes : List ℕ) (c : ℕ) : Prop :=
  ∃ m < n, m < (held.filter fun s => ahead n s c ≤ m).card + homes.countP fun h => ahead n h c ≤ m

/-- The slot gets crowded with the key number `j`. -/
def Fills (n : ℕ) (held : Finset ℕ) (homes : List ℕ) (j c : ℕ) : Prop :=
  Crowded n held (homes.take (j + 1)) c ∧ ¬Crowded n held (homes.take j) c

section Ring
variable {n : ℕ}

theorem add_mod_ring {h k : ℕ} (hh : h < n) (hk : k < n) : (h + k) % n = if h + k < n then h + k else h + k - n := by
  split
  · rename_i hlt
    exact Nat.mod_eq_of_lt hlt
  · rename_i hge
    rw [Nat.mod_eq_sub_mod (Nat.not_lt.mp hge), Nat.mod_eq_of_lt (by omega)]

theorem ahead_lt {s c : ℕ} (hs : s < n) (hc : c < n) : ahead n s c < n := by
  unfold ahead
  split <;> omega

theorem ahead_self (c : ℕ) : ahead n c c = 0 := by
  unfold ahead
  rw [if_pos (Nat.le_refl c), Nat.sub_self]

theorem ahead_inj {s t c : ℕ} (hs : s < n) (ht : t < n) (h : ahead n s c = ahead n t c) : s = t := by
  unfold ahead at h
  split at h <;> split at h <;> omega

theorem ahead_pos {s c : ℕ} (hs : s < n) (hne : s ≠ c) : 0 < ahead n s c := by
  unfold ahead
  split <;> omega

/-- The last of the steps from `h` to `c`. -/
theorem add_ahead {h c : ℕ} (hh : h < n) (hc : c < n) : (h + ahead n h c) % n = c := by
  rw [add_mod_ring hh (ahead_lt hh hc)]
  unfold ahead
  split <;> split <;> omega

/-- What is left of the way to `c` after some steps of it. -/
theorem ahead_add {h c k : ℕ} (hh : h < n) (hc : c < n) (hk : k ≤ ahead n h c) :
    ahead n ((h + k) % n) c = ahead n h c - k := by
  rw [add_mod_ring hh (hk.trans_lt (ahead_lt hh hc))]
  unfold ahead at *
  split at hk <;> split <;> split <;> omega

/-- Steps that go past `c` leave nearly the whole ring to go. -/
theorem ahead_past {h c k : ℕ} (hh : h < n) (hc : c < n) (hk : ahead n h c < k) (hkn : k < n) :
    ahead n ((h + k) % n) c = ahead n h c + n - k := by
  rw [add_mod_ring hh hkn]
  unfold ahead at *
  split at hk <;> split <;> split <;> omega

end Ring

/-! ## Crowding -/

section Crowding
variable {n : ℕ} {held : Finset ℕ} {homes : List ℕ} {h f c : ℕ}

theorem Crowded.of_held (hn : 0 < n) (hc : c ∈ held) : Crowded n held homes c := by
  refine ⟨0, hn, Nat.add_pos_left (Finset.card_pos.mpr ⟨c, ?_⟩) _⟩
  exact Finset.mem_filter.mpr ⟨hc, (ahead_self c).le⟩

/-- Without keys the crowded slots are the held ones. -/
theorem crowded_nil (hheld : ∀ s ∈ held, s < n) (hc : c < n) : Crowded n held [] c ↔ c ∈ held := by
  constructor
  · rintro ⟨m, -, hm⟩
    by_contra hfree
    have hcard : (held.filter fun s => ahead n s c ≤ m).card ≤ (Finset.Icc 1 m).card := by
      refine Finset.card_le_card_of_injOn (fun s => ahead n s c) (fun s hs => ?_) fun s hs t ht heq => ?_
      · obtain ⟨hmem, hle⟩ := Finset.mem_filter.mp hs
        have hne : s ≠ c := fun heq => hfree (heq ▸ hmem)
        exact Finset.mem_coe.mpr (Finset.mem_Icc.mpr ⟨ahead_pos (hheld s hmem) hne, hle⟩)
      · exact ahead_inj (hheld s (Finset.mem_filter.mp hs).1) (hheld t (Finset.mem_filter.mp ht).1) heq
    rw [Nat.card_Icc, Nat.add_sub_cancel] at hcard
    rw [List.countP_nil, Nat.add_zero] at hm
    omega
  · exact Crowded.of_held (Nat.zero_lt_of_lt hc)

/-- Slots that a key went by on its way widen what is counted by themselves. -/
theorem card_widen {m k : ℕ} (hh : h < n) (hc : c < n) (hm : m < ahead n h c) (hk : ahead n h c - m ≤ k)
    (hby : ∀ j < k, (h + j) % n ∈ held) :
    (held.filter fun s => ahead n s c ≤ m).card + (ahead n h c - m) ≤
      (held.filter fun s => ahead n s c ≤ ahead n h c).card := by
  let passed : Finset ℕ := (Finset.range (ahead n h c - m)).image fun j => (h + j) % n
  have hahead {j : ℕ} (hj : j < ahead n h c - m) : ahead n ((h + j) % n) c = ahead n h c - j :=
    ahead_add hh hc (by omega)
  have hcard : passed.card = ahead n h c - m := by
    rw [Finset.card_image_of_injOn, Finset.card_range]
    intro i hi j hj heq
    have hi' := hahead (Finset.mem_range.mp hi)
    have hj' := hahead (Finset.mem_range.mp hj)
    dsimp only at heq
    rw [heq, hj'] at hi'
    have := Finset.mem_range.mp hi
    have := Finset.mem_range.mp hj
    omega
  have hdisjoint : Disjoint (held.filter fun s => ahead n s c ≤ m) passed := by
    rw [Finset.disjoint_left]
    intro s hs hby
    obtain ⟨j, hj, rfl⟩ := Finset.mem_image.mp hby
    have hle := (Finset.mem_filter.mp hs).2
    have hj := Finset.mem_range.mp hj
    rw [hahead hj] at hle
    omega
  rw [← hcard, ← Finset.card_union_of_disjoint hdisjoint]
  refine Finset.card_le_card fun s hs => ?_
  rcases Finset.mem_union.mp hs with hs | hs
  · obtain ⟨hmem, hle⟩ := Finset.mem_filter.mp hs
    exact Finset.mem_filter.mpr ⟨hmem, by omega⟩
  · obtain ⟨j, hj, rfl⟩ := Finset.mem_image.mp hs
    have hj := Finset.mem_range.mp hj
    exact Finset.mem_filter.mpr ⟨hby j (by omega), by rw [hahead hj]; omega⟩

/-- A key that has taken its slot counts there as it counted in its home. -/
theorem crowded_cons (hh : h < n) (hc : c < n) (ht : Takes n held h f) :
    Crowded n held (h :: homes) c ↔ Crowded n (insert f held) homes c := by
  obtain ⟨k, hk, rfl, hfree, hby⟩ := ht
  have hgrow (m : ℕ) : (held.filter fun s => ahead n s c ≤ m).card ≤
      ((insert ((h + k) % n) held).filter fun s => ahead n s c ≤ m).card :=
    Finset.card_le_card (Finset.filter_subset_filter _ (Finset.subset_insert _ _))
  have hin {m : ℕ} (hle : ahead n ((h + k) % n) c ≤ m) :
      ((insert ((h + k) % n) held).filter fun s => ahead n s c ≤ m).card =
        (held.filter fun s => ahead n s c ≤ m).card + 1 := by
    rw [Finset.filter_insert, if_pos hle, Finset.card_insert_of_notMem]
    exact fun hmem => hfree (Finset.mem_filter.mp hmem).1
  constructor
  · rintro ⟨m, hm, hcount⟩
    rw [List.countP_cons] at hcount
    by_cases hhome : ahead n h c ≤ m
    · rw [if_pos (decide_eq_true hhome)] at hcount
      by_cases hle : ahead n ((h + k) % n) c ≤ m
      · exact ⟨m, hm, by rw [hin hle]; omega⟩
      · -- The key went past `c`, so `c` is held.
        have hpast : ahead n h c < k := by
          by_contra hnot
          rw [ahead_add hh hc (Nat.not_lt.mp hnot)] at hle
          omega
        have hheld := hby _ hpast
        rw [add_ahead hh hc] at hheld
        exact Crowded.of_held (Nat.zero_lt_of_lt hc) (Finset.mem_insert_of_mem hheld)
    · rw [if_neg (by simpa using hhome)] at hcount
      have := hgrow m
      exact ⟨m, hm, by omega⟩
  · rintro ⟨m, hm, hcount⟩
    by_cases hle : ahead n ((h + k) % n) c ≤ m
    · rw [hin hle] at hcount
      by_cases hhome : ahead n h c ≤ m
      · refine ⟨m, hm, ?_⟩
        rw [List.countP_cons, if_pos (decide_eq_true hhome)]
        omega
      · -- The key came into the count from before it, over slots that are held.
        have hbefore : k ≤ ahead n h c := by
          by_contra hnot
          rw [ahead_past hh hc (Nat.not_le.mp hnot) hk] at hle
          omega
        rw [ahead_add hh hc hbefore] at hle
        have hwide := card_widen hh hc (Nat.not_le.mp hhome) (by omega) hby
        have hmono : homes.countP (fun h => ahead n h c ≤ m) ≤ homes.countP fun h' => ahead n h' c ≤ ahead n h c := by
          refine List.countP_mono_left fun h' _ hle' => ?_
          simp only [decide_eq_true_eq] at hle' ⊢
          omega
        refine ⟨ahead n h c, ahead_lt hh hc, ?_⟩
        rw [List.countP_cons, if_pos (decide_eq_true (Nat.le_refl _))]
        omega
    · have hsame : ((insert ((h + k) % n) held).filter fun s => ahead n s c ≤ m) = held.filter fun s =>
        ahead n s c ≤ m := by
        rw [Finset.filter_insert, if_neg hle]
      rw [hsame] at hcount
      refine ⟨m, hm, ?_⟩
      rw [List.countP_cons]
      omega

end Crowding

/-! ## Who takes which slot -/

section Settling
variable {n : ℕ} {held : Finset ℕ} {homes : List ℕ} {h f c : ℕ}

theorem Takes.lt (ht : Takes n held h f) : f < n := by
  obtain ⟨k, hk, rfl, -⟩ := ht
  exact Nat.mod_lt _ (Nat.zero_lt_of_lt hk)

theorem Takes.bound (hheld : ∀ s ∈ held, s < n) (ht : Takes n held h f) : ∀ s ∈ insert f held, s < n := by
  intro s hs
  rcases Finset.mem_insert.mp hs with rfl | hs
  · exact ht.lt
  · exact hheld s hs

/-- The first key fills the slot it takes. -/
theorem fills_zero (hheld : ∀ s ∈ held, s < n) (hh : h < n) (hc : c < n) (ht : Takes n held h f) :
    Fills n held (h :: homes) 0 c ↔ c = f := by
  have hfree : f ∉ held := by
    obtain ⟨k, -, -, hfree, -⟩ := ht
    exact hfree
  unfold Fills
  rw [List.take_succ_cons, List.take_zero, List.take_zero, crowded_cons hh hc ht, crowded_nil (ht.bound hheld) hc,
    crowded_nil hheld hc, Finset.mem_insert]
  constructor
  · rintro ⟨rfl | hmem, hnot⟩
    · rfl
    · exact absurd hmem hnot
  · rintro rfl
    exact ⟨.inl rfl, hfree⟩

/-- The other keys find that slot held. -/
theorem fills_succ (hh : h < n) (hc : c < n) (ht : Takes n held h f) (j : ℕ) :
    Fills n held (h :: homes) (j + 1) c ↔ Fills n (insert f held) homes j c := by
  unfold Fills
  rw [List.take_succ_cons, List.take_succ_cons, crowded_cons hh hc ht, crowded_cons hh hc ht]

end Settling

/-! ## Serving keys in turn -/

section Serving
variable {κ α : Type} [DecidableEq κ] (n : ℕ) (home : κ → ℕ) (addr : ℕ → α)

/-- The keys get these addresses, one after the other: what a key `has` it keeps, and another one takes a slot. -/
inductive Serves : (κ → Option α) → Finset ℕ → List κ → List α → (κ → Option α) → Finset ℕ → Prop
  | nil (has : κ → Option α) (held : Finset ℕ) : Serves has held [] [] has held
  | kept {has has' : κ → Option α} {held held' : Finset ℕ} {k : κ} {ks : List κ} {a : α} {addrs : List α}
      (first : has k = some a) (rest : Serves has held ks addrs has' held') :
      Serves has held (k :: ks) (a :: addrs) has' held'
  | new {has has' : κ → Option α} {held held' : Finset ℕ} {k : κ} {ks : List κ} {slot : ℕ} {addrs : List α}
      (first : has k = none) (takes : Takes n held (home k) slot)
      (rest : Serves (Function.update has k (some (addr slot))) (insert slot held) ks addrs has' held') :
      Serves has held (k :: ks) (addr slot :: addrs) has' held'

/-- The keys that have no address yet, each where it is first asked for. -/
def newcomers (has : κ → Option α) : List κ → List κ
  | [] => []
  | k :: ks => if (has k).isSome then newcomers has ks else k :: (newcomers has ks).filter fun k' => decide (k' ≠ k)

/-- The slot is filled with the newcomer `k`. -/
def Reaches (has : κ → Option α) (held : Finset ℕ) (keys : List κ) (k : κ) (slot : ℕ) : Prop :=
  ∃ j, (newcomers has keys)[j]? = some k ∧ slot < n ∧ Fills n held ((newcomers has keys).map home) j slot

variable {n home addr} {has has' has'' : κ → Option α} {held held' held'' : Finset ℕ} {ks ks' : List κ}
  {addrs addrs' : List α}

theorem Serves.append (h : Serves n home addr has held ks addrs has' held')
    (h' : Serves n home addr has' held' ks' addrs' has'' held'') :
    Serves n home addr has held (ks ++ ks') (addrs ++ addrs') has'' held'' := by
  induction h with
  | nil => exact h'
  | kept first _ ih => exact .kept first (ih h')
  | new first takes _ ih => exact .new first takes (ih h')

theorem Serves.length (h : Serves n home addr has held ks addrs has' held') : addrs.length = ks.length := by
  induction h with
  | nil => rfl
  | kept _ _ ih => rw [List.length_cons, List.length_cons, ih]
  | new _ _ _ ih => rw [List.length_cons, List.length_cons, ih]

/-- A key that has got an address is no newcomer any more. -/
theorem newcomers_update {k : κ} {a : α} (ks : List κ) :
    newcomers (Function.update has k (some a)) ks = (newcomers has ks).filter fun k' => decide (k' ≠ k) := by
  induction ks with
  | nil => rfl
  | cons k' ks ih =>
    unfold newcomers
    rw [ih]
    by_cases hk : k' = k
    · subst hk
      rw [Function.update_self, Option.isSome_some, if_pos rfl]
      split
      · rfl
      · rw [List.filter_cons_of_neg (by simp), List.filter_filter]
        simp
    · rw [Function.update_of_ne hk]
      split
      · rfl
      · rw [List.filter_cons_of_pos (by simp [hk]), List.filter_filter, List.filter_filter]
        congr 2
        funext k''
        exact Bool.and_comm _ _

/-- The first newcomer fills the slot it takes; the others find that slot held. -/
theorem reaches_cons {k : κ} {slot : ℕ} (hheld : ∀ s ∈ held, s < n) (hhome : home k < n) (hnew : has k = none)
    (ht : Takes n held (home k) slot) (k' : κ) (s : ℕ) :
    Reaches n home has held (k :: ks) k' s ↔
      (k' = k ∧ s = slot) ∨ Reaches n home (Function.update has k (some (addr slot))) (insert slot held) ks k' s := by
  have hcons : newcomers has (k :: ks) = k :: newcomers (Function.update has k (some (addr slot))) ks := by
    rw [newcomers, hnew, Option.isSome_none, newcomers_update]
    rfl
  unfold Reaches
  rw [hcons]
  constructor
  · rintro ⟨j, hj, hs, hfills⟩
    cases j with
    | zero =>
      cases hj
      exact .inl ⟨rfl, (fills_zero hheld hhome hs ht).mp hfills⟩
    | succ j => exact .inr ⟨j, hj, hs, (fills_succ hhome hs ht j).mp hfills⟩
  · rintro (⟨rfl, rfl⟩ | ⟨j, hj, hs, hfills⟩)
    · exact ⟨0, rfl, ht.lt, (fills_zero hheld hhome ht.lt ht).mpr rfl⟩
    · exact ⟨j + 1, hj, hs, (fills_succ hhome hs ht j).mpr hfills⟩

/-- A newcomer alone, where nothing is held, gets its home. -/
theorem Reaches.alone {k k' : κ} {slot : ℕ} (hhome : home k < n) (hnew : has k = none)
    (h : Reaches n home has ∅ [k] k' slot) : k' = k ∧ slot = home k := by
  obtain ⟨j, hj, hs, hfills⟩ := h
  have hfirst : newcomers has [k] = [k] := by
    rw [newcomers, hnew]
    rfl
  have htakes : Takes n ∅ (home k) (home k) :=
    ⟨0, Nat.zero_lt_of_lt hhome, (Nat.mod_eq_of_lt hhome).symm, Finset.notMem_empty _, fun _ hj =>
      absurd hj (Nat.not_lt_zero _)⟩
  rw [hfirst] at hj hfills
  cases j with
  | zero =>
    cases hj
    exact ⟨rfl, (fills_zero (fun _ hs => absurd hs (Finset.notMem_empty _)) hhome hs htakes).mp hfills⟩
  | succ j => cases hj

/-- What is given out has a property when the addresses that keys have do, and the slots that newcomers reach. -/
theorem Serves.forall_iff (h : Serves n home addr has held ks addrs has' held') (hheld : ∀ s ∈ held, s < n)
    (hhome : 0 < n → ∀ k, home k < n) (P : κ → α → Prop) :
    (∀ e ∈ ks.zip addrs, P e.1 e.2) ↔
      (∀ k ∈ ks, ∀ a, has k = some a → P k a) ∧ ∀ k slot, Reaches n home has held ks k slot → P k (addr slot) := by
  induction h with
  | nil has held => simp [Reaches, newcomers]
  | @kept has has' held held' k ks a addrs first rest ih =>
    have hsame : newcomers has (k :: ks) = newcomers has ks := by
      rw [newcomers, first, Option.isSome_some, if_pos rfl]
    rw [List.zip_cons_cons, List.forall_mem_cons, ih hheld]
    unfold Reaches
    rw [hsame, List.forall_mem_cons, first]
    constructor
    · rintro ⟨hfirst, hhas, hreach⟩
      exact ⟨⟨fun b hb => Option.some.inj hb ▸ hfirst, hhas⟩, hreach⟩
    · rintro ⟨⟨hfirst, hhas⟩, hreach⟩
      exact ⟨hfirst a rfl, hhas, hreach⟩
  | @new has has' held held' k ks slot addrs first takes rest ih =>
    have hcons := @reaches_cons _ _ _ n home addr has held ks k slot hheld (hhome (Nat.zero_lt_of_lt takes.lt) k)
      first takes
    rw [List.zip_cons_cons, List.forall_mem_cons, ih (takes.bound hheld)]
    constructor
    · rintro ⟨hfirst, hhas, hreach⟩
      refine ⟨fun k' hk' a ha => ?_, fun k' s hs => ?_⟩
      · have hne : k' ≠ k := by
          rintro rfl
          rw [first] at ha
          cases ha
        refine hhas k' ((List.mem_cons.mp hk').resolve_left hne) a ?_
        rw [Function.update_of_ne hne]
        exact ha
      · rcases (hcons k' s).mp hs with ⟨rfl, rfl⟩ | hs
        · exact hfirst
        · exact hreach k' s hs
    · rintro ⟨hhas, hreach⟩
      have hfirst := hreach k slot ((hcons k slot).mpr (.inl ⟨rfl, rfl⟩))
      refine ⟨hfirst, fun k' hk' a ha => ?_, fun k' s hs => hreach k' s ((hcons k' s).mpr (.inr hs))⟩
      by_cases hk : k' = k
      · subst hk
        rw [Function.update_self] at ha
        exact Option.some.inj ha ▸ hfirst
      · rw [Function.update_of_ne hk] at ha
        exact hhas k' (List.mem_cons_of_mem _ hk') a ha

end Serving
end Collocate.Probing
