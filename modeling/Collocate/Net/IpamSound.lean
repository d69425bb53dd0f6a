import Mathlib.Data.Set.Finite.Basic
import Collocate.Net.IpamChecked

/-! # The two maps of the address management

`byOwner` and `byAddr` are inverse to each other, and every address that is given out can be assigned in
the subnet. Every method keeps this, whether it is called on a fresh `Ipam` or on a rebuilt one. -/
namespace Collocate.Ipam
set_option autoImplicit false

structure Sound (m : Ipam) (n : Subnet) : Prop where
  subnet : m.subnet = n
  valid : m.subnet.Valid
  inverse : ∀ owner addr, m.byOwner owner = some addr ↔ m.byAddr addr = some owner
  assignable : ∀ owner addr, m.byOwner owner = some addr →
    n.network.toNat + 2 ≤ addr.bits.toNat ∧ addr.bits.toNat ≤ n.broadcast.toNat - 1

theorem new_sound {n : Subnet} (h : n.Valid) : (new n).Sound n :=
  ⟨rfl, h, fun _ _ => ⟨fun h => (by cases h), fun h => by cases h⟩, fun _ _ h => by cases h⟩

/-! ## Reserving and releasing -/

section Reserve
variable {n : Subnet} {m m' : Ipam} {addr : Ipv4Addr} {owner : String}

/-- What a successful `reserve` has checked and done. -/
theorem reserve_ok (h : m.reserve addr owner = .ok m') :
    (m.first ≤ addr.bits ∧ addr.bits ≤ m.last) ∧ (∀ other, m.byAddr addr = some other → other = owner) ∧
      m'.subnet = m.subnet ∧ m'.byOwner = Function.update m.byOwner owner (some addr) ∧
      m'.byAddr = Function.update (fun a => if m.byOwner owner = some a ∧ a ≠ addr then none else m.byAddr a) addr
        (some owner) := by
  unfold reserve at h
  split at h
  · cases h
  rename_i hrange
  simp only [Bool.or_eq_true, Bool.not_eq_true', decide_eq_true_eq, not_or, UInt32.not_lt] at hrange
  split at h
  · cases h
  rename_i hfree
  rw [Option.filter_eq_none_iff] at hfree
  cases h
  refine ⟨⟨hrange.1.2, hrange.2⟩, fun other hother => ?_, rfl, rfl, ?_⟩
  · simpa using hfree other hother
  · cases hold : m.byOwner owner with
    | none => simp
    | some old =>
      by_cases hne : old = addr
      · subst hne
        funext a
        by_cases ha : a = old
        · simp [ha]
        · simp [ha, Ne.symm ha, Option.filter]
      · simp only [Option.filter, hne, ne_eq, not_false_eq_true, decide_true, if_true]
        funext a
        by_cases ha : a = addr
        · simp [ha]
        · by_cases hao : a = old
          · simp [hao, hne]
          · simp [ha, hao, Ne.symm hao]

theorem reserve_sound (hm : m.Sound n) (h : m.reserve addr owner = .ok m') : m'.Sound n := by
  obtain ⟨hrange, hfree, hsubnet, howner, haddr⟩ := reserve_ok h
  refine ⟨hsubnet.trans hm.subnet, hsubnet ▸ hm.valid, fun o a => ?_, fun o a ho => ?_⟩
  · rw [howner, haddr]
    by_cases ho : o = owner
    · subst ho
      rw [Function.update_self]
      by_cases ha : a = addr
      · simp [ha]
      · rw [Function.update_of_ne ha]
        simp only [ha, ne_eq, not_false_eq_true, and_true, Option.some.injEq, Ne.symm ha, false_iff]
        split
        · simp
        · rename_i hnot
          rw [← hm.inverse]
          exact hnot
    · rw [Function.update_of_ne ho]
      by_cases ha : a = addr
      · subst ha
        rw [Function.update_self, hm.inverse]
        constructor
        · intro hother
          exact absurd (hfree o hother) ho
        · intro heq
          exact absurd (Option.some.inj heq).symm ho
      · rw [Function.update_of_ne ha]
        split
        · rename_i hold
          rw [hm.inverse, (hm.inverse _ _).mp hold.1]
          simp [Ne.symm ho]
        · exact hm.inverse o a
  · rw [howner] at ho
    by_cases heq : o = owner
    · subst heq
      rw [Function.update_self] at ho
      cases ho
      have hfirst := first_toNat hm.valid
      have hlast := last_toNat hm.valid
      have hbroadcast := Subnet.broadcast_toNat hm.valid
      rw [UInt32.le_iff_toNat_le, UInt32.le_iff_toNat_le] at hrange
      rw [← hm.subnet]
      omega
    · rw [Function.update_of_ne heq] at ho
      exact hm.assignable o a ho

theorem release_sound (hm : m.Sound n) (owner : String) : (m.release owner).Sound n := by
  unfold release
  split
  · rename_i addr hold
    refine ⟨hm.subnet, hm.valid, fun o a => ?_, fun o a ho => ?_⟩
    · by_cases ho : o = owner
      · subst ho
        simp only [Function.update_self, reduceCtorEq, false_iff]
        by_cases ha : a = addr
        · simp [ha]
        · rw [Function.update_of_ne ha, ← hm.inverse, hold]
          simp [Ne.symm ha]
      · simp only [Function.update_of_ne ho]
        by_cases ha : a = addr
        · subst ha
          rw [Function.update_self, hm.inverse, (hm.inverse _ _).mp hold]
          simp [Ne.symm ho]
        · rw [Function.update_of_ne ha]
          exact hm.inverse o a
    · by_cases heq : o = owner
      · subst heq
        simp at ho
      · simp only [Function.update_of_ne heq] at ho
        exact hm.assignable o a ho
  · exact hm

end Reserve

/-! ## Allocating -/

section Allocate
variable {n : Subnet} {m m' : Ipam} {addr : Ipv4Addr} {owner : String}

theorem reserve_bind_sound {a : Ipv4Addr} (hm : m.Sound n)
    (h : (do let m' ← m.reserve a owner; .ok (a, m') : Result (Ipv4Addr × Ipam)) = .ok (addr, m')) : m'.Sound n := by
  obtain ⟨m₁, hreserve, hok⟩ := Result.bind_ok h
  cases hok
  exact reserve_sound hm hreserve

theorem allocateFrom_sound (hm : m.Sound n) {left : ℕ} {cur : UInt32}
    (h : m.allocateFrom owner left cur = .ok (addr, m')) : m'.Sound n := by
  induction left generalizing cur with
  | zero => cases h
  | succ left ih =>
    unfold allocateFrom at h
    split at h
    · exact reserve_bind_sound hm h
    · exact ih h

theorem allocate_sound (hm : m.Sound n) (h : m.allocate owner = .ok (addr, m')) : m'.Sound n := by
  unfold allocate at h
  split at h
  · cases h
    exact hm
  · exact allocateFrom_sound hm h

theorem probeFrom_sound (hm : m.Sound n) {start len base step : UInt32} {left : ℕ}
    (h : m.probeFrom owner start len base left step = .ok (addr, m')) : m'.Sound n := by
  induction left generalizing step with
  | zero => cases h
  | succ left ih =>
    unfold probeFrom at h
    dsimp only at h
    split at h
    · exact reserve_bind_sound hm h
    · exact ih h

theorem probe_sound (hm : m.Sound n) {start len base : UInt32} (h : m.probe owner start len base = .ok (addr, m')) :
    m'.Sound n := by
  unfold probe at h
  split at h
  · cases h
  · exact probeFrom_sound hm h

variable {sha256 : List UInt8 → List UInt8}

theorem forService_sound (hm : m.Sound n) {project service : String} {index : UInt32}
    (h : m.forService sha256 project service index = .ok (addr, m')) : m'.Sound n := by
  unfold forService at h
  dsimp only at h
  split at h
  · cases h
    exact hm
  · exact probe_sound hm h

theorem vip_sound (hm : m.Sound n) {project lb : String} (h : m.vip sha256 project lb = .ok (addr, m')) :
    m'.Sound n := by
  unfold vip at h
  dsimp only at h
  split at h
  · cases h
    exact hm
  · split at h
    · cases h
    · exact probe_sound hm h

end Allocate

/-! ## Every call -/

/-- The methods, with their arguments; those of the second row only look. -/
inductive Call
  | reserve (addr : Ipv4Addr) (owner : String)
  | release (owner : String)
  | allocate (owner : String)
  | forService (project service : String) (index : UInt32)
  | vip (project lb : String)
  | gateway
  | contains (addr : Ipv4Addr)
  | isVip (addr : Ipv4Addr)

def Call.run (sha256 : List UInt8 → List UInt8) : Call → Method Unit
  | .reserve addr owner => Checked.reserve addr owner
  | .release owner => Checked.release owner
  | .allocate owner => Checked.allocate owner >>= fun _ => pure ()
  | .forService project service index => Checked.forService sha256 project service index >>= fun _ => pure ()
  | .vip project lb => Checked.vip sha256 project lb >>= fun _ => pure ()
  | .gateway => Checked.gateway >>= fun _ => pure ()
  | .contains addr => Checked.contains addr >>= fun _ => pure ()
  | .isVip addr => Checked.isVip addr >>= fun _ => pure ()

/-- The call did not overflow, kept the maps sound, and changed nothing if it was refused. -/
structure Kept (n : Subnet) (m : Ipam) (r : Except (Fault Error) Unit × Ipam) : Prop where
  no_overflow : r.1 ≠ .error .overflow
  sound : r.2.Sound n
  refused : ∀ e, r.1 = .error e → r.2 = m

theorem kept_of_ok {n : Subnet} {m m' : Ipam} (h : m'.Sound n) : Kept n m (.ok (), m') :=
  ⟨fun h => (by cases h), h, fun _ h => by cases h⟩

theorem kept_of_settle {α : Type} {n : Subnet} {m : Ipam} (hm : m.Sound n) {method : Method α} {r : Result (α × Ipam)}
    (hmethod : method m = Checked.settle m r) (hr : ∀ a m', r = .ok (a, m') → m'.Sound n) :
    Kept n m ((method >>= fun _ => pure ()) m) := by
  cases r with
  | ok p =>
    have hrun : method m = (.ok p.1, p.2) := hmethod
    rw [Eff.bind_of_ok hrun]
    exact kept_of_ok (hr p.1 p.2 rfl)
  | error e =>
    have hrun : method m = (.error (.refused e), m) := hmethod
    rw [Eff.bind_of_error hrun]
    exact ⟨fun h => (by cases h), hm, fun _ _ => rfl⟩

theorem reserve_kept {n : Subnet} {m : Ipam} (hm : m.Sound n) (addr : Ipv4Addr) (owner : String) :
    Kept n m (Checked.reserve addr owner m) := by
  rw [Checked.reserve_eq hm.valid]
  cases h : m.reserve addr owner with
  | ok m' => exact kept_of_ok (reserve_sound hm h)
  | error e => exact ⟨fun h => (by cases h), hm, fun _ _ => rfl⟩

theorem call_kept (sha256 : List UInt8 → List UInt8) {n : Subnet} {m : Ipam} (hm : m.Sound n) (call : Call) :
    Kept n m (call.run sha256 m) := by
  cases call with
  | reserve addr owner => exact reserve_kept hm addr owner
  | release owner =>
    rw [Call.run, Checked.release_eq]
    exact kept_of_ok (release_sound hm owner)
  | allocate owner => exact kept_of_settle hm (Checked.allocate_eq hm.valid owner) fun _ _ => allocate_sound hm
  | forService project service index =>
    exact kept_of_settle hm (Checked.forService_eq hm.valid sha256 project service index) fun _ _ => forService_sound hm
  | vip project lb => exact kept_of_settle hm (Checked.vip_eq hm.valid sha256 project lb) fun _ _ => vip_sound hm
  | gateway =>
    rw [Call.run, Eff.bind_of_ok (Checked.gateway_eq hm.valid)]
    exact kept_of_ok hm
  | contains addr =>
    rw [Call.run, Eff.bind_of_ok (Checked.contains_eq hm.valid addr)]
    exact kept_of_ok hm
  | isVip addr =>
    rw [Call.run, Eff.bind_of_ok (Checked.isVip_eq hm.valid addr)]
    exact kept_of_ok hm

/-- The `Ipam` after a sequence of calls, of which some may have been refused. -/
def after (sha256 : List UInt8 → List UInt8) (calls : List Call) (m : Ipam) : Ipam :=
  calls.foldl (fun m call => (call.run sha256 m).2) m

theorem after_sound (sha256 : List UInt8 → List UInt8) (calls : List Call) {n : Subnet} {m : Ipam} (hm : m.Sound n) :
    (after sha256 calls m).Sound n := by
  induction calls generalizing m with
  | nil => exact hm
  | cons call calls ih => exact ih (call_kept sha256 hm call).sound

theorem rebuild_kept {n : Subnet} (h : n.Valid) (entries : List (String × Ipv4Addr)) :
    (Checked.rebuild n entries).1 ≠ .error .overflow ∧ (Checked.rebuild n entries).2.Sound n := by
  have hreserve (e : String × Ipv4Addr) :
      Eff.Triple (fun m => m.Sound n) (Checked.reserve e.2 e.1) (fun _ m => m.Sound n) fun fault m =>
        fault ≠ .overflow ∧ m.Sound n := by
    intro m hm
    have hkept := reserve_kept hm e.2 e.1
    rcases hrun : Checked.reserve e.2 e.1 m with ⟨fault | _, m'⟩ <;> rw [hrun] at hkept
    · exact ⟨fun hoverflow => hkept.no_overflow (congrArg _ hoverflow), hkept.sound⟩
    · exact hkept.sound
  have hall := Eff.Triple.forM (J := fun _ m => m.Sound n) (fun e _ => hreserve e) entries (new n) (new_sound h)
  unfold Checked.rebuild
  rcases hrun : entries.forM (fun e => Checked.reserve e.2 e.1) (new n) with ⟨fault | _, m'⟩ <;> rw [hrun] at hall
  · exact ⟨fun hoverflow => hall.1 (Except.error.inj hoverflow), hall.2⟩
  · exact ⟨fun hoverflow => (by cases hoverflow), hall⟩

theorem finite_of_sound {n : Subnet} {m : Ipam} (hm : m.Sound n) : {owner | (m.byOwner owner).isSome}.Finite := by
  refine Set.Finite.of_injOn (f := fun owner => ((m.byOwner owner).getD ⟨0⟩).bits.toNat) (t := {n | n < 2 ^ 32})
    (fun _ _ => UInt32.toNat_lt _) ?_ (Set.finite_lt_nat _)
  intro o₁ h₁ o₂ h₂ heq
  obtain ⟨a₁, ha₁⟩ := Option.isSome_iff_exists.mp h₁
  obtain ⟨a₂, ha₂⟩ := Option.isSome_iff_exists.mp h₂
  have haddr : a₁ = a₂ := by
    cases a₁
    cases a₂
    simpa [ha₁, ha₂, UInt32.toNat_inj] using heq
  have howner := (hm.inverse o₂ a₂).mp ha₂
  rw [← haddr, (hm.inverse o₁ a₁).mp ha₁] at howner
  exact Option.some.inj howner

/-- On every subnet that `parse` accepts, from `new` or a rebuild and through any calls: the two maps are
inverse and finite, every address given out can be assigned, a refused call changes nothing, and nothing
overflows. -/
theorem ipam_sound (sha256 : List UInt8 → List UInt8) {s : String} {subnet : Subnet} (hs : Subnet.parse s = .ok subnet)
    {m₀ : Ipam} (hstart : m₀ = new subnet ∨ ∃ entries, Checked.rebuild subnet entries = (.ok (), m₀))
    (calls : List Call) :
    let m := after sha256 calls m₀
    (∀ owner addr, m.byOwner owner = some addr ↔ m.byAddr addr = some owner) ∧
      {owner | (m.byOwner owner).isSome}.Finite ∧
      (∀ owner addr, m.byOwner owner = some addr →
        subnet.network.toNat + 2 ≤ addr.bits.toNat ∧ addr.bits.toNat ≤ subnet.broadcast.toNat - 1) ∧
      (∀ call e, (Call.run sha256 call m).1 = .error e → (Call.run sha256 call m).2 = m) ∧
      (∀ call, (Call.run sha256 call m).1 ≠ .error .overflow) ∧
      ∀ entries, (Checked.rebuild subnet entries).1 ≠ .error .overflow := by
  intro m
  have hvalid := Subnet.parse_valid hs
  have hm₀ : m₀.Sound subnet := by
    rcases hstart with rfl | ⟨entries, hrebuild⟩
    · exact new_sound hvalid
    · have hkept := (rebuild_kept hvalid entries).2
      rw [hrebuild] at hkept
      exact hkept
  have hm := after_sound sha256 calls hm₀
  refine ⟨hm.inverse, finite_of_sound hm, hm.assignable, fun call => ?_, fun call => ?_, fun entries => ?_⟩
  · exact (call_kept sha256 hm call).refused
  · exact (call_kept sha256 hm call).no_overflow
  · exact (rebuild_kept hvalid entries).1

theorem ipam_sound_small :
    let m := after id [.allocate "b", .reserve ⟨0x0a000003⟩ "c"]
      (Checked.rebuild ⟨0x0a000000, 29⟩ [("a", ⟨0x0a000002⟩)]).2
    m.byOwner "b" = some ⟨0x0a000003⟩ ∧ m.byAddr ⟨0x0a000003⟩ = some "b" := by
  intro m
  have hsubnet : Subnet.parse "10.0.0.0/29" = .ok ⟨0x0a000000, 29⟩ := by decide +kernel
  have hrebuild : (Checked.rebuild ⟨0x0a000000, 29⟩ [("a", ⟨0x0a000002⟩)]).1 = .ok () := by decide +kernel
  have hsound := ipam_sound id hsubnet (Or.inr ⟨_, Prod.ext hrebuild rfl⟩)
    [.allocate "b", .reserve ⟨0x0a000003⟩ "c"]
  have howner : m.byOwner "b" = some ⟨0x0a000003⟩ := by decide +kernel
  exact ⟨howner, (hsound.1 "b" ⟨0x0a000003⟩).mp howner⟩

end Collocate.Ipam
