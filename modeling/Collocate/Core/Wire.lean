import Collocate.Core.Error
import Collocate.Lib.Cutter

/-! # Frames (`collocate-core/src/wire.rs`)

A frame is the length of its payload, as four bytes with the highest first, and the payload. `readFrame`
reads one from a stream that ends behind the bytes it is given, and leaves what it has not read. -/
namespace Collocate
set_option autoImplicit false

def maxFrame : ℕ := 1 <<< 20

/-- `(n as u32).to_be_bytes()`. -/
def toBeBytes (n : ℕ) : List UInt8 :=
  [UInt8.ofNat (n / 2 ^ 24), UInt8.ofNat (n / 2 ^ 16), UInt8.ofNat (n / 2 ^ 8), UInt8.ofNat n]

/-- `u32::from_be_bytes`. -/
def fromBeBytes (bytes : List UInt8) : ℕ := bytes.foldl (fun n b => n * 2 ^ 8 + b.toNat) 0

theorem length_toBeBytes (n : ℕ) : (toBeBytes n).length = 4 := rfl

theorem fromBeBytes_toBeBytes (n : ℕ) (h : n < 2 ^ 32) : fromBeBytes (toBeBytes n) = n := by
  simp only [fromBeBytes, toBeBytes, List.foldl_cons, List.foldl_nil, UInt8.toNat_ofNat']
  omega

theorem toBeBytes_fromBeBytes (bytes : List UInt8) (h : bytes.length = 4) : toBeBytes (fromBeBytes bytes) = bytes := by
  obtain ⟨a, b, c, d, rfl⟩ := List.length_eq_four.mp h
  have ha := a.toNat_lt
  have hb := b.toNat_lt
  have hc := c.toNat_lt
  have hd := d.toNat_lt
  simp only [fromBeBytes, toBeBytes, List.foldl_cons, List.foldl_nil, List.cons.injEq, and_true,
    ← UInt8.toNat_inj, UInt8.toNat_ofNat']
  omega

/-- A payload with its length in front; the length is cut to 32 bits. -/
def frame (payload : List UInt8) : List UInt8 := toBeBytes payload.length ++ payload

def writeFrame (payload : List UInt8) : Result (List UInt8) :=
  if maxFrame < payload.length then .error (.frameTooLarge payload.length) else .ok (frame payload)

def unexpectedEof : Error := .io "unexpected end of file"

/-- `read_frame` up to the decoding of the payload. -/
def readPayload : Prog (List UInt8) (List UInt8) := fun s =>
  if s = [] then (.error .eof, [])
  else if s.length < 4 then (.error unexpectedEof, [])
  else
    let len := fromBeBytes (s.take 4)
    if maxFrame < len then (.error (.frameTooLarge len), s.drop 4)
    else if s.length < 4 + len then (.error unexpectedEof, [])
    else (.ok ((s.drop 4).take len), s.drop (4 + len))

def readFrame {α : Type} (decode : List UInt8 → Result α) : Prog (List UInt8) α := do
  let payload ← readPayload
  Eff.lift (decode payload)

/-- The payloads that `n` calls of `read_frame` yield, up to the first that reads none. -/
def readFrames : ℕ → List UInt8 → List (List UInt8)
  | 0, _ => []
  | n + 1, s =>
    match readPayload s with
    | (.ok payload, rest) => payload :: readFrames n rest
    | (.error _, _) => []

/-! ## Frames as items of a stream -/

theorem take_four_append {s : List UInt8} (h : 4 ≤ s.length) (t : List UInt8) : (s ++ t).take 4 = s.take 4 :=
  List.take_append_of_le_length h

def frames : Cutter UInt8 (List UInt8) where
  front s :=
    if s.length < 4 then .wait
    else if maxFrame < fromBeBytes (s.take 4) then .refuse
    else if s.length < 4 + fromBeBytes (s.take 4) then .wait
    else .item ((s.drop 4).take (fromBeBytes (s.take 4))) (s.drop (4 + fromBeBytes (s.take 4)))
  shorter s payload rest h := by
    split at h
    · cases h
    split at h
    · cases h
    split at h
    · cases h
    cases h
    simp only [List.length_drop]
    omega
  stable s t h := by
    by_cases h4 : s.length < 4
    · exact absurd (if_pos h4) h
    rw [if_neg h4] at h ⊢
    have hst : ¬(s ++ t).length < 4 := by simp only [List.length_append]; omega
    rw [if_neg hst, take_four_append (by omega)]
    by_cases hmax : maxFrame < fromBeBytes (s.take 4)
    · rw [if_pos hmax, if_pos hmax]
      rfl
    rw [if_neg hmax] at h ⊢
    rw [if_neg hmax]
    by_cases hlen : s.length < 4 + fromBeBytes (s.take 4)
    · exact absurd (if_pos hlen) h
    have hlen' : ¬(s ++ t).length < 4 + fromBeBytes (s.take 4) := by simp only [List.length_append]; omega
    rw [if_neg hlen, if_neg hlen', List.drop_append_of_le_length (by omega), List.drop_append_of_le_length (by omega),
      List.take_append_of_le_length (by simp only [List.length_drop]; omega)]
    rfl

theorem front_of_readPayload {s payload rest : List UInt8} (h : readPayload s = (.ok payload, rest)) :
    frames.front s = .item payload rest := by
  unfold readPayload at h
  show ite _ _ _ = _
  by_cases h0 : s = []
  · simp [h0] at h
  rw [if_neg h0] at h
  by_cases h4 : s.length < 4
  · simp [h4] at h
  rw [if_neg h4] at h ⊢
  by_cases hmax : maxFrame < fromBeBytes (s.take 4)
  · simp [hmax] at h
  by_cases hlen : s.length < 4 + fromBeBytes (s.take 4)
  · simp [hmax, hlen] at h
  simp only [if_neg hmax, if_neg hlen] at h ⊢
  cases h
  rfl

theorem front_of_readPayload_error {s rest : List UInt8} {e : Error} (h : readPayload s = (.error e, rest))
    (payload rest' : List UInt8) : frames.front s ≠ .item payload rest' := by
  intro hf
  change ite _ _ _ = _ at hf
  unfold readPayload at h
  by_cases h4 : s.length < 4
  · simp [h4] at hf
  have h0 : s ≠ [] := by
    intro h0
    simp [h0] at h4
  by_cases hmax : maxFrame < fromBeBytes (s.take 4)
  · simp [h4, hmax] at hf
  by_cases hlen : s.length < 4 + fromBeBytes (s.take 4)
  · simp [h4, hmax, hlen] at hf
  simp [h0, h4, hmax, hlen] at h

theorem bytes_of_front {s payload rest : List UInt8} (h : frames.front s = .item payload rest) :
    s = frame payload ++ rest := by
  change ite _ _ _ = _ at h
  split at h
  · cases h
  split at h
  · cases h
  split at h
  · cases h
  rename_i h4 hmax hlen
  cases h
  have hfour : (s.take 4).length = 4 := by rw [List.length_take]; omega
  have hpayload : ((s.drop 4).take (fromBeBytes (s.take 4))).length = fromBeBytes (s.take 4) := by
    rw [List.length_take, List.length_drop]
    omega
  calc s = s.take 4 ++ s.drop 4 := (List.take_append_drop 4 s).symm
    _ = s.take 4 ++ ((s.drop 4).take (fromBeBytes (s.take 4)) ++ (s.drop 4).drop (fromBeBytes (s.take 4))) := by
      rw [List.take_append_drop (fromBeBytes (s.take 4)) (s.drop 4)]
    _ = frame ((s.drop 4).take (fromBeBytes (s.take 4))) ++ s.drop (4 + fromBeBytes (s.take 4)) := by
      rw [frame, hpayload, toBeBytes_fromBeBytes _ hfour, List.drop_drop, List.append_assoc]

theorem front_frame_append {payload : List UInt8} (h : payload.length ≤ maxFrame) (rest : List UInt8) :
    frames.front (frame payload ++ rest) = .item payload rest := by
  have hmax : maxFrame < 2 ^ 32 := by decide
  have htake : (frame payload ++ rest).take 4 = toBeBytes payload.length := rfl
  have hlen : fromBeBytes (toBeBytes payload.length) = payload.length := fromBeBytes_toBeBytes _ (by omega)
  have hdrop : (frame payload ++ rest).drop 4 = payload ++ rest := rfl
  have htotal : (frame payload ++ rest).length = 4 + payload.length + rest.length := by
    simp [frame, length_toBeBytes, Nat.add_assoc]
  have h4 : ¬(frame payload ++ rest).length < 4 := by omega
  have hsmall : ¬maxFrame < payload.length := by omega
  have hall : ¬(frame payload ++ rest).length < 4 + payload.length := by omega
  simp only [frames, htake, hlen, if_neg h4, if_neg hsmall, if_neg hall, ← List.drop_drop, hdrop, List.take_left,
    List.drop_left]

theorem items_flatMap_frame {payloads : List (List UInt8)} (h : ∀ p ∈ payloads, p.length ≤ maxFrame) :
    frames.items (payloads.flatMap frame) = payloads := by
  induction payloads with
  | nil => exact Cutter.items_nil
  | cons p ps ih =>
    rw [List.flatMap_cons, Cutter.items_item (front_frame_append (h p (List.mem_cons_self ..)) _),
      ih fun q hq => h q (List.mem_cons_of_mem _ hq)]

/-- Enough calls of `read_frame` yield all the frames of a stream. -/
theorem readFrames_eq_items (n : ℕ) (s : List UInt8) (hn : s.length ≤ n) : readFrames n s = frames.items s := by
  induction n generalizing s with
  | zero =>
    obtain rfl : s = [] := List.length_eq_zero_iff.mp (by omega)
    exact Cutter.items_nil.symm
  | succ n ih =>
    rw [readFrames]
    rcases h : readPayload s with ⟨e | payload, rest⟩
    · exact (Cutter.items_stop (front_of_readPayload_error h)).symm
    · have hf := front_of_readPayload h
      have hlt := frames.shorter s payload rest hf
      show payload :: readFrames n rest = _
      rw [Cutter.items_item hf, ih rest (by omega)]

end Collocate
