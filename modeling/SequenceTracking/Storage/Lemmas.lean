import SequenceTracking.Byte.Lemmas
import SequenceTracking.Proofs.Search
import SequenceTracking.Storage

/-!
The storage operations through the view `bit`: what a write and a combination do to each bit, and the
scans as plain searches bit by bit.
-/
namespace SequenceTracking.Storage

open Search

theorem eq_of_byte {s t : Storage} (sized : s.size = t.size) (same : ∀ j, j < s.size → s.byte j = t.byte j) :
    s = t := by
  apply Array.ext sized
  intro j here there
  simpa [Storage.byte, here, there] using same j here

theorem eq_of_bit {s t : Storage} (sized : s.size = t.size) (same : ∀ i, s.bit i = t.bit i) :
    s = t := by
  apply eq_of_byte sized
  intro j _
  apply Byte.eq_of_test
  intro pos inside
  have bit := same (8 * j + pos)
  unfold Storage.bit at bit
  rwa [show (8 * j + pos) / 8 = j by omega, show (8 * j + pos) % 8 = pos by omega] at bit

theorem byte_of_size_le {s : Storage} {j : Nat} (past : s.size ≤ j) : s.byte j = 0 := by
  simp [byte, Array.getElem?_eq_none past]

theorem bit_of_size_le {s : Storage} {i : Nat} (past : 8 * s.size ≤ i) : s.bit i = false := by
  rw [bit, byte_of_size_le (by omega), Byte.test_zero]

theorem byte_zeros (size j : Nat) : (zeros size).byte j = 0 := by
  by_cases inside : j < size <;> simp [byte, zeros, inside]

theorem bit_zeros (size i : Nat) : (zeros size).bit i = false := by
  rw [bit, byte_zeros, Byte.test_zero]

theorem byte_modify (s : Storage) (change : UInt8 → UInt8) (j k : Nat) :
    byte (s.modify j change) k = if j = k ∧ k < s.size then change (s.byte k) else s.byte k := by
  by_cases inside : k < s.size
  · by_cases here : j = k <;> simp [byte, Array.getElem_modify, here, inside]
  · rw [byte_of_size_le (by simpa using inside), byte_of_size_le (by simpa using inside)]
    simp [inside]

section

variable {α : Type}

theorem size_modifyRun (change : Nat → α → α) (j n : Nat) (s : Array α) :
    (modifyRun change j n s).size = s.size := by
  induction n generalizing j s with
  | zero => rfl
  | succ n ih => simp [modifyRun, ih]

theorem getElem?_modifyRun (change : Nat → α → α) (j n : Nat) (s : Array α) (k : Nat) :
    (modifyRun change j n s)[k]? = if j ≤ k ∧ k < j + n then s[k]?.map (change k) else s[k]? := by
  induction n generalizing j s with
  | zero =>
    rw [if_neg (by omega)]
    rfl
  | succ n ih =>
    rw [modifyRun, ih, Array.getElem?_modify]
    by_cases here : j = k
    · subst here
      rw [if_neg (by omega), if_pos rfl, if_pos (by omega)]
    · rw [if_neg here]
      by_cases rest : j + 1 ≤ k ∧ k < j + 1 + n
      · rw [if_pos rest, if_pos (by omega)]
      · rw [if_neg rest, if_neg (by omega)]

end

theorem byte_modifyRun (change : Nat → UInt8 → UInt8) (j n : Nat) (s : Storage) (k : Nat) :
    byte (modifyRun change j n s) k =
      if j ≤ k ∧ k < j + n ∧ k < s.size then change k (s.byte k) else s.byte k := by
  unfold byte
  rw [Array.getD_eq_getD_getElem?, getElem?_modifyRun, Array.getD_eq_getD_getElem?]
  by_cases inside : k < s.size
  · by_cases changed : j ≤ k ∧ k < j + n
    · simp [changed, inside]
    · simp [changed, inside]
  · simp [inside]

@[simp] theorem size_write (s : Storage) (index count : Nat) (value : Bool) :
    (s.write index count value).size = s.size := size_modifyRun _ _ _ _

theorem test_runPart (index count j : Nat) {pos : Nat} (inside : pos < 8) :
    Byte.test (runPart index count j) pos =
      decide (index ≤ 8 * j + pos ∧ 8 * j + pos < index + count) := by
  rw [runPart, Byte.test_runMask (by omega) inside]
  congr 1
  apply propext
  omega

theorem bit_write (s : Storage) (index count : Nat) (value : Bool) (i : Nat) :
    (s.write index count value).bit i =
      if index ≤ i ∧ i < index + count ∧ i < 8 * s.size then value else s.bit i := by
  have inside : i % 8 < 8 := Nat.mod_lt _ (by decide)
  have split := Nat.div_add_mod i 8
  rw [bit, write, byte_modifyRun]
  by_cases touched : index / 8 ≤ i / 8 ∧
      i / 8 < index / 8 + (Byte.needed (index + count) - index / 8) ∧ i / 8 < s.size
  · rw [if_pos touched, Byte.test_put _ _ _ inside, test_runPart _ _ _ inside, split]
    by_cases written : index ≤ i ∧ i < index + count
    · rw [if_pos (by simpa using written), if_pos (by omega)]
    · rw [if_neg (by simpa using written), if_neg (by omega), bit]
  · rw [if_neg touched, if_neg, bit]
    simp only [Byte.needed, Byte.width] at touched
    omega

theorem bit_write_of_le {s : Storage} {index count : Nat} (inside : index + count ≤ 8 * s.size) (value : Bool)
    (i : Nat) :
    (s.write index count value).bit i = if index ≤ i ∧ i < index + count then value else s.bit i := by
  rw [bit_write]
  by_cases written : index ≤ i ∧ i < index + count
  · rw [if_pos written, if_pos (by omega)]
  · rw [if_neg written, if_neg (by omega)]

theorem write_one (s : Storage) (index : Nat) (value : Bool) :
    s.write index 1 value = s.writeBit index value := by
  have bytes : Byte.needed (index + 1) - index / 8 = 1 := by
    simp only [Byte.needed, Byte.width]
    omega
  have part : runPart index 1 (index / 8) = Byte.mask (index % 8) := by
    have low : min (index - 8 * (index / 8)) 8 = index % 8 := by omega
    have high : min (index + 1 - 8 * (index / 8)) 8 - index % 8 = 1 := by omega
    unfold runPart
    simp only [low, high]
    exact Byte.runMask_one (Nat.mod_lt _ (by decide))
  rw [write, bytes, modifyRun, modifyRun, part, writeBit]

@[simp] theorem size_combine (f : UInt8 → UInt8 → UInt8) (s t : Storage) :
    (s.combine f t).size = s.size := by simp [combine]

theorem byte_combine (f : UInt8 → UInt8 → UInt8) (s t : Storage) {j : Nat} (inside : j < s.size) :
    (s.combine f t).byte j = f (s.byte j) (t.byte j) := by
  simp [byte, combine, inside]

theorem bit_combine {f : UInt8 → UInt8 → UInt8} {g : Bool → Bool → Bool}
    (bitwise : Byte.Bitwise f g) (s t : Storage) {i : Nat} (inside : i / 8 < s.size) :
    (s.combine f t).bit i = g (s.bit i) (t.bit i) := by
  rw [bit, byte_combine _ _ _ inside, bitwise _ _ _ (Nat.mod_lt _ (by decide)), bit, bit]

/-! ### Scans -/

theorem least?_byte (view : UInt8 → UInt8) (s : Storage) (j pos : Nat) :
    least? (fun i => Byte.test (view (s.byte (i / 8))) (i % 8)) (8 * j + pos) (8 - pos) =
      (Byte.lowestFrom? (view (s.byte j)) pos).map (8 * j + ·) := by
  apply least?_reindex
  · intro k _
    exact (Nat.add_assoc _ _ _).symm
  · intro k inside
    have same_byte : (8 * j + pos + k) / 8 = j := by omega
    have same_bit : (8 * j + pos + k) % 8 = pos + k := by omega
    rw [same_byte, same_bit]

theorem greatest?_byte (s : Storage) (j : Nat) {pos : Nat} (inside : pos < 8) :
    greatest? s.bit (8 * j) (pos + 1) = (Byte.highestUpTo? (s.byte j) pos).map (8 * j + ·) := by
  have whole : min (pos + 1) Byte.width = pos + 1 := Nat.min_eq_left inside
  rw [Byte.highestUpTo?, whole]
  apply greatest?_reindex
  · intro k _
    rw [Nat.zero_add]
  · intro k near
    have same_byte : (8 * j + k) / 8 = j := by omega
    have same_bit : (8 * j + k) % 8 = 0 + k := by omega
    rw [bit, same_byte, same_bit]

theorem nextUnder?_eq (view : UInt8 → UInt8) (s : Storage) {index : Nat}
    (inside : index < 8 * s.size) :
    s.nextUnder? view index =
      least? (fun i => Byte.test (view (s.byte (i / 8))) (i % 8)) index (8 * s.size - index) := by
  have block : ∀ j, least? (fun i => Byte.test (view (s.byte (i / 8))) (i % 8)) (8 * j) 8 =
      if view (s.byte j) != 0 then some (8 * j + Byte.lowest (view (s.byte j))) else none := by
    intro j
    have whole := least?_byte view s j 0
    rw [Byte.lowestFrom?_whole, Nat.add_zero, Nat.sub_zero] at whole
    rw [whole]
    split <;> rfl
  have parts : 8 * s.size - index = 8 - index % 8 + 8 * (s.size - (index / 8 + 1)) := by omega
  have next : index + (8 - index % 8) = 8 * (index / 8 + 1) := by omega
  have first := least?_byte view s (index / 8) (index % 8)
  rw [Nat.div_add_mod] at first
  rw [parts, least?_append, first, next, least?_blocks block, nextUnder?]
  cases Byte.lowestFrom? (view (s.byte (index / 8))) (index % 8) <;> rfl

theorem next?_eq (s : Storage) {index : Nat} (inside : index < 8 * s.size) :
    s.next? index = least? s.bit index (8 * s.size - index) := nextUnder?_eq id s inside

theorem nextGap?_eq (s : Storage) {index : Nat} (inside : index < 8 * s.size) :
    s.nextGap? index = least? (fun i => !s.bit i) index (8 * s.size - index) := by
  rw [nextGap?, nextUnder?_eq _ s inside]
  congr 1
  funext i
  exact Byte.test_not _ (Nat.mod_lt _ (by decide))

theorem prev?_eq (s : Storage) {floor index : Nat} (above : floor ≤ index / 8) :
    s.prev? floor index = greatest? s.bit (8 * floor) (index + 1 - 8 * floor) := by
  have block : ∀ j, greatest? s.bit (8 * j) 8 =
      if s.byte j != 0 then some (8 * j + Byte.highest (s.byte j)) else none := by
    intro j
    have whole := greatest?_byte s j (show Byte.width - 1 < 8 by decide)
    rw [Byte.highestUpTo?_whole] at whole
    refine whole.trans ?_
    split <;> rfl
  have parts : index + 1 - 8 * floor = 8 * (index / 8 - floor) + (index % 8 + 1) := by omega
  have last : 8 * floor + 8 * (index / 8 - floor) = 8 * (index / 8) := by omega
  rw [parts, greatest?_append, last, greatest?_byte s _ (Nat.mod_lt _ (by decide)), greatest?_blocks block, prev?]
  cases Byte.highestUpTo? (s.byte (index / 8)) (index % 8) <;> rfl

end SequenceTracking.Storage
