import SequenceTracking.PackedBits.Algebra
import SequenceTracking.PackedBits.Edit
import SequenceTracking.Storage.Lemmas

/-!
The operations on packed bits through the view `contains`. Looking for the lowest bit again changes no
bit, a run that fits is written exactly, and a bit-wise merge acts on each bit below the capacity.
-/
namespace SequenceTracking.PackedBits

@[simp] theorem capacity_rescan (b : PackedBits) (index : Nat) :
    (b.rescan index).capacity = b.capacity := rfl

@[simp] theorem storage_rescan (b : PackedBits) (index : Nat) :
    (b.rescan index).storage = b.storage := rfl

@[simp] theorem contains_rescan (b : PackedBits) (index i : Nat) :
    (b.rescan index).contains i = b.contains i := rfl

@[simp] theorem capacity_writeRun (b : PackedBits) (index count : Nat) (value : Bool) :
    (b.writeRun index count value).capacity = b.capacity := by
  simp only [writeRun]
  split
  · rfl
  · split
    · rfl
    · split <;> rfl

theorem storage_writeRun (b : PackedBits) {index count : Nat} (value : Bool) (some_bit : count ≠ 0) :
    (b.writeRun index count value).storage = b.storage.write index count value := by
  rw [writeRun, if_neg some_bit]
  simp only
  split
  · rfl
  · split <;> rfl

@[simp] theorem size_writeRun (b : PackedBits) (index count : Nat) (value : Bool) :
    (b.writeRun index count value).storage.size = b.storage.size := by
  by_cases none_at_all : count = 0
  · simp [writeRun, none_at_all]
  · rw [storage_writeRun _ _ none_at_all, Storage.size_write]

/-! ### Single bits -/

theorem insert_eq_insertRun (b : PackedBits) (index : Nat) : b.insert index = b.insertRun index 1 := by
  unfold insert
  unfold insertRun
  rw [if_neg Nat.one_ne_zero]
  by_cases outside : b.capacity ≤ index
  · rw [if_pos outside, if_pos (Nat.lt_succ_of_le outside)]
  · have lowest_eq : (if index < b.lowest then index else b.lowest) = min b.lowest index := by
      split <;> omega
    rw [if_neg outside, lowest_eq, if_neg (by omega), writeRun, if_neg Nat.one_ne_zero, Storage.write_one]
    rfl

theorem erase_eq_eraseRun (b : PackedBits) (index : Nat) : b.erase index = b.eraseRun index 1 := by
  unfold erase
  unfold eraseRun
  by_cases outside : b.capacity ≤ index
  · rw [if_pos outside, if_neg (Nat.not_lt_of_le outside)]
  · have one : min 1 (b.capacity - index) = 1 := by omega
    have at_lowest : index ≤ b.lowest ∧ b.lowest < index + 1 ↔ index = b.lowest := by omega
    rw [if_neg outside, if_pos (Nat.lt_of_not_le outside), one, writeRun, if_neg Nat.one_ne_zero,
      Storage.write_one]
    simp only [at_lowest, Bool.false_eq_true, if_false]

/-! ### Bits one by one -/

theorem contains_empty (capacity i : Nat) : (empty capacity).contains i = false := by
  simp [contains, empty, Storage.bit_zeros]

theorem contains_clear (b : PackedBits) (i : Nat) : b.clear.contains i = false := by
  simp [contains, clear, Storage.bit_zeros]

theorem contains_writeRun {b : PackedBits} (sized : b.storage.size = Byte.needed b.capacity)
    {index count : Nat} (fits : index + count ≤ b.capacity) (value : Bool) (i : Nat) :
    (b.writeRun index count value).contains i =
      if index ≤ i ∧ i < index + count then value else b.contains i := by
  by_cases none_at_all : count = 0
  · rw [if_neg (by omega)]
    simp [writeRun, none_at_all]
  · have stored : index + count ≤ 8 * b.storage.size := by
      simp only [sized, Byte.needed, Byte.width]
      omega
    rw [contains, capacity_writeRun, storage_writeRun _ _ none_at_all, Storage.bit_write_of_le stored]
    by_cases written : index ≤ i ∧ i < index + count
    · rw [if_pos written, if_pos written, decide_eq_true (by omega), Bool.true_and]
    · rw [if_neg written, if_neg written, contains]

@[simp] theorem capacity_fill (b : PackedBits) : b.fill.capacity = b.capacity :=
  capacity_writeRun _ _ _ _

theorem contains_fill {b : PackedBits} (sized : b.storage.size = Byte.needed b.capacity) (i : Nat) :
    b.fill.contains i = decide (i < b.capacity) := by
  have cleared : b.clear.storage.size = Byte.needed b.clear.capacity := by
    simpa [clear, Storage.zeros] using sized
  rw [fill, contains_writeRun cleared (by simp [clear]), contains_clear]
  by_cases inside : i < b.capacity <;> simp [inside]

theorem contains_combine {b : PackedBits} (sized : b.storage.size = Byte.needed b.capacity)
    {f : UInt8 → UInt8 → UInt8} {g : Bool → Bool → Bool} (bitwise : Byte.Bitwise f g)
    (other : PackedBits) {i : Nat} (inside : i < b.capacity) :
    (b.combine f other).contains i = g (b.contains i) (other.storage.bit i) := by
  have stored : i / 8 < b.storage.size := by
    simp only [sized, Byte.needed, Byte.width]
    omega
  simp only [contains, combine, inside, decide_true, Bool.true_and]
  rw [Storage.bit_combine bitwise _ _ stored]

end SequenceTracking.PackedBits
