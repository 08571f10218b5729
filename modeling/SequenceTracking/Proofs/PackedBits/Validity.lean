import SequenceTracking.Proofs.PackedBits.Scan

/-!
Edits keep packed bits valid. A run that fits leaves the unused bits clear; the lowest index moves down
to a run that is set before it, and is looked for again past a run that is cleared over it.
-/
namespace SequenceTracking.PackedBits

variable {b : PackedBits}

theorem empty_valid (capacity : Nat) : (empty capacity).Valid where
  size := by simp [empty, Storage.zeros]
  padding i _ := Storage.bit_zeros _ i
  lowest_le := Nat.le_refl _
  below_lowest i _ := Storage.bit_zeros _ i
  at_lowest below := absurd below (Nat.lt_irrefl _)

theorem create_valid {memory : Memory} {capacity : Nat} (made : create memory capacity = .ok b) :
    b.Valid ∧ b.capacity = capacity ∧ ∀ i, b.contains i = false := by
  unfold create at made
  split at made
  · obtain rfl := Except.ok.inj made
    exact ⟨empty_valid capacity, rfl, contains_empty capacity⟩
  · cases made

theorem clear_valid (valid : b.Valid) : b.clear.Valid where
  size := by simpa [clear, Storage.zeros] using valid.size
  padding i _ := Storage.bit_zeros _ i
  lowest_le := Nat.le_refl _
  below_lowest i _ := Storage.bit_zeros _ i
  at_lowest below := absurd below (Nat.lt_irrefl _)

@[simp] theorem capacity_clear (b : PackedBits) : b.clear.capacity = b.capacity := rfl

theorem packed_writeRun (packed : b.Packed) {index count : Nat} (fits : index + count ≤ b.capacity)
    (value : Bool) : (b.writeRun index count value).Packed := by
  refine ⟨by rw [size_writeRun, capacity_writeRun, packed.size], ?_⟩
  intro i past
  rw [capacity_writeRun] at past
  by_cases none_at_all : count = 0
  · simpa [writeRun, none_at_all] using packed.padding i past
  · rw [storage_writeRun _ _ none_at_all, Storage.bit_write, if_neg (by omega)]
    exact packed.padding i past

theorem writeRun_true_valid (valid : b.Valid) {index count : Nat}
    (fits : index + count ≤ b.capacity) : (b.writeRun index count true).Valid := by
  by_cases none_at_all : count = 0
  · simpa [writeRun, none_at_all] using valid
  have packed := packed_writeRun valid.packed fits true
  have lowest_eq : (b.writeRun index count true).lowest = min b.lowest index := by
    simp [writeRun, none_at_all]
  have bits := contains_writeRun valid.size fits true
  refine ⟨packed.size, packed.padding, ?_, ?_, ?_⟩
  · have := valid.lowest_le
    rw [lowest_eq, capacity_writeRun]
    omega
  · intro i below
    rw [lowest_eq] at below
    rw [← packed.contains_eq, bits, if_neg (by omega)]
    exact valid.contains_of_lt (by omega)
  · intro inside
    rw [lowest_eq, capacity_writeRun] at inside
    rw [lowest_eq, ← packed.contains_eq, bits]
    split
    · rfl
    · have unmoved : min b.lowest index = b.lowest := by omega
      rw [unmoved]
      exact valid.contains_lowest (by simp only [isOccupied, decide_eq_true_eq]; omega)

theorem writeRun_false_valid (valid : b.Valid) {index count : Nat}
    (fits : index + count ≤ b.capacity) : (b.writeRun index count false).Valid := by
  by_cases none_at_all : count = 0
  · simpa [writeRun, none_at_all] using valid
  have packed := packed_writeRun valid.packed fits false
  have bits := contains_writeRun valid.size fits false
  by_cases covered : index ≤ b.lowest ∧ b.lowest < index + count
  · have rescanned : b.writeRun index count false =
        (b.writeRun index count false).rescan (index + count) := by
      simp [writeRun, none_at_all, covered, rescan, rescan?]
    rw [rescanned]
    apply rescan_valid packed
    intro i below
    rw [bits]
    split
    · rfl
    · exact valid.contains_of_lt (by omega)
  · have lowest_eq : (b.writeRun index count false).lowest = b.lowest := by
      simp [writeRun, none_at_all, covered]
    refine ⟨packed.size, packed.padding, ?_, ?_, ?_⟩
    · rw [lowest_eq, capacity_writeRun]
      exact valid.lowest_le
    · intro i below
      rw [lowest_eq] at below
      rw [← packed.contains_eq, bits, valid.contains_of_lt below]
      split <;> rfl
    · intro inside
      rw [lowest_eq, capacity_writeRun] at inside
      rw [lowest_eq, ← packed.contains_eq, bits, if_neg covered]
      exact valid.contains_lowest (by simpa [isOccupied] using inside)

theorem writeRun_valid (valid : b.Valid) {index count : Nat} (fits : index + count ≤ b.capacity)
    (value : Bool) : (b.writeRun index count value).Valid := by
  cases value with
  | true => exact writeRun_true_valid valid fits
  | false => exact writeRun_false_valid valid fits

theorem fill_valid (valid : b.Valid) : b.fill.Valid :=
  writeRun_valid (clear_valid valid) (by simp) true

/-! ### Edits -/

theorem insertRun_valid (valid : b.Valid) (index count : Nat) :
    (b.insertRun index count).state.Valid := by
  unfold insertRun
  split
  · exact valid
  split
  · exact valid
  · rename_i fits
    exact writeRun_valid valid (Nat.le_of_not_lt fits) true

theorem eraseRun_valid (valid : b.Valid) (index count : Nat) : (b.eraseRun index count).Valid := by
  unfold eraseRun
  split
  · exact writeRun_valid valid (by omega) false
  · exact valid

theorem insert_valid (valid : b.Valid) (index : Nat) : (b.insert index).state.Valid := by
  rw [insert_eq_insertRun]
  exact insertRun_valid valid index 1

theorem erase_valid (valid : b.Valid) (index : Nat) : (b.erase index).Valid := by
  rw [erase_eq_eraseRun]
  exact eraseRun_valid valid index 1

theorem toggle_valid (valid : b.Valid) (index : Nat) : (b.toggle index).state.Valid := by
  unfold toggle
  split
  · exact erase_valid valid index
  · exact insert_valid valid index

theorem recreate_valid (valid : b.Valid) (memory : Memory) (capacity : Nat) :
    (b.recreate memory capacity).state.Valid := by
  unfold recreate
  split
  · rename_i fresh made
    exact (create_valid made).1
  · exact valid

end SequenceTracking.PackedBits
