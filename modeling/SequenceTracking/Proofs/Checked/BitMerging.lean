import SequenceTracking.Proofs.Checked.PackedBits
import SequenceTracking.Proofs.PackedBits.Merging

/-!
Merges of packed bits on machine words. A merge goes over the bytes that both sides have. Where the operand has
no more bytes it leaves the receiver's as they are or clears them, and either is what the combination makes of
zeros. No slice is longer than the bytes, because a receiver with room for all bits of the operand has room
for its bytes.
-/
namespace SequenceTracking.Checked

variable {b other merged : PackedBits} {s t : Storage} {f : UInt8 → UInt8 → UInt8}

/-! ### Bytes of both sides -/

theorem zipHead_whole (keeps : ∀ x, f x 0 = x) (s t : Storage) :
    zipHead f s.size s t = .ok (s.combine f t) := by
  -- past the operand both sides combine with zero
  have zipped : Storage.modifyRun (fun j x => f x (t.byte j)) 0 (min s.size t.size) s = s.combine f t := by
    apply Storage.eq_of_byte
    · rw [Storage.size_modifyRun, Storage.size_combine]
    · intro j stored
      rw [Storage.size_modifyRun] at stored
      rw [Storage.byte_modifyRun, Storage.byte_combine _ _ _ stored]
      by_cases both : j < t.size
      · rw [if_pos (by omega)]
      · rw [if_neg (by omega), Storage.byte_of_size_le (Nat.le_of_not_lt both), keeps]
  unfold zipHead
  rw [slice_ok (Nat.zero_le _) (Nat.le_refl _), ok_bind, zipped]
  rfl

/-- What zeros clear may be cleared without looking. -/
theorem zipHead_clearTail (clears : ∀ x, f x 0 = 0) {n : Nat} (n_eq : n = min s.size t.size) :
    (zipHead f n s t >>= clearTail n) = .ok (s.combine f t) := by
  have zipped_size := Storage.size_modifyRun (fun j x => f x (t.byte j)) 0 (min n t.size) s
  unfold zipHead
  unfold clearTail
  rw [slice_ok (Nat.zero_le _) (by omega), ok_bind, pure_eq_ok, ok_bind,
    slice_ok (by omega) (Nat.le_refl _), ok_bind, zipped_size, pure_eq_ok]
  congr 1
  apply Storage.eq_of_byte
  · rw [Storage.size_modifyRun, zipped_size, Storage.size_combine]
  · intro j stored
    rw [Storage.size_modifyRun, zipped_size] at stored
    rw [Storage.byte_modifyRun, zipped_size, Storage.byte_combine _ _ _ stored, Storage.byte_modifyRun]
    by_cases both : j < n
    · rw [if_neg (by omega), if_pos (by omega)]
    · rw [if_pos (by omega), Storage.byte_of_size_le (s := t) (by omega), clears]

/-! ### Each merge -/

theorem packed_of_rescan {index : Nat} (valid : (b.rescan index).Valid) : b.Packed :=
  ⟨valid.size, valid.padding⟩

theorem narrow_combine (narrow : Narrow b) (f : UInt8 → UInt8 → UInt8) (other : PackedBits) :
    Narrow (b.combine f other) := by
  unfold Narrow at narrow ⊢
  rwa [PackedBits.combine, Storage.size_combine]

theorem bytes_of_room (valid : b.Valid) (operand : other.Valid) (room : other.capacity ≤ b.capacity) :
    other.storage.size = min b.storage.size other.storage.size := by
  have size_eq : b.storage.size = (b.capacity + 7) / 8 := valid.size
  have other_size_eq : other.storage.size = (other.capacity + 7) / 8 := operand.size
  omega

theorem bitsWithin_ok {merging : Checked PackedBits}
    (goes : other.capacity ≤ b.capacity → merging = .ok merged) :
    bitsWithin b other merging = .ok (b.within other merged) := by
  unfold bitsWithin
  by_cases wide : b.capacity < other.capacity
  · rw [if_pos wide, PackedBits.within_of_lt wide]
    rfl
  · have room : other.capacity ≤ b.capacity := Nat.le_of_not_lt wide
    rw [if_neg wide, goes room, ok_bind, PackedBits.within_of_le room]
    rfl

theorem bitsUnion_ok (b other : PackedBits) : bitsUnion b other = .ok (b.union other) := by
  have keeps : ∀ x : UInt8, x ||| 0 = x := fun x => UInt8.or_zero
  unfold bitsUnion
  apply bitsWithin_ok
  intro _
  rw [zipHead_whole keeps, ok_bind]
  cases other.first? with
  | none =>
    rw [Option.getD_none, Nat.min_self]
    rfl
  | some first => rfl

section

variable (valid : b.Valid) (operand : other.Valid)

include valid operand

theorem bitsAssign_ok : bitsAssign b other = .ok (b.assign other) := by
  unfold bitsAssign
  apply bitsWithin_ok
  intro room
  have bytes := bytes_of_room valid operand room
  simp only [copyHead, ensure_ok, ok_bind]
  rw [← bind_assoc, zipHead_clearTail (fun _ => rfl) bytes, ok_bind]
  rfl

theorem bitsSubtract_ok (narrow : Narrow b) : bitsSubtract b other = .ok (b.subtract other) := by
  have keeps : ∀ x : UInt8, x &&& ~~~0 = x := fun x => UInt8.and_neg_one
  have packed := packed_of_rescan (PackedBits.subtract_merged valid operand).valid
  unfold bitsSubtract
  rw [zipHead_whole keeps, ok_bind]
  exact rescan_ok packed (narrow_combine narrow _ other) b.lowest

theorem bitsSubtractFrom_ok (narrow : Narrow b) :
    bitsSubtractFrom b other = .ok (b.subtractFrom other) := by
  have clears : ∀ x : UInt8, 0 &&& ~~~x = 0 := fun x => UInt8.zero_and
  unfold bitsSubtractFrom
  apply bitsWithin_ok
  intro room
  have merged := PackedBits.subtractFrom_merged valid operand room
  rw [PackedBits.subtractFrom, PackedBits.within_of_le room] at merged
  simp only
  rw [← bind_assoc, zipHead_clearTail clears (bytes_of_room valid operand room), ok_bind]
  exact rescan_ok (packed_of_rescan merged.valid) (narrow_combine narrow _ other) other.lowest

theorem bitsIntersect_ok (narrow : Narrow b) : bitsIntersect b other = .ok (b.intersect other) := by
  have clears : ∀ x : UInt8, x &&& 0 = 0 := fun x => UInt8.and_zero
  have packed := packed_of_rescan (PackedBits.intersect_merged valid operand).valid
  unfold bitsIntersect
  simp only
  rw [← bind_assoc, zipHead_clearTail clears rfl, ok_bind]
  exact rescan_ok packed (narrow_combine narrow _ other) (max b.lowest other.lowest)

theorem bitsSymmDiff_ok (narrow : Narrow b) : bitsSymmDiff b other = .ok (b.symmDiff other) := by
  have keeps : ∀ x : UInt8, x ^^^ 0 = x := fun x => UInt8.xor_zero
  unfold bitsSymmDiff
  unfold PackedBits.symmDiff
  by_cases occupied : other.isOccupied = true
  · rw [if_neg (not_not.mpr occupied), if_pos occupied]
    apply bitsWithin_ok
    intro room
    have merged := PackedBits.symmDiff_merged valid operand (.inl room)
    rw [PackedBits.symmDiff, if_pos occupied, PackedBits.within_of_le room] at merged
    rw [zipHead_whole keeps, ok_bind]
    exact rescan_ok (packed_of_rescan merged.valid) (narrow_combine narrow _ other)
      (min b.lowest other.lowest)
  · rw [if_pos occupied, if_neg occupied]
    rfl

theorem bitsMerge_ok (narrow : Narrow b) (kind : Merge) :
    bitsMerge b other kind = .ok (b.merge other kind) := by
  cases kind with
  | clone => rfl
  | assign => exact bitsAssign_ok valid operand
  | union => exact bitsUnion_ok b other
  | subtract =>
    unfold bitsMerge
    rw [bitsSubtract_ok valid operand narrow]
    rfl
  | subtractFrom => exact bitsSubtractFrom_ok valid operand narrow
  | intersect =>
    unfold bitsMerge
    rw [bitsIntersect_ok valid operand narrow]
    rfl
  | symmDiff => exact bitsSymmDiff_ok valid operand narrow

end

end SequenceTracking.Checked
