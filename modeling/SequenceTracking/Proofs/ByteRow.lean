import SequenceTracking.Byte.Tables
import SequenceTracking.Storage.Lemmas

/-!
The row of a byte answers what a scan asks about the byte. A search looks at the bits one by one, and what it
finds is an entry of the row: the first one from a position on, the last one up to it, or the one at an end.
The tables hold the weight and the row of every byte, since the loops that fill them write each set position
once and in order.
-/
namespace SequenceTracking.Byte

open Search

/-! ### The tables -/

theorem take_set_append_drop {row : List Nat} {next : Nat} (stored : next < row.length) (pos : Nat)
    (rest : List Nat) :
    (row.set next pos).take (next + 1) ++ rest ++ (row.set next pos).drop (next + 1 + rest.length) =
      row.take next ++ pos :: rest ++ row.drop (next + (rest.length + 1)) := by
  have head : (row.set next pos).take (next + 1) = row.take next ++ [pos] := by
    rw [List.take_succ_eq_append_getElem (by simpa using stored), List.getElem_set_self,
      List.take_set_of_le (Nat.le_refl _)]
  have tail : (row.set next pos).drop (next + 1 + rest.length) = row.drop (next + (rest.length + 1)) := by
    rw [List.drop_set_of_lt (by omega), Nat.add_assoc, Nat.add_comm 1]
  rw [head, tail, List.append_assoc _ [pos]]
  rfl

/-- The loop overwrites as many entries as there are set positions, and no others. -/
theorem fillRow_toList (byte : UInt8) {turns pos next : Nat} (row : Array Nat) (room : next + turns ≤ row.size) :
    (fillRow byte turns pos next row).toList =
      row.toList.take next ++ (List.range' pos turns).filter (test byte) ++
        row.toList.drop (next + ((List.range' pos turns).filter (test byte)).length) := by
  induction turns generalizing pos next row with
  | zero => simp [fillRow]
  | succ turns ih =>
    rw [fillRow, List.range'_succ]
    split
    · rename_i set
      have stored : next < row.toList.length := by
        rw [Array.length_toList]
        omega
      rw [ih _ (by rw [Array.size_setIfInBounds]; omega), Array.toList_setIfInBounds,
        List.filter_cons_of_pos set]
      exact take_set_append_drop stored pos _
    · rename_i clear
      rw [ih _ (by omega), List.filter_cons_of_neg clear]

theorem fillRow_eq (byte : UInt8) :
    fillRow byte width 0 0 (Array.replicate width 0) = (row byte).toArray := by
  apply Array.toList_inj.mp
  rw [fillRow_toList byte _ (by simp)]
  simp [row, weight, positions, List.range_eq_range']

theorem weights_getElem? (byte : UInt8) : weights[byte.toNat]? = some (weight byte) := by
  have below := byte.toNat_lt
  rw [weights, Storage.getElem?_modifyRun, if_pos (by omega)]
  simp [below]

theorem rows_getElem? (byte : UInt8) : rows[byte.toNat]? = some (row byte).toArray := by
  have below := byte.toNat_lt
  rw [rows, Storage.getElem?_modifyRun, if_pos (by omega)]
  simp [below, fillRow_eq]

/-! ### Searches -/

def listed (byte : UInt8) : List Nat := (row byte).take (weight byte)

theorem listed_eq (byte : UInt8) : listed byte = positions byte := by
  unfold listed
  unfold row
  exact List.take_left

theorem weight_le_length_row (byte : UInt8) : weight byte ≤ (row byte).length := by
  rw [row, List.length_append]
  exact Nat.le_add_right _ _

theorem lowestFrom?_eq_find? (byte : UInt8) (start : Nat) :
    lowestFrom? byte start = (listed byte).find? (start ≤ ·) := by
  rw [listed_eq, positions, List.range_eq_range', find?_filter_from, lowestFrom?]

theorem highestUpTo?_eq_find? (byte : UInt8) (stop : Nat) :
    highestUpTo? byte stop = (listed byte).reverse.find? (· ≤ stop) := by
  rw [listed_eq, positions, List.range_eq_range', find?_reverse_filter_upTo, highestUpTo?]

theorem weight_pos {byte : UInt8} (occupied : byte ≠ 0) : 0 < weight byte := by
  obtain ⟨pos, inside, hit⟩ := (ne_zero_iff byte).mp occupied
  exact List.length_pos_of_mem (List.mem_filter.mpr ⟨List.mem_range.mpr inside, hit⟩)

theorem row_getElem? {byte : UInt8} {i : Nat} (inside : i < weight byte) :
    (row byte)[i]? = (positions byte)[i]? := List.getElem?_append_left inside

theorem lowestFrom?_zero (byte : UInt8) : lowestFrom? byte 0 = (positions byte)[0]? := by
  have all : ∀ pos ∈ positions byte, decide (0 ≤ pos) = true := by simp
  rw [lowestFrom?_eq_find?, listed_eq, ← List.head?_filter, List.filter_eq_self.mpr all,
    List.head?_eq_getElem?]

theorem highestUpTo?_last (byte : UInt8) :
    highestUpTo? byte (width - 1) = (positions byte)[weight byte - 1]? := by
  have all : ∀ pos ∈ (positions byte).reverse, decide (pos ≤ width - 1) = true := by
    intro pos member
    have inside := List.mem_range.mp (List.mem_filter.mp (List.mem_reverse.mp member)).1
    exact decide_eq_true (Nat.le_sub_one_of_lt inside)
  rw [highestUpTo?_eq_find?, listed_eq, ← List.head?_filter, List.filter_eq_self.mpr all,
    List.head?_reverse, List.getLast?_eq_getElem?, weight]

/-- Every search in the byte is a look-up in its row. -/
structure ReadFromRow (byte : UInt8) : Prop where
  lowestFrom_eq : ∀ start, lowestFrom? byte start = (listed byte).find? (start ≤ ·)
  highestUpTo_eq : ∀ stop, highestUpTo? byte stop = (listed byte).reverse.find? (· ≤ stop)
  lowest_eq : byte ≠ 0 → (row byte)[0]? = some (lowest byte)
  highest_eq : byte ≠ 0 → (row byte)[weight byte - 1]? = some (highest byte)

theorem readFromRow (byte : UInt8) : ReadFromRow byte where
  lowestFrom_eq := lowestFrom?_eq_find? byte
  highestUpTo_eq := highestUpTo?_eq_find? byte
  lowest_eq occupied := by
    rw [row_getElem? (weight_pos occupied), ← lowestFrom?_zero, lowestFrom?_whole,
      if_pos (bne_iff_ne.mpr occupied)]
  highest_eq occupied := by
    have inside : weight byte - 1 < weight byte := Nat.sub_lt (weight_pos occupied) Nat.one_pos
    rw [row_getElem? inside, ← highestUpTo?_last, highestUpTo?_whole, if_pos (bne_iff_ne.mpr occupied)]

end SequenceTracking.Byte
