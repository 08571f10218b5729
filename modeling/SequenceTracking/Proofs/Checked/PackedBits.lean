import SequenceTracking.Checked.PackedBits
import SequenceTracking.Proofs.ByteRow
import SequenceTracking.Proofs.PackedBits.Validity

/-!
Packed bits on machine words never stop. As long as the bits of all bytes can be counted in a word, every
routine that a window calls goes through and gives what the plain routine gives: the loop over the bytes
writes the run, a scan that leaves its byte meets a set bit below the capacity or none at all.
-/
namespace SequenceTracking

theorem Byte.test_whole (value : Bool) {pos : Nat} (inside : pos < 8) :
    Byte.test (if value then 0xFF else 0x00) pos = value := by
  have table : ∀ pos < 8, Byte.test 0xFF pos = true := by decide
  cases value with
  | true => exact table pos inside
  | false => exact Byte.test_zero

namespace Checked

/-! ### Bytes -/

theorem bitMask_ok {pos : Nat} (inside : pos < 8) : bitMask pos = .ok (Byte.mask pos) := by
  unfold bitMask
  rw [ensure_ok inside, ok_bind]
  rfl

theorem runMask_ok {pos count : Nat} (some_bit : 0 < count) (fits : pos + count ≤ 8) :
    runMask pos count = .ok (Byte.runMask pos count) := by
  have places : ∀ {n : Nat}, n < 8 → shiftPlaces n = .ok n := fun small => if_pos small
  unfold runMask
  rw [ensure_ok (by omega), ok_bind, add_ok (by unfold wordLimit; omega), ok_bind, ensure_ok fits, ok_bind,
    places (by omega), ok_bind, sub_ok (by omega), ok_bind, sub_ok (by omega), ok_bind,
    places (by omega), ok_bind]
  rfl

/-! ### Look-ups -/

section

variable {α : Type} {table : Array α}

theorem entry_ok {i : Nat} {a : α} (found : table[i]? = some a) : entry table i = .ok a := by
  unfold entry
  rw [found]

theorem slice_ok {first past : Nat} (ordered : first ≤ past) (inside : past ≤ table.size) :
    slice table first past = .ok () := if_pos ⟨ordered, inside⟩

end

theorem byteWeight_ok (byte : UInt8) : entry Byte.weights byte.toNat = .ok (Byte.weight byte) :=
  entry_ok (Byte.weights_getElem? byte)

theorem byteRow_ok (byte : UInt8) : entry Byte.rows byte.toNat = .ok (Byte.row byte).toArray :=
  entry_ok (Byte.rows_getElem? byte)

theorem listed_ok (byte : UInt8) : listed byte = .ok (Byte.listed byte) := by
  have inside : Byte.weight byte ≤ (Byte.row byte).toArray.size := Byte.weight_le_length_row byte
  unfold listed
  rw [byteRow_ok, ok_bind, byteWeight_ok, ok_bind, slice_ok (Nat.zero_le _) inside, ok_bind]
  rfl

theorem lowestFrom_ok (byte : UInt8) {start : Nat} (inside : start < 8) :
    lowestFrom byte start = .ok (Byte.lowestFrom? byte start) := by
  unfold lowestFrom
  rw [ensure_ok inside, ok_bind, listed_ok, ok_bind, (Byte.readFromRow byte).lowestFrom_eq]
  rfl

theorem highestUpTo_ok (byte : UInt8) {stop : Nat} (inside : stop < 8) :
    highestUpTo byte stop = .ok (Byte.highestUpTo? byte stop) := by
  unfold highestUpTo
  rw [ensure_ok inside, ok_bind, listed_ok, ok_bind, (Byte.readFromRow byte).highestUpTo_eq]
  rfl

theorem lowest_ok {byte : UInt8} (occupied : byte ≠ 0) : lowest byte = .ok (Byte.lowest byte) := by
  unfold lowest
  rw [ensure_ok occupied, ok_bind, byteRow_ok, ok_bind]
  apply entry_ok
  rw [List.getElem?_toArray]
  exact (Byte.readFromRow byte).lowest_eq occupied

theorem highest_ok {byte : UInt8} (occupied : byte ≠ 0) :
    highest byte = .ok (Byte.highest byte) := by
  unfold highest
  rw [ensure_ok occupied, ok_bind, byteWeight_ok, ok_bind, sub_ok (Byte.weight_pos occupied), ok_bind, byteRow_ok,
    ok_bind]
  apply entry_ok
  rw [List.getElem?_toArray]
  exact (Byte.readFromRow byte).highest_eq occupied

/-! ### Storage -/

section

variable {s : Storage}

theorem byte_ok {j : Nat} (inside : j < s.size) : byte s j = .ok (s.byte j) := if_pos inside

theorem changeByte_ok {j : Nat} (inside : j < s.size) (change : UInt8 → UInt8) :
    changeByte s j change = .ok (s.modify j change) := if_pos inside

theorem bit_filled (s : Storage) (value : Bool) {j n : Nat} (inside : j + n ≤ s.size) (i : Nat) :
    Storage.bit (Storage.modifyRun (fun _ _ => if value then 0xFF else 0x00) j n s) i =
      if 8 * j ≤ i ∧ i < 8 * (j + n) then value else s.bit i := by
  have below : i % 8 < 8 := Nat.mod_lt _ (by decide)
  unfold Storage.bit
  rw [Storage.byte_modifyRun]
  by_cases filled : 8 * j ≤ i ∧ i < 8 * (j + n)
  · rw [if_pos filled, if_pos (by omega)]
    exact Byte.test_whole value below
  · rw [if_neg filled, if_neg (by omega)]

theorem bit_changed (s : Storage) (value : Bool) {j pos n : Nat} (fits : pos + n ≤ 8)
    (inside : j < s.size) (i : Nat) :
    Storage.bit (s.modify j (Byte.put (Byte.runMask pos n) value)) i =
      if 8 * j + pos ≤ i ∧ i < 8 * j + pos + n then value else s.bit i := by
  have below : i % 8 < 8 := Nat.mod_lt _ (by decide)
  have split := Nat.div_add_mod i 8
  unfold Storage.bit
  rw [Storage.byte_modify]
  by_cases here : j = i / 8
  · rw [if_pos ⟨here, here ▸ inside⟩, Byte.test_put _ _ _ below, Byte.test_runMask fits below]
    by_cases written : 8 * j + pos ≤ i ∧ i < 8 * j + pos + n
    · rw [if_pos written, if_pos (decide_eq_true (by omega))]
    · rw [if_neg written, if_neg (by simp; omega)]
  · rw [if_neg (by omega), if_neg (by omega)]

theorem written_after (value old : Bool) {index next stop : Nat} (onward : index ≤ next)
    (inside : next ≤ stop) (i : Nat) :
    (if next ≤ i ∧ i < stop then value else if index ≤ i ∧ i < next then value else old) =
      if index ≤ i ∧ i < stop then value else old := by
  by_cases later : next ≤ i ∧ i < stop
  · rw [if_pos later, if_pos (by omega)]
  · rw [if_neg later]
    by_cases now : index ≤ i ∧ i < next
    · rw [if_pos now, if_pos (by omega)]
    · rw [if_neg now, if_neg (by omega)]

/-- Each turn writes at least one bit, so as many turns as there are bits are enough. -/
theorem writeFrom_ok (value : Bool) {stop turns index : Nat} (s : Storage) (inside : stop ≤ 8 * s.size)
    (narrow : 8 * s.size < wordLimit) (enough : stop ≤ index + turns) :
    ∃ t : Storage, writeFrom value stop turns index s = .ok t ∧ t.size = s.size ∧
      ∀ i, t.bit i = if index ≤ i ∧ i < stop then value else s.bit i := by
  induction turns generalizing index s with
  | zero =>
    refine ⟨s, if_neg (by omega), rfl, fun i => ?_⟩
    rw [if_neg (by omega)]
  | succ turns ih =>
    unfold writeFrom
    split
    · rename_i before
      simp only [sub_ok (show index ≤ stop by omega), ok_bind]
      split
      · rename_i whole
        have shifted : shl ((stop - index) / 8) 3 = 8 * ((stop - index) / 8) := shl_three (by omega)
        rw [add_ok (by omega), ok_bind, slice_ok (by omega) (by omega), ok_bind, shifted,
          add_ok (by omega), ok_bind]
        have filled := bit_filled s value (show index / 8 + (stop - index) / 8 ≤ s.size by omega)
        have filled_size := Storage.size_modifyRun (fun _ _ => if value then 0xFF else 0x00)
          (index / 8) ((stop - index) / 8) s
        generalize Storage.modifyRun _ (index / 8) ((stop - index) / 8) s = u at filled filled_size ⊢
        obtain ⟨t, run, sized, bits⟩ := ih u (by omega) (by omega)
          (show stop ≤ index + 8 * ((stop - index) / 8) + turns by omega)
        refine ⟨t, run, sized.trans filled_size, fun i => ?_⟩
        rw [bits i, filled i, show 8 * (index / 8) = index by omega,
          show 8 * (index / 8 + (stop - index) / 8) = index + 8 * ((stop - index) / 8) by omega]
        exact written_after value _ (by omega) (by omega) i
      · rename_i partly
        generalize take_eq : min (8 - index % 8) (stop - index) = take
        rw [sub_ok (by omega), ok_bind, take_eq, runMask_ok (by omega) (by omega), ok_bind,
          changeByte_ok (by omega), ok_bind, add_ok (by omega), ok_bind]
        have changed := bit_changed s value (show index % 8 + take ≤ 8 by omega)
          (show index / 8 < s.size by omega)
        have changed_size : (s.modify (index / 8)
            (Byte.put (Byte.runMask (index % 8) take) value)).size = s.size := Array.size_modify
        generalize Array.modify s (index / 8) _ = u at changed changed_size ⊢
        obtain ⟨t, run, sized, bits⟩ := ih u (by omega) (by omega)
          (show stop ≤ index + take + turns by omega)
        refine ⟨t, run, sized.trans changed_size, fun i => ?_⟩
        rw [bits i, changed i, Nat.div_add_mod]
        exact written_after value _ (by omega) (by omega) i
    · refine ⟨s, rfl, rfl, fun i => ?_⟩
      rw [if_neg (by omega)]

theorem writeStorage_ok {index count : Nat} (inside : index + count ≤ 8 * s.size)
    (narrow : 8 * s.size < wordLimit) (value : Bool) :
    writeStorage s index count value = .ok (s.write index count value) := by
  obtain ⟨t, run, sized, bits⟩ := writeFrom_ok value s inside narrow (Nat.le_refl (index + count))
  have written : t = s.write index count value := by
    apply Storage.eq_of_bit (by rw [sized, Storage.size_write])
    intro i
    rw [bits i, Storage.bit_write_of_le inside]
  unfold writeStorage
  rw [add_ok (by omega), ok_bind, mul_ok (by omega), ok_bind, ensure_ok (by omega), ok_bind, run, written]

theorem nextUnder_ok (view : UInt8 → UInt8) {index : Nat} (inside : index < 8 * s.size)
    (narrow : 8 * s.size < wordLimit) :
    nextUnder view s index = .ok (s.nextUnder? view index) := by
  unfold nextUnder
  unfold Storage.nextUnder?
  simp only [byte_ok (show index / 8 < s.size by omega), ok_bind,
    lowestFrom_ok _ (show index % 8 < 8 by omega)]
  cases near : Byte.lowestFrom? (view (s.byte (index / 8))) (index % 8) with
  | some pos =>
    obtain ⟨_, below, _⟩ := Search.least?_eq_some_iff.mp near
    simp only [Byte.width] at below
    simp only [shl_three (show 8 * (index / 8) < wordLimit by omega)]
    rw [add_ok (by omega)]
    rfl
  | none =>
    simp only [add_ok (show index / 8 + 1 < wordLimit by omega), ok_bind]
    rw [slice_ok (by omega) (Nat.le_refl _), ok_bind]
    cases far : Search.least? (fun k => view (s.byte k) != 0) (index / 8 + 1)
        (s.size - (index / 8 + 1)) with
    | none => rfl
    | some k =>
      obtain ⟨above, below, hit, _⟩ := Search.least?_eq_some_iff.mp far
      have occupied : view (s.byte k) ≠ 0 := by simpa using hit
      have place : index / 8 + 1 + (k - (index / 8 + 1)) = k := by omega
      have low := Byte.lowest_lt occupied
      simp only [place, add_ok (show index / 8 + 1 + (k - (index / 8 + 1)) < wordLimit by omega), ok_bind,
        byte_ok (show k < s.size by omega), lowest_ok occupied,
        shl_three (show 8 * k < wordLimit by omega)]
      rw [add_ok (by omega)]
      rfl

end

/-! ### Scans -/

section

variable {b : PackedBits}

/-- All bits of the bytes of packed bits can be counted in a word. -/
def Narrow (b : PackedBits) : Prop := 8 * b.storage.size < wordLimit

theorem rescan?_ok (packed : b.Packed) (narrow : Narrow b) (index : Nat) :
    rescan? b index = .ok (b.rescan? index) := by
  have room := packed.capacity_le
  unfold rescan?
  by_cases inside : index < b.capacity
  · have scanned : b.rescan? index = b.storage.nextUnder? id index := if_pos inside
    rw [if_neg (by omega), nextUnder_ok id (by omega) narrow, ok_bind, ← scanned, ensure_ok, ok_bind]
    · rfl
    · rw [PackedBits.rescan?_eq packed]
      cases near : Search.least? b.contains index (b.capacity - index) with
      | none => rfl
      | some j =>
        obtain ⟨_, below, _⟩ := Search.least?_eq_some_iff.mp near
        simp only [Option.all_some, decide_eq_true_eq]
        omega
  · rw [if_pos (by omega), PackedBits.rescan?, if_neg inside]
    rfl

theorem rescan_ok (packed : b.Packed) (narrow : Narrow b) (index : Nat) :
    rescan b index = .ok (b.rescan index) := by
  unfold rescan
  rw [rescan?_ok packed narrow, ok_bind]
  rfl

theorem bitsNext?_ok (valid : b.Valid) (narrow : Narrow b) (index : Nat) :
    bitsNext? b index = .ok (b.next? index) := by
  unfold bitsNext?
  unfold PackedBits.next?
  by_cases inside : index < b.capacity ∧ b.isOccupied
  · rw [if_pos inside, if_neg (by simp [inside]), rescan?_ok valid.packed narrow]
  · have outside := Decidable.not_and_iff_not_or_not.mp inside
    rw [if_neg inside, if_pos (outside.imp Nat.le_of_not_lt id)]
    rfl

/-- A backward scan that leaves its byte meets the lowest set bit at the latest. -/
theorem earlier_byte (valid : b.Valid) (occupied : b.lowest < b.capacity) {start : Nat}
    (reachable : b.lowest ≤ start)
    (near : Byte.highestUpTo? (b.storage.byte (start / 8)) (start % 8) = none) :
    b.lowest / 8 < start / 8 ∧
      ∃ k, Search.greatest? (fun k => b.storage.byte k != 0) (b.lowest / 8)
          (start / 8 - b.lowest / 8) = some k ∧
        b.lowest / 8 ≤ k ∧ k < start / 8 ∧ b.storage.byte k ≠ 0 := by
  have set : Byte.test (b.storage.byte (b.lowest / 8)) (b.lowest % 8) = true := valid.at_lowest occupied
  have earlier : b.lowest / 8 < start / 8 := by
    apply Nat.lt_of_not_le
    intro same_byte
    have same : b.lowest / 8 = start / 8 := by omega
    rw [same, Search.greatest?_eq_none_iff.mp near _ (Nat.zero_le _)
      (by simp only [Byte.width]; omega)] at set
    exact Bool.noConfusion set
  refine ⟨earlier, ?_⟩
  cases far : Search.greatest? (fun k => b.storage.byte k != 0) (b.lowest / 8)
      (start / 8 - b.lowest / 8) with
  | none =>
    have clear := Search.greatest?_eq_none_iff.mp far (b.lowest / 8) (Nat.le_refl _) (by omega)
    rw [bne_eq_false_iff_eq.mp clear, Byte.test_zero] at set
    exact Bool.noConfusion set
  | some k =>
    obtain ⟨above, below, hit, _⟩ := Search.greatest?_eq_some_iff.mp far
    exact ⟨k, rfl, above, by omega, by simpa using hit⟩

theorem bitsPrev?_ok (valid : b.Valid) (narrow : Narrow b) (index : Nat) :
    bitsPrev? b index = .ok (b.prev? index) := by
  have room := valid.packed.capacity_le
  unfold Narrow at narrow
  unfold bitsPrev?
  by_cases occupied : b.isOccupied = true
  · have inside : b.lowest < b.capacity := of_decide_eq_true occupied
    rw [if_neg (by simp [occupied]), sub_ok (by omega), ok_bind]
    by_cases reachable : b.lowest ≤ min index (b.capacity - 1)
    · have scanned : b.prev? index =
          b.storage.prev? (b.lowest / 8) (min index (b.capacity - 1)) := if_pos ⟨occupied, reachable⟩
      rw [if_neg (by omega), scanned]
      unfold Storage.prev?
      generalize start_eq : min index (b.capacity - 1) = start at reachable
      simp only [byte_ok (show start / 8 < b.storage.size by omega), ok_bind,
        highestUpTo_ok _ (show start % 8 < 8 by omega)]
      cases near : Byte.highestUpTo? (b.storage.byte (start / 8)) (start % 8) with
      | some pos =>
        obtain ⟨_, below, _⟩ := Search.greatest?_eq_some_iff.mp near
        simp only [Byte.width] at below
        simp only [shl_three (show 8 * (start / 8) < wordLimit by omega)]
        rw [add_ok (by omega)]
        rfl
      | none =>
        obtain ⟨earlier, k, far, above, below, nonzero⟩ := earlier_byte valid inside reachable near
        have place : b.lowest / 8 + (k - b.lowest / 8) = k := by omega
        have high := Byte.highest_lt nonzero
        simp only [far]
        rw [slice_ok (by omega) (by omega), ok_bind]
        simp only [place, add_ok (show b.lowest / 8 + (k - b.lowest / 8) < wordLimit by omega), ok_bind,
          byte_ok (show k < b.storage.size by omega), highest_ok nonzero,
          shl_three (show 8 * k < wordLimit by omega)]
        rw [add_ok (by omega)]
        rfl
    · rw [if_pos (by omega), PackedBits.prev?, if_neg (by simp [reachable])]
      rfl
  · rw [if_pos occupied, PackedBits.prev?, if_neg (by simp [occupied])]
    rfl

theorem bitsNextGap?_ok (valid : b.Valid) (narrow : Narrow b) (index : Nat) :
    bitsNextGap? b index = .ok (b.nextGap? index) := by
  have room := valid.packed.capacity_le
  unfold bitsNextGap?
  unfold PackedBits.nextGap?
  by_cases inside : index < b.capacity
  · rw [if_pos inside, if_neg (by omega), nextUnder_ok _ (by omega) narrow, ok_bind]
    rfl
  · rw [if_neg inside, if_pos (by omega)]
    rfl

theorem bitsLast?_ok (valid : b.Valid) (narrow : Narrow b) : bitsLast? b = .ok b.last? := by
  unfold bitsLast?
  unfold PackedBits.last?
  split
  · rfl
  · rw [sub_ok (by omega), ok_bind, bitsPrev?_ok valid narrow]

end

/-! ### Bits as a whole -/

section

variable {b : PackedBits}

theorem testBit_ok (packed : b.Packed) (index : Nat) : testBit b index = .ok (b.contains index) := by
  have room := packed.capacity_le
  unfold testBit
  unfold PackedBits.contains
  by_cases inside : index < b.capacity
  · rw [if_neg (by omega), byte_ok (by omega), ok_bind, bitMask_ok (by omega), ok_bind,
      decide_eq_true inside, Bool.true_and]
    rfl
  · rw [if_pos (by omega), decide_eq_false inside, Bool.false_and]
    rfl

theorem weight_le (byte : UInt8) : Byte.weight byte ≤ 8 := by
  unfold Byte.weight
  unfold Byte.positions
  exact Nat.le_trans (List.length_filter_le _ _) (by simp [Byte.width])

theorem sum_weights_ok (bytes : List UInt8) (total : Nat)
    (narrow : total + 8 * bytes.length < wordLimit) :
    bytes.foldlM (fun total byte => do add total (← entry Byte.weights byte.toNat)) total =
      .ok (total + (bytes.map Byte.weight).sum) := by
  induction bytes generalizing total with
  | nil => rfl
  | cons byte rest ih =>
    have light := weight_le byte
    rw [List.length_cons] at narrow
    rw [List.foldlM_cons, byteWeight_ok, ok_bind, add_ok (by omega), ok_bind, ih _ (by omega), List.map_cons,
      List.sum_cons, Nat.add_assoc]

theorem bitCount_ok (narrow : Narrow b) : bitCount b = .ok b.count := by
  unfold Narrow at narrow
  unfold bitCount
  rw [sum_weights_ok _ 0 (by simpa using narrow), Nat.zero_add]
  congr 1
  exact (PackedBits.storage_count_eq_sum b.storage).symm

theorem writeRun_ok (valid : b.Valid) (narrow : Narrow b) {index count : Nat}
    (fits : index + count ≤ b.capacity) (value : Bool) :
    writeRun b index count value = .ok (b.writeRun index count value) := by
  have room := valid.packed.capacity_le
  by_cases none_at_all : count = 0
  · rw [writeRun, PackedBits.writeRun, if_pos none_at_all, if_pos none_at_all]
    rfl
  · have stored : writeStorage b.storage index count value = _ := writeStorage_ok (by omega) narrow value
    have written : ({ b with storage := b.storage.write index count value } : PackedBits).Packed := by
      have packed := PackedBits.packed_writeRun valid.packed fits value
      refine ⟨by rw [Storage.size_write, valid.size], fun i past => ?_⟩
      have clear := packed.padding i (by rwa [PackedBits.capacity_writeRun])
      rwa [PackedBits.storage_writeRun _ _ none_at_all] at clear
    unfold Narrow at narrow
    unfold writeRun
    unfold PackedBits.writeRun
    rw [if_neg none_at_all, if_neg none_at_all, add_ok (by omega), ok_bind, ensure_ok fits, ok_bind, stored,
      ok_bind]
    split
    · rfl
    · split
      · exact rescan_ok written (by simpa [Narrow] using narrow) (index + count)
      · rfl

theorem fill_lowest (positive : 0 < b.capacity) :
    b.fill = { b with storage := b.fill.storage, lowest := 0 } := by
  unfold PackedBits.fill
  unfold PackedBits.writeRun
  rw [if_neg (show ¬ b.capacity = 0 by omega)]
  simp [PackedBits.clear]

theorem bit_fill (valid : b.Valid) (i : Nat) :
    b.fill.storage.bit i = decide (i < b.capacity) := by
  rw [← (PackedBits.fill_valid valid).packed.contains_eq, PackedBits.contains_fill valid.size]

theorem count_fill (valid : b.Valid) : b.fill.count = b.capacity := by
  rw [PackedBits.count_eq (PackedBits.fill_valid valid), PackedBits.capacity_fill]
  have all : ∀ i ∈ List.range b.capacity, b.fill.contains i = true := by
    intro i listed
    rw [PackedBits.contains_fill valid.size]
    exact decide_eq_true (List.mem_range.mp listed)
  rw [List.countP_eq_length.mpr all, List.length_range]

theorem bit_ones (s : Storage) (i : Nat) :
    Storage.bit (Storage.modifyRun (fun _ _ => 0xFF) 0 s.size s) i = decide (i < 8 * s.size) := by
  have filled := bit_filled s true (show 0 + s.size ≤ s.size by omega) i
  simp only [if_true] at filled
  rw [filled]
  by_cases inside : i < 8 * s.size
  · rw [if_pos (by omega), decide_eq_true inside]
  · rw [if_neg (by omega), decide_eq_false inside]
    exact Storage.bit_of_size_le (by omega)

theorem size_fill (valid : b.Valid) : b.fill.storage.size = b.storage.size := by
  rw [(PackedBits.fill_valid valid).size, PackedBits.capacity_fill, valid.size]

theorem ones_eq_fill (valid : b.Valid) (whole : b.capacity % 8 = 0) :
    Storage.modifyRun (fun _ _ => 0xFF) 0 b.storage.size b.storage = b.fill.storage := by
  have size_eq : b.storage.size = (b.capacity + 7) / 8 := valid.size
  apply Storage.eq_of_bit
  · rw [Storage.size_modifyRun, size_fill valid]
  · intro i
    rw [bit_ones, bit_fill valid, show 8 * b.storage.size = b.capacity by omega]

/-- The last byte is written a second time, so that the bits past the capacity stay clear. -/
theorem cut_ones_eq_fill (valid : b.Valid) (partly : b.capacity % 8 ≠ 0) :
    Array.modify (Storage.modifyRun (fun _ _ => 0xFF) 0 b.storage.size b.storage) (b.storage.size - 1)
      (fun _ => Byte.runMask 0 (b.capacity % 8)) = b.fill.storage := by
  have size_eq : b.storage.size = (b.capacity + 7) / 8 := valid.size
  have ones_size := Storage.size_modifyRun (fun _ _ => 0xFF) 0 b.storage.size b.storage
  apply Storage.eq_of_bit
  · rw [Array.size_modify, ones_size, size_fill valid]
  · intro i
    have below : i % 8 < 8 := Nat.mod_lt _ (by decide)
    rw [bit_fill valid]
    by_cases last : b.storage.size - 1 = i / 8
    · unfold Storage.bit
      rw [Storage.byte_modify, if_pos ⟨last, by omega⟩, Byte.test_runMask (by omega) below]
      congr 1
      apply propext
      omega
    · have kept := bit_ones b.storage i
      unfold Storage.bit at kept ⊢
      rw [Storage.byte_modify, if_neg (fun here => last here.1), kept]
      congr 1
      apply propext
      omega

theorem fill_of_nothing (valid : b.Valid) (nothing : b.capacity = 0) : b.fill = b := by
  apply (PackedBits.fill_valid valid).eq_of_contains valid (PackedBits.capacity_fill b)
  intro i
  have past : b.capacity ≤ i := nothing ▸ Nat.zero_le i
  rw [PackedBits.contains_fill valid.size, PackedBits.contains_of_le past]
  exact decide_eq_false (Nat.not_lt_of_le past)

theorem fillBits_ok (valid : b.Valid) (narrow : Narrow b) : fillBits b = .ok b.fill := by
  unfold fillBits
  by_cases nothing : b.capacity = 0
  · rw [if_pos nothing, pure_eq_ok, fill_of_nothing valid nothing]
  have positive : 0 < b.capacity := Nat.pos_of_ne_zero nothing
  have size_eq : b.storage.size = (b.capacity + 7) / 8 := valid.size
  have ones_size := Storage.size_modifyRun (fun _ _ => 0xFF) 0 b.storage.size b.storage
  have counted : bitCount { b with storage := b.fill.storage, lowest := 0 } = .ok b.capacity := by
    rw [← fill_lowest positive, bitCount_ok (by rwa [Narrow, size_fill valid]), count_fill valid]
  rw [if_neg nothing]
  simp only
  by_cases whole : b.capacity % 8 = 0
  · rw [if_pos whole, pure_eq_ok, ok_bind, ones_eq_fill valid whole, counted, ok_bind, ensure_ok rfl,
      ok_bind, ← fill_lowest positive]
    rfl
  · rw [if_neg whole, ones_size, sub_ok (by omega), ok_bind, runMask_ok (by omega) (by omega), ok_bind,
      changeByte_ok (by omega), ok_bind, cut_ones_eq_fill valid whole, counted, ok_bind, ensure_ok rfl,
      ok_bind, ← fill_lowest positive]
    rfl

/-! ### Runs at any index -/

theorem sum?_any_iff (narrow : b.capacity < wordLimit) (index count : Nat) :
    (sum? index count).any (· ≤ b.capacity) = true ↔ index + count ≤ b.capacity := by
  unfold sum?
  split
  · simp
  · simp only [Option.any_none, Bool.false_eq_true, false_iff]
    omega

theorem insertRun_ok (valid : b.Valid) (narrow : Narrow b) {index count : Nat}
    (reported : count = 0 ∨ index + count < wordLimit) :
    insertRun b index count = .ok (b.insertRun index count) := by
  have room : b.capacity < wordLimit := Nat.lt_of_le_of_lt valid.packed.capacity_le narrow
  unfold insertRun
  unfold PackedBits.insertRun
  by_cases nothing : count = 0
  · rw [if_pos nothing, if_pos nothing]
    rfl
  rw [if_neg nothing, if_neg nothing]
  by_cases fits : index + count ≤ b.capacity
  · rw [if_pos ((sum?_any_iff room index count).mpr fits), if_neg (Nat.not_lt_of_le fits),
      writeRun_ok valid narrow fits]
    rfl
  · rw [if_neg (mt (sum?_any_iff room index count).mp fits), if_pos (Nat.lt_of_not_le fits),
      add_ok (reported.resolve_left nothing)]
    rfl

theorem eraseRun_ok (valid : b.Valid) (narrow : Narrow b) (index count : Nat) :
    eraseRun b index count = .ok (b.eraseRun index count) := by
  -- a sum cut off at the greatest word lies past the capacity as the sum itself does
  have room : b.capacity < wordLimit := Nat.lt_of_le_of_lt valid.packed.capacity_le narrow
  unfold eraseRun
  unfold PackedBits.eraseRun
  by_cases outside : b.capacity ≤ index
  · rw [if_pos (.inl outside), if_neg (Nat.not_lt_of_le outside)]
    rfl
  rw [if_pos (Nat.lt_of_not_le outside)]
  by_cases nothing : count = 0
  · rw [if_pos (.inr nothing), nothing, Nat.zero_min, PackedBits.writeRun, if_pos rfl]
    rfl
  have stop_eq : min (sumUpTo index count) b.capacity - index = min count (b.capacity - index) := by
    unfold sumUpTo
    omega
  rw [if_neg (not_or.mpr ⟨outside, nothing⟩)]
  simp only
  rw [sub_ok (by unfold sumUpTo; omega), ok_bind, stop_eq, writeRun_ok valid narrow (by omega)]

end

end Checked

end SequenceTracking
