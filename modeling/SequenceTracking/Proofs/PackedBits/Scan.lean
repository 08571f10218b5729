import SequenceTracking.PackedBits.Lemmas
import SequenceTracking.Proofs.Search

/-!
The directed searches in packed bits are plain searches through `contains`. The byte-wise scans agree
with them because the unused bits of the last byte are clear and the lowest index is exact.
-/
namespace SequenceTracking.PackedBits

open Search

variable {b : PackedBits}

theorem contains_of_le {i : Nat} (past : b.capacity ≤ i) : b.contains i = false := by
  simp [contains]
  omega

theorem lt_of_contains {i : Nat} (hit : b.contains i = true) : i < b.capacity := by
  by_cases inside : i < b.capacity
  · exact inside
  · simp [contains, inside] at hit

/-- The part of `Valid` that does not speak of the lowest index. -/
structure Packed (b : PackedBits) : Prop where
  size : b.storage.size = Byte.needed b.capacity
  padding : ∀ i, b.capacity ≤ i → b.storage.bit i = false

theorem Valid.packed (valid : b.Valid) : b.Packed := ⟨valid.size, valid.padding⟩

theorem Packed.capacity_le (packed : b.Packed) : b.capacity ≤ 8 * b.storage.size := by
  rw [packed.size, Byte.needed, Byte.width]
  omega

theorem Packed.contains_eq (packed : b.Packed) (i : Nat) : b.contains i = b.storage.bit i := by
  by_cases inside : i < b.capacity
  · simp [contains, inside]
  · rw [contains_of_le (by omega), packed.padding i (by omega)]

theorem rescan?_eq (packed : b.Packed) (index : Nat) :
    b.rescan? index = least? b.contains index (b.capacity - index) := by
  have room := packed.capacity_le
  have same : b.contains = b.storage.bit := funext packed.contains_eq
  unfold rescan?
  rw [same]
  split
  · rw [Storage.next?_eq _ (by omega)]
    apply least?_shrink (by omega)
    intro i above _
    exact packed.padding i (by omega)
  · have none_left : b.capacity - index = 0 := by omega
    rw [none_left, least?]

theorem Packed.valid (packed : b.Packed) (lowest_le : b.lowest ≤ b.capacity)
    (clear : ∀ i, i < b.lowest → b.contains i = false)
    (hit : b.lowest < b.capacity → b.contains b.lowest = true) : b.Valid where
  size := packed.size
  padding := packed.padding
  lowest_le := lowest_le
  below_lowest i below := by
    rw [← packed.contains_eq]
    exact clear i below
  at_lowest inside := by
    rw [← packed.contains_eq]
    exact hit inside

theorem rescan_valid (packed : b.Packed) {index : Nat}
    (clear : ∀ i, i < index → b.contains i = false) : (b.rescan index).Valid := by
  -- what lies below `index` is clear, so the search from there finds the lowest bit of all
  have found : (b.rescan index).lowest = (least? b.contains index (b.capacity - index)).getD b.capacity := by
    unfold rescan
    rw [rescan?_eq packed]
  have kept : (b.rescan index).Packed := ⟨packed.size, packed.padding⟩
  cases scan : least? b.contains index (b.capacity - index) with
  | none =>
    rw [scan, Option.getD_none] at found
    rw [least?_eq_none_iff] at scan
    apply kept.valid
    · rw [found, capacity_rescan]
    · intro i below
      rw [found] at below
      rw [contains_rescan]
      by_cases early : i < index
      · exact clear i early
      · exact scan i (by omega) (by omega)
    · intro below
      rw [found] at below
      exact absurd below (Nat.lt_irrefl _)
  | some j =>
    rw [scan, Option.getD_some] at found
    rw [least?_eq_some_iff] at scan
    obtain ⟨above, inside, hit, before⟩ := scan
    apply kept.valid
    · rw [found, capacity_rescan]
      omega
    · intro i below
      rw [found] at below
      rw [contains_rescan]
      by_cases early : i < index
      · exact clear i early
      · exact before i (by omega) below
    · intro _
      rw [found, contains_rescan]
      exact hit

theorem Valid.contains_of_lt (valid : b.Valid) {i : Nat} (below : i < b.lowest) :
    b.contains i = false := by
  rw [valid.packed.contains_eq]
  exact valid.below_lowest i below

theorem Valid.lowest_le_of_contains (valid : b.Valid) {i : Nat} (hit : b.contains i = true) :
    b.lowest ≤ i := by
  apply Nat.le_of_not_lt
  intro below
  rw [valid.contains_of_lt below] at hit
  exact Bool.noConfusion hit

theorem Valid.contains_lowest (valid : b.Valid) (occupied : b.isOccupied = true) :
    b.contains b.lowest = true := by
  rw [valid.packed.contains_eq]
  exact valid.at_lowest (by simpa [isOccupied] using occupied)

theorem Valid.isOccupied_iff (valid : b.Valid) :
    b.isOccupied = true ↔ ∃ i, b.contains i = true := by
  constructor
  · intro occupied
    exact ⟨b.lowest, valid.contains_lowest occupied⟩
  · intro given
    obtain ⟨i, hit⟩ := given
    have := valid.lowest_le_of_contains hit
    have := lt_of_contains hit
    simp only [isOccupied, decide_eq_true_eq]
    omega

theorem Valid.not_isOccupied (valid : b.Valid) (empty : ¬ b.isOccupied = true) (i : Nat) :
    b.contains i = false := by
  rw [valid.isOccupied_iff] at empty
  simpa using fun hit => empty ⟨i, hit⟩

theorem next?_eq (valid : b.Valid) (index : Nat) :
    b.next? index = least? b.contains index (b.capacity - index) := by
  unfold next?
  split
  · rw [rescan?_eq valid.packed]
    symm
    apply least?_skip (Nat.le_max_left _ _)
    intro i above below
    exact valid.contains_of_lt (by omega)
  · rename_i outside
    symm
    rw [least?_eq_none_iff]
    intro j above below
    exact valid.not_isOccupied (fun occupied => outside ⟨by omega, occupied⟩) j

theorem first?_eq (valid : b.Valid) : b.first? = least? b.contains 0 b.capacity := by
  unfold first?
  split
  · rename_i occupied
    symm
    rw [least?_eq_some_iff]
    have hit := valid.contains_lowest occupied
    exact ⟨Nat.zero_le _, by have := lt_of_contains hit; omega, hit,
      fun k _ below => valid.contains_of_lt below⟩
  · rename_i empty
    symm
    rw [least?_eq_none_iff]
    intro j _ _
    exact valid.not_isOccupied empty j

theorem Valid.lowest_eq (valid : b.Valid) :
    b.lowest = (least? b.contains 0 b.capacity).getD b.capacity := by
  have search := first?_eq valid
  unfold first? at search
  split at search
  · rw [← search, Option.getD_some]
  · rename_i empty
    have := valid.lowest_le
    rw [← search, Option.getD_none]
    simp only [isOccupied, decide_eq_true_eq] at empty
    omega

/-- The bits that are set determine the storage and the lowest index. -/
theorem Valid.eq_of_contains {a : PackedBits} (left : a.Valid) (right : b.Valid)
    (capacity_eq : a.capacity = b.capacity) (same : ∀ i, a.contains i = b.contains i) : a = b := by
  have lowest_eq : a.lowest = b.lowest := by
    rw [left.lowest_eq, right.lowest_eq, capacity_eq, funext same]
  have storage_eq : a.storage = b.storage := by
    apply Storage.eq_of_bit
    · rw [left.size, right.size, capacity_eq]
    · intro i
      rw [← left.packed.contains_eq, same, right.packed.contains_eq]
  cases a
  cases b
  rw [mk.injEq]
  exact ⟨capacity_eq, storage_eq, lowest_eq⟩

theorem Valid.first?_cases (valid : b.Valid) :
    (b.first? = some b.lowest ∧ b.contains b.lowest = true) ∨
      (b.first? = none ∧ ∀ i, b.contains i = false) := by
  unfold first?
  split
  · rename_i occupied
    exact .inl ⟨rfl, valid.contains_lowest occupied⟩
  · rename_i empty
    exact .inr ⟨rfl, valid.not_isOccupied empty⟩

theorem prev?_eq (valid : b.Valid) (index : Nat) :
    b.prev? index = greatest? b.contains 0 (min (index + 1) b.capacity) := by
  have same : b.contains = b.storage.bit := funext valid.packed.contains_eq
  have below : ∀ i, i < b.lowest → b.storage.bit i = false := valid.below_lowest
  rw [prev?, same]
  split
  · rename_i reachable
    obtain ⟨occupied, start⟩ := reachable
    have inside : b.lowest < b.capacity := by simpa [isOccupied] using occupied
    rw [Storage.prev?_eq _ (Nat.div_le_div_right start)]
    symm
    have length_eq : min (index + 1) b.capacity = min index (b.capacity - 1) + 1 - 0 := by omega
    rw [length_eq]
    apply greatest?_skip (Nat.zero_le _)
    intro i _ early
    exact below i (by omega)
  · rename_i outside
    symm
    rw [greatest?_eq_none_iff]
    intro j _ inside
    by_cases occupied : b.isOccupied = true
    · exact below j (by simp only [not_and, occupied, true_implies] at outside; omega)
    · rw [← same]
      exact valid.not_isOccupied occupied j

theorem last?_eq (valid : b.Valid) : b.last? = greatest? b.contains 0 b.capacity := by
  unfold last?
  split
  · rename_i none_at_all
    rw [none_at_all, greatest?]
  · rw [prev?_eq valid]
    congr 1
    omega

theorem nextGap?_eq (valid : b.Valid) (index : Nat) :
    b.nextGap? index = least? (fun i => !b.contains i) index (b.capacity - index) := by
  have room := valid.packed.capacity_le
  have same : b.contains = b.storage.bit := funext valid.packed.contains_eq
  unfold nextGap?
  rw [same]
  split
  · rw [Storage.nextGap?_eq _ (by omega)]
    cases near : least? (fun i => !b.storage.bit i) index (b.capacity - index) with
    | some j =>
      rw [least?_eq_some_iff] at near
      obtain ⟨above, inside, hit, before⟩ := near
      have far : least? (fun i => !b.storage.bit i) index (8 * b.storage.size - index) = some j :=
        least?_eq_some_iff.mpr ⟨above, by omega, hit, before⟩
      rw [far, Option.filter_some, if_pos (by simp; omega)]
    | none =>
      rw [least?_eq_none_iff] at near
      rw [Option.filter_eq_none_iff]
      intro j far inside
      obtain ⟨above, _, hit, _⟩ := least?_eq_some_iff.mp far
      rw [near j above (by simp at inside; omega)] at hit
      exact Bool.noConfusion hit
  · have none_left : b.capacity - index = 0 := by omega
    rw [none_left, least?]

/-! ### Counting -/

theorem storage_count_eq_sum (s : Storage) : s.count = (s.toList.map Byte.weight).sum := by
  unfold Storage.count
  rw [← Array.sum_eq_foldl, ← Array.sum_toList, Array.toList_map]

theorem storage_count (s : Storage) : s.count = (List.range (8 * s.size)).countP s.bit := by
  have bytes : s.toList = (List.range s.size).map s.byte := by
    apply List.ext_getElem
    · simp
    · intro j here there
      simp [Storage.byte, Array.getElem?_eq_getElem (show j < s.size by simpa using here)]
  have total : ∀ n, ((List.range n).map fun j => Byte.weight (s.byte j)).sum =
      (List.range (8 * n)).countP s.bit := by
    intro n
    induction n with
    | zero => rfl
    | succ n ih =>
      have last : Byte.weight (s.byte n) = (List.range 8).countP (s.bit ∘ (8 * n + ·)) := by
        unfold Byte.weight
        unfold Byte.positions
        rw [← List.countP_eq_length_filter]
        apply List.countP_congr
        intro pos inside
        have inside : pos < 8 := List.mem_range.mp inside
        have same_byte : (8 * n + pos) / 8 = n := by omega
        have same_bit : (8 * n + pos) % 8 = pos := by omega
        rw [Function.comp_apply, Storage.bit, same_byte, same_bit]
      rw [List.range_succ, List.map_append, List.sum_append, ih, Nat.mul_succ, List.range_add,
        List.countP_append, List.countP_map, ← last]
      simp
  rw [storage_count_eq_sum, bytes, List.map_map, ← total]
  rfl

theorem count_eq (valid : b.Valid) : b.count = (List.range b.capacity).countP b.contains := by
  have same : b.contains = b.storage.bit := funext valid.packed.contains_eq
  unfold count
  rw [storage_count, same]
  apply countP_range_shrink valid.packed.capacity_le
  intro i past _
  exact valid.padding i past

end SequenceTracking.PackedBits
