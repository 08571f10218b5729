import SequenceTracking.PackedBits.Algebra
import SequenceTracking.Proofs.PackedBits.Validity

/-!
Merges of valid bits, bit by bit and with the lowest index. Unused bits stay clear as long as a merge sets
nothing past the receiver's capacity. Each merge looks for its lowest bit from another bound on, or takes
it from one of the two sides without looking; none of them passes over a bit that is set.
-/
namespace SequenceTracking.PackedBits

variable {b other merged : PackedBits} {f : UInt8 → UInt8 → UInt8} {g : Bool → Bool → Bool}

/-- Valid bits in the receiver's capacity, each of which is what `g` makes of it in the receiver and in the
    operand. -/
structure Merged (b other merged : PackedBits) (g : Bool → Bool → Bool) : Prop where
  valid : merged.Valid
  capacity_eq : merged.capacity = b.capacity
  contains_eq : ∀ i, merged.contains i = g (b.contains i) (other.contains i)

def Bounded (b other : PackedBits) (g : Bool → Bool → Bool) : Prop :=
  ∀ i, b.capacity ≤ i → g false (other.contains i) = false

theorem bounded_of_le (room : other.capacity ≤ b.capacity) (nothing : g false false = false) :
    Bounded b other g := by
  intro i past
  rw [contains_of_le (Nat.le_trans room past)]
  exact nothing

theorem packed_combine (packed : b.Packed) (operand : other.Packed) (bitwise : Byte.Bitwise f g)
    (bounded : Bounded b other g) : (b.combine f other).Packed := by
  refine ⟨(Storage.size_combine _ _ _).trans packed.size, ?_⟩
  intro i past
  by_cases stored : i / 8 < b.storage.size
  · rw [combine, Storage.bit_combine bitwise _ _ stored, packed.padding i past,
      ← operand.contains_eq]
    exact bounded i past
  · apply Storage.bit_of_size_le
    rw [combine, Storage.size_combine]
    omega

theorem contains_merged (operand : other.Packed) (packed : b.Packed) (bitwise : Byte.Bitwise f g)
    (bounded : Bounded b other g) (i : Nat) :
    (b.combine f other).contains i = g (b.contains i) (other.contains i) := by
  by_cases inside : i < b.capacity
  · rw [contains_combine packed.size bitwise other inside, operand.contains_eq]
  · have past : b.capacity ≤ i := Nat.le_of_not_lt inside
    rw [contains_of_le (b := b.combine f other) past, contains_of_le past, bounded i past]

theorem merged_taken (valid : b.Valid) (operand : other.Valid) (bitwise : Byte.Bitwise f g)
    (bounded : Bounded b other g) {lowest : Nat} (lowest_le : lowest ≤ b.capacity)
    (clear : ∀ i, i < lowest → g (b.contains i) (other.contains i) = false)
    (hit : lowest < b.capacity → g (b.contains lowest) (other.contains lowest) = true) :
    Merged b other { b.combine f other with lowest := lowest } g := by
  have packed := packed_combine valid.packed operand.packed bitwise bounded
  have bits := contains_merged operand.packed valid.packed bitwise bounded
  have kept : ({ b.combine f other with lowest := lowest } : PackedBits).Packed :=
    ⟨packed.size, packed.padding⟩
  refine ⟨kept.valid lowest_le ?_ ?_, rfl, bits⟩
  · intro i below
    exact (bits i).trans (clear i below)
  · intro inside
    exact (bits lowest).trans (hit inside)

theorem merged_rescanned (valid : b.Valid) (operand : other.Valid) (bitwise : Byte.Bitwise f g)
    (bounded : Bounded b other g) {index : Nat}
    (clear : ∀ i, i < index → g (b.contains i) (other.contains i) = false) :
    Merged b other ((b.combine f other).rescan index) g := by
  have packed := packed_combine valid.packed operand.packed bitwise bounded
  have bits := contains_merged operand.packed valid.packed bitwise bounded
  refine ⟨rescan_valid packed fun i below => ?_, rfl, bits⟩
  rw [bits]
  exact clear i below

/-! ### Each merge -/

theorem within_of_le (room : other.capacity ≤ b.capacity) (merged : PackedBits) :
    b.within other merged = .done merged := by
  unfold within
  rw [if_neg (by omega)]

theorem within_of_lt (wide : b.capacity < other.capacity) (merged : PackedBits) :
    b.within other merged = .refused b (.span other.capacity b.capacity) := by
  unfold within
  rw [if_pos wide]

theorem within_valid (valid : b.Valid)
    (taken : other.capacity ≤ b.capacity → (b.within other merged).state.Valid) :
    (b.within other merged).state.Valid := by
  by_cases room : other.capacity ≤ b.capacity
  · exact taken room
  · rw [within_of_lt (by omega)]
    exact valid

theorem assign_merged (valid : b.Valid) (operand : other.Valid)
    (room : other.capacity ≤ b.capacity) :
    Merged b other (b.assign other).state fun _ q => q := by
  have bounded : Bounded b other fun _ q => q := bounded_of_le room rfl
  unfold assign
  rw [within_of_le room]
  rcases operand.first?_cases with ⟨found, hit⟩ | ⟨found, clear⟩
  · rw [found, Option.getD_some]
    have inside := lt_of_contains hit
    apply merged_taken valid operand (fun _ _ _ _ => rfl) bounded (by omega)
    · exact fun i below => operand.contains_of_lt below
    · exact fun _ => hit
  · rw [found, Option.getD_none]
    apply merged_taken valid operand (fun _ _ _ _ => rfl) bounded (Nat.le_refl _)
    · exact fun i _ => clear i
    · exact fun inside => absurd inside (Nat.lt_irrefl _)

theorem union_merged (valid : b.Valid) (operand : other.Valid)
    (room : other.capacity ≤ b.capacity) :
    Merged b other (b.union other).state (· || ·) := by
  have bounded : Bounded b other (· || ·) := bounded_of_le room rfl
  have bitwise : Byte.Bitwise (· ||| ·) (· || ·) := fun x y _ inside => Byte.test_or x y inside
  have lowest_le := valid.lowest_le
  unfold union
  rw [within_of_le room]
  rcases operand.first?_cases with ⟨found, hit⟩ | ⟨found, clear⟩
  · rw [found, Option.getD_some]
    apply merged_taken valid operand bitwise bounded (by omega)
    · intro i below
      rw [valid.contains_of_lt (by omega), operand.contains_of_lt (by omega), Bool.false_or]
    · intro inside
      by_cases ahead : other.lowest ≤ b.lowest
      · rw [Nat.min_eq_right ahead, hit, Bool.or_true]
      · have first : min b.lowest other.lowest = b.lowest := by omega
        rw [first, valid.contains_lowest (by simp only [isOccupied, decide_eq_true_eq]; omega),
          Bool.true_or]
  · rw [found, Option.getD_none, Nat.min_self]
    apply merged_taken valid operand bitwise bounded lowest_le
    · intro i below
      rw [valid.contains_of_lt below, clear, Bool.false_or]
    · intro inside
      rw [valid.contains_lowest (by simpa [isOccupied] using inside), Bool.true_or]

theorem subtract_merged (valid : b.Valid) (operand : other.Valid) :
    Merged b other (b.subtract other) fun p q => p && !q := by
  have bitwise : Byte.Bitwise (fun x y => x &&& ~~~y) fun p q => p && !q := by
    intro x y pos inside
    rw [Byte.test_and _ _ inside, Byte.test_not _ inside]
  apply merged_rescanned valid operand bitwise (fun _ _ => rfl)
  intro i below
  rw [valid.contains_of_lt below, Bool.false_and]

theorem subtractFrom_merged (valid : b.Valid) (operand : other.Valid)
    (room : other.capacity ≤ b.capacity) :
    Merged b other (b.subtractFrom other).state fun p q => q && !p := by
  have bitwise : Byte.Bitwise (fun x y => y &&& ~~~x) fun p q => q && !p := by
    intro x y pos inside
    rw [Byte.test_and _ _ inside, Byte.test_not _ inside]
  unfold subtractFrom
  rw [within_of_le room]
  apply merged_rescanned valid operand bitwise (bounded_of_le room rfl)
  intro i below
  rw [operand.contains_of_lt below, Bool.false_and]

theorem intersect_merged (valid : b.Valid) (operand : other.Valid) :
    Merged b other (b.intersect other) (· && ·) := by
  have bitwise : Byte.Bitwise (· &&& ·) (· && ·) := fun x y _ inside => Byte.test_and x y inside
  apply merged_rescanned valid operand bitwise (fun _ _ => rfl)
  intro i below
  by_cases before : i < b.lowest
  · rw [valid.contains_of_lt before, Bool.false_and]
  · rw [operand.contains_of_lt (by omega), Bool.and_false]

theorem symmDiff_merged (valid : b.Valid) (operand : other.Valid)
    (room : other.capacity ≤ b.capacity ∨ other.isOccupied = false) :
    Merged b other (b.symmDiff other).state (· ^^ ·) := by
  have bitwise : Byte.Bitwise (· ^^^ ·) (· ^^ ·) := fun x y _ inside => Byte.test_xor x y inside
  unfold symmDiff
  split
  · rename_i occupied
    have room : other.capacity ≤ b.capacity := room.resolve_right (by simp [occupied])
    rw [within_of_le room]
    apply merged_rescanned valid operand bitwise (bounded_of_le room rfl)
    intro i below
    rw [valid.contains_of_lt (by omega), operand.contains_of_lt (by omega), Bool.false_xor]
  · rename_i empty
    refine ⟨valid, rfl, fun i => ?_⟩
    rw [operand.not_isOccupied empty, Bool.xor_false]
    rfl

theorem symmDiff_valid (valid : b.Valid) (operand : other.Valid) : (b.symmDiff other).state.Valid := by
  by_cases taken : other.capacity ≤ b.capacity ∨ other.isOccupied = false
  · exact (symmDiff_merged valid operand taken).valid
  · simp only [not_or, Nat.not_le, Bool.not_eq_false] at taken
    obtain ⟨wide, occupied⟩ := taken
    unfold symmDiff
    rw [if_pos occupied, within_of_lt wide]
    exact valid

theorem merge_valid (valid : b.Valid) (operand : other.Valid) (kind : Merge) :
    (b.merge other kind).state.Valid := by
  cases kind with
  | clone => exact operand
  | assign => exact within_valid valid fun room => (assign_merged valid operand room).valid
  | union => exact within_valid valid fun room => (union_merged valid operand room).valid
  | subtract => exact (subtract_merged valid operand).valid
  | subtractFrom =>
    exact within_valid valid fun room => (subtractFrom_merged valid operand room).valid
  | intersect => exact (intersect_merged valid operand).valid
  | symmDiff => exact symmDiff_valid valid operand

end SequenceTracking.PackedBits
