import SequenceTracking.Proofs.Checked.Addressable
import SequenceTracking.Proofs.Checked.BitMerging

/-!
Merges as operations of boolean algebra, for a receiver and an operand of any two capacities. The bytes of the
shorter side run out first, and its last byte has unused bits; what a merge makes of the rest is what it makes
of bits that are clear. Three merges want room for every bit that the operand could hold, one only if the
operand holds any bit, and two never fail.
-/
namespace SequenceTracking.PackedBits

variable {b other merged : PackedBits} {outcome : Outcome PackedBits} {refused : Prop} {g : Bool → Bool → Bool}

/-- The merge is turned down on one condition, for want of room; if not, the receiver keeps its capacity and
    each bit is what `g` makes of it in the receiver and in the operand. -/
structure Combines (b other : PackedBits) (outcome : Outcome PackedBits) (refused : Prop)
    (g : Bool → Bool → Bool) : Prop where
  refused_iff : outcome.failure? ≠ none ↔ refused
  reason : refused → outcome.failure? = some (.span other.capacity b.capacity)
  capacity_eq : outcome.failure? = none → outcome.state.capacity = b.capacity
  contains_eq : outcome.failure? = none → ∀ i, outcome.state.contains i = g (b.contains i) (other.contains i)

theorem combines_of_merged (accepted : outcome.failure? = none) (room : ¬ refused)
    (merged : Merged b other outcome.state g) : Combines b other outcome refused g where
  refused_iff := ⟨fun failed => absurd accepted failed, fun wide => absurd wide room⟩
  reason wide := absurd wide room
  capacity_eq _ := merged.capacity_eq
  contains_eq _ := merged.contains_eq

theorem combines_of_refused (failed : outcome.failure? = some (.span other.capacity b.capacity))
    (wide : refused) : Combines b other outcome refused g where
  refused_iff := ⟨fun _ => wide, fun _ accepted => by simp [failed] at accepted⟩
  reason _ := failed
  capacity_eq accepted := by simp [failed] at accepted
  contains_eq accepted := by simp [failed] at accepted

theorem within_combines
    (taken : other.capacity ≤ b.capacity → Merged b other (b.within other merged).state g) :
    Combines b other (b.within other merged) (b.capacity < other.capacity) g := by
  by_cases room : other.capacity ≤ b.capacity
  · apply combines_of_merged
    · rw [within_of_le room]
      rfl
    · exact Nat.not_lt_of_le room
    · exact taken room
  · have wide : b.capacity < other.capacity := Nat.lt_of_not_le room
    apply combines_of_refused
    · rw [within_of_lt wide]
      rfl
    · exact wide

theorem symmDiff_combines (valid : b.Valid) (operand : other.Valid) :
    Combines b other (b.symmDiff other) (other.isOccupied = true ∧ b.capacity < other.capacity) (· ^^ ·) := by
  cases occupied : other.isOccupied with
  | false =>
    apply combines_of_merged
    · simp [symmDiff, occupied, Outcome.done]
    · intro given
      exact Bool.noConfusion given.1
    · exact symmDiff_merged valid operand (.inr occupied)
  | true =>
    have checked : b.symmDiff other = b.within other
        ((b.combine (· ^^^ ·) other).rescan (min b.lowest other.lowest)) := if_pos occupied
    have taken := symmDiff_merged valid operand
    rw [checked] at taken ⊢
    simpa only [true_and] using within_combines fun room => taken (.inl room)

structure BooleanMerges (b other : PackedBits) : Prop where
  assign : Combines b other (b.merge other .assign) (b.capacity < other.capacity) fun _ q => q
  union : Combines b other (b.merge other .union) (b.capacity < other.capacity) fun p q => p || q
  subtractFrom :
    Combines b other (b.merge other .subtractFrom) (b.capacity < other.capacity) fun p q => q && !p
  symmDiff : Combines b other (b.merge other .symmDiff)
    ((∃ i, other.contains i = true) ∧ b.capacity < other.capacity) fun p q => p != q
  subtract : Combines b other (b.merge other .subtract) False fun p q => p && !q
  intersect : Combines b other (b.merge other .intersect) False fun p q => p && q
  /-- An operand that is too short is read as clear. -/
  past_operand : ∀ i, other.capacity ≤ i → other.contains i = false

/-- Merges of bits that runs lead to are boolean algebra on each bit, whatever the two capacities are. Done on
    the bytes that both sides have, with the rest kept or cleared, they give the same, if the receiver fits
    into storage that a word can address. -/
theorem merges_boolean (reachable : b.Reachable) (operand_reachable : other.Reachable) :
    BooleanMerges b other ∧
      (b.ReachableUnder Memory.Addressable →
        ∀ kind, Checked.bitsMerge b other kind = .ok (b.merge other kind)) := by
  have valid := reachable.valid
  have operand := operand_reachable.valid
  refine ⟨?_, fun addressed =>
    Checked.bitsMerge_ok valid operand (Checked.narrow_of_reachableUnder addressed)⟩
  constructor
  case assign => exact within_combines (assign_merged valid operand)
  case union => exact within_combines (union_merged valid operand)
  case subtractFrom => exact within_combines (subtractFrom_merged valid operand)
  case symmDiff =>
    rw [← operand.isOccupied_iff]
    exact symmDiff_combines valid operand
  case subtract => exact combines_of_merged rfl not_false (subtract_merged valid operand)
  case intersect => exact combines_of_merged rfl not_false (intersect_merged valid operand)
  case past_operand => exact fun i past => contains_of_le past

theorem merges_boolean_of_capacities :
    let b : PackedBits := ⟨20, #[0xA5, 0xFF, 0xF0], 0⟩
    let other : PackedBits := ⟨11, #[0x0F, 0xE0], 4⟩
    (∀ i, (b.merge other .subtractFrom).state.contains i = (other.contains i && !b.contains i)) ∧
      (∀ i, (b.merge other .symmDiff).state.contains i = (b.contains i != other.contains i)) ∧
      (b.merge other .subtractFrom).state.contains 15 = false ∧
      (b.merge other .symmDiff).state.contains 15 = true ∧
      (other.merge b .union).failure? = some (.span 20 11) ∧
      (other.merge b .symmDiff).failure? = some (.span 20 11) ∧
      (other.merge b .intersect).failure? = none ∧
      (b.merge (empty 64) .symmDiff).failure? = none ∧
      Checked.bitsMerge b other .intersect = .ok (.done ⟨20, #[0x05, 0xE0, 0x00], 5⟩) := by
  -- three bytes against two, whose last byte has unused bits, and the other way round
  intro b other
  have reachable : b.Reachable := reachable_of_run .standard [20]
    [.edit 0 (.insert 0), .edit 0 (.insert 2), .edit 0 (.insert 5), .edit 0 (.insertRun 7 13)] 0
    (by decide +kernel)
  have operand : other.Reachable :=
    reachable_of_run .standard [11] [.edit 0 (.fill), .edit 0 (.eraseRun 0 4)] 0 (by decide +kernel)
  have nothing : (empty 64).Reachable := reachable_of_run .standard [64] [] 0 (by decide +kernel)
  obtain ⟨here, on_words⟩ := merges_boolean reachable operand
  have back := (merges_boolean operand reachable).1
  have long := (merges_boolean reachable nothing).1
  have narrow : Checked.Narrow b := show 8 * 3 < Checked.wordLimit by decide
  have addressed := Checked.reachableUnder_of_narrow reachable.valid narrow
  have holds : ∃ i, b.contains i = true := ⟨0, by decide +kernel⟩
  refine ⟨here.subtractFrom.contains_eq (by decide +kernel), here.symmDiff.contains_eq (by decide +kernel),
    ?_, ?_, back.union.reason (by decide), back.symmDiff.reason ⟨holds, by decide⟩, ?_, ?_, ?_⟩
  · decide +kernel
  · decide +kernel
  · exact not_not.mp (mt back.intersect.refused_iff.mp not_false)
  · apply not_not.mp
    intro failed
    obtain ⟨⟨i, hit⟩, _⟩ := long.symmDiff.refused_iff.mp failed
    simp [contains_empty] at hit
  · rw [on_words addressed]
    exact congrArg Except.ok (by decide +kernel)

end SequenceTracking.PackedBits
