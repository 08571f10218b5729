import SequenceTracking.Proofs.Window.Alike
import SequenceTracking.Proofs.Window.Reachable

/-!
When windows are equal. Equality compares two walks, each begun at the lowest mark of its own window, and comes
down to the marks: two windows over one space with the same marks cannot differ about the lowest, although on a
circle no number is lower than another. Equal windows can still be rotated against each other in storage, and
differ in nothing else.
-/
namespace SequenceTracking.Window

variable {v w : Window} {p q : Placement}

theorem Abreast.placement_eq (abreast : Abreast v w p q) (capacity_eq : v.capacity = w.capacity)
    (start_eq : p.start = q.start) : p = q := by
  have stop_eq : p.stop = q.stop := by
    rw [abreast.left.stop_eq, abreast.right.stop_eq, abreast.extent_eq, capacity_eq, Placement.position,
      Placement.position, start_eq]
  cases p
  cases q
  rw [Placement.mk.injEq]
  exact ⟨start_eq, stop_eq, abreast.lowest_eq⟩

theorem Abreast.bits_contains_eq (abreast : Abreast v w p p) (capacity_eq : v.capacity = w.capacity) (i : Nat) :
    v.bits.contains i = w.bits.contains i := by
  have start_lt := abreast.left.start_lt
  by_cases inside : i < v.capacity
  · rw [contains_eq_atOffset start_lt inside, abreast.atOffset_eq, capacity_eq,
      contains_eq_atOffset abreast.right.start_lt (capacity_eq ▸ inside)]
  · have outside : w.capacity ≤ i := by omega
    rw [PackedBits.contains_of_le (b := v.bits) (Nat.le_of_not_lt inside),
      PackedBits.contains_of_le (b := w.bits) outside]

theorem Alike.eq_of_start (alike : Alike v w)
    (start_eq : ∀ p q, v.placement? = some p → w.placement? = some q → p.start = q.start) : v = w := by
  have same : v.placement? = w.placement? ∧ ∀ i, v.bits.contains i = w.bits.contains i := by
    rcases alike.placements with ⟨placed, other_placed⟩ | ⟨p, q, placed, other_placed, abreast⟩
    · refine ⟨placed.trans other_placed.symm, fun i => ?_⟩
      rw [alike.left.unplaced placed, alike.right.unplaced other_placed]
    · obtain rfl := abreast.placement_eq alike.capacity_eq (start_eq p q placed other_placed)
      exact ⟨placed.trans other_placed.symm, abreast.bits_contains_eq alike.capacity_eq⟩
  obtain ⟨placement_eq, contains_eq⟩ := same
  have bits_eq : v.bits = w.bits :=
    alike.left.bits_valid.eq_of_contains alike.right.bits_valid alike.capacity_eq contains_eq
  have space_eq := alike.space_eq
  cases v
  cases w
  rw [mk.injEq]
  exact ⟨bits_eq, space_eq, placement_eq⟩

/-- Windows that runs lead to are equal exactly if they have one capacity and one space and mark the same
    numbers. In one space the same marks have the same lowest one, even at different capacities. -/
theorem equality_extensional (left : v.Reachable) (right : w.Reachable) :
    (v.sameMarks w = true ↔ v.capacity = w.capacity ∧ v.space.mask = w.space.mask ∧
      ∀ seq, v.contains seq = w.contains seq) ∧
    (v.space.mask = w.space.mask → (∀ seq, v.contains seq = w.contains seq) → v.first? = w.first?) := by
  refine ⟨?_, fun mask_eq contains_eq =>
    left.valid.first?_congr right.valid (Space.eq_of_mask mask_eq) contains_eq⟩
  rw [sameMarks_iff_alike left.valid right.valid]
  constructor
  · intro alike
    exact ⟨alike.capacity_eq, congrArg Space.mask alike.space_eq, alike.contains_eq⟩
  · intro given
    obtain ⟨capacity_eq, mask_eq, contains_eq⟩ := given
    exact ⟨left.valid, right.valid, Space.eq_of_mask mask_eq, capacity_eq, contains_eq⟩

theorem equality_extensional_of_rotated :
    let v : Window := ⟨⟨8, #[0x92], 0⟩, ⟨15, by decide, by decide⟩, some ⟨3, 0, 14⟩⟩
    let w : Window := ⟨⟨8, #[0x94], 0⟩, ⟨15, by decide, by decide⟩, some ⟨0, 5, 14⟩⟩
    v ≠ w ∧ v.sameMarks w = true ∧ (∀ seq, v.contains seq = w.contains seq) ∧ v.first? = w.first? := by
  -- the same three marks met in opposite orders: one window slid back twice, the other never
  intro v w
  have left : v.Reachable := reachable_of_run .standard [⟨8, 15⟩]
    [.edit 0 (.mark 3), .edit 0 (.mark 1), .edit 0 (.mark 14)] 0 (by decide +kernel)
  have right : w.Reachable := reachable_of_run .standard [⟨8, 15⟩]
    [.edit 0 (.mark 14), .edit 0 (.mark 1), .edit 0 (.mark 3)] 0 (by decide +kernel)
  obtain ⟨same_iff, first_eq⟩ := equality_extensional left right
  have same : v.sameMarks w = true := by decide +kernel
  obtain ⟨_, mask_eq, contains_eq⟩ := same_iff.mp same
  exact ⟨by decide +kernel, same, contains_eq, first_eq mask_eq contains_eq⟩

end SequenceTracking.Window
