import SequenceTracking.Proofs.Window.Reachable

/-!
What merging two windows of one space answers and leaves, whatever their capacities. A merge that adds marks
is accepted exactly when one arc of the receiver's capacity holds the marks of both; a merge that only drops
marks is always accepted, and its ends move to the nearest marks that remain.
-/
namespace SequenceTracking.Window

variable {v w other : Window} {q : Placement}

/-! ### Merges that add marks -/

theorem Valid.coverable (valid : w.Valid) :
    w.space.Coverable w.capacity fun x => w.contains x = true := valid.within

theorem union_accepted_iff (valid : w.Valid) (operand : other.Valid) (same : w.space = other.space) :
    (w.union other).failure? = none ↔
      w.space.Coverable w.capacity fun x => w.contains x = true ∨ other.contains x = true := by
  rw [(union_decides valid operand same).accepted_iff, admits_iff_coverable]

theorem symmDiff_accepted_iff (valid : w.Valid) (operand : other.Valid)
    (same : w.space = other.space) :
    (w.symmDiff other).failure? = none ↔
      w.space.Coverable w.capacity fun x => w.contains x = true ∨ other.contains x = true := by
  rw [(symmDiff_decides valid operand same).accepted_iff, admits_iff_coverable]

theorem coverable_iff_of_unoccupied (valid : w.Valid) :
    (other.isOccupied = false ∨
        w.space.Coverable w.capacity fun x => w.contains x = true ∨ other.contains x = true) ↔
      w.space.Coverable w.capacity fun x => w.contains x = true ∨ other.contains x = true := by
  -- What is marked in an empty operand is no more than what is marked in the receiver.
  constructor
  · intro given
    rcases given with empty | coverable
    · have unplaced := unplaced_of_not_occupied (ne_true_of_eq_false empty)
      apply valid.coverable.mono
      intro x given
      simpa [contains_of_unplaced unplaced] using given
    · exact coverable
  · exact .inr

/-- The union and the symmetric difference are accepted exactly when the operand is empty or one arc of the
    receiver's capacity holds the marks of both windows. They mark the numbers that either window marked,
    and those that exactly one of them did, and keep the capacity. -/
theorem union_symmDiff_exact (reachable : w.Reachable) (other_reachable : other.Reachable)
    (same : w.space = other.space) :
    ((w.union other).failure? = none ↔ other.isOccupied = false ∨
      w.space.Coverable w.capacity fun x => w.contains x = true ∨ other.contains x = true) ∧
    ((w.symmDiff other).failure? = none ↔ other.isOccupied = false ∨
      w.space.Coverable w.capacity fun x => w.contains x = true ∨ other.contains x = true) ∧
    ((w.union other).failure? = none →
      ∀ x, (w.union other).state.contains x = (w.contains x || other.contains x)) ∧
    ((w.symmDiff other).failure? = none →
      ∀ x, (w.symmDiff other).state.contains x = (w.contains x != other.contains x)) ∧
    (w.union other).state.capacity = w.capacity ∧
    (w.symmDiff other).state.capacity = w.capacity := by
  have valid := reachable.valid
  have operand := other_reachable.valid
  have joined := union_decides valid operand same
  have flipped := symmDiff_decides valid operand same
  refine ⟨?_, ?_, fun accepted x => ?_, fun accepted x => ?_, joined.capacity_eq, flipped.capacity_eq⟩
  · rw [coverable_iff_of_unoccupied valid, union_accepted_iff valid operand same]
  · rw [coverable_iff_of_unoccupied valid, symmDiff_accepted_iff valid operand same]
  · have marks := (joined.leaves_of_accepted accepted).contains_iff x
    rw [Bool.eq_iff_iff, marks, Bool.or_eq_true]
  · have marks := (flipped.leaves_of_accepted accepted).contains_iff x
    rw [Bool.eq_iff_iff, marks]
    cases w.contains x <;> cases other.contains x <;> decide

theorem union_symmDiff_exact_of_emptied :
    let w : Window := ⟨⟨4, #[0xC0], 0⟩, ⟨15, by decide, by decide⟩, some ⟨0, 1, 14⟩⟩
    let other : Window := ⟨⟨6, #[0xF0], 0⟩, ⟨15, by decide, by decide⟩, some ⟨0, 3, 14⟩⟩
    (w.symmDiff other).failure? = none ∧
      (w.space.Coverable w.capacity fun x => w.contains x = true ∨ other.contains x = true) ∧
      (∀ x, (w.symmDiff other).state.contains x = (w.contains x != other.contains x)) ∧
      (w.symmDiff other).state.marks = [0, 1] := by
  -- flipped in, the wider operand first clears both marks, and the receiver is anchored anew past zero
  intro w other
  have reachable : w.Reachable :=
    reachable_of_run .standard [⟨4, 15⟩] [.edit 0 (.markRun 14 2)] 0 (by decide +kernel)
  have other_reachable : other.Reachable :=
    reachable_of_run .standard [⟨6, 15⟩] [.edit 0 (.markRun 14 4)] 0 (by decide +kernel)
  have accepted : (w.symmDiff other).failure? = none := by decide +kernel
  obtain ⟨_, exact, _, flipped, _, _⟩ := union_symmDiff_exact reachable other_reachable rfl
  have coverable := (exact.mp accepted).resolve_left (by decide)
  exact ⟨accepted, coverable, flipped accepted, by decide +kernel⟩

/-! ### Merges that drop marks -/

/-- The lowest and the highest mark of `v` are its nearest marks ahead of the lowest and behind the highest
    mark of `w`; they are missing exactly when nothing is marked in `v`. -/
structure NearestEnds (w v : Window) : Prop where
  first_none : v.first? = none ↔ ∀ x, v.contains x = false
  last_none : v.last? = none ↔ ∀ x, v.contains x = false
  first : ∀ first, v.first? = some first → first ≤ w.space.mask ∧ v.contains first = true ∧
    ∃ lowest, w.first? = some lowest ∧ ∀ x, v.contains x = true →
      0 ≤ w.space.distance first lowest ∧ w.space.distance first lowest ≤ w.space.distance x lowest
  last : ∀ last, v.last? = some last → last ≤ w.space.mask ∧ v.contains last = true ∧
    ∃ highest, w.last? = some highest ∧ ∀ x, v.contains x = true →
      0 ≤ w.space.distance highest last ∧ w.space.distance highest last ≤ w.space.distance highest x

section Fewer

variable (valid : w.Valid) (kept : v.Valid) (space_eq : v.space = w.space)
  (fewer : ∀ x, v.contains x = true → w.contains x = true)
include valid kept space_eq fewer

theorem span_within (v_placed : v.placement? = some q) :
    ∃ p, w.Anchored p (w.extent p) ∧ ∃ j : Nat, q.lowest = w.space.advance p.lowest j ∧
      j + v.extent q ≤ w.extent p ∧ ∀ x, v.contains x = true → ∃ k : Nat, k ≤ v.extent q ∧
        w.space.reduce x = w.space.advance p.lowest (j + k : Nat) := by
  have short := valid.capacity_le
  have kept_short := kept.capacity_le
  have v_anchored := kept.anchored v_placed
  have first_marked := fewer _ (v_anchored.contains_first kept.sound)
  have last_marked := fewer _ (v_anchored.contains_last kept.sound)
  cases placed : w.placement? with
  | none => simp [contains_of_unplaced placed] at first_marked
  | some p =>
    have anchored := valid.anchored placed
    have extent_lt := anchored.extent_lt
    have v_extent_lt := v_anchored.extent_lt
    have reduced := v.space.reduce_of_le v_anchored.lowest_le
    obtain ⟨j, j_le, at_j⟩ := anchored.exists_offset valid.sound first_marked
    obtain ⟨i, i_le, at_i⟩ := anchored.exists_offset valid.sound last_marked
    rw [space_eq] at kept_short reduced at_i at_j
    rw [Int.natCast_zero, Space.advance_zero, reduced] at at_j
    have sum := w.space.offset_of_advance short (by omega) (by omega) (by omega) at_j at_i
    have lowest_eq : q.lowest = w.space.advance p.lowest j := reduced.symm.trans at_j
    refine ⟨p, anchored, j, lowest_eq, by omega, fun x marked => ?_⟩
    obtain ⟨k, near, at_k⟩ := v_anchored.exists_offset kept.sound marked
    refine ⟨k, near, ?_⟩
    rw [← space_eq, at_k, lowest_eq, space_eq, Space.advance_advance, Int.natCast_add]

theorem first?_nearest {first : UInt32} (found : v.first? = some first) :
    first ≤ w.space.mask ∧ v.contains first = true ∧
      ∃ lowest, w.first? = some lowest ∧ ∀ x, v.contains x = true →
        0 ≤ w.space.distance first lowest ∧ w.space.distance first lowest ≤ w.space.distance x lowest := by
  have short := valid.capacity_le
  cases placed : v.placement? with
  | none => simp [first?, placed] at found
  | some q =>
    have v_anchored := kept.anchored placed
    obtain rfl := Option.some.inj (v_anchored.first?_eq.symm.trans found)
    have marked := v_anchored.contains_lowest kept.sound
    obtain ⟨p, anchored, j, lowest_eq, inside, place⟩ := span_within valid kept space_eq fewer placed
    have extent_lt := anchored.extent_lt
    refine ⟨space_eq ▸ v_anchored.lowest_le, marked, p.lowest, anchored.first?_eq, fun x there => ?_⟩
    obtain ⟨k, near, at_k⟩ := place x there
    rw [lowest_eq, w.space.distance_advance p.lowest (by omega) (by omega),
      (w.space.distance_eq_iff (by omega) (by omega)).mpr at_k]
    omega

theorem last?_nearest {last : UInt32} (found : v.last? = some last) :
    last ≤ w.space.mask ∧ v.contains last = true ∧
      ∃ highest, w.last? = some highest ∧ ∀ x, v.contains x = true →
        0 ≤ w.space.distance highest last ∧
          w.space.distance highest last ≤ w.space.distance highest x := by
  have short := valid.capacity_le
  cases placed : v.placement? with
  | none => simp [last?, placed] at found
  | some q =>
    have v_anchored := kept.anchored placed
    obtain rfl := Option.some.inj (v_anchored.last?_eq.symm.trans found)
    obtain ⟨p, anchored, j, lowest_eq, inside, place⟩ := span_within valid kept space_eq fewer placed
    have extent_lt := anchored.extent_lt
    have last_eq : v.space.advance q.lowest (v.extent q) =
        w.space.advance p.lowest (j + v.extent q : Nat) := by
      rw [lowest_eq, space_eq, Space.advance_advance, Int.natCast_add]
    refine ⟨space_eq ▸ v.space.advance_le _ _, v_anchored.contains_last kept.sound, _,
      anchored.last?_eq, fun x there => ?_⟩
    obtain ⟨k, near, at_k⟩ := place x there
    have at_last := w.space.reduce_advance p.lowest (w.extent p)
    rw [last_eq, w.space.distance_advance_advance p.lowest (by omega) (by omega),
      w.space.distance_of_offsets short extent_lt (by omega) at_last at_k]
    omega

theorem nearestEnds_of_fewer : NearestEnds w v :=
  ⟨first?_eq_none_iff kept, last?_eq_none_iff kept, fun _ => first?_nearest valid kept space_eq fewer,
    fun _ => last?_nearest valid kept space_eq fewer⟩

end Fewer

theorem Step.Leaves.nearestEnds {s : Step} {marks : UInt32 → Prop} (leaves : s.Leaves w marks)
    (valid : w.Valid) (fewer : ∀ x, marks x → w.contains x = true) : NearestEnds w s.state :=
  nearestEnds_of_fewer valid leaves.valid leaves.space_eq fun x marked =>
    fewer x ((leaves.contains_iff x).mp marked)

/-- The difference and the intersection with any operand over the same space are accepted. They keep the marks
    that the operand lacks, and those that it has; the ends move to the nearest marks that remain, and the
    capacity is kept. -/
theorem subtract_intersect_exact (reachable : w.Reachable) (same : w.space = other.space) :
    (w.subtract other).failure? = none ∧ (w.intersect other).failure? = none ∧
    (∀ x, (w.subtract other).state.contains x = (w.contains x && !other.contains x)) ∧
    (∀ x, (w.intersect other).state.contains x = (w.contains x && other.contains x)) ∧
    NearestEnds w (w.subtract other).state ∧ NearestEnds w (w.intersect other).state ∧
    (w.subtract other).state.capacity = w.capacity ∧
    (w.intersect other).state.capacity = w.capacity := by
  have valid := reachable.valid
  have alone := subtract_leaves valid same
  have common := intersect_leaves valid same
  refine ⟨alone.accepted, common.accepted, fun x => ?_, fun x => ?_,
    alone.nearestEnds valid fun x => And.left, common.nearestEnds valid fun x => And.left,
    alone.capacity_eq, common.capacity_eq⟩
  · rw [Bool.eq_iff_iff, alone.contains_iff, Bool.and_eq_true, Bool.not_eq_true', Bool.not_eq_true]
  · rw [Bool.eq_iff_iff, common.contains_iff, Bool.and_eq_true]

theorem subtract_intersect_exact_of_wrapped :
    let w : Window := ⟨⟨4, #[0xF0], 0⟩, ⟨15, by decide, by decide⟩, some ⟨2, 1, 14⟩⟩
    let other : Window := ⟨⟨7, #[0xC4], 0⟩, ⟨15, by decide, by decide⟩, some ⟨0, 5, 0⟩⟩
    (w.subtract other).state.marks = [14, 15] ∧ NearestEnds w (w.subtract other).state ∧
      (w.intersect other).state.marks = [0, 1] ∧ NearestEnds w (w.intersect other).state := by
  -- the operand shares the two highest marks: one merge moves the stop back, the other the start on
  intro w other
  have reachable : w.Reachable := reachable_of_run .standard [⟨4, 15⟩]
    [.edit 0 (.markRun 0 2), .edit 0 (.markRun 14 2)] 0 (by decide +kernel)
  have same : w.space = other.space := rfl
  obtain ⟨_, _, _, _, lower, upper, _⟩ := subtract_intersect_exact reachable same
  exact ⟨by decide +kernel, lower, by decide +kernel, upper⟩

end SequenceTracking.Window
