import SequenceTracking.Proofs.Window.Rebuilding
import SequenceTracking.Window.Text

/-!
Windows that mark the same numbers. The lowest mark is the one that no mark lies behind, so the marks
alone tell where the offsets are counted from and which of them are set. Where storage holds the bits is
left open: two windows that are alike may be rotated against each other, and every question is answered
through the offsets.
-/
namespace SequenceTracking.Window

open Search

variable {v w : Window} {p q : Placement}

theorem Valid.first?_eq_of_least (valid : w.Valid) (seq : UInt32) (reduced : w.space.reduce seq = seq)
    (marked : w.contains seq = true)
    (least : ∀ x, w.contains x = true → 0 ≤ w.space.distance x seq) : w.first? = some seq := by
  have short := valid.capacity_le
  cases placed : w.placement? with
  | none => simp [contains_of_unplaced placed] at marked
  | some p =>
    have anchored := valid.anchored placed
    have extent_lt := anchored.extent_lt
    obtain ⟨k, near, same⟩ := anchored.exists_offset valid.sound marked
    have first := least _ (anchored.contains_first valid.sound)
    rw [← Space.distance_reduce_right, same] at first
    have back := w.space.distance_advance_advance p.lowest (m := (0 : Nat)) (n := k) (by omega)
      (by omega)
    rw [back] at first
    have none_behind : k = 0 := by omega
    subst none_behind
    rw [anchored.first?_eq, ← reduced, same, anchored.advance_zero]

theorem Valid.first?_congr (left : v.Valid) (right : w.Valid) (space_eq : v.space = w.space)
    (contains_eq : ∀ seq, v.contains seq = w.contains seq) : v.first? = w.first? := by
  cases placed : v.placement? with
  | none =>
    rw [first?, placed, Option.map_none, eq_comm, first?_eq_none_iff right]
    intro x
    rw [← contains_eq, contains_of_unplaced placed]
  | some p =>
    have anchored := left.anchored placed
    rw [anchored.first?_eq, eq_comm]
    apply right.first?_eq_of_least
    · rw [← space_eq]
      exact v.space.reduce_of_le anchored.lowest_le
    · rw [← contains_eq]
      exact anchored.contains_lowest left.sound
    · intro x there
      rw [← contains_eq] at there
      rw [← space_eq]
      exact left.none_behind placed there

/-- Two valid windows over one space and of one capacity mark the same numbers. -/
structure Alike (v w : Window) : Prop where
  left : v.Valid
  right : w.Valid
  space_eq : v.space = w.space
  capacity_eq : v.capacity = w.capacity
  contains_eq : ∀ seq, v.contains seq = w.contains seq

theorem Valid.alike (valid : w.Valid) : Alike w w := ⟨valid, valid, rfl, rfl, fun _ => rfl⟩

theorem Step.Leaves.alike {s t : Step} {marks : UInt32 → Prop} (first : s.Leaves v marks)
    (second : t.Leaves w marks) (space_eq : v.space = w.space) (capacity_eq : v.capacity = w.capacity) :
    Alike s.state t.state where
  left := first.valid
  right := second.valid
  space_eq := by rw [first.space_eq, space_eq, second.space_eq]
  capacity_eq := by rw [first.capacity_eq, capacity_eq, second.capacity_eq]
  contains_eq seq := by rw [Bool.eq_iff_iff, first.contains_iff, second.contains_iff]

/-! ### The same offsets -/

/-- Counted from `p` and from `q`, the windows have the same lowest mark and the same offsets set. -/
structure Abreast (v w : Window) (p q : Placement) : Prop where
  left : v.Anchored p (v.extent p)
  right : w.Anchored q (w.extent q)
  lowest_eq : p.lowest = q.lowest
  extent_eq : v.extent p = w.extent q
  atOffset_eq : v.atOffset p = w.atOffset q

theorem Alike.abreast (alike : Alike v w) (placed : v.placement? = some p)
    (other_placed : w.placement? = some q) (lowest_eq : p.lowest = q.lowest) :
    Abreast v w p q := by
  have left := alike.left.anchored placed
  have right := alike.right.anchored other_placed
  have capacity_eq := alike.capacity_eq
  have left_lt := left.extent_lt
  have right_lt := right.extent_lt
  have bits : v.atOffset p = w.atOffset q := by
    funext k
    have inside : k % v.capacity < v.capacity := Nat.mod_lt k alike.left.capacity_pos
    rw [← atOffset_mod v, ← contains_advance alike.left.sound left inside, alike.contains_eq,
      alike.space_eq, lowest_eq, contains_advance alike.right.sound right (by omega), capacity_eq,
      atOffset_mod]
  refine ⟨left, right, lowest_eq, Nat.le_antisymm ?_ ?_, bits⟩
  · apply right.le_extent (by omega)
    rw [← bits]
    exact left.last
  · apply left.le_extent (by omega)
    rw [bits]
    exact right.last

theorem Alike.placements (alike : Alike v w) :
    (v.placement? = none ∧ w.placement? = none) ∨
      ∃ p q, v.placement? = some p ∧ w.placement? = some q ∧ Abreast v w p q := by
  have first := alike.left.first?_congr alike.right alike.space_eq alike.contains_eq
  cases placed : v.placement? with
  | none =>
    rw [first?, placed, Option.map_none, eq_comm, first?, Option.map_eq_none_iff] at first
    exact .inl ⟨rfl, first⟩
  | some p =>
    rw [(alike.left.anchored placed).first?_eq, eq_comm] at first
    obtain ⟨q, other_placed, lowest_eq⟩ := Option.map_eq_some_iff.mp first
    exact .inr ⟨p, q, rfl, other_placed, alike.abreast placed other_placed lowest_eq.symm⟩

/-! ### The same answers -/

structure Indistinguishable (v w : Window) : Prop where
  same : v.sameMarks w = true
  shape_eq : v.shape = w.shape
  contains_eq : ∀ seq, v.contains seq = w.contains seq
  accepts_eq : ∀ seq, v.accepts seq = w.accepts seq
  next_eq : ∀ seq, v.next? seq = w.next? seq
  prev_eq : ∀ seq, v.prev? seq = w.prev? seq
  nextGap_eq : ∀ seq, v.nextGap? seq = w.nextGap? seq
  first_eq : v.first? = w.first?
  last_eq : v.last? = w.last?
  span_eq : v.span = w.span
  count_eq : v.count = w.count
  occupied_eq : v.isOccupied = w.isOccupied
  marks_eq : v.marks = w.marks
  dump_eq : v.dump = w.dump
  dumpEvent_eq : ∀ limit, v.dumpEvent limit = w.dumpEvent limit

theorem Alike.shape_eq (alike : Alike v w) : v.shape = w.shape := by
  unfold shape
  rw [alike.capacity_eq, alike.space_eq]

theorem Alike.fits_iff (alike : Alike v w) (seq : UInt32) (count : Nat) :
    v.Fits seq count ↔ w.Fits seq count := by
  simp only [Fits, Admits, Within, alike.contains_eq, alike.space_eq, alike.capacity_eq]

theorem Alike.accepts_eq (alike : Alike v w) (seq : UInt32) : v.accepts seq = w.accepts seq := by
  rw [Bool.eq_iff_iff, accepts_iff alike.left, accepts_iff alike.right]
  exact alike.fits_iff seq 1

theorem Alike.scans_eq (alike : Alike v w) (seq : UInt32) :
    v.next? seq = w.next? seq ∧ v.prev? seq = w.prev? seq ∧ v.nextGap? seq = w.nextGap? seq := by
  rcases alike.placements with ⟨placed, other_placed⟩ | ⟨p, q, _, _, abreast⟩
  · simp [next?, prev?, nextGap?, placed, other_placed, alike.space_eq]
  · have left := alike.left.bits_valid
    have right := alike.right.bits_valid
    rw [next?_eq left abreast.left rfl, next?_eq right abreast.right rfl, prev?_eq left abreast.left rfl,
      prev?_eq right abreast.right rfl, nextGap?_eq left abreast.left rfl,
      nextGap?_eq right abreast.right rfl, abreast.atOffset_eq, abreast.extent_eq, abreast.lowest_eq,
      alike.space_eq, alike.capacity_eq]
    exact ⟨rfl, rfl, rfl⟩

theorem Alike.first_eq (alike : Alike v w) : v.first? = w.first? :=
  alike.left.first?_congr alike.right alike.space_eq alike.contains_eq

theorem Alike.span_eq (alike : Alike v w) : v.span = w.span := by
  rcases alike.placements with ⟨placed, other_placed⟩ | ⟨p, q, _, _, abreast⟩
  · rw [span, span, placed, other_placed]
  · rw [abreast.left.span_eq, abreast.right.span_eq, abreast.extent_eq]

theorem Alike.occupied_eq (alike : Alike v w) : v.isOccupied = w.isOccupied := by
  rcases alike.placements with ⟨placed, other_placed⟩ | ⟨p, q, placed, other_placed, _⟩
  · rw [isOccupied, isOccupied, placed, other_placed]
  · rw [isOccupied, isOccupied, placed, other_placed]
    rfl

theorem Alike.marks_eq (alike : Alike v w) : v.marks = w.marks := by
  rcases alike.placements with ⟨placed, other_placed⟩ | ⟨p, q, _, _, abreast⟩
  · rw [marks_of_unplaced placed, marks_of_unplaced other_placed]
  · have extent_lt := abreast.left.extent_lt
    have same_offsets : v.setOffsets p (v.extent p) 0 = w.setOffsets q (w.extent q) 0 := by
      unfold setOffsets
      rw [abreast.extent_eq, abreast.atOffset_eq]
    rw [Window.marks_eq alike.left abreast.left, Window.marks_eq alike.right abreast.right,
      same_offsets, abreast.lowest_eq, alike.space_eq]

theorem Alike.last_eq (alike : Alike v w) : v.last? = w.last? := by
  rw [← getLast?_marks alike.left, alike.marks_eq, getLast?_marks alike.right]

theorem Alike.count_eq (alike : Alike v w) : v.count = w.count := by
  rw [Window.count_eq alike.left, alike.marks_eq, Window.count_eq alike.right]

theorem Alike.row_eq (alike : Alike v w) (limit : Nat) : v.row limit = w.row limit := by
  unfold row
  simp only [alike.first_eq, alike.capacity_eq, alike.space_eq, alike.contains_eq]

/-- The marks of windows of one shape are the same lists exactly when the same numbers are marked. -/
theorem sameMarks_iff_alike (left : v.Valid) (right : w.Valid) :
    v.sameMarks w = true ↔ Alike v w := by
  unfold sameMarks
  rw [Bool.and_eq_true, beq_iff_eq, beq_iff_eq]
  constructor
  · intro given
    obtain ⟨shape_eq, marks_eq⟩ := given
    have space_eq : v.space = w.space := Space.eq_of_mask (congrArg Shape.mask shape_eq)
    refine ⟨left, right, space_eq, congrArg Shape.capacity shape_eq, fun seq => ?_⟩
    have listed := among_marks left rfl seq
    rw [marks_eq, among_marks right space_eq] at listed
    exact Bool.eq_iff_iff.mpr listed.symm
  · intro alike
    exact ⟨alike.shape_eq, alike.marks_eq⟩

theorem Alike.indistinguishable (alike : Alike v w) : Indistinguishable v w where
  same := (sameMarks_iff_alike alike.left alike.right).mpr alike
  shape_eq := alike.shape_eq
  contains_eq := alike.contains_eq
  accepts_eq := alike.accepts_eq
  next_eq seq := (alike.scans_eq seq).1
  prev_eq seq := (alike.scans_eq seq).2.1
  nextGap_eq seq := (alike.scans_eq seq).2.2
  first_eq := alike.first_eq
  last_eq := alike.last_eq
  span_eq := alike.span_eq
  count_eq := alike.count_eq
  occupied_eq := alike.occupied_eq
  marks_eq := alike.marks_eq
  dump_eq := by rw [dump, dump, alike.row_eq, alike.capacity_eq]
  dumpEvent_eq limit := by rw [dumpEvent, dumpEvent, alike.row_eq, alike.first_eq]

end SequenceTracking.Window
