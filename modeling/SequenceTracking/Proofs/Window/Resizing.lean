import SequenceTracking.Proofs.Window.Laws

/-!
What a change of capacity keeps. The marks that the new capacity reaches from the lowest mark stay, the lowest
mark among them, so nothing is lost when the span fits, and a window that was made larger is the same window
again when it gets its old capacity back.
-/
namespace SequenceTracking.Window

variable {w v : Window} {memory : Memory} {capacity : Nat}

theorem resize_accepted_iff (valid : w.Valid) :
    (w.resize memory capacity).failure? = none ↔
      1 ≤ capacity ∧ 2 * capacity ≤ w.space.size ∧ memory.grants (Byte.needed capacity) = true := by
  have total := w.space.size_eq
  rcases resize_cases valid memory capacity with
    ⟨reason, refusal, kept⟩ | ⟨fresh, made, space_eq, capacity_eq, leaves⟩
  · have refused : (w.resize memory capacity).failure? ≠ none := by
      rw [kept]
      exact Option.some_ne_none reason
    refine ⟨fun accepted => absurd accepted refused, fun given => ?_⟩
    obtain ⟨positive, narrow, granted⟩ := given
    have same_mask : (w.shape.withCapacity capacity).mask = w.space.mask := rfl
    have within_half : capacity ≤ w.space.half := by omega
    obtain ⟨fresh, made⟩ := create_of_usable same_mask positive within_half granted
    simp [made] at refusal
  · have new := create_new made
    have positive := new.valid.capacity_pos
    have short := new.valid.capacity_le
    rw [capacity_eq] at positive short
    rw [space_eq] at short
    exact ⟨fun _ => ⟨positive, by omega, granted_of_create made⟩, fun _ => leaves.accepted⟩

theorem resize_shows (valid : w.Valid) (accepted : (w.resize memory capacity).failure? = none) :
    (w.resize memory capacity).state.Shows w.space capacity fun x =>
      w.contains x = true ∧ w.Reaches capacity x := by
  rcases resize_cases valid memory capacity with
    ⟨reason, _, kept⟩ | ⟨fresh, _, space_eq, capacity_eq, leaves⟩
  · rw [kept] at accepted
    cases accepted
  · exact ⟨leaves.valid, leaves.space_eq.trans space_eq, leaves.capacity_eq.trans capacity_eq,
      leaves.contains_iff⟩

theorem Valid.reaches_of_marked (valid : w.Valid) (wide : w.span ≤ capacity) {x : UInt32}
    (marked : w.contains x = true) : w.Reaches capacity x := by
  intro first found
  obtain ⟨_, k, first_eq, inside, _, far⟩ := valid.exists_place marked
  obtain rfl := Option.some.inj (first_eq.symm.trans found)
  omega

theorem Valid.reaches_iff (valid : w.Valid) (x : UInt32) :
    (w.contains x = true ∧ w.Reaches capacity x) ↔
      w.contains x = true ∧ ∃ first, w.first? = some first ∧ w.space.distance x first < capacity := by
  refine and_congr_right fun marked => ?_
  cases found : w.first? with
  | none => simp [(first?_eq_none_iff valid).mp found x] at marked
  | some first => simp [Reaches, found]

theorem Shows.first?_eq (valid : w.Valid)
    (shows : v.Shows w.space capacity fun x => w.contains x = true ∧ w.Reaches capacity x) :
    v.first? = w.first? := by
  cases placed : w.placement? with
  | none =>
    rw [(first?_eq_none_iff valid).mpr (contains_of_unplaced placed), first?_eq_none_iff shows.valid]
    intro x
    rw [Bool.eq_false_iff, Ne, shows.contains_iff, contains_of_unplaced placed]
    simp
  | some p =>
    have anchored := valid.anchored placed
    have positive := shows.valid.capacity_pos
    rw [shows.capacity_eq] at positive
    rw [anchored.first?_eq]
    apply shows.valid.first?_eq_of_least
    · rw [shows.space_eq, w.space.reduce_of_le anchored.lowest_le]
    · rw [shows.contains_iff]
      refine ⟨anchored.contains_lowest valid.sound, fun first found => ?_⟩
      obtain rfl := Option.some.inj (anchored.first?_eq.symm.trans found)
      rw [Space.distance_self]
      omega
    · intro x there
      rw [shows.space_eq]
      exact valid.none_behind placed ((shows.contains_iff x).mp there).1

theorem Shows.restored (valid : w.Valid) (wide : w.capacity ≤ capacity)
    (shows : v.Shows w.space capacity fun x => w.contains x = true ∧ w.Reaches capacity x)
    (accepted : (v.resize memory w.capacity).failure? = none) :
    (v.resize memory w.capacity).state.sameMarks w = true := by
  have span_le := valid.span_le
  have first_eq := shows.first?_eq valid
  apply Shows.sameMarks _ (valid.shows_of_shape_eq rfl)
  have again := resize_shows shows.valid accepted
  rw [shows.space_eq] at again
  apply again.congr
  intro x
  rw [shows.contains_iff]
  -- Nothing was lost before, and the second change counts from the same lowest mark.
  constructor
  · exact fun given => given.1.1
  · intro marked
    refine ⟨⟨marked, valid.reaches_of_marked (by omega) marked⟩, fun first found => ?_⟩
    rw [first_eq] at found
    rw [shows.space_eq]
    exact valid.reaches_of_marked span_le marked first found

/-- `v` is `w` with the new capacity: it has exactly the marks less than that many places past the lowest one,
    which stays the lowest. Nothing is lost if the span fits, and a window that was made larger gets its old
    capacity back whenever storage is granted, and with it all that it was. -/
structure Resized (w : Window) (capacity : Nat) (v : Window) : Prop where
  capacity_eq : v.capacity = capacity
  mask_eq : v.space.mask = w.space.mask
  contains_iff : ∀ x, v.contains x = true ↔
    w.contains x = true ∧ ∃ first, w.first? = some first ∧ w.space.distance x first < capacity
  first_eq : v.first? = w.first?
  none_lost : w.span ≤ capacity → ∀ x, v.contains x = w.contains x
  restored : w.capacity ≤ capacity → ∀ memory : Memory,
    ((v.resize memory w.capacity).failure? = none ↔
      memory.grants (Byte.needed w.capacity) = true) ∧
    ((v.resize memory w.capacity).failure? = none →
      (v.resize memory w.capacity).state.sameMarks w = true)

theorem Shows.resized (valid : w.Valid)
    (shows : v.Shows w.space capacity fun x => w.contains x = true ∧ w.Reaches capacity x) :
    w.Resized capacity v where
  capacity_eq := shows.capacity_eq
  mask_eq := congrArg Space.mask shows.space_eq
  contains_iff x := (shows.contains_iff x).trans (valid.reaches_iff x)
  first_eq := shows.first?_eq valid
  none_lost wide x := by
    rw [Bool.eq_iff_iff, shows.contains_iff]
    exact ⟨And.left, fun marked => ⟨marked, valid.reaches_of_marked wide marked⟩⟩
  restored wide memory := by
    have positive := valid.capacity_pos
    have short := valid.capacity_le
    have total := w.space.size_eq
    refine ⟨?_, shows.restored valid wide⟩
    rw [resize_accepted_iff shows.valid, shows.space_eq]
    exact ⟨fun given => given.2.2, fun granted => ⟨by omega, by omega, granted⟩⟩

/-- A change of capacity is accepted exactly if the new capacity is not zero, is at most half of the space and
    storage is granted for it. Then the window keeps exactly what fits. -/
theorem resize_exact (reachable : w.Reachable) (memory : Memory) (capacity : Nat) :
    ((w.resize memory capacity).failure? = none ↔
      1 ≤ capacity ∧ 2 * capacity ≤ w.space.size ∧ memory.grants (Byte.needed capacity) = true) ∧
    ((w.resize memory capacity).failure? = none →
      w.Resized capacity (w.resize memory capacity).state) :=
  ⟨resize_accepted_iff reachable.valid,
    fun accepted => (resize_shows reachable.valid accepted).resized reachable.valid⟩

theorem resize_exact_of_wrapped :
    let w : Window := ⟨⟨8, #[0x92], 0⟩, ⟨31, by decide, by decide⟩, some ⟨3, 0, 30⟩⟩
    let grown := (w.resize .standard 16).state
    w.Resized 4 (w.resize .standard 4).state ∧ (w.resize .standard 4).state.marks = [30, 1] ∧
      w.Resized 16 grown ∧ (grown.resize .standard 8).state ≠ w ∧
      (grown.resize .standard 8).state.sameMarks w = true ∧
      (w.resize .standard 17).failure? ≠ none := by
  -- made smaller, then as large as the space allows and back: the same window with its bits moved
  intro w grown
  have reachable : w.Reachable := reachable_of_run .standard [⟨8, 31⟩]
    [.edit 0 (.mark 3), .edit 0 (.mark 1), .edit 0 (.mark 30)] 0 (by decide +kernel)
  have shrunk := (resize_exact reachable .standard 4).2 (by decide +kernel)
  have larger := (resize_exact reachable .standard 16).2 (by decide +kernel)
  obtain ⟨_, same⟩ := larger.restored (by decide) .standard
  refine ⟨shrunk, by decide +kernel, larger, by decide +kernel, same (by decide +kernel), fun accepted => ?_⟩
  exact absurd ((resize_exact reachable .standard 17).1.mp accepted).2.1 (by decide)

end SequenceTracking.Window
