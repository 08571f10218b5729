import SequenceTracking.Proofs.Shape
import SequenceTracking.Proofs.Window.Merging
import SequenceTracking.Window.Resize

/-!
Operations that gather marks in a new window. Such a window is empty, has the shape that was asked for and
takes its space from it. Resizing first drops the marks that the new capacity does not reach, so the copy
that follows is never refused and the trimmed window is never put back.
-/
namespace SequenceTracking.Window

variable {w other fresh : Window} {memory : Memory} {shape : Shape}

/-! ### New windows -/

structure New (w : Window) (shape : Shape) : Prop where
  valid : w.Valid
  unplaced : w.placement? = none
  capacity_eq : w.capacity = shape.capacity
  mask_eq : w.space.mask = shape.mask

theorem create_of_error {cause : ShapeError} (refused : shape.space = .error cause) :
    create memory shape = .error (.shape cause) := by
  unfold create
  rw [refused]

theorem create_of_space {s : Space} (usable : shape.space = .ok s) :
    create memory shape =
      if memory.grants (Byte.needed shape.capacity) = true then .ok ⟨.empty shape.capacity, s, none⟩
      else .error (.storage (Byte.needed shape.capacity)) := by
  unfold create
  unfold PackedBits.create
  rw [usable]
  by_cases granted : memory.grants (Byte.needed shape.capacity) = true
  · simp only [granted, ↓reduceIte]
  · simp only [granted, Bool.false_eq_true, ↓reduceIte]

theorem create_eq_ok_iff :
    create memory shape = .ok w ↔ ∃ s, shape.space = .ok s ∧
      memory.grants (Byte.needed shape.capacity) = true ∧ ⟨.empty shape.capacity, s, none⟩ = w := by
  cases usable : shape.space with
  | error cause => simp [create_of_error usable]
  | ok s =>
    by_cases granted : memory.grants (Byte.needed shape.capacity) = true
    · simp [create_of_space usable, granted]
    · simp [create_of_space usable, granted]

theorem create_new (made : create memory shape = .ok w) : w.New shape := by
  obtain ⟨s, usable, _, rfl⟩ := create_eq_ok_iff.mp made
  obtain ⟨mask_eq, positive, short⟩ := Shape.space_spec usable
  have sound : (⟨PackedBits.empty shape.capacity, s, none⟩ : Window).Sound :=
    ⟨PackedBits.empty_valid _, positive, short⟩
  exact ⟨sound.valid_of_empty rfl (PackedBits.contains_empty _), rfl, rfl, mask_eq⟩

theorem create_error {reason : Failure} (refusal : create memory shape = .error reason) :
    (∃ cause, reason = .shape cause) ∨ ∃ bytes, reason = .storage bytes := by
  cases usable : shape.space with
  | error cause =>
    rw [create_of_error usable] at refusal
    exact .inl ⟨cause, (Except.error.inj refusal).symm⟩
  | ok s =>
    rw [create_of_space usable] at refusal
    split at refusal
    · cases refusal
    · exact .inr ⟨_, (Except.error.inj refusal).symm⟩

theorem create_of_usable {s : Space} (mask_eq : shape.mask = s.mask) (positive : 0 < shape.capacity)
    (short : shape.capacity ≤ s.half) (granted : memory.grants (Byte.needed shape.capacity) = true) :
    ∃ fresh, create memory shape = .ok fresh :=
  ⟨_, create_eq_ok_iff.mpr ⟨s, Shape.space_eq_ok mask_eq positive short, granted, rfl⟩⟩

theorem granted_of_create (made : create memory shape = .ok w) :
    memory.grants (Byte.needed shape.capacity) = true := by
  obtain ⟨_, _, granted, _⟩ := create_eq_ok_iff.mp made
  exact granted

theorem Valid.create_granted (valid : w.Valid) (granted : memory.grants (Byte.needed w.capacity) = true) :
    ∃ fresh, create memory w.shape = .ok fresh :=
  create_of_usable rfl valid.capacity_pos valid.capacity_le granted

theorem New.contains_eq (new : w.New shape) (seq : UInt32) : w.contains seq = false :=
  contains_of_unplaced new.unplaced seq

theorem New.admits_iff (new : w.New shape) (others : UInt32 → Prop) :
    w.Admits others ↔ ∃ first, ∀ x, others x → w.space.InArc first w.capacity x := by
  constructor
  · intro given
    obtain ⟨first, _, held⟩ := given
    exact ⟨first, held⟩
  · intro given
    obtain ⟨first, held⟩ := given
    exact ⟨first, within_of_unplaced new.unplaced first, held⟩

/-! ### What the operand has alone -/

theorem among_alone (other_valid : other.Valid) (same : w.space = other.space) {s : Space}
    (s_eq : s = w.space) (x : UInt32) :
    Among s (other.marks.filter fun seq => !w.contains seq) x ↔
      other.contains x = true ∧ ¬ w.contains x = true := by
  rw [s_eq, among_filter, among_marks other_valid same]
  · simp
  · intro a b here
    rw [w.contains_congr here]

theorem subtractFrom_cases (other_valid : other.Valid)
    (same : w.space = other.space) (memory : Memory) :
    (∃ reason, create memory w.shape = .error reason ∧
      w.subtractFrom memory other = .refused w reason) ∨
    (∃ fresh, create memory w.shape = .ok fresh ∧ (w.subtractFrom memory other).Decides w
      (∃ first, ∀ x, other.contains x = true ∧ ¬ w.contains x = true →
        w.space.InArc first w.capacity x)
      fun x => other.contains x = true ∧ ¬ w.contains x = true) := by
  unfold subtractFrom
  rw [withinSpace_of_eq same]
  cases made : create memory w.shape with
  | error reason => exact .inl ⟨reason, rfl, rfl⟩
  | ok fresh =>
    refine .inr ⟨fresh, rfl, ?_⟩
    have new := create_new made
    have space_eq : fresh.space = w.space := Space.eq_of_mask new.mask_eq
    have capacity_eq : fresh.capacity = w.capacity := new.capacity_eq
    -- The walk takes what the operand has alone, and nothing was there before.
    have taken := among_alone other_valid same space_eq
    rcases each_mark_cases new.valid (other.marks.filter fun seq => !w.contains seq) with
      walk | ⟨needed, wide, refusal⟩
    · have gathered : (Step.each (other.marks.filter fun seq => !w.contains seq) mark fresh).Leaves
          fresh fun x => other.contains x = true ∧ ¬ w.contains x = true := by
        apply walk.congr
        intro x
        rw [taken, new.contains_eq]
        simp
      simp only [walk.accepted]
      apply Step.Leaves.decides
      · exact ⟨gathered.accepted, gathered.valid, gathered.space_eq.trans space_eq,
          gathered.capacity_eq.trans capacity_eq, gathered.contains_iff⟩
      · obtain ⟨first, within⟩ := gathered.valid.within
        refine ⟨first, fun x alone => ?_⟩
        rw [← space_eq, ← capacity_eq, ← gathered.space_eq, ← gathered.capacity_eq]
        exact within x ((gathered.contains_iff x).mpr alone)
    · rw [capacity_eq] at wide refusal
      simp only [refusal]
      refine ⟨fun room => ?_, fun _ => ⟨rfl, needed, wide, rfl⟩⟩
      have admits : fresh.Admits
          (Among fresh.space (other.marks.filter fun seq => !w.contains seq)) := by
        obtain ⟨first, held⟩ := room
        refine (new.admits_iff _).mpr ⟨first, fun x listed => ?_⟩
        rw [space_eq, capacity_eq]
        exact held x ((taken x).mp listed)
      simp [(each_mark_leaves new.valid admits).accepted] at refusal

/-! ### Another capacity -/

def Reaches (w : Window) (capacity : Nat) (seq : UInt32) : Prop :=
  ∀ first, w.first? = some first → w.space.distance seq first < capacity

theorem reaches_iff_of_place {first x : UInt32} {capacity k : Nat} (first_eq : w.first? = some first)
    (far : w.space.distance x first = k) : w.Reaches capacity x ↔ k < capacity := by
  simp [Reaches, first_eq, far]

theorem trim_leaves (valid : w.Valid) (capacity : Nat) :
    (w.trim capacity).Leaves w fun x => w.contains x = true ∧ w.Reaches capacity x := by
  have short := valid.capacity_le
  have span_le := valid.span_le
  unfold trim
  cases first_eq : w.first? with
  | none =>
    apply valid.leaves.congr
    intro x
    simp [(first?_eq_none_iff valid).mp first_eq x]
  | some first =>
    -- Every mark has its place after the lowest one, and the places from the new capacity on are cleared.
    have place : ∀ x, w.contains x = true → ∃ k : Nat, k < w.span ∧
        w.space.reduce x = w.space.advance first k ∧ (w.Reaches capacity x ↔ k < capacity) := by
      intro x marked
      obtain ⟨_, k, found, inside, same, far⟩ := valid.exists_place marked
      obtain rfl := Option.some.inj (first_eq.symm.trans found)
      exact ⟨k, inside, same, reaches_iff_of_place first_eq far⟩
    simp only
    split
    · rename_i smaller
      apply (unmarkRun_leaves valid _ _).congr
      intro x
      refine and_congr_right fun marked => ?_
      obtain ⟨k, inside, same, reaches_iff⟩ := place x marked
      rw [reaches_iff, w.space.inArc_iff_offset (by omega) (by omega) same,
        w.space.distance_advance first (by omega) (by omega)]
      omega
    · apply valid.leaves.congr
      intro x
      constructor
      · intro marked
        obtain ⟨k, inside, _, reaches_iff⟩ := place x marked
        exact ⟨marked, reaches_iff.mpr (by omega)⟩
      · exact And.left

theorem span_trim_le (valid : w.Valid) (capacity : Nat) :
    (w.trim capacity).state.span ≤ capacity := by
  have short := valid.capacity_le
  have span_le := valid.span_le
  have trimmed := trim_leaves valid capacity
  cases placed : (w.trim capacity).state.placement? with
  | none => simp [span, placed]
  | some q =>
    have anchored := trimmed.valid.anchored placed
    have extent_lt := anchored.extent_lt
    rw [trimmed.capacity_eq] at extent_lt
    have place : ∀ x, (w.trim capacity).state.contains x = true →
        ∃ first k, w.first? = some first ∧ k < w.capacity ∧ k < capacity ∧
          w.space.reduce x = w.space.advance first (k : Nat) := by
      intro x kept
      obtain ⟨marked, reached⟩ := (trimmed.contains_iff x).mp kept
      obtain ⟨first, k, first_eq, inside, same, far⟩ := valid.exists_place marked
      exact ⟨first, k, first_eq, by omega, (reaches_iff_of_place first_eq far).mp reached, same⟩
    obtain ⟨first, i, first_eq, i_lt, _, at_i⟩ := place _ (anchored.contains_first trimmed.valid.sound)
    obtain ⟨_, j, last_eq, j_lt, j_near, at_j⟩ := place _ (anchored.contains_last trimmed.valid.sound)
    obtain rfl := Option.some.inj (first_eq.symm.trans last_eq)
    rw [trimmed.space_eq] at at_i at_j
    rw [Int.natCast_zero, Space.advance_zero, Space.reduce_reduce] at at_i
    have := w.space.offset_of_advance short i_lt j_lt (by omega) at_i at_j
    rw [anchored.span_eq]
    omega

/-- The trimmed marks are copied without refusal, since their span fits the new capacity. -/
theorem copied_leaves (valid : w.Valid) {memory : Memory} {capacity : Nat}
    (made : create memory (w.shape.withCapacity capacity) = .ok fresh) :
    (fresh.assign (w.trim capacity).state).Leaves fresh
      fun x => (w.trim capacity).state.contains x = true := by
  have new := create_new made
  have trimmed := trim_leaves valid capacity
  have space_eq : fresh.space = w.space := Space.eq_of_mask new.mask_eq
  have capacity_eq : fresh.capacity = capacity := new.capacity_eq
  apply (assign_decides new.valid trimmed.valid (space_eq.trans trimmed.space_eq.symm)).leaves
  rw [capacity_eq]
  exact span_trim_le valid capacity

theorem resize_cases (valid : w.Valid) (memory : Memory) (capacity : Nat) :
    (∃ reason, create memory (w.shape.withCapacity capacity) = .error reason ∧
      w.resize memory capacity = .refused w reason) ∨
    (∃ fresh, create memory (w.shape.withCapacity capacity) = .ok fresh ∧
      fresh.space = w.space ∧ fresh.capacity = capacity ∧
      (w.resize memory capacity).Leaves fresh fun x =>
        w.contains x = true ∧ w.Reaches capacity x) := by
  unfold resize
  cases made : create memory (w.shape.withCapacity capacity) with
  | error reason => exact .inl ⟨reason, rfl, rfl⟩
  | ok fresh =>
    have new := create_new made
    have trimmed := trim_leaves valid capacity
    have copied := copied_leaves valid made
    refine .inr ⟨fresh, rfl, Space.eq_of_mask new.mask_eq, new.capacity_eq, ?_⟩
    simp only [copied.accepted]
    refine ⟨rfl, copied.valid, copied.space_eq, copied.capacity_eq, fun x => ?_⟩
    exact (copied.contains_iff x).trans (trimmed.contains_iff x)

end SequenceTracking.Window
