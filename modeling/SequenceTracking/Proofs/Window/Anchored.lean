import SequenceTracking.Proofs.Arc
import SequenceTracking.Proofs.Window.Ring

/-!
A valid window with a placement, seen from its lowest mark: the first and the last offset of the span are
set, nothing is set past it, and the marks are the numbers at the offsets that are set. The view does not
change when the offsets are counted from another start that no set bit lies before.
-/
namespace SequenceTracking.Window

variable {w : Window} {p q : Placement} {extent : Nat}

/-- The window is placed at `p` and its highest mark lies `extent` places past the lowest. -/
structure Anchored (w : Window) (p : Placement) (extent : Nat) : Prop where
  placed : w.placement? = some p
  start_lt : p.start < w.capacity
  extent_lt : extent < w.capacity
  stop_eq : p.stop = p.position w.capacity extent
  lowest_le : p.lowest ≤ w.space.mask
  first : w.atOffset p 0 = true
  last : w.atOffset p extent = true
  beyond : ∀ k, extent < k → k < w.capacity → w.atOffset p k = false

def MarkedFrom (w : Window) (p : Placement) (seq : UInt32) : Prop :=
  ∃ k : Nat, k < w.capacity ∧ w.space.reduce seq = w.space.advance p.lowest k ∧ w.atOffset p k = true

theorem Anchored.extent_eq (anchored : w.Anchored p extent) : w.extent p = extent := by
  have same : w.extent p = p.offset w.capacity p.stop := rfl
  rw [same, anchored.stop_eq, Placement.offset_position anchored.start_lt anchored.extent_lt]

theorem Anchored.le_extent (anchored : w.Anchored p extent) {k : Nat} (inside : k < w.capacity)
    (set : w.atOffset p k = true) : k ≤ extent := by
  apply Nat.le_of_not_lt
  intro past
  simp [anchored.beyond k past inside] at set

theorem Anchored.advance_zero (anchored : w.Anchored p extent) :
    w.space.advance p.lowest (0 : Nat) = p.lowest := by
  rw [Int.natCast_zero, Space.advance_zero, w.space.reduce_of_le anchored.lowest_le]

theorem Valid.anchored (valid : w.Valid) (placed : w.placement? = some p) :
    w.Anchored p (w.extent p) where
  placed := placed
  start_lt := valid.start_lt p placed
  extent_lt := p.offset_lt (valid.start_lt p placed) p.stop
  stop_eq :=
    (Placement.position_offset (valid.start_lt p placed) (valid.stop_lt p placed)).symm
  lowest_le := valid.lowest_le p placed
  first := by
    unfold atOffset
    rw [Placement.position_zero (valid.start_lt p placed)]
    exact valid.at_start p placed
  last := by
    have back := Placement.position_offset (valid.start_lt p placed) (valid.stop_lt p placed)
    unfold atOffset
    rw [show w.extent p = p.offset w.capacity p.stop from rfl, back]
    exact valid.at_stop p placed
  beyond k past inside := by
    cases set : w.atOffset p k with
    | false => rfl
    | true =>
      have within_span := valid.inside p placed _ set
      rw [Placement.offset_position (valid.start_lt p placed) inside] at within_span
      omega

theorem Anchored.valid (anchored : w.Anchored p extent) (sound : w.Sound) : w.Valid := by
  have only : ∀ q, w.placement? = some q → q = p := fun q placed =>
    Option.some.inj (placed.symm.trans anchored.placed)
  refine ⟨sound.bits_valid, sound.capacity_pos, sound.capacity_le, ?_, ?_, ?_, ?_, ?_, ?_, ?_⟩
  · intro unplaced
    simp [anchored.placed] at unplaced
  all_goals
    intro q placed
    obtain rfl := only q placed
  · exact anchored.start_lt
  · rw [anchored.stop_eq]
    exact q.position_lt anchored.start_lt extent
  · exact anchored.lowest_le
  · rw [← Placement.position_zero anchored.start_lt]
    exact anchored.first
  · rw [anchored.stop_eq]
    exact anchored.last
  · intro i set
    have inside : i < w.capacity := PackedBits.lt_of_contains set
    rw [anchored.extent_eq]
    apply anchored.le_extent (q.offset_lt anchored.start_lt i)
    rwa [← contains_eq_atOffset anchored.start_lt inside]

theorem Sound.valid_of_empty (sound : w.Sound) (unplaced : w.placement? = none)
    (clear : ∀ i, w.bits.contains i = false) : w.Valid := by
  refine ⟨sound.bits_valid, sound.capacity_pos, sound.capacity_le, fun _ => clear, ?_, ?_, ?_, ?_, ?_, ?_⟩
  all_goals
    intro p placed
    simp [unplaced] at placed

/-! ### Marks by offset -/

theorem unplaced_of_not_occupied (empty : ¬ w.isOccupied = true) : w.placement? = none := by
  simpa [isOccupied] using empty

theorem contains_of_unplaced (unplaced : w.placement? = none) (seq : UInt32) :
    w.contains seq = false := by
  simp [contains, unplaced]

theorem contains_iff_markedFrom (sound : w.Sound) (anchored : w.Anchored p extent) (seq : UInt32) :
    w.contains seq = true ↔ w.MarkedFrom p seq := by
  have short := sound.capacity_le
  have inside := anchored.extent_lt
  unfold contains
  rw [anchored.placed]
  simp only [anchored.extent_eq, Bool.and_eq_true, decide_eq_true_eq]
  constructor
  · intro given
    obtain ⟨⟨ahead, near⟩, set⟩ := given
    refine ⟨(w.space.distance seq p.lowest).toNat, by omega, ?_, set⟩
    rw [Int.toNat_of_nonneg ahead, Space.advance_distance]
  · intro given
    obtain ⟨k, k_lt, same, set⟩ := given
    have near := anchored.le_extent k_lt set
    rw [(w.space.distance_eq_iff (by omega) (by omega)).mpr same]
    exact ⟨by omega, set⟩

theorem Anchored.exists_offset (anchored : w.Anchored p extent) (sound : w.Sound) {seq : UInt32}
    (marked : w.contains seq = true) :
    ∃ k : Nat, k ≤ extent ∧ w.space.reduce seq = w.space.advance p.lowest k := by
  obtain ⟨k, k_lt, same, set⟩ := (contains_iff_markedFrom sound anchored seq).mp marked
  exact ⟨k, anchored.le_extent k_lt set, same⟩

theorem Anchored.exists_distance (anchored : w.Anchored p extent) (sound : w.Sound) {seq : UInt32}
    (marked : w.contains seq = true) :
    ∃ k : Nat, k ≤ extent ∧ w.atOffset p k = true ∧ w.space.distance seq p.lowest = k := by
  have short := sound.capacity_le
  have extent_lt := anchored.extent_lt
  obtain ⟨k, k_lt, same, set⟩ := (contains_iff_markedFrom sound anchored seq).mp marked
  exact ⟨k, anchored.le_extent k_lt set, set, (w.space.distance_eq_iff (by omega) (by omega)).mpr same⟩

theorem Sound.distance_advance (sound : w.Sound) (first : UInt32) {k : Nat} (inside : k < w.capacity) :
    w.space.distance (w.space.advance first k) first = k := by
  have short := sound.capacity_le
  exact w.space.distance_advance first (by omega) (by omega)

theorem contains_advance (sound : w.Sound) (anchored : w.Anchored p extent) {k : Nat}
    (inside : k < w.capacity) : w.contains (w.space.advance p.lowest k) = w.atOffset p k := by
  have short := sound.capacity_le
  have total := w.space.size_eq
  apply Bool.eq_iff_iff.mpr
  rw [contains_iff_markedFrom sound anchored]
  constructor
  · intro given
    obtain ⟨j, j_lt, same, set⟩ := given
    rw [Space.reduce_advance] at same
    have := w.space.advance_injOn p.lowest (by omega) (by omega) same
    have same_offset : k = j := by omega
    rwa [same_offset]
  · intro set
    exact ⟨k, inside, w.space.reduce_advance _ _, set⟩

theorem Anchored.contains_first (anchored : w.Anchored p extent) (sound : w.Sound) :
    w.contains (w.space.advance p.lowest (0 : Nat)) = true := by
  rw [contains_advance sound anchored sound.capacity_pos]
  exact anchored.first

theorem Anchored.contains_lowest (anchored : w.Anchored p extent) (sound : w.Sound) :
    w.contains p.lowest = true := by
  have first := anchored.contains_first sound
  rwa [anchored.advance_zero] at first

theorem Anchored.contains_last (anchored : w.Anchored p extent) (sound : w.Sound) :
    w.contains (w.space.advance p.lowest extent) = true := by
  rw [contains_advance sound anchored anchored.extent_lt]
  exact anchored.last

theorem contains_reduce (w : Window) (seq : UInt32) :
    w.contains (w.space.reduce seq) = w.contains seq := by
  simp only [contains, Space.distance_reduce_left]

theorem contains_congr (w : Window) {a b : UInt32} (same : w.space.reduce a = w.space.reduce b) :
    w.contains a = w.contains b := by
  rw [← contains_reduce, same, contains_reduce]

/-! ### Writing -/

def written (w : Window) (p : Placement) (offset count : Nat) (value : Bool)
    (placement? : Option Placement) : Window :=
  { w with bits := w.write p offset count value, placement? := placement? }

@[simp] theorem capacity_written (w : Window) (p : Placement) (offset count : Nat) (value : Bool)
    (placement? : Option Placement) :
    (w.written p offset count value placement?).capacity = w.capacity := by
  rw [capacity, written, capacity_write]

@[simp] theorem space_written (w : Window) (p : Placement) (offset count : Nat) (value : Bool)
    (placement? : Option Placement) :
    (w.written p offset count value placement?).space = w.space := rfl

theorem written_sound (sound : w.Sound) (start_lt : p.start < w.capacity) {offset count : Nat}
    (fits : offset + count ≤ w.capacity) (value : Bool) (placement? : Option Placement) :
    (w.written p offset count value placement?).Sound where
  bits_valid := write_valid sound start_lt fits value
  capacity_pos := by
    rw [capacity_written]
    exact sound.capacity_pos
  capacity_le := by
    rw [capacity_written]
    exact sound.capacity_le

theorem atOffset_written (sound : w.Sound) (start_lt : p.start < w.capacity) {offset count k : Nat}
    (fits : offset + count ≤ w.capacity) (inside : k < w.capacity) (value : Bool)
    (placement? : Option Placement) :
    (w.written p offset count value placement?).atOffset p k =
      if offset ≤ k ∧ k < offset + count then value else w.atOffset p k := by
  unfold atOffset
  rw [capacity_written]
  exact contains_write sound start_lt fits inside value

theorem anchored_of_written {offset count : Nat} {value : Bool} (start_lt : q.start < w.capacity)
    (extent_lt : extent < w.capacity) (stop_eq : q.stop = q.position w.capacity extent)
    (lowest_le : q.lowest ≤ w.space.mask)
    (first : (w.written p offset count value (some q)).atOffset q 0 = true)
    (last : (w.written p offset count value (some q)).atOffset q extent = true)
    (beyond : ∀ k, extent < k → k < w.capacity →
      (w.written p offset count value (some q)).atOffset q k = false) :
    (w.written p offset count value (some q)).Anchored q extent := by
  have same := capacity_written w p offset count value (some q)
  rw [← same] at start_lt extent_lt stop_eq beyond
  exact ⟨rfl, start_lt, extent_lt, stop_eq, lowest_le, first, last, beyond⟩

/-- A write puts its own numbers in or takes them out and keeps the marks among the others. -/
theorem markedFrom_written (sound : w.Sound) (start_lt : p.start < w.capacity) {offset count : Nat}
    (fits : offset + count ≤ w.capacity) (value : Bool) (placement? : Option Placement)
    (seq : UInt32) :
    (w.written p offset count value placement?).MarkedFrom p seq ↔
      value = true ∧ w.space.InArc (w.space.advance p.lowest offset) count seq ∨
        w.MarkedFrom p seq ∧ ¬ w.space.InArc (w.space.advance p.lowest offset) count seq := by
  have short := sound.capacity_le
  have positive := sound.capacity_pos
  have total := w.space.size_eq
  have place : ∀ j : Nat, w.space.advance (w.space.advance p.lowest offset) j =
      w.space.advance p.lowest (offset + j : Nat) := by
    intro j
    rw [Space.advance_advance, Int.natCast_add]
  have in_run : ∀ k : Nat, k < w.capacity → w.space.reduce seq = w.space.advance p.lowest k →
      (w.space.InArc (w.space.advance p.lowest offset) count seq ↔
        offset ≤ k ∧ k < offset + count) := by
    intro k k_lt same
    constructor
    · intro given
      obtain ⟨j, j_lt, here⟩ := given
      rw [same, place] at here
      have := w.space.advance_injOn p.lowest (by omega) (by omega) here
      omega
    · intro given
      obtain ⟨low, high⟩ := given
      refine ⟨k - offset, by omega, ?_⟩
      have parts : offset + (k - offset) = k := by omega
      rw [same, place, parts]
  constructor
  · intro given
    obtain ⟨k, k_lt, same, set⟩ := given
    rw [capacity_written] at k_lt
    rw [atOffset_written sound start_lt fits k_lt] at set
    split at set
    · rename_i inside
      exact Or.inl ⟨set, (in_run k k_lt same).mpr inside⟩
    · rename_i outside
      exact Or.inr ⟨⟨k, k_lt, same, set⟩, fun arc => outside ((in_run k k_lt same).mp arc)⟩
  · intro given
    rcases given with ⟨set, j, j_lt, here⟩ | ⟨⟨k, k_lt, same, set⟩, outside⟩
    · rw [place] at here
      refine ⟨offset + j, by rw [capacity_written]; omega, here, ?_⟩
      rw [atOffset_written sound start_lt fits (by omega), if_pos (by omega)]
      exact set
    · refine ⟨k, by rwa [capacity_written], same, ?_⟩
      rw [atOffset_written sound start_lt fits k_lt,
        if_neg (fun inside => outside ((in_run k k_lt same).mpr inside))]
      exact set

/-! ### Another start -/

theorem atOffset_shift (start_lt : p.start < w.capacity) {j k : Nat}
    (moved : q.start = p.position w.capacity j) (inside : j + k < w.capacity) :
    w.atOffset q k = w.atOffset p (j + k) := by
  rw [atOffset, atOffset, Placement.position_shift start_lt moved inside]

theorem atOffset_shift_wrap (start_lt : p.start < w.capacity) {j k : Nat}
    (moved : q.start = p.position w.capacity j) (j_lt : j < w.capacity) (k_lt : k < w.capacity)
    (past : w.capacity ≤ j + k) : w.atOffset q k = w.atOffset p (j + k - w.capacity) := by
  rw [atOffset, atOffset, Placement.position_shift_wrap start_lt moved j_lt k_lt past]

theorem markedFrom_shift (start_lt : p.start < w.capacity) {j : Nat} (j_lt : j < w.capacity)
    (moved : q.start = p.position w.capacity j) (lowest : q.lowest = w.space.advance p.lowest j)
    (clear : ∀ k, k < j → w.atOffset p k = false) (seq : UInt32) :
    w.MarkedFrom q seq ↔ w.MarkedFrom p seq := by
  have place : ∀ k : Nat, w.space.advance q.lowest k = w.space.advance p.lowest (j + k : Nat) := by
    intro k
    rw [lowest, Space.advance_advance, Int.natCast_add]
  constructor
  · intro given
    obtain ⟨k, k_lt, same, set⟩ := given
    by_cases inside : j + k < w.capacity
    · rw [atOffset_shift start_lt moved inside] at set
      exact ⟨j + k, inside, same.trans (place k), set⟩
    · rw [atOffset_shift_wrap start_lt moved j_lt k_lt (by omega), clear _ (by omega)] at set
      exact Bool.noConfusion set
  · intro given
    obtain ⟨k, k_lt, same, set⟩ := given
    have from_j : j ≤ k := by
      apply Nat.le_of_not_lt
      intro early
      simp [clear k early] at set
    refine ⟨k - j, by omega, ?_, ?_⟩
    · have parts : j + (k - j) = k := by omega
      rw [place, parts]
      exact same
    · have parts : j + (k - j) = k := by omega
      rw [atOffset_shift start_lt moved (by omega), parts]
      exact set

/-! ### What a step leaves -/

/-- The step is accepted and leaves a valid window over the space and with the capacity of `w`, in
    which the numbers that satisfy `marks` are marked and no others. -/
structure Step.Leaves (s : Step) (w : Window) (marks : UInt32 → Prop) : Prop where
  accepted : s.failure? = none
  valid : s.state.Valid
  space_eq : s.state.space = w.space
  capacity_eq : s.state.capacity = w.capacity
  contains_iff : ∀ seq, s.state.contains seq = true ↔ marks seq

theorem Step.Leaves.congr {s : Step} {marks others : UInt32 → Prop} (leaves : s.Leaves w marks)
    (same : ∀ seq, marks seq ↔ others seq) : s.Leaves w others :=
  ⟨leaves.accepted, leaves.valid, leaves.space_eq, leaves.capacity_eq,
    fun seq => (leaves.contains_iff seq).trans (same seq)⟩

theorem Step.Leaves.andThen {s : Step} {next : Window → Step} {marks others : UInt32 → Prop}
    (first : s.Leaves w marks) (second : (next s.state).Leaves s.state others) :
    (s.andThen next).Leaves w others := by
  have row : (s.andThen next).toOutcome = (next s.state).toOutcome := by
    unfold Step.andThen
    rw [first.accepted]
  refine ⟨?_, ?_, ?_, ?_, ?_⟩
  · rw [row]
    exact second.accepted
  · rw [row]
    exact second.valid
  · rw [row]
    exact second.space_eq.trans first.space_eq
  · rw [row]
    exact second.capacity_eq.trans first.capacity_eq
  · rw [row]
    exact second.contains_iff

theorem Valid.leaves (valid : w.Valid) : (Step.done w).Leaves w fun seq => w.contains seq = true :=
  ⟨rfl, valid, rfl, rfl, fun _ => Iff.rfl⟩

end SequenceTracking.Window
