import SequenceTracking.Proofs.Window.Clearing
import SequenceTracking.Proofs.Window.Fitting
import SequenceTracking.Window.Query

/-!
Every change of a valid window as a change of its set of marks. A run is marked exactly when it fits and
is refused otherwise without any change; clearing is always accepted. In each case the window that is
left is valid, over the same space and of the same capacity.
-/
namespace SequenceTracking.Window

variable {w : Window} {p : Placement} {extent : Nat}

structure Step.Overflows (s : Step) (w : Window) : Prop where
  unchanged : s.state = w
  reason : ∃ needed, w.capacity < needed ∧ s.failure? = some (.span needed w.capacity)

/-- The step is accepted with the given marks if `fits` holds, and turned down for lack of room
    otherwise. -/
structure Step.Decides (s : Step) (w : Window) (fits : Prop) (marks : UInt32 → Prop) : Prop where
  leaves : fits → s.Leaves w marks
  overflows : ¬ fits → s.Overflows w

theorem Step.Decides.accepted_iff {s : Step} {fits : Prop} {marks : UInt32 → Prop}
    (decides : s.Decides w fits marks) : s.failure? = none ↔ fits := by
  constructor
  · intro accepted
    apply Classical.byContradiction
    intro misfit
    obtain ⟨needed, _, refusal⟩ := (decides.overflows misfit).reason
    simp [refusal] at accepted
  · intro fits
    exact (decides.leaves fits).accepted

theorem Step.Decides.leaves_of_accepted {s : Step} {fits : Prop} {marks : UInt32 → Prop}
    (decides : s.Decides w fits marks) (accepted : s.failure? = none) : s.Leaves w marks :=
  decides.leaves (decides.accepted_iff.mp accepted)

theorem Step.Leaves.decides {s : Step} {fits : Prop} {marks : UInt32 → Prop}
    (leaves : s.Leaves w marks) (holds : fits) : s.Decides w fits marks :=
  ⟨fun _ => leaves, fun misfit => absurd holds misfit⟩

/-! ### Marking -/

theorem markRun_zero (w : Window) (seq : UInt32) : w.markRun seq 0 = .done w := if_pos rfl

theorem markRun_leaves (valid : w.Valid) {seq : UInt32} {count : Nat} (fits : w.Fits seq count) :
    (w.markRun seq count).Leaves w fun x =>
      w.contains x = true ∨ w.space.InArc seq count x := by
  have count_le := fits.count_le valid.sound
  by_cases none_at_all : count = 0
  · subst none_at_all
    rw [markRun_zero]
    apply valid.leaves.congr
    intro x
    simp [Space.InArc]
  have some_bit : 0 < count := by omega
  unfold markRun
  rw [if_neg none_at_all, if_neg (by omega)]
  cases placed : w.placement? with
  | none =>
    have anchored := anchor_anchored valid placed some_bit count_le (w.space.reduce_le seq)
    have sound : (w.anchor (w.space.reduce seq) count).state.Sound :=
      written_sound valid.sound valid.capacity_pos (by omega) true _
    refine ⟨rfl, anchored.valid sound, rfl, capacity_written _ _ _ _ _ _, fun x => ?_⟩
    rw [contains_anchor valid placed some_bit count_le (w.space.reduce_le seq),
      Space.inArc_reduce_first]
    simp [contains_of_unplaced placed]
  | some p =>
    have anchored := valid.anchored placed
    rw [fits_iff_mergedSpan anchored valid.sound some_bit rfl] at fits
    rw [← Space.distance_reduce_left] at fits
    rcases extend_cases anchored (w.space.reduce seq) count rfl with
      ⟨wide, _, _⟩ | ⟨_, accepted, state_eq⟩
    · omega
    · obtain ⟨grown_anchored, grown_sound, marks⟩ :=
        extend_spec valid anchored (w.space.reduce_le seq) some_bit rfl fits
      rw [← state_eq] at grown_anchored grown_sound marks
      refine ⟨accepted, grown_anchored.valid grown_sound, ?_, ?_, fun x => ?_⟩
      · rw [state_eq, space_written]
      · rw [state_eq, capacity_written]
      · rw [marks, Space.inArc_reduce_first]

theorem markRun_overflows (valid : w.Valid) {seq : UInt32} {count : Nat}
    (misfit : ¬ w.Fits seq count) : (w.markRun seq count).Overflows w := by
  have some_bit : count ≠ 0 := by
    rintro rfl
    exact misfit (fits_zero valid seq)
  unfold markRun
  rw [if_neg some_bit]
  by_cases long : w.capacity < count
  · rw [if_pos long]
    exact ⟨rfl, count, long, rfl⟩
  · rw [if_neg long]
    cases placed : w.placement? with
    | none => exact absurd ((fits_iff_of_unplaced valid.sound placed seq count).mpr (by omega)) misfit
    | some p =>
      have anchored := valid.anchored placed
      rcases extend_cases anchored (w.space.reduce seq) count rfl with
        ⟨wide, state_eq, refusal⟩ | ⟨narrow, _, _⟩
      · exact ⟨state_eq, _, by omega, refusal⟩
      · rw [Space.distance_reduce_left] at narrow
        exact absurd ((fits_iff_mergedSpan anchored valid.sound (by omega) rfl).mpr narrow) misfit

theorem markRun_decides (valid : w.Valid) (seq : UInt32) (count : Nat) :
    (w.markRun seq count).Decides w (w.Fits seq count) fun x =>
      w.contains x = true ∨ w.space.InArc seq count x :=
  ⟨markRun_leaves valid, markRun_overflows valid⟩

theorem markRun_of_unplaced (valid : w.Valid) (unplaced : w.placement? = none) {seq : UInt32} {count : Nat}
    (some_bit : 0 < count) (accepted : (w.markRun seq count).failure? = none) :
    (w.markRun seq count).state.placement? = some ⟨0, count - 1, w.space.reduce seq⟩ := by
  have short := ((markRun_decides valid seq count).accepted_iff.mp accepted).count_le valid.sound
  unfold markRun
  rw [if_neg (by omega), if_neg (by omega), unplaced]
  exact (anchor_anchored valid unplaced some_bit short (w.space.reduce_le seq)).placed

theorem markRun_written (valid : w.Valid) (placed : w.placement? = some p) {seq : UInt32} {count : Nat}
    (some_bit : 0 < count) (accepted : (w.markRun seq count).failure? = none) {lo : Int}
    (lo_eq : w.space.distance seq p.lowest = lo) :
    mergedSpan (w.extent p) lo (lo + count - 1) ≤ w.capacity ∧
      (w.markRun seq count).state =
        w.written (w.slide p (w.space.reduce seq) lo (lo + count - 1)) (lo - min lo 0).toNat count true
          (some (w.slide p (w.space.reduce seq) lo (lo + count - 1))) := by
  have short := ((markRun_decides valid seq count).accepted_iff.mp accepted).count_le valid.sound
  have beside : w.markRun seq count = w.extend p (w.space.reduce seq) count := by
    unfold markRun
    rw [if_neg (by omega), if_neg (by omega), placed]
  rw [← Space.distance_reduce_left] at lo_eq
  rw [beside] at accepted ⊢
  rcases extend_cases (valid.anchored placed) (w.space.reduce seq) count lo_eq with
    ⟨_, _, refusal⟩ | ⟨narrow, _, state_eq⟩
  · rw [refusal] at accepted
    cases accepted
  · exact ⟨narrow, state_eq⟩

theorem markRun_ahead (valid : w.Valid) (placed : w.placement? = some p) {seq : UInt32} {count : Nat}
    (ahead : 0 ≤ w.space.distance seq p.lowest)
    (accepted : (w.markRun seq count).failure? = none) :
    ∃ stop, (w.markRun seq count).state.placement? = some { p with stop := stop } := by
  by_cases none_at_all : count = 0
  · subst none_at_all
    rw [markRun_zero]
    exact ⟨p.stop, placed⟩
  · obtain ⟨_, state_eq⟩ := markRun_written valid placed (Nat.pos_of_ne_zero none_at_all) accepted rfl
    rw [state_eq, written, slide_of_ahead _ _ _ _ ahead]
    exact ⟨_, rfl⟩

theorem accepts_iff (valid : w.Valid) (seq : UInt32) : w.accepts seq = true ↔ w.Fits seq 1 := by
  unfold accepts
  cases placed : w.placement? with
  | none =>
    simp only [true_iff]
    exact (fits_iff_of_unplaced valid.sound placed seq 1).mpr valid.capacity_pos
  | some p =>
    have anchored := valid.anchored placed
    rw [fits_iff_mergedSpan anchored valid.sound Nat.one_pos rfl]
    simp only [misfit?_eq anchored, Int.natCast_one, Int.add_sub_cancel]
    split
    · rename_i wide
      simp
      omega
    · rename_i narrow
      simp
      omega

/-! ### Clearing -/

theorem unmarkRun_leaves (valid : w.Valid) (seq : UInt32) (count : Nat) :
    (w.unmarkRun seq count).Leaves w fun x =>
      w.contains x = true ∧ ¬ w.space.InArc seq (min count w.capacity) x := by
  have short := valid.capacity_le
  unfold unmarkRun
  cases placed : w.placement? with
  | none =>
    apply valid.leaves.congr
    intro x
    simp [contains_of_unplaced placed]
  | some p =>
    have anchored := valid.anchored placed
    have extent_lt := anchored.extent_lt
    simp only
    generalize lo_eq : w.space.distance seq p.lowest = lo
    -- Of the marks, those of the run are the ones at its offsets.
    have in_run : ∀ x (k : Nat), k ≤ w.extent p → w.space.reduce x = w.space.advance p.lowest k →
        (w.space.InArc seq (min count w.capacity) x ↔
          lo ≤ k ∧ (k : Int) < lo + (min count w.capacity : Nat)) := by
      intro x k near same
      rw [w.space.inArc_iff_offset (by omega) (by omega) same, lo_eq]
    split
    · rename_i outside
      apply valid.leaves.congr
      intro x
      constructor
      · intro marked
        refine ⟨marked, fun arc => ?_⟩
        obtain ⟨k, near, same⟩ := anchored.exists_offset valid.sound marked
        have := (in_run x k near same).mp arc
        omega
      · exact And.left
    · rename_i inside
      generalize low_eq : (max lo 0).toNat = low
      generalize high_eq : (min (lo + (min count w.capacity : Nat) - 1) (w.extent p)).toNat = high
      have cleared := cut_leaves valid anchored (show low ≤ high by omega) (by omega)
      apply cleared.congr
      intro x
      refine and_congr_right fun marked => not_congr ?_
      obtain ⟨k, near, same⟩ := anchored.exists_offset valid.sound marked
      rw [in_run x k near same, w.space.inArc_iff_offset (by omega) (by omega) same,
        w.space.distance_advance p.lowest (by omega) (by omega)]
      omega

/-! ### One number -/

theorem mark_decides (valid : w.Valid) (seq : UInt32) :
    (w.mark seq).Decides w (w.Fits seq 1) fun x =>
      w.contains x = true ∨ w.space.reduce x = w.space.reduce seq := by
  have decides := markRun_decides valid seq 1
  refine ⟨fun fits => (decides.leaves fits).congr fun x => ?_, decides.overflows⟩
  rw [Space.inArc_one]

theorem unmark_leaves (valid : w.Valid) (seq : UInt32) :
    (w.unmark seq).Leaves w fun x =>
      w.contains x = true ∧ w.space.reduce x ≠ w.space.reduce seq := by
  have positive := valid.capacity_pos
  apply (unmarkRun_leaves valid seq 1).congr
  intro x
  have whole : min 1 w.capacity = 1 := by omega
  rw [whole, Space.inArc_one]

theorem fits_of_marked (valid : w.Valid) {seq : UInt32} (marked : w.contains seq = true) :
    w.Fits seq 1 := by
  obtain ⟨first, within⟩ := valid.within
  refine ⟨first, within, fun x arc => within x ?_⟩
  rw [Space.inArc_one] at arc
  rw [w.contains_congr arc]
  exact marked

theorem toggle_decides (valid : w.Valid) (seq : UInt32) :
    (w.toggle seq).Decides w (w.Fits seq 1) fun x =>
      ¬ (w.contains x = true ↔ w.space.reduce x = w.space.reduce seq) := by
  have apart : ∀ x, w.space.reduce x = w.space.reduce seq → w.contains x = w.contains seq :=
    fun x same => w.contains_congr same
  unfold toggle
  split
  · rename_i marked
    apply Step.Leaves.decides _ (fits_of_marked valid marked)
    apply (unmark_leaves valid seq).congr
    intro x
    by_cases here : w.space.reduce x = w.space.reduce seq
    · simp [apart x here, here, marked]
    · simp [here]
  · rename_i unmarked
    have decides := mark_decides valid seq
    refine ⟨fun fits => (decides.leaves fits).congr fun x => ?_, decides.overflows⟩
    by_cases here : w.space.reduce x = w.space.reduce seq
    · simp [apart x here, here, unmarked]
    · simp [here]

/-! ### All numbers -/

theorem clear_leaves (valid : w.Valid) : (Step.done w.clear).Leaves w fun _ => False := by
  have sound : w.clear.Sound :=
    ⟨PackedBits.clear_valid valid.bits_valid, valid.capacity_pos, valid.capacity_le⟩
  refine ⟨rfl, sound.valid_of_empty rfl (PackedBits.contains_clear _), rfl, rfl, fun x => ?_⟩
  simp only [iff_false, Bool.not_eq_true]
  exact contains_of_unplaced rfl x

theorem fill_leaves (valid : w.Valid) (seq : UInt32) :
    (Step.done (w.fill seq)).Leaves w fun x => w.space.InArc seq w.capacity x := by
  have positive := valid.capacity_pos
  have capacity_eq : (w.fill seq).capacity = w.capacity := PackedBits.capacity_fill w.bits
  have sound : (w.fill seq).Sound :=
    ⟨PackedBits.fill_valid valid.bits_valid, by rwa [capacity_eq], by
      rw [capacity_eq]
      exact valid.capacity_le⟩
  let p : Placement := ⟨0, w.capacity - 1, w.space.reduce seq⟩
  have start_lt : p.start < w.capacity := positive
  have full : ∀ k, (w.fill seq).atOffset p k = true := by
    intro k
    unfold atOffset
    rw [capacity_eq]
    refine (PackedBits.contains_fill valid.bits_valid.size _).trans ?_
    exact decide_eq_true (p.position_lt start_lt k)
  have anchored : (w.fill seq).Anchored p (w.capacity - 1) := by
    refine ⟨rfl, ?_, ?_, ?_, w.space.reduce_le seq, full 0, full _, ?_⟩
    · rwa [capacity_eq]
    · rw [capacity_eq]
      omega
    · rw [capacity_eq, Placement.position_eq start_lt (by omega)]
      simp only [p, Nat.zero_add]
      rw [if_pos (by omega)]
    · intro k past inside
      rw [capacity_eq] at inside
      omega
  refine ⟨rfl, anchored.valid sound, rfl, capacity_eq, fun x => ?_⟩
  refine (contains_iff_markedFrom sound anchored x).trans ?_
  rw [← Space.inArc_reduce_first]
  simp only [MarkedFrom, full, and_true, capacity_eq]
  rfl

end SequenceTracking.Window
