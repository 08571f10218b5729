import SequenceTracking.Proofs.Window.Arrivals
import SequenceTracking.Proofs.Window.Marks
import SequenceTracking.Window.Algebra

/-!
Every merge of valid windows as an operation on their sets of marks. The walk of a merge marks, clears or
flips one number after the other; when one arc holds all of them beside the marks that are there, no step
of the walk is refused, whatever the window looks like in between. The checks made before the first change
decide exactly whether there is such an arc.
-/
namespace SequenceTracking.Window

variable {w other : Window} {p : Placement} {extent : Nat}

def Among (s : Space) (items : List UInt32) (seq : UInt32) : Prop :=
  ∃ item ∈ items, s.reduce seq = s.reduce item

theorem among_cons {s : Space} {item : UInt32} {rest : List UInt32} {seq : UInt32} :
    Among s (item :: rest) seq ↔ s.reduce seq = s.reduce item ∨ Among s rest seq := by
  simp [Among]

theorem among_nil {s : Space} {seq : UInt32} : ¬ Among s [] seq := by
  simp [Among]

theorem among_filter {s : Space} {keep : UInt32 → Bool}
    (respects : ∀ a b, s.reduce a = s.reduce b → keep a = keep b) (items : List UInt32)
    (seq : UInt32) : Among s (items.filter keep) seq ↔ Among s items seq ∧ keep seq = true := by
  constructor
  · intro given
    obtain ⟨item, listed, same⟩ := given
    obtain ⟨listed, kept⟩ := List.mem_filter.mp listed
    exact ⟨⟨item, listed, same⟩, by rwa [respects seq item same]⟩
  · intro given
    obtain ⟨⟨item, listed, same⟩, kept⟩ := given
    exact ⟨item, List.mem_filter.mpr ⟨listed, by rwa [← respects seq item same]⟩, same⟩

theorem among_marks (valid : w.Valid) {s : Space} (same : s = w.space) (seq : UInt32) :
    Among s w.marks seq ↔ w.contains seq = true := by
  subst same
  constructor
  · intro given
    obtain ⟨item, listed, same⟩ := given
    rw [w.contains_congr same]
    exact ((mem_marks valid item).mp listed).2
  · intro marked
    have reduced := w.space.reduce_reduce seq
    refine ⟨w.space.reduce seq, (mem_marks valid _).mpr ⟨reduced, ?_⟩, reduced.symm⟩
    rw [contains_reduce]
    exact marked

theorem admits_among_marks (other_valid : other.Valid) (same : w.space = other.space) :
    w.Admits (Among w.space other.marks) ↔ w.Admits fun x => other.contains x = true := by
  simp only [Admits, among_marks other_valid same]

theorem marks_distinct (valid : w.Valid) :
    w.marks.Pairwise fun a b => w.space.reduce a ≠ w.space.reduce b := by
  apply (marks_nodup valid).imp_of_mem
  intro a b listed_a listed_b apart
  rwa [((mem_marks valid a).mp listed_a).1, ((mem_marks valid b).mp listed_b).1]

/-! ### Walks -/

theorem each_mark_eq (w : Window) (items : List UInt32) :
    Step.each items mark w = w.markRuns (items.map (·, 1)) := by
  simp only [markRuns, Step.each, List.foldl_map]
  rfl

theorem each_unmark_eq (w : Window) (items : List UInt32) :
    Step.each items unmark w = w.unmarkRuns (items.map (·, 1)) := by
  simp only [unmarkRuns, Step.each, List.foldl_map]
  rfl

theorem among_iff_inRuns {s : Space} {items : List UInt32} {seq : UInt32} :
    Among s items seq ↔ InRuns s (items.map (·, 1)) seq := by
  constructor
  · intro given
    obtain ⟨item, listed, same⟩ := given
    exact ⟨(item, 1), List.mem_map.mpr ⟨item, listed, rfl⟩, (s.inArc_one item seq).mpr same⟩
  · intro given
    obtain ⟨_, mapped, arc⟩ := given
    obtain ⟨item, listed, rfl⟩ := List.mem_map.mp mapped
    exact ⟨item, listed, (s.inArc_one item seq).mp arc⟩

theorem each_mark_leaves (valid : w.Valid) {items : List UInt32}
    (admits : w.Admits (Among w.space items)) :
    (Step.each items mark w).Leaves w fun x => w.contains x = true ∨ Among w.space items x := by
  simp only [Admits, among_iff_inRuns] at admits
  simp only [each_mark_eq, among_iff_inRuns]
  exact markRuns_leaves valid admits

theorem each_mark_cases (valid : w.Valid) (items : List UInt32) :
    (Step.each items mark w).Leaves w (fun x => w.contains x = true ∨ Among w.space items x) ∨
      ∃ needed, w.capacity < needed ∧
        (Step.each items mark w).failure? = some (.span needed w.capacity) := by
  simp only [each_mark_eq, among_iff_inRuns]
  exact markRuns_cases valid _

theorem each_toggle_leaves (valid : w.Valid) {items : List UInt32}
    (distinct : items.Pairwise fun a b => w.space.reduce a ≠ w.space.reduce b)
    (admits : w.Admits (Among w.space items)) :
    (Step.each items toggle w).Leaves w fun x =>
      ¬ (w.contains x = true ↔ Among w.space items x) := by
  induction items generalizing w with
  | nil =>
    apply valid.leaves.congr
    intro x
    simp [among_nil]
  | cons item rest ih =>
    obtain ⟨first, within, held⟩ := admits
    obtain ⟨apart, distinct⟩ := List.pairwise_cons.mp distinct
    have fits : w.Fits item 1 :=
      ⟨first, within, fun x arc => held x (among_cons.mpr (.inl ((w.space.inArc_one _ _).mp arc)))⟩
    have flipped := (toggle_decides valid item).leaves fits
    have rest_admits : (w.toggle item).state.Admits (Among (w.toggle item).state.space rest) := by
      refine ⟨first, flipped.within fun x changed => ?_, fun x listed => ?_⟩
      · by_cases here : w.space.reduce x = w.space.reduce item
        · exact held x (among_cons.mpr (.inl here))
        · exact within x (by simpa [here] using changed)
      · rw [flipped.space_eq] at listed ⊢
        rw [flipped.capacity_eq]
        exact held x (among_cons.mpr (.inr listed))
    rw [Step.each_cons]
    apply (flipped.andThen (ih flipped.valid (by rwa [flipped.space_eq]) rest_admits)).congr
    intro x
    rw [flipped.contains_iff, flipped.space_eq, among_cons]
    by_cases here : w.space.reduce x = w.space.reduce item
    · have later : ¬ Among w.space rest x := by
        intro given
        obtain ⟨other, listed, same⟩ := given
        exact apart other listed (here.symm.trans same)
      simp [here, later]
    · simp [here]

theorem each_unmark_leaves (valid : w.Valid) (items : List UInt32) (drop : UInt32 → Bool) :
    (Step.each items
        (fun w seq => if w.contains seq && drop seq then w.unmark seq else .done w) w).Leaves w
      fun x => w.contains x = true ∧ ¬ Among w.space (items.filter drop) x := by
  induction items generalizing w with
  | nil =>
    apply valid.leaves.congr
    intro x
    simp [among_nil]
  | cons item rest ih =>
    rw [Step.each_cons]
    split
    · rename_i hit
      obtain ⟨marked, dropped⟩ := (Bool.and_eq_true _ _).mp hit
      have cleared := unmark_leaves valid item
      apply (cleared.andThen (ih cleared.valid)).congr
      intro x
      rw [cleared.contains_iff, cleared.space_eq, List.filter_cons_of_pos dropped, among_cons,
        not_or, and_assoc]
    · rename_i kept
      rw [Step.done_andThen]
      apply (ih valid).congr
      intro x
      refine and_congr_right fun marked => not_congr ?_
      by_cases dropped : drop item = true
      · rw [List.filter_cons_of_pos dropped, among_cons]
        -- An item that is to be dropped and yet kept is not marked.
        have apart : w.space.reduce x ≠ w.space.reduce item := by
          intro same
          rw [w.contains_congr same] at marked
          simp [marked, dropped] at kept
        simp [apart]
      · rw [List.filter_cons_of_neg dropped]

/-! ### Checks before the first change -/

theorem admits_iff_fits (valid : w.Valid) (other_valid : other.Valid) (same : w.space = other.space)
    (anchored : other.Anchored p extent) :
    w.Admits (fun x => other.contains x = true) ↔ w.Fits p.lowest (extent + 1) := by
  have short := valid.capacity_le
  have other_short := other_valid.capacity_le
  have extent_lt := anchored.extent_lt
  constructor
  · intro given
    obtain ⟨first, within, held⟩ := given
    obtain ⟨i, i_lt, at_i⟩ := held _ (anchored.contains_first other_valid.sound)
    obtain ⟨j, j_lt, at_j⟩ := held _ (anchored.contains_last other_valid.sound)
    rw [← same] at at_i at_j
    rw [Int.natCast_zero, Space.advance_zero, Space.reduce_reduce] at at_i
    have last := w.space.offset_of_advance short i_lt j_lt (by rw [same]; omega) at_i at_j
    refine ⟨first, within, ?_⟩
    intro x given
    obtain ⟨k, k_lt, at_k⟩ := given
    refine ⟨i + k, by omega, ?_⟩
    rw [at_k, ← Space.advance_reduce, at_i, Space.advance_advance, Int.natCast_add]
  · intro given
    obtain ⟨first, within, held⟩ := given
    refine ⟨first, within, fun x marked => held x ?_⟩
    obtain ⟨k, near, at_k⟩ := anchored.exists_offset other_valid.sound marked
    exact ⟨k, by omega, by rw [same]; exact at_k⟩

theorem admits_of_unplaced (valid : w.Valid) (unplaced : other.placement? = none) :
    w.Admits fun x => other.contains x = true := by
  obtain ⟨first, within⟩ := valid.within
  refine ⟨first, within, fun x marked => ?_⟩
  simp [contains_of_unplaced unplaced] at marked

theorem admits_iff_span_le (valid : w.Valid) (unplaced : w.placement? = none)
    (other_valid : other.Valid) (same : w.space = other.space) :
    w.Admits (fun x => other.contains x = true) ↔ other.span ≤ w.capacity := by
  cases placed : other.placement? with
  | none =>
    simp only [admits_of_unplaced valid placed, span, placed, Nat.zero_le]
  | some p =>
    have anchored := other_valid.anchored placed
    rw [admits_iff_fits valid other_valid same anchored,
      fits_iff_of_unplaced valid.sound unplaced, anchored.span_eq]

theorem spanMisfit?_cases (valid : w.Valid) (first : UInt32) (extent : Nat) :
    (w.Fits first (extent + 1) ∧ w.spanMisfit? first extent = none) ∨
      (¬ w.Fits first (extent + 1) ∧ ∃ needed, w.capacity < needed ∧
        w.spanMisfit? first extent = some (.span needed w.capacity)) := by
  unfold spanMisfit?
  cases placed : w.placement? with
  | none =>
    rw [fits_iff_of_unplaced valid.sound placed]
    simp only
    split
    · rename_i short
      exact .inl ⟨short, rfl⟩
    · rename_i long
      exact .inr ⟨by omega, extent + 1, by omega, rfl⟩
  | some p =>
    have anchored := valid.anchored placed
    have length_eq : ((extent + 1 : Nat) : Int) = extent + 1 := by omega
    rw [fits_iff_mergedSpan anchored valid.sound (Nat.succ_pos extent) rfl,
      length_eq, ← Int.add_assoc, Int.add_sub_cancel]
    simp only [misfit?_eq anchored]
    split
    · rename_i wide
      exact .inr ⟨by omega, _, by omega, rfl⟩
    · rename_i narrow
      exact .inl ⟨by omega, rfl⟩

theorem decides_of_check (valid : w.Valid) (other_valid : other.Valid)
    (same : w.space = other.space) (anchored : other.Anchored p extent) {merged : Step}
    {marks : UInt32 → Prop}
    (leaves : (w.Admits fun x => other.contains x = true) → merged.Leaves w marks) :
    (match w.spanMisfit? p.lowest extent with
      | some reason => Step.refused w reason
      | none => merged).Decides w (w.Admits fun x => other.contains x = true) marks := by
  have exact := admits_iff_fits valid other_valid same anchored
  rcases spanMisfit?_cases valid p.lowest extent with
    ⟨fits, accepted⟩ | ⟨misfit, needed, wide, refusal⟩
  · rw [accepted]
    exact (leaves (exact.mpr fits)).decides (exact.mpr fits)
  · rw [refusal]
    exact ⟨fun admits => absurd (exact.mp admits) misfit, fun _ => ⟨rfl, needed, wide, rfl⟩⟩

/-! ### The merges -/

theorem withinSpace_of_eq (same : w.space = other.space) (merged : Step) :
    w.withinSpace other merged = merged := by
  unfold withinSpace
  rw [if_pos same]

theorem withinSpace_of_ne (apart : w.space ≠ other.space) (merged : Step) :
    w.withinSpace other merged = .refused w (.space w.space.mask other.space.mask) := by
  unfold withinSpace
  rw [if_neg apart]

theorem assign_decides (valid : w.Valid) (other_valid : other.Valid)
    (same : w.space = other.space) :
    (w.assign other).Decides w (other.span ≤ w.capacity) fun x => other.contains x = true := by
  unfold assign
  rw [withinSpace_of_eq same]
  split
  · rename_i wide
    exact ⟨fun room => absurd wide (by omega), fun _ => ⟨rfl, _, wide, rfl⟩⟩
  · rename_i room
    have cleared : w.clear.Valid := (clear_leaves valid).valid
    have same_cleared : w.clear.space = other.space := same
    have admits : w.clear.Admits (Among w.clear.space other.marks) := by
      rw [admits_among_marks other_valid same_cleared,
        admits_iff_span_le cleared rfl other_valid same_cleared]
      exact Nat.le_of_not_lt room
    have walk := each_mark_leaves cleared admits
    apply Step.Leaves.decides _ (Nat.le_of_not_lt room)
    refine ⟨walk.accepted, walk.valid, walk.space_eq, walk.capacity_eq, fun x => ?_⟩
    rw [walk.contains_iff, among_marks other_valid same_cleared, contains_of_unplaced rfl]
    simp

theorem union_decides (valid : w.Valid) (other_valid : other.Valid) (same : w.space = other.space) :
    (w.union other).Decides w (w.Admits fun x => other.contains x = true) fun x =>
      w.contains x = true ∨ other.contains x = true := by
  -- an empty receiver takes over the operand's marks, which is the union too
  unfold union
  rw [withinSpace_of_eq same]
  cases other_placed : other.placement? with
  | none =>
    unfold first?
    rw [other_placed]
    apply Step.Leaves.decides _ (admits_of_unplaced valid other_placed)
    apply valid.leaves.congr
    intro x
    simp [contains_of_unplaced other_placed]
  | some q =>
    have other_anchored := other_valid.anchored other_placed
    rw [other_anchored.first?_eq]
    simp only [other_anchored.span_eq, Nat.add_sub_cancel]
    cases placed : w.placement? with
    | none =>
      have decides := assign_decides valid other_valid same
      unfold isOccupied
      rw [placed, if_neg (by simp), admits_iff_span_le valid placed other_valid same]
      refine ⟨fun room => (decides.leaves room).congr fun x => ?_, decides.overflows⟩
      simp [contains_of_unplaced placed]
    | some p =>
      unfold isOccupied
      rw [placed, Option.isSome_some, if_pos rfl]
      apply decides_of_check valid other_valid same other_anchored
      intro admits
      rw [← admits_among_marks other_valid same] at admits
      apply (each_mark_leaves valid admits).congr
      intro x
      rw [among_marks other_valid same]

theorem symmDiff_decides (valid : w.Valid) (other_valid : other.Valid)
    (same : w.space = other.space) :
    (w.symmDiff other).Decides w (w.Admits fun x => other.contains x = true) fun x =>
      ¬ (w.contains x = true ↔ other.contains x = true) := by
  unfold symmDiff
  rw [withinSpace_of_eq same]
  cases other_placed : other.placement? with
  | none =>
    unfold first?
    rw [other_placed]
    apply Step.Leaves.decides _ (admits_of_unplaced valid other_placed)
    apply valid.leaves.congr
    intro x
    simp [contains_of_unplaced other_placed]
  | some q =>
    have other_anchored := other_valid.anchored other_placed
    have distinct := marks_distinct other_valid
    rw [other_anchored.first?_eq]
    simp only [other_anchored.span_eq, Nat.add_sub_cancel]
    apply decides_of_check valid other_valid same other_anchored
    intro admits
    rw [← admits_among_marks other_valid same] at admits
    rw [← same] at distinct
    apply (each_toggle_leaves valid distinct admits).congr
    intro x
    rw [among_marks other_valid same]

theorem among_spanned (valid : w.Valid) {seq : UInt32} (marked : w.contains seq = true) :
    Among w.space w.spanned seq := by
  obtain ⟨first, k, first_eq, inside, same, _⟩ := valid.exists_place marked
  refine ⟨w.space.advance first k, ?_, same.trans (w.space.reduce_advance _ _).symm⟩
  unfold spanned
  rw [first_eq]
  exact List.mem_map.mpr ⟨k, List.mem_range.mpr inside, rfl⟩

theorem unmarkWhere_leaves (valid : w.Valid) {drop : UInt32 → Bool}
    (respects : ∀ a b, w.space.reduce a = w.space.reduce b → drop a = drop b) :
    (w.unmarkWhere drop).Leaves w fun x => w.contains x = true ∧ ¬ drop x = true := by
  -- the walk over the span meets every mark
  apply (each_unmark_leaves valid w.spanned drop).congr
  intro x
  rw [among_filter respects]
  constructor
  · intro given
    obtain ⟨marked, kept⟩ := given
    exact ⟨marked, fun dropped => kept ⟨among_spanned valid marked, dropped⟩⟩
  · intro given
    obtain ⟨marked, kept⟩ := given
    exact ⟨marked, fun dropped => kept dropped.2⟩

theorem subtract_leaves (valid : w.Valid) (same : w.space = other.space) :
    (w.subtract other).Leaves w fun x => w.contains x = true ∧ ¬ other.contains x = true := by
  unfold subtract
  rw [withinSpace_of_eq same]
  split
  · apply unmarkWhere_leaves valid
    rw [same]
    exact fun _ _ => other.contains_congr
  · rename_i empty
    have unplaced := unplaced_of_not_occupied empty
    apply valid.leaves.congr
    intro x
    simp [contains_of_unplaced unplaced]

theorem intersect_leaves (valid : w.Valid) (same : w.space = other.space) :
    (w.intersect other).Leaves w fun x => w.contains x = true ∧ other.contains x = true := by
  unfold intersect
  rw [withinSpace_of_eq same]
  split
  · have kept : (w.unmarkWhere fun x => !other.contains x).Leaves w fun x =>
        w.contains x = true ∧ ¬ (!other.contains x) = true := by
      apply unmarkWhere_leaves valid
      intro a b here
      rw [same] at here
      rw [other.contains_congr here]
    apply kept.congr
    intro x
    simp
  · rename_i empty
    have unplaced := unplaced_of_not_occupied empty
    apply (clear_leaves valid).congr
    intro x
    simp [contains_of_unplaced unplaced]

end SequenceTracking.Window
