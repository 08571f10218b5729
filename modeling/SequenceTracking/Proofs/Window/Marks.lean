import SequenceTracking.Proofs.Window.Queries

/-!
The marks of a window, each met once and in order. Following `next?` from the lowest mark visits the
offsets that are set, from the first to the last, so a list of marks can stand for the window.
-/
namespace SequenceTracking.Window

open Search

variable {w : Window} {p : Placement} {extent : Nat}

def setOffsets (w : Window) (p : Placement) (extent k : Nat) : List Nat :=
  (List.range' k (extent + 1 - k)).filter (w.atOffset p)

theorem mem_setOffsets (anchored : w.Anchored p extent) {k : Nat} :
    k ∈ w.setOffsets p extent 0 ↔ k < w.capacity ∧ w.atOffset p k = true := by
  have extent_lt := anchored.extent_lt
  unfold setOffsets
  rw [List.mem_filter, List.mem_range'_1]
  constructor
  · intro given
    obtain ⟨near, set⟩ := given
    exact ⟨by omega, set⟩
  · intro given
    obtain ⟨inside, set⟩ := given
    have := anchored.le_extent inside set
    exact ⟨by omega, set⟩

theorem setOffsets_ascending (w : Window) (p : Placement) (extent k : Nat) :
    (w.setOffsets p extent k).Pairwise (· < ·) :=
  List.Pairwise.sublist List.filter_sublist (List.pairwise_lt_range' 1)

def onward? (w : Window) (seq : UInt32) : Option UInt32 :=
  if some seq = w.last? then none else w.next? (w.space.advance seq 1)

theorem chain_eq (valid : w.Valid) (anchored : w.Anchored p extent) {n k : Nat} (inside : k ≤ extent)
    (set : w.atOffset p k = true) (enough : extent + 1 - k ≤ n) :
    chain w.onward? n (some (w.space.advance p.lowest k)) =
      (w.setOffsets p extent k).map fun (j : Nat) => w.space.advance p.lowest j := by
  have short := valid.capacity_le
  have total := w.space.size_eq
  have extent_lt := anchored.extent_lt
  induction n generalizing k with
  | zero => omega
  | succ n ih =>
    have remaining : extent + 1 - k = extent - k + 1 := by omega
    rw [chain_succ_some, onward?, anchored.last?_eq, setOffsets, remaining, List.range'_succ,
      List.filter_cons_of_pos set, List.map_cons]
    congr 1
    by_cases stop : k = extent
    · subst stop
      simp
    · have apart : ¬ some (w.space.advance p.lowest k) = some (w.space.advance p.lowest extent) := by
        intro same
        have := w.space.advance_injOn p.lowest (by omega) (by omega) (Option.some.inj same)
        omega
      have step : w.space.distance (w.space.advance (w.space.advance p.lowest k) 1) p.lowest =
          (k + 1 : Nat) := by
        rw [Space.advance_advance]
        exact w.space.distance_advance p.lowest (by omega) (by omega)
      rw [if_neg apart, next?_eq valid.bits_valid anchored step, if_neg (by omega), Int.toNat_natCast]
      cases near : least? (w.atOffset p) (k + 1) (extent + 1 - (k + 1)) with
      | none =>
        have := least?_eq_none_iff.mp near extent (by omega) (by omega)
        simp [anchored.last] at this
      | some j =>
        obtain ⟨from_k, j_lt, set_j, _⟩ := least?_eq_some_iff.mp near
        have remaining : extent - k = extent + 1 - (k + 1) := by omega
        rw [Option.map_some, ih (by omega) set_j (by omega), setOffsets, remaining, filter_range'_of_least? near]
        congr 3
        omega

theorem walk_eq (valid : w.Valid) (anchored : w.Anchored p extent) {n : Nat} (enough : w.span ≤ n) :
    chain w.onward? n w.first? =
      (w.setOffsets p extent 0).map fun (k : Nat) => w.space.advance p.lowest k := by
  rw [anchored.span_eq] at enough
  have walk := chain_eq valid anchored (Nat.zero_le _) anchored.first enough
  rw [anchored.advance_zero] at walk
  rw [anchored.first?_eq]
  exact walk

theorem marks_eq (valid : w.Valid) (anchored : w.Anchored p extent) :
    w.marks = (w.setOffsets p extent 0).map fun (k : Nat) => w.space.advance p.lowest k :=
  walk_eq valid anchored (Nat.le_refl _)

theorem marks_of_unplaced (unplaced : w.placement? = none) : w.marks = [] := by
  simp [marks, first?, unplaced]

theorem walk_eq_marks (valid : w.Valid) {n : Nat} (enough : w.span ≤ n) :
    chain w.onward? n w.first? = w.marks := by
  cases placed : w.placement? with
  | none =>
    rw [marks_of_unplaced placed, first?, placed, Option.map_none, chain_none]
  | some p =>
    have anchored := valid.anchored placed
    rw [walk_eq valid anchored enough, marks_eq valid anchored]

theorem length_marks_le (valid : w.Valid) : w.marks.length ≤ w.span := by
  cases placed : w.placement? with
  | none =>
    rw [marks_of_unplaced placed]
    exact Nat.zero_le _
  | some p =>
    have anchored := valid.anchored placed
    rw [marks_eq valid anchored, List.length_map, anchored.span_eq]
    calc
      (w.setOffsets p (w.extent p) 0).length ≤ (List.range' 0 (w.extent p + 1 - 0)).length :=
        List.length_filter_le _ _
      _ = w.extent p + 1 := List.length_range'

theorem mem_marks (valid : w.Valid) (seq : UInt32) :
    seq ∈ w.marks ↔ w.space.reduce seq = seq ∧ w.contains seq = true := by
  cases placed : w.placement? with
  | none => simp [marks_of_unplaced placed, contains_of_unplaced placed]
  | some p =>
    have anchored := valid.anchored placed
    rw [marks_eq valid anchored, List.mem_map, contains_iff_markedFrom valid.sound anchored]
    constructor
    · intro given
      obtain ⟨k, listed, rfl⟩ := given
      obtain ⟨inside, set⟩ := (mem_setOffsets anchored).mp listed
      have reduced := w.space.reduce_advance p.lowest k
      exact ⟨reduced, k, inside, reduced, set⟩
    · intro given
      obtain ⟨reduced, k, inside, same, set⟩ := given
      exact ⟨k, (mem_setOffsets anchored).mpr ⟨inside, set⟩, same.symm.trans reduced⟩

theorem marks_pairwise (valid : w.Valid) (anchored : w.Anchored p extent)
    {related : UInt32 → UInt32 → Prop}
    (holds : ∀ j k : Nat, j < k → k < w.capacity →
      related (w.space.advance p.lowest j) (w.space.advance p.lowest k)) :
    w.marks.Pairwise related := by
  rw [marks_eq valid anchored, List.pairwise_map]
  apply (w.setOffsets_ascending p extent 0).imp_of_mem
  intro j k _ listed order
  exact holds j k order ((mem_setOffsets anchored).mp listed).1

theorem marks_ascending (valid : w.Valid) (anchored : w.Anchored p extent) :
    w.marks.Pairwise fun a b => w.space.distance a p.lowest < w.space.distance b p.lowest := by
  apply marks_pairwise valid anchored
  intro j k order inside
  rw [valid.sound.distance_advance p.lowest (by omega), valid.sound.distance_advance p.lowest inside]
  omega

theorem marks_ahead (valid : w.Valid) : w.marks.Pairwise fun a b => 0 ≤ w.space.distance b a := by
  have short := valid.capacity_le
  cases placed : w.placement? with
  | none => simp [marks_of_unplaced placed]
  | some p =>
    apply marks_pairwise valid (valid.anchored placed)
    intro j k order inside
    rw [w.space.distance_advance_advance p.lowest (by omega) (by omega)]
    omega

theorem marks_nodup (valid : w.Valid) : w.marks.Nodup := by
  cases placed : w.placement? with
  | none => simp [marks_of_unplaced placed]
  | some p =>
    apply (marks_ascending valid (valid.anchored placed)).imp
    rintro a b order rfl
    omega

theorem head?_marks (valid : w.Valid) : w.marks.head? = w.first? := by
  cases placed : w.placement? with
  | none =>
    rw [marks_of_unplaced placed, first?, placed]
    rfl
  | some p =>
    have anchored := valid.anchored placed
    rw [marks_eq valid anchored, anchored.first?_eq, setOffsets, Nat.sub_zero, List.range'_succ,
      List.filter_cons_of_pos anchored.first, List.map_cons, List.head?_cons, anchored.advance_zero]

theorem getLast?_marks (valid : w.Valid) : w.marks.getLast? = w.last? := by
  cases placed : w.placement? with
  | none =>
    rw [marks_of_unplaced placed, last?, placed]
    rfl
  | some p =>
    have anchored := valid.anchored placed
    rw [marks_eq valid anchored, anchored.last?_eq, setOffsets, Nat.sub_zero, List.range'_concat,
      List.filter_append, List.map_append, Nat.zero_add, Nat.one_mul,
      List.filter_cons_of_pos anchored.last, List.filter_nil, List.map_singleton,
      List.getLast?_concat]

/-! ### Counting -/

theorem positions_perm (start_lt : p.start < w.capacity) :
    ((List.range w.capacity).map (p.position w.capacity)).Perm (List.range w.capacity) := by
  have distinct : ((List.range w.capacity).map (p.position w.capacity)).Nodup := by
    rw [List.Nodup, List.pairwise_map]
    apply List.nodup_range.imp_of_mem
    intro j k listed_j listed_k apart same
    exact apart (position_inj start_lt (List.mem_range.mp listed_j) (List.mem_range.mp listed_k) same)
  rw [List.perm_ext_iff_of_nodup distinct List.nodup_range]
  intro i
  simp only [List.mem_map, List.mem_range]
  constructor
  · intro given
    obtain ⟨k, _, rfl⟩ := given
    exact p.position_lt start_lt k
  · intro inside
    exact ⟨_, p.offset_lt start_lt i, Placement.position_offset start_lt inside⟩

theorem count_eq (valid : w.Valid) : w.count = w.marks.length := by
  have capacity_eq : w.bits.capacity = w.capacity := rfl
  unfold count
  rw [PackedBits.count_eq valid.bits_valid, capacity_eq]
  cases placed : w.placement? with
  | none =>
    rw [marks_of_unplaced placed, List.length_nil, List.countP_eq_zero]
    intro i _
    simp [valid.unplaced placed i]
  | some p =>
    have anchored := valid.anchored placed
    have extent_lt := anchored.extent_lt
    have by_offset : (List.range w.capacity).countP w.bits.contains =
        (List.range w.capacity).countP (w.atOffset p) := by
      rw [← (positions_perm anchored.start_lt).countP_eq, List.countP_map]
      rfl
    rw [by_offset, countP_range_shrink (show w.extent p + 1 ≤ w.capacity by omega), List.range_eq_range',
      marks_eq valid anchored, List.length_map, setOffsets, List.countP_eq_length_filter]
    · rfl
    · intro k past inside
      exact anchored.beyond k (by omega) inside

end SequenceTracking.Window
