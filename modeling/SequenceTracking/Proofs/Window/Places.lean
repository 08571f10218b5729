import SequenceTracking.Proofs.Window.Equality

/-!
Where numbers lie in storage. Marking moves the start of the span back and clearing moves it on, each together
with the lowest number, so a mark never moves while it stays. Two ways to the same marks that have one of these
marks in common at one place therefore leave the same storage and the same ends.
-/
namespace SequenceTracking.Window

variable {u v w : Window} {p q : Placement} {extent back : Nat}

def placeFrom (w : Window) (p : Placement) (x : UInt32) : Nat :=
  p.position w.capacity (w.space.distance x p.lowest).toNat

def place? (w : Window) (x : UInt32) : Option Nat := w.placement?.map fun p => w.placeFrom p x

/-- Every mark of `v` is a mark of `w` and lies at the same place. -/
structure PartOf (v w : Window) : Prop where
  marked : ∀ x, v.contains x = true → w.contains x = true
  place_eq : ∀ x, v.contains x = true → v.place? x = w.place? x

theorem PartOf.refl (w : Window) : PartOf w w := ⟨fun _ marked => marked, fun _ _ => rfl⟩

theorem PartOf.trans (first : PartOf u v) (second : PartOf v w) : PartOf u w where
  marked x there := second.marked x (first.marked x there)
  place_eq x there := (first.place_eq x there).trans (second.place_eq x (first.marked x there))

theorem place?_reduce (w : Window) (x : UInt32) : w.place? (w.space.reduce x) = w.place? x := by
  simp only [place?, placeFrom, Space.distance_reduce_left]

theorem partOf_of_unplaced (unplaced : v.placement? = none) (w : Window) : PartOf v w := by
  constructor
  all_goals
    intro x marked
    simp [contains_of_unplaced unplaced] at marked

theorem Anchored.place?_eq (anchored : w.Anchored p extent) (x : UInt32) :
    w.place? x = some (w.placeFrom p x) := by
  rw [place?, anchored.placed, Option.map_some]

theorem Anchored.place?_lowest (anchored : w.Anchored p extent) : w.place? p.lowest = some p.start := by
  rw [anchored.place?_eq, placeFrom, Space.distance_self, Int.toNat_zero,
    Placement.position_zero anchored.start_lt]

/-! ### Starts that move -/

theorem Anchored.before_of_start (anchored : w.Anchored p extent) (start_eq : q.start = p.start)
    (lowest_eq : q.lowest = p.lowest) : w.Before p q 0 where
  start_lt := anchored.start_lt
  back_lt := Nat.zero_lt_of_lt anchored.start_lt
  start_eq := by rw [start_eq, Placement.position_zero anchored.start_lt]
  lowest_eq := by rw [lowest_eq, anchored.advance_zero]

theorem Before.congr (before : v.Before q p back) (space_eq : v.space = w.space)
    (capacity_eq : v.capacity = w.capacity) : w.Before q p back where
  start_lt := capacity_eq ▸ before.start_lt
  back_lt := capacity_eq ▸ before.back_lt
  start_eq := capacity_eq ▸ before.start_eq
  lowest_eq := space_eq ▸ before.lowest_eq

theorem place?_eq_of_before (v_valid : v.Valid) (valid : w.Valid) (space_eq : v.space = w.space)
    (capacity_eq : v.capacity = w.capacity) (v_placed : v.placement? = some q)
    (placed : w.placement? = some p) (before : w.Before q p back) {x : UInt32}
    (v_marked : v.contains x = true) (marked : w.contains x = true) : v.place? x = w.place? x := by
  -- A number marked in two windows, one of which starts earlier than the other, lies at one place.
  have short := valid.capacity_le
  have total := w.space.size_eq
  have v_anchored := v_valid.anchored v_placed
  have anchored := valid.anchored placed
  have v_extent_lt := v_anchored.extent_lt
  have extent_lt := anchored.extent_lt
  have back_lt := before.back_lt
  obtain ⟨i, i_le, _, far⟩ := v_anchored.exists_distance v_valid.sound v_marked
  obtain ⟨k, k_le, _, near⟩ := anchored.exists_distance valid.sound marked
  rw [space_eq] at far
  have sum : (i : Int) = (back + k : Nat) := by
    have at_i := (w.space.distance_eq_iff (by omega) (by omega)).mp far
    have at_k := (w.space.distance_eq_iff (by omega) (by omega)).mp near
    rw [before.lowest_eq, Space.advance_advance, ← Int.natCast_add] at at_k
    exact w.space.advance_injOn q.lowest (by omega) (by omega) (at_i.symm.trans at_k)
  rw [v_anchored.place?_eq, anchored.place?_eq, placeFrom, placeFrom, space_eq, capacity_eq, far, near, sum,
    Int.toNat_natCast, Int.toNat_natCast, Placement.position_shift before.start_lt before.start_eq (by omega)]

/-! ### Marking -/

theorem markRun_partOf (valid : w.Valid) (seq : UInt32) (count : Nat) :
    PartOf w (w.markRun seq count).state := by
  have decides := markRun_decides valid seq count
  by_cases fits : w.Fits seq count
  · have leaves := decides.leaves fits
    have marked : ∀ x, w.contains x = true → (w.markRun seq count).state.contains x = true :=
      fun x there => (leaves.contains_iff x).mpr (.inl there)
    by_cases none_at_all : count = 0
    · rw [none_at_all, markRun_zero]
      exact .refl w
    cases placed : w.placement? with
    | none => exact partOf_of_unplaced placed _
    | some p =>
      obtain ⟨narrow, state_eq⟩ :=
        markRun_written valid placed (Nat.pos_of_ne_zero none_at_all) leaves.accepted rfl
      unfold mergedSpan at narrow
      obtain ⟨before, _⟩ := slide_before valid (valid.anchored placed) (w.space.reduce_le seq)
        (w.space.distance seq p.lowest + count - 1) (w.space.distance_reduce_left seq p.lowest) (by omega)
      refine ⟨marked, fun x there => ?_⟩
      apply Eq.symm
      apply place?_eq_of_before leaves.valid valid leaves.space_eq leaves.capacity_eq _ placed before
        (marked x there) there
      rw [state_eq]
      rfl
  · rw [(decides.overflows fits).unchanged]
    exact .refl w

theorem markRun_place?_first (valid : w.Valid) (unplaced : w.placement? = none) {seq : UInt32} {count : Nat}
    (some_bit : 0 < count) (accepted : (w.markRun seq count).failure? = none) :
    (w.markRun seq count).state.place? seq = some 0 := by
  have leaves := (markRun_decides valid seq count).leaves_of_accepted accepted
  have anchored := leaves.valid.anchored (markRun_of_unplaced valid unplaced some_bit accepted)
  rw [← place?_reduce, leaves.space_eq]
  exact anchored.place?_lowest

/-! ### Clearing -/

theorem cut_partOf (valid : w.Valid) (anchored : w.Anchored p extent) {lo hi : Nat} (ordered : lo ≤ hi)
    (within_span : hi ≤ extent) : PartOf (w.cut p lo hi).state w := by
  have extent_lt := anchored.extent_lt
  have leaves := cut_leaves valid anchored ordered within_span
  have shape := cut_cases valid anchored ordered within_span
  generalize w.cut p lo hi = left at leaves shape ⊢
  have marked : ∀ x, left.state.contains x = true → w.contains x = true :=
    fun x there => ((leaves.contains_iff x).mp there).1
  have kept : ∀ {q : Placement} {j : Nat}, left.state.placement? = some q → w.Before p q j →
      PartOf left.state w := by
    intro q j placed before
    have space_eq := leaves.space_eq.symm
    have capacity_eq := leaves.capacity_eq.symm
    refine ⟨marked, fun x there => ?_⟩
    exact (place?_eq_of_before valid leaves.valid space_eq capacity_eq anchored.placed placed
      (before.congr space_eq capacity_eq) (marked x there) there).symm
  cases shape with
  | all from_first to_last => exact partOf_of_unplaced rfl w
  | front from_first _ j past within_j set between =>
    exact kept rfl ⟨anchored.start_lt, by omega, rfl, rfl⟩
  | back inner to_last j before set between => exact kept rfl (anchored.before_of_start rfl rfl)
  | middle inner short => exact kept anchored.placed (anchored.before_of_start rfl rfl)

theorem unmarkRun_partOf (valid : w.Valid) (seq : UInt32) (count : Nat) :
    PartOf (w.unmarkRun seq count).state w := by
  unfold unmarkRun
  cases placed : w.placement? with
  | none => exact .refl w
  | some p =>
    simp only
    split
    · exact .refl w
    · exact cut_partOf valid (valid.anchored placed) (by omega) (by omega)

/-! ### Runs of steps -/

theorem each_mark_partOf (valid : w.Valid) (items : List UInt32) :
    PartOf w (Step.each items mark w).state :=
  (each_related PartOf .refl .trans
    (fun _ seq start_valid => ⟨(mark_orderly start_valid seq).valid, markRun_partOf start_valid seq 1⟩)
    valid items).2

theorem each_unmark_partOf (valid : w.Valid) (items : List UInt32) :
    PartOf (Step.each items unmark w).state w :=
  (each_related (fun before after => PartOf after before) .refl (fun first second => second.trans first)
    (fun _ seq start_valid => ⟨(unmark_leaves start_valid seq).valid, unmarkRun_partOf start_valid seq 1⟩)
    valid items).2

/-! ### One storage -/

/-- Windows that mark the same numbers and hold one of them at one place in storage are the same. -/
theorem Alike.eq_of_place (alike : Alike v w) {x : UInt32} (marked : v.contains x = true)
    (place_eq : v.place? x = w.place? x) : v = w := by
  apply alike.eq_of_start
  intro p q placed other_placed
  have left := alike.left.anchored placed
  have right := alike.right.anchored other_placed
  have lowest_eq : p.lowest = q.lowest := by
    have first := alike.first_eq
    rw [left.first?_eq, right.first?_eq] at first
    exact Option.some.inj first
  have start_lt := left.start_lt
  have other_lt := right.start_lt
  obtain ⟨k, k_le, _, far⟩ := left.exists_distance alike.left.sound marked
  have k_lt := Nat.lt_of_le_of_lt k_le left.extent_lt
  rw [left.place?_eq, right.place?_eq, placeFrom, placeFrom, ← alike.space_eq, ← alike.capacity_eq, ← lowest_eq,
    far, Int.toNat_natCast, Option.some.injEq] at place_eq
  rw [← alike.capacity_eq] at other_lt
  rw [Placement.position_eq start_lt k_lt, Placement.position_eq other_lt k_lt] at place_eq
  split at place_eq <;> split at place_eq <;> omega

theorem Alike.eq_of_partOf (alike : Alike u v) (first : PartOf u w) (second : PartOf v w) : u = v := by
  cases placed : u.placement? with
  | none =>
    apply alike.eq_of_start
    intro p q here _
    simp [placed] at here
  | some p =>
    have marked := (alike.left.anchored placed).contains_lowest alike.left.sound
    apply alike.eq_of_place marked
    rw [first.place_eq _ marked, second.place_eq]
    rw [← alike.contains_eq]
    exact marked

end SequenceTracking.Window
