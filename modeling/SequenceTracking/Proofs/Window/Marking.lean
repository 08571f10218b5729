import SequenceTracking.Proofs.Window.Anchored

/-!
What marking and clearing do to a valid window: the exact window that each case leaves, and with it that
the window stays valid, keeps its space and capacity, and gains or loses exactly the numbers of the run.
-/
namespace SequenceTracking.Window

variable {w : Window} {p q : Placement} {extent : Nat}

/-! ### Marking an empty window -/

theorem written_anchored (sound : w.Sound) (start_lt : q.start < w.capacity) {offset count : Nat}
    (some_bit : 0 < count) (extent_lt : extent < w.capacity) (reach : offset + count ≤ extent + 1)
    (stop_eq : q.stop = q.position w.capacity extent) (lowest_le : q.lowest ≤ w.space.mask)
    (first : offset = 0 ∨ w.atOffset q 0 = true)
    (last : offset + count = extent + 1 ∨ w.atOffset q extent = true)
    (beyond : ∀ k, extent < k → k < w.capacity → w.atOffset q k = false) :
    (w.written q offset count true (some q)).Anchored q extent := by
  have fits : offset + count ≤ w.capacity := by omega
  have bits : ∀ k, k < w.capacity → (w.written q offset count true (some q)).atOffset q k =
      if offset ≤ k ∧ k < offset + count then true else w.atOffset q k :=
    fun k inside => atOffset_written sound start_lt fits inside true (some q)
  apply anchored_of_written start_lt extent_lt stop_eq lowest_le
  · rw [bits 0 (by omega)]
    split
    · rfl
    · exact first.resolve_left (by omega)
  · rw [bits extent extent_lt]
    split
    · rfl
    · exact last.resolve_left (by omega)
  · intro k past inside
    rw [bits k inside, if_neg (by omega)]
    exact beyond k past inside

theorem Valid.not_atOffset (valid : w.Valid) (unplaced : w.placement? = none) (p : Placement)
    (k : Nat) : w.atOffset p k = false := valid.unplaced unplaced _

theorem Valid.not_markedFrom (valid : w.Valid) (unplaced : w.placement? = none) (p : Placement)
    (seq : UInt32) : ¬ w.MarkedFrom p seq := by
  intro given
  obtain ⟨k, _, _, set⟩ := given
  simp [valid.not_atOffset unplaced] at set

theorem anchor_anchored (valid : w.Valid) (unplaced : w.placement? = none) {seq : UInt32}
    {count : Nat} (some_bit : 0 < count) (fits : count ≤ w.capacity) (reduced : seq ≤ w.space.mask) :
    (w.anchor seq count).state.Anchored ⟨0, count - 1, seq⟩ (count - 1) := by
  have positive := valid.capacity_pos
  have start : (⟨0, count - 1, seq⟩ : Placement).start < w.capacity := positive
  apply written_anchored valid.sound start some_bit (by omega) (by omega) _ reduced (Or.inl rfl)
    (Or.inl (by omega))
  · intro k _ _
    exact valid.not_atOffset unplaced _ k
  · rw [Placement.position_eq start (by omega)]
    simp only [Nat.zero_add]
    rw [if_pos (by omega)]

theorem contains_anchor (valid : w.Valid) (unplaced : w.placement? = none) {seq : UInt32}
    {count : Nat} (some_bit : 0 < count) (fits : count ≤ w.capacity) (reduced : seq ≤ w.space.mask)
    (x : UInt32) : (w.anchor seq count).state.contains x = true ↔ w.space.InArc seq count x := by
  have start : (⟨0, count - 1, seq⟩ : Placement).start < w.capacity := valid.capacity_pos
  have anchored := anchor_anchored valid unplaced some_bit fits reduced
  have sound : (w.anchor seq count).state.Sound := written_sound valid.sound start (by omega) true _
  rw [contains_iff_markedFrom sound anchored]
  refine (markedFrom_written valid.sound start (by omega) true _ x).trans ?_
  simp only [valid.not_markedFrom unplaced, false_and, or_false, true_and]
  rw [← Space.inArc_reduce_first, Int.natCast_zero, Space.reduce_advance, Space.advance_zero,
    Space.inArc_reduce_first]

/-! ### Sliding -/

theorem emod_back {c x : Nat} (back : Nat) (x_lt : x < c) (back_lt : back < c) :
    (((x : Int) + -(back : Int)) % (c : Int)).toNat = if back ≤ x then x - back else x + c - back := by
  split
  · rw [Int.emod_eq_of_lt (by omega) (by omega)]
    omega
  · rw [← Int.add_emod_right, Int.emod_eq_of_lt (by omega) (by omega)]
    omega

/-- `q` starts `back` places before `p`, in storage and among the numbers. -/
structure Before (w : Window) (q p : Placement) (back : Nat) : Prop where
  start_lt : q.start < w.capacity
  back_lt : back < w.capacity
  start_eq : p.start = q.position w.capacity back
  lowest_eq : p.lowest = w.space.advance q.lowest back

section Before

variable {back : Nat} (before : w.Before q p back) (anchored : w.Anchored p extent)
  (room : back + extent < w.capacity)

include before

theorem Before.atOffset_add {k : Nat} (inside : back + k < w.capacity) :
    w.atOffset q (back + k) = w.atOffset p k :=
  (atOffset_shift before.start_lt before.start_eq inside).symm

include anchored

theorem Before.atOffset_past {k : Nat} (past : back + extent < k) (inside : k < w.capacity) :
    w.atOffset q k = false := by
  have parts : k = back + (k - back) := by omega
  rw [parts, before.atOffset_add (by omega)]
  exact anchored.beyond _ (by omega) (by omega)

include room

theorem Before.atOffset_early {k : Nat} (early : k < back) : w.atOffset q k = false := by
  have back_lt := before.back_lt
  have wrapped := atOffset_shift_wrap before.start_lt before.start_eq before.back_lt
    (k := k + w.capacity - back) (by omega) (by omega)
  have turn : back + (k + w.capacity - back) - w.capacity = k := by omega
  rw [turn] at wrapped
  rw [← wrapped]
  exact anchored.beyond _ (by omega) (by omega)

theorem Before.markedFrom_iff (seq : UInt32) : w.MarkedFrom p seq ↔ w.MarkedFrom q seq :=
  markedFrom_shift before.start_lt before.back_lt before.start_eq before.lowest_eq
    (fun _ early => before.atOffset_early anchored room early) seq

end Before

theorem slide_before (valid : w.Valid) (anchored : w.Anchored p extent) {seq : UInt32}
    (reduced : seq ≤ w.space.mask) {lo : Int} (hi : Int)
    (lo_eq : w.space.distance seq p.lowest = lo) (near : -(min lo 0) < w.capacity) :
    w.Before (w.slide p seq lo hi) p (-(min lo 0)).toNat ∧
      (w.slide p seq lo hi).lowest = w.space.advance p.lowest (min lo 0) ∧
      (w.slide p seq lo hi).lowest ≤ w.space.mask := by
  have positive := valid.capacity_pos
  have start_lt := anchored.start_lt
  have lowest_eq : (w.slide p seq lo hi).lowest = w.space.advance p.lowest (min lo 0) := by
    unfold slide
    by_cases behind : lo < 0
    · have negative : min lo 0 < 0 := by omega
      simp only [negative, if_true]
      have lower : min lo 0 = lo := by omega
      rw [lower, ← lo_eq, Space.advance_distance, w.space.reduce_of_le reduced]
    · have nonnegative : ¬ min lo 0 < 0 := by omega
      simp only [nonnegative, if_false]
      have lower : min lo 0 = 0 := by omega
      rw [lower, Space.advance_zero, w.space.reduce_of_le anchored.lowest_le]
  have start_eq : (w.slide p seq lo hi).start =
      if (-(min lo 0)).toNat ≤ p.start then p.start - (-(min lo 0)).toNat
      else p.start + w.capacity - (-(min lo 0)).toNat := by
    unfold slide
    by_cases behind : lo < 0
    · have negative : min lo 0 < 0 := by omega
      simp only [negative, if_true]
      have turned := emod_back (-(min lo 0)).toNat start_lt (by omega)
      have back_eq : -(((-(min lo 0)).toNat : Nat) : Int) = min lo 0 := by omega
      rwa [back_eq] at turned
    · have nonnegative : ¬ min lo 0 < 0 := by omega
      simp only [nonnegative, if_false]
      split <;> omega
  have slid_lt : (w.slide p seq lo hi).start < w.capacity := by
    rw [start_eq]
    split <;> omega
  refine ⟨⟨slid_lt, by omega, ?_, ?_⟩, lowest_eq, ?_⟩
  · rw [Placement.position_eq slid_lt (by omega), start_eq]
    split <;> split <;> omega
  · rw [lowest_eq, Space.advance_advance, Int.toNat_of_nonneg (by omega), Int.add_right_neg,
      Space.advance_zero, w.space.reduce_of_le anchored.lowest_le]
  · rw [lowest_eq]
    exact w.space.advance_le _ _

theorem slide_of_ahead (w : Window) (p : Placement) (seq : UInt32) {lo : Int} (hi : Int)
    (ahead : 0 ≤ lo) :
    w.slide p seq lo hi =
      { p with stop := p.position w.capacity (max hi (w.extent p)).toNat } := by
  have still : min lo 0 = 0 := by omega
  unfold slide
  simp only [still, Int.lt_irrefl, if_false, Int.sub_zero]

/-! ### Marking an occupied window -/

def mergedSpan (extent : Nat) (lo hi : Int) : Int := max hi extent - min lo 0 + 1

theorem misfit?_eq (anchored : w.Anchored p extent) (lo hi : Int) :
    w.misfit? p lo hi =
      if (w.capacity : Int) < mergedSpan extent lo hi
      then some (.span (mergedSpan extent lo hi).toNat w.capacity) else none := by
  unfold misfit?
  rw [anchored.extent_eq]
  rfl

/-- What becomes of a run that is marked beside others: it is refused when the merged span exceeds the
    capacity; otherwise it is written from the start of the slide on. -/
theorem extend_cases (anchored : w.Anchored p extent) (seq : UInt32) (count : Nat) {lo : Int}
    (lo_eq : w.space.distance seq p.lowest = lo) :
    ((w.capacity : Int) < mergedSpan extent lo (lo + count - 1) ∧ (w.extend p seq count).state = w ∧
      (w.extend p seq count).failure? =
        some (.span (mergedSpan extent lo (lo + count - 1)).toNat w.capacity)) ∨
    (mergedSpan extent lo (lo + count - 1) ≤ w.capacity ∧ (w.extend p seq count).failure? = none ∧
      (w.extend p seq count).state =
        w.written (w.slide p seq lo (lo + count - 1)) (lo - min lo 0).toNat count true
          (some (w.slide p seq lo (lo + count - 1)))) := by
  delta extend
  rw [lo_eq]
  by_cases wide : (w.capacity : Int) < mergedSpan extent lo (lo + count - 1)
  · left
    simp only [misfit?_eq anchored, if_pos wide]
    exact ⟨wide, rfl, rfl⟩
  · right
    simp only [misfit?_eq anchored, if_neg wide]
    refine ⟨by omega, ?_, ?_⟩
    · split <;> rfl
    · split <;> rfl

theorem extend_spec (valid : w.Valid) (anchored : w.Anchored p extent) {seq : UInt32}
    (reduced : seq ≤ w.space.mask) {count : Nat} (some_bit : 0 < count) {lo : Int}
    (lo_eq : w.space.distance seq p.lowest = lo)
    (fits : mergedSpan extent lo (lo + count - 1) ≤ w.capacity) :
    let q := w.slide p seq lo (lo + count - 1)
    let grown := w.written q (lo - min lo 0).toNat count true (some q)
    grown.Anchored q (max (lo + count - 1) extent - min lo 0).toNat ∧ grown.Sound ∧
      ∀ x, grown.contains x = true ↔ w.contains x = true ∨ w.space.InArc seq count x := by
  intro q grown
  unfold mergedSpan at fits
  obtain ⟨before, lowest_eq, lowest_le⟩ :=
    slide_before valid anchored reduced (lo + count - 1) lo_eq (by omega)
  have room : (-(min lo 0)).toNat + extent < w.capacity := by omega
  have stop_eq : q.stop = q.position w.capacity (max (lo + count - 1) extent - min lo 0).toNat := by
    simp only [q, slide, anchored.extent_eq]
    rfl
  have grown_anchored : grown.Anchored q (max (lo + count - 1) extent - min lo 0).toNat := by
    apply written_anchored valid.sound before.start_lt some_bit (by omega) (by omega) stop_eq lowest_le
    · by_cases behind : lo ≤ 0
      · left
        omega
      · right
        have here := before.atOffset_add (k := 0) (by omega)
        rw [show (-(min lo 0)).toNat + 0 = 0 by omega] at here
        rw [here]
        exact anchored.first
    · by_cases further : (extent : Int) ≤ lo + count - 1
      · left
        omega
      · right
        have here := before.atOffset_add (k := extent) (by omega)
        have last_eq : (max (lo + count - 1) extent - min lo 0).toNat =
            (-(min lo 0)).toNat + extent := by omega
        rw [last_eq, here]
        exact anchored.last
    · intro k past inside
      exact before.atOffset_past anchored (by omega) inside
  have grown_sound : grown.Sound := written_sound valid.sound before.start_lt (by omega) true (some q)
  have run_first : w.space.advance q.lowest ((lo - min lo 0).toNat : Nat) = seq := by
    have back_and_forth : min lo 0 + (lo - min lo 0) = lo := by omega
    rw [lowest_eq, Space.advance_advance, Int.toNat_of_nonneg (by omega), back_and_forth, ← lo_eq,
      Space.advance_distance, w.space.reduce_of_le reduced]
  refine ⟨grown_anchored, grown_sound, fun x => ?_⟩
  rw [contains_iff_markedFrom grown_sound grown_anchored,
    markedFrom_written valid.sound before.start_lt (by omega) true (some q), run_first,
    ← before.markedFrom_iff anchored room, ← contains_iff_markedFrom valid.sound anchored]
  by_cases arc : w.space.InArc seq count x
  · simp [arc]
  · simp [arc]

end SequenceTracking.Window
