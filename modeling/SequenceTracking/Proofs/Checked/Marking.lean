import SequenceTracking.Checked.Machine
import SequenceTracking.Proofs.Checked.Window
import SequenceTracking.Proofs.Window.Edits

/-!
Marking and clearing in a valid window never stop, whatever number and count they are given. A count is cut
to the capacity or refused before it is added to anything, a slide is shorter than the capacity, and after a
boundary is cleared the scan for the next one succeeds because the opposite boundary is still set.
-/
namespace SequenceTracking.Checked

variable {w : Window} {p q : Placement}

/-! ### Marking -/

def slidBack (w : Window) (p : Placement) (seq : UInt32) (newLo : Int) : Placement :=
  if newLo < 0 then { p with start := ((p.start + newLo) % (w.capacity : Int)).toNat, lowest := seq }
  else p

theorem slidBack_start_lt (start_lt : p.start < w.capacity) (seq : UInt32) (newLo : Int) :
    (slidBack w p seq newLo).start < w.capacity := by
  unfold slidBack
  split
  · have inside := Int.emod_lt_of_pos (p.start + newLo) (b := (w.capacity : Int)) (by omega)
    simp only
    omega
  · exact start_lt

theorem slide_eq (w : Window) (p : Placement) (seq : UInt32) (lo hi : Int) :
    w.slide p seq lo hi =
      { slidBack w p seq (min lo 0) with
        stop := (slidBack w p seq (min lo 0)).position w.capacity
          (max hi (w.extent p) - min lo 0).toNat } := rfl

theorem slideBack_ok (sound : w.Sound) (start_lt : p.start < w.capacity) (seq : UInt32) {newLo : Int}
    (near : -newLo < w.capacity) :
    slideBack w p seq newLo =
      .ok (slidBack w p seq newLo, if newLo < 0 then [.slidBack (-newLo).toNat seq] else []) := by
  have short := capacity_le sound
  have sign := signLimit_eq
  unfold slideBack
  unfold slidBack
  by_cases behind : newLo < 0
  · have turned := Int.emod_nonneg (p.start + newLo) (b := (w.capacity : Int)) (by omega)
    have inside := Int.emod_lt_of_pos (p.start + newLo) (b := (w.capacity : Int)) (by omega)
    rw [if_pos behind, if_pos behind, if_pos behind, toSigned_of_lt (by omega), toSigned_of_lt (by omega)]
    unfold addSigned
    unfold negSigned
    rw [signedWord_ok (by omega) (by omega), ok_bind, remSigned_ok (by omega), ok_bind,
      signedWord_ok (by omega) (by omega), ok_bind, toUnsigned_eq turned (by omega),
      toUnsigned_eq (by omega) (by omega)]
    rfl
  · rw [if_neg behind, if_neg behind, if_neg behind]
    rfl

theorem anchor_ok (sound : w.Sound) (seq : UInt32) {count : Nat} (some_bit : 0 < count)
    (fits : count ≤ w.capacity) : anchor w seq count = .ok (w.anchor seq count) := by
  unfold anchor
  rw [sub_ok some_bit, ok_bind]
  simp only
  rw [write_ok sound (show (⟨0, count - 1, seq⟩ : Placement).start < w.capacity from sound.capacity_pos)
    sound.capacity_pos (by omega), ok_bind]
  rfl

theorem extend_ok (valid : w.Valid) (placed : w.placement? = some p) (seq : UInt32) {count : Nat}
    (some_bit : 0 < count) (fits : count ≤ w.capacity) :
    extend w p seq count = .ok (w.extend p seq count) := by
  have short := capacity_le valid.sound
  have extent_lt := (valid.anchored placed).extent_lt
  have start_lt := valid.start_lt p placed
  have bounds := distance_bounds w.space seq p.lowest
  have sign := signLimit_eq
  have extent_eq := extent_ok valid.sound start_lt (valid.stop_lt p placed)
  unfold extend
  delta Window.extend
  rw [distance_ok, ok_bind]
  simp only
  generalize w.space.distance seq p.lowest = lo at bounds
  unfold addSigned
  unfold subSigned
  rw [toSigned_of_lt (by omega), signedWord_ok (by omega) (by omega), ok_bind,
    signedWord_ok (by omega) (by omega), ok_bind, admission_ok valid placed (by omega) (by omega), ok_bind]
  cases misfit : w.misfit? p lo (lo + count - 1) with
  | some reason =>
    simp only [admitted, extent_eq, ok_bind]
    rw [add_ok (by unfold wordLimit; omega)]
    rfl
  | none =>
    have room : max (lo + count - 1) (w.extent p : Int) - min lo 0 + 1 ≤ w.capacity := by
      rw [Window.misfit?_eq (valid.anchored placed)] at misfit
      unfold Window.mergedSpan at misfit
      split at misfit
      · cases misfit
      · omega
    have moved_lt := slidBack_start_lt start_lt seq (min lo 0)
    simp only [admitted, extent_eq, ok_bind, toSigned_of_lt (show w.extent p < signLimit by omega)]
    rw [slide_eq, slideBack_ok valid.sound start_lt seq (by omega), ok_bind]
    simp only
    generalize slidBack w p seq (min lo 0) = moved at moved_lt
    rw [signedWord_ok (by omega) (by omega), ok_bind, toUnsigned_eq (by omega) (by omega),
      position_ok valid.sound moved_lt (by omega), ok_bind]
    generalize moved.position w.capacity (max (lo + count - 1) (w.extent p) - min lo 0).toNat = stop
    have q_lt : ({ moved with stop } : Placement).start < w.capacity := moved_lt
    rw [signedWord_ok (by omega) (by omega), ok_bind, toUnsigned_eq (by omega) (by omega),
      write_ok valid.sound q_lt (by omega) (by omega), ok_bind]
    by_cases behind : lo < 0
    · have lower : min lo 0 = lo := by omega
      rw [if_pos behind, if_pos (by omega), lower]
      rfl
    · rw [if_neg behind, if_neg (by omega)]
      rfl

theorem markRun_ok (valid : w.Valid) (seq : UInt32) (count : Nat) :
    markRun w seq count = .ok (w.markRun seq count) := by
  unfold markRun
  unfold Window.markRun
  split
  · rfl
  split
  · rfl
  cases placed : w.placement? with
  | none => exact anchor_ok valid.sound _ (by omega) (by omega)
  | some p => exact extend_ok valid placed _ (by omega) (by omega)

/-! ### Clearing -/

theorem cleared_unoccupied (valid : w.Valid) (placed : w.placement? = some p) {lo hi : Nat}
    (from_first : lo = 0) (to_last : hi = w.extent p) :
    ¬ (w.write p lo (hi - lo + 1) false).isOccupied = true := by
  have anchored := valid.anchored placed
  have left := Window.leaves_all valid anchored (show lo ≤ hi by omega) (by omega) from_first to_last
  intro occupied
  obtain ⟨i, set⟩ := left.valid.bits_valid.isOccupied_iff.mp occupied
  rw [left.valid.unplaced rfl i] at set
  exact Bool.noConfusion set

theorem cut_ok (valid : w.Valid) (placed : w.placement? = some p) {lo hi : Nat} (ordered : lo ≤ hi)
    (within_span : hi ≤ w.extent p) : cut w p lo hi = .ok (w.cut p lo hi) := by
  have anchored := valid.anchored placed
  have short := capacity_le valid.sound
  have extent_lt := anchored.extent_lt
  have start_lt := anchored.start_lt
  have sign := signLimit_eq
  have limit := wordLimit_eq
  have rest_sound := Window.written_sound valid.sound start_lt
    (show lo + (hi - lo + 1) ≤ w.capacity by omega) false w.placement?
  have next_ok := nextPosition?_ok rest_sound
  have prev_ok := prevPosition?_ok rest_sound
  unfold Window.written at next_ok prev_ok
  unfold cut
  unfold Window.cut
  rw [extent_ok valid.sound start_lt (valid.stop_lt p placed), ok_bind, sub_ok ordered, ok_bind,
    add_ok (by omega), ok_bind, write_ok valid.sound start_lt (by omega) (by omega), ok_bind]
  simp only
  by_cases from_first : lo = 0
  · by_cases to_last : hi = w.extent p
    · rw [if_pos ⟨from_first, to_last⟩, if_pos ⟨from_first, to_last⟩,
        ensure_ok (cleared_unoccupied valid placed from_first to_last), ok_bind]
      rfl
    · obtain ⟨j, past, up_to, _, _, left⟩ :=
        Window.nextPosition?_cleared valid anchored ordered within_span w.placement? (by omega)
      unfold Window.written at left
      simp only [if_neg (fun both : lo = 0 ∧ hi = w.extent p => to_last both.2), if_pos from_first]
      rw [add_ok (by omega), ok_bind, position_ok valid.sound start_lt (by omega), ok_bind, next_ok, ok_bind,
        left]
      simp only
      rw [offset_position_ok valid.sound start_lt (show j < w.capacity by omega), ok_bind,
        ensure_ok ⟨past, up_to⟩, ok_bind, seqAt_eq w p (by omega),
        Placement.offset_position start_lt (show j < w.capacity by omega)]
      rfl
  · simp only [if_neg (fun both : lo = 0 ∧ hi = w.extent p => from_first both.1), if_neg from_first]
    by_cases to_last : hi = w.extent p
    · obtain ⟨j, before, _, _, left⟩ :=
        Window.prevPosition?_cleared valid anchored ordered within_span w.placement? (by omega)
      unfold Window.written at left
      simp only [if_pos to_last]
      rw [sub_ok (by omega), ok_bind,
        position_ok valid.sound start_lt (by omega), ok_bind, prev_ok, ok_bind, left]
      simp only
      rw [offset_position_ok valid.sound start_lt (show j < w.capacity by omega), ok_bind,
        ensure_ok before, ok_bind]
      rfl
    · simp only [if_neg to_last]
      rfl

theorem unmarkRun_ok (valid : w.Valid) (seq : UInt32) (count : Nat) :
    unmarkRun w seq count = .ok (w.unmarkRun seq count) := by
  have short := capacity_le valid.sound
  have sign := signLimit_eq
  unfold unmarkRun
  unfold Window.unmarkRun
  cases placed : w.placement? with
  | none => rfl
  | some p =>
    have extent_lt := (valid.anchored placed).extent_lt
    have bounds := distance_bounds w.space seq p.lowest
    simp only [distance_ok, ok_bind,
      extent_ok valid.sound (valid.start_lt p placed) (valid.stop_lt p placed)]
    by_cases none_at_all : count = 0
    · rw [if_pos none_at_all, if_pos (.inl none_at_all)]
      rfl
    generalize w.space.distance seq p.lowest = lo at bounds
    unfold addSigned
    unfold subSigned
    rw [if_neg none_at_all, toSigned_of_lt (by omega), signedWord_ok (by omega) (by omega), ok_bind,
      signedWord_ok (by omega) (by omega), ok_bind, toSigned_of_lt (by omega)]
    by_cases outside : min (lo + (min count w.capacity : Nat) - 1) (w.extent p : Int) < max lo 0
    · rw [if_pos outside, if_pos (.inr outside)]
      rfl
    · rw [if_neg outside, if_neg (not_or.mpr ⟨none_at_all, outside⟩), toUnsigned_eq (by omega) (by omega),
        toUnsigned_eq (by omega) (by omega)]
      exact cut_ok valid placed (by omega) (by omega)

theorem toggle_ok (valid : w.Valid) (seq : UInt32) : toggle w seq = .ok (w.toggle seq) := by
  unfold toggle
  unfold Window.toggle
  rw [contains_ok valid, ok_bind]
  split
  · exact unmarkRun_ok valid seq 1
  · exact markRun_ok valid seq 1

theorem fill_ok (valid : w.Valid) (seq : UInt32) : fill w seq = .ok (w.fill seq) := by
  have positive := valid.capacity_pos
  unfold fill
  rw [fillBits_ok valid.bits_valid (narrow valid.sound), ok_bind, sub_ok (by omega), ok_bind]
  rfl

end SequenceTracking.Checked
