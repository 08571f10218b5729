import SequenceTracking.Proofs.Window.Anchored
import SequenceTracking.Proofs.Window.Marking

/-!
When a run fits beside the marks of a window: an arc as long as the capacity must hold all of them. The
test on the merged span decides exactly this, although it looks at one signed distance from one end.
-/
namespace SequenceTracking.Window

variable {w : Window} {p : Placement} {extent : Nat}

def Within (w : Window) (first : UInt32) : Prop :=
  ∀ x, w.contains x = true → w.space.InArc first w.capacity x

/-- Some arc of the capacity's length holds every mark and every number that satisfies `others`. -/
def Admits (w : Window) (others : UInt32 → Prop) : Prop :=
  ∃ first, w.Within first ∧ ∀ x, others x → w.space.InArc first w.capacity x

def Fits (w : Window) (seq : UInt32) (count : Nat) : Prop := w.Admits (w.space.InArc seq count)

theorem Anchored.within (anchored : w.Anchored p extent) (sound : w.Sound) : w.Within p.lowest := by
  intro x marked
  have extent_lt := anchored.extent_lt
  obtain ⟨k, near, same⟩ := anchored.exists_offset sound marked
  exact ⟨k, by omega, same⟩

theorem within_of_unplaced (unplaced : w.placement? = none) (first : UInt32) : w.Within first := by
  intro x marked
  simp [contains_of_unplaced unplaced] at marked

theorem Valid.within (valid : w.Valid) : ∃ first, w.Within first := by
  cases placed : w.placement? with
  | none => exact ⟨0, within_of_unplaced placed 0⟩
  | some p => exact ⟨p.lowest, (valid.anchored placed).within valid.sound⟩

theorem admits_iff_coverable (others : UInt32 → Prop) :
    w.Admits others ↔ w.space.Coverable w.capacity fun x => w.contains x = true ∨ others x := by
  constructor
  · intro given
    obtain ⟨first, within, held⟩ := given
    refine ⟨first, ?_⟩
    intro x given
    rcases given with marked | listed
    · exact within x marked
    · exact held x listed
  · intro given
    obtain ⟨first, held⟩ := given
    exact ⟨first, fun x marked => held x (.inl marked), fun x listed => held x (.inr listed)⟩

theorem fits_zero (valid : w.Valid) (seq : UInt32) : w.Fits seq 0 := by
  obtain ⟨first, within⟩ := valid.within
  refine ⟨first, within, ?_⟩
  intro x given
  obtain ⟨k, none_at_all, _⟩ := given
  omega

theorem Valid.none_behind (valid : w.Valid) (placed : w.placement? = some p) {x : UInt32}
    (marked : w.contains x = true) : 0 ≤ w.space.distance x p.lowest := by
  have inside := (valid.anchored placed).within valid.sound x marked
  exact ((w.space.inArc_iff_distance valid.capacity_le).mp inside).1

/-- A run that fits is no longer than the capacity: of more numbers than that, the first and the one
    past the capacity cannot lie in one arc. -/
theorem Fits.count_le (sound : w.Sound) {seq : UInt32} {count : Nat} (fits : w.Fits seq count) :
    count ≤ w.capacity := by
  have short := sound.capacity_le
  obtain ⟨first, _, run⟩ := fits
  apply Nat.le_of_not_lt
  intro long
  obtain ⟨i, i_lt, at_i⟩ := run _ (w.space.inArc_advance seq (k := 0) (by omega))
  obtain ⟨j, j_lt, at_j⟩ := run _ (w.space.inArc_advance seq (k := w.capacity) long)
  rw [Int.natCast_zero, Space.advance_zero, Space.reduce_reduce] at at_i
  have := w.space.offset_of_advance short i_lt j_lt short at_i at_j
  omega

theorem fits_iff_of_unplaced (sound : w.Sound) (unplaced : w.placement? = none) (seq : UInt32)
    (count : Nat) : w.Fits seq count ↔ count ≤ w.capacity := by
  constructor
  · exact fun fits => fits.count_le sound
  · intro short
    refine ⟨seq, within_of_unplaced unplaced seq, ?_⟩
    intro x given
    obtain ⟨k, inside, same⟩ := given
    exact ⟨k, by omega, same⟩

/-- The merged span is the least arc that holds both the marks and the run. -/
theorem fits_iff_mergedSpan (anchored : w.Anchored p extent) (sound : w.Sound) {seq : UInt32}
    {count : Nat} (some_bit : 0 < count) {lo : Int} (lo_eq : w.space.distance seq p.lowest = lo) :
    w.Fits seq count ↔ mergedSpan extent lo (lo + count - 1) ≤ w.capacity := by
  have short := sound.capacity_le
  have extent_lt := anchored.extent_lt
  unfold mergedSpan
  constructor
  · intro fits
    have count_le := fits.count_le sound
    obtain ⟨first, within, run⟩ := fits
    obtain ⟨i, i_lt, at_i⟩ := within _ (anchored.contains_first sound)
    obtain ⟨j, j_lt, at_j⟩ := within _ (anchored.contains_last sound)
    obtain ⟨k, k_lt, at_k⟩ := run _ (w.space.inArc_advance seq (k := 0) some_bit)
    obtain ⟨m, m_lt, at_m⟩ := run _ (w.space.inArc_advance seq (k := count - 1) (by omega))
    rw [Int.natCast_zero, Space.advance_zero, Space.reduce_reduce] at at_i at_k
    have last := w.space.offset_of_advance short i_lt j_lt (by omega) at_i at_j
    have run_last := w.space.offset_of_advance short k_lt m_lt (by omega) at_k at_m
    have apart := w.space.distance_of_offsets short k_lt i_lt at_k at_i
    omega
  · intro narrow
    refine ⟨w.space.advance p.lowest (min lo 0), ?_, ?_⟩
    · intro x marked
      obtain ⟨k, near, same⟩ := anchored.exists_offset sound marked
      refine ⟨(k - min lo 0).toNat, by omega, ?_⟩
      rw [same, Space.advance_advance]
      congr 1
      omega
    · intro x given
      obtain ⟨k, k_lt, same⟩ := given
      refine ⟨(lo + k - min lo 0).toNat, by omega, ?_⟩
      rw [same, ← w.space.advance_reduce seq, ← w.space.advance_distance seq p.lowest, lo_eq,
        Space.advance_advance, Space.advance_advance]
      congr 1
      omega

end SequenceTracking.Window
