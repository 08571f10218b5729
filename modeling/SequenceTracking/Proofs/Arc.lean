import SequenceTracking.Proofs.Circle

/-!
Arcs of consecutive numbers on the circle. An arc no longer than half of the circle is a range of
distances from its first number, and of two offsets within one arc the difference is the distance.
-/
namespace SequenceTracking.Space

/-- `seq` stands for one of the `n` numbers from `first` on. -/
def InArc (s : Space) (first : UInt32) (n : Nat) (seq : UInt32) : Prop :=
  ∃ k : Nat, k < n ∧ s.reduce seq = s.advance first k

theorem inArc_reduce_first (s : Space) (first : UInt32) (n : Nat) (seq : UInt32) :
    s.InArc (s.reduce first) n seq ↔ s.InArc first n seq := by
  simp only [InArc, advance_reduce]

theorem inArc_advance (s : Space) (first : UInt32) {n k : Nat} (inside : k < n) :
    s.InArc first n (s.advance first k) := ⟨k, inside, s.reduce_advance first k⟩

theorem inArc_first (s : Space) (first : UInt32) {n : Nat} (some_bit : 0 < n) :
    s.InArc first n (s.reduce first) := by
  have here := s.inArc_advance first (k := 0) some_bit
  rwa [Int.natCast_zero, advance_zero] at here

theorem inArc_one (s : Space) (first seq : UInt32) :
    s.InArc first 1 seq ↔ s.reduce seq = s.reduce first := by
  constructor
  · intro given
    obtain ⟨k, inside, same⟩ := given
    obtain rfl : k = 0 := by omega
    rw [same]
    exact s.advance_zero first
  · intro same
    exact ⟨0, Nat.one_pos, same.trans (s.advance_zero first).symm⟩

theorem inArc_iff_distance (s : Space) {first seq : UInt32} {n : Nat} (short : n ≤ s.half) :
    s.InArc first n seq ↔ 0 ≤ s.distance seq first ∧ s.distance seq first < n := by
  have positive := s.half_pos
  constructor
  · intro given
    obtain ⟨k, inside, same⟩ := given
    rw [(s.distance_eq_iff (by omega) (by omega)).mpr same]
    omega
  · intro given
    obtain ⟨ahead, near⟩ := given
    refine ⟨(s.distance seq first).toNat, by omega, ?_⟩
    rw [Int.toNat_of_nonneg ahead, advance_distance]

theorem distance_nonneg_of_inArc (s : Space) {first seq : UInt32} {n : Nat} (short : n ≤ s.half)
    (arc : s.InArc first n seq) : 0 ≤ s.distance seq (s.reduce first) := by
  rw [distance_reduce_right]
  exact ((s.inArc_iff_distance short).mp arc).1

theorem distance_of_offsets (s : Space) {first a b : UInt32} {i j n : Nat} (short : n ≤ s.half)
    (i_lt : i < n) (j_lt : j < n) (at_i : s.reduce a = s.advance first i)
    (at_j : s.reduce b = s.advance first j) : s.distance a b = (i : Int) - j := by
  rw [← distance_reduce_left, ← distance_reduce_right, at_i, at_j]
  exact s.distance_advance_advance first (by omega) (by omega)

theorem offset_of_advance (s : Space) {first a : UInt32} {i j m n : Nat} (short : n ≤ s.half)
    (i_lt : i < n) (j_lt : j < n) (m_le : m ≤ s.half) (at_i : s.reduce a = s.advance first i)
    (at_j : s.reduce (s.advance a m) = s.advance first j) : j = i + m := by
  have positive := s.half_pos
  have apart := s.distance_of_offsets short j_lt i_lt at_j at_i
  rw [s.distance_advance a (by omega) (by omega)] at apart
  omega

/-- Of a number `k` places past `first`, with both arcs at most half of the circle, it can be read off
    the distances from `first` whether it lies in the arc from `seq` on. -/
theorem inArc_iff_offset (s : Space) {first seq a : UInt32} {k n : Nat} (near : k < s.half)
    (short : n ≤ s.half) (at_k : s.reduce a = s.advance first k) :
    s.InArc seq n a ↔ s.distance seq first ≤ k ∧ (k : Int) < s.distance seq first + n := by
  have total := s.size_eq
  have above := s.distance_gt seq first
  have below := s.distance_le seq first
  have place : ∀ j : Nat, s.advance seq j = s.advance first (s.distance seq first + j) := by
    intro j
    rw [← advance_reduce, ← s.advance_distance seq first, advance_advance]
  constructor
  · intro given
    obtain ⟨j, j_lt, same⟩ := given
    rw [at_k, place] at same
    have := s.advance_injOn first (by omega) (by omega) same
    omega
  · intro given
    obtain ⟨low, high⟩ := given
    refine ⟨(k - s.distance seq first).toNat, by omega, ?_⟩
    rw [at_k, place]
    congr 1
    omega

/-- Some arc of `n` numbers holds everything that satisfies `marks`. -/
def Coverable (s : Space) (n : Nat) (marks : UInt32 → Prop) : Prop :=
  ∃ first, ∀ x, marks x → s.InArc first n x

theorem Coverable.mono {s : Space} {n : Nat} {marks others : UInt32 → Prop}
    (coverable : s.Coverable n marks) (fewer : ∀ x, others x → marks x) : s.Coverable n others := by
  obtain ⟨first, held⟩ := coverable
  exact ⟨first, fun x given => held x (fewer x given)⟩

end SequenceTracking.Space
