import Mathlib.Order.Defs.Unbundled
import SequenceTracking.Proofs.Arc
import SequenceTracking.Proofs.Residues

/-!
How far order reaches on a circle. Among consecutive numbers the distance tells the places apart as long as they
are no more than half of the circle, and fails with the first number past that: it lies opposite to the first of
them, and opposite numbers lie ahead of each other. This is where the greatest usable capacity comes from.
-/
namespace SequenceTracking.Space

variable {s : Space} {first a b c : UInt32} {n : Nat}

/-- Among any `n` consecutive numbers, the distance is the difference of the places. -/
def Measures (s : Space) (n : Nat) : Prop :=
  ∀ (first : UInt32) (i j : Nat), i < n → j < n →
    s.distance (s.advance first i) (s.advance first j) = (i : Int) - j

theorem measures_of_le_half (short : n ≤ s.half) : s.Measures n := fun first i j i_lt j_lt =>
  s.distance_advance_advance first (by omega) (by omega)

/-- The first number past half of the circle lies opposite to the first of all, and each is ahead of the other. -/
theorem not_measures_of_half_lt (long : s.half < n) : ¬ s.Measures n := by
  intro measures
  have positive := s.half_pos
  have forth := measures 0 s.half 0 long (by omega)
  have back := measures 0 0 s.half (by omega) long
  have opposite := distance_opposite (by omega : s.distance (s.advance 0 s.half) (s.advance 0 (0 : Nat)) = s.half)
  omega

theorem measures_iff : s.Measures n ↔ n ≤ s.half := by
  constructor
  · intro measures
    apply Nat.le_of_not_lt
    intro long
    exact not_measures_of_half_lt long measures
  · exact measures_of_le_half

/-! ### Order on an arc -/

def Arc (s : Space) (first : UInt32) (n : Nat) : Type := { a : UInt32 // a ≤ s.mask ∧ s.InArc first n a }

/-- On the arc the distance is antisymmetric and additive, and its sign is a strict total order, that of the
    places. -/
structure OrdersArc (s : Space) (first : UInt32) (n : Nat) : Prop where
  swap : ∀ a b, s.InArc first n a → s.InArc first n b → s.distance b a = -s.distance a b
  add : ∀ a b c, s.InArc first n a → s.InArc first n b → s.InArc first n c →
    s.distance a b + s.distance b c = s.distance a c
  behind_iff : ∀ i j : Nat, i < n → j < n →
    (s.distance (s.advance first i) (s.advance first j) < 0 ↔ i < j)
  strict_total : IsStrictTotalOrder (s.Arc first n) fun a b => s.distance a.val b.val < 0

theorem distance_swap_of_arc (short : n ≤ s.half) (a_in : s.InArc first n a) (b_in : s.InArc first n b) :
    s.distance b a = -s.distance a b := by
  obtain ⟨i, i_lt, at_i⟩ := a_in
  obtain ⟨j, j_lt, at_j⟩ := b_in
  rw [s.distance_of_offsets short i_lt j_lt at_i at_j, s.distance_of_offsets short j_lt i_lt at_j at_i]
  omega

theorem distance_add_of_arc (short : n ≤ s.half) (a_in : s.InArc first n a) (b_in : s.InArc first n b)
    (c_in : s.InArc first n c) : s.distance a b + s.distance b c = s.distance a c := by
  obtain ⟨i, i_lt, at_i⟩ := a_in
  obtain ⟨j, j_lt, at_j⟩ := b_in
  obtain ⟨k, k_lt, at_k⟩ := c_in
  rw [s.distance_of_offsets short i_lt j_lt at_i at_j, s.distance_of_offsets short j_lt k_lt at_j at_k,
    s.distance_of_offsets short i_lt k_lt at_i at_k]
  omega

theorem eq_of_distance_eq_zero (a_le : a ≤ s.mask) (b_le : b ≤ s.mask) (here : s.distance a b = 0) : a = b := by
  have positive := s.half_pos
  rw [s.distance_eq_iff (by omega) (by omega), advance_zero, s.reduce_of_le a_le, s.reduce_of_le b_le] at here
  exact here

theorem strict_total_of_arc (short : n ≤ s.half) :
    IsStrictTotalOrder (s.Arc first n) fun a b => s.distance a.val b.val < 0 where
  irrefl a := by
    rw [distance_self]
    omega
  trans a b c a_before b_before := by
    have sum := distance_add_of_arc short a.property.2 b.property.2 c.property.2
    omega
  trichotomous a b not_before not_after := by
    have turned := distance_swap_of_arc short a.property.2 b.property.2
    exact Subtype.ext (eq_of_distance_eq_zero a.property.1 b.property.1 (by omega))

theorem ordersArc_of_le_half (short : n ≤ s.half) (first : UInt32) : s.OrdersArc first n where
  swap _ _ := distance_swap_of_arc short
  add _ _ _ := distance_add_of_arc short
  behind_iff i j i_lt j_lt := by
    rw [measures_of_le_half short first i j i_lt j_lt]
    omega
  strict_total := strict_total_of_arc short

theorem usable_iff_measures (capacity : Nat) :
    (Shape.mk capacity s.mask).space = .ok s ↔ 0 < capacity ∧ s.Measures capacity := by
  rw [measures_iff]
  constructor
  · intro usable
    exact (Shape.space_spec usable).2
  · intro given
    exact Shape.space_eq_ok rfl given.1 given.2

/-- Half of the circle is as far as order reaches: the distance measures places among `n` consecutive numbers
    exactly if they are no more than that, and then it orders every arc of them. The usable capacities are the
    ones it measures, so that none of them could be greater. -/
theorem half_exact (s : Space) :
    (∀ n, s.Measures n ↔ n ≤ s.half) ∧ (∀ first n, n ≤ s.half → s.OrdersArc first n) ∧
      (∀ capacity, (Shape.mk capacity s.mask).space = .ok s ↔ 0 < capacity ∧ s.Measures capacity) ∧
      (Shape.mk (s.half + 1) s.mask).space = .error (.capacityAboveHalf (s.half + 1) s.half) := by
  refine ⟨fun n => measures_iff, fun first n short => ordersArc_of_le_half short first,
    usable_iff_measures, ?_⟩
  unfold Shape.space
  rw [ofMask_mask]
  simp only
  rw [if_neg (by omega), if_pos (by omega)]

theorem half_exact_of_wrapped :
    let s : Space := ⟨15, by decide, by decide⟩
    s.Measures 8 ∧ ¬ s.Measures 9 ∧ s.OrdersArc 12 8 ∧ s.distance 1 14 = 3 ∧ s.distance 14 1 = -3 ∧
      (Shape.mk 8 15).space = .ok s ∧ (Shape.mk 9 15).space = .error (.capacityAboveHalf 9 8) := by
  -- eight of sixteen numbers, past zero; a ninth would lie opposite to the first
  intro s
  obtain ⟨measured_iff, orders, usable_iff, refused⟩ := half_exact s
  have reach : s.half = 8 := by decide
  have measured : s.Measures 8 := (measured_iff 8).mpr (by omega)
  have ordered : s.OrdersArc 12 8 := orders 12 8 (by omega)
  have at_one : s.advance 12 (5 : Nat) = 1 := by decide
  have at_fourteen : s.advance 12 (2 : Nat) = 14 := by decide
  have apart : s.distance 1 14 = 3 := by
    rw [← at_one, ← at_fourteen]
    exact measured 12 5 2 (by decide) (by decide)
  have turned := ordered.swap 1 14 ⟨5, by decide, by decide⟩ ⟨2, by decide, by decide⟩
  have usable := (usable_iff 8).mpr ⟨by decide, measured⟩
  refine ⟨measured, fun more => ?_, ordered, apart, by rw [turned, apart], usable, ?_⟩
  · have := (measured_iff 9).mp more
    omega
  · rwa [reach] at refused

end SequenceTracking.Space
