import Mathlib.Data.Int.ModEq
import SequenceTracking.Proofs.Circle
import SequenceTracking.Proofs.Shape

/-!
The bit-wise arithmetic of a space as arithmetic of residues. Words are cut down, masked and compared by their
top bit, and all of it comes to this: advancing adds modulo the size of the space, and the distance is the
residue of the difference that lies nearest to zero. Between opposite numbers there are two such residues, and
the positive one is taken in both directions.
-/
namespace SequenceTracking.Space

variable {s : Space} {a b : UInt32} {d n : Int}

theorem distance_modEq (s : Space) (a b : UInt32) :
    s.distance a b ≡ (a.toNat : Int) - b.toNat [ZMOD s.size] := s.distance_emod a b

theorem distance_eq_iff_modEq :
    s.distance a b = d ↔
      -(s.half : Int) < d ∧ d ≤ s.half ∧ d ≡ (a.toNat : Int) - b.toNat [ZMOD s.size] := by
  constructor
  · rintro rfl
    exact ⟨s.distance_gt a b, s.distance_le a b, s.distance_modEq a b⟩
  · intro given
    obtain ⟨low, high, same⟩ := given
    exact s.distance_unique low high same

theorem distance_translate (s : Space) (a b : UInt32) (n : Int) :
    s.distance (s.advance a n) (s.advance b n) = s.distance a b := by
  apply s.distance_unique (s.distance_gt a b) (s.distance_le a b)
  rw [distance_emod, toNat_advance, toNat_advance, Int.emod_sub_emod, Int.sub_emod_emod, Int.add_sub_add_right]

theorem distance_swap (apart : s.distance a b ≠ s.half) : s.distance b a = -s.distance a b := by
  have above := s.distance_gt a b
  have below := s.distance_le a b
  rw [distance_eq_iff_modEq]
  refine ⟨by omega, by omega, ?_⟩
  have turned := (s.distance_modEq a b).neg
  rwa [Int.neg_sub] at turned

theorem distance_opposite (opposite : s.distance a b = s.half) : s.distance b a = s.half := by
  have positive := s.half_pos
  have total := s.size_eq
  have turned := (s.distance_modEq a b).neg
  rw [opposite, Int.neg_sub] at turned
  rw [distance_eq_iff_modEq]
  refine ⟨by omega, le_refl _, ?_⟩
  calc
    (s.half : Int) ≡ s.half - s.size [ZMOD s.size] := (Int.sub_emod_right _ _).symm
    _ = -s.half := by omega
    _ ≡ (b.toNat : Int) - a.toNat [ZMOD s.size] := turned

/-- The arithmetic of a space is that of the residues modulo `m`. -/
structure Modular (s : Space) (m : Int) : Prop where
  half_eq : (s.half : Int) = m / 2
  advance_eq : ∀ a n, ((s.advance a n).toNat : Int) = ((a.toNat : Int) + n) % m
  distance_eq_iff : ∀ a b d, s.distance a b = d ↔
    -(m / 2) < d ∧ d ≤ m / 2 ∧ d ≡ (a.toNat : Int) - b.toNat [ZMOD m]
  advance_distance : ∀ a b, ((s.advance b (s.distance a b)).toNat : Int) = (a.toNat : Int) % m
  distance_advance : ∀ b n, -(m / 2) < n → n ≤ m / 2 → s.distance (s.advance b n) b = n
  translate : ∀ a b n, s.distance (s.advance a n) (s.advance b n) = s.distance a b
  swap : ∀ a b, s.distance a b ≠ m / 2 → s.distance b a = -s.distance a b
  opposite : ∀ a b, s.distance a b = m / 2 → s.distance b a = m / 2

/-- The arithmetic over every usable mask is that of the residues modulo the mask plus one, for all words as
    they come and for steps of any size in both directions. -/
theorem arithmetic_modular {mask : UInt32} (usable : ofMask mask = .ok s) :
    s.Modular ((mask.toNat : Int) + 1) := by
  have size_eq : (mask.toNat : Int) + 1 = s.size := by
    rw [← mask_of_ofMask usable]
    rfl
  have half_eq : (s.size : Int) / 2 = s.half := by
    have total := s.size_eq
    omega
  rw [size_eq]
  refine ⟨half_eq.symm, s.toNat_advance, ?_, ?_, ?_, s.distance_translate, ?_, ?_⟩
  · intro a b d
    rw [half_eq]
    exact distance_eq_iff_modEq
  · intro a b
    rw [s.advance_distance, toNat_reduce, Int.natCast_emod]
  · intro b n
    rw [half_eq]
    exact s.distance_advance b
  · intro a b
    rw [half_eq]
    exact distance_swap
  · intro a b
    rw [half_eq]
    exact distance_opposite

theorem arithmetic_modular_of_extremes :
    let whole : Space := ⟨mask32, by decide, by decide⟩
    let pair : Space := ⟨1, by decide, by decide⟩
    whole.Modular 0x100000000 ∧ (whole.advance 5 (-0x7FFFFFFFFFFFFFFE)).toNat = 7 ∧
      whole.distance 0x80000000 0 = 0x80000000 ∧ whole.distance 0 0x80000000 = 0x80000000 ∧
      pair.Modular 2 ∧ pair.distance 0 3 = 1 ∧ pair.distance 3 0 = 1 := by
  -- the size of the first space is no word itself; the two numbers of the second are opposite
  intro whole pair
  have whole_usable : ofMask mask32 = .ok whole := rfl
  have pair_usable : ofMask 1 = .ok pair := rfl
  have large : whole.Modular 0x100000000 := arithmetic_modular whole_usable
  have small : pair.Modular 2 := arithmetic_modular pair_usable
  have far := (large.distance_eq_iff 0x80000000 0 0x80000000).mpr (by decide)
  have apart := (small.distance_eq_iff 0 3 1).mpr (by decide)
  exact ⟨large, Int.ofNat_inj.mp (large.advance_eq 5 _), far, large.opposite _ _ far, small, apart,
    small.opposite _ _ apart⟩

end SequenceTracking.Space
