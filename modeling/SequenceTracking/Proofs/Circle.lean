import SequenceTracking.Byte.Lemmas
import SequenceTracking.Space

/-!
A space of sequence numbers as a circle of `size` points. Advancing is addition modulo the size, and the
distance is the one representative of the difference in `(-half, half]`. Everything that windows need
from the bit-wise arithmetic is stated here once, over the integers.
-/
namespace SequenceTracking.Space

def size (s : Space) : Nat := s.mask.toNat + 1

theorem size_eq_two_pow (s : Space) : ∃ k < 32, s.size = 2 ^ (k + 1) := by
  have positive : s.mask.toNat ≠ 0 := by
    intro zero
    exact s.nonzero (UInt32.toNat_inj.mp zero)
  have below := s.mask.toNat_lt
  by_cases full : s.size = 2 ^ 32
  · exact ⟨31, by omega, full⟩
  · have next : (s.mask + 1).toNat = s.size := by
      rw [UInt32.toNat_add]
      exact Nat.mod_eq_of_lt (by simp only [size] at full ⊢; simp; omega)
    have clear : s.size &&& (s.size - 1) = 0 := by
      have both := congrArg UInt32.toNat s.contiguous
      rw [UInt32.toNat_and, next] at both
      rw [Nat.and_comm]
      simpa [size] using both
    obtain ⟨n, power⟩ := (Nat.and_sub_one_eq_zero_iff_isPowerOfTwo (by simp [size])).mp clear
    cases n with
    | zero => simp only [size] at power; omega
    | succ k =>
      refine ⟨k, ?_, power⟩
      have room : 2 ^ (k + 1) < 2 ^ 32 := by rw [← power]; simp only [size] at full ⊢; omega
      have := (Nat.pow_lt_pow_iff_right (by decide : 1 < 2)).mp room
      omega

theorem half_eq_two_pow (s : Space) {k : Nat} (power : s.size = 2 ^ (k + 1)) : s.half = 2 ^ k := by
  have mask_eq : s.mask.toNat = 2 ^ (k + 1) - 1 := by simp only [size] at power; omega
  have shifted : (s.mask >>> 1).toNat = 2 ^ k - 1 := by
    rw [UInt32.toNat_shiftRight, mask_eq, Nat.shiftRight_eq_div_pow]
    simp; omega
  unfold half
  unfold signBit
  rw [UInt32.toNat_xor, mask_eq, shifted]
  apply Nat.eq_of_testBit_eq
  intro i
  simp only [Nat.testBit_xor, Nat.testBit_two_pow_sub_one, Nat.testBit_two_pow]
  by_cases here : k = i <;> by_cases lower : i < k <;> simp [here, lower] <;> omega

theorem size_eq (s : Space) : s.size = 2 * s.half := by
  obtain ⟨k, _, power⟩ := s.size_eq_two_pow
  rw [s.half_eq_two_pow power, power]
  omega

theorem half_pos (s : Space) : 0 < s.half := by
  obtain ⟨k, _, power⟩ := s.size_eq_two_pow
  rw [s.half_eq_two_pow power]
  exact Nat.two_pow_pos k

theorem size_dvd (s : Space) : s.size ∣ 2 ^ 32 := by
  obtain ⟨k, small, power⟩ := s.size_eq_two_pow
  rw [power]
  exact Nat.pow_dvd_pow 2 small

theorem toNat_reduce (s : Space) (a : UInt32) : (s.reduce a).toNat = a.toNat % s.size := by
  obtain ⟨k, _, power⟩ := s.size_eq_two_pow
  have mask_eq : s.mask.toNat = 2 ^ (k + 1) - 1 := by simp only [size] at power; omega
  unfold reduce
  rw [UInt32.toNat_and, mask_eq, Nat.and_two_pow_sub_one_eq_mod, power]

theorem toNat_sub_emod (s : Space) (a b : UInt32) :
    (((a - b).toNat % s.size : Nat) : Int) = ((a.toNat : Int) - b.toNat) % s.size := by
  have word : ((a - b).toNat : Int) = ((a.toNat : Int) - b.toNat) % (2 ^ 32 : Nat) := by
    have := a.toNat_lt
    have := b.toNat_lt
    rw [UInt32.toNat_sub]
    simp; omega
  rw [Int.natCast_emod, word]
  exact Int.emod_emod_of_dvd _ (Int.natCast_dvd_natCast.mpr s.size_dvd)

theorem toNat_advance (s : Space) (a : UInt32) (n : Int) :
    ((s.advance a n).toNat : Int) = ((a.toNat : Int) + n) % s.size := by
  have word : ((a + UInt32.ofInt n).toNat : Int) = ((a.toNat : Int) + n) % (2 ^ 32 : Nat) := by
    rw [UInt32.toNat_add]
    simp [UInt32.ofInt]; omega
  unfold advance
  rw [toNat_reduce, Int.natCast_emod, word]
  exact Int.emod_emod_of_dvd _ (Int.natCast_dvd_natCast.mpr s.size_dvd)

theorem toNat_advance_natCast (s : Space) (a : UInt32) (k : Nat) :
    (s.advance a k).toNat = (a.toNat + k) % s.size := by
  apply Int.ofNat_inj.mp
  rw [toNat_advance, Int.natCast_emod, Int.natCast_add]

theorem reduce_add_ofNat (s : Space) (a : UInt32) (k : Nat) :
    s.reduce (a + UInt32.ofNat k) = s.advance a k := by
  rw [← UInt32.toNat_inj, toNat_reduce, toNat_advance_natCast, UInt32.toNat_add, UInt32.toNat_ofNat',
    Nat.add_mod_mod, Nat.mod_mod_of_dvd _ s.size_dvd]

theorem distance_eq (s : Space) (a b : UInt32) :
    s.distance a b =
      if (s.half : Int) < ((a.toNat : Int) - b.toNat) % s.size
      then ((a.toNat : Int) - b.toNat) % s.size - s.size
      else ((a.toNat : Int) - b.toNat) % s.size := by
  obtain ⟨k, _, power⟩ := s.size_eq_two_pow
  have half_eq := s.half_eq_two_pow power
  have raw_eq : ((s.reduce (a - b)).toNat : Int) = ((a.toNat : Int) - b.toNat) % s.size := by
    rw [toNat_reduce, toNat_sub_emod]
  have below : (s.reduce (a - b)).toNat < 2 ^ (k + 1) := by
    rw [toNat_reduce, ← power]
    exact Nat.mod_lt _ (by simp [size])
  have sign : s.reduce (a - b) &&& s.signBit = 0 ↔ ¬ s.half ≤ (s.reduce (a - b)).toNat := by
    rw [← UInt32.toNat_inj, UInt32.toNat_and, show s.signBit.toNat = 2 ^ k from half_eq,
      show ((0 : UInt32).toNat) = 0 from rfl, Byte.and_two_pow_eq_zero_iff, half_eq]
    constructor
    · intro clear upper
      have top := Nat.testBit_of_two_pow_le_and_two_pow_add_one_gt upper below
      simp [clear] at top
    · intro lower
      exact Nat.testBit_lt_two_pow (Nat.lt_of_not_le lower)
  have apart : s.reduce (a - b) = s.signBit ↔ (s.reduce (a - b)).toNat = s.half := by
    rw [← UInt32.toNat_inj, half]
  unfold distance
  rw [← raw_eq]
  by_cases behind : s.half < (s.reduce (a - b)).toNat
  · have flagged : s.reduce (a - b) &&& s.signBit ≠ 0 ∧ s.reduce (a - b) ≠ s.signBit := by
      rw [Ne, sign, Ne, apart]
      omega
    rw [if_pos flagged, if_pos (by omega)]
    rfl
  · have plain : ¬ (s.reduce (a - b) &&& s.signBit ≠ 0 ∧ s.reduce (a - b) ≠ s.signBit) := by
      rw [Ne, sign, Ne, apart]
      omega
    rw [if_neg plain, if_neg (by omega)]

theorem distance_gt (s : Space) (a b : UInt32) : -(s.half : Int) < s.distance a b := by
  have total := s.size_eq
  have positive := s.half_pos
  have := Int.emod_nonneg ((a.toNat : Int) - b.toNat) (b := s.size) (by omega)
  rw [distance_eq]
  split <;> omega

theorem distance_le (s : Space) (a b : UInt32) : s.distance a b ≤ s.half := by
  have total := s.size_eq
  have positive := s.half_pos
  have := Int.emod_lt_of_pos ((a.toNat : Int) - b.toNat) (b := s.size) (by omega)
  rw [distance_eq]
  split <;> omega

theorem distance_emod (s : Space) (a b : UInt32) :
    s.distance a b % s.size = ((a.toNat : Int) - b.toNat) % s.size := by
  rw [distance_eq]
  split <;> simp

theorem eq_of_emod_eq (s : Space) {m n : Int} (above : m - n < s.size) (below : n - m < s.size)
    (same : m % s.size = n % s.size) : m = n := by
  have turns : (s.size : Int) ∣ m - n :=
    Int.dvd_of_emod_eq_zero (Int.emod_eq_emod_iff_emod_sub_eq_zero.mp same)
  have := Int.eq_zero_of_dvd_of_natAbs_lt_natAbs turns (by omega)
  omega

theorem distance_unique (s : Space) {a b : UInt32} {d : Int} (low : -(s.half : Int) < d)
    (high : d ≤ s.half) (same : d % s.size = ((a.toNat : Int) - b.toNat) % s.size) :
    s.distance a b = d := by
  have total := s.size_eq
  have := s.distance_gt a b
  have := s.distance_le a b
  exact s.eq_of_emod_eq (by omega) (by omega) ((s.distance_emod a b).trans same.symm)

theorem eq_of_toNat_eq {a b : UInt32} (same : (a.toNat : Int) = b.toNat) : a = b :=
  UInt32.toNat_inj.mp (Int.natCast_inj.mp same)

theorem advance_reduce (s : Space) (a : UInt32) (n : Int) :
    s.advance (s.reduce a) n = s.advance a n := by
  apply eq_of_toNat_eq
  rw [toNat_advance, toNat_advance, toNat_reduce, Int.natCast_emod, Int.emod_add_emod]

theorem advance_zero (s : Space) (a : UInt32) : s.advance a 0 = s.reduce a := by
  apply eq_of_toNat_eq
  rw [toNat_advance, toNat_reduce, Int.natCast_emod, Int.add_zero]

theorem reduce_of_le (s : Space) {a : UInt32} (reduced : a ≤ s.mask) : s.reduce a = a := by
  rw [← UInt32.toNat_inj, toNat_reduce]
  exact Nat.mod_eq_of_lt (Nat.lt_succ_of_le (UInt32.le_iff_toNat_le.mp reduced))

theorem reduce_le (s : Space) (a : UInt32) : s.reduce a ≤ s.mask := by
  rw [UInt32.le_iff_toNat_le, toNat_reduce]
  exact Nat.le_of_lt_succ (Nat.mod_lt _ (Nat.succ_pos _))

theorem reduce_reduce (s : Space) (a : UInt32) : s.reduce (s.reduce a) = s.reduce a :=
  s.reduce_of_le (s.reduce_le a)

theorem reduce_eq_self_iff (s : Space) {a : UInt32} : s.reduce a = a ↔ a ≤ s.mask := by
  constructor
  · intro same
    rw [← same]
    exact s.reduce_le a
  · exact s.reduce_of_le

theorem advance_le (s : Space) (a : UInt32) (n : Int) : s.advance a n ≤ s.mask := s.reduce_le _

theorem reduce_advance (s : Space) (a : UInt32) (n : Int) :
    s.reduce (s.advance a n) = s.advance a n := s.reduce_of_le (s.advance_le a n)

theorem advance_advance (s : Space) (a : UInt32) (m n : Int) :
    s.advance (s.advance a m) n = s.advance a (m + n) := by
  apply eq_of_toNat_eq
  rw [toNat_advance, toNat_advance, toNat_advance, Int.emod_add_emod, Int.add_assoc]

theorem advance_distance (s : Space) (a b : UInt32) :
    s.advance b (s.distance a b) = s.reduce a := by
  apply eq_of_toNat_eq
  rw [toNat_advance, toNat_reduce, Int.natCast_emod, ← Int.add_emod_emod, distance_emod,
    Int.add_emod_emod]
  congr 1
  omega

theorem advance_toNat_distance (s : Space) {a b : UInt32} (ahead : 0 ≤ s.distance a b) :
    s.advance b ((s.distance a b).toNat : Nat) = s.reduce a := by
  rw [Int.toNat_of_nonneg ahead, advance_distance]

theorem distance_advance_advance (s : Space) (a : UInt32) {m n : Int}
    (low : -(s.half : Int) < m - n) (high : m - n ≤ s.half) :
    s.distance (s.advance a m) (s.advance a n) = m - n := by
  apply s.distance_unique low high
  rw [toNat_advance, toNat_advance, Int.emod_sub_emod, Int.sub_emod_emod]
  congr 1
  omega

theorem distance_reduce_left (s : Space) (a b : UInt32) :
    s.distance (s.reduce a) b = s.distance a b := by
  apply s.distance_unique (s.distance_gt a b) (s.distance_le a b)
  rw [distance_emod, toNat_reduce, Int.natCast_emod, Int.emod_sub_emod]

theorem distance_reduce_right (s : Space) (a b : UInt32) :
    s.distance a (s.reduce b) = s.distance a b := by
  apply s.distance_unique (s.distance_gt a b) (s.distance_le a b)
  rw [distance_emod, toNat_reduce, Int.natCast_emod, Int.sub_emod_emod]

theorem distance_advance (s : Space) (a : UInt32) {n : Int} (low : -(s.half : Int) < n)
    (high : n ≤ s.half) : s.distance (s.advance a n) a = n := by
  have apart := s.distance_advance_advance a (m := n) (n := 0) (by omega) (by omega)
  rwa [advance_zero, distance_reduce_right, Int.sub_zero] at apart

theorem distance_eq_iff (s : Space) {a b : UInt32} {n : Int} (low : -(s.half : Int) < n)
    (high : n ≤ s.half) : s.distance a b = n ↔ s.reduce a = s.advance b n := by
  constructor
  · intro apart
    rw [← apart, advance_distance]
  · intro same
    rw [← distance_reduce_left, same]
    exact s.distance_advance b low high

theorem distance_self (s : Space) (a : UInt32) : s.distance a a = 0 := by
  have positive := s.half_pos
  rw [s.distance_eq_iff (by omega) (by omega), advance_zero]

theorem advance_injOn (s : Space) (a : UInt32) {m n : Int} (above : m - n < s.size)
    (below : n - m < s.size) (same : s.advance a m = s.advance a n) : m = n := by
  apply s.eq_of_emod_eq above below
  have words := congrArg (fun b : UInt32 => (b.toNat : Int)) same
  simp only [toNat_advance] at words
  have shifted := Int.emod_eq_emod_iff_emod_sub_eq_zero.mp words
  apply Int.emod_eq_emod_iff_emod_sub_eq_zero.mpr
  have difference : (a.toNat : Int) + m - (a.toNat + n) = m - n := by omega
  rwa [difference] at shifted

end SequenceTracking.Space
