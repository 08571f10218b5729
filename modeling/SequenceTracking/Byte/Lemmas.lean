import Mathlib.Algebra.Ring.Int.Defs
import Mathlib.Algebra.Ring.Nat
import Mathlib.Data.Nat.Bitwise
import SequenceTracking.Byte

/-!
How the byte operations act on the bit at each position, and where the searches end.
-/
namespace SequenceTracking.Byte

open Search

theorem toNat_mask : ∀ {pos : Nat}, pos < 8 → (mask pos).toNat = 2 ^ (7 - pos) := by decide

theorem and_two_pow_eq_zero_iff (x k : Nat) : x &&& 2 ^ k = 0 ↔ x.testBit k = false := by
  rw [Nat.and_two_pow, Nat.mul_eq_zero, Bool.toNat_eq_zero, or_iff_left (Nat.two_pow_pos k).ne']

theorem test_eq_testBit (byte : UInt8) {pos : Nat} (inside : pos < 8) :
    test byte pos = byte.toNat.testBit (7 - pos) := by
  have apart : (byte &&& mask pos) = 0 ↔ byte.toNat &&& 2 ^ (7 - pos) = 0 := by
    rw [← UInt8.toNat_inj, UInt8.toNat_and, toNat_mask inside]; rfl
  rw [and_two_pow_eq_zero_iff] at apart
  cases h : byte.toNat.testBit (7 - pos) <;> simp_all [test]

theorem test_and (a b : UInt8) {pos : Nat} (inside : pos < 8) :
    test (a &&& b) pos = (test a pos && test b pos) := by
  simp [test_eq_testBit _ inside, Nat.testBit_and]

theorem test_or (a b : UInt8) {pos : Nat} (inside : pos < 8) :
    test (a ||| b) pos = (test a pos || test b pos) := by
  simp [test_eq_testBit _ inside, Nat.testBit_or]

theorem test_xor (a b : UInt8) {pos : Nat} (inside : pos < 8) :
    test (a ^^^ b) pos = (test a pos ^^ test b pos) := by
  simp [test_eq_testBit _ inside, Nat.testBit_xor]

theorem test_not (a : UInt8) {pos : Nat} (inside : pos < 8) :
    test (~~~a) pos = !test a pos := by
  have below := a.toNat_lt
  rw [test_eq_testBit _ inside, test_eq_testBit _ inside, UInt8.toNat_not,
    show UInt8.size - 1 - a.toNat = 2 ^ 8 - (a.toNat + 1) by simp [UInt8.size],
    Nat.testBit_two_pow_sub_succ below]
  simp; omega

theorem test_zero {pos : Nat} : test 0 pos = false := by simp [test]

theorem test_runMask : ∀ {pos count : Nat}, pos + count ≤ 8 → ∀ {i : Nat}, i < 8 →
    test (runMask pos count) i = decide (pos ≤ i ∧ i < pos + count) := by
  have table : ∀ pos < 9, ∀ count < 9, pos + count ≤ 8 → ∀ i < 8,
      test (runMask pos count) i = decide (pos ≤ i ∧ i < pos + count) := by decide
  intro pos count fits i inside
  exact table pos (by omega) count (by omega) fits i inside

theorem runMask_one : ∀ {pos : Nat}, pos < 8 → runMask pos 1 = mask pos := by decide

theorem test_put (mask : UInt8) (value : Bool) (byte : UInt8) {pos : Nat} (inside : pos < 8) :
    test (put mask value byte) pos = if test mask pos then value else test byte pos := by
  cases value <;> cases h : test mask pos <;>
    simp [put, test_or _ _ inside, test_and _ _ inside, test_not _ inside, h]

def Bitwise (f : UInt8 → UInt8 → UInt8) (g : Bool → Bool → Bool) : Prop :=
  ∀ x y pos, pos < 8 → test (f x y) pos = g (test x pos) (test y pos)

theorem eq_of_test {a b : UInt8} (same : ∀ pos < 8, test a pos = test b pos) : a = b := by
  rw [← UInt8.toNat_inj]
  apply Nat.eq_of_testBit_eq
  intro i
  by_cases inside : i < 8
  · have h := same (7 - i) (by omega)
    rw [test_eq_testBit _ (by omega), test_eq_testBit _ (by omega)] at h
    rwa [show 7 - (7 - i) = i by omega] at h
  · have high : ∀ c : UInt8, c.toNat.testBit i = false := fun c =>
      Nat.testBit_lt_two_pow (Nat.lt_of_lt_of_le c.toNat_lt
        (Nat.pow_le_pow_right (by decide) (by omega)))
    rw [high, high]

theorem ne_zero_iff (byte : UInt8) : byte ≠ 0 ↔ ∃ pos < 8, test byte pos = true := by
  constructor
  · intro occupied
    apply Classical.byContradiction
    intro none_set
    apply occupied
    apply eq_of_test
    intro pos inside
    rw [test_zero]
    cases hit : test byte pos with
    | false => rfl
    | true => exact absurd ⟨pos, inside, hit⟩ none_set
  · rintro ⟨pos, _, hit⟩ zero
    subst zero
    simp [test_zero] at hit

theorem lowestFrom?_whole (byte : UInt8) :
    lowestFrom? byte 0 = if byte != 0 then some (lowest byte) else none := by
  cases found : lowestFrom? byte 0 with
  | none =>
    have clear : ¬ ∃ pos < 8, test byte pos = true := by
      rintro ⟨pos, inside, hit⟩
      simp [least?_eq_none_iff.mp found pos (Nat.zero_le _) (by simpa [width] using inside)] at hit
    rw [← ne_zero_iff, not_not] at clear
    rw [clear]
    rfl
  | some pos =>
    obtain ⟨_, inside, hit, _⟩ := least?_eq_some_iff.mp found
    have occupied : byte ≠ 0 := (ne_zero_iff byte).mpr ⟨pos, by simpa [width] using inside, hit⟩
    rw [if_pos (bne_iff_ne.mpr occupied), lowest, found, Option.getD_some]

theorem highestUpTo?_whole (byte : UInt8) :
    highestUpTo? byte (width - 1) = if byte != 0 then some (highest byte) else none := by
  cases found : highestUpTo? byte (width - 1) with
  | none =>
    have clear : ¬ ∃ pos < 8, test byte pos = true := by
      rintro ⟨pos, inside, hit⟩
      simp [greatest?_eq_none_iff.mp found pos (Nat.zero_le _) (by simpa [width] using inside)] at hit
    rw [← ne_zero_iff, not_not] at clear
    rw [clear]
    rfl
  | some pos =>
    obtain ⟨_, inside, hit, _⟩ := greatest?_eq_some_iff.mp found
    have occupied : byte ≠ 0 := (ne_zero_iff byte).mpr ⟨pos, by simpa [width] using inside, hit⟩
    rw [if_pos (bne_iff_ne.mpr occupied), highest, found, Option.getD_some]

theorem lowest_lt {byte : UInt8} (occupied : byte ≠ 0) : lowest byte < 8 := by
  have found := lowestFrom?_whole byte
  rw [if_pos (bne_iff_ne.mpr occupied)] at found
  obtain ⟨_, inside, _⟩ := least?_eq_some_iff.mp found
  simpa [width] using inside

theorem highest_lt {byte : UInt8} (occupied : byte ≠ 0) : highest byte < 8 := by
  have found := highestUpTo?_whole byte
  rw [if_pos (bne_iff_ne.mpr occupied)] at found
  obtain ⟨_, inside, _⟩ := greatest?_eq_some_iff.mp found
  simpa [width] using inside

end SequenceTracking.Byte
