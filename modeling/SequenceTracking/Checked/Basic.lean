import Mathlib.Algebra.Ring.Int.Defs
import Mathlib.Algebra.Ring.Nat

/-!
Arithmetic on machine words that stops where a word is too narrow. Sizes and positions are unsigned words of
64 bits, distances are signed ones. A sum, a difference or a product that is no word stops the computation,
so does a remainder by zero, an assertion that does not hold, an index outside storage and a branch that is
there for broken windows only. A cast never stops: it keeps the low bits.
-/
namespace SequenceTracking

inductive Fault where
  | overflow
  | zeroDivisor
  /-- A byte or a slice outside storage was asked for. -/
  | outOfBounds
  | assertion
  /-- A branch was taken that repairs or gives up a broken window. -/
  | fallback
  /-- A loop went on for longer than it may. -/
  | endless
  deriving DecidableEq, Repr

abbrev Checked (α : Type) := Except Fault α

namespace Checked

variable {α β : Type}

@[simp] theorem ok_bind (a : α) (f : α → Checked β) : (Except.ok a >>= f) = f a := rfl

@[simp] theorem pure_eq_ok (a : α) : (pure a : Checked α) = .ok a := rfl

def fault? : Checked α → Option Fault
  | .ok _ => none
  | .error fault => some fault

def ensure (holds : Prop) [Decidable holds] : Checked Unit :=
  if holds then .ok () else .error .assertion

theorem ensure_ok {holds : Prop} [Decidable holds] (given : holds) : ensure holds = .ok () :=
  if_pos given

/-! ### Unsigned words -/

def wordLimit : Nat := 2 ^ 64

def word (n : Nat) : Checked Nat := if n < wordLimit then .ok n else .error .overflow

def add (a b : Nat) : Checked Nat := word (a + b)

def sum? (a b : Nat) : Option Nat := if a + b < wordLimit then some (a + b) else none

def sumUpTo (a b : Nat) : Nat := min (a + b) (wordLimit - 1)

def mul (a b : Nat) : Checked Nat := word (a * b)

def sub (a b : Nat) : Checked Nat := if b ≤ a then .ok (a - b) else .error .overflow

def rem (a b : Nat) : Checked Nat := if b = 0 then .error .zeroDivisor else .ok (a % b)

/-- A shift loses what does not fit. -/
def shl (n places : Nat) : Nat := (n <<< places) % wordLimit

section

variable {a b : Nat}

theorem add_ok (fits : a + b < wordLimit) : add a b = .ok (a + b) := if_pos fits

theorem mul_ok (fits : a * b < wordLimit) : mul a b = .ok (a * b) := if_pos fits

theorem sub_ok (le : b ≤ a) : sub a b = .ok (a - b) := if_pos le

theorem rem_ok (positive : 0 < b) : rem a b = .ok (a % b) := if_neg (by omega)

theorem shl_three (fits : 8 * a < wordLimit) : shl a 3 = 8 * a := by
  unfold shl
  rw [Nat.shiftLeft_eq, Nat.mul_comm]
  exact Nat.mod_eq_of_lt fits

end

/-! ### Signed words -/

def signLimit : Nat := 2 ^ 63

def signedWord (n : Int) : Checked Int :=
  if -(signLimit : Int) ≤ n ∧ n < signLimit then .ok n else .error .overflow

def addSigned (a b : Int) : Checked Int := signedWord (a + b)

def subSigned (a b : Int) : Checked Int := signedWord (a - b)

def negSigned (a : Int) : Checked Int := signedWord (-a)

/-- The remainder that is never negative; the quotient must be a word too. -/
def remSigned (a b : Int) : Checked Int :=
  if b = 0 then .error .zeroDivisor
  else if b = -1 ∧ a = -(signLimit : Int) then .error .overflow
  else .ok (a % b)

def toSigned (n : Nat) : Int := if n < signLimit then n else n - wordLimit

def toUnsigned (n : Int) : Nat := (n % wordLimit).toNat

section

variable {a b : Int}

theorem signedWord_ok (low : -(signLimit : Int) ≤ a) (high : a < signLimit) :
    signedWord a = .ok a := if_pos ⟨low, high⟩

theorem remSigned_ok (positive : 0 < b) : remSigned a b = .ok (a % b) := by
  unfold remSigned
  rw [if_neg (by omega), if_neg (by omega)]

theorem toSigned_of_lt {n : Nat} (small : n < signLimit) : toSigned n = n := if_pos small

theorem toUnsigned_of_nonneg (nonneg : 0 ≤ a) (small : a < wordLimit) : toUnsigned a = a.toNat := by
  unfold toUnsigned
  rw [Int.emod_eq_of_lt nonneg small]

end

end Checked

end SequenceTracking
