import SequenceTracking.Failure

/-!
A wrapping space of sequence numbers `0 .. mask`, where `mask = 2^k - 1`. Numbers are words; arguments
need not be reduced, results always are. The signed distance between two numbers is the one place
where order is decided: it lies in `(-half, half]`, so a number exactly half the space away counts as
ahead.
-/
namespace SequenceTracking

/-- A space of sequence numbers, given by its greatest number. -/
structure Space where
  mask : UInt32
  nonzero : mask ≠ 0
  contiguous : mask &&& (mask + 1) = 0
  deriving DecidableEq, Repr

namespace Space

def mask16 : UInt32 := 0xFFFF

def mask32 : UInt32 := 0xFFFFFFFF

def ofMask (mask : UInt32) : Except ShapeError Space :=
  if usable : mask ≠ 0 ∧ mask &&& (mask + 1) = 0 then .ok ⟨mask, usable.1, usable.2⟩
  else .error (.maskNotContiguous mask)

/-- The top bit of the space: a raw difference with this bit set lies behind. -/
def signBit (s : Space) : UInt32 := s.mask ^^^ (s.mask >>> 1)

def half (s : Space) : Nat := s.signBit.toNat

def reduce (s : Space) (seq : UInt32) : UInt32 := seq &&& s.mask

/-- The number `n` places ahead of `seq`, or behind it for a negative `n`. The size of the space
    divides the size of a word, so `n` may be cut down to a word first. -/
def advance (s : Space) (seq : UInt32) (n : Int) : UInt32 := s.reduce (seq + UInt32.ofInt n)

/-- How far `a` lies ahead of `b`; negative when it lies behind. -/
def distance (s : Space) (a b : UInt32) : Int :=
  let raw := s.reduce (a - b)
  if raw &&& s.signBit ≠ 0 ∧ raw ≠ s.signBit then raw.toNat - (s.mask.toNat + 1) else raw.toNat

end Space

end SequenceTracking
