import SequenceTracking.Hex

/-!
Why a request is turned down. Asking about a number that is not tracked is no failure: queries answer
"not marked" and erasing does nothing. Only bad shapes, storage that cannot be had, operands from
another sequence space and spans beyond the capacity are reported.
-/
namespace SequenceTracking

inductive ShapeError where
  | maskNotContiguous (mask : UInt32)
  | zeroCapacity
  | capacityAboveHalf (capacity half : Nat)
  deriving DecidableEq, Repr

def ShapeError.message : ShapeError → String
  | .maskNotContiguous mask => s!"modulus mask {hex mask.toNat} is not of the form 2^k - 1"
  | .zeroCapacity => "capacity must be non-zero"
  | .capacityAboveHalf capacity half =>
    s!"capacity {capacity} exceeds half the sequence space ({half})"

inductive Failure where
  /-- Storage of this many bytes was not granted. -/
  | storage (bytes : Nat)
  | shape (cause : ShapeError)
  /-- The result would take `needed` bits where only `capacity` are there. -/
  | span (needed capacity : Nat)
  /-- The operand lives in the space of mask `found`, the receiver in that of mask `expected`. -/
  | space (expected found : UInt32)
  deriving DecidableEq, Repr

def Failure.message : Failure → String
  | .storage bytes => s!"failed to allocate {bytes} bytes of bit storage"
  | .shape cause => s!"invalid configuration: {cause.message}"
  | .span needed capacity => s!"span of {needed} bits exceeds capacity {capacity}"
  | .space expected found =>
    s!"modulus mask {hex found.toNat} does not match {hex expected.toNat}"

end SequenceTracking
