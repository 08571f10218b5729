import SequenceTracking.Space

/-!
The shape of a window: how many numbers it spans at most, and the space they come from. A shape is
usable when its capacity is not zero and at most half the space, so that the sign of a distance inside
the window is unambiguous.
-/
namespace SequenceTracking

structure Shape where
  capacity : Nat
  mask : UInt32
  deriving DecidableEq, Repr

namespace Shape

def over16 (capacity : Nat) : Shape := ⟨capacity, Space.mask16⟩

def over32 (capacity : Nat) : Shape := ⟨capacity, Space.mask32⟩

def capacityLimit16 : Nat := (Space.mask16 >>> 1).toNat + 1

def capacityLimit32 : Nat := (Space.mask32 >>> 1).toNat + 1

def withCapacity (shape : Shape) (capacity : Nat) : Shape := { shape with capacity := capacity }

/-- The space of a usable shape; a bad mask is reported before a bad capacity. -/
def space (shape : Shape) : Except ShapeError Space :=
  match Space.ofMask shape.mask with
  | .error e => .error e
  | .ok space =>
    if shape.capacity = 0 then .error .zeroCapacity
    else if space.half < shape.capacity then .error (.capacityAboveHalf shape.capacity space.half)
    else .ok space

end Shape

end SequenceTracking
