import SequenceTracking.Merge
import SequenceTracking.PackedBits.Scan

/-!
Merging the bits of an operand into a receiver of possibly another capacity. Bits that the operand
does not have count as clear. Merges that could set a bit past the receiver's capacity are refused
when the operand has the greater capacity, whatever bits it holds.
-/
namespace SequenceTracking.PackedBits

def within (b other : PackedBits) (merged : PackedBits) : Outcome PackedBits :=
  if b.capacity < other.capacity then .refused b (.span other.capacity b.capacity)
  else .done merged

def combine (f : UInt8 → UInt8 → UInt8) (b other : PackedBits) : PackedBits :=
  { b with storage := b.storage.combine f other.storage }

def assign (b other : PackedBits) : Outcome PackedBits :=
  b.within other
    { b.combine (fun _ y => y) other with lowest := other.first?.getD b.capacity }

def union (b other : PackedBits) : Outcome PackedBits :=
  b.within other
    { b.combine (· ||| ·) other with lowest := min b.lowest (other.first?.getD b.lowest) }

def subtract (b other : PackedBits) : PackedBits :=
  (b.combine (fun x y => x &&& ~~~y) other).rescan b.lowest

def subtractFrom (b other : PackedBits) : Outcome PackedBits :=
  b.within other ((b.combine (fun x y => y &&& ~~~x) other).rescan other.lowest)

def intersect (b other : PackedBits) : PackedBits :=
  (b.combine (· &&& ·) other).rescan (max b.lowest other.lowest)

/-- Flips the bits that the operand has; an empty operand of any capacity is accepted. -/
def symmDiff (b other : PackedBits) : Outcome PackedBits :=
  if other.isOccupied then
    b.within other ((b.combine (· ^^^ ·) other).rescan (min b.lowest other.lowest))
  else .done b

def merge (b other : PackedBits) : Merge → Outcome PackedBits
  | .clone => .done other
  | .assign => b.assign other
  | .union => b.union other
  | .subtract => .done (b.subtract other)
  | .subtractFrom => b.subtractFrom other
  | .intersect => .done (b.intersect other)
  | .symmDiff => b.symmDiff other

end SequenceTracking.PackedBits
