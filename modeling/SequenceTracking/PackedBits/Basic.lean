import SequenceTracking.Memory
import SequenceTracking.Outcome
import SequenceTracking.Storage

/-!
A fixed number of bits packed in bytes, together with the index of the lowest set bit. Unused bits
of the last byte are zero, so whole bytes can be scanned and combined. `Valid` states both.
-/
namespace SequenceTracking

/-- `capacity` bits and the index of the lowest set one, which is `capacity` when none is set. -/
structure PackedBits where
  capacity : Nat
  storage : Storage
  lowest : Nat
  deriving DecidableEq, Repr

namespace PackedBits

def empty (capacity : Nat) : PackedBits :=
  ⟨capacity, Storage.zeros (Byte.needed capacity), capacity⟩

def create (memory : Memory) (capacity : Nat) : Except Failure PackedBits :=
  if memory.grants (Byte.needed capacity) then .ok (empty capacity)
  else .error (.storage (Byte.needed capacity))

/-- Whether the bit at `index` is set; what lies past the capacity is clear. -/
def contains (b : PackedBits) (index : Nat) : Bool :=
  decide (index < b.capacity) && b.storage.bit index

def isOccupied (b : PackedBits) : Bool := decide (b.lowest < b.capacity)

def count (b : PackedBits) : Nat := b.storage.count

def sameBits (a b : PackedBits) : Bool := a.capacity == b.capacity && a.storage == b.storage

/-- The storage has its proper size, its unused bits are clear and `lowest` is exact. -/
structure Valid (b : PackedBits) : Prop where
  size : b.storage.size = Byte.needed b.capacity
  padding : ∀ i, b.capacity ≤ i → b.storage.bit i = false
  lowest_le : b.lowest ≤ b.capacity
  below_lowest : ∀ i, i < b.lowest → b.storage.bit i = false
  at_lowest : b.lowest < b.capacity → b.storage.bit b.lowest = true

end PackedBits

end SequenceTracking
