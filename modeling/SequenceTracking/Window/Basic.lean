import SequenceTracking.PackedBits.Edit
import SequenceTracking.Shape

/-!
A window of marked sequence numbers over packed bits. The bits are used as a circular buffer: the
lowest mark lies at storage position `start`, the highest at `stop`, and the numbers between them at
the positions between, wrapping past the end of storage. A number is addressed by its offset from the
lowest mark. `Valid` states what every operation keeps.
-/
namespace SequenceTracking

/-- The storage positions of the lowest and of the highest mark, and the lowest mark itself. -/
structure Placement where
  start : Nat
  stop : Nat
  lowest : UInt32
  deriving DecidableEq, Repr

namespace Placement

def extent (p : Placement) (capacity : Nat) : Nat := (p.stop + capacity - p.start) % capacity

def position (p : Placement) (capacity offset : Nat) : Nat := (p.start + offset) % capacity

def offset (p : Placement) (capacity position : Nat) : Nat :=
  (position + capacity - p.start) % capacity

end Placement

/-- A window; it has a placement exactly when something is marked. -/
structure Window where
  bits : PackedBits
  space : Space
  placement? : Option Placement
  deriving DecidableEq, Repr

namespace Window

def create (memory : Memory) (shape : Shape) : Except Failure Window :=
  match shape.space with
  | .error e => .error (.shape e)
  | .ok space =>
    match PackedBits.create memory shape.capacity with
    | .error e => .error e
    | .ok bits => .ok ⟨bits, space, none⟩

def capacity (w : Window) : Nat := w.bits.capacity

def shape (w : Window) : Shape := ⟨w.capacity, w.space.mask⟩

def isOccupied (w : Window) : Bool := w.placement?.isSome

def count (w : Window) : Nat := w.bits.count

def extent (w : Window) (p : Placement) : Nat := p.extent w.capacity

def span (w : Window) : Nat :=
  match w.placement? with
  | none => 0
  | some p => w.extent p + 1

def seqAt (w : Window) (p : Placement) (offset : Nat) : UInt32 := w.space.advance p.lowest offset

def first? (w : Window) : Option UInt32 := w.placement?.map Placement.lowest

def last? (w : Window) : Option UInt32 := w.placement?.map fun p => w.seqAt p (w.extent p)

/-- Whether `seq` is marked; what lies outside the span is not. -/
def contains (w : Window) (seq : UInt32) : Bool :=
  match w.placement? with
  | none => false
  | some p =>
    let d := w.space.distance seq p.lowest
    decide (0 ≤ d ∧ d ≤ w.extent p) && w.bits.contains (p.position w.capacity d.toNat)

/-- The bits agree with the placement: none is set without one; with one, the first and the last
    bit of the span are set and all set bits lie between them. The capacity is usable and the bits
    are valid themselves. -/
structure Valid (w : Window) : Prop where
  bits_valid : w.bits.Valid
  capacity_pos : 0 < w.capacity
  capacity_le : w.capacity ≤ w.space.half
  unplaced : w.placement? = none → ∀ i, w.bits.contains i = false
  start_lt : ∀ p, w.placement? = some p → p.start < w.capacity
  stop_lt : ∀ p, w.placement? = some p → p.stop < w.capacity
  lowest_le : ∀ p, w.placement? = some p → p.lowest ≤ w.space.mask
  at_start : ∀ p, w.placement? = some p → w.bits.contains p.start = true
  at_stop : ∀ p, w.placement? = some p → w.bits.contains p.stop = true
  inside : ∀ p, w.placement? = some p → ∀ i, w.bits.contains i = true →
    p.offset w.capacity i ≤ w.extent p

end Window

end SequenceTracking
