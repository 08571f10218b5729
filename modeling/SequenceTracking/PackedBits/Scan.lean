import SequenceTracking.PackedBits.Basic

/-!
Directed searches in packed bits. They start no earlier than the lowest set bit and look at whole
bytes; `toList` follows `next?` from the lowest bit on.
-/
namespace SequenceTracking.PackedBits

def rescan? (b : PackedBits) (index : Nat) : Option Nat :=
  if index < b.capacity then b.storage.next? index else none

def rescan (b : PackedBits) (index : Nat) : PackedBits :=
  { b with lowest := (b.rescan? index).getD b.capacity }

def first? (b : PackedBits) : Option Nat := if b.isOccupied then some b.lowest else none

def next? (b : PackedBits) (index : Nat) : Option Nat :=
  if index < b.capacity ∧ b.isOccupied then b.rescan? (max index b.lowest) else none

/-- The nearest set bit at or before `index`, which may lie past the capacity. -/
def prev? (b : PackedBits) (index : Nat) : Option Nat :=
  let start := min index (b.capacity - 1)
  if b.isOccupied ∧ b.lowest ≤ start then b.storage.prev? (b.lowest / 8) start else none

def nextGap? (b : PackedBits) (index : Nat) : Option Nat :=
  if index < b.capacity then (b.storage.nextGap? index).filter (· < b.capacity) else none

def last? (b : PackedBits) : Option Nat :=
  if b.capacity = 0 then none else b.prev? (b.capacity - 1)

def toList (b : PackedBits) : List Nat :=
  Search.chain (fun index => b.next? (index + 1)) b.capacity b.first?

end SequenceTracking.PackedBits
