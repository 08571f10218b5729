import SequenceTracking.PackedBits.Scan

/-!
Changing single bits and runs of bits. Setting past the capacity is refused and leaves the bits as
they were; clearing past the capacity has no effect there.
-/
namespace SequenceTracking.PackedBits

/-- Writes a run that lies within the capacity and keeps the lowest index exact. -/
def writeRun (b : PackedBits) (index count : Nat) (value : Bool) : PackedBits :=
  if count = 0 then b
  else
    let written := { b with storage := b.storage.write index count value }
    if value then { written with lowest := min b.lowest index }
    else if index ≤ b.lowest ∧ b.lowest < index + count then written.rescan (index + count)
    else written

def insertRun (b : PackedBits) (index count : Nat) : Outcome PackedBits :=
  if count = 0 then .done b
  else if b.capacity < index + count then .refused b (.span (index + count) b.capacity)
  else .done (b.writeRun index count true)

def eraseRun (b : PackedBits) (index count : Nat) : PackedBits :=
  if index < b.capacity then b.writeRun index (min count (b.capacity - index)) false else b

def insert (b : PackedBits) (index : Nat) : Outcome PackedBits :=
  if b.capacity ≤ index then .refused b (.span (index + 1) b.capacity)
  else .done { b with
    storage := b.storage.writeBit index true
    lowest := if index < b.lowest then index else b.lowest }

def erase (b : PackedBits) (index : Nat) : PackedBits :=
  if b.capacity ≤ index then b
  else
    let erased := { b with storage := b.storage.writeBit index false }
    if index = b.lowest then erased.rescan (index + 1) else erased

def toggle (b : PackedBits) (index : Nat) : Outcome PackedBits :=
  if b.contains index then .done (b.erase index) else b.insert index

def clear (b : PackedBits) : PackedBits :=
  { b with storage := Storage.zeros b.storage.size, lowest := b.capacity }

def fill (b : PackedBits) : PackedBits := b.clear.writeRun 0 b.capacity true

/-- Starts over with `capacity` clear bits; without storage for them the bits stay as they were. -/
def recreate (memory : Memory) (b : PackedBits) (capacity : Nat) : Outcome PackedBits :=
  match create memory capacity with
  | .ok fresh => .done fresh
  | .error e => .refused b e

end SequenceTracking.PackedBits
