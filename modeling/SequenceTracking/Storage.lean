import SequenceTracking.Byte

/-!
Bits packed in bytes: bit `i` is position `i % 8` of byte `i / 8`. Runs are written byte by byte under
a mask, and scans look into a partial byte first and then for the nearest byte that is not zero.
-/
namespace SequenceTracking

open Search

/-- Packed bits. What lies past the last byte reads as zero. -/
abbrev Storage := Array UInt8

namespace Storage

def zeros (size : Nat) : Storage := Array.replicate size 0

def byte (s : Storage) (j : Nat) : UInt8 := s.getD j 0

def bit (s : Storage) (i : Nat) : Bool := Byte.test (s.byte (i / 8)) (i % 8)

def count (s : Storage) : Nat := (s.map Byte.weight).foldl (· + ·) 0

def modifyRun {α : Type} (change : Nat → α → α) (j : Nat) : Nat → Array α → Array α
  | 0, s => s
  | n + 1, s => modifyRun change (j + 1) n (s.modify j (change j))

/-- The part of the run of `count` bits from `index` that lies in byte `j`. -/
def runPart (index count j : Nat) : UInt8 :=
  let low := min (index - 8 * j) 8
  let high := min (index + count - 8 * j) 8
  Byte.runMask low (high - low)

def write (s : Storage) (index count : Nat) (value : Bool) : Storage :=
  modifyRun (fun j => Byte.put (runPart index count j) value)
    (index / 8) (Byte.needed (index + count) - index / 8) s

def writeBit (s : Storage) (index : Nat) (value : Bool) : Storage :=
  s.modify (index / 8) (Byte.put (Byte.mask (index % 8)) value)

def combine (f : UInt8 → UInt8 → UInt8) (s t : Storage) : Storage :=
  s.mapIdx fun j x => f x (t.byte j)

/-- The nearest bit at or after `index` that is set once `view` is applied to its byte. -/
def nextUnder? (view : UInt8 → UInt8) (s : Storage) (index : Nat) : Option Nat :=
  let j := index / 8
  match Byte.lowestFrom? (view (s.byte j)) (index % 8) with
  | some pos => some (8 * j + pos)
  | none => (least? (fun k => view (s.byte k) != 0) (j + 1) (s.size - (j + 1))).map fun k =>
      8 * k + Byte.lowest (view (s.byte k))

def next? (s : Storage) (index : Nat) : Option Nat := s.nextUnder? id index

def nextGap? (s : Storage) (index : Nat) : Option Nat := s.nextUnder? (~~~ ·) index

/-- The nearest set bit at or before `index` in bytes no lower than `floor`. -/
def prev? (s : Storage) (floor index : Nat) : Option Nat :=
  let j := index / 8
  match Byte.highestUpTo? (s.byte j) (index % 8) with
  | some pos => some (8 * j + pos)
  | none => (greatest? (fun k => s.byte k != 0) floor (j - floor)).map fun k =>
      8 * k + Byte.highest (s.byte k)

end Storage

end SequenceTracking
