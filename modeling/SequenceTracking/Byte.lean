import SequenceTracking.Search

/-!
Bits of one storage byte. Position 0 is the most significant bit and position 7 the least, so the
positions of a byte read from left to right as it is written in binary. `test` is the view; the
population count, the positions and both directed searches are stated through it.
-/
namespace SequenceTracking.Byte

open Search

def width : Nat := 8

def mask (pos : Nat) : UInt8 := UInt8.ofNat (0x80 >>> pos)

def runMask (pos count : Nat) : UInt8 :=
  UInt8.ofNat (0xFF >>> pos) &&& UInt8.ofNat (0xFF <<< (8 - pos - count))

def test (byte : UInt8) (pos : Nat) : Bool := byte &&& mask pos != 0

def positions (byte : UInt8) : List Nat := (List.range width).filter (test byte)

def weight (byte : UInt8) : Nat := (positions byte).length

/-- The set positions in ascending order, filled up with zeros to eight entries. -/
def row (byte : UInt8) : List Nat :=
  positions byte ++ List.replicate (width - weight byte) 0

def lowestFrom? (byte : UInt8) (start : Nat) : Option Nat :=
  least? (test byte) start (width - start)

def highestUpTo? (byte : UInt8) (stop : Nat) : Option Nat :=
  greatest? (test byte) 0 (min (stop + 1) width)

def lowest (byte : UInt8) : Nat := (lowestFrom? byte 0).getD 0

def highest (byte : UInt8) : Nat := (highestUpTo? byte (width - 1)).getD 0

def put (mask : UInt8) (value : Bool) (byte : UInt8) : UInt8 :=
  if value then byte ||| mask else byte &&& ~~~mask

def needed (bits : Nat) : Nat := (bits + 7) / width

end SequenceTracking.Byte
