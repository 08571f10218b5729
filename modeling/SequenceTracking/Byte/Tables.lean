import SequenceTracking.Storage

/-!
The tables in which bytes are looked up: how many bits of a byte are set, and at which positions. A table has
one entry for each byte, and the entries are filled in one after the other.
-/
namespace SequenceTracking.Byte

/-- Writes the set positions from `pos` on into a row, one after the other from the entry `next` on. -/
def fillRow (byte : UInt8) : (turns pos next : Nat) → Array Nat → Array Nat
  | 0, _, _, row => row
  | turns + 1, pos, next, row =>
    if test byte pos then fillRow byte turns (pos + 1) (next + 1) (row.setIfInBounds next pos)
    else fillRow byte turns (pos + 1) next row

def weights : Array Nat :=
  Storage.modifyRun (fun n _ => weight (UInt8.ofNat n)) 0 256 (Array.replicate 256 0)

def rows : Array (Array Nat) :=
  Storage.modifyRun (fun n => fillRow (UInt8.ofNat n) width 0 0) 0 256
    (Array.replicate 256 (Array.replicate width 0))

end SequenceTracking.Byte
