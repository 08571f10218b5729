import SequenceTracking.Dump
import SequenceTracking.PackedBits.Scan

/-!
Showing packed bits: the dump of all bits and a one-line summary.
-/
namespace SequenceTracking.PackedBits

def row (b : PackedBits) : List Bool := (List.range b.capacity).map b.contains

def dump (b : PackedBits) : String := Dump.text b.row

def summary (b : PackedBits) : String :=
  let first := match b.first? with
    | some index => s!"Some({index})"
    | none => "None"
  s!"Bitset \x7b capacity: {b.capacity}, first_set: {first}, count: {b.count} \x7d"

end SequenceTracking.PackedBits
