/-!
The diagnostic dump of a row of bits: a digit for each bit, a space after every group and a newline
after every line.
-/
namespace SequenceTracking.Dump

def groupBits : Nat := 8

def lineBits : Nat := 64

/-- What is written for the bit at `index`: its digit, then the separators that are due after it. -/
def cell (index : Nat) (bit : Bool) : List Char :=
  (if bit then '1' else '0') ::
    ((if (index + 1) % groupBits = 0 then [' '] else []) ++
      (if (index + 1) % lineBits = 0 then ['\n'] else []))

def chars (bits : List Bool) : List Char := (bits.mapIdx cell).flatten

def text (bits : List Bool) : String := String.ofList (chars bits)

end SequenceTracking.Dump
