import SequenceTracking.Window.Query

/-!
Showing a window: the dump of its bits from the lowest mark on, and a one-line summary.
-/
namespace SequenceTracking.Window

/-- The first `limit` bits from the lowest mark on, or from zero in an empty window. -/
def row (w : Window) (limit : Nat) : List Bool :=
  let first := w.first?.getD 0
  (List.range (min limit w.capacity)).map fun (k : Nat) => w.contains (w.space.advance first k)

def dump (w : Window) : String := Dump.text (w.row w.capacity)

def dumpEvent (w : Window) (limit : Nat) : Event := .dumped (w.first?.getD 0) (w.row limit)

def summary (w : Window) : String :=
  let placement := match w.placement? with
    | some p =>
      s!"Some(WindowBounds \x7b start: {p.start}, end: {p.stop}, offset: {p.lowest} \x7d)"
    | none => "None"
  let mask := hex w.space.mask.toNat
  s!"SequenceWindow \x7b capacity: {w.capacity}, modulus_mask: {mask}, bounds: {placement}, "
    ++ s!"count: {w.count} \x7d"

end SequenceTracking.Window
