import SequenceTracking.Window.Marking

/-!
Asking an occupied window about its marks. A number behind the lowest mark or past the span is
answered from the nearer end; `marks` follows `next?` from the lowest mark to the highest.
-/
namespace SequenceTracking.Window

def accepts (w : Window) (seq : UInt32) : Bool :=
  match w.placement? with
  | none => true
  | some p =>
    let d := w.space.distance seq p.lowest
    (w.misfit? p d d).isNone

def next? (w : Window) (seq : UInt32) : Option UInt32 :=
  w.placement?.bind fun p =>
    let d := w.space.distance seq p.lowest
    if d < 0 then some p.lowest
    else if w.extent p < d then none
    else (w.nextPosition? (p.position w.capacity d.toNat)).map fun found =>
      w.seqAt p (p.offset w.capacity found)

def prev? (w : Window) (seq : UInt32) : Option UInt32 :=
  w.placement?.bind fun p =>
    let d := w.space.distance seq p.lowest
    if d < 0 then none
    else if w.extent p < d then w.last?
    else (w.prevPosition? (p.position w.capacity d.toNat)).map fun found =>
      w.seqAt p (p.offset w.capacity found)

/-- The nearest clear storage position at or after `position`, in the order of offsets: to the end
    of storage and on from its start, but not past the position before `start`. -/
def nextGapPosition? (w : Window) (p : Placement) (position : Nat) : Option Nat :=
  if position < p.start then (w.bits.nextGap? position).filter (· < p.start)
  else (w.bits.nextGap? position).or ((w.bits.nextGap? 0).filter (· < p.start))

def nextGap? (w : Window) (seq : UInt32) : Option UInt32 :=
  match w.placement? with
  | none => some (w.space.reduce seq)
  | some p =>
    let d := w.space.distance seq p.lowest
    if d < 0 ∨ w.capacity ≤ d then none
    else if w.extent p < d then some (w.space.reduce seq)
    else (w.nextGapPosition? p (p.position w.capacity d.toNat)).map fun found =>
      w.seqAt p (p.offset w.capacity found)

def marks (w : Window) : List UInt32 :=
  let last := w.last?
  Search.chain (fun seq => if some seq = last then none else w.next? (w.space.advance seq 1))
    w.span w.first?

/-- Whether two windows of one shape mark the same numbers, wherever the bits lie in storage. -/
def sameMarks (v w : Window) : Bool := v.shape == w.shape && v.marks == w.marks

end SequenceTracking.Window
