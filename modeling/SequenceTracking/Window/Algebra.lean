import SequenceTracking.Merge
import SequenceTracking.Window.Query

/-!
Merging the marks of an operand into a receiver over the same space. Every merge walks the span of
one of the two in the order of sequence numbers, so its cost follows the span and not the capacity.
What could be refused is checked before the first mark is changed.
-/
namespace SequenceTracking.Window

def withinSpace (w other : Window) (merged : Step) : Step :=
  if w.space = other.space then merged
  else .refused w (.space w.space.mask other.space.mask)

/-- Why a span of `extent + 1` numbers from `first` on could not be merged into the window. -/
def spanMisfit? (w : Window) (first : UInt32) (extent : Nat) : Option Failure :=
  match w.placement? with
  | some p =>
    let lo := w.space.distance first p.lowest
    w.misfit? p lo (lo + extent)
  | none => if extent < w.capacity then none else some (.span (extent + 1) w.capacity)

def spanned (w : Window) : List UInt32 :=
  match w.first? with
  | none => []
  | some first => (List.range w.span).map fun (k : Nat) => w.space.advance first k

def assign (w other : Window) : Step :=
  w.withinSpace other <|
    if w.capacity < other.span then .refused w (.span other.span w.capacity)
    else Step.each other.marks mark w.clear

def union (w other : Window) : Step :=
  w.withinSpace other <|
    match other.first? with
    | none => .done w
    | some first =>
      if w.isOccupied then
        match w.spanMisfit? first (other.span - 1) with
        | some reason => .refused w reason
        | none => Step.each other.marks mark w
      else w.assign other

def unmarkWhere (w : Window) (drop : UInt32 → Bool) : Step :=
  Step.each w.spanned
    (fun w seq => if w.contains seq && drop seq then w.unmark seq else .done w) w

def subtract (w other : Window) : Step :=
  w.withinSpace other <|
    if other.isOccupied then w.unmarkWhere other.contains else .done w

/-- Takes the marks that the operand has and the receiver lacks. They are gathered in a new window,
    so a refusal leaves the receiver as it was. -/
def subtractFrom (memory : Memory) (w other : Window) : Step :=
  w.withinSpace other <|
    match create memory w.shape with
    | .error reason => .refused w reason
    | .ok fresh =>
      let built := Step.each (other.marks.filter fun seq => !w.contains seq) mark fresh
      match built.failure? with
      | some _ => { built with state := w }
      | none => built

def intersect (w other : Window) : Step :=
  w.withinSpace other <|
    if other.isOccupied then w.unmarkWhere fun seq => !other.contains seq else .done w.clear

def symmDiff (w other : Window) : Step :=
  w.withinSpace other <|
    match other.first? with
    | none => .done w
    | some first =>
      match w.spanMisfit? first (other.span - 1) with
      | some reason => .refused w reason
      | none => Step.each other.marks toggle w

def merge (memory : Memory) (w other : Window) : Merge → Step
  | .clone => .done other
  | .assign => w.assign other
  | .union => w.union other
  | .subtract => w.subtract other
  | .subtractFrom => w.subtractFrom memory other
  | .intersect => w.intersect other
  | .symmDiff => w.symmDiff other

end SequenceTracking.Window
