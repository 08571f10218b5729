/-!
The ways of merging a second set of marks into a first one, shared by bitsets and windows.
-/
namespace SequenceTracking

inductive Merge where
  /-- The receiver becomes the operand, capacity included. -/
  | clone
  | assign
  | union
  | subtract
  /-- The receiver takes what the operand has and the receiver lacks. -/
  | subtractFrom
  | intersect
  | symmDiff
  deriving DecidableEq, Repr

end SequenceTracking
