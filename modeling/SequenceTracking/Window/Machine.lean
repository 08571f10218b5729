import SequenceTracking.Session
import SequenceTracking.Window.Resize

/-!
Windows as the content of registers: every change of them as data, and the machine that carries
changes and merges out.
-/
namespace SequenceTracking.Window

inductive Edit where
  | mark (seq : UInt32)
  | unmark (seq : UInt32)
  | toggle (seq : UInt32)
  | markRun (seq : UInt32) (count : Nat)
  | unmarkRun (seq : UInt32) (count : Nat)
  | clear
  | fill (seq : UInt32)
  | resize (capacity : Nat)
  deriving DecidableEq, Repr

def edit (memory : Memory) (w : Window) : Edit → Step
  | .mark seq => w.mark seq
  | .unmark seq => w.unmark seq
  | .toggle seq => w.toggle seq
  | .markRun seq count => w.markRun seq count
  | .unmarkRun seq count => w.unmarkRun seq count
  | .clear => .done w.clear
  | .fill seq => .done (w.fill seq)
  | .resize capacity => w.resize memory capacity

def machine (memory : Memory) : Machine Window Edit Step :=
  ⟨edit memory, merge memory, fun step => step.state⟩

end SequenceTracking.Window
