import SequenceTracking.PackedBits.Algebra
import SequenceTracking.PackedBits.Edit
import SequenceTracking.Session

/-!
Packed bits as the content of registers: every change of them as data, and the machine that carries
changes and merges out.
-/
namespace SequenceTracking.PackedBits

inductive Edit where
  | insert (index : Nat)
  | erase (index : Nat)
  | toggle (index : Nat)
  | insertRun (index count : Nat)
  | eraseRun (index count : Nat)
  | clear
  | fill
  | recreate (capacity : Nat)
  deriving DecidableEq, Repr

def edit (memory : Memory) (b : PackedBits) : Edit → Outcome PackedBits
  | .insert index => b.insert index
  | .erase index => .done (b.erase index)
  | .toggle index => b.toggle index
  | .insertRun index count => b.insertRun index count
  | .eraseRun index count => .done (b.eraseRun index count)
  | .clear => .done b.clear
  | .fill => .done b.fill
  | .recreate capacity => b.recreate memory capacity

def machine (memory : Memory) : Machine PackedBits Edit (Outcome PackedBits) :=
  ⟨edit memory, merge, Outcome.state⟩

end SequenceTracking.PackedBits
