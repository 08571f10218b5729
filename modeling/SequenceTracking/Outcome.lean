import SequenceTracking.Failure

/-!
The result of an operation that may be turned down: the state it leaves and, if it was turned down,
why. The state is there in both cases, so what a failed operation leaves behind can be stated.
-/
namespace SequenceTracking

/-- The state that an operation leaves, and the reason if it was turned down. -/
structure Outcome (σ : Type) where
  state : σ
  failure? : Option Failure
  deriving DecidableEq, Repr

namespace Outcome

def done (state : σ) : Outcome σ := ⟨state, none⟩

def refused (state : σ) (reason : Failure) : Outcome σ := ⟨state, some reason⟩

end Outcome

end SequenceTracking
