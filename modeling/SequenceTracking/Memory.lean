/-!
Which requests for storage are granted. The answer depends on the requested size alone, and every
operation that asks for storage takes it as an argument, so a refusal can be reasoned about.
-/
namespace SequenceTracking

/-- A storage policy: `grants bytes` says whether that many bytes can be had. -/
structure Memory where
  grants : Nat → Bool

namespace Memory

def limit : Nat := Nat.pow 2 57

def standard : Memory := ⟨fun bytes => decide (bytes < limit)⟩

end Memory

end SequenceTracking
