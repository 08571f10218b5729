import SequenceTracking.Window.Algebra

/-!
Changing the capacity of a window. Marks that lie the new capacity or more past the lowest mark are
dropped, all others are kept. On a refusal the window stays as it was.
-/
namespace SequenceTracking.Window

def trim (w : Window) (capacity : Nat) : Step :=
  match w.first? with
  | some first =>
    if capacity < w.capacity then
      w.unmarkRun (w.space.advance first capacity) (w.capacity - capacity)
    else .done w
  | none => .done w

/-- Changes the capacity. The marks are copied into a new window; should the copy be refused, the
    trimmed window is put back. -/
def resize (memory : Memory) (w : Window) (capacity : Nat) : Step :=
  match create memory (w.shape.withCapacity capacity) with
  | .error reason => .refused w reason
  | .ok fresh =>
    let trimmed := w.trim capacity
    let copied := fresh.assign trimmed.state
    let events := trimmed.events ++ copied.events
    match copied.failure? with
    | some reason =>
      ⟨.refused trimmed.state reason, events ++ [.resizeFailed w.capacity capacity reason]⟩
    | none => ⟨.done copied.state, events ++ [.resized w.capacity capacity copied.state.count]⟩

end SequenceTracking.Window
