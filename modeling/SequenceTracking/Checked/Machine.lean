import SequenceTracking.Checked.Window
import SequenceTracking.Window.Machine

/-!
Merging, resizing and every change of a window on machine words. Marks are set and cleared one after the
other as they are met, and each of these steps is checked. A resize that would have to put the old window
back stops instead.
-/
namespace SequenceTracking.Checked

/-! ### New windows -/

/-- The bytes that hold `bits` bits, without a sum that could be too large. -/
def needed (bits : Nat) : Checked Nat :=
  if bits % 8 = 0 then .ok (bits / 8) else add (bits / 8) 1

def create (memory : Memory) (shape : Shape) : Checked (Except Failure Window) := do
  match shape.space with
  | .error e => return .error (.shape e)
  | .ok space =>
    let bytes ← needed shape.capacity
    if memory.grants bytes then
      return .ok ⟨⟨shape.capacity, Storage.zeros bytes, shape.capacity⟩, space, none⟩
    return .error (.storage bytes)

/-! ### Marks one after the other -/

def andThen (s : Window.Step) (next : Window → Checked Window.Step) : Checked Window.Step :=
  match s.failure? with
  | some _ => .ok s
  | none => do
    let t ← next s.state
    return { t with events := s.events ++ t.events }

def each {α : Type} (items : List α) (next : Window → α → Checked Window.Step) (w : Window) :
    Checked Window.Step :=
  items.foldlM (fun s item => andThen s fun w => next w item) (.done w)

def withinSpace (w other : Window) (merged : Checked Window.Step) : Checked Window.Step :=
  if w.space = other.space then merged
  else .ok (.refused w (.space w.space.mask other.space.mask))

def spanMisfit? (w : Window) (first : UInt32) (extent : Nat) : Checked (Option Failure) := do
  match w.placement? with
  | some p =>
    let lo ← distance w.space first p.lowest
    match ← admission w p lo (← addSigned lo (toSigned extent)) with
    | .ok _ => return none
    | .error reason => return some reason
  | none =>
    if extent < w.capacity then return none
    return some (.span (← add extent 1) w.capacity)

def spanned (w : Window) : Checked (List UInt32) := do
  match w.first? with
  | none => return []
  | some first =>
    return (List.range (← span w)).map fun (k : Nat) => w.space.advance first (toSigned k)

/-! ### Merges -/

def assign (w other : Window) : Checked Window.Step :=
  withinSpace w other do
    let needed ← span other
    if w.capacity < needed then return .refused w (.span needed w.capacity)
    each (← marks other) (fun w seq => markRun w seq 1) w.clear

def union (w other : Window) : Checked Window.Step :=
  withinSpace w other do
    match other.first? with
    | none => return .done w
    | some first =>
      if ¬ w.isOccupied then assign w other
      else
        match ← spanMisfit? w first (← sub (← span other) 1) with
        | some reason => return .refused w reason
        | none => each (← marks other) (fun w seq => markRun w seq 1) w

def unmarkWhere (w : Window) (drop : UInt32 → Checked Bool) : Checked Window.Step := do
  each (← spanned w)
    (fun w seq => do
      if ← contains w seq then
        if ← drop seq then unmarkRun w seq 1 else return .done w
      else return .done w) w

def subtract (w other : Window) : Checked Window.Step :=
  withinSpace w other do
    if other.isOccupied then unmarkWhere w (contains other) else return .done w

def intersect (w other : Window) : Checked Window.Step :=
  withinSpace w other do
    if other.isOccupied then unmarkWhere w fun seq => do return !(← contains other seq)
    else return .done w.clear

def subtractFrom (memory : Memory) (w other : Window) : Checked Window.Step :=
  withinSpace w other do
    match ← create memory w.shape with
    | .error reason => return .refused w reason
    | .ok fresh =>
      let built ← each (← marks other)
        (fun v seq => do if ← contains w seq then return .done v else markRun v seq 1) fresh
      match built.failure? with
      | some _ => return { built with state := w }
      | none => return built

def symmDiff (w other : Window) : Checked Window.Step :=
  withinSpace w other do
    match other.first? with
    | none => return .done w
    | some first =>
      match ← spanMisfit? w first (← sub (← span other) 1) with
      | some reason => return .refused w reason
      | none => each (← marks other) toggle w

/-! ### Another capacity -/

def trim (w : Window) (capacity : Nat) : Checked Window.Step := do
  if w.capacity ≤ capacity then return .done w
  match w.first? with
  | none => return .done w
  | some first =>
    unmarkRun w (w.space.advance first (toSigned capacity)) (← sub w.capacity capacity)

def resize (memory : Memory) (w : Window) (capacity : Nat) : Checked Window.Step := do
  match ← create memory (w.shape.withCapacity capacity) with
  | .error reason => return .refused w reason
  | .ok fresh =>
    let trimmed ← trim w capacity
    let copied ← assign fresh trimmed.state
    match copied.failure? with
    | some _ => .error .fallback
    | none =>
      let kept ← bitCount copied.state.bits
      return ⟨.done copied.state, trimmed.events ++ copied.events ++ [.resized w.capacity capacity kept]⟩

/-! ### Every command -/

def edit (memory : Memory) (w : Window) : Window.Edit → Checked Window.Step
  | .mark seq => markRun w seq 1
  | .unmark seq => unmarkRun w seq 1
  | .toggle seq => toggle w seq
  | .markRun seq count => markRun w seq count
  | .unmarkRun seq count => unmarkRun w seq count
  | .clear => .ok (.done w.clear)
  | .fill seq => return .done (← fill w seq)
  | .resize capacity => resize memory w capacity

def merge (memory : Memory) (w other : Window) : Merge → Checked Window.Step
  | .clone => .ok (.done other)
  | .assign => assign w other
  | .union => union w other
  | .subtract => subtract w other
  | .subtractFrom => subtractFrom memory w other
  | .intersect => intersect w other
  | .symmDiff => symmDiff w other

def apply (memory : Memory) (s : Session Window) : Command Window.Edit → Checked (Session Window)
  | .edit register change =>
    match s.get? register with
    | none => .ok s
    | some w => do
      let step ← edit memory w change
      return s.setIfInBounds register (some step.state)
  | .merge register operand kind =>
    match s.get? register, s.get? operand with
    | some w, some other => do
      let step ← merge memory w other kind
      return s.setIfInBounds register (some step.state)
    | _, _ => .ok s

def run (s : Session Window) (commands : List (Memory × Command Window.Edit)) :
    Checked (Session Window) :=
  commands.foldlM (fun s entry => apply entry.1 s entry.2) s

end SequenceTracking.Checked
