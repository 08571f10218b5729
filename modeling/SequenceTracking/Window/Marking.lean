import SequenceTracking.Window.Step

/-!
Marking and clearing numbers. A number outside the span slides the window: backward by moving its
start, forward by moving its stop. A run is refused when the span it would lead to exceeds the
capacity, and then nothing changes. Clearing a boundary looks for the next mark inside, and clearing
the last mark empties the window.
-/
namespace SequenceTracking.Window

def misfit? (w : Window) (p : Placement) (lo hi : Int) : Option Failure :=
  let span := max hi (w.extent p) - min lo 0 + 1
  if (w.capacity : Int) < span then some (.span span.toNat w.capacity) else none

/-- Writes `value` at `count` offsets from `offset` on, in two runs where storage wraps. -/
def write (w : Window) (p : Placement) (offset count : Nat) (value : Bool) : PackedBits :=
  let position := p.position w.capacity offset
  let head := min count (w.capacity - position)
  (w.bits.writeRun position head value).writeRun 0 (count - head) value

def nextPosition? (w : Window) (position : Nat) : Option Nat :=
  (w.bits.next? position).or w.bits.first?

def prevPosition? (w : Window) (position : Nat) : Option Nat :=
  (w.bits.prev? position).or w.bits.last?

def anchor (w : Window) (seq : UInt32) (count : Nat) : Step :=
  let p : Placement := ⟨0, count - 1, seq⟩
  (Step.done { w with bits := w.write p 0 count true, placement? := some p }).report
    (.anchored seq count)

/-- The placement after a slide so that offsets `lo .. hi`, counted from the old lowest mark, are
    spanned too; `lo` is the offset of `seq`. -/
def slide (w : Window) (p : Placement) (seq : UInt32) (lo hi : Int) : Placement :=
  let back := min lo 0
  let moved : Placement :=
    if back < 0 then
      { p with start := ((p.start + back) % (w.capacity : Int)).toNat, lowest := seq }
    else p
  { moved with stop := moved.position w.capacity (max hi (w.extent p) - back).toNat }

def extend (w : Window) (p : Placement) (seq : UInt32) (count : Nat) : Step :=
  let lo := w.space.distance seq p.lowest
  let hi := lo + count - 1
  match w.misfit? p lo hi with
  | some reason =>
    (Step.refused w reason).report (.refused seq count p.lowest (w.extent p + 1) reason)
  | none =>
    let q := w.slide p seq lo hi
    let grown : Window :=
      { w with bits := w.write q (lo - min lo 0).toNat count true, placement? := some q }
    if lo < 0 then (Step.done grown).report (.slidBack (-lo).toNat seq) else .done grown

/-- Marks `count` numbers from `seq` on, all of them or none. -/
def markRun (w : Window) (seq : UInt32) (count : Nat) : Step :=
  if count = 0 then .done w
  else if w.capacity < count then .refused w (.span count w.capacity)
  else
    match w.placement? with
    | none => w.anchor (w.space.reduce seq) count
    | some p => w.extend p (w.space.reduce seq) count

def mark (w : Window) (seq : UInt32) : Step := w.markRun seq 1

def clear (w : Window) : Window := { w with bits := w.bits.clear, placement? := none }

def cut (w : Window) (p : Placement) (lo hi : Nat) : Step :=
  let extent := w.extent p
  let rest : Window := { w with bits := w.write p lo (hi - lo + 1) false }
  if lo = 0 ∧ hi = extent then
    (Step.done { rest with placement? := none }).report (.emptied p.lowest)
  -- The boundary on the other side is still set, so in a valid window neither scan comes back empty.
  else if lo = 0 then
    match rest.nextPosition? (p.position w.capacity (hi + 1)) with
    | none => .done rest.clear
    | some start =>
      let lowest := w.seqAt p (p.offset w.capacity start)
      .done { rest with placement? := some { p with start := start, lowest := lowest } }
  else if hi = extent then
    match rest.prevPosition? (p.position w.capacity (lo - 1)) with
    | none => .done rest.clear
    | some stop => .done { rest with placement? := some { p with stop := stop } }
  else .done rest

/-- Clears `count` numbers from `seq` on, at most the capacity, as far as they lie in the span. -/
def unmarkRun (w : Window) (seq : UInt32) (count : Nat) : Step :=
  match w.placement? with
  | none => .done w
  | some p =>
    let lo := w.space.distance seq p.lowest
    let hi := lo + (min count w.capacity : Nat) - 1
    let low := max lo 0
    let high := min hi (w.extent p)
    if count = 0 ∨ high < low then .done w else w.cut p low.toNat high.toNat

def unmark (w : Window) (seq : UInt32) : Step := w.unmarkRun seq 1

def toggle (w : Window) (seq : UInt32) : Step :=
  if w.contains seq then w.unmark seq else w.mark seq

def fill (w : Window) (seq : UInt32) : Window :=
  { w with
    bits := w.bits.fill
    placement? := some ⟨0, w.capacity - 1, w.space.reduce seq⟩ }

end SequenceTracking.Window
