import SequenceTracking.Checked.PackedBits
import SequenceTracking.Window.Query
import SequenceTracking.Window.Text

/-!
A window on machine words, step by step: where an offset lies in storage, what fits, marking, clearing and
every question. Offsets from the lowest mark are signed until they are known to lie in the span, and every
cast, sum and assertion on the way is spelled out.
-/
namespace SequenceTracking.Checked

/-! ### Places -/

def extent (w : Window) (p : Placement) : Checked Nat := do
  rem (← sub (← add p.stop w.capacity) p.start) w.capacity

def position (w : Window) (p : Placement) (k : Nat) : Checked Nat := do
  ensure (k < w.capacity)
  rem (← add p.start k) w.capacity

def offset (w : Window) (p : Placement) (position : Nat) : Checked Nat := do
  rem (← sub (← add position w.capacity) p.start) w.capacity

def seqAt (w : Window) (p : Placement) (k : Nat) : UInt32 := w.space.advance p.lowest (toSigned k)

def distance (s : Space) (a b : UInt32) : Checked Int := do
  let raw := s.reduce (a - b)
  if raw &&& s.signBit ≠ 0 ∧ raw ≠ s.signBit then
    subSigned raw.toNat (← addSigned s.mask.toNat 1)
  else return raw.toNat

def locate (w : Window) (seq : UInt32) : Checked (Option (Placement × Nat)) := do
  match w.placement? with
  | none => return none
  | some p =>
    let d ← distance w.space seq p.lowest
    if d < 0 then return none
    if toUnsigned d ≤ (← extent w p) then return some (p, toUnsigned d)
    return none

/-- The lowest offset of the span that holds the offsets `lo .. hi` too, or why it is too long. -/
def admission (w : Window) (p : Placement) (lo hi : Int) : Checked (Except Failure Int) := do
  let newLo := min lo 0
  let newHi := max hi (toSigned (← extent w p))
  let span ← addSigned (← subSigned newHi newLo) 1
  if toSigned w.capacity < span then
    return .error (.span (toUnsigned span) w.capacity)
  return .ok newLo

def write (w : Window) (p : Placement) (k count : Nat) (value : Bool) : Checked PackedBits := do
  ensure (count ≤ w.capacity)
  let place ← position w p k
  let head := min count (← sub w.capacity place)
  let bits ← writeRun w.bits place head value
  writeRun bits 0 (← sub count head) value

def nextPosition? (b : PackedBits) (position : Nat) : Checked (Option Nat) := do
  match ← bitsNext? b position with
  | some found => return some found
  | none => return b.first?

def prevPosition? (b : PackedBits) (position : Nat) : Checked (Option Nat) := do
  match ← bitsPrev? b position with
  | some found => return some found
  | none => bitsLast? b

/-! ### Marking -/

def slideBack (w : Window) (p : Placement) (seq : UInt32) (newLo : Int) :
    Checked (Placement × List Event) := do
  if newLo < 0 then
    let start ← remSigned (← addSigned (toSigned p.start) newLo) (toSigned w.capacity)
    let back ← negSigned newLo
    return ({ p with start := toUnsigned start, lowest := seq }, [.slidBack (toUnsigned back) seq])
  return (p, [])

def anchor (w : Window) (seq : UInt32) (count : Nat) : Checked Window.Step := do
  let p : Placement := ⟨0, ← sub count 1, seq⟩
  let bits ← write w p 0 count true
  return (Window.Step.done { w with bits, placement? := some p }).report (.anchored seq count)

def extend (w : Window) (p : Placement) (seq : UInt32) (count : Nat) : Checked Window.Step := do
  let lo ← distance w.space seq p.lowest
  let hi ← subSigned (← addSigned lo (toSigned count)) 1
  match ← admission w p lo hi with
  | .error reason =>
    let span ← add (← extent w p) 1
    return (Window.Step.refused w reason).report (.refused seq count p.lowest span reason)
  | .ok newLo =>
    let newHi := max hi (toSigned (← extent w p))
    let (moved, events) ← slideBack w p seq newLo
    let stop ← position w moved (toUnsigned (← subSigned newHi newLo))
    let q : Placement := { moved with stop }
    let bits ← write w q (toUnsigned (← subSigned lo newLo)) count true
    return ⟨.done { w with bits, placement? := some q }, events⟩

def markRun (w : Window) (seq : UInt32) (count : Nat) : Checked Window.Step := do
  if count = 0 then return .done w
  if w.capacity < count then return .refused w (.span count w.capacity)
  match w.placement? with
  | none => anchor w (w.space.reduce seq) count
  | some p => extend w p (w.space.reduce seq) count

/-! ### Clearing -/

def cut (w : Window) (p : Placement) (lo hi : Nat) : Checked Window.Step := do
  let extent ← extent w p
  let bits ← write w p lo (← add (← sub hi lo) 1) false
  let rest : Window := { w with bits }
  if lo = 0 ∧ hi = extent then
    ensure (¬ bits.isOccupied)
    return (Window.Step.done { rest with placement? := none }).report (.emptied p.lowest)
  if lo = 0 then
    match ← nextPosition? bits (← position w p (← add hi 1)) with
    | none => .error .fallback
    | some start =>
      let k ← offset w p start
      ensure (hi < k ∧ k ≤ extent)
      return .done { rest with placement? := some { p with start, lowest := seqAt w p k } }
  if hi = extent then
    match ← prevPosition? bits (← position w p (← sub lo 1)) with
    | none => .error .fallback
    | some stop =>
      ensure ((← offset w p stop) < lo)
      return .done { rest with placement? := some { p with stop } }
  return .done rest

def unmarkRun (w : Window) (seq : UInt32) (count : Nat) : Checked Window.Step := do
  match w.placement? with
  | none => return .done w
  | some p =>
    if count = 0 then return .done w
    let lo ← distance w.space seq p.lowest
    let hi ← subSigned (← addSigned lo (toSigned (min count w.capacity))) 1
    let low := max lo 0
    let high := min hi (toSigned (← extent w p))
    if high < low then return .done w
    cut w p (toUnsigned low) (toUnsigned high)

def fill (w : Window) (seq : UInt32) : Checked Window := do
  let bits ← fillBits w.bits
  let stop ← sub w.capacity 1
  return { w with bits, placement? := some ⟨0, stop, w.space.reduce seq⟩ }

/-! ### Questions -/

def contains (w : Window) (seq : UInt32) : Checked Bool := do
  match ← locate w seq with
  | none => return false
  | some (p, k) => testBit w.bits (← position w p k)

def toggle (w : Window) (seq : UInt32) : Checked Window.Step := do
  if ← contains w seq then unmarkRun w seq 1 else markRun w seq 1

def accepts (w : Window) (seq : UInt32) : Checked Bool := do
  match w.placement? with
  | none => return true
  | some p =>
    let d ← distance w.space seq p.lowest
    match ← admission w p d d with
    | .ok _ => return true
    | .error _ => return false

def span (w : Window) : Checked Nat := do
  match w.placement? with
  | none => return 0
  | some p => add (← extent w p) 1

def last? (w : Window) : Checked (Option UInt32) := do
  match w.placement? with
  | none => return none
  | some p => return some (seqAt w p (← extent w p))

def seqFound (w : Window) (p : Placement) (found : Option Nat) : Checked (Option UInt32) := do
  match found with
  | none => return none
  | some position => return some (seqAt w p (← offset w p position))

def next? (w : Window) (seq : UInt32) : Checked (Option UInt32) := do
  match w.placement? with
  | none => return none
  | some p =>
    let d ← distance w.space seq p.lowest
    if d < 0 then return some p.lowest
    if (← extent w p) < toUnsigned d then return none
    seqFound w p (← nextPosition? w.bits (← position w p (toUnsigned d)))

def prev? (w : Window) (seq : UInt32) : Checked (Option UInt32) := do
  match w.placement? with
  | none => return none
  | some p =>
    let d ← distance w.space seq p.lowest
    if d < 0 then return none
    if (← extent w p) < toUnsigned d then last? w
    else seqFound w p (← prevPosition? w.bits (← position w p (toUnsigned d)))

def nextGapPosition? (w : Window) (p : Placement) (position : Nat) : Checked (Option Nat) := do
  if position < p.start then
    return (← bitsNextGap? w.bits position).filter (· < p.start)
  match ← bitsNextGap? w.bits position with
  | some found => return some found
  | none => return (← bitsNextGap? w.bits 0).filter (· < p.start)

def nextGap? (w : Window) (seq : UInt32) : Checked (Option UInt32) := do
  match w.placement? with
  | none => return some (w.space.reduce seq)
  | some p =>
    let d ← distance w.space (w.space.reduce seq) p.lowest
    if d < 0 ∨ w.capacity ≤ toUnsigned d then return none
    if (← extent w p) < toUnsigned d then return some (w.space.reduce seq)
    seqFound w p (← nextGapPosition? w p (← position w p (toUnsigned d)))

/-- The items met by following `next` from `start`; there must be at most `limit` of them. -/
def walk (next : UInt32 → Checked (Option UInt32)) :
    (limit : Nat) → (start : Option UInt32) → Checked (List UInt32)
  | _, none => return []
  | 0, some _ => .error .endless
  | limit + 1, some seq => do
    let rest ← walk next limit (← next seq)
    return seq :: rest

def marks (w : Window) : Checked (List UInt32) := do
  let last ← last? w
  let step := fun seq =>
    if some seq = last then pure none else next? w (w.space.advance seq 1)
  walk step w.span w.first?

def sameMarks (v w : Window) : Checked Bool := do
  if v.shape ≠ w.shape then return false
  return (← marks v) == (← marks w)

def row (w : Window) (limit : Nat) : Checked (List Bool) :=
  (List.range (min limit w.capacity)).mapM fun (k : Nat) =>
    contains w (w.space.advance (w.first?.getD 0) (toSigned k))

def dump (w : Window) : Checked String := do
  return Dump.text (← row w w.capacity)

def dumpEvent (w : Window) (limit : Nat) : Checked Event := do
  return .dumped (w.first?.getD 0) (← row w limit)

end SequenceTracking.Checked
