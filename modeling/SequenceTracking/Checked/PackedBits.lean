import SequenceTracking.Byte.Tables
import SequenceTracking.Checked.Basic
import SequenceTracking.PackedBits.Algebra
import SequenceTracking.PackedBits.Edit

/-!
Packed bits on machine words, step by step: runs are written by a loop over the bytes, whole bytes at a time
where it can, scans look one byte up in the tables and then for the next that is not zero, a merge goes over
the bytes of both sides and then clears or keeps the rest. Every index, sum and assertion on the way is
checked.
-/
namespace SequenceTracking.Checked

/-! ### Bytes -/

def bitMask (pos : Nat) : Checked UInt8 := do
  ensure (pos < 8)
  return Byte.mask pos

def shiftPlaces (places : Nat) : Checked Nat :=
  if places < 8 then .ok places else .error .overflow

def runMask (pos count : Nat) : Checked UInt8 := do
  ensure (1 ≤ count)
  ensure ((← add pos count) ≤ 8)
  let right ← shiftPlaces pos
  let left ← shiftPlaces (← sub (← sub 8 pos) count)
  return UInt8.ofNat (0xFF >>> right) &&& UInt8.ofNat (0xFF <<< left)

/-! ### Look-ups -/

def entry {α : Type} (table : Array α) (i : Nat) : Checked α :=
  match table[i]? with
  | some a => .ok a
  | none => .error .outOfBounds

def slice {α : Type} (s : Array α) (first past : Nat) : Checked Unit :=
  if first ≤ past ∧ past ≤ s.size then .ok () else .error .outOfBounds

/-- The set positions of a byte: so many entries of its row as the byte weighs. -/
def listed (byte : UInt8) : Checked (List Nat) := do
  let row ← entry Byte.rows byte.toNat
  let weight ← entry Byte.weights byte.toNat
  slice row 0 weight
  return row.toList.take weight

def lowestFrom (byte : UInt8) (start : Nat) : Checked (Option Nat) := do
  ensure (start < 8)
  return (← listed byte).find? (start ≤ ·)

def highestUpTo (byte : UInt8) (stop : Nat) : Checked (Option Nat) := do
  ensure (stop < 8)
  return (← listed byte).reverse.find? (· ≤ stop)

def lowest (byte : UInt8) : Checked Nat := do
  ensure (byte ≠ 0)
  entry (← entry Byte.rows byte.toNat) 0

def highest (byte : UInt8) : Checked Nat := do
  ensure (byte ≠ 0)
  let last ← sub (← entry Byte.weights byte.toNat) 1
  entry (← entry Byte.rows byte.toNat) last

/-! ### Storage -/

def byte (s : Storage) (j : Nat) : Checked UInt8 :=
  if j < s.size then .ok (s.byte j) else .error .outOfBounds

def changeByte (s : Storage) (j : Nat) (change : UInt8 → UInt8) : Checked Storage :=
  if j < s.size then .ok (s.modify j change) else .error .outOfBounds

/-- Writes the bits from `index` on and before `stop`, a byte or a row of whole bytes at each turn. -/
def writeFrom (value : Bool) (stop : Nat) : (turns index : Nat) → Storage → Checked Storage
  | 0, index, s => if index < stop then .error .endless else .ok s
  | turns + 1, index, s =>
    if index < stop then do
      let j := index / 8
      let bit := index % 8
      let left ← sub stop index
      if bit = 0 ∧ 8 ≤ left then
        let whole := left / 8
        slice s j (← add j whole)
        let filled := Storage.modifyRun (fun _ _ => if value then 0xFF else 0x00) j whole s
        writeFrom value stop turns (← add index (shl whole 3)) filled
      else
        let take := min (← sub 8 bit) left
        let mask ← runMask bit take
        let changed ← changeByte s j (Byte.put mask value)
        writeFrom value stop turns (← add index take) changed
    else .ok s

def writeStorage (s : Storage) (index count : Nat) (value : Bool) : Checked Storage := do
  let stop ← add index count
  ensure (stop ≤ (← mul s.size 8))
  writeFrom value stop count index s

def nextUnder (view : UInt8 → UInt8) (s : Storage) (index : Nat) : Checked (Option Nat) := do
  let j := index / 8
  match ← lowestFrom (view (← byte s j)) (index % 8) with
  | some pos => return some (← add (shl j 3) pos)
  | none =>
    let next ← add j 1
    slice s next s.size
    match Search.least? (fun k => view (s.byte k) != 0) next (s.size - next) with
    | none => return none
    | some k =>
      let found ← add next (k - next)
      return some (← add (shl found 3) (← lowest (view (← byte s found))))

/-! ### Scans -/

def rescan? (b : PackedBits) (index : Nat) : Checked (Option Nat) := do
  if b.capacity ≤ index then return none
  let found ← nextUnder id b.storage index
  ensure (found.all (· < b.capacity))
  return found

def rescan (b : PackedBits) (index : Nat) : Checked PackedBits := do
  let found ← rescan? b index
  return { b with lowest := found.getD b.capacity }

def bitsNext? (b : PackedBits) (index : Nat) : Checked (Option Nat) := do
  if b.capacity ≤ index ∨ ¬ b.isOccupied then return none
  rescan? b (max index b.lowest)

def bitsPrev? (b : PackedBits) (index : Nat) : Checked (Option Nat) := do
  if ¬ b.isOccupied then return none
  let start := min index (← sub b.capacity 1)
  if start < b.lowest then return none
  let j := start / 8
  match ← highestUpTo (← byte b.storage j) (start % 8) with
  | some pos => return some (← add (shl j 3) pos)
  | none =>
    let floor := b.lowest / 8
    slice b.storage floor j
    match Search.greatest? (fun k => b.storage.byte k != 0) floor (j - floor) with
    -- the byte of the lowest set bit is among those that were searched
    | none => .error .assertion
    | some k =>
      let found ← add floor (k - floor)
      return some (← add (shl found 3) (← highest (← byte b.storage found)))

def bitsNextGap? (b : PackedBits) (index : Nat) : Checked (Option Nat) := do
  if b.capacity ≤ index then return none
  let found ← nextUnder (~~~ ·) b.storage index
  return found.filter (· < b.capacity)

def bitsLast? (b : PackedBits) : Checked (Option Nat) := do
  if b.capacity = 0 then return none
  bitsPrev? b (← sub b.capacity 1)

/-! ### Bits as a whole -/

def testBit (b : PackedBits) (index : Nat) : Checked Bool := do
  if b.capacity ≤ index then return false
  return (← byte b.storage (index / 8)) &&& (← bitMask (index % 8)) != 0

def bitCount (b : PackedBits) : Checked Nat :=
  b.storage.toList.foldlM (fun total byte => do add total (← entry Byte.weights byte.toNat)) 0

def writeRun (b : PackedBits) (index count : Nat) (value : Bool) : Checked PackedBits := do
  if count = 0 then return b
  let stop ← add index count
  ensure (stop ≤ b.capacity)
  let written := { b with storage := ← writeStorage b.storage index count value }
  if value then return { written with lowest := min b.lowest index }
  if index ≤ b.lowest ∧ b.lowest < stop then rescan written stop
  else return written

/-- Sets a run whose end is a word within the capacity, and reports how far any other run would reach. -/
def insertRun (b : PackedBits) (index count : Nat) : Checked (Outcome PackedBits) := do
  if count = 0 then return .done b
  -- a sum that is no word is too large for any capacity
  if (sum? index count).any (· ≤ b.capacity) then return .done (← writeRun b index count true)
  return .refused b (.span (← add index count) b.capacity)

def eraseRun (b : PackedBits) (index count : Nat) : Checked PackedBits := do
  if b.capacity ≤ index ∨ count = 0 then return b
  let stop := min (sumUpTo index count) b.capacity
  writeRun b index (← sub stop index) false

def fillBits (b : PackedBits) : Checked PackedBits := do
  if b.capacity = 0 then return b
  let bytes := Storage.modifyRun (fun _ _ => 0xFF) 0 b.storage.size b.storage
  let tail := b.capacity % 8
  let storage ←
    if tail = 0 then pure bytes
    else do
      -- the bits past the capacity stay clear
      let last ← sub bytes.size 1
      let mask ← runMask 0 tail
      changeByte bytes last fun _ => mask
  let filled : PackedBits := { b with storage, lowest := 0 }
  ensure ((← bitCount filled) = b.capacity)
  return filled

/-! ### Merges -/

/-- Combines the first `n` bytes with those of `t`, as far as `t` reaches. -/
def zipHead (f : UInt8 → UInt8 → UInt8) (n : Nat) (s t : Storage) : Checked Storage := do
  slice s 0 n
  return Storage.modifyRun (fun j x => f x (t.byte j)) 0 (min n t.size) s

def copyHead (n : Nat) (s t : Storage) : Checked Storage := do
  ensure (n = t.size)
  zipHead (fun _ y => y) n s t

def clearTail (first : Nat) (s : Storage) : Checked Storage := do
  slice s first s.size
  return Storage.modifyRun (fun _ _ => 0) first (s.size - first) s

def bitsWithin (b other : PackedBits) (merged : Checked PackedBits) : Checked (Outcome PackedBits) := do
  if b.capacity < other.capacity then return .refused b (.span other.capacity b.capacity)
  return .done (← merged)

def bitsAssign (b other : PackedBits) : Checked (Outcome PackedBits) :=
  bitsWithin b other do
    let n := other.storage.size
    let storage ← clearTail n (← copyHead n b.storage other.storage)
    return { b with storage, lowest := other.first?.getD b.capacity }

def bitsUnion (b other : PackedBits) : Checked (Outcome PackedBits) :=
  bitsWithin b other do
    let storage ← zipHead (· ||| ·) b.storage.size b.storage other.storage
    match other.first? with
    | some first => return { b with storage, lowest := min b.lowest first }
    | none => return { b with storage }

def bitsSubtract (b other : PackedBits) : Checked PackedBits := do
  let storage ← zipHead (fun x y => x &&& ~~~y) b.storage.size b.storage other.storage
  rescan { b with storage } b.lowest

def bitsSubtractFrom (b other : PackedBits) : Checked (Outcome PackedBits) :=
  bitsWithin b other do
    let n := other.storage.size
    let storage ← clearTail n (← zipHead (fun x y => y &&& ~~~x) n b.storage other.storage)
    rescan { b with storage } other.lowest

def bitsIntersect (b other : PackedBits) : Checked PackedBits := do
  let n := min b.storage.size other.storage.size
  let storage ← clearTail n (← zipHead (· &&& ·) n b.storage other.storage)
  rescan { b with storage } (max b.lowest other.lowest)

def bitsSymmDiff (b other : PackedBits) : Checked (Outcome PackedBits) := do
  if ¬ other.isOccupied then return .done b
  bitsWithin b other do
    let storage ← zipHead (· ^^^ ·) b.storage.size b.storage other.storage
    rescan { b with storage } (min b.lowest other.lowest)

def bitsMerge (b other : PackedBits) : Merge → Checked (Outcome PackedBits)
  | .clone => .ok (.done other)
  | .assign => bitsAssign b other
  | .union => bitsUnion b other
  | .subtract => do return .done (← bitsSubtract b other)
  | .subtractFrom => bitsSubtractFrom b other
  | .intersect => do return .done (← bitsIntersect b other)
  | .symmDiff => bitsSymmDiff b other

end SequenceTracking.Checked
