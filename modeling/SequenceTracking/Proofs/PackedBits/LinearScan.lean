import SequenceTracking.Proofs.PackedBits.Reachable

/-!
Scans of packed bits, said without the way they go. Each scan looks into one byte, passes over whole bytes and
looks into another one, and is kept short by the lowest index; what it answers is the least or the greatest
member of a set of indices, at any index and for any capacity.
-/
namespace SequenceTracking.PackedBits

open Search

variable {b : PackedBits} {S : Set Nat} {p : Nat → Bool} {lo n : Nat}

/-! ### Answers -/

/-- The answer is the least member of the set, or nothing if the set has no member. -/
structure AnswersLeast (S : Set Nat) (answer : Option Nat) : Prop where
  some_iff : ∀ j, answer = some j ↔ IsLeast S j
  none_iff : answer = none ↔ S = ∅

structure AnswersGreatest (S : Set Nat) (answer : Option Nat) : Prop where
  some_iff : ∀ j, answer = some j ↔ IsGreatest S j
  none_iff : answer = none ↔ S = ∅

theorem answersLeast (mem_iff : ∀ j, j ∈ S ↔ lo ≤ j ∧ j < lo + n ∧ p j = true) :
    AnswersLeast S (least? p lo n) where
  none_iff := least?_eq_none_iff.trans (eq_empty_iff_of_mem_iff mem_iff).symm
  some_iff _ := least?_eq_some_iff_isLeast mem_iff

theorem answersGreatest (mem_iff : ∀ j, j ∈ S ↔ lo ≤ j ∧ j < lo + n ∧ p j = true) :
    AnswersGreatest S (greatest? p lo n) where
  none_iff := greatest?_eq_none_iff.trans (eq_empty_iff_of_mem_iff mem_iff).symm
  some_iff _ := greatest?_eq_some_iff_isGreatest mem_iff

/-! ### Scans -/

def setBits (b : PackedBits) : Set Nat := {j | b.contains j = true}

def bitsFrom (b : PackedBits) (value : Bool) (index : Nat) : Set Nat :=
  {j | index ≤ j ∧ j < b.capacity ∧ b.contains j = value}

/-- The indices of set bits up to `index` or, where that lies past the capacity, up to the last bit. -/
def setBitsUpTo (b : PackedBits) (index : Nat) : Set Nat :=
  {j | j ≤ min index (b.capacity - 1) ∧ b.contains j = true}

structure LinearScans (b : PackedBits) (index : Nat) : Prop where
  next : AnswersLeast (b.bitsFrom true index) (b.next? index)
  prev : AnswersGreatest (b.setBitsUpTo index) (b.prev? index)
  prev_of_capacity : b.capacity = 0 → b.prev? index = none
  gap : AnswersLeast (b.bitsFrom false index) (b.nextGap? index)
  first : AnswersLeast b.setBits b.first?
  last : AnswersGreatest b.setBits b.last?

theorem mem_setBits (j : Nat) :
    j ∈ b.setBits ↔ 0 ≤ j ∧ j < 0 + b.capacity ∧ b.contains j = true := by
  constructor
  · intro hit
    have inside := lt_of_contains hit
    exact ⟨Nat.zero_le j, by omega, hit⟩
  · intro given
    exact given.2.2

theorem Valid.linearScans (valid : b.Valid) (index : Nat) : b.LinearScans index where
  next := by
    rw [next?_eq valid]
    refine answersLeast fun j => ⟨fun member => ?_, fun found => ?_⟩
    · exact ⟨member.1, by have := member.2.1; omega, member.2.2⟩
    · exact ⟨found.1, by omega, found.2.2⟩
  prev := by
    rw [prev?_eq valid]
    refine answersGreatest fun j => ⟨fun member => ?_, fun found => ?_⟩
    · have inside := lt_of_contains member.2
      exact ⟨Nat.zero_le j, by have := member.1; omega, member.2⟩
    · exact ⟨by omega, found.2.2⟩
  prev_of_capacity none_at_all := by
    rw [prev?_eq valid, none_at_all, Nat.min_zero, greatest?]
  gap := by
    rw [nextGap?_eq valid]
    refine answersLeast fun j => ⟨fun member => ?_, fun found => ?_⟩
    · exact ⟨member.1, by have := member.2.1; omega, by rw [member.2.2]; rfl⟩
    · exact ⟨found.1, by omega, by simpa using found.2.2⟩
  first := by
    rw [first?_eq valid]
    exact answersLeast mem_setBits
  last := by
    rw [last?_eq valid]
    exact answersGreatest mem_setBits

/-- The scans of bits that a run leads to answer what a search bit by bit answers, wherever they start. -/
theorem bit_scans_exact (reachable : b.Reachable) (index : Nat) : b.LinearScans index :=
  reachable.valid.linearScans index

theorem bit_scans_exact_of_padded :
    let b : PackedBits := ⟨13, #[0x20, 0x08], 2⟩
    b.next? 3 = some 12 ∧ IsLeast (b.bitsFrom true 3) 12 ∧ b.next? 1000 = none ∧
      b.prev? 11 = some 2 ∧ IsGreatest (b.setBitsUpTo 11) 2 ∧
      b.prev? 1000 = some 12 ∧ IsGreatest (b.setBitsUpTo 1000) 12 ∧
      b.prev? 1 = none ∧ b.setBitsUpTo 1 = ∅ ∧ b.nextGap? 12 = none ∧ b.bitsFrom false 12 = ∅ := by
  -- the scans pass from byte to byte, start past the capacity, and take no unused bit for a gap
  intro b
  have reachable : b.Reachable := reachable_of_run .standard [13]
    [.edit 0 (.insertRun 2 11), .edit 0 (.eraseRun 3 9)] 0 (by decide +kernel)
  have scans : ∀ index, b.LinearScans index := bit_scans_exact reachable
  have ahead : b.next? 3 = some 12 := by decide +kernel
  have back : b.prev? 11 = some 2 := by decide +kernel
  have far_back : b.prev? 1000 = some 12 := by decide +kernel
  have before : b.prev? 1 = none := by decide +kernel
  have full : b.nextGap? 12 = none := by decide +kernel
  exact ⟨ahead, ((scans 3).next.some_iff 12).mp ahead, by decide +kernel,
    back, ((scans 11).prev.some_iff 2).mp back, far_back, ((scans 1000).prev.some_iff 12).mp far_back,
    before, (scans 1).prev.none_iff.mp before, full, (scans 12).gap.none_iff.mp full⟩

end SequenceTracking.PackedBits
