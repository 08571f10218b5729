import SequenceTracking.Proofs.Window.Anchored
import SequenceTracking.Window.Query

/-!
What a placed window answers, as searches through its offsets. A query counts the distance from the
lowest mark; whatever lies behind it or past the span is answered without looking at the bits.
-/
namespace SequenceTracking.Window

open Search

variable {w : Window} {p : Placement} {extent : Nat}

theorem Anchored.first?_eq (anchored : w.Anchored p extent) : w.first? = some p.lowest := by
  unfold first?
  rw [anchored.placed]
  rfl

theorem Anchored.last?_eq (anchored : w.Anchored p extent) :
    w.last? = some (w.space.advance p.lowest extent) := by
  have same := anchored.extent_eq
  unfold last?
  rw [anchored.placed]
  simp only [Option.map_some, seqAt, same]

theorem first?_eq_none_iff (valid : w.Valid) : w.first? = none ↔ ∀ x, w.contains x = false := by
  cases placed : w.placement? with
  | none => simp [first?, placed, contains_of_unplaced placed]
  | some p =>
    have anchored := valid.anchored placed
    simp only [anchored.first?_eq, reduceCtorEq, false_iff, not_forall, Bool.not_eq_false]
    exact ⟨_, anchored.contains_first valid.sound⟩

theorem last?_eq_none_iff (valid : w.Valid) : w.last? = none ↔ ∀ x, w.contains x = false := by
  cases placed : w.placement? with
  | none => simp [last?, placed, contains_of_unplaced placed]
  | some p =>
    have anchored := valid.anchored placed
    simp only [anchored.last?_eq, reduceCtorEq, false_iff, not_forall, Bool.not_eq_false]
    exact ⟨_, anchored.contains_last valid.sound⟩

theorem Anchored.span_eq (anchored : w.Anchored p extent) : w.span = extent + 1 := by
  unfold span
  rw [anchored.placed]
  simp only [anchored.extent_eq]

theorem Valid.span_le (valid : w.Valid) : w.span ≤ w.capacity := by
  unfold span
  cases placed : w.placement? with
  | none => exact Nat.zero_le _
  | some p => exact (valid.anchored placed).extent_lt

theorem Valid.exists_place (valid : w.Valid) {seq : UInt32} (marked : w.contains seq = true) :
    ∃ (first : UInt32) (k : Nat), w.first? = some first ∧ k < w.span ∧
      w.space.reduce seq = w.space.advance first k ∧ w.space.distance seq first = k := by
  cases placed : w.placement? with
  | none => simp [contains_of_unplaced placed] at marked
  | some p =>
    have anchored := valid.anchored placed
    have short := valid.capacity_le
    have extent_lt := anchored.extent_lt
    obtain ⟨k, near, same⟩ := anchored.exists_offset valid.sound marked
    have inside : k < w.span := by
      rw [anchored.span_eq]
      omega
    exact ⟨p.lowest, k, anchored.first?_eq, inside, same,
      (w.space.distance_eq_iff (by omega) (by omega)).mpr same⟩

/-! ### Scans -/

/-- What a scan answers from `d` places past the lowest mark on: beyond the span `past`, and within it the number
    at the position where `scan` stops. -/
def scanned (w : Window) (p : Placement) (d : Int) (past : Option UInt32) (scan : Nat → Option Nat) :
    Option UInt32 :=
  if w.extent p < d then past
  else (scan (p.position w.capacity d.toNat)).map fun found => w.seqAt p (p.offset w.capacity found)

theorem next?_of_placed (placed : w.placement? = some p) (seq : UInt32) :
    w.next? seq =
      let d := w.space.distance seq p.lowest
      if d < 0 then some p.lowest else w.scanned p d none w.nextPosition? := by
  unfold next?
  rw [placed]
  rfl

theorem prev?_of_placed (placed : w.placement? = some p) (seq : UInt32) :
    w.prev? seq =
      let d := w.space.distance seq p.lowest
      if d < 0 then none else w.scanned p d w.last? w.prevPosition? := by
  unfold prev?
  rw [placed]
  rfl

theorem nextGap?_of_placed (placed : w.placement? = some p) (seq : UInt32) :
    w.nextGap? seq =
      let d := w.space.distance seq p.lowest
      if d < 0 ∨ w.capacity ≤ d then none
      else w.scanned p d (some (w.space.reduce seq)) (w.nextGapPosition? p) := by
  unfold nextGap?
  rw [placed]
  rfl

theorem Anchored.scanned_past (anchored : w.Anchored p extent) {d : Int} (beyond : extent < d)
    (past : Option UInt32) (scan : Nat → Option Nat) : w.scanned p d past scan = past := by
  unfold scanned
  rw [anchored.extent_eq, if_pos beyond]

theorem Anchored.scanned_within (anchored : w.Anchored p extent) {d : Int} (near : d ≤ extent)
    (past : Option UInt32) {scan : Nat → Option Nat} {search : Option Nat}
    (stops : scan (p.position w.capacity d.toNat) = search.map (p.position w.capacity))
    (inside : ∀ j, search = some j → j < w.capacity) :
    w.scanned p d past scan = search.map fun (k : Nat) => w.space.advance p.lowest k := by
  unfold scanned
  rw [anchored.extent_eq, if_neg (by omega), stops, Option.map_map]
  apply Option.map_congr
  intro j found
  rw [Function.comp_apply, Placement.offset_position anchored.start_lt (inside j found)]
  rfl

/-! ### Marks nearby -/

theorem next?_eq (valid : w.bits.Valid) (anchored : w.Anchored p extent) {seq : UInt32} {d : Int}
    (d_eq : w.space.distance seq p.lowest = d) :
    w.next? seq =
      if d < 0 then some p.lowest
      else (least? (w.atOffset p) d.toNat (extent + 1 - d.toNat)).map fun (k : Nat) =>
        w.space.advance p.lowest k := by
  have extent_lt := anchored.extent_lt
  rw [next?_of_placed anchored.placed, d_eq]
  by_cases behind : d < 0
  · rw [if_pos behind, if_pos behind]
  rw [if_neg behind, if_neg behind]
  by_cases past : extent < d
  · have none_left : extent + 1 - d.toNat = 0 := by omega
    rw [anchored.scanned_past past, none_left, least?]
    rfl
  · have whole : least? (w.atOffset p) d.toNat (w.capacity - d.toNat) =
        least? (w.atOffset p) d.toNat (extent + 1 - d.toNat) :=
      least?_shrink (by omega) fun k _ _ => anchored.beyond k (by omega) (by omega)
    obtain ⟨j, search⟩ := exists_least? (w.atOffset p) (show d.toNat ≤ extent by omega)
      (show extent < d.toNat + (extent + 1 - d.toNat) by omega) anchored.last
    apply anchored.scanned_within (by omega)
    · rw [search]
      exact nextPosition?_eq valid anchored.start_lt (whole.trans search)
    · intro k found
      have := (least?_eq_some_iff.mp found).2.1
      omega

theorem prev?_eq (valid : w.bits.Valid) (anchored : w.Anchored p extent) {seq : UInt32} {d : Int}
    (d_eq : w.space.distance seq p.lowest = d) :
    w.prev? seq =
      if d < 0 then none
      else (greatest? (w.atOffset p) 0 (min d.toNat extent + 1)).map fun (k : Nat) =>
        w.space.advance p.lowest k := by
  have extent_lt := anchored.extent_lt
  rw [prev?_of_placed anchored.placed, d_eq]
  by_cases behind : d < 0
  · rw [if_pos behind, if_pos behind]
  rw [if_neg behind, if_neg behind]
  by_cases past : extent < d
  · have search : greatest? (w.atOffset p) 0 (min d.toNat extent + 1) = some extent := by
      rw [greatest?_eq_some_iff]
      exact ⟨Nat.zero_le _, by omega, anchored.last, by omega⟩
    rw [anchored.scanned_past past, search, anchored.last?_eq]
    rfl
  · have up_to_d : min d.toNat extent = d.toNat := by omega
    obtain ⟨j, search⟩ := exists_greatest? (w.atOffset p) (Nat.le_refl 0)
      (show 0 < 0 + (d.toNat + 1) by omega) anchored.first
    rw [up_to_d]
    apply anchored.scanned_within (by omega)
    · rw [search]
      exact prevPosition?_eq valid anchored.start_lt (by omega) search
    · intro k found
      have := (greatest?_eq_some_iff.mp found).2.1
      omega

/-! ### Gaps -/

/-- Storage positions that follow one another are searched as the offsets that lie there. -/
theorem least?_positions {j start n : Nat}
    (place : ∀ i, i < n → p.position w.capacity (j + i) = start + i) :
    least? (fun i => !w.bits.contains i) start n =
      (least? (fun j => !w.atOffset p j) j n).map (p.position w.capacity) := by
  apply least?_reindex place
  intro i below
  unfold atOffset
  rw [place i below]

/-- The gap scan follows the offsets: it passes the end of storage only where the offsets do, and
    stops before it meets the lowest mark again. -/
theorem nextGapPosition?_eq (valid : w.bits.Valid) (start_lt : p.start < w.capacity) {k : Nat}
    (k_lt : k < w.capacity) :
    w.nextGapPosition? p (p.position w.capacity k) =
      (least? (fun j => !w.atOffset p j) k (w.capacity - k)).map (p.position w.capacity) := by
  have before_end : ∀ {j n}, p.start + j + n ≤ w.capacity →
      ∀ i, i < n → p.position w.capacity (j + i) = p.start + j + i := by
    intro j n fits i below
    rw [Placement.position_eq start_lt (by omega), if_pos (by omega), Nat.add_assoc]
  have past_end : ∀ {j n}, w.capacity ≤ p.start + j → p.start + j + n ≤ w.capacity + p.start →
      ∀ i, i < n → p.position w.capacity (j + i) = p.start + j - w.capacity + i := by
    intro j n past fits i below
    rw [Placement.position_eq start_lt (by omega), if_neg (by omega)]
    omega
  have position_k := Placement.position_eq start_lt k_lt
  have capacity_eq : w.bits.capacity = w.capacity := rfl
  unfold nextGapPosition?
  rw [PackedBits.nextGap?_eq valid, PackedBits.nextGap?_eq valid, capacity_eq,
    least?_filter_lt, least?_filter_lt]
  split at position_k
  · rename_i unwrapped
    have parts : w.capacity - k = (w.capacity - p.start - k) + p.start := by omega
    rw [position_k, if_neg (by omega), parts, least?_append, Option.map_or,
      ← least?_positions (before_end (by omega)), ← least?_positions (past_end (by omega) (by omega))]
    congr 2 <;> omega
  · rename_i wrapped
    rw [position_k, if_pos (by omega), ← least?_positions (past_end (by omega) (by omega))]
    congr 1
    omega

theorem nextGap?_eq (valid : w.bits.Valid) (anchored : w.Anchored p extent) {seq : UInt32} {d : Int}
    (d_eq : w.space.distance seq p.lowest = d) :
    w.nextGap? seq =
      if d < 0 ∨ w.capacity ≤ d then none
      else (least? (fun j => !w.atOffset p j) d.toNat (w.capacity - d.toNat)).map fun (k : Nat) =>
        w.space.advance p.lowest k := by
  have extent_lt := anchored.extent_lt
  rw [nextGap?_of_placed anchored.placed, d_eq]
  by_cases outside : d < 0 ∨ w.capacity ≤ d
  · rw [if_pos outside, if_pos outside]
  rw [if_neg outside, if_neg outside]
  by_cases past : extent < d
  · have search : least? (fun j => !w.atOffset p j) d.toNat (w.capacity - d.toNat) =
        some d.toNat := by
      rw [least?_eq_some_iff]
      refine ⟨Nat.le_refl _, by omega, ?_, by omega⟩
      rw [anchored.beyond _ (by omega) (by omega)]
      rfl
    rw [anchored.scanned_past past, search, Option.map_some, ← d_eq,
      Space.advance_toNat_distance _ (by omega)]
  · apply anchored.scanned_within (by omega)
    · exact nextGapPosition?_eq valid anchored.start_lt (by omega)
    · intro k found
      have := (least?_eq_some_iff.mp found).2.1
      omega

end SequenceTracking.Window
