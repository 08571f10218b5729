import SequenceTracking.Proofs.PackedBits.Validity
import SequenceTracking.Window.Marking

/-!
The circular buffer under a window, addressed by offsets from the start of the placement. Positions and
offsets below the capacity correspond one to one; a run of offsets is written exactly, and the wrapping
scans find the nearest set offset in either direction.
-/
namespace SequenceTracking

namespace Placement

variable {p q : Placement} {c : Nat}

theorem mod_eq_wrap {x : Nat} (below : x < 2 * c) : x % c = if x < c then x else x - c := by
  split
  · rename_i inside
    exact Nat.mod_eq_of_lt inside
  · rename_i past
    rw [Nat.mod_eq_sub_mod (by omega), Nat.mod_eq_of_lt (by omega)]

theorem position_eq (start_lt : p.start < c) {k : Nat} (inside : k < c) :
    p.position c k = if p.start + k < c then p.start + k else p.start + k - c :=
  mod_eq_wrap (by omega)

theorem offset_eq (start_lt : p.start < c) {i : Nat} (inside : i < c) :
    p.offset c i = if p.start ≤ i then i - p.start else i + c - p.start := by
  unfold offset
  rw [mod_eq_wrap (by omega)]
  split <;> split <;> omega

theorem position_lt (start_lt : p.start < c) (k : Nat) : p.position c k < c :=
  Nat.mod_lt _ (by omega)

theorem offset_lt (start_lt : p.start < c) (i : Nat) : p.offset c i < c :=
  Nat.mod_lt _ (by omega)

theorem position_zero (start_lt : p.start < c) : p.position c 0 = p.start :=
  Nat.mod_eq_of_lt start_lt

theorem position_offset (start_lt : p.start < c) {i : Nat} (inside : i < c) :
    p.position c (p.offset c i) = i := by
  rw [position_eq start_lt (offset_lt start_lt i), offset_eq start_lt inside]
  split <;> split <;> omega

theorem offset_position (start_lt : p.start < c) {k : Nat} (inside : k < c) :
    p.offset c (p.position c k) = k := by
  rw [offset_eq start_lt (position_lt start_lt k), position_eq start_lt inside]
  split <;> split <;> omega

theorem position_shift (start_lt : p.start < c) {j k : Nat} (moved : q.start = p.position c j)
    (inside : j + k < c) : q.position c k = p.position c (j + k) := by
  have q_lt : q.start < c := moved ▸ position_lt start_lt j
  rw [position_eq q_lt (by omega), position_eq start_lt inside, moved,
    position_eq start_lt (by omega)]
  split <;> split <;> split <;> omega

theorem position_shift_wrap (start_lt : p.start < c) {j k : Nat} (moved : q.start = p.position c j)
    (j_lt : j < c) (k_lt : k < c) (past : c ≤ j + k) :
    q.position c k = p.position c (j + k - c) := by
  have q_lt : q.start < c := moved ▸ position_lt start_lt j
  rw [position_eq q_lt k_lt, position_eq start_lt (by omega), moved, position_eq start_lt j_lt]
  split <;> split <;> split <;> omega

end Placement

namespace Window

open Search

variable {w : Window} {p : Placement}

def atOffset (w : Window) (p : Placement) (k : Nat) : Bool :=
  w.bits.contains (p.position w.capacity k)

theorem atOffset_mod (w : Window) (p : Placement) (k : Nat) :
    w.atOffset p (k % w.capacity) = w.atOffset p k := by
  unfold atOffset
  unfold Placement.position
  rw [Nat.add_mod_mod]

/-- The part of `Valid` that does not speak of the placement. -/
structure Sound (w : Window) : Prop where
  bits_valid : w.bits.Valid
  capacity_pos : 0 < w.capacity
  capacity_le : w.capacity ≤ w.space.half

theorem Valid.sound (valid : w.Valid) : w.Sound :=
  ⟨valid.bits_valid, valid.capacity_pos, valid.capacity_le⟩

theorem contains_eq_atOffset (start_lt : p.start < w.capacity) {i : Nat} (inside : i < w.capacity) :
    w.bits.contains i = w.atOffset p (p.offset w.capacity i) := by
  unfold atOffset
  rw [Placement.position_offset start_lt inside]

theorem position_inj (start_lt : p.start < w.capacity) {j k : Nat} (j_lt : j < w.capacity)
    (k_lt : k < w.capacity) (same : p.position w.capacity j = p.position w.capacity k) : j = k := by
  rw [← Placement.offset_position start_lt j_lt, same, Placement.offset_position start_lt k_lt]

/-! ### Writing -/

theorem write_fits (start_lt : p.start < w.capacity) {offset count : Nat}
    (fits : offset + count ≤ w.capacity) :
    p.position w.capacity offset + min count (w.capacity - p.position w.capacity offset) ≤ w.capacity ∧
      0 + (count - min count (w.capacity - p.position w.capacity offset)) ≤ w.capacity := by
  have := p.position_lt start_lt offset
  omega

@[simp] theorem capacity_write (w : Window) (p : Placement) (offset count : Nat) (value : Bool) :
    (w.write p offset count value).capacity = w.capacity := by simp [write, capacity]

theorem write_valid (sound : w.Sound) (start_lt : p.start < w.capacity) {offset count : Nat}
    (fits : offset + count ≤ w.capacity) (value : Bool) : (w.write p offset count value).Valid := by
  obtain ⟨head, tail⟩ := write_fits start_lt fits
  apply PackedBits.writeRun_valid
  · exact PackedBits.writeRun_valid sound.bits_valid head value
  · rw [PackedBits.capacity_writeRun]
    exact tail

theorem contains_write (sound : w.Sound) (start_lt : p.start < w.capacity) {offset count k : Nat}
    (fits : offset + count ≤ w.capacity) (inside : k < w.capacity) (value : Bool) :
    (w.write p offset count value).contains (p.position w.capacity k) =
      if offset ≤ k ∧ k < offset + count then value else w.atOffset p k := by
  by_cases none_at_all : count = 0
  · subst none_at_all
    rw [if_neg (by omega)]
    simp [write, PackedBits.writeRun, atOffset]
  obtain ⟨head, tail⟩ := write_fits start_lt fits
  have first_valid := PackedBits.writeRun_valid sound.bits_valid head value
  unfold write
  rw [PackedBits.contains_writeRun first_valid.size
    (by rw [PackedBits.capacity_writeRun]; exact tail),
    PackedBits.contains_writeRun sound.bits_valid.size head, ← atOffset]
  have here := Placement.position_eq start_lt inside
  have there := Placement.position_eq start_lt (k := offset) (by omega)
  by_cases written : offset ≤ k ∧ k < offset + count
  · rw [if_pos written]
    split
    · rfl
    · rw [if_pos]
      split at here <;> split at there <;> omega
  · rw [if_neg written, if_neg, if_neg]
    · split at here <;> split at there <;> omega
    · split at here <;> split at there <;> omega

/-! ### Scanning -/

def ahead (c i j : Nat) : Nat := if j ≤ i then i - j else i + c - j

theorem ahead_position (start_lt : p.start < w.capacity) {j k : Nat} (j_lt : j < w.capacity)
    (k_lt : k < w.capacity) :
    ahead w.capacity (p.position w.capacity j) (p.position w.capacity k) = ahead w.capacity j k := by
  rw [ahead, ahead, Placement.position_eq start_lt j_lt, Placement.position_eq start_lt k_lt]
  split <;> split <;> split <;> split <;> omega

theorem nextPosition?_nearest (valid : w.bits.Valid) (position : Nat) {i : Nat}
    (hit : w.bits.contains i = true) :
    ∃ found, w.nextPosition? position = some found ∧ w.bits.contains found = true ∧
      ∀ j, w.bits.contains j = true →
        ahead w.capacity found position ≤ ahead w.capacity j position := by
  have inside : ∀ {j}, w.bits.contains j = true → j < w.bits.capacity := PackedBits.lt_of_contains
  have ahead_finds : Finds (· ≤ ·) {j | w.bits.contains j = true ∧ position ≤ j}
      (w.bits.next? position) := by
    rw [PackedBits.next?_eq valid]
    refine least?_finds fun j => ⟨fun member => ?_, fun found => ⟨found.2.2, found.1⟩⟩
    have := inside member.1
    exact ⟨member.2, by omega, member.1⟩
  have first_finds : Finds (· ≤ ·) {j | w.bits.contains j = true} w.bits.first? := by
    rw [PackedBits.first?_eq valid]
    exact least?_finds fun j => ⟨fun set => ⟨Nat.zero_le j, by have := inside set; omega, set⟩,
      fun found => found.2.2⟩
  obtain ⟨found, scan, set, nearest⟩ := ahead_finds.or first_finds hit
  refine ⟨found, scan, set, fun j set_j => ?_⟩
  have order := nearest j set_j
  have found_lt : found < w.capacity := inside set
  unfold ahead
  split <;> split <;> omega

theorem prevPosition?_nearest (valid : w.bits.Valid) (position : Nat) {i : Nat}
    (hit : w.bits.contains i = true) :
    ∃ found, w.prevPosition? position = some found ∧ w.bits.contains found = true ∧
      ∀ j, w.bits.contains j = true →
        ahead w.capacity position found ≤ ahead w.capacity position j := by
  have inside : ∀ {j}, w.bits.contains j = true → j < w.bits.capacity := PackedBits.lt_of_contains
  have back_finds : Finds (· ≥ ·) {j | w.bits.contains j = true ∧ j ≤ position}
      (w.bits.prev? position) := by
    rw [PackedBits.prev?_eq valid]
    refine greatest?_finds fun j => ⟨fun member => ?_, fun found => ⟨found.2.2, by omega⟩⟩
    have := inside member.1
    exact ⟨Nat.zero_le j, by have := member.2; omega, member.1⟩
  have last_finds : Finds (· ≥ ·) {j | w.bits.contains j = true} w.bits.last? := by
    rw [PackedBits.last?_eq valid]
    exact greatest?_finds fun j => ⟨fun set => ⟨Nat.zero_le j, by have := inside set; omega, set⟩,
      fun found => found.2.2⟩
  obtain ⟨found, scan, set, nearest⟩ := back_finds.or last_finds hit
  refine ⟨found, scan, set, fun j set_j => ?_⟩
  have order := nearest j set_j
  have j_lt : j < w.capacity := inside set_j
  unfold ahead
  split <;> split <;> omega

theorem exists_nearest_offset (start_lt : p.start < w.capacity) (apart : Nat → Nat → Nat)
    (turn : ∀ {i k}, i < w.capacity → k < w.capacity →
      apart (p.position w.capacity i) (p.position w.capacity k) = apart i k)
    {k found : Nat} (k_lt : k < w.capacity) (set : w.bits.contains found = true)
    (nearest : ∀ j, w.bits.contains j = true →
      apart found (p.position w.capacity k) ≤ apart j (p.position w.capacity k)) :
    ∃ j, j < w.capacity ∧ found = p.position w.capacity j ∧ w.atOffset p j = true ∧
      ∀ i, i < w.capacity → w.atOffset p i = true → apart j k ≤ apart i k := by
  have back := Placement.position_offset start_lt (PackedBits.lt_of_contains set)
  have j_lt := p.offset_lt start_lt found
  refine ⟨p.offset w.capacity found, j_lt, back.symm, ?_, fun i i_lt set_i => ?_⟩
  · rwa [← contains_eq_atOffset start_lt (PackedBits.lt_of_contains set)]
  · have near := nearest _ set_i
    rw [← back] at near
    rwa [turn j_lt k_lt, turn i_lt k_lt] at near

theorem nextPosition?_eq (valid : w.bits.Valid) (start_lt : p.start < w.capacity) {k j : Nat}
    (search : least? (w.atOffset p) k (w.capacity - k) = some j) :
    w.nextPosition? (p.position w.capacity k) = some (p.position w.capacity j) := by
  obtain ⟨from_k, below, set, before⟩ := least?_eq_some_iff.mp search
  obtain ⟨found, scan, set_found, nearest⟩ := nextPosition?_nearest valid (p.position w.capacity k) set
  obtain ⟨i, i_lt, rfl, set_i, order⟩ := exists_nearest_offset start_lt (ahead w.capacity)
    (ahead_position start_lt) (show k < w.capacity by omega) set_found nearest
  have reach := order j (by omega) set
  have past_k : k ≤ i ∧ i ≤ j := by
    rw [ahead, ahead, if_pos from_k] at reach
    split at reach <;> omega
  have same : i = j := by
    by_contra apart
    simp [before i past_k.1 (by omega)] at set_i
  rw [scan, same]

theorem prevPosition?_eq (valid : w.bits.Valid) (start_lt : p.start < w.capacity) {k j : Nat}
    (k_lt : k < w.capacity) (search : greatest? (w.atOffset p) 0 (k + 1) = some j) :
    w.prevPosition? (p.position w.capacity k) = some (p.position w.capacity j) := by
  obtain ⟨_, below, set, after⟩ := greatest?_eq_some_iff.mp search
  obtain ⟨found, scan, set_found, nearest⟩ :=
    prevPosition?_nearest valid (p.position w.capacity k) set
  obtain ⟨i, i_lt, rfl, set_i, order⟩ := exists_nearest_offset start_lt
    (fun i k => ahead w.capacity k i) (fun i_lt k_lt => ahead_position start_lt k_lt i_lt) k_lt set_found nearest
  have reach := order j (by omega) set
  have up_to_k : j ≤ i ∧ i ≤ k := by
    rw [ahead, ahead, if_pos (show j ≤ k by omega)] at reach
    split at reach <;> omega
  have same : i = j := by
    by_contra apart
    simp [after i (by omega) (by omega)] at set_i
  rw [scan, same]

end Window

end SequenceTracking
