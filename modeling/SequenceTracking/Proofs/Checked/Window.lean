import SequenceTracking.Checked.Window
import SequenceTracking.Proofs.Checked.PackedBits
import SequenceTracking.Proofs.Window.Marks

/-!
Questions about a valid window never stop. The capacity is at most half of the space and so far below the
size of a word, which keeps every sum of places and every signed offset in range; and a question that scans
does so inside the span, where there is something to find.
-/
namespace SequenceTracking

theorem Space.half_le (s : Space) : s.half ≤ 2 ^ 31 := by
  have total := s.size_eq
  have below := Nat.le_of_dvd (by decide) s.size_dvd
  omega

namespace Checked

variable {w : Window} {p : Placement}

theorem wordLimit_eq : wordLimit = 2 ^ 64 := rfl

theorem signLimit_eq : signLimit = 2 ^ 63 := rfl

theorem capacity_le (sound : w.Sound) : w.capacity ≤ 2 ^ 31 :=
  Nat.le_trans sound.capacity_le w.space.half_le

theorem narrow (sound : w.Sound) : Narrow w.bits := by
  have short : w.bits.capacity ≤ 2 ^ 31 := capacity_le sound
  have limit := wordLimit_eq
  unfold Narrow
  rw [sound.bits_valid.size, Byte.needed, Byte.width]
  omega

/-! ### Places -/

theorem extent_ok (sound : w.Sound) (start_lt : p.start < w.capacity) (stop_lt : p.stop < w.capacity) :
    extent w p = .ok (w.extent p) := by
  have short := capacity_le sound
  have limit := wordLimit_eq
  unfold extent
  rw [add_ok (by omega), ok_bind, sub_ok (by omega), ok_bind, rem_ok (by omega)]
  rfl

theorem position_ok (sound : w.Sound) (start_lt : p.start < w.capacity) {k : Nat} (inside : k < w.capacity) :
    position w p k = .ok (p.position w.capacity k) := by
  have short := capacity_le sound
  have limit := wordLimit_eq
  unfold position
  rw [ensure_ok inside, ok_bind, add_ok (by omega), ok_bind, rem_ok (by omega)]
  rfl

theorem offset_ok (sound : w.Sound) (start_lt : p.start < w.capacity) {i : Nat} (inside : i < w.capacity) :
    offset w p i = .ok (p.offset w.capacity i) := by
  have short := capacity_le sound
  have limit := wordLimit_eq
  unfold offset
  rw [add_ok (by omega), ok_bind, sub_ok (by omega), ok_bind, rem_ok (by omega)]
  rfl

theorem offset_position_ok (sound : w.Sound) (start_lt : p.start < w.capacity) {k : Nat}
    (inside : k < w.capacity) : offset w p (p.position w.capacity k) = .ok k := by
  rw [offset_ok sound start_lt (p.position_lt start_lt k), Placement.offset_position start_lt inside]

theorem seqAt_eq (w : Window) (p : Placement) {k : Nat} (small : k < signLimit) :
    seqAt w p k = w.seqAt p k := by
  unfold seqAt
  rw [toSigned_of_lt small]
  rfl

theorem distance_ok (s : Space) (a b : UInt32) : distance s a b = .ok (s.distance a b) := by
  have limit := signLimit_eq
  have raw_lt := (s.reduce (a - b)).toNat_lt
  have mask_lt := s.mask.toNat_lt
  unfold distance
  unfold Space.distance
  simp only
  split
  · unfold addSigned
    unfold subSigned
    rw [signedWord_ok (by omega) (by omega), ok_bind, signedWord_ok (by omega) (by omega)]
  · rfl

theorem distance_bounds (s : Space) (a b : UInt32) :
    -(2 ^ 31 : Int) < s.distance a b ∧ s.distance a b ≤ 2 ^ 31 := by
  have above := s.distance_gt a b
  have below := s.distance_le a b
  have half_le := s.half_le
  omega

theorem toUnsigned_eq {d : Int} (ahead : 0 ≤ d) (small : d < signLimit) : toUnsigned d = d.toNat := by
  have limit := wordLimit_eq
  have sign := signLimit_eq
  exact toUnsigned_of_nonneg ahead (by omega)

def admitted (lo : Int) : Option Failure → Except Failure Int
  | some reason => .error reason
  | none => .ok (min lo 0)

theorem admission_ok (valid : w.Valid) (placed : w.placement? = some p) {lo hi : Int}
    (low : -(2 ^ 31 : Int) ≤ lo) (high : hi ≤ 2 ^ 33) :
    admission w p lo hi = .ok (admitted lo (w.misfit? p lo hi)) := by
  have short := capacity_le valid.sound
  have extent_lt := (valid.anchored placed).extent_lt
  have sign := signLimit_eq
  unfold admission
  unfold Window.misfit?
  rw [extent_ok valid.sound (valid.start_lt p placed) (valid.stop_lt p placed), ok_bind]
  simp only [toSigned_of_lt (show w.extent p < signLimit by omega),
    toSigned_of_lt (show w.capacity < signLimit by omega)]
  unfold subSigned
  unfold addSigned
  rw [signedWord_ok (by omega) (by omega), ok_bind, signedWord_ok (by omega) (by omega), ok_bind]
  split
  · rw [toUnsigned_eq (by omega) (by omega)]
    rfl
  · rfl

theorem write_ok (sound : w.Sound) (start_lt : p.start < w.capacity) {k count : Nat}
    (inside : k < w.capacity) (fits : k + count ≤ w.capacity) (value : Bool) :
    write w p k count value = .ok (w.write p k count value) := by
  obtain ⟨head, tail⟩ := Window.write_fits start_lt fits
  have place_lt := p.position_lt start_lt k
  have bits_narrow := narrow sound
  unfold write
  rw [ensure_ok (by omega), ok_bind, position_ok sound start_lt inside, ok_bind, sub_ok (by omega), ok_bind]
  simp only
  rw [writeRun_ok sound.bits_valid bits_narrow head, ok_bind, sub_ok (by omega), ok_bind]
  apply writeRun_ok (PackedBits.writeRun_valid sound.bits_valid head value)
  · unfold Narrow at bits_narrow ⊢
    rwa [PackedBits.size_writeRun]
  · rw [PackedBits.capacity_writeRun]
    exact tail

theorem nextPosition?_ok (sound : w.Sound) (position : Nat) :
    nextPosition? w.bits position = .ok (w.nextPosition? position) := by
  unfold nextPosition?
  unfold Window.nextPosition?
  rw [bitsNext?_ok sound.bits_valid (narrow sound), ok_bind]
  cases w.bits.next? position with
  | none => rfl
  | some found => rfl

theorem prevPosition?_ok (sound : w.Sound) (position : Nat) :
    prevPosition? w.bits position = .ok (w.prevPosition? position) := by
  unfold prevPosition?
  unfold Window.prevPosition?
  rw [bitsPrev?_ok sound.bits_valid (narrow sound), ok_bind]
  cases w.bits.prev? position with
  | none => exact bitsLast?_ok sound.bits_valid (narrow sound)
  | some found => rfl

/-! ### Questions -/

theorem contains_ok (valid : w.Valid) (seq : UInt32) : contains w seq = .ok (w.contains seq) := by
  have sign := signLimit_eq
  unfold contains
  unfold locate
  unfold Window.contains
  cases placed : w.placement? with
  | none => rfl
  | some p =>
    have anchored := valid.anchored placed
    have short := capacity_le valid.sound
    have extent_lt := anchored.extent_lt
    have bounds := distance_bounds w.space seq p.lowest
    simp only [distance_ok, ok_bind,
      extent_ok valid.sound (valid.start_lt p placed) (valid.stop_lt p placed)]
    by_cases behind : w.space.distance seq p.lowest < 0
    · rw [if_pos behind, decide_eq_false (by omega), Bool.false_and]
      rfl
    · rw [if_neg behind, toUnsigned_eq (by omega) (by omega)]
      by_cases near : (w.space.distance seq p.lowest).toNat ≤ w.extent p
      · rw [if_pos near, decide_eq_true (by omega), Bool.true_and, pure_eq_ok, ok_bind]
        simp only
        rw [position_ok valid.sound anchored.start_lt (by omega), ok_bind]
        exact testBit_ok valid.bits_valid.packed _
      · rw [if_neg near, decide_eq_false (by omega), Bool.false_and]
        rfl

theorem accepts_ok (valid : w.Valid) (seq : UInt32) : accepts w seq = .ok (w.accepts seq) := by
  unfold accepts
  unfold Window.accepts
  cases placed : w.placement? with
  | none => rfl
  | some p =>
    have bounds := distance_bounds w.space seq p.lowest
    simp only [distance_ok, ok_bind]
    rw [admission_ok valid placed (by omega) (by omega), ok_bind]
    cases w.misfit? p (w.space.distance seq p.lowest) (w.space.distance seq p.lowest) with
    | none => rfl
    | some reason => rfl

theorem span_ok (valid : w.Valid) : span w = .ok w.span := by
  unfold span
  unfold Window.span
  cases placed : w.placement? with
  | none => rfl
  | some p =>
    have short := capacity_le valid.sound
    have extent_lt := (valid.anchored placed).extent_lt
    have limit := wordLimit_eq
    simp only [extent_ok valid.sound (valid.start_lt p placed) (valid.stop_lt p placed), ok_bind]
    rw [add_ok (by omega)]

theorem last?_ok (valid : w.Valid) : last? w = .ok w.last? := by
  unfold last?
  unfold Window.last?
  cases placed : w.placement? with
  | none => rfl
  | some p =>
    have short := capacity_le valid.sound
    have extent_lt := (valid.anchored placed).extent_lt
    have sign := signLimit_eq
    simp only [extent_ok valid.sound (valid.start_lt p placed) (valid.stop_lt p placed), ok_bind]
    rw [seqAt_eq w p (by omega)]
    rfl

theorem seqFound_ok (sound : w.Sound) (start_lt : p.start < w.capacity) {found : Option Nat}
    (inside : ∀ i, found = some i → i < w.capacity) :
    seqFound w p found = .ok (found.map fun i => w.seqAt p (p.offset w.capacity i)) := by
  have short := capacity_le sound
  have sign := signLimit_eq
  unfold seqFound
  cases found with
  | none => rfl
  | some i =>
    have near := p.offset_lt start_lt i
    simp only [offset_ok sound start_lt (inside i rfl), ok_bind]
    rw [seqAt_eq w p (by omega)]
    rfl

theorem nextPosition?_lt (valid : w.bits.Valid) {position i : Nat}
    (found : w.nextPosition? position = some i) : i < w.capacity := by
  unfold Window.nextPosition? at found
  rw [PackedBits.next?_eq valid, PackedBits.first?_eq valid] at found
  rcases Option.or_eq_some_iff.mp found with scan | ⟨_, scan⟩
  · exact PackedBits.lt_of_contains (Search.least?_eq_some_iff.mp scan).2.2.1
  · exact PackedBits.lt_of_contains (Search.least?_eq_some_iff.mp scan).2.2.1

theorem prevPosition?_lt (valid : w.bits.Valid) {position i : Nat}
    (found : w.prevPosition? position = some i) : i < w.capacity := by
  unfold Window.prevPosition? at found
  rw [PackedBits.prev?_eq valid, PackedBits.last?_eq valid] at found
  rcases Option.or_eq_some_iff.mp found with scan | ⟨_, scan⟩
  · exact PackedBits.lt_of_contains (Search.greatest?_eq_some_iff.mp scan).2.2.1
  · exact PackedBits.lt_of_contains (Search.greatest?_eq_some_iff.mp scan).2.2.1

theorem scanned_ok (valid : w.Valid) (placed : w.placement? = some p) {d : Int} (ahead : 0 ≤ d)
    (small : d < signLimit) {past : Option UInt32} {answer : Checked (Option UInt32)}
    (answer_ok : answer = .ok past) {scan : Nat → Option Nat} {step : Nat → Checked (Option Nat)}
    (step_ok : ∀ position, step position = .ok (scan position))
    (scan_lt : ∀ {position i}, scan position = some i → i < w.capacity) :
    (if w.extent p < toUnsigned d then answer
      else do seqFound w p (← step (← position w p (toUnsigned d)))) =
      .ok (w.scanned p d past scan) := by
  have anchored := valid.anchored placed
  have extent_lt := anchored.extent_lt
  unfold Window.scanned
  rw [toUnsigned_eq ahead small]
  by_cases beyond : w.extent p < d.toNat
  · rw [if_pos beyond, if_pos (by omega), answer_ok]
  · rw [if_neg beyond, if_neg (by omega), position_ok valid.sound anchored.start_lt (by omega), ok_bind,
      step_ok, ok_bind]
    exact seqFound_ok valid.sound anchored.start_lt fun i found => scan_lt found

theorem next?_ok (valid : w.Valid) (seq : UInt32) : next? w seq = .ok (w.next? seq) := by
  have sign := signLimit_eq
  unfold next?
  cases placed : w.placement? with
  | none => simp [Window.next?, placed, pure_eq_ok]
  | some p =>
    have bounds := distance_bounds w.space seq p.lowest
    rw [Window.next?_of_placed placed]
    simp only [distance_ok, ok_bind,
      extent_ok valid.sound (valid.start_lt p placed) (valid.stop_lt p placed)]
    split
    · rfl
    · exact scanned_ok valid placed (by omega) (by omega) rfl (nextPosition?_ok valid.sound)
        (nextPosition?_lt valid.bits_valid)

theorem prev?_ok (valid : w.Valid) (seq : UInt32) : prev? w seq = .ok (w.prev? seq) := by
  have sign := signLimit_eq
  unfold prev?
  cases placed : w.placement? with
  | none => simp [Window.prev?, placed, pure_eq_ok]
  | some p =>
    have bounds := distance_bounds w.space seq p.lowest
    rw [Window.prev?_of_placed placed]
    simp only [distance_ok, ok_bind,
      extent_ok valid.sound (valid.start_lt p placed) (valid.stop_lt p placed)]
    split
    · rfl
    · exact scanned_ok valid placed (by omega) (by omega) (last?_ok valid) (prevPosition?_ok valid.sound)
        (prevPosition?_lt valid.bits_valid)

theorem bitsNextGap?_lt {b : PackedBits} {position i : Nat} (found : b.nextGap? position = some i) :
    i < b.capacity := by
  unfold PackedBits.nextGap? at found
  split at found
  · exact of_decide_eq_true (Option.filter_eq_some_iff.mp found).2
  · cases found

theorem nextGapPosition?_ok (sound : w.Sound) (p : Placement) (position : Nat) :
    nextGapPosition? w p position = .ok (w.nextGapPosition? p position) := by
  unfold nextGapPosition?
  unfold Window.nextGapPosition?
  rw [bitsNextGap?_ok sound.bits_valid (narrow sound), ok_bind,
    bitsNextGap?_ok sound.bits_valid (narrow sound), ok_bind]
  split
  · rfl
  · cases w.bits.nextGap? position with
    | none => rfl
    | some found => rfl

theorem nextGapPosition?_lt {p : Placement} {position i : Nat}
    (found : w.nextGapPosition? p position = some i) : i < w.capacity := by
  unfold Window.nextGapPosition? at found
  split at found
  · exact bitsNextGap?_lt (Option.filter_eq_some_iff.mp found).1
  · rcases Option.or_eq_some_iff.mp found with scan | ⟨_, scan⟩
    · exact bitsNextGap?_lt scan
    · exact bitsNextGap?_lt (Option.filter_eq_some_iff.mp scan).1

theorem nextGap?_ok (valid : w.Valid) (seq : UInt32) : nextGap? w seq = .ok (w.nextGap? seq) := by
  have sign := signLimit_eq
  unfold nextGap?
  cases placed : w.placement? with
  | none => simp [Window.nextGap?, placed, pure_eq_ok]
  | some p =>
    have bounds := distance_bounds w.space seq p.lowest
    rw [Window.nextGap?_of_placed placed]
    simp only [distance_ok, Space.distance_reduce_left, ok_bind,
      extent_ok valid.sound (valid.start_lt p placed) (valid.stop_lt p placed)]
    by_cases behind : w.space.distance seq p.lowest < 0
    · rw [if_pos (.inl behind), if_pos (.inl behind)]
      rfl
    by_cases far : w.capacity ≤ w.space.distance seq p.lowest
    · rw [toUnsigned_eq (by omega) (by omega), if_pos (by omega), if_pos (.inr far)]
      rfl
    · have reached : ¬ (w.space.distance seq p.lowest < 0 ∨
          w.capacity ≤ toUnsigned (w.space.distance seq p.lowest)) := by
        rw [toUnsigned_eq (by omega) (by omega)]
        omega
      rw [if_neg reached, if_neg (not_or.mpr ⟨behind, far⟩)]
      exact scanned_ok valid placed (by omega) (by omega) rfl (nextGapPosition?_ok valid.sound p)
        nextGapPosition?_lt

/-! ### All marks -/

theorem walk_ok {next : UInt32 → Option UInt32} {step : UInt32 → Checked (Option UInt32)}
    (step_ok : ∀ seq, step seq = .ok (next seq)) {limit : Nat} {start : Option UInt32}
    (ends : (Search.chain next (limit + 1) start).length ≤ limit) :
    walk step limit start = .ok (Search.chain next limit start) := by
  -- by the limit, which the chain does not outlast
  induction limit generalizing start with
  | zero =>
    cases start with
    | none => rfl
    | some seq => simp at ends
  | succ limit ih =>
    cases start with
    | none => rfl
    | some seq =>
      rw [Search.chain_succ_some, List.length_cons] at ends
      rw [Search.chain_succ_some]
      unfold walk
      rw [step_ok, ok_bind, ih (by omega), ok_bind]
      rfl

theorem marks_ok (valid : w.Valid) : marks w = .ok w.marks := by
  have step_ok : ∀ seq, (if some seq = w.last? then pure none
      else next? w (w.space.advance seq 1) : Checked (Option UInt32)) = .ok (w.onward? seq) := by
    intro seq
    unfold Window.onward?
    split
    · rfl
    · exact next?_ok valid _
  unfold marks
  rw [last?_ok valid, ok_bind]
  apply walk_ok step_ok
  rw [Window.walk_eq_marks valid (Nat.le_succ _)]
  exact Window.length_marks_le valid

theorem sameMarks_ok {other : Window} (valid : w.Valid) (other_valid : other.Valid) :
    sameMarks w other = .ok (w.sameMarks other) := by
  unfold sameMarks
  unfold Window.sameMarks
  by_cases same : w.shape = other.shape
  · rw [if_neg (fun apart => apart same), marks_ok valid, ok_bind, marks_ok other_valid, ok_bind,
      beq_iff_eq.mpr same, Bool.true_and]
    rfl
  · rw [if_pos same, beq_eq_false_iff_ne.mpr same, Bool.false_and]
    rfl

theorem mapM_ok {α β : Type} {f : α → Checked β} {g : α → β} {items : List α}
    (each_ok : ∀ item ∈ items, f item = .ok (g item)) : items.mapM f = .ok (items.map g) := by
  induction items with
  | nil => rfl
  | cons item rest ih =>
    rw [List.mapM_cons, each_ok item List.mem_cons_self, ok_bind,
      ih fun later listed => each_ok later (List.mem_cons_of_mem _ listed), ok_bind]
    rfl

theorem row_ok (valid : w.Valid) (limit : Nat) : row w limit = .ok (w.row limit) := by
  have short := capacity_le valid.sound
  have sign := signLimit_eq
  unfold row
  apply mapM_ok
  intro k listed
  have inside := List.mem_range.mp listed
  rw [toSigned_of_lt (by omega), contains_ok valid]

theorem dump_ok (valid : w.Valid) : dump w = .ok w.dump := by
  unfold dump
  rw [row_ok valid, ok_bind]
  rfl

theorem dumpEvent_ok (valid : w.Valid) (limit : Nat) : dumpEvent w limit = .ok (w.dumpEvent limit) := by
  unfold dumpEvent
  rw [row_ok valid, ok_bind]
  rfl

end Checked

end SequenceTracking
