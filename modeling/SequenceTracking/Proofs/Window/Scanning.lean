import SequenceTracking.Proofs.Window.Reachable

/-!
What the three scans of a window find, in terms of its marks alone. A scan goes through storage, but the mark
it stops at is the nearest one by the distance from the lowest mark, and a gap that it finds is a number that
can be marked without moving the lowest mark.
-/
namespace SequenceTracking.Window

open Search

variable {w : Window} {p : Placement} {extent : Nat}

/-! ### Marks by their distance -/

theorem Anchored.forall_marked_iff (anchored : w.Anchored p extent) (sound : w.Sound)
    (holds : Int → Prop) :
    (∀ x, w.contains x = true → holds (w.space.distance x p.lowest)) ↔
      ∀ k : Nat, k ≤ extent → w.atOffset p k = true → holds k := by
  have extent_lt := anchored.extent_lt
  constructor
  · intro all k near set
    rw [← contains_advance sound anchored (by omega)] at set
    rw [← sound.distance_advance p.lowest (show k < w.capacity by omega)]
    exact all _ set
  · intro all x marked
    obtain ⟨k, near, set, far⟩ := anchored.exists_distance sound marked
    rw [far]
    exact all k near set

def offsetsWhere (w : Window) (p : Placement) (extent : Nat) (admitted : Int → Prop) : Set Nat :=
  {k | k ≤ extent ∧ w.atOffset p k = true ∧ admitted k}

/-- The nearest mark sits at the nearest offset that is set, so no bit outside the span can stand for it. -/
theorem Anchored.nearest_iff (anchored : w.Anchored p extent) (sound : w.Sound) (admitted : Int → Prop)
    (near : Int → Int → Prop) (seq : UInt32) :
    (seq ≤ w.space.mask ∧ w.contains seq = true ∧ admitted (w.space.distance seq p.lowest) ∧
      ∀ x, w.contains x = true → admitted (w.space.distance x p.lowest) →
        near (w.space.distance seq p.lowest) (w.space.distance x p.lowest)) ↔
      ∃ k : Nat, (k ∈ w.offsetsWhere p extent admitted ∧
        ∀ j ∈ w.offsetsWhere p extent admitted, near k j) ∧ w.space.advance p.lowest k = seq := by
  have extent_lt := anchored.extent_lt
  constructor
  · intro given
    obtain ⟨reduced, marked, allowed, nearest⟩ := given
    obtain ⟨k, close, set, far⟩ := anchored.exists_distance sound marked
    rw [far] at allowed nearest
    have offsets := (anchored.forall_marked_iff sound fun n => admitted n → near k n).mp nearest
    refine ⟨k, ⟨⟨close, set, allowed⟩, fun j member => ?_⟩, ?_⟩
    · obtain ⟨close_j, set_j, allowed_j⟩ := member
      exact offsets j close_j set_j allowed_j
    · rw [← far, w.space.advance_distance, w.space.reduce_of_le reduced]
  · intro given
    obtain ⟨k, ⟨⟨close, set, allowed⟩, nearest⟩, rfl⟩ := given
    rw [sound.distance_advance p.lowest (show k < w.capacity by omega),
      contains_advance sound anchored (by omega)]
    refine ⟨w.space.advance_le _ _, set, allowed, ?_⟩
    apply (anchored.forall_marked_iff sound fun n => admitted n → near k n).mpr
    intro j close_j set_j allowed_j
    exact nearest j ⟨close_j, set_j, allowed_j⟩

/-- Of the marks no less than `d` places past `first`, this is the nearest. -/
structure LeastFrom (w : Window) (first : UInt32) (d : Int) (seq : UInt32) : Prop where
  reduced : seq ≤ w.space.mask
  marked : w.contains seq = true
  ahead : d ≤ w.space.distance seq first
  least : ∀ x, w.contains x = true → d ≤ w.space.distance x first →
    w.space.distance seq first ≤ w.space.distance x first

/-- Of the marks no more than `d` places past `first`, this is the furthest. -/
structure GreatestUpTo (w : Window) (first : UInt32) (d : Int) (seq : UInt32) : Prop where
  reduced : seq ≤ w.space.mask
  marked : w.contains seq = true
  within : w.space.distance seq first ≤ d
  greatest : ∀ x, w.contains x = true → w.space.distance x first ≤ d →
    w.space.distance x first ≤ w.space.distance seq first

theorem leastFrom_iff (sound : w.Sound) (anchored : w.Anchored p extent) {d : Int} (ahead : 0 ≤ d)
    (seq : UInt32) :
    w.LeastFrom p.lowest d seq ↔
      ∃ k : Nat, least? (w.atOffset p) d.toNat (extent + 1 - d.toNat) = some k ∧
        w.space.advance p.lowest k = seq := by
  have mem_iff : ∀ k, k ∈ w.offsetsWhere p extent (d ≤ ·) ↔
      d.toNat ≤ k ∧ k < d.toNat + (extent + 1 - d.toNat) ∧ w.atOffset p k = true := by
    intro k
    unfold offsetsWhere
    grind
  have nearest := anchored.nearest_iff sound (d ≤ ·) (· ≤ ·) seq
  refine Iff.trans ?_ (nearest.trans (exists_congr fun k => and_congr_left fun _ => ?_))
  · constructor
    · intro given
      exact ⟨given.reduced, given.marked, given.ahead, given.least⟩
    · intro given
      obtain ⟨reduced, marked, ahead, least⟩ := given
      exact ⟨reduced, marked, ahead, least⟩
  · rw [least?_eq_some_iff_isLeast mem_iff]
    simp only [Int.ofNat_le]
    rfl

theorem greatestUpTo_iff (sound : w.Sound) (anchored : w.Anchored p extent) {d : Int} (ahead : 0 ≤ d)
    (seq : UInt32) :
    w.GreatestUpTo p.lowest d seq ↔
      ∃ k : Nat, greatest? (w.atOffset p) 0 (min d.toNat extent + 1) = some k ∧
        w.space.advance p.lowest k = seq := by
  have mem_iff : ∀ k, k ∈ w.offsetsWhere p extent (· ≤ d) ↔
      0 ≤ k ∧ k < 0 + (min d.toNat extent + 1) ∧ w.atOffset p k = true := by
    intro k
    unfold offsetsWhere
    grind
  have nearest := anchored.nearest_iff sound (· ≤ d) (· ≥ ·) seq
  refine Iff.trans ?_ (nearest.trans (exists_congr fun k => and_congr_left fun _ => ?_))
  · constructor
    · intro given
      exact ⟨given.reduced, given.marked, given.within, given.greatest⟩
    · intro given
      obtain ⟨reduced, marked, within, greatest⟩ := given
      exact ⟨reduced, marked, within, greatest⟩
  · rw [greatest?_eq_some_iff_isGreatest mem_iff]
    simp only [ge_iff_le, Int.ofNat_le]
    rfl

/-! ### Scans for marks -/

theorem next?_eq_some_iff (valid : w.Valid) (anchored : w.Anchored p extent) {seq : UInt32}
    (ahead : 0 ≤ w.space.distance seq p.lowest) (x : UInt32) :
    w.next? seq = some x ↔ w.LeastFrom p.lowest (w.space.distance seq p.lowest) x := by
  rw [next?_eq valid.bits_valid anchored rfl, if_neg (by omega), Option.map_eq_some_iff,
    leastFrom_iff valid.sound anchored ahead]

theorem next?_eq_none_iff (valid : w.Valid) (anchored : w.Anchored p extent) {seq : UInt32}
    (ahead : 0 ≤ w.space.distance seq p.lowest) :
    w.next? seq = none ↔
      ∀ x, w.contains x = true → w.space.distance x p.lowest < w.space.distance seq p.lowest := by
  rw [next?_eq valid.bits_valid anchored rfl, if_neg (by omega), Option.map_eq_none_iff,
    least?_eq_none_iff, anchored.forall_marked_iff valid.sound (· < w.space.distance seq p.lowest)]
  constructor
  · intro clear k near set
    apply Int.lt_of_not_ge
    intro from_d
    simp [clear k (by omega) (by omega)] at set
  · intro behind k above below
    cases set : w.atOffset p k with
    | false => rfl
    | true =>
      have := behind k (by omega) set
      omega

theorem prev?_eq_some_iff (valid : w.Valid) (anchored : w.Anchored p extent) {seq : UInt32}
    (ahead : 0 ≤ w.space.distance seq p.lowest) (x : UInt32) :
    w.prev? seq = some x ↔ w.GreatestUpTo p.lowest (w.space.distance seq p.lowest) x := by
  rw [prev?_eq valid.bits_valid anchored rfl, if_neg (by omega), Option.map_eq_some_iff,
    greatestUpTo_iff valid.sound anchored ahead]

theorem prev?_ne_none (valid : w.Valid) (anchored : w.Anchored p extent) {seq : UInt32}
    (ahead : 0 ≤ w.space.distance seq p.lowest) : w.prev? seq ≠ none := by
  -- the lowest mark is always there to fall back on
  rw [prev?_eq valid.bits_valid anchored rfl, if_neg (by omega), Ne, Option.map_eq_none_iff,
    greatest?_eq_none_iff]
  intro clear
  have := clear 0 (Nat.le_refl _) (by omega)
  simp [anchored.first] at this

theorem prev?_past_span (anchored : w.Anchored p extent) {seq : UInt32}
    (past : (w.span : Int) ≤ w.space.distance seq p.lowest) : w.prev? seq = w.last? := by
  rw [anchored.span_eq] at past
  rw [prev?_of_placed anchored.placed, if_neg (by omega), anchored.scanned_past (by omega)]

structure MarkScans (w : Window) (first seq : UInt32) : Prop where
  behind : w.space.distance seq first < 0 → w.next? seq = some first ∧ w.prev? seq = none
  next_iff : 0 ≤ w.space.distance seq first → ∀ x,
    w.next? seq = some x ↔ w.LeastFrom first (w.space.distance seq first) x
  next_none_iff : 0 ≤ w.space.distance seq first → (w.next? seq = none ↔
    ∀ x, w.contains x = true → w.space.distance x first < w.space.distance seq first)
  prev_iff : 0 ≤ w.space.distance seq first → ∀ x,
    w.prev? seq = some x ↔ w.GreatestUpTo first (w.space.distance seq first) x
  prev_found : 0 ≤ w.space.distance seq first → w.prev? seq ≠ none
  prev_past : (w.span : Int) ≤ w.space.distance seq first → w.prev? seq = w.last?

theorem Anchored.markScans (valid : w.Valid) (anchored : w.Anchored p extent) (seq : UInt32) :
    w.MarkScans p.lowest seq where
  behind back := by
    rw [next?_eq valid.bits_valid anchored rfl, prev?_eq valid.bits_valid anchored rfl, if_pos back,
      if_pos back]
    exact ⟨rfl, rfl⟩
  next_iff ahead := next?_eq_some_iff valid anchored ahead
  next_none_iff ahead := next?_eq_none_iff valid anchored ahead
  prev_iff ahead := prev?_eq_some_iff valid anchored ahead
  prev_found ahead := prev?_ne_none valid anchored ahead
  prev_past past := prev?_past_span anchored past

theorem MarkScans.reduced {first seq x : UInt32} (scans : w.MarkScans first seq)
    (first_le : first ≤ w.space.mask) (found : w.next? seq = some x ∨ w.prev? seq = some x) :
    x ≤ w.space.mask := by
  by_cases ahead : 0 ≤ w.space.distance seq first
  · rcases found with next | prev
    · exact ((scans.next_iff ahead x).mp next).reduced
    · exact ((scans.prev_iff ahead x).mp prev).reduced
  · obtain ⟨next_eq, prev_eq⟩ := scans.behind (by omega)
    rcases found with next | prev
    · obtain rfl := Option.some.inj (next_eq.symm.trans next)
      exact first_le
    · simp [prev_eq] at prev

/-- The scans for marks find nothing in an empty window. In an occupied one they find the nearest mark from the
    number on, and up to it, by the distance from the lowest mark. What they find is reduced. -/
theorem mark_scans_exact (reachable : w.Reachable) (seq : UInt32) :
    (w.isOccupied = false → w.next? seq = none ∧ w.prev? seq = none) ∧
    (w.isOccupied = true → ∃ first, w.first? = some first ∧ w.MarkScans first seq) ∧
    ∀ x, w.next? seq = some x ∨ w.prev? seq = some x → x ≤ w.space.mask := by
  have valid := reachable.valid
  cases placed : w.placement? with
  | none => simp [isOccupied, next?, prev?, placed]
  | some p =>
    have anchored := valid.anchored placed
    have scans := anchored.markScans valid seq
    refine ⟨fun empty => ?_, fun _ => ⟨p.lowest, anchored.first?_eq, scans⟩,
      fun x found => scans.reduced anchored.lowest_le found⟩
    simp [isOccupied, placed] at empty

theorem mark_scans_exact_of_wrapped :
    let w : Window := ⟨⟨8, #[0x92], 0⟩, ⟨15, by decide, by decide⟩, some ⟨3, 0, 14⟩⟩
    w.next? 2 = some 3 ∧ w.LeastFrom 14 (w.space.distance 2 14) 3 ∧
      w.prev? 0 = some 14 ∧ w.GreatestUpTo 14 (w.space.distance 0 14) 14 ∧
      w.next? 6 = none ∧ w.prev? 6 = w.last? ∧ w.next? 7 = some 14 ∧ w.prev? 7 = none := by
  -- between the marks, half the space ahead of the lowest one, and one number further on
  intro w
  have reachable : w.Reachable := reachable_of_run .standard [⟨8, 15⟩]
    [.edit 0 (.mark 3), .edit 0 (.mark 1), .edit 0 (.mark 14)] 0 (by decide +kernel)
  have scans : ∀ seq, w.MarkScans 14 seq := by
    intro seq
    obtain ⟨first, first_eq, scans⟩ := (mark_scans_exact reachable seq).2.1 rfl
    cases first_eq
    exact scans
  have found : w.next? 2 = some 3 := by decide +kernel
  have back : w.prev? 0 = some 14 := by decide +kernel
  exact ⟨found, ((scans 2).next_iff (by decide) 3).mp found, back,
    ((scans 0).prev_iff (by decide) 14).mp back, by decide +kernel, (scans 6).prev_past (by decide),
    (scans 7).behind (by decide)⟩

/-! ### Scans for gaps -/

/-- `k` places past `first` lies the first number from `d` places past it on that is not marked. -/
structure FirstGap (w : Window) (first : UInt32) (d : Int) (k : Nat) : Prop where
  from_d : d ≤ k
  below : k < w.capacity
  unmarked : w.contains (w.space.advance first k) = false
  before : ∀ j : Nat, d ≤ j → j < k → w.contains (w.space.advance first j) = true

theorem firstGap_iff (sound : w.Sound) (anchored : w.Anchored p extent) {d : Int} (ahead : 0 ≤ d)
    (inside : d < w.capacity) (k : Nat) :
    w.FirstGap p.lowest d k ↔
      least? (fun j => !w.atOffset p j) d.toNat (w.capacity - d.toNat) = some k := by
  have bit : ∀ {j : Nat}, j < w.capacity → w.contains (w.space.advance p.lowest j) = w.atOffset p j :=
    fun j_lt => contains_advance sound anchored j_lt
  rw [least?_eq_some_iff]
  constructor
  · intro gap
    have below := gap.below
    have from_d := gap.from_d
    refine ⟨by omega, by omega, ?_, fun j above early => ?_⟩
    · rw [← bit below, gap.unmarked]
      rfl
    · rw [← bit (by omega), gap.before j (by omega) early]
      rfl
  · intro found
    obtain ⟨above, below, clear, before⟩ := found
    refine ⟨by omega, by omega, ?_, fun j from_d early => ?_⟩
    · rw [bit (by omega)]
      simpa using clear
    · rw [bit (by omega)]
      simpa using before j (by omega) early

theorem nextGap?_eq_some_iff (valid : w.Valid) (anchored : w.Anchored p extent) {seq : UInt32}
    (ahead : 0 ≤ w.space.distance seq p.lowest) (inside : w.space.distance seq p.lowest < w.capacity)
    (x : UInt32) :
    w.nextGap? seq = some x ↔ ∃ k, w.FirstGap p.lowest (w.space.distance seq p.lowest) k ∧
      w.space.advance p.lowest k = x := by
  rw [nextGap?_eq valid.bits_valid anchored rfl, if_neg (by omega), Option.map_eq_some_iff]
  simp only [firstGap_iff valid.sound anchored ahead inside]

theorem nextGap?_eq_none_iff (valid : w.Valid) (anchored : w.Anchored p extent) {seq : UInt32}
    (ahead : 0 ≤ w.space.distance seq p.lowest) (inside : w.space.distance seq p.lowest < w.capacity) :
    w.nextGap? seq = none ↔ ∀ k : Nat, w.space.distance seq p.lowest ≤ k → k < w.capacity →
      w.contains (w.space.advance p.lowest k) = true := by
  rw [nextGap?_eq valid.bits_valid anchored rfl, if_neg (by omega), Option.map_eq_none_iff,
    least?_eq_none_iff]
  constructor
  · intro full k from_d below
    rw [contains_advance valid.sound anchored below]
    simpa using full k (by omega) (by omega)
  · intro full k above below
    rw [← contains_advance valid.sound anchored (by omega), full k (by omega) (by omega)]
    rfl

structure GapScan (w : Window) (first seq : UInt32) : Prop where
  outside : w.space.distance seq first < 0 ∨ w.capacity ≤ w.space.distance seq first →
    w.nextGap? seq = none
  found_iff : 0 ≤ w.space.distance seq first → w.space.distance seq first < w.capacity → ∀ x,
    w.nextGap? seq = some x ↔ ∃ k, w.FirstGap first (w.space.distance seq first) k ∧
      x.toNat = (first.toNat + k) % w.space.size
  none_iff : 0 ≤ w.space.distance seq first → w.space.distance seq first < w.capacity →
    (w.nextGap? seq = none ↔ ∀ k : Nat, w.space.distance seq first ≤ k → k < w.capacity →
      w.contains (w.space.advance first k) = true)

theorem Anchored.gapScan (valid : w.Valid) (anchored : w.Anchored p extent) (seq : UInt32) :
    w.GapScan p.lowest seq where
  outside apart := by rw [nextGap?_eq valid.bits_valid anchored rfl, if_pos apart]
  found_iff ahead inside x := by
    rw [nextGap?_eq_some_iff valid anchored ahead inside]
    refine exists_congr fun k => and_congr_right fun _ => ?_
    rw [← Space.toNat_advance_natCast, UInt32.toNat_inj, eq_comm]
  none_iff ahead inside := nextGap?_eq_none_iff valid anchored ahead inside

/-- The number is not marked and can be, without another lowest mark. -/
structure Free (w : Window) (seq : UInt32) : Prop where
  unmarked : w.contains seq = false
  accepts : w.accepts seq = true
  accepted : (w.mark seq).failure? = none
  first_kept : w.isOccupied = true → (w.mark seq).state.first? = w.first?

theorem free_of_unplaced (valid : w.Valid) (unplaced : w.placement? = none) (seq : UInt32) :
    w.Free seq := by
  have fits : w.Fits seq 1 :=
    (fits_iff_of_unplaced valid.sound unplaced seq 1).mpr valid.capacity_pos
  refine ⟨contains_of_unplaced unplaced seq, (accepts_iff valid seq).mpr fits,
    ((mark_decides valid seq).leaves fits).accepted, fun occupied => ?_⟩
  simp [isOccupied, unplaced] at occupied

theorem Anchored.free (valid : w.Valid) (anchored : w.Anchored p extent) {k : Nat}
    (inside : k < w.capacity) (unmarked : w.contains (w.space.advance p.lowest k) = false) :
    w.Free (w.space.advance p.lowest k) := by
  have extent_lt := anchored.extent_lt
  have far := valid.sound.distance_advance p.lowest inside
  have fits : w.Fits (w.space.advance p.lowest k) 1 := by
    rw [fits_iff_mergedSpan anchored valid.sound Nat.one_pos far, mergedSpan]
    omega
  have accepted := ((mark_decides valid _).leaves fits).accepted
  refine ⟨unmarked, (accepts_iff valid _).mpr fits, accepted, fun _ => ?_⟩
  obtain ⟨stop, placed⟩ := markRun_ahead valid anchored.placed (by omega) accepted
  rw [first?, mark, placed, anchored.first?_eq]
  rfl

/-- The scan for gaps answers the number itself, reduced, in an empty window. In an occupied one it answers the
    first number from there on that is not marked, out of those that the capacity reaches from the lowest
    mark. What it finds can be marked, and the lowest mark stays the lowest. -/
theorem gap_scan_exact (reachable : w.Reachable) (seq : UInt32) :
    (w.isOccupied = false →
      (w.nextGap? seq).map UInt32.toNat = some (seq.toNat % w.space.size)) ∧
    (w.isOccupied = true → ∃ first, w.first? = some first ∧ w.GapScan first seq) ∧
    ∀ x, w.nextGap? seq = some x → w.Free x := by
  have valid := reachable.valid
  cases placed : w.placement? with
  | none =>
    refine ⟨fun _ => ?_, fun occupied => ?_, fun x _ => free_of_unplaced valid placed x⟩
    · simp [nextGap?, placed, Space.toNat_reduce]
    · simp [isOccupied, placed] at occupied
  | some p =>
    have anchored := valid.anchored placed
    refine ⟨fun empty => ?_, fun _ => ⟨p.lowest, anchored.first?_eq, anchored.gapScan valid seq⟩,
      fun x found => ?_⟩
    · simp [isOccupied, placed] at empty
    · by_cases reached : 0 ≤ w.space.distance seq p.lowest ∧ w.space.distance seq p.lowest < w.capacity
      · obtain ⟨k, gap, rfl⟩ := (nextGap?_eq_some_iff valid anchored reached.1 reached.2 x).mp found
        exact anchored.free valid gap.below gap.unmarked
      · rw [(anchored.gapScan valid seq).outside (by omega)] at found
        cases found

theorem gap_scan_exact_of_wrapped :
    let w : Window := ⟨⟨8, #[0xBF], 0⟩, ⟨15, by decide, by decide⟩, some ⟨6, 5, 14⟩⟩
    w.nextGap? 15 = some 1 ∧ (∃ k, w.FirstGap 14 (w.space.distance 15 14) k ∧ 1 = (14 + k) % 16) ∧
      w.Free 1 ∧ w.nextGap? 6 = none ∧ w.nextGap? 2 = none ∧
      ∀ k : Nat, w.space.distance 2 14 ≤ k → k < 8 → w.contains (w.space.advance 14 k) = true := by
  -- one gap, past the end of storage and of the space; beyond it the window is full
  intro w
  have reachable : w.Reachable := reachable_of_run .standard [⟨8, 15⟩]
    [.edit 0 (.markRun 0 6), .edit 0 (.unmark 1), .edit 0 (.markRun 14 2)] 0 (by decide +kernel)
  have scans : ∀ seq, w.GapScan 14 seq := by
    intro seq
    obtain ⟨first, first_eq, scans⟩ := (gap_scan_exact reachable seq).2.1 rfl
    cases first_eq
    exact scans
  have found : w.nextGap? 15 = some 1 := by decide +kernel
  have full : w.nextGap? 2 = none := by decide +kernel
  exact ⟨found, ((scans 15).found_iff (by decide) (by decide) 1).mp found,
    (gap_scan_exact reachable 15).2.2 1 found, (scans 6).outside (by decide), full,
    ((scans 2).none_iff (by decide) (by decide)).mp full⟩

end SequenceTracking.Window
