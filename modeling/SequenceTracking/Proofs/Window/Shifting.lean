import SequenceTracking.Proofs.PairedRuns
import SequenceTracking.Proofs.Window.Alike
import SequenceTracking.Proofs.Window.Reachable

/-!
No sequence number is special. When the same constant is added to every number that a run is given, the bits
of every window and the places of its ends in storage stay as they were, every answer that is no sequence
number stays as it was, and every answer that is one is shifted by the constant. So where the numbers wrap
around makes no difference.
-/
namespace SequenceTracking

/-! ### Shifting numbers -/

def Space.shift (s : Space) (c seq : UInt32) : UInt32 := s.reduce (seq + c)

namespace Space

variable (s : Space) (a b c : UInt32) (n : Int)

theorem toNat_shift : (s.shift c a).toNat = (a.toNat + c.toNat) % s.size := by
  unfold shift
  rw [toNat_reduce, UInt32.toNat_add, Nat.mod_mod_of_dvd _ s.size_dvd]

theorem shift_reduce : s.shift c (s.reduce a) = s.shift c a := by
  apply UInt32.toNat_inj.mp
  rw [toNat_shift, toNat_shift, toNat_reduce, Nat.mod_add_mod]

theorem reduce_add : s.reduce (a + c) = s.shift c (s.reduce a) := (s.shift_reduce a c).symm

theorem shift_le : s.shift c a ≤ s.mask := s.reduce_le (a + c)

theorem distance_shift : s.distance (a + c) (s.shift c b) = s.distance a b := by
  unfold shift
  rw [distance_reduce_right]
  have difference : a + c - (b + c) = a - b := by grind
  unfold distance
  rw [difference]

theorem distance_shift_shift : s.distance (s.shift c a) (s.shift c b) = s.distance a b := by
  rw [← s.distance_shift a b c]
  exact s.distance_reduce_left (a + c) _

theorem advance_shift : s.advance (s.shift c a) n = s.shift c (s.advance a n) := by
  unfold shift
  rw [advance_reduce]
  have moved : a + c + UInt32.ofInt n = a + UInt32.ofInt n + c := by grind
  unfold advance
  rw [moved]
  exact (s.shift_reduce (a + UInt32.ofInt n) c).symm

end Space

def Placement.shift (s : Space) (c : UInt32) (p : Placement) : Placement :=
  { p with lowest := s.shift c p.lowest }

def Event.shift (s : Space) (c : UInt32) : Event → Event
  | .anchored seq count => .anchored (s.shift c seq) count
  | .refused seq count lowest span reason =>
    .refused (s.shift c seq) count (s.shift c lowest) span reason
  | .slidBack distance seq => .slidBack distance (s.shift c seq)
  | .emptied lowest => .emptied (s.shift c lowest)
  | .resized before after kept => .resized before after kept
  | .resizeFailed before after reason => .resizeFailed before after reason
  | .dumped lowest bits => .dumped (s.shift c lowest) bits

namespace Window

open Session

variable {w other fresh : Window} {p : Placement} {c : UInt32}

/-- The window with its lowest mark renamed, the bits and their places left alone. -/
def shift (c : UInt32) (w : Window) : Window :=
  { w with placement? := w.placement?.map (Placement.shift w.space c) }

def Edit.shift (c : UInt32) : Edit → Edit
  | .mark seq => .mark (seq + c)
  | .unmark seq => .unmark (seq + c)
  | .toggle seq => .toggle (seq + c)
  | .markRun seq count => .markRun (seq + c) count
  | .unmarkRun seq count => .unmarkRun (seq + c) count
  | .clear => .clear
  | .fill seq => .fill (seq + c)
  | .resize capacity => .resize capacity

def Step.shift (c : UInt32) (s : Step) : Step :=
  ⟨⟨s.state.shift c, s.failure?⟩, s.events.map (Event.shift s.state.space c)⟩

@[simp] theorem bits_shift (c : UInt32) (w : Window) : (w.shift c).bits = w.bits := rfl

@[simp] theorem space_shift (c : UInt32) (w : Window) : (w.shift c).space = w.space := rfl

@[simp] theorem capacity_shift (c : UInt32) (w : Window) : (w.shift c).capacity = w.capacity := rfl

@[simp] theorem shape_shift (c : UInt32) (w : Window) : (w.shift c).shape = w.shape := rfl

@[simp] theorem lowest_shift (s : Space) (c : UInt32) (p : Placement) :
    (p.shift s c).lowest = s.shift c p.lowest := rfl

@[simp] theorem extent_shift (s : Space) (c : UInt32) (w : Window) (p : Placement) :
    (w.shift c).extent (p.shift s c) = w.extent p := rfl

@[simp] theorem position_shift (s : Space) (c : UInt32) (p : Placement) (capacity offset : Nat) :
    (p.shift s c).position capacity offset = p.position capacity offset := rfl

@[simp] theorem offset_shift (s : Space) (c : UInt32) (p : Placement) (capacity position : Nat) :
    (p.shift s c).offset capacity position = p.offset capacity position := rfl

@[simp] theorem nextPosition?_shift (c : UInt32) (w : Window) (position : Nat) :
    (w.shift c).nextPosition? position = w.nextPosition? position := rfl

@[simp] theorem prevPosition?_shift (c : UInt32) (w : Window) (position : Nat) :
    (w.shift c).prevPosition? position = w.prevPosition? position := rfl

@[simp] theorem misfit?_shift (s : Space) (c : UInt32) (w : Window) (p : Placement) (lo hi : Int) :
    (w.shift c).misfit? (p.shift s c) lo hi = w.misfit? p lo hi := rfl

theorem placement_shift (c : UInt32) (w : Window) :
    (w.shift c).placement? = w.placement?.map (Placement.shift w.space c) := rfl

theorem placed_shift (c : UInt32) (placed : w.placement? = some p) :
    (w.shift c).placement? = some (p.shift w.space c) := by
  rw [placement_shift, placed]
  rfl

theorem shift_of_unplaced (c : UInt32) (unplaced : w.placement? = none) : w.shift c = w := by
  unfold shift
  rw [unplaced]
  cases w
  cases unplaced
  rfl

theorem Anchored.shift {extent : Nat} (anchored : w.Anchored p extent) (c : UInt32) :
    (w.shift c).Anchored (p.shift w.space c) extent :=
  { anchored with
    placed := placed_shift c anchored.placed
    lowest_le := w.space.shift_le p.lowest c }

theorem Valid.shift (valid : w.Valid) (c : UInt32) : (w.shift c).Valid := by
  cases placed : w.placement? with
  | none => rwa [shift_of_unplaced c placed]
  | some p =>
    have anchored := (valid.anchored placed).shift c
    exact anchored.valid ⟨valid.bits_valid, valid.capacity_pos, valid.capacity_le⟩

/-! ### Queries -/

theorem seqAt_shift (c : UInt32) (w : Window) (p : Placement) (offset : Nat) :
    (w.shift c).seqAt (p.shift w.space c) offset = w.space.shift c (w.seqAt p offset) :=
  w.space.advance_shift p.lowest c offset

theorem contains_shift (c : UInt32) (w : Window) (seq : UInt32) :
    (w.shift c).contains (seq + c) = w.contains seq := by
  unfold contains
  rw [placement_shift]
  cases w.placement? with
  | none => rfl
  | some p =>
    simp only [Option.map_some, lowest_shift, space_shift, Space.distance_shift, extent_shift,
      capacity_shift, bits_shift, position_shift]

theorem contains_shifted (c : UInt32) (w : Window) (seq : UInt32) :
    (w.shift c).contains (w.space.shift c seq) = w.contains seq := by
  -- Only the distance from the lowest mark counts, so the shifted number may be given reduced.
  rw [← contains_shift c w seq]
  exact (w.shift c).contains_reduce (seq + c)

theorem accepts_shift (c : UInt32) (w : Window) (seq : UInt32) :
    (w.shift c).accepts (seq + c) = w.accepts seq := by
  unfold accepts
  rw [placement_shift]
  cases w.placement? with
  | none => rfl
  | some p =>
    simp only [Option.map_some, lowest_shift, space_shift, Space.distance_shift, misfit?_shift]

theorem isOccupied_shift (c : UInt32) (w : Window) : (w.shift c).isOccupied = w.isOccupied := by
  unfold isOccupied
  rw [placement_shift, Option.isSome_map]

theorem span_shift (c : UInt32) (w : Window) : (w.shift c).span = w.span := by
  unfold span
  rw [placement_shift]
  cases w.placement? with
  | none => rfl
  | some p => rfl

theorem first?_shift (c : UInt32) (w : Window) :
    (w.shift c).first? = w.first?.map (w.space.shift c) := by
  unfold first?
  rw [placement_shift, Option.map_map, Option.map_map]
  rfl

theorem last?_shift (c : UInt32) (w : Window) :
    (w.shift c).last? = w.last?.map (w.space.shift c) := by
  unfold last?
  rw [placement_shift, Option.map_map, Option.map_map]
  congr 1
  funext p
  exact seqAt_shift c w p (w.extent p)

theorem scanned_shift (c : UInt32) (w : Window) (p : Placement) (d : Int) (past : Option UInt32)
    (scan : Nat → Option Nat) :
    (w.shift c).scanned (p.shift w.space c) d (past.map (w.space.shift c)) scan =
      (w.scanned p d past scan).map (w.space.shift c) := by
  unfold scanned
  simp only [extent_shift, capacity_shift, position_shift, offset_shift, seqAt_shift]
  split
  · rfl
  · rw [Option.map_map]
    rfl

theorem next?_shift (c : UInt32) (w : Window) (seq : UInt32) :
    (w.shift c).next? (seq + c) = (w.next? seq).map (w.space.shift c) := by
  cases placed : w.placement? with
  | none => simp [next?, placement_shift, placed]
  | some p =>
    rw [next?_of_placed placed, next?_of_placed (placed_shift c placed), lowest_shift, space_shift,
      Space.distance_shift, apply_ite (Option.map (w.space.shift c)), ← scanned_shift]
    rfl

theorem prev?_shift (c : UInt32) (w : Window) (seq : UInt32) :
    (w.shift c).prev? (seq + c) = (w.prev? seq).map (w.space.shift c) := by
  cases placed : w.placement? with
  | none => simp [prev?, placement_shift, placed]
  | some p =>
    rw [prev?_of_placed placed, prev?_of_placed (placed_shift c placed), lowest_shift, space_shift,
      Space.distance_shift, apply_ite (Option.map (w.space.shift c)), ← scanned_shift, ← last?_shift]
    rfl

theorem nextGap?_shift (c : UInt32) (w : Window) (seq : UInt32) :
    (w.shift c).nextGap? (seq + c) = (w.nextGap? seq).map (w.space.shift c) := by
  cases placed : w.placement? with
  | none => simp [nextGap?, placement_shift, placed, Space.reduce_add]
  | some p =>
    rw [nextGap?_of_placed placed, nextGap?_of_placed (placed_shift c placed), lowest_shift, space_shift,
      Space.distance_shift, Space.reduce_add, apply_ite (Option.map (w.space.shift c)), ← scanned_shift]
    rfl

theorem marks_shift (valid : w.Valid) (c : UInt32) :
    (w.shift c).marks = w.marks.map (w.space.shift c) := by
  cases placed : w.placement? with
  | none => rw [shift_of_unplaced c placed, marks_of_unplaced placed, List.map_nil]
  | some p =>
    have anchored := valid.anchored placed
    rw [marks_eq (valid.shift c) (anchored.shift c), marks_eq valid anchored, List.map_map]
    congr 1
    funext k
    exact seqAt_shift c w p k

theorem row_shift (c : UInt32) (w : Window) (limit : Nat) : (w.shift c).row limit = w.row limit := by
  cases placed : w.placement? with
  | none => rw [shift_of_unplaced c placed]
  | some p =>
    unfold row
    rw [first?_shift, first?, placed]
    apply List.map_congr_left
    intro k _
    exact (congrArg _ (w.space.advance_shift p.lowest c k)).trans (contains_shifted c w _)

theorem alike_shift_iff (valid : w.Valid) (other_valid : other.Valid) (c : UInt32) :
    Alike (w.shift c) (other.shift c) ↔ Alike w other := by
  constructor
  · intro alike
    refine ⟨valid, other_valid, alike.space_eq, alike.capacity_eq, fun seq => ?_⟩
    rw [← contains_shift c w, ← contains_shift c other, alike.contains_eq]
  · intro alike
    refine ⟨valid.shift c, other_valid.shift c, alike.space_eq, alike.capacity_eq, fun seq => ?_⟩
    rw [← UInt32.sub_add_cancel seq c, contains_shift, contains_shift, alike.contains_eq]

theorem sameMarks_shift (valid : w.Valid) (other_valid : other.Valid) (c : UInt32) :
    (w.shift c).sameMarks (other.shift c) = w.sameMarks other := by
  rw [Bool.eq_iff_iff, sameMarks_iff_alike (valid.shift c) (other_valid.shift c),
    sameMarks_iff_alike valid other_valid, alike_shift_iff valid other_valid]

/-! ### Changes -/

theorem slide_shift (c : UInt32) (w : Window) (p : Placement) (seq : UInt32) (lo hi : Int) :
    (w.shift c).slide (p.shift w.space c) (w.space.shift c seq) lo hi =
      (w.slide p seq lo hi).shift w.space c := by
  unfold slide
  simp only [extent_shift, capacity_shift]
  split
  · rfl
  · rfl

theorem extend_shift (c : UInt32) (w : Window) (p : Placement) (seq : UInt32) (count : Nat) :
    (w.shift c).extend (p.shift w.space c) (w.space.shift c seq) count =
      (w.extend p seq count).shift c := by
  unfold extend
  simp only [space_shift, lowest_shift, Space.distance_shift_shift, misfit?_shift, extent_shift, slide_shift]
  split
  · rfl
  · split
    · rfl
    · rfl

theorem markRun_shift (c : UInt32) (w : Window) (seq : UInt32) (count : Nat) :
    (w.shift c).markRun (seq + c) count = (w.markRun seq count).shift c := by
  unfold markRun
  simp only [capacity_shift, placement_shift, space_shift, Space.reduce_add]
  split
  · rfl
  split
  · rfl
  cases w.placement? with
  | none => rfl
  | some p => exact extend_shift c w p (w.space.reduce seq) count

theorem cut_shift (c : UInt32) (w : Window) (p : Placement) (lo hi : Nat) :
    (w.shift c).cut (p.shift w.space c) lo hi = (w.cut p lo hi).shift c := by
  have rest_eq : ({ w.shift c with
        bits := (w.shift c).write (p.shift w.space c) lo (hi - lo + 1) false } : Window) =
      ({ w with bits := w.write p lo (hi - lo + 1) false } : Window).shift c := rfl
  unfold cut
  simp only [rest_eq, extent_shift, position_shift, offset_shift, capacity_shift, seqAt_shift,
    nextPosition?_shift, prevPosition?_shift]
  split
  · rfl
  split
  · split
    · rfl
    · rfl
  split
  · split
    · rfl
    · rfl
  · rfl

theorem unmarkRun_shift (c : UInt32) (w : Window) (seq : UInt32) (count : Nat) :
    (w.shift c).unmarkRun (seq + c) count = (w.unmarkRun seq count).shift c := by
  unfold unmarkRun
  rw [placement_shift]
  cases w.placement? with
  | none => rfl
  | some p =>
    simp only [Option.map_some, space_shift, lowest_shift, Space.distance_shift, capacity_shift,
      extent_shift]
    split
    · rfl
    · exact cut_shift c w p _ _

theorem toggle_shift (c : UInt32) (w : Window) (seq : UInt32) :
    (w.shift c).toggle (seq + c) = (w.toggle seq).shift c := by
  unfold toggle
  rw [contains_shift]
  split
  · exact unmarkRun_shift c w seq 1
  · exact markRun_shift c w seq 1

theorem clear_shift (c : UInt32) (w : Window) : (w.shift c).clear = w.clear.shift c := rfl

theorem fill_shift (c : UInt32) (w : Window) (seq : UInt32) :
    (w.shift c).fill (seq + c) = (w.fill seq).shift c := by
  unfold fill
  rw [space_shift, Space.reduce_add]
  rfl

/-! ### Items one after the other -/

theorem Step.shift_andThen {s : Step} {f g : Window → Step}
    (same : (f s.state).state.space = s.state.space)
    (next : g (s.state.shift c) = (f s.state).shift c) :
    (s.shift c).andThen g = (s.andThen f).shift c := by
  unfold Step.andThen
  cases accepted : s.failure? with
  | some reason =>
    simp only [Step.shift, accepted]
  | none =>
    simp only [Step.shift, accepted, next, same, List.map_append]

theorem each_shift {f g : Window → UInt32 → Step} {s : Space}
    (orderly : ∀ v item, v.Valid → (f v item).Orderly v)
    (next : ∀ v item, v.space = s → g (v.shift c) (s.shift c item) = (f v item).shift c)
    (valid : w.Valid) (space_eq : w.space = s) (items : List UInt32) :
    Step.each (items.map (s.shift c)) g (w.shift c) = (Step.each items f w).shift c := by
  induction items generalizing w with
  | nil => rfl
  | cons item rest ih =>
    have first := orderly w item valid
    rw [List.map_cons, Step.each_cons, Step.each_cons, next w item space_eq]
    exact Step.shift_andThen (each_keeps orderly first.valid rest).2
      (ih first.valid (first.space_eq.trans space_eq))

theorem markRun_reduce (w : Window) (seq : UInt32) (count : Nat) :
    w.markRun (w.space.reduce seq) count = w.markRun seq count := by
  unfold markRun
  rw [Space.reduce_reduce]

theorem unmarkRun_reduce (w : Window) (seq : UInt32) (count : Nat) :
    w.unmarkRun (w.space.reduce seq) count = w.unmarkRun seq count := by
  unfold unmarkRun
  simp only [Space.distance_reduce_left]

theorem toggle_reduce (w : Window) (seq : UInt32) : w.toggle (w.space.reduce seq) = w.toggle seq := by
  unfold toggle
  rw [contains_reduce]
  unfold mark
  unfold unmark
  rw [markRun_reduce, unmarkRun_reduce]

theorem mark_shifted (c : UInt32) (w : Window) (seq : UInt32) :
    (w.shift c).mark (w.space.shift c seq) = (w.mark seq).shift c :=
  (markRun_reduce (w.shift c) (seq + c) 1).trans (markRun_shift c w seq 1)

theorem unmarkRun_shifted (c : UInt32) (w : Window) (seq : UInt32) (count : Nat) :
    (w.shift c).unmarkRun (w.space.shift c seq) count = (w.unmarkRun seq count).shift c :=
  (unmarkRun_reduce (w.shift c) (seq + c) count).trans (unmarkRun_shift c w seq count)

theorem toggle_shifted (c : UInt32) (w : Window) (seq : UInt32) :
    (w.shift c).toggle (w.space.shift c seq) = (w.toggle seq).shift c :=
  (toggle_reduce (w.shift c) (seq + c)).trans (toggle_shift c w seq)

theorem each_mark_shift (valid : w.Valid) (items : List UInt32) (c : UInt32) :
    Step.each (items.map (w.space.shift c)) mark (w.shift c) =
      (Step.each items mark w).shift c :=
  each_shift (fun _ seq valid => mark_orderly valid seq)
    (fun v seq same => same ▸ mark_shifted c v seq) valid rfl items

theorem each_toggle_shift (valid : w.Valid) (items : List UInt32) (c : UInt32) :
    Step.each (items.map (w.space.shift c)) toggle (w.shift c) =
      (Step.each items toggle w).shift c :=
  each_shift (fun _ seq valid => toggle_orderly valid seq)
    (fun v seq same => same ▸ toggle_shifted c v seq) valid rfl items

/-! ### Merges -/

theorem withinSpace_shift {s t : Step} (step : w.space = other.space → t = s.shift c) :
    (w.shift c).withinSpace (other.shift c) t = (w.withinSpace other s).shift c := by
  unfold withinSpace
  rw [space_shift, space_shift]
  split
  · rename_i same
    exact step same
  · rfl

theorem spanMisfit?_shift (c : UInt32) (w : Window) (first : UInt32) (extent : Nat) :
    (w.shift c).spanMisfit? (w.space.shift c first) extent = w.spanMisfit? first extent := by
  unfold spanMisfit?
  rw [placement_shift]
  cases w.placement? with
  | none => rfl
  | some p =>
    simp only [Option.map_some, space_shift, lowest_shift, Space.distance_shift_shift, misfit?_shift]

theorem assign_shift (valid : w.Valid) (other_valid : other.Valid) (c : UInt32) :
    (w.shift c).assign (other.shift c) = (w.assign other).shift c := by
  unfold assign
  apply withinSpace_shift
  intro same
  rw [span_shift, capacity_shift, marks_shift other_valid, clear_shift, ← same]
  split
  · rfl
  · exact each_mark_shift (clear_leaves valid).valid other.marks c

theorem union_shift (valid : w.Valid) (other_valid : other.Valid) (c : UInt32) :
    (w.shift c).union (other.shift c) = (w.union other).shift c := by
  unfold union
  apply withinSpace_shift
  intro same
  rw [first?_shift, span_shift, marks_shift other_valid, isOccupied_shift, assign_shift valid other_valid,
    ← same]
  cases other.first? with
  | none => rfl
  | some first =>
    simp only [Option.map_some, spanMisfit?_shift]
    split
    · split
      · rfl
      · exact each_mark_shift valid other.marks c
    · rfl

theorem symmDiff_shift (valid : w.Valid) (other_valid : other.Valid) (c : UInt32) :
    (w.shift c).symmDiff (other.shift c) = (w.symmDiff other).shift c := by
  unfold symmDiff
  apply withinSpace_shift
  intro same
  rw [first?_shift, span_shift, marks_shift other_valid, ← same]
  cases other.first? with
  | none => rfl
  | some first =>
    simp only [Option.map_some, spanMisfit?_shift]
    split
    · rfl
    · exact each_toggle_shift valid other.marks c

theorem spanned_shift (c : UInt32) (w : Window) :
    (w.shift c).spanned = w.spanned.map (w.space.shift c) := by
  unfold spanned
  rw [first?_shift, span_shift]
  cases w.first? with
  | none => rfl
  | some first =>
    rw [Option.map_some, List.map_map]
    apply List.map_congr_left
    intro k _
    exact w.space.advance_shift first c k

theorem unmarkWhere_shift (valid : w.Valid) {drop drop' : UInt32 → Bool}
    (same : ∀ seq, drop' (w.space.shift c seq) = drop seq) :
    (w.shift c).unmarkWhere drop' = (w.unmarkWhere drop).shift c := by
  unfold unmarkWhere
  rw [spanned_shift]
  refine each_shift ?_ ?_ valid rfl w.spanned
  · intro v seq v_valid
    exact unmarkIf_orderly v_valid seq _
  · intro v seq space_eq
    rw [same, ← space_eq, contains_shifted]
    split
    · exact unmarkRun_shifted c v seq 1
    · rfl

theorem taken_shift (valid : w.Valid) (c : UInt32) (drop : Bool → Bool) {s t : Step} (rest : t = s.shift c) :
    (w.shift c).withinSpace (other.shift c)
        (if (other.shift c).isOccupied then
          (w.shift c).unmarkWhere fun seq => drop ((other.shift c).contains seq)
        else t) =
      (w.withinSpace other
        (if other.isOccupied then w.unmarkWhere fun seq => drop (other.contains seq) else s)).shift c := by
  apply withinSpace_shift
  intro same
  rw [isOccupied_shift]
  split
  · apply unmarkWhere_shift valid
    intro seq
    rw [same, contains_shifted]
  · exact rest

theorem subtract_shift (valid : w.Valid) (c : UInt32) :
    (w.shift c).subtract (other.shift c) = (w.subtract other).shift c :=
  taken_shift valid c id rfl

theorem intersect_shift (valid : w.Valid) (c : UInt32) :
    (w.shift c).intersect (other.shift c) = (w.intersect other).shift c :=
  taken_shift valid c not rfl

/-- The window in which the numbers are gathered is empty at first, so it is shifted as it is. -/
theorem subtractFrom_shift (other_valid : other.Valid) (memory : Memory) (c : UInt32) :
    (w.shift c).subtractFrom memory (other.shift c) = (w.subtractFrom memory other).shift c := by
  unfold subtractFrom
  apply withinSpace_shift
  intro same
  rw [shape_shift]
  cases made : create memory w.shape with
  | error reason => rfl
  | ok fresh =>
    have new := create_new made
    have space_eq : fresh.space = w.space := Space.eq_of_mask new.mask_eq
    have filtered : (other.shift c).marks.filter (fun seq => !(w.shift c).contains seq) =
        (other.marks.filter fun seq => !w.contains seq).map (fresh.space.shift c) := by
      rw [marks_shift other_valid, List.filter_map, space_eq, ← same]
      congr 2
      funext seq
      exact congrArg not (contains_shifted c w seq)
    have gathered := each_mark_shift new.valid (other.marks.filter fun seq => !w.contains seq) c
    rw [shift_of_unplaced c new.unplaced] at gathered
    have built_space := (each_keeps (fun _ seq valid => mark_orderly valid seq) new.valid
      (other.marks.filter fun seq => !w.contains seq)).2
    simp only [filtered, gathered]
    generalize Step.each (other.marks.filter fun seq => !w.contains seq) mark fresh = built at built_space
    cases refusal : built.failure? with
    | none => simp only [Step.shift, refusal]
    | some reason => simp only [Step.shift, refusal, built_space, space_eq]

/-! ### Another capacity -/

theorem trim_shift (c : UInt32) (w : Window) (capacity : Nat) :
    (w.shift c).trim capacity = (w.trim capacity).shift c := by
  unfold trim
  rw [first?_shift]
  cases w.first? with
  | none => rfl
  | some first =>
    simp only [Option.map_some, capacity_shift, space_shift, Space.advance_shift]
    split
    · exact unmarkRun_shifted c w _ _
    · rfl

theorem resize_shift (valid : w.Valid) (memory : Memory) (capacity : Nat) (c : UInt32) :
    (w.shift c).resize memory capacity = (w.resize memory capacity).shift c := by
  unfold resize
  rw [shape_shift]
  cases made : create memory (w.shape.withCapacity capacity) with
  | error reason => rfl
  | ok fresh =>
    have new := create_new made
    have space_eq : fresh.space = w.space := Space.eq_of_mask new.mask_eq
    have trimmed := trim_leaves valid capacity
    have copied := assign_shift new.valid trimmed.valid c
    rw [shift_of_unplaced c new.unplaced] at copied
    have kept : (fresh.assign (w.trim capacity).state).state.space = (w.trim capacity).state.space :=
      (copied_leaves valid made).space_eq.trans (space_eq.trans trimmed.space_eq.symm)
    simp only [trim_shift, Step.shift, copied]
    generalize fresh.assign (w.trim capacity).state = copy at kept
    cases copy.failure? with
    | none =>
      simp only [kept, Outcome.done, List.map_append]
      rfl
    | some reason =>
      simp only [kept, Outcome.refused, List.map_append]
      rfl

/-! ### Every command -/

theorem edit_shift (valid : w.Valid) (memory : Memory) (change : Edit) (c : UInt32) :
    (w.shift c).edit memory (change.shift c) = (w.edit memory change).shift c := by
  cases change with
  | mark seq => exact markRun_shift c w seq 1
  | unmark seq => exact unmarkRun_shift c w seq 1
  | toggle seq => exact toggle_shift c w seq
  | markRun seq count => exact markRun_shift c w seq count
  | unmarkRun seq count => exact unmarkRun_shift c w seq count
  | clear => rfl
  | fill seq => exact congrArg Step.done (fill_shift c w seq)
  | resize capacity => exact resize_shift valid memory capacity c

theorem merge_shift (valid : w.Valid) (other_valid : other.Valid) (memory : Memory) (kind : Merge)
    (c : UInt32) :
    (w.shift c).merge memory (other.shift c) kind = (w.merge memory other kind).shift c := by
  cases kind with
  | clone => rfl
  | assign => exact assign_shift valid other_valid c
  | union => exact union_shift valid other_valid c
  | subtract => exact subtract_shift valid c
  | subtractFrom => exact subtractFrom_shift other_valid memory c
  | intersect => exact intersect_shift valid c
  | symmDiff => exact symmDiff_shift valid other_valid c

def Shifted (c : UInt32) (v w : Window) : Prop := v.Valid ∧ w = v.shift c

theorem shifted_respected (memory : Memory) (c : UInt32) :
    (machine memory).Respects (Edit.shift c) (Shifted c)
      (fun s t => s.state.Valid ∧ t = s.shift c) where
  edit := by
    rintro v _ ⟨valid, rfl⟩ change
    exact ⟨(edit_orderly valid memory change).valid, edit_shift valid memory change c⟩
  merge := by
    rintro v _ u _ ⟨valid, rfl⟩ ⟨other_valid, rfl⟩ kind
    exact ⟨merge_valid valid other_valid memory kind, merge_shift valid other_valid memory kind c⟩
  state := by
    rintro s _ ⟨valid, rfl⟩
    exact ⟨valid, rfl⟩

theorem opened_shifted (memory : Memory) (shapes : List Shape) (c : UInt32) :
    Paired (Shifted c) (opened memory shapes) (opened memory shapes) := by
  intro register
  cases found : (opened memory shapes).get? register with
  | none => exact .none
  | some w =>
    obtain ⟨_, _, made⟩ := opened_made memory shapes register w found
    have new := create_new made
    exact .some ⟨new.valid, (shift_of_unplaced c new.unplaced).symm⟩

/-- Every question is answered alike, with the numbers asked about and the numbers in the answers shifted.
    The bits are the same and lie at the same places. -/
structure ShiftedAnswers (c : UInt32) (v w : Window) : Prop where
  bits_eq : w.bits = v.bits
  shape_eq : w.shape = v.shape
  placement_eq : w.placement? = v.placement?.map fun p =>
    { p with lowest := v.space.shift c p.lowest }
  contains_eq : ∀ seq, w.contains (seq + c) = v.contains seq
  accepts_eq : ∀ seq, w.accepts (seq + c) = v.accepts seq
  occupied_eq : w.isOccupied = v.isOccupied
  count_eq : w.count = v.count
  span_eq : w.span = v.span
  dump_eq : w.dump = v.dump
  first_eq : w.first? = v.first?.map (v.space.shift c)
  last_eq : w.last? = v.last?.map (v.space.shift c)
  next_eq : ∀ seq, w.next? (seq + c) = (v.next? seq).map (v.space.shift c)
  prev_eq : ∀ seq, w.prev? (seq + c) = (v.prev? seq).map (v.space.shift c)
  nextGap_eq : ∀ seq, w.nextGap? (seq + c) = (v.nextGap? seq).map (v.space.shift c)
  marks_eq : w.marks = v.marks.map (v.space.shift c)

theorem Valid.shiftedAnswers (valid : w.Valid) (c : UInt32) : ShiftedAnswers c w (w.shift c) where
  bits_eq := rfl
  shape_eq := rfl
  placement_eq := rfl
  contains_eq := contains_shift c w
  accepts_eq := accepts_shift c w
  occupied_eq := isOccupied_shift c w
  count_eq := rfl
  span_eq := span_shift c w
  dump_eq := congrArg Dump.text (row_shift c w w.capacity)
  first_eq := first?_shift c w
  last_eq := last?_shift c w
  next_eq := next?_shift c w
  prev_eq := prev?_shift c w
  nextGap_eq := nextGap?_shift c w
  marks_eq := marks_shift valid c

theorem eq_map_of_forall₂ {α : Type} {f : α → α} {P : α → Prop} {first second : List (Option α)}
    (related : List.Forall₂ (Option.Rel fun x y => P x ∧ y = f x) first second) :
    second = first.map (Option.map f) := by
  induction related with
  | nil => rfl
  | cons head _ ih =>
    rw [List.map_cons, ih]
    cases head with
    | none => rfl
    | some same => rw [same.2, Option.map_some]

/-- Runs of the same commands with `c` added to every number have the same results, but for the numbers in
    them, and leave windows that differ in the number of the lowest mark only, whatever storage is granted at
    each command. Since a run may be cut anywhere, this is so at every step. -/
theorem wraparound_unobservable (memory : Memory) (shapes : List Shape) (c : UInt32)
    (commands : List (Memory × Command Edit)) :
    let start := opened memory shapes
    let moved := commands.map (Prod.map id (Command.map (Edit.shift c)))
    let first := start.runUnder machine commands
    let second := start.runUnder machine moved
    start.resultsUnder machine moved =
        (start.resultsUnder machine commands).map (Option.map (Step.shift c)) ∧
      Paired (ShiftedAnswers c) first second ∧
      ∀ j k, ((second.get? j).bind fun v => (second.get? k).map v.sameMarks) =
        (first.get? j).bind fun v => (first.get? k).map v.sameMarks := by
  intro start moved first second
  obtain ⟨results, registers⟩ :=
    (opened_shifted memory shapes c).runUnder (fun granting => shifted_respected granting c) commands
  refine ⟨eq_map_of_forall₂ results, registers.imp ?_, fun j k => ?_⟩
  · intro register v w _ _ related
    obtain ⟨valid, rfl⟩ := related
    exact valid.shiftedAnswers c
  · rcases registers.cases j with ⟨none_here, none_there⟩ | ⟨v, _, here, there, valid, rfl⟩
    · rw [show first.get? j = none from none_here, show second.get? j = none from none_there]
      rfl
    · rcases registers.cases k with ⟨none_read, none_other⟩ | ⟨u, _, read, other, other_valid, rfl⟩
      · rw [show first.get? j = some v from here, show second.get? j = _ from there,
          show first.get? k = none from none_read, show second.get? k = none from none_other]
        rfl
      · rw [show first.get? j = some v from here, show second.get? j = _ from there,
          show first.get? k = some u from read, show second.get? k = _ from other]
        exact congrArg some (sameMarks_shift valid other_valid c)

/-- Three numbers from 2 on, and the same three where they run over the end of the space. In between no storage
    is granted to either window for a greater capacity. -/
example :
    let commands : List (Memory × Command Edit) :=
      [(.standard, .edit 0 (.markRun 2 3)), (⟨fun _ => false⟩, .edit 0 (.resize 6)),
        (.standard, .edit 0 (.unmark 3))]
    let moved := commands.map (Prod.map id (Command.map (Edit.shift 0xFFFFFFFD)))
    let start := opened .standard [⟨4, 15⟩]
    let space : Space := ⟨15, by decide, by decide⟩
    (start.runUnder machine commands).get? 0 = some ⟨⟨4, #[0xA0], 0⟩, space, some ⟨0, 2, 2⟩⟩ ∧
      (start.runUnder machine moved).get? 0 = some ⟨⟨4, #[0xA0], 0⟩, space, some ⟨0, 2, 15⟩⟩ := by
  decide +kernel

end Window

end SequenceTracking
