import SequenceTracking.Proofs.Window.Reachable

/-!
The walk through the marks of a window, from the lowest to the highest. It knows its last stop by the number
alone, and the numbers run on past the end of the space, so that it stops at all is the first thing to show.
What it meets is every mark, once and in order, and so many as there are bits set in storage.
-/
namespace SequenceTracking.Window

open Search

variable {w : Window} {p : Placement} {extent : Nat}

theorem yields_marks (valid : w.Valid) : Yields w.onward? w.first? w.marks := by
  have ended : chain w.onward? (w.span + 1) w.first? = chain w.onward? w.span w.first? := by
    rw [walk_eq_marks valid (Nat.le_succ _), walk_eq_marks valid (Nat.le_refl _)]
  exact yields_chain ended

structure Enumerated (w : Window) (items : List UInt32) : Prop where
  nodup : items.Nodup
  mem_iff : ∀ seq, seq ∈ items ↔ seq ≤ w.space.mask ∧ w.contains seq = true
  ascending : ∀ first, w.first? = some first →
    items.Pairwise fun a b => w.space.distance a first < w.space.distance b first
  head_eq : items.head? = w.first?
  last_eq : items.getLast? = w.last?
  first_none_iff : w.first? = none ↔ items = []
  last_none_iff : w.last? = none ↔ items = []
  unoccupied_iff : w.isOccupied = false ↔ items = []
  length_eq : items.length = w.count

theorem marks_enumerated (valid : w.Valid) : w.Enumerated w.marks where
  nodup := marks_nodup valid
  mem_iff seq := by rw [mem_marks valid, Space.reduce_eq_self_iff]
  ascending first found := by
    obtain ⟨p, placed, rfl⟩ := Option.map_eq_some_iff.mp found
    exact marks_ascending valid (valid.anchored placed)
  head_eq := head?_marks valid
  last_eq := getLast?_marks valid
  first_none_iff := by rw [← head?_marks valid, List.head?_eq_none_iff]
  last_none_iff := by rw [← getLast?_marks valid, List.getLast?_eq_none_iff]
  unoccupied_iff := by
    rw [← List.head?_eq_none_iff, head?_marks valid, first?, Option.map_eq_none_iff, isOccupied,
      Option.isSome_eq_false_iff, Option.isNone_iff_eq_none]
  length_eq := (count_eq valid).symm

/-- The number of marks is the number of bits set in storage; it fits in the span, and the span in the capacity.
    The span is how far the highest mark lies past the lowest, both counted. -/
structure Measured (w : Window) : Prop where
  count_eq : w.count = (w.bits.storage.toList.map Byte.weight).sum
  count_le_span : w.count ≤ w.span
  span_le : w.span ≤ w.capacity
  span_eq : ∀ first last, w.first? = some first → w.last? = some last →
    (w.span : Int) = w.space.distance last first + 1
  span_of_unoccupied : w.isOccupied = false → w.span = 0

theorem Anchored.span_eq_distance (anchored : w.Anchored p extent) (sound : w.Sound) {first last : UInt32}
    (lowest : w.first? = some first) (highest : w.last? = some last) :
    (w.span : Int) = w.space.distance last first + 1 := by
  obtain rfl := Option.some.inj (anchored.first?_eq.symm.trans lowest)
  obtain rfl := Option.some.inj (anchored.last?_eq.symm.trans highest)
  rw [anchored.span_eq, sound.distance_advance p.lowest anchored.extent_lt]
  rfl

theorem Valid.measured (valid : w.Valid) : w.Measured where
  count_eq := PackedBits.storage_count_eq_sum w.bits.storage
  count_le_span := by
    rw [Window.count_eq valid]
    exact length_marks_le valid
  span_le := valid.span_le
  span_eq first last lowest highest := by
    obtain ⟨p, placed, _⟩ := Option.map_eq_some_iff.mp lowest
    exact (valid.anchored placed).span_eq_distance valid.sound lowest highest
  span_of_unoccupied empty := by
    rw [isOccupied, Option.isSome_eq_false_iff, Option.isNone_iff_eq_none] at empty
    rw [span, empty]

/-- The walk through the marks of a window that a run leads to ends, and meets every mark once, in the order of
    the distance from the lowest one and up to the highest. The marks are counted by the bits in storage, and
    the span by its ends. -/
theorem enumeration_exact (reachable : w.Reachable) :
    (∀ items, Yields w.onward? w.first? items ↔ items = w.marks) ∧ w.Enumerated w.marks ∧ w.Measured := by
  have valid := reachable.valid
  have walk := yields_marks valid
  refine ⟨fun items => ⟨fun other => other.unique walk, ?_⟩, marks_enumerated valid, valid.measured⟩
  rintro rfl
  exact walk

theorem enumeration_exact_of_wrapped :
    let w : Window := ⟨⟨8, #[0x92], 0⟩, ⟨15, by decide, by decide⟩, some ⟨3, 0, 14⟩⟩
    Yields w.onward? w.first? [14, 1, 3] ∧ w.Enumerated [14, 1, 3] ∧ w.count = 3 ∧ w.span = 6 ∧ w.Measured := by
  -- the last mark is a lesser number than the first, and lies before it in storage
  intro w
  have reachable : w.Reachable := reachable_of_run .standard [⟨8, 15⟩]
    [.edit 0 (.mark 3), .edit 0 (.mark 1), .edit 0 (.mark 14)] 0 (by decide +kernel)
  obtain ⟨walk_iff, enumerated, measured⟩ := enumeration_exact reachable
  have listed : w.marks = [14, 1, 3] := by decide +kernel
  rw [listed] at walk_iff enumerated
  exact ⟨(walk_iff _).mpr rfl, enumerated, by decide +kernel, by decide +kernel, measured⟩

end SequenceTracking.Window
