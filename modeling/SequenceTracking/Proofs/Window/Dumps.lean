import SequenceTracking.PackedBits.Text
import SequenceTracking.Proofs.Dump
import SequenceTracking.Proofs.PackedBits.Canonical
import SequenceTracking.Proofs.Window.Alike
import SequenceTracking.Proofs.Window.Reachable

/-!
What can be told from a dump. The dump of a row of bits tells the row, so the dump of packed bits tells the bits;
the dump of a window tells where its marks lie from the lowest one on, and with the lowest mark tells them all,
since none lies further on than the capacity reaches. A dump that is cut short is the start of the whole dump.
-/
namespace SequenceTracking

namespace PackedBits

variable {a b : PackedBits}

theorem row_eq_iff (same : a.capacity = b.capacity) :
    a.row = b.row ↔ ∀ i, i < a.capacity → a.contains i = b.contains i := by
  unfold row
  rw [← same, List.map_inj_left]
  simp only [List.mem_range]

theorem sameBits_iff_dump_eq (left : a.Valid) (right : b.Valid) (same : a.capacity = b.capacity) :
    a.sameBits b = true ↔ a.dump = b.dump := by
  unfold dump
  rw [Dump.text_inj, row_eq_iff same]
  constructor
  · intro equal i _
    exact contains_of_sameBits equal i
  · intro below
    have everywhere : ∀ i, a.contains i = b.contains i := by
      intro i
      by_cases inside : i < a.capacity
      · exact below i inside
      · rw [contains_of_le (b := a) (by omega), contains_of_le (b := b) (by omega)]
    rw [left.eq_of_contains right same everywhere]
    exact sameBits_refl b

end PackedBits

namespace Window

variable {v w : Window} {p q : Placement} {extent : Nat}

/-! ### Rows -/

theorem row_eq_take (w : Window) (limit : Nat) : w.row limit = (w.row w.capacity).take limit := by
  unfold row
  simp only [← List.map_take, List.take_range, Nat.min_self]

theorem row_eq_iff (first_eq : v.first? = w.first?) (space_eq : v.space = w.space)
    (capacity_eq : v.capacity = w.capacity) :
    v.row v.capacity = w.row w.capacity ↔ ∀ k : Nat, k < v.capacity →
      v.contains (v.space.advance (v.first?.getD 0) k) = w.contains (v.space.advance (v.first?.getD 0) k) := by
  unfold row
  rw [← first_eq, ← space_eq, ← capacity_eq, List.map_inj_left]
  simp only [List.mem_range, Nat.min_self]

theorem Anchored.contains_iff (anchored : w.Anchored p extent) (sound : w.Sound) (seq : UInt32) :
    w.contains seq = true ↔ ∃ k : Nat, k < w.capacity ∧ w.space.reduce seq = w.space.advance p.lowest k ∧
      w.contains (w.space.advance p.lowest k) = true := by
  -- No mark lies further from the lowest one than the row of the window reaches.
  rw [contains_iff_markedFrom sound anchored]
  refine exists_congr fun k => and_congr_right fun inside => and_congr_right fun _ => ?_
  rw [contains_advance sound anchored inside]

theorem alike_of_row_eq (left : v.Valid) (right : w.Valid) (shape_eq : v.shape = w.shape)
    (placed : v.placement? = some p) (first_eq : v.first? = w.first?)
    (row_eq : v.row v.capacity = w.row w.capacity) : Alike v w := by
  have space_eq : v.space = w.space := Space.eq_of_mask (congrArg Shape.mask shape_eq)
  have capacity_eq : v.capacity = w.capacity := congrArg Shape.capacity shape_eq
  have anchored := left.anchored placed
  have other_first : w.first? = some p.lowest := first_eq.symm.trans anchored.first?_eq
  obtain ⟨q, other_placed, lowest_eq⟩ := Option.map_eq_some_iff.mp other_first
  have other_anchored := right.anchored other_placed
  rw [row_eq_iff first_eq space_eq capacity_eq, anchored.first?_eq, Option.getD_some] at row_eq
  refine ⟨left, right, space_eq, capacity_eq, fun seq => ?_⟩
  rw [Bool.eq_iff_iff, anchored.contains_iff left.sound, other_anchored.contains_iff right.sound, lowest_eq,
    ← space_eq, ← capacity_eq]
  refine exists_congr fun k => and_congr_right fun inside => ?_
  rw [row_eq k inside]

theorem sameMarks_iff_dump_eq (left : v.Valid) (right : w.Valid) (occupied : v.isOccupied = true)
    (shape_eq : v.shape = w.shape) :
    v.sameMarks w = true ↔ v.first? = w.first? ∧ v.dump = w.dump := by
  obtain ⟨p, placed⟩ := Option.isSome_iff_exists.mp occupied
  rw [sameMarks_iff_alike left right]
  constructor
  · intro alike
    exact ⟨alike.first_eq, alike.indistinguishable.dump_eq⟩
  · intro given
    obtain ⟨first_eq, dump_eq⟩ := given
    exact alike_of_row_eq left right shape_eq placed first_eq (Dump.text_inj.mp dump_eq)

/-! ### Dumps cut short -/

theorem dumpEvent_message (w : Window) (limit : Nat) :
    ∃ body, (w.dumpEvent limit).message = s!"window offset {w.first?.getD 0}:\n" ++ body ∧
      body.toList <+: w.dump.toList ∧ (w.capacity ≤ limit → body = w.dump) := by
  refine ⟨Dump.text (w.row limit), ?_, ?_, fun whole => ?_⟩
  · rfl
  · rw [dump, Dump.toList_text, Dump.toList_text, row_eq_take]
    exact Dump.chars_prefix (List.take_prefix _ _)
  · rw [dump, row_eq_take, List.take_of_length_le]
    simpa [row] using whole

/-- A dump shows its bits one by one, each at a place that depends on its index alone, and more bits only make it
    longer. So it tells the bits apart: bits of one capacity that runs lead to are equal exactly if their dumps are,
    and occupied windows of one shape exactly if their lowest marks and their dumps are. What a window dumps to a
    listener under any limit is the start of its whole dump. -/
theorem dump_exact :
    (∀ bits, Dump.Shows (Dump.text bits) bits) ∧ Function.Injective Dump.text ∧
    (∀ bits more, bits <+: more → (Dump.text bits).toList <+: (Dump.text more).toList) ∧
    (∀ a b : PackedBits, a.Reachable → b.Reachable → a.capacity = b.capacity →
      (a.sameBits b = true ↔ a.dump = b.dump)) ∧
    (∀ v w : Window, v.Reachable → w.Reachable → v.isOccupied = true → w.isOccupied = true →
      v.shape = w.shape → (v.sameMarks w = true ↔ v.first? = w.first? ∧ v.dump = w.dump)) ∧
    ∀ (w : Window) (limit : Nat), ∃ body,
      (w.dumpEvent limit).message = s!"window offset {w.first?.getD 0}:\n" ++ body ∧
        body.toList <+: w.dump.toList ∧ (w.capacity ≤ limit → body = w.dump) := by
  refine ⟨Dump.text_shows, Dump.text_injective, fun bits more starts => ?_, ?_, ?_, dumpEvent_message⟩
  · rw [Dump.toList_text, Dump.toList_text]
    exact Dump.chars_prefix starts
  · intro a b left right same
    exact PackedBits.sameBits_iff_dump_eq left.valid right.valid same
  · intro v w left right occupied _ shape_eq
    exact sameMarks_iff_dump_eq left.valid right.valid occupied shape_eq

theorem dump_exact_of_rotated :
    let v : Window := ⟨⟨8, #[0x92], 0⟩, ⟨15, by decide, by decide⟩, some ⟨3, 0, 14⟩⟩
    let w : Window := ⟨⟨8, #[0x94], 0⟩, ⟨15, by decide, by decide⟩, some ⟨0, 5, 14⟩⟩
    v.sameMarks w = true ∧ v.dump = w.dump ∧ v.dump = "10010100 " ∧ v.bits.dump ≠ w.bits.dump ∧
      (Dump.text (List.replicate 65 true)).length = 74 ∧
      ∃ body, (v.dumpEvent 4).message = s!"window offset {(14 : UInt32)}:\n" ++ body ∧
        body.toList <+: v.dump.toList := by
  -- one set of marks at different places in storage: one dump of the windows, two of the bits
  intro v w
  obtain ⟨shown, _, _, bits_equal_iff, equal_iff, cut_short⟩ := dump_exact
  have left : v.Reachable := reachable_of_run .standard [⟨8, 15⟩]
    [.edit 0 (.mark 3), .edit 0 (.mark 1), .edit 0 (.mark 14)] 0 (by decide +kernel)
  have right : w.Reachable := reachable_of_run .standard [⟨8, 15⟩]
    [.edit 0 (.mark 14), .edit 0 (.mark 1), .edit 0 (.mark 3)] 0 (by decide +kernel)
  have left_bits : v.bits.Reachable := PackedBits.reachable_of_run .standard [8]
    [.edit 0 (.insert 3), .edit 0 (.insert 6), .edit 0 (.insert 0)] 0 (by decide +kernel)
  have right_bits : w.bits.Reachable := PackedBits.reachable_of_run .standard [8]
    [.edit 0 (.insert 0), .edit 0 (.insert 3), .edit 0 (.insert 5)] 0 (by decide +kernel)
  have same : v.sameMarks w = true := by decide +kernel
  have dump_eq := ((equal_iff v w left right rfl rfl rfl).mp same).2
  obtain ⟨body, message_eq, starts, _⟩ := cut_short v 4
  refine ⟨same, dump_eq, by decide +kernel, fun bits_dump_eq => ?_, ?_, body, message_eq, starts⟩
  · have bits_same := (bits_equal_iff v.bits w.bits left_bits right_bits rfl).mpr bits_dump_eq
    exact absurd bits_same (by decide)
  · rw [(shown _).length_eq, List.length_replicate]

end Window

end SequenceTracking
