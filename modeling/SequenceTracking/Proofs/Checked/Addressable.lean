import SequenceTracking.Proofs.Checked.PackedBits
import SequenceTracking.Proofs.PackedBits.Enumeration

/-!
Storage whose bits can be counted in a word. No store of 2 ^ 61 bytes can be had, which is said of the policies
that grant storage. It is all that packed bits need: whatever is done to them, the only bytes they come to are
bytes that were granted.
-/
namespace SequenceTracking

/-- The bits of all bytes that are ever granted at once can be counted in a word. -/
def Memory.Addressable (memory : Memory) : Prop :=
  ∀ bytes, memory.grants bytes = true → 8 * bytes < Checked.wordLimit

theorem Memory.standard_addressable : Memory.standard.Addressable := by
  intro bytes granted
  have below : bytes < 2 ^ 57 := of_decide_eq_true granted
  unfold Checked.wordLimit
  omega

namespace PackedBits

variable {b other : PackedBits}

theorem capacity_insertRun (b : PackedBits) (index count : Nat) :
    (b.insertRun index count).state.capacity = b.capacity := by
  unfold insertRun
  split
  · rfl
  split
  · rfl
  · exact capacity_writeRun _ _ _ _

theorem capacity_edit (b : PackedBits) (memory : Memory) {change : Edit}
    (no_recreate : ∀ capacity, change ≠ .recreate capacity) :
    (b.edit memory change).state.capacity = b.capacity := by
  have inserted : ∀ index, (b.insert index).state.capacity = b.capacity := by
    intro index
    rw [insert_eq_insertRun]
    exact capacity_insertRun b index 1
  have erased : ∀ index, (b.erase index).capacity = b.capacity := by
    intro index
    rw [erase_eq_eraseRun]
    exact capacity_eraseRun b index 1
  cases change with
  | insert index => exact inserted index
  | erase index => exact erased index
  | toggle index =>
    rw [edit, toggle]
    split
    · exact erased index
    · exact inserted index
  | insertRun index count => exact capacity_insertRun b index count
  | eraseRun index count => exact capacity_eraseRun b index count
  | clear => rfl
  | fill => exact capacity_fill b
  | recreate capacity => exact absurd rfl (no_recreate capacity)

theorem capacity_within {merged : PackedBits} (kept : merged.capacity = b.capacity) :
    (b.within other merged).state.capacity = b.capacity := by
  unfold within
  split
  · rfl
  · exact kept

theorem capacity_merge (b other : PackedBits) {kind : Merge} (no_clone : kind ≠ .clone) :
    (b.merge other kind).state.capacity = b.capacity := by
  cases kind with
  | clone => exact absurd rfl no_clone
  | assign => exact capacity_within rfl
  | union => exact capacity_within rfl
  | subtract => rfl
  | subtractFrom => exact capacity_within rfl
  | intersect => rfl
  | symmDiff =>
    rw [merge, symmDiff]
    split
    · exact capacity_within rfl
    · rfl

end PackedBits

namespace Checked

variable {b c other : PackedBits} {memory : Memory}

theorem narrow_of_capacity_eq (valid : b.Valid) (after : c.Valid) (capacity_eq : c.capacity = b.capacity)
    (narrow : Narrow b) : Narrow c := by
  unfold Narrow at narrow ⊢
  rwa [after.size, capacity_eq, ← valid.size]

theorem narrow_of_created (addressable : memory.Addressable) {capacity : Nat}
    (made : PackedBits.create memory capacity = .ok b) : Narrow b := by
  have size_eq := (PackedBits.create_valid made).1.size
  rw [(PackedBits.create_valid made).2.1] at size_eq
  unfold PackedBits.create at made
  split at made
  · rename_i granted
    unfold Narrow
    rw [size_eq]
    exact addressable _ granted
  · cases made

theorem edit_narrow (addressable : memory.Addressable) (valid : b.Valid) (narrow : Narrow b)
    (change : PackedBits.Edit) : Narrow (b.edit memory change).state := by
  cases change with
  | recreate capacity =>
    unfold PackedBits.edit
    unfold PackedBits.recreate
    simp only
    split
    · rename_i fresh made
      exact narrow_of_created addressable made
    · exact narrow
  | _ =>
    apply narrow_of_capacity_eq valid (PackedBits.edit_valid valid memory _) _ narrow
    exact b.capacity_edit memory (by simp)

theorem merge_narrow (valid : b.Valid) (operand : other.Valid) (narrow : Narrow b)
    (operand_narrow : Narrow other) (kind : Merge) : Narrow (b.merge other kind).state := by
  by_cases no_clone : kind = .clone
  · subst no_clone
    exact operand_narrow
  · exact narrow_of_capacity_eq valid (PackedBits.merge_valid valid operand kind)
      (b.capacity_merge other no_clone) narrow

theorem narrow_of_reachableUnder (reachable : b.ReachableUnder Memory.Addressable) : Narrow b := by
  obtain ⟨s, register, reached, found⟩ := reachable
  have all : s.All fun c => c.Valid ∧ Narrow c := by
    refine reached.keeps ?_ ?_ ?_
    · rintro c ⟨memory, capacity, addressable, made⟩
      exact ⟨(PackedBits.create_valid made).1, narrow_of_created addressable made⟩
    · rintro ⟨memory, addressable⟩ c change ⟨valid, narrow⟩
      exact ⟨PackedBits.edit_valid valid memory change, edit_narrow addressable valid narrow change⟩
    · rintro _ c d kind ⟨valid, narrow⟩ ⟨operand, operand_narrow⟩
      exact ⟨PackedBits.merge_valid valid operand kind,
        merge_narrow valid operand narrow operand_narrow kind⟩
  exact (all register b found).2

/-! ### All bits that fit -/

theorem insertEach_reachableUnder {allowed : Memory → Prop} (granting : allowed memory)
    (reachable : b.ReachableUnder allowed) (items : List Nat) :
    (b.insertEach items).state.ReachableUnder allowed := by
  induction items generalizing b with
  | nil => exact reachable
  | cons index rest ih =>
    have next := reachable.edit granting (.insert index)
    unfold PackedBits.insertEach
    simp only
    split
    · exact ih next
    · exact next

/-- Set one by one in new bits, the bits are the same. -/
theorem reachableUnder_of_narrow (valid : b.Valid) (narrow : Narrow b) :
    b.ReachableUnder Memory.Addressable := by
  let widest : Memory := ⟨fun bytes => decide (8 * bytes < wordLimit)⟩
  have addressable : widest.Addressable := fun _ granted => of_decide_eq_true granted
  have granted : widest.grants (Byte.needed b.capacity) = true := by
    rw [← valid.size]
    exact decide_eq_true narrow
  have made : PackedBits.create widest b.capacity = .ok (.empty b.capacity) := if_pos granted
  have fresh := PackedBits.ReachableUnder.of_created addressable made
  have filled := insertEach_reachableUnder addressable fresh b.toList
  obtain ⟨fresh_valid, capacity_eq, clear⟩ := PackedBits.create_valid made
  rwa [(PackedBits.replay_toList valid fresh_valid capacity_eq clear).2] at filled

theorem narrow_iff_reachableUnder (valid : b.Valid) :
    Narrow b ↔ b.ReachableUnder Memory.Addressable :=
  ⟨reachableUnder_of_narrow valid, narrow_of_reachableUnder⟩

end Checked

end SequenceTracking
