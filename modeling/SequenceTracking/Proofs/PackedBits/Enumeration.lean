import SequenceTracking.Proofs.PackedBits.Canonical
import SequenceTracking.Proofs.PackedBits.Edits

/-!
The walk through the set bits. Each step scans on from the last bit it met, through bytes and by the lowest
index, and nothing but the end of the bits stops it; what it meets is every set bit, once and in order. The
weights of the bytes add up to as many, since unused bits weigh nothing, and setting the same bits anew makes
the same bits.
-/
namespace SequenceTracking.PackedBits

open Search

variable {b fresh : PackedBits}

def onward? (b : PackedBits) (index : Nat) : Option Nat := b.next? (index + 1)

theorem yields_setBits (valid : b.Valid) :
    Yields b.onward? b.first? ((List.range b.capacity).filter b.contains) := by
  have onward_eq : b.onward? = fun index => least? b.contains (index + 1) (b.capacity - (index + 1)) :=
    funext fun index => next?_eq valid (index + 1)
  rw [onward_eq, first?_eq valid, List.range_eq_range']
  exact yields_least? b.contains 0 b.capacity

theorem toList_eq (valid : b.Valid) : b.toList = (List.range b.capacity).filter b.contains := by
  apply (yields_setBits valid).chain_eq
  calc
    ((List.range b.capacity).filter b.contains).length ≤ (List.range b.capacity).length :=
      List.length_filter_le _ _
    _ = b.capacity := List.length_range

theorem mem_toList (valid : b.Valid) (i : Nat) : i ∈ b.toList ↔ i < b.capacity ∧ b.contains i = true := by
  rw [toList_eq valid, List.mem_filter, List.mem_range]

/-- The indices are those of the set bits, each once and from the lowest to the highest, and so many as the
    bytes weigh. -/
structure Listed (b : PackedBits) (indices : List Nat) : Prop where
  ascending : indices.Pairwise (· < ·)
  nodup : indices.Nodup
  mem_iff : ∀ i, i ∈ indices ↔ i < b.capacity ∧ b.contains i = true
  length_eq : indices.length = b.count
  count_eq : b.count = (b.storage.toList.map Byte.weight).sum

theorem toList_listed (valid : b.Valid) : b.Listed b.toList where
  ascending := by
    rw [toList_eq valid]
    exact List.pairwise_lt_range.sublist List.filter_sublist
  nodup := by
    rw [toList_eq valid]
    exact List.nodup_range.sublist List.filter_sublist
  mem_iff := mem_toList valid
  length_eq := by rw [toList_eq valid, PackedBits.count_eq valid, List.countP_eq_length_filter]
  count_eq := storage_count_eq_sum b.storage

/-- Setting all listed bits in clear ones of the same capacity restores the bits. -/
theorem replay_toList (valid : b.Valid) (fresh_valid : fresh.Valid) (capacity_eq : fresh.capacity = b.capacity)
    (clear : ∀ i, fresh.contains i = false) :
    (fresh.insertEach b.toList).failure? = none ∧ (fresh.insertEach b.toList).state = b := by
  have inside : ∀ i ∈ b.toList, i < fresh.capacity := by
    intro i listed
    rw [capacity_eq]
    exact ((mem_toList valid i).mp listed).1
  obtain ⟨accepted, leaves⟩ := insertEach_leaves fresh_valid inside
  refine ⟨accepted, leaves.valid.eq_of_contains valid (leaves.capacity_eq.trans capacity_eq) fun i => ?_⟩
  rw [Bool.eq_iff_iff, leaves.contains_iff, mem_toList valid, clear]
  constructor
  · intro given
    exact (given.resolve_left Bool.false_ne_true).2
  · intro hit
    exact .inr ⟨lt_of_contains hit, hit⟩

/-- The walk through the set bits of bits that a run leads to ends, and lists the set bits; set one by one in
    new bits of the same capacity, they are all accepted and make equal bits. -/
theorem listing_exact (reachable : b.Reachable) :
    (∀ indices, Yields b.onward? b.first? indices ↔ indices = b.toList) ∧ b.Listed b.toList ∧
      ∀ memory fresh, create memory b.capacity = .ok fresh →
        (fresh.insertEach b.toList).failure? = none ∧ (fresh.insertEach b.toList).state.sameBits b = true := by
  have valid := reachable.valid
  have walk : Yields b.onward? b.first? b.toList := by
    rw [toList_eq valid]
    exact yields_setBits valid
  refine ⟨fun indices => ⟨fun other => other.unique walk, ?_⟩, toList_listed valid, ?_⟩
  · rintro rfl
    exact walk
  · intro memory fresh made
    obtain ⟨fresh_valid, capacity_eq, clear⟩ := create_valid made
    obtain ⟨accepted, restored⟩ := replay_toList valid fresh_valid capacity_eq clear
    rw [restored]
    exact ⟨accepted, sameBits_refl b⟩

theorem listing_exact_of_sparse :
    let b : PackedBits := ⟨20, #[0x80, 0x48, 0x10], 0⟩
    Yields b.onward? b.first? [0, 9, 12, 19] ∧ b.Listed [0, 9, 12, 19] ∧
      create .standard 20 = .ok (empty 20) ∧ ((empty 20).insertEach [0, 9, 12, 19]).failure? = none ∧
      ((empty 20).insertEach [0, 9, 12, 19]).state.sameBits b = true := by
  -- two set bits in one byte, and the last one is the highest there is
  intro b
  have reachable : b.Reachable := reachable_of_run .standard [20]
    [.edit 0 (.insertRun 9 4), .edit 0 (.eraseRun 10 2), .edit 0 (.toggle 19), .edit 0 (.insert 0)] 0
    (by decide +kernel)
  obtain ⟨walk_iff, listed, replay⟩ := listing_exact reachable
  have list_eq : b.toList = [0, 9, 12, 19] := by decide +kernel
  rw [list_eq] at walk_iff listed replay
  have made : create .standard 20 = .ok (empty 20) := rfl
  obtain ⟨accepted, restored⟩ := replay .standard (empty 20) made
  exact ⟨(walk_iff _).mpr rfl, listed, made, accepted, restored⟩

end SequenceTracking.PackedBits
