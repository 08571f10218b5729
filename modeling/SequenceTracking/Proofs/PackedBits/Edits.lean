import SequenceTracking.Proofs.PackedBits.Validity

/-!
What edits of runs leave, bit by bit. A run of set bits is taken as a whole or not at all, a run of cleared bits
is cut off at the capacity. Bits set one after the other are set as if at once.
-/
namespace SequenceTracking.PackedBits

variable {b after : PackedBits} {index count : Nat} {bits : Nat → Prop}

structure Leaves (b after : PackedBits) (bits : Nat → Prop) : Prop where
  valid : after.Valid
  capacity_eq : after.capacity = b.capacity
  contains_iff : ∀ i, after.contains i = true ↔ bits i

theorem insertRun_accepted_iff (b : PackedBits) (index count : Nat) :
    (b.insertRun index count).failure? = none ↔ count = 0 ∨ index + count ≤ b.capacity := by
  unfold insertRun
  split
  · rename_i nothing
    exact ⟨fun _ => .inl nothing, fun _ => rfl⟩
  · rename_i some_bit
    split
    · rename_i wide
      constructor
      · intro accepted
        cases accepted
      · intro fits
        omega
    · rename_i fits
      exact ⟨fun _ => .inr (Nat.le_of_not_lt fits), fun _ => rfl⟩

theorem insertRun_of_le (fits : index + count ≤ b.capacity) :
    b.insertRun index count = .done (b.writeRun index count true) := by
  unfold insertRun
  split
  · rename_i nothing
    simp [writeRun, nothing]
  · rw [if_neg (Nat.not_lt_of_le fits)]

theorem insertRun_leaves (valid : b.Valid) (accepted : count = 0 ∨ index + count ≤ b.capacity) :
    Leaves b (b.insertRun index count).state
      fun i => b.contains i = true ∨ index ≤ i ∧ i < index + count := by
  rcases accepted with nothing | fits
  · subst nothing
    refine ⟨valid, rfl, fun i => ?_⟩
    rw [or_iff_left (by omega)]
    rfl
  · rw [insertRun_of_le fits]
    refine ⟨writeRun_valid valid fits true, capacity_writeRun _ _ _ _, fun i => ?_⟩
    rw [Outcome.done, contains_writeRun valid.size fits]
    by_cases written : index ≤ i ∧ i < index + count
    · simp [written]
    · simp [written]

@[simp] theorem capacity_eraseRun (b : PackedBits) (index count : Nat) :
    (b.eraseRun index count).capacity = b.capacity := by
  unfold eraseRun
  split
  · exact capacity_writeRun _ _ _ _
  · rfl

theorem contains_eraseRun (sized : b.storage.size = Byte.needed b.capacity) (index count i : Nat) :
    (b.eraseRun index count).contains i = (b.contains i && !decide (index ≤ i ∧ i < index + count)) := by
  -- where a run is cut off at the capacity, there is nothing left to clear
  by_cases inside : i < b.capacity
  · unfold eraseRun
    split
    · have cut_off : index ≤ i ∧ i < index + min count (b.capacity - index) ↔
          index ≤ i ∧ i < index + count := by omega
      rw [contains_writeRun sized (by omega), if_congr cut_off rfl rfl]
      by_cases cleared : index ≤ i ∧ i < index + count
      · rw [if_pos cleared, decide_eq_true cleared, Bool.not_true, Bool.and_false]
      · rw [if_neg cleared, decide_eq_false cleared, Bool.not_false, Bool.and_true]
    · have outside : ¬ (index ≤ i ∧ i < index + count) := by omega
      rw [decide_eq_false outside, Bool.not_false, Bool.and_true]
  · have past : b.capacity ≤ i := Nat.le_of_not_lt inside
    rw [contains_of_le past, contains_of_le (b := b.eraseRun index count) (by rwa [capacity_eraseRun]),
      Bool.false_and]

theorem eraseRun_leaves (valid : b.Valid) (index count : Nat) :
    Leaves b (b.eraseRun index count)
      fun i => b.contains i = true ∧ ¬ (index ≤ i ∧ i < index + count) := by
  refine ⟨eraseRun_valid valid index count, capacity_eraseRun b index count, fun i => ?_⟩
  rw [contains_eraseRun valid.size, Bool.and_eq_true, Bool.not_eq_true', decide_eq_false_iff_not]

theorem fill_leaves (valid : b.Valid) : Leaves b b.fill (· < b.capacity) := by
  refine ⟨fill_valid valid, capacity_fill b, fun i => ?_⟩
  rw [contains_fill valid.size, decide_eq_true_eq]

/-! ### One bit after the other -/

def insertEach (b : PackedBits) : List Nat → Outcome PackedBits
  | [] => .done b
  | index :: rest =>
    let step := b.insert index
    if step.failure? = none then step.state.insertEach rest else step

theorem insertEach_leaves (valid : b.Valid) {items : List Nat} (inside : ∀ i ∈ items, i < b.capacity) :
    (b.insertEach items).failure? = none ∧
      Leaves b (b.insertEach items).state fun i => b.contains i = true ∨ i ∈ items := by
  -- by the items, each set in the bits that the earlier ones left
  induction items generalizing b with
  | nil =>
    refine ⟨rfl, valid, rfl, fun i => ?_⟩
    simp [insertEach, Outcome.done]
  | cons index rest ih =>
    have fits : index + 1 ≤ b.capacity := inside index List.mem_cons_self
    have accepted : (b.insert index).failure? = none := by
      rw [insert_eq_insertRun]
      exact (insertRun_accepted_iff b index 1).mpr (.inr fits)
    have step : Leaves b (b.insert index).state
        fun i => b.contains i = true ∨ index ≤ i ∧ i < index + 1 := by
      rw [insert_eq_insertRun]
      exact insertRun_leaves valid (.inr fits)
    -- the rest is set in the bits that the first step leaves, which are valid and as many
    obtain ⟨rest_accepted, run⟩ := ih step.valid fun i listed => by
      rw [step.capacity_eq]
      exact inside i (List.mem_cons_of_mem index listed)
    have unfolded : b.insertEach (index :: rest) = (b.insert index).state.insertEach rest := by
      rw [insertEach]
      exact if_pos accepted
    rw [unfolded]
    refine ⟨rest_accepted, run.valid, run.capacity_eq.trans step.capacity_eq, fun i => ?_⟩
    have single : index ≤ i ∧ i < index + 1 ↔ i = index := by omega
    rw [run.contains_iff, step.contains_iff, single, List.mem_cons, or_assoc]

end SequenceTracking.PackedBits
