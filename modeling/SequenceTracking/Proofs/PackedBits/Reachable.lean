import SequenceTracking.PackedBits.Machine
import SequenceTracking.Proofs.PackedBits.Merging
import SequenceTracking.Proofs.Runs

/-!
The packed bits that runs lead to. Every edit and every merge of valid bits leaves valid bits, whether it is
accepted or turned down and whatever the capacity of the operand, so the storage, its unused bits and the
lowest index are exact along every run.
-/
namespace SequenceTracking.PackedBits

open Session

variable {b : PackedBits}

theorem edit_valid (valid : b.Valid) (memory : Memory) (change : Edit) :
    (b.edit memory change).state.Valid := by
  cases change with
  | insert index => exact insert_valid valid index
  | erase index => exact erase_valid valid index
  | toggle index => exact toggle_valid valid index
  | insertRun index count => exact insertRun_valid valid index count
  | eraseRun index count => exact eraseRun_valid valid index count
  | clear => exact clear_valid valid
  | fill => exact fill_valid valid
  | recreate capacity => exact recreate_valid valid memory capacity

def Made (b : PackedBits) : Prop := ∃ memory capacity, create memory capacity = .ok b

theorem reached_valid {s : Session PackedBits} (reached : Reached Made machine s) : s.All Valid := by
  refine reached.keeps ?_ ?_ ?_
  · intro b given
    obtain ⟨memory, capacity, made⟩ := given
    exact (create_valid made).1
  · intro memory b change valid
    exact edit_valid valid memory change
  · intro memory b other kind valid operand
    exact merge_valid valid operand kind

def opened (memory : Memory) (capacities : List Nat) : Session PackedBits :=
  (capacities.map fun capacity => (create memory capacity).toOption).toArray

theorem reached_run (memory : Memory) (capacities : List Nat) (commands : List (Command Edit)) :
    Reached Made machine ((opened memory capacities).run (machine memory) commands) := by
  have start : (opened memory capacities).All Made :=
    all_of_made (fun capacity _ made => ⟨memory, capacity, made⟩) capacities
  exact (Reached.start start).run memory commands

/-- The bits are the content of a register after a run that started with new bits. -/
def Reachable (b : PackedBits) : Prop :=
  ∃ (s : Session PackedBits) (register : Nat), Reached Made machine s ∧ s.get? register = some b

theorem Reachable.valid (reachable : b.Reachable) : b.Valid := by
  obtain ⟨s, register, reached, found⟩ := reachable
  exact reached_valid reached register b found

theorem reachable_of_run (memory : Memory) (capacities : List Nat) (commands : List (Command Edit))
    (register : Nat)
    (found : ((opened memory capacities).run (machine memory) commands).get? register = some b) :
    b.Reachable := ⟨_, register, reached_run memory capacities commands, found⟩

/-! ### Under some policies only -/

/-- The bits are the content of a register after a run in which storage was granted by policies of one kind
    alone, from the first request on. -/
def ReachableUnder (allowed : Memory → Prop) (b : PackedBits) : Prop :=
  ∃ (s : Session PackedBits) (register : Nat),
    Reached (fun fresh => ∃ memory capacity, allowed memory ∧ create memory capacity = .ok fresh)
      (fun policy : Subtype allowed => machine policy.val) s ∧ s.get? register = some b

theorem ReachableUnder.of_created {allowed : Memory → Prop} {memory : Memory} (granting : allowed memory)
    {capacity : Nat} (made : create memory capacity = .ok b) : b.ReachableUnder allowed := by
  refine ⟨#[some b], 0, .start ?_, rfl⟩
  intro register fresh found
  rcases register with _ | k
  · exact Option.some.inj found ▸ ⟨memory, capacity, granting, made⟩
  · simp [get?] at found

theorem ReachableUnder.edit {allowed : Memory → Prop} (reachable : b.ReachableUnder allowed)
    {memory : Memory} (granting : allowed memory) (change : Edit) :
    (b.edit memory change).state.ReachableUnder allowed := by
  obtain ⟨s, register, reached, found⟩ := reachable
  have next := reached.step ⟨memory, granting⟩ (.edit register change)
  have left : (s.apply (machine memory) (.edit register change)).get? register =
      some (b.edit memory change).state := get?_apply_edit (machine memory) found change
  exact ⟨_, register, next, left⟩

/-- All bits that a run leads to fill as many bytes as they need, with the unused bits clear, and the lowest
    index is that of the first set bit, or the capacity when none is set. -/
theorem reached_bits_invariant {s : Session PackedBits} (reached : Reached Made machine s)
    {register : Nat} (found : s.get? register = some b) :
    b.storage.size = (b.capacity + 7) / 8 ∧
      (∀ i, b.capacity ≤ i → b.storage.bit i = false) ∧
      b.lowest = ((List.range b.capacity).find? b.contains).getD b.capacity := by
  have valid := reached_valid reached register b found
  refine ⟨valid.size, valid.padding, ?_⟩
  rw [List.range_eq_range', Search.find?_range']
  exact valid.lowest_eq

theorem reached_bits_invariant_of_refused_union :
    let s := (opened .standard [12, 9]).run (machine .standard)
      [.edit 0 (.insertRun 3 6), .edit 1 .fill, .merge 0 1 .symmDiff, .edit 1 (.recreate 20),
        .merge 0 1 .union, .edit 0 (.erase 0)]
    let b : PackedBits := ⟨12, #[0x60, 0x00], 1⟩
    s.get? 0 = some b ∧ b.storage.size = (12 + 7) / 8 ∧ b.storage.bit 12 = false ∧
      b.lowest = ((List.range 12).find? b.contains).getD 12 := by
  -- the first six bits are flipped away, so the lowest one is looked for once more
  intro s b
  have found : s.get? 0 = some b := by decide +kernel
  obtain ⟨size, padding, lowest⟩ := reached_bits_invariant (reached_run _ _ _) found
  exact ⟨found, size, padding 12 (Nat.le_refl _), lowest⟩

end SequenceTracking.PackedBits
