import SequenceTracking.Proofs.Checked.Addressable

/-!
A run is written, and nothing beside it. Which bits an edit changes is said with sums of any size; on words the
same comes out, because an end that is no word is refused when bits are set and cut off when they are cleared.
Below that a loop goes over the bytes, a part of a byte or many whole bytes at each turn, wherever the run
begins and ends.
-/
namespace SequenceTracking.Checked

variable {b : PackedBits}

structure ExactRuns (b : PackedBits) (index count : Nat) : Prop where
  insert_accepted_iff : (b.insertRun index count).failure? = none ↔ count = 0 ∨ index + count ≤ b.capacity
  insert_leaves : (b.insertRun index count).failure? = none →
    b.Leaves (b.insertRun index count).state fun i => b.contains i = true ∨ index ≤ i ∧ i < index + count
  erase_leaves :
    b.Leaves (b.eraseRun index count) fun i => b.contains i = true ∧ ¬ (index ≤ i ∧ i < index + count)
  fill_leaves : b.Leaves b.fill fun i => i < b.capacity

/-- The edits on words go through and give the same; but for a refusal, which reports the end of the run, the
    run may end past every word. -/
structure RunsOnWords (b : PackedBits) (index count : Nat) : Prop where
  insert_eq : count = 0 ∨ index + count < wordLimit → insertRun b index count = .ok (b.insertRun index count)
  erase_eq : eraseRun b index count = .ok (b.eraseRun index count)
  fill_eq : fillBits b = .ok b.fill

theorem writeStorage_exact {s : Storage} {index count : Nat} (inside : index + count ≤ 8 * s.size)
    (narrow : 8 * s.size < wordLimit) (value : Bool) :
    ∃ t, writeStorage s index count value = .ok t ∧ t.size = s.size ∧
      ∀ i, t.bit i = if index ≤ i ∧ i < index + count then value else s.bit i := by
  have run : writeStorage s index count value = .ok (s.write index count value) :=
    writeStorage_ok inside narrow value
  exact ⟨_, run, Storage.size_write _ _ _ _, Storage.bit_write_of_le inside value⟩

/-- Runs of any index and count, set in or cleared from bits that a run leads to, change their own bits and no
    others. So do the runs on words, as long as no storage is ever granted whose bits a word cannot count; bits
    that can be counted so need no other storage. The loop over the bytes writes the run and no more. -/
theorem run_writes_exact (reachable : b.Reachable) (index count : Nat) :
    ExactRuns b index count ∧
      (b.ReachableUnder Memory.Addressable → RunsOnWords b index count) ∧
      (Narrow b ↔ b.ReachableUnder Memory.Addressable) ∧
      ∀ (s : Storage) (value : Bool), index + count ≤ 8 * s.size → 8 * s.size < wordLimit →
        ∃ t, writeStorage s index count value = .ok t ∧ t.size = s.size ∧
          ∀ i, t.bit i = if index ≤ i ∧ i < index + count then value else s.bit i := by
  have valid := reachable.valid
  have accepted_iff := b.insertRun_accepted_iff index count
  refine ⟨⟨accepted_iff, ?_, ?_, ?_⟩, fun addressed => ?_, narrow_iff_reachableUnder valid, ?_⟩
  · intro accepted
    exact PackedBits.insertRun_leaves valid (accepted_iff.mp accepted)
  · exact PackedBits.eraseRun_leaves valid index count
  · exact PackedBits.fill_leaves valid
  · have narrow := narrow_of_reachableUnder addressed
    exact ⟨insertRun_ok valid narrow, eraseRun_ok valid narrow index count, fillBits_ok valid narrow⟩
  · intro s value inside narrow
    exact writeStorage_exact inside narrow value

theorem run_writes_exact_of_straddling :
    let b : PackedBits := ⟨20, #[0x07, 0xFF, 0x80], 5⟩
    let huge := 2 ^ 64 - 1
    (∀ i, (b.eraseRun 9 huge).contains i = true ↔ b.contains i = true ∧ ¬ (9 ≤ i ∧ i < 9 + huge)) ∧
      eraseRun b 9 huge = .ok ⟨20, #[0x07, 0x80, 0x00], 5⟩ ∧
      insertRun b 16 5 = .ok (.refused b (.span 21 20)) ∧
      fillBits b = .ok ⟨20, #[0xFF, 0xFF, 0xF0], 0⟩ ∧
      ∃ t, writeStorage #[0xFF, 0xFF, 0xFF] 6 13 false = .ok t ∧ t.size = 3 ∧
        ∀ i, t.bit i = if 6 ≤ i ∧ i < 6 + 13 then false else Storage.bit #[0xFF, 0xFF, 0xFF] i := by
  -- runs across byte ends: one is cut off, one ends a bit too far, one is cleared from bytes of ones
  intro b huge
  have reachable : b.Reachable :=
    PackedBits.reachable_of_run .standard [20] [.edit 0 (.insertRun 5 12)] 0 (by decide +kernel)
  have narrow : Narrow b := show 8 * 3 < wordLimit by decide
  obtain ⟨erased, erased_on_words, narrow_iff, _⟩ := run_writes_exact reachable 9 huge
  obtain ⟨_, inserted_on_words, _⟩ := run_writes_exact reachable 16 5
  obtain ⟨_, _, _, bytes⟩ := run_writes_exact reachable 6 13
  have addressed := narrow_iff.mp narrow
  refine ⟨erased.erase_leaves.contains_iff, ?_, ?_, ?_, bytes _ _ (by decide) (by decide)⟩
  · rw [(erased_on_words addressed).erase_eq]
    exact congrArg Except.ok (by decide +kernel)
  · rw [(inserted_on_words addressed).insert_eq (.inr (by decide))]
    exact congrArg Except.ok (by decide +kernel)
  · rw [(erased_on_words addressed).fill_eq]
    exact congrArg Except.ok (by decide +kernel)

end SequenceTracking.Checked
