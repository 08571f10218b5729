import SequenceTracking.Proofs.Window.Gathering
import SequenceTracking.Proofs.Window.Places

/-!
Runs against single steps. A run slides the window once and is written as a whole; taken number by number it may
slide the window again and again, move its ends with every step or empty it on the way. Both leave the same
marks, and no mark moves in storage, so they leave the same window, down to its bytes and ends.
-/
namespace SequenceTracking.Window

variable {w : Window} {seq : UInt32} {count : Nat}

def successive (seq : UInt32) (count : Nat) : List UInt32 :=
  (List.range count).map fun k => seq + UInt32.ofNat k

theorem among_successive (s : Space) (seq : UInt32) (count : Nat) (x : UInt32) :
    Among s (successive seq count) x ↔ s.InArc seq count x := by
  unfold Among
  unfold successive
  simp only [List.mem_map, List.mem_range, exists_exists_and_eq_and, Space.reduce_add_ofNat]
  rfl

theorem successive_succ (seq : UInt32) (count : Nat) :
    ∃ rest, successive seq (count + 1) = seq :: rest := by
  unfold successive
  rw [List.range_succ_eq_map, List.map_cons]
  exact ⟨_, congrArg (· :: _) (UInt32.add_zero seq)⟩

/-! ### Marking -/

theorem successive_marks_accepted_iff (valid : w.Valid) (seq : UInt32) (count : Nat) :
    (Step.each (successive seq count) mark w).failure? = none ↔ (w.markRun seq count).failure? = none := by
  rw [(markRun_decides valid seq count).accepted_iff, each_mark_eq, markRuns_accepted_iff valid]
  simp only [Fits, Admits, ← among_iff_inRuns, among_successive]

section Accepted

variable (valid : w.Valid) (accepted : (w.markRun seq count).failure? = none)
include valid accepted

theorem successive_marks_alike :
    Alike (Step.each (successive seq count) mark w).state (w.markRun seq count).state := by
  have decides := markRun_decides valid seq count
  have admits : w.Admits (Among w.space (successive seq count)) := by
    simp only [Admits, among_successive]
    exact decides.accepted_iff.mp accepted
  have steps := each_mark_leaves valid admits
  simp only [among_successive] at steps
  exact steps.alike (decides.leaves_of_accepted accepted) rfl rfl

theorem successive_marks_beside {p : Placement} (placed : w.placement? = some p) :
    (Step.each (successive seq count) mark w).state = (w.markRun seq count).state := by
  -- the lowest mark that was there stays at its place either way
  have steps := each_mark_partOf valid (successive seq count)
  have run := markRun_partOf valid seq count
  have marked := (valid.anchored placed).contains_lowest valid.sound
  apply (successive_marks_alike valid accepted).eq_of_place (steps.marked _ marked)
  rw [← steps.place_eq _ marked, run.place_eq _ marked]

theorem successive_marks_first (unplaced : w.placement? = none) :
    (Step.each (successive seq count) mark w).state = (w.markRun seq count).state := by
  -- the first number is put at the start of storage either way
  have alike := successive_marks_alike valid accepted
  have steps_accepted := (successive_marks_accepted_iff valid seq count).mpr accepted
  cases count with
  | zero =>
    rw [markRun_zero]
    rfl
  | succ count =>
    obtain ⟨rest, parts⟩ := successive_succ seq count
    rw [parts, Step.each_cons] at alike steps_accepted ⊢
    obtain ⟨first, _, state_eq⟩ := Step.andThen_accepted steps_accepted
    have leaves := (mark_decides valid seq).leaves_of_accepted first
    have later := each_mark_partOf leaves.valid rest
    have marked : (w.mark seq).state.contains seq = true := (leaves.contains_iff seq).mpr (.inr rfl)
    rw [state_eq] at alike ⊢
    apply alike.eq_of_place (later.marked _ marked)
    rw [← later.place_eq _ marked, markRun_place?_first valid unplaced (Nat.succ_pos count) accepted]
    exact markRun_place?_first valid unplaced Nat.one_pos first

theorem successive_marks_state :
    (Step.each (successive seq count) mark w).state = (w.markRun seq count).state := by
  cases placed : w.placement? with
  | none => exact successive_marks_first valid accepted placed
  | some p => exact successive_marks_beside valid accepted placed

end Accepted

/-! ### Clearing -/

theorem successive_unmarks_leaves (valid : w.Valid) (seq : UInt32) (count : Nat) :
    (Step.each (successive seq count) unmark w).Leaves w fun x =>
      w.contains x = true ∧ ¬ w.space.InArc seq count x := by
  have positive := valid.capacity_pos
  have single : min 1 w.capacity = 1 := by omega
  rw [each_unmark_eq]
  apply (unmarkRuns_leaves valid _).congr
  intro x
  rw [← among_successive]
  simp only [Among, List.forall_mem_map, single, Space.inArc_one, not_exists, not_and]

theorem successive_unmarks_state (valid : w.Valid) (seq : UInt32) (count : Nat) :
    (Step.each (successive seq (min count w.capacity)) unmark w).state = (w.unmarkRun seq count).state := by
  have steps := successive_unmarks_leaves valid seq (min count w.capacity)
  have alike := steps.alike (unmarkRun_leaves valid seq count) rfl rfl
  exact alike.eq_of_partOf (each_unmark_partOf valid _) (unmarkRun_partOf valid seq count)

/-- A run is accepted exactly if its numbers are, marked one after the other, and then both leave the same window:
    the same bytes, the same ends and the same lowest mark. A run that is cleared leaves the same window as its
    numbers, up to as many as the capacity, cleared one after the other. -/
theorem runs_stepwise (reachable : w.Reachable) (seq : UInt32) (count : Nat) :
    ((w.markRun seq count).failure? = none ↔
      (Step.each (successive seq count) mark w).failure? = none) ∧
    ((w.markRun seq count).failure? = none →
      (Step.each (successive seq count) mark w).state = (w.markRun seq count).state) ∧
    (Step.each (successive seq (min count w.capacity)) unmark w).failure? = none ∧
    (w.unmarkRun seq count).failure? = none ∧
    (Step.each (successive seq (min count w.capacity)) unmark w).state = (w.unmarkRun seq count).state := by
  have valid := reachable.valid
  exact ⟨(successive_marks_accepted_iff valid seq count).symm, successive_marks_state valid,
    (successive_unmarks_leaves valid seq _).accepted, (unmarkRun_leaves valid seq count).accepted,
    successive_unmarks_state valid seq count⟩

theorem runs_stepwise_of_wrapped :
    let w : Window := ⟨⟨8, #[0x82], 0⟩, ⟨15, by decide, by decide⟩, some ⟨6, 0, 15⟩⟩
    (Step.each (successive 13 6) mark w).state = (w.markRun 13 6).state ∧
      (w.markRun 13 6).state.placement? = some ⟨4, 1, 13⟩ ∧
      (w.markRun 2 6).failure? ≠ none ∧ (Step.each (successive 2 6) mark w).failure? ≠ none ∧
      (Step.each (successive 14 8) unmark w).state = (w.unmarkRun 14 9).state ∧
      (w.unmarkRun 14 9).state.isOccupied = false := by
  -- runs that stick out on both sides, are too wide by their last number, or exceed the capacity
  intro w
  have reachable : w.Reachable := reachable_of_run .standard [⟨8, 15⟩]
    [.edit 0 (.mark 1), .edit 0 (.mark 15)] 0 (by decide +kernel)
  obtain ⟨_, marked, _⟩ := runs_stepwise reachable 13 6
  obtain ⟨refused_iff, _⟩ := runs_stepwise reachable 2 6
  obtain ⟨_, _, _, _, cleared⟩ := runs_stepwise reachable 14 9
  have too_wide : (w.markRun 2 6).failure? ≠ none := by decide +kernel
  exact ⟨marked (by decide +kernel), by decide +kernel, too_wide, fun taken => too_wide (refused_iff.mpr taken),
    cleared, by decide +kernel⟩

end SequenceTracking.Window
