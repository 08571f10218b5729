import SequenceTracking.Proofs.Window.Alike
import SequenceTracking.Proofs.Window.Reachable

/-!
The order in which runs arrive. Marked in another order, the same runs anchor the window at another number,
slide it another way and meet other spans in between; cleared in another order, they move its ends at other
times. Neither shows in the end.
-/
namespace SequenceTracking.Window

variable {w : Window}

/-- If runs are accepted one after the other, they are accepted in any order and leave equal windows. Runs
    that are cleared are accepted in every order and leave equal windows. -/
theorem arrival_order_immaterial (reachable : w.Reachable) {runs others : List (UInt32 × Nat)}
    (perm : runs.Perm others) :
    ((w.markRuns runs).failure? = none →
      (w.markRuns others).failure? = none ∧
        (w.markRuns runs).state.sameMarks (w.markRuns others).state = true) ∧
    (w.unmarkRuns runs).failure? = none ∧ (w.unmarkRuns others).failure? = none ∧
      (w.unmarkRuns runs).state.sameMarks (w.unmarkRuns others).state = true := by
  have valid := reachable.valid
  refine ⟨fun accepted => ?_, ?_⟩
  · have admits := (markRuns_accepted_iff valid runs).mp accepted
    have first := markRuns_leaves valid admits
    simp only [Admits, inRuns_perm perm] at admits
    have second := markRuns_leaves valid admits
    simp only [← inRuns_perm perm] at second
    exact ⟨second.accepted, (sameMarks_iff_alike first.valid second.valid).mpr (first.alike second rfl rfl)⟩
  · have first := unmarkRuns_leaves valid runs
    have second := unmarkRuns_leaves valid others
    simp only [← perm.mem_iff] at second
    exact ⟨first.accepted, second.accepted,
      (sameMarks_iff_alike first.valid second.valid).mpr (first.alike second rfl rfl)⟩

theorem arrival_order_immaterial_of_slides :
    let v : Window := ⟨⟨7, #[0], 7⟩, ⟨15, by decide, by decide⟩, none⟩
    let w : Window := ⟨⟨7, #[0xFE], 0⟩, ⟨15, by decide, by decide⟩, some ⟨0, 6, 13⟩⟩
    let runs : List (UInt32 × Nat) := [(13, 2), (0, 2), (3, 1)]
    let others : List (UInt32 × Nat) := [(3, 1), (13, 2), (0, 2)]
    runs.Perm others ∧ (v.markRuns runs).state ≠ (v.markRuns others).state ∧
      (v.markRuns others).failure? = none ∧
      (v.markRuns runs).state.sameMarks (v.markRuns others).state = true ∧
      (w.unmarkRuns runs).state.marks = [15, 2] ∧
      (w.unmarkRuns runs).state.sameMarks (w.unmarkRuns others).state = true := by
  -- in one order the window only grows forward, in the other it slides back over the end of storage
  intro v w runs others
  have v_reachable : v.Reachable := reachable_of_run .standard [⟨7, 15⟩] [] 0 (by decide +kernel)
  have w_reachable : w.Reachable :=
    reachable_of_run .standard [⟨7, 15⟩] [.edit 0 (.fill 13)] 0 (by decide +kernel)
  have perm : runs.Perm others := by decide
  obtain ⟨marked, _⟩ := arrival_order_immaterial v_reachable perm
  obtain ⟨_, _, _, cleared⟩ := arrival_order_immaterial w_reachable perm
  obtain ⟨accepted, same⟩ := marked (by decide +kernel)
  exact ⟨perm, by decide +kernel, accepted, same, by decide +kernel, cleared⟩

end SequenceTracking.Window
