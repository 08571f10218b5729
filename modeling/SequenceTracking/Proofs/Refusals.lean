import SequenceTracking.PackedBits.Machine
import SequenceTracking.Proofs.Window.Reachable

/-!
When a request is turned down, and what a refusal leaves. Whether a window takes a run is a question about
arcs of its capacity alone, not about where its marks lie in storage or which of them comes first. A refusal
changes nothing at all, storage and placement included.
-/
namespace SequenceTracking

/-- A refusal leaves the receiver as it was, and a lack of room is reported with the capacity of the
    receiver and a greater need. -/
def Outcome.Atomic {σ : Type} (outcome : Outcome σ) (receiver : σ) (capacity : Nat) : Prop :=
  (outcome.failure? ≠ none → outcome.state = receiver) ∧
    ∀ needed room, outcome.failure? = some (.span needed room) → room = capacity ∧ capacity < needed

theorem Outcome.done_atomic {σ : Type} (state receiver : σ) (capacity : Nat) :
    (Outcome.done state).Atomic receiver capacity :=
  ⟨fun failed => absurd rfl failed, by rintro _ _ ⟨⟩⟩

theorem Outcome.refused_atomic {σ : Type} (receiver : σ) {needed capacity : Nat}
    (wide : capacity < needed) :
    (Outcome.refused receiver (.span needed capacity)).Atomic receiver capacity := by
  refine ⟨fun _ => rfl, ?_⟩
  intro needed room refusal
  cases refusal
  exact ⟨rfl, wide⟩

namespace PackedBits

variable (b other : PackedBits)

theorem within_atomic (merged : PackedBits) : (b.within other merged).Atomic b b.capacity := by
  unfold within
  split
  · rename_i wide
    exact Outcome.refused_atomic b wide
  · exact Outcome.done_atomic _ _ _

theorem insertRun_atomic (index count : Nat) : (b.insertRun index count).Atomic b b.capacity := by
  unfold insertRun
  split
  · exact Outcome.done_atomic _ _ _
  split
  · rename_i wide
    exact Outcome.refused_atomic b wide
  · exact Outcome.done_atomic _ _ _

theorem insert_atomic (index : Nat) : (b.insert index).Atomic b b.capacity := by
  rw [insert_eq_insertRun]
  exact b.insertRun_atomic index 1

theorem edit_atomic (memory : Memory) (change : Edit) :
    (b.edit memory change).Atomic b b.capacity := by
  cases change with
  | insert index => exact b.insert_atomic index
  | insertRun index count => exact b.insertRun_atomic index count
  | toggle index =>
    rw [edit, toggle]
    split
    · exact Outcome.done_atomic _ _ _
    · exact b.insert_atomic index
  | recreate capacity =>
    rw [edit, recreate]
    split
    · exact Outcome.done_atomic _ _ _
    · rename_i reason denied
      refine ⟨fun _ => rfl, ?_⟩
      intro needed room refusal
      cases refusal
      rw [create] at denied
      split at denied <;> cases denied
  | _ => exact Outcome.done_atomic _ _ _

theorem merge_atomic (kind : Merge) : (b.merge other kind).Atomic b b.capacity := by
  cases kind with
  | assign => exact b.within_atomic other _
  | union => exact b.within_atomic other _
  | subtractFrom => exact b.within_atomic other _
  | symmDiff =>
    rw [merge, symmDiff]
    split
    · exact b.within_atomic other _
    · exact Outcome.done_atomic _ _ _
  | _ => exact Outcome.done_atomic _ _ _

end PackedBits

namespace Window

variable {w other : Window}

theorem Step.Orderly.atomic {s : Step} (orderly : s.Orderly w) : s.toOutcome.Atomic w w.capacity :=
  ⟨orderly.unchanged, orderly.span_reason⟩

theorem merge_atomic (valid : w.Valid) (other_valid : other.Valid) (memory : Memory) (kind : Merge) :
    (w.merge memory other kind).toOutcome.Atomic w w.capacity := by
  by_cases no_clone : kind = .clone
  · subst no_clone
    exact Outcome.done_atomic _ _ _
  · by_cases same : w.space = other.space
    · exact (merge_orderly valid other_valid same memory no_clone).atomic
    · rw [merge_of_ne same memory no_clone]
      exact ⟨fun _ => rfl, by rintro _ _ ⟨⟩⟩

/-- No refusal changes the receiver, whatever storage is granted, and a lack of room is reported as it is.
    Operands from another space are turned down as such, and no other request is. -/
theorem refusals_atomic (reachable : w.Reachable) (other_reachable : other.Reachable)
    (memory : Memory) :
    (∀ change, (w.edit memory change).toOutcome.Atomic w w.capacity ∧
      ∀ expected found, (w.edit memory change).failure? ≠ some (.space expected found)) ∧
    (∀ kind, (w.merge memory other kind).toOutcome.Atomic w w.capacity) ∧
    (∀ kind, kind ≠ .clone →
      ((∃ expected found, (w.merge memory other kind).failure? = some (.space expected found)) ↔
        w.space ≠ other.space)) ∧
    ∀ b c : PackedBits, (∀ change, (b.edit memory change).Atomic b b.capacity) ∧
      ∀ kind, (b.merge c kind).Atomic b b.capacity := by
  have valid := reachable.valid
  have other_valid := other_reachable.valid
  refine ⟨fun change => ?_, merge_atomic valid other_valid memory, fun kind no_clone => ?_,
    fun b c => ⟨b.edit_atomic memory, b.merge_atomic c⟩⟩
  · have orderly := edit_orderly valid memory change
    exact ⟨orderly.atomic, orderly.space_reason⟩
  · constructor
    · rintro ⟨expected, found, refusal⟩ same
      exact (merge_orderly valid other_valid same memory no_clone).space_reason _ _ refusal
    · intro apart
      rw [merge_of_ne apart memory no_clone]
      exact ⟨_, _, rfl⟩

theorem refusals_atomic_of_far_operand :
    let w : Window := ⟨⟨4, #[0xF0], 0⟩, ⟨15, by decide, by decide⟩, some ⟨0, 3, 5⟩⟩
    let other : Window := ⟨⟨4, #[0x80], 0⟩, ⟨15, by decide, by decide⟩, some ⟨0, 0, 3⟩⟩
    (w.merge .standard other .symmDiff).failure? = some (.span 6 4) ∧
      (w.merge .standard other .symmDiff).state = w := by
  -- the operand lies too far away to be flipped in
  intro w other
  have reachable : w.Reachable :=
    reachable_of_run .standard [⟨4, 15⟩] [.edit 0 (.fill 5)] 0 (by decide +kernel)
  have other_reachable : other.Reachable :=
    reachable_of_run .standard [⟨4, 15⟩] [.edit 0 (.mark 3)] 0 (by decide +kernel)
  have refusal : (w.merge .standard other .symmDiff).failure? = some (.span 6 4) := by decide +kernel
  obtain ⟨_, merges, _⟩ := refusals_atomic reachable other_reachable .standard
  exact ⟨refusal, (merges .symmDiff).1 (by simp [refusal])⟩

/-! ### Admission -/

theorem fits_iff_arc (seq : UInt32) (count : Nat) :
    w.Fits seq count ↔ ∃ first, ∀ x, (w.contains x = true ∨ w.space.InArc seq count x) →
      w.space.InArc first w.capacity x := admits_iff_coverable _

/-- A run is marked exactly when one arc of the capacity's length holds it and all marks; `accepts` answers
    this for a single number, and for a number that is not marked so does flipping it. -/
theorem marking_accepted_iff_arc (reachable : w.Reachable) (seq : UInt32) :
    (∀ count, (w.markRun seq count).failure? = none ↔
      ∃ first, ∀ x, (w.contains x = true ∨ w.space.InArc seq count x) →
        w.space.InArc first w.capacity x) ∧
    (w.accepts seq = true ↔ (w.mark seq).failure? = none) ∧
    (w.accepts seq = true ↔
      ∃ first, ∀ x, (w.contains x = true ∨ w.space.reduce x = w.space.reduce seq) →
        w.space.InArc first w.capacity x) ∧
    (w.contains seq = false → ((w.toggle seq).failure? ≠ none ↔
      ¬ ∃ first, ∀ x, (w.contains x = true ∨ w.space.reduce x = w.space.reduce seq) →
        w.space.InArc first w.capacity x)) := by
  have valid := reachable.valid
  have single : w.Fits seq 1 ↔
      ∃ first, ∀ x, (w.contains x = true ∨ w.space.reduce x = w.space.reduce seq) →
        w.space.InArc first w.capacity x := by
    simp only [fits_iff_arc, Space.inArc_one]
  refine ⟨fun count => ?_, ?_, ?_, fun _ => ?_⟩
  · rw [← fits_iff_arc]
    exact (markRun_decides valid seq count).accepted_iff
  · rw [accepts_iff valid, (mark_decides valid seq).accepted_iff]
  · rw [accepts_iff valid, single]
  · rw [← single, ne_eq, (toggle_decides valid seq).accepted_iff]

theorem marking_accepted_iff_arc_of_opposite :
    let w : Window := ⟨⟨4, #[0x80], 0⟩, ⟨7, by decide, by decide⟩, some ⟨0, 0, 6⟩⟩
    w.accepts 2 = false ∧ (w.mark 2).failure? ≠ none ∧ w.accepts 3 = true ∧
      (w.mark 3).failure? = none := by
  -- the number opposite to the only mark fits neither before nor after it
  intro w
  have reachable : w.Reachable :=
    reachable_of_run .standard [⟨4, 7⟩] [.edit 0 (.mark 6)] 0 (by decide +kernel)
  have opposite := (marking_accepted_iff_arc reachable 2).2.1
  have behind := (marking_accepted_iff_arc reachable 3).2.1
  have refused : w.accepts 2 = false := by decide +kernel
  have accepted : w.accepts 3 = true := by decide +kernel
  refine ⟨refused, fun taken => ?_, accepted, behind.mp accepted⟩
  simp [refused] at opposite
  exact opposite taken

end Window

end SequenceTracking
