import SequenceTracking.Proofs.Window.Edits

/-!
Runs that are marked or cleared one after the other. All of them are accepted exactly when one arc of the
capacity's length holds them together with the marks, and what is marked in the end is known from the
runs as a set, so neither depends on the order in which they arrive.
-/
namespace SequenceTracking.Window

variable {w : Window}

def InRuns (s : Space) (runs : List (UInt32 × Nat)) (seq : UInt32) : Prop :=
  ∃ run ∈ runs, s.InArc run.1 run.2 seq

theorem inRuns_nil {s : Space} {seq : UInt32} : ¬ InRuns s [] seq := by
  simp [InRuns]

theorem inRuns_cons {s : Space} {run : UInt32 × Nat} {rest : List (UInt32 × Nat)} {seq : UInt32} :
    InRuns s (run :: rest) seq ↔ s.InArc run.1 run.2 seq ∨ InRuns s rest seq := by
  simp [InRuns]

theorem inRuns_perm {s : Space} {runs others : List (UInt32 × Nat)} (perm : runs.Perm others)
    (seq : UInt32) : InRuns s runs seq ↔ InRuns s others seq := by
  simp only [InRuns, perm.mem_iff]

def markRuns (w : Window) (runs : List (UInt32 × Nat)) : Step :=
  Step.each runs (fun w run => w.markRun run.1 run.2) w

def unmarkRuns (w : Window) (runs : List (UInt32 × Nat)) : Step :=
  Step.each runs (fun w run => w.unmarkRun run.1 run.2) w

theorem markRuns_cases (valid : w.Valid) (runs : List (UInt32 × Nat)) :
    (w.markRuns runs).Leaves w (fun x => w.contains x = true ∨ InRuns w.space runs x) ∨
      ∃ needed, w.capacity < needed ∧
        (w.markRuns runs).failure? = some (.span needed w.capacity) := by
  -- by the runs: the first one is turned down, or the others go on from what it left
  induction runs generalizing w with
  | nil =>
    apply Or.inl
    apply valid.leaves.congr
    intro x
    simp [inRuns_nil]
  | cons run rest ih =>
    unfold markRuns
    rw [Step.each_cons]
    by_cases fits : w.Fits run.1 run.2
    · have marked := (markRun_decides valid run.1 run.2).leaves fits
      rcases ih marked.valid with leaves | ⟨needed, wide, refusal⟩
      · apply Or.inl
        apply (marked.andThen leaves).congr
        intro x
        rw [marked.contains_iff, marked.space_eq, inRuns_cons, or_assoc]
      · refine Or.inr ⟨needed, ?_, ?_⟩
        · rwa [← marked.capacity_eq]
        · unfold Step.andThen
          rw [marked.accepted]
          rwa [← marked.capacity_eq]
    · obtain ⟨_, needed, wide, refusal⟩ := (markRun_decides valid run.1 run.2).overflows fits
      exact Or.inr ⟨needed, wide, by rw [Step.andThen_of_refused refusal]; exact refusal⟩

theorem markRuns_leaves_of_accepted (valid : w.Valid) {runs : List (UInt32 × Nat)}
    (accepted : (w.markRuns runs).failure? = none) :
    (w.markRuns runs).Leaves w fun x => w.contains x = true ∨ InRuns w.space runs x := by
  rcases markRuns_cases valid runs with leaves | ⟨needed, _, refusal⟩
  · exact leaves
  · simp [accepted] at refusal

theorem Step.Leaves.within {s : Step} {marks : UInt32 → Prop} {first : UInt32}
    (leaves : s.Leaves w marks) (held : ∀ x, marks x → w.space.InArc first w.capacity x) :
    s.state.Within first := by
  intro x marked
  rw [leaves.space_eq, leaves.capacity_eq]
  exact held x ((leaves.contains_iff x).mp marked)

theorem markRuns_leaves (valid : w.Valid) {runs : List (UInt32 × Nat)}
    (admits : w.Admits (InRuns w.space runs)) :
    (w.markRuns runs).Leaves w fun x => w.contains x = true ∨ InRuns w.space runs x := by
  -- by the runs: the one arc that holds all of them admits each, whatever was marked before it
  induction runs generalizing w with
  | nil =>
    apply valid.leaves.congr
    intro x
    simp [inRuns_nil]
  | cons run rest ih =>
    obtain ⟨first, within, held⟩ := admits
    have fits : w.Fits run.1 run.2 :=
      ⟨first, within, fun x arc => held x (inRuns_cons.mpr (.inl arc))⟩
    have marked := (markRun_decides valid run.1 run.2).leaves fits
    have rest_admits : (w.markRun run.1 run.2).state.Admits
        (InRuns (w.markRun run.1 run.2).state.space rest) := by
      refine ⟨first, marked.within ?_, fun x listed => ?_⟩
      · intro x given
        rcases given with before | arc
        · exact within x before
        · exact held x (inRuns_cons.mpr (.inl arc))
      · rw [marked.space_eq] at listed ⊢
        rw [marked.capacity_eq]
        exact held x (inRuns_cons.mpr (.inr listed))
    unfold markRuns
    rw [Step.each_cons]
    apply (marked.andThen (ih marked.valid rest_admits)).congr
    intro x
    rw [marked.contains_iff, marked.space_eq, inRuns_cons, or_assoc]

theorem markRuns_accepted_iff (valid : w.Valid) (runs : List (UInt32 × Nat)) :
    (w.markRuns runs).failure? = none ↔ w.Admits (InRuns w.space runs) := by
  constructor
  · intro accepted
    have leaves := markRuns_leaves_of_accepted valid accepted
    obtain ⟨first, within⟩ := leaves.valid.within
    unfold Within at within
    rw [leaves.space_eq, leaves.capacity_eq] at within
    refine ⟨first, ?_, ?_⟩
    · intro x before
      exact within x ((leaves.contains_iff x).mpr (.inl before))
    · intro x listed
      exact within x ((leaves.contains_iff x).mpr (.inr listed))
  · exact fun admits => (markRuns_leaves valid admits).accepted

theorem unmarkRuns_leaves (valid : w.Valid) (runs : List (UInt32 × Nat)) :
    (w.unmarkRuns runs).Leaves w fun x =>
      w.contains x = true ∧ ∀ run ∈ runs, ¬ w.space.InArc run.1 (min run.2 w.capacity) x := by
  -- by the runs; one longer than the capacity is cut to it before it is cleared
  induction runs generalizing w with
  | nil =>
    apply valid.leaves.congr
    intro x
    simp
  | cons run rest ih =>
    have cleared := unmarkRun_leaves valid run.1 run.2
    unfold unmarkRuns
    rw [Step.each_cons]
    apply (cleared.andThen (ih cleared.valid)).congr
    intro x
    rw [cleared.contains_iff, cleared.space_eq, cleared.capacity_eq, List.forall_mem_cons, and_assoc]

end SequenceTracking.Window
