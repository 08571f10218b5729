import SequenceTracking.Proofs.Window.Alike
import SequenceTracking.Proofs.Window.Combining

/-!
The laws of set algebra for windows of one shape, each with the conditions under which its operations are
accepted. A window is known, up to where its bits lie, by the numbers that it marks; what a merge makes of
them and when it is accepted is said once for each merge, and the laws are read off the marks. So a union of
several windows is accepted, in whatever order it is built, when one arc holds all of their marks.
-/
namespace SequenceTracking.Window

variable {a b c v w : Window} {s : Space} {n : Nat} {marks others : UInt32 → Prop} {memory : Memory}

/-! ### Windows by their marks -/

/-- A valid window of capacity `n` over the space `s` that marks exactly these numbers. -/
structure Shows (w : Window) (s : Space) (n : Nat) (marks : UInt32 → Prop) : Prop where
  valid : w.Valid
  space_eq : w.space = s
  capacity_eq : w.capacity = n
  contains_iff : ∀ x, w.contains x = true ↔ marks x

theorem Valid.shows_of_shape_eq (valid : w.Valid) (same : w.shape = v.shape) :
    w.Shows v.space v.capacity fun x => w.contains x = true :=
  ⟨valid, Space.eq_of_mask (congrArg Shape.mask same), congrArg Shape.capacity same, fun _ => Iff.rfl⟩

theorem Shows.congr (known : w.Shows s n marks) (same : ∀ x, marks x ↔ others x) :
    w.Shows s n others :=
  ⟨known.valid, known.space_eq, known.capacity_eq, fun x => (known.contains_iff x).trans (same x)⟩

theorem Shows.sameMarks (left : v.Shows s n marks) (right : w.Shows s n marks) :
    v.sameMarks w = true := by
  rw [sameMarks_iff_alike left.valid right.valid]
  refine ⟨left.valid, right.valid, left.space_eq.trans right.space_eq.symm,
    left.capacity_eq.trans right.capacity_eq.symm, fun x => ?_⟩
  rw [Bool.eq_iff_iff, left.contains_iff, right.contains_iff]

theorem Shows.coverable (known : w.Shows s n marks) : s.Coverable n marks := by
  have covered := known.valid.coverable
  rw [known.space_eq, known.capacity_eq] at covered
  exact covered.mono fun x marked => (known.contains_iff x).mpr marked

theorem Shows.marks_eq_nil (known : w.Shows s n marks) (nothing : ∀ x, ¬ marks x) : w.marks = [] := by
  apply List.eq_nil_iff_forall_not_mem.mpr
  intro x listed
  exact nothing x ((known.contains_iff x).mp ((mem_marks known.valid x).mp listed).2)

/-! ### Merges by their marks -/

section Merges

variable (left : v.Shows s n marks) (right : w.Shows s n others)
include left right

theorem Shows.space_same : v.space = w.space := left.space_eq.trans right.space_eq.symm

theorem Shows.coverable_both :
    (v.space.Coverable v.capacity fun x => v.contains x = true ∨ w.contains x = true) ↔
      s.Coverable n fun x => marks x ∨ others x := by
  rw [left.space_eq, left.capacity_eq]
  simp only [left.contains_iff, right.contains_iff]

theorem Step.Leaves.shows {step : Step} (combine : Prop → Prop → Prop)
    (leaves : step.Leaves v fun x => combine (v.contains x = true) (w.contains x = true)) :
    step.state.Shows s n fun x => combine (marks x) (others x) := by
  refine ⟨leaves.valid, leaves.space_eq.trans left.space_eq,
    leaves.capacity_eq.trans left.capacity_eq, fun x => ?_⟩
  rw [leaves.contains_iff, left.contains_iff, right.contains_iff]

theorem Shows.union_accepted_iff :
    (v.union w).failure? = none ↔ s.Coverable n fun x => marks x ∨ others x := by
  rw [Window.union_accepted_iff left.valid right.valid (left.space_same right),
    left.coverable_both right]

theorem Shows.union (accepted : (v.union w).failure? = none) :
    (v.union w).state.Shows s n fun x => marks x ∨ others x := by
  have decides := union_decides left.valid right.valid (left.space_same right)
  exact Step.Leaves.shows left right Or (decides.leaves_of_accepted accepted)

theorem Shows.symmDiff_accepted_iff :
    (v.symmDiff w).failure? = none ↔ s.Coverable n fun x => marks x ∨ others x := by
  rw [Window.symmDiff_accepted_iff left.valid right.valid (left.space_same right),
    left.coverable_both right]

theorem Shows.symmDiff (accepted : (v.symmDiff w).failure? = none) :
    (v.symmDiff w).state.Shows s n fun x => ¬ (marks x ↔ others x) := by
  have decides := symmDiff_decides left.valid right.valid (left.space_same right)
  exact Step.Leaves.shows left right (fun p q => ¬ (p ↔ q)) (decides.leaves_of_accepted accepted)

theorem Shows.intersect :
    (v.intersect w).failure? = none ∧ (v.intersect w).state.Shows s n fun x => marks x ∧ others x := by
  have leaves := intersect_leaves left.valid (left.space_same right)
  exact ⟨leaves.accepted, Step.Leaves.shows left right And leaves⟩

theorem Shows.subtract :
    (v.subtract w).failure? = none ∧ (v.subtract w).state.Shows s n fun x => marks x ∧ ¬ others x := by
  have leaves := subtract_leaves left.valid (left.space_same right)
  exact ⟨leaves.accepted, Step.Leaves.shows left right (fun p q => p ∧ ¬ q) leaves⟩

theorem Shows.subtractFrom (granted : memory.grants (Byte.needed n) = true) :
    (v.subtractFrom memory w).failure? = none ∧
      (v.subtractFrom memory w).state.Shows s n fun x => others x ∧ ¬ marks x := by
  -- What the operand has alone lies in an arc that holds the whole operand, so it always fits.
  rw [← left.capacity_eq] at granted
  obtain ⟨fresh, made⟩ := left.valid.create_granted granted
  rcases subtractFrom_cases right.valid (left.space_same right) memory with
    ⟨reason, refusal, _⟩ | ⟨_, _, decides⟩
  · simp [made] at refusal
  · have fits : ∃ first, ∀ x, w.contains x = true ∧ ¬ v.contains x = true →
        v.space.InArc first v.capacity x := by
      rw [left.space_eq, left.capacity_eq]
      apply right.coverable.mono
      intro x alone
      exact (right.contains_iff x).mp alone.1
    have leaves := decides.leaves fits
    exact ⟨leaves.accepted, Step.Leaves.shows left right (fun p q => q ∧ ¬ p) leaves⟩

end Merges

/-! ### The laws -/

structure UnionLaws (a b c : Window) : Prop where
  comm_accepted : (a.union b).failure? = none ↔ (b.union a).failure? = none
  comm : (a.union b).failure? = none → (a.union b).state.sameMarks (b.union a).state = true
  assoc_accepted :
    ((a.union b).failure? = none ∧ ((a.union b).state.union c).failure? = none) ↔
      ((b.union c).failure? = none ∧ (a.union (b.union c).state).failure? = none)
  assoc : (a.union b).failure? = none → ((a.union b).state.union c).failure? = none →
    ((a.union b).state.union c).state.sameMarks (a.union (b.union c).state).state = true
  /-- Parts of one window are always joined again. -/
  parts_accepted : (a.intersect b).failure? = none ∧ (a.intersect c).failure? = none ∧
    ((a.intersect b).state.union (a.intersect c).state).failure? = none
  distrib : (b.union c).failure? = none → (a.intersect (b.union c).state).failure? = none ∧
    (a.intersect (b.union c).state).state.sameMarks
      ((a.intersect b).state.union (a.intersect c).state).state = true
  absorb : (a.union b).failure? = none → ((a.union b).state.intersect a).failure? = none ∧
    ((a.union b).state.intersect a).state.sameMarks a = true

structure SymmDiffLaws (a b : Window) : Prop where
  undone : (a.symmDiff b).failure? = none → ((a.symmDiff b).state.symmDiff b).failure? = none ∧
    ((a.symmDiff b).state.symmDiff b).state.sameMarks a = true
  union_without_common : (a.symmDiff b).failure? = none →
    (a.union b).failure? = none ∧ (a.intersect b).failure? = none ∧
    ((a.union b).state.subtract (a.intersect b).state).failure? = none ∧
    (a.symmDiff b).state.sameMarks ((a.union b).state.subtract (a.intersect b).state).state = true

structure SubtractFromLaws (memory : Memory) (a b : Window) : Prop where
  accepted : (a.subtractFrom memory b).failure? = none
  reversed : (b.subtract a).failure? = none ∧
    (a.subtractFrom memory b).state.sameMarks (b.subtract a).state = true
  itself : (a.subtractFrom memory a).failure? = none ∧ (a.subtractFrom memory a).state.marks = []

section Laws

variable {third : UInt32 → Prop} (left : a.Shows s n marks) (middle : b.Shows s n others)
  (right : c.Shows s n third)
include left middle

theorem union_comm_accepted : (a.union b).failure? = none ↔ (b.union a).failure? = none := by
  rw [left.union_accepted_iff middle, middle.union_accepted_iff left]
  simp only [or_comm]

theorem symmDiff_accepted_iff_union :
    (a.symmDiff b).failure? = none ↔ (a.union b).failure? = none := by
  rw [left.symmDiff_accepted_iff middle, left.union_accepted_iff middle]

theorem symmDiffLaws : SymmDiffLaws a b where
  undone accepted := by
    have covered := (left.symmDiff_accepted_iff middle).mp accepted
    have flipped := left.symmDiff middle accepted
    have again : ((a.symmDiff b).state.symmDiff b).failure? = none := by
      rw [flipped.symmDiff_accepted_iff middle]
      apply covered.mono
      intro x given
      grind
    refine ⟨again, Shows.sameMarks ?_ left⟩
    apply (flipped.symmDiff middle again).congr
    intro x
    grind
  union_without_common accepted := by
    have joined := left.union middle ((symmDiff_accepted_iff_union left middle).mp accepted)
    obtain ⟨common_accepted, common⟩ := left.intersect middle
    obtain ⟨rest_accepted, rest⟩ := joined.subtract common
    refine ⟨(symmDiff_accepted_iff_union left middle).mp accepted, common_accepted, rest_accepted, ?_⟩
    apply (left.symmDiff middle accepted).sameMarks
    apply rest.congr
    intro x
    grind

theorem subtractFromLaws (granted : memory.grants (Byte.needed n) = true) :
    SubtractFromLaws memory a b where
  accepted := (left.subtractFrom middle granted).1
  reversed := by
    obtain ⟨accepted, rest⟩ := middle.subtract left
    exact ⟨accepted, (left.subtractFrom middle granted).2.sameMarks rest⟩
  itself := by
    obtain ⟨accepted, nothing⟩ := left.subtractFrom left granted
    exact ⟨accepted, nothing.marks_eq_nil fun x given => given.2 given.1⟩

include right

theorem union_union_accepted_iff :
    ((a.union b).failure? = none ∧ ((a.union b).state.union c).failure? = none) ↔
      s.Coverable n fun x => marks x ∨ others x ∨ third x := by
  constructor
  · intro given
    obtain ⟨first, second⟩ := given
    rw [(left.union middle first).union_accepted_iff right] at second
    simpa only [or_assoc] using second
  · intro coverable
    have first : (a.union b).failure? = none := by
      rw [left.union_accepted_iff middle]
      apply coverable.mono
      intro x given
      exact given.elim .inl fun there => .inr (.inl there)
    refine ⟨first, ?_⟩
    rw [(left.union middle first).union_accepted_iff right]
    simpa only [or_assoc] using coverable

theorem union_of_union_accepted_iff :
    ((b.union c).failure? = none ∧ (a.union (b.union c).state).failure? = none) ↔
      s.Coverable n fun x => marks x ∨ others x ∨ third x := by
  constructor
  · intro given
    obtain ⟨first, second⟩ := given
    rwa [left.union_accepted_iff (middle.union right first)] at second
  · intro coverable
    have first : (b.union c).failure? = none := by
      rw [middle.union_accepted_iff right]
      exact coverable.mono fun x given => .inr given
    exact ⟨first, by rwa [left.union_accepted_iff (middle.union right first)]⟩

theorem union_parts_accepted :
    ((a.intersect b).state.union (a.intersect c).state).failure? = none := by
  rw [(left.intersect middle).2.union_accepted_iff (left.intersect right).2]
  apply left.coverable.mono
  intro x given
  exact given.elim And.left And.left

theorem unionLaws : UnionLaws a b c where
  comm_accepted := union_comm_accepted left middle
  comm accepted := by
    apply (left.union middle accepted).sameMarks
    apply (middle.union left ((union_comm_accepted left middle).mp accepted)).congr
    intro x
    exact or_comm
  assoc_accepted := by
    rw [union_union_accepted_iff left middle right, union_of_union_accepted_iff left middle right]
  assoc first second := by
    have covered := (union_union_accepted_iff left middle right).mp ⟨first, second⟩
    obtain ⟨inner, outer⟩ := (union_of_union_accepted_iff left middle right).mpr covered
    apply ((left.union middle first).union right second).sameMarks
    apply (left.union (middle.union right inner) outer).congr
    intro x
    exact or_assoc.symm
  parts_accepted := ⟨(left.intersect middle).1, (left.intersect right).1,
    union_parts_accepted left middle right⟩
  distrib accepted := by
    obtain ⟨common_accepted, common⟩ := left.intersect (middle.union right accepted)
    refine ⟨common_accepted, common.sameMarks ?_⟩
    apply ((left.intersect middle).2.union (left.intersect right).2
      (union_parts_accepted left middle right)).congr
    intro x
    exact and_or_left.symm
  absorb accepted := by
    obtain ⟨common_accepted, common⟩ := (left.union middle accepted).intersect left
    refine ⟨common_accepted, Shows.sameMarks ?_ left⟩
    apply common.congr
    intro x
    exact ⟨And.right, fun marked => ⟨.inl marked, marked⟩⟩

end Laws

/-- The laws of set algebra hold for all windows of one shape, and so do the conditions under which their
    operations are accepted. Only the difference that is gathered anew depends on storage. -/
theorem algebra_laws (a_reachable : a.Reachable) (b_reachable : b.Reachable)
    (c_reachable : c.Reachable) (b_shape : b.shape = a.shape) (c_shape : c.shape = a.shape) :
    UnionLaws a b c ∧ SymmDiffLaws a b ∧
      ∀ memory : Memory, memory.grants (Byte.needed a.capacity) = true →
        SubtractFromLaws memory a b := by
  have left := a_reachable.valid.shows_of_shape_eq (v := a) rfl
  have middle := b_reachable.valid.shows_of_shape_eq b_shape
  have right := c_reachable.valid.shows_of_shape_eq c_shape
  exact ⟨unionLaws left middle right, symmDiffLaws left middle,
    fun memory granted => subtractFromLaws left middle granted⟩

theorem algebra_laws_of_tight :
    let a : Window := ⟨⟨4, #[0x30], 2⟩, ⟨15, by decide, by decide⟩, some ⟨2, 3, 14⟩⟩
    let b : Window := ⟨⟨4, #[0xC0], 0⟩, ⟨15, by decide, by decide⟩, some ⟨0, 1, 0⟩⟩
    let c : Window := ⟨⟨4, #[0xC0], 0⟩, ⟨15, by decide, by decide⟩, some ⟨0, 1, 1⟩⟩
    (a.union b).failure? = none ∧ (a.union b).state.sameMarks (b.union a).state = true ∧
      (b.union c).failure? = none ∧ (a.union (b.union c).state).failure? ≠ none ∧
      ((a.union b).state.union c).failure? ≠ none ∧
      (a.subtractFrom .standard b).state.sameMarks (b.subtract a).state = true := by
  -- the first two only just fit beside one another, and the third does not fit beside them
  intro a b c
  have a_reachable : a.Reachable := reachable_of_run .standard [⟨4, 15⟩]
    [.edit 0 (.mark 0), .edit 0 (.markRun 14 2), .edit 0 (.unmark 0)] 0 (by decide +kernel)
  have b_reachable : b.Reachable :=
    reachable_of_run .standard [⟨4, 15⟩] [.edit 0 (.markRun 0 2)] 0 (by decide +kernel)
  have c_reachable : c.Reachable :=
    reachable_of_run .standard [⟨4, 15⟩] [.edit 0 (.markRun 1 2)] 0 (by decide +kernel)
  obtain ⟨unions, _, gathered⟩ := algebra_laws a_reachable b_reachable c_reachable rfl rfl
  have joined : (a.union b).failure? = none := by decide +kernel
  have inner : (b.union c).failure? = none := by decide +kernel
  have outer : (a.union (b.union c).state).failure? ≠ none := by decide +kernel
  refine ⟨joined, unions.comm joined, inner, outer, fun second => ?_,
    (gathered .standard (by decide)).reversed.2⟩
  exact outer (unions.assoc_accepted.mp ⟨joined, second⟩).2

end SequenceTracking.Window
