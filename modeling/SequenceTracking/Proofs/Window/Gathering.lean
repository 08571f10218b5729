import SequenceTracking.Proofs.Window.Reachable

/-!
Windows that are rebuilt mark by mark from an operand. The walk through the operand meets its marks in order,
so the first of them anchors the result at the start of storage and none that follows slides it back, however
wide the operand is and wherever its own bits lie.
-/
namespace SequenceTracking.Window

variable {w other : Window} {p q : Placement} {extent : Nat} {memory : Memory}

/-! ### Walks in order -/

theorem Step.andThen_accepted {s : Step} {next : Window → Step}
    (accepted : (s.andThen next).failure? = none) :
    s.failure? = none ∧ (next s.state).failure? = none ∧
      (s.andThen next).state = (next s.state).state := by
  cases first : s.failure? with
  | some reason =>
    rw [Step.andThen_of_refused first, first] at accepted
    cases accepted
  | none =>
    simp only [Step.andThen, first] at accepted ⊢
    exact ⟨trivial, accepted, trivial⟩

theorem each_mark_ahead (valid : w.Valid) (placed : w.placement? = some p) {items : List UInt32}
    (ahead : ∀ item ∈ items, 0 ≤ w.space.distance item p.lowest)
    (accepted : (Step.each items mark w).failure? = none) :
    ∃ stop, (Step.each items mark w).state.placement? = some { p with stop := stop } := by
  -- by the items: none lies behind the lowest mark, so each leaves the start where it is for the next
  induction items generalizing w p with
  | nil => exact ⟨p.stop, placed⟩
  | cons item rest ih =>
    obtain ⟨item_ahead, rest_ahead⟩ := List.forall_mem_cons.mp ahead
    rw [Step.each_cons] at accepted ⊢
    obtain ⟨first, others, state_eq⟩ := Step.andThen_accepted accepted
    have marked := (mark_decides valid item).leaves_of_accepted first
    obtain ⟨stop, next_placed⟩ := markRun_ahead valid placed item_ahead first
    rw [state_eq]
    exact ih (p := { p with stop := stop }) marked.valid next_placed (by rwa [marked.space_eq]) others

theorem each_mark_first (valid : w.Valid) (unplaced : w.placement? = none) {items : List UInt32}
    (reduced : ∀ item ∈ items, w.space.reduce item = item)
    (ordered : items.Pairwise fun a b => 0 ≤ w.space.distance b a)
    (accepted : (Step.each items mark w).failure? = none)
    (placed : (Step.each items mark w).state.placement? = some q) :
    q.start = 0 ∧ items.head? = some q.lowest := by
  cases items with
  | nil =>
    rw [Step.each_nil, show (Step.done w).state.placement? = none from unplaced] at placed
    cases placed
  | cons item rest =>
    rw [Step.each_cons] at accepted placed
    obtain ⟨first, others, state_eq⟩ := Step.andThen_accepted accepted
    have marked := (mark_decides valid item).leaves_of_accepted first
    have anchor := markRun_of_unplaced valid unplaced Nat.one_pos first
    rw [reduced item List.mem_cons_self] at anchor
    have ahead := (List.pairwise_cons.mp ordered).1
    obtain ⟨stop, final⟩ :=
      each_mark_ahead marked.valid anchor (by rwa [marked.space_eq]) others
    rw [state_eq, final] at placed
    cases placed
    exact ⟨rfl, rfl⟩

/-! ### Rebuilt windows -/

/-- The span of `v` lies at the start of storage. It begins with the lowest mark, which is the one that the
    walk through `other` meets first. -/
structure Normalised (v other : Window) (p : Placement) : Prop where
  start_eq : p.start = 0
  stop_eq : p.stop + 1 = v.span
  lowest_marked : v.contains p.lowest = true
  none_behind : ∀ x, v.contains x = true → 0 ≤ v.space.distance x p.lowest
  reached_first : other.marks.find? v.contains = some p.lowest

theorem Anchored.stop_succ (anchored : w.Anchored p extent) (at_start : p.start = 0) :
    p.stop + 1 = w.span := by
  have extent_lt := anchored.extent_lt
  rw [anchored.span_eq, anchored.stop_eq, Placement.position_eq anchored.start_lt extent_lt, at_start,
    Nat.zero_add, if_pos extent_lt]

theorem each_mark_normalised (valid : w.Valid) (unplaced : w.placement? = none)
    (other_valid : other.Valid) (same : w.space = other.space) {keep : UInt32 → Bool}
    (accepted : (Step.each (other.marks.filter keep) mark w).failure? = none)
    (contains_eq : ∀ x, (Step.each (other.marks.filter keep) mark w).state.contains x =
      (other.contains x && keep x))
    (placed : (Step.each (other.marks.filter keep) mark w).state.placement? = some q) :
    Normalised (Step.each (other.marks.filter keep) mark w).state other q := by
  have result_valid : (Step.each (other.marks.filter keep) mark w).state.Valid :=
    (each_keeps (fun _ seq start_valid => mark_orderly start_valid seq) valid _).1
  have anchored := result_valid.anchored placed
  have ordered := (marks_ahead other_valid).sublist (List.filter_sublist (p := keep))
  have reduced : ∀ x ∈ other.marks.filter keep, other.space.reduce x = x := by
    intro x listed
    exact ((mem_marks other_valid x).mp (List.mem_filter.mp listed).1).1
  rw [← same] at ordered reduced
  obtain ⟨at_start, head⟩ := each_mark_first valid unplaced reduced ordered accepted placed
  refine ⟨at_start, anchored.stop_succ at_start, anchored.contains_lowest result_valid.sound,
    fun x => result_valid.none_behind placed, ?_⟩
  rw [← head, ← List.head?_filter]
  congr 1
  -- Of the operand's marks, those in the result are the ones that were walked through.
  apply List.filter_congr
  intro x listed
  rw [contains_eq, ((mem_marks other_valid x).mp listed).2, Bool.true_and]

/-- The step is accepted exactly if `fits` holds and then marks the numbers that pass `marks`. They are laid
    out anew from the start of storage on; the capacity is kept in any case. -/
structure Step.Rebuilds (s : Step) (w other : Window) (fits : Prop) (marks : UInt32 → Bool) : Prop where
  accepted_iff : s.failure? = none ↔ fits
  contains_eq : s.failure? = none → ∀ x, s.state.contains x = marks x
  capacity_eq : s.state.capacity = w.capacity
  normalised : s.failure? = none → ∀ p, s.state.placement? = some p → Normalised s.state other p

theorem assign_rebuilds (valid : w.Valid) (other_valid : other.Valid) (same : w.space = other.space) :
    (w.assign other).Rebuilds w other (other.span ≤ w.capacity) other.contains := by
  have decides := assign_decides valid other_valid same
  have marks : (w.assign other).failure? = none →
      ∀ x, (w.assign other).state.contains x = other.contains x := by
    intro accepted x
    rw [Bool.eq_iff_iff, (decides.leaves_of_accepted accepted).contains_iff]
  refine ⟨decides.accepted_iff, marks, decides.capacity_eq, fun accepted p placed => ?_⟩
  have cleared := clear_leaves valid
  have narrow := decides.accepted_iff.mp accepted
  have walk : w.assign other = Step.each (other.marks.filter fun _ => true) mark w.clear := by
    unfold assign
    rw [withinSpace_of_eq same, if_neg (by omega), List.filter_eq_self.mpr (by simp)]
  rw [walk] at marks accepted placed ⊢
  apply each_mark_normalised cleared.valid rfl other_valid same accepted _ placed
  intro x
  rw [Bool.and_true]
  exact marks accepted x

theorem subtractFrom_rebuilds (valid : w.Valid) (other_valid : other.Valid) (same : w.space = other.space)
    (granted : memory.grants (Byte.needed w.capacity) = true) :
    (w.subtractFrom memory other).Rebuilds w other
      (w.space.Coverable w.capacity fun x => other.contains x = true ∧ w.contains x = false)
      fun x => other.contains x && !w.contains x := by
  obtain ⟨fresh, made⟩ := valid.create_granted granted
  rcases subtractFrom_cases other_valid same memory with ⟨_, refusal, _⟩ | ⟨_, _, decides⟩
  · simp [made] at refusal
  simp only [Bool.not_eq_true] at decides
  have marks : (w.subtractFrom memory other).failure? = none →
      ∀ x, (w.subtractFrom memory other).state.contains x = (other.contains x && !w.contains x) := by
    intro accepted x
    rw [Bool.eq_iff_iff, (decides.leaves_of_accepted accepted).contains_iff, Bool.and_eq_true,
      Bool.not_eq_true']
  refine ⟨decides.accepted_iff, marks, decides.capacity_eq, fun accepted p placed => ?_⟩
  have new := create_new made
  have walk : w.subtractFrom memory other =
      Step.each (other.marks.filter fun seq => !w.contains seq) mark fresh := by
    unfold subtractFrom at accepted ⊢
    rw [withinSpace_of_eq same, made] at accepted ⊢
    simp only at accepted ⊢
    split at accepted
    · rename_i refusal
      simp [refusal] at accepted
    · rfl
  rw [walk] at marks accepted placed ⊢
  exact each_mark_normalised new.valid new.unplaced other_valid
    ((Space.eq_of_mask new.mask_eq).trans same) accepted (marks accepted) placed

/-- Over one space and whatever the two capacities, a window takes over the operand's marks exactly if their span
    fits. If storage is granted, it takes over those that it lacks exactly if some arc of its capacity holds
    these, however wide the operand is. Either way they end up alone in it, laid out from the start of
    storage on. -/
theorem rebuilding_exact (reachable : w.Reachable) (other_reachable : other.Reachable)
    (same : w.space = other.space) (granted : memory.grants (Byte.needed w.capacity) = true) :
    (w.assign other).Rebuilds w other (other.span ≤ w.capacity) other.contains ∧
    (w.subtractFrom memory other).Rebuilds w other
      (w.space.Coverable w.capacity fun x => other.contains x = true ∧ w.contains x = false)
      fun x => other.contains x && !w.contains x :=
  ⟨assign_rebuilds reachable.valid other_reachable.valid same,
    subtractFrom_rebuilds reachable.valid other_reachable.valid same granted⟩

theorem rebuilding_exact_of_wider :
    let w : Window := ⟨⟨4, #[0xC0], 0⟩, ⟨15, by decide, by decide⟩, some ⟨0, 1, 2⟩⟩
    let other : Window := ⟨⟨8, #[0xB2], 0⟩, ⟨15, by decide, by decide⟩, some ⟨6, 3, 14⟩⟩
    other.marks = [14, 0, 2, 3] ∧ (w.assign other).failure? ≠ none ∧
      (w.subtractFrom .standard other).failure? = none ∧
      (w.space.Coverable w.capacity fun x => other.contains x = true ∧ w.contains x = false) ∧
      Normalised (w.subtractFrom .standard other).state other ⟨0, 2, 14⟩ := by
  -- the operand as a whole is too wide, but what it has alone is two marks on both sides of zero
  intro w other
  have reachable : w.Reachable :=
    reachable_of_run .standard [⟨4, 15⟩] [.edit 0 (.markRun 2 2)] 0 (by decide +kernel)
  have other_reachable : other.Reachable := reachable_of_run .standard [⟨8, 15⟩]
    [.edit 0 (.mark 0), .edit 0 (.markRun 2 2), .edit 0 (.mark 14)] 0 (by decide +kernel)
  obtain ⟨whole, alone⟩ := rebuilding_exact reachable other_reachable rfl
    (show Memory.standard.grants (Byte.needed w.capacity) = true by decide)
  have accepted : (w.subtractFrom .standard other).failure? = none := by decide +kernel
  refine ⟨by decide +kernel, fun fits => ?_, accepted, alone.accepted_iff.mp accepted,
    alone.normalised accepted _ (by decide +kernel)⟩
  exact absurd (whole.accepted_iff.mp fits) (by decide +kernel)

end SequenceTracking.Window
