import SequenceTracking.Proofs.Runs
import SequenceTracking.Proofs.Window.Rebuilding
import SequenceTracking.Window.Machine

/-!
The windows that runs lead to. Every change and every merge of a valid window is orderly: the window that
is left is valid and lives in the same space, and a refusal changes nothing. So validity holds along every
run, and with it what was shown of single steps.
-/
namespace SequenceTracking.Window

open Session

variable {w other : Window}

/-! ### Orderly steps -/

/-- The step leaves a valid window over the same space. When it is turned down the window is as before,
    and a lack of room is reported as it is. -/
structure Step.Orderly (s : Step) (w : Window) : Prop where
  valid : s.state.Valid
  space_eq : s.state.space = w.space
  unchanged : s.failure? ≠ none → s.state = w
  span_reason : ∀ needed capacity, s.failure? = some (.span needed capacity) →
    capacity = w.capacity ∧ w.capacity < needed
  space_reason : ∀ expected found, s.failure? ≠ some (.space expected found)

theorem Step.Leaves.orderly {s : Step} {fresh : Window} {marks : UInt32 → Prop}
    (leaves : s.Leaves fresh marks) (same : fresh.space = w.space) : s.Orderly w where
  valid := leaves.valid
  space_eq := leaves.space_eq.trans same
  unchanged failed := absurd leaves.accepted failed
  span_reason needed capacity refusal := by simp [leaves.accepted] at refusal
  space_reason expected found refusal := by simp [leaves.accepted] at refusal

theorem Step.Overflows.orderly {s : Step} (overflow : s.Overflows w) (valid : w.Valid) :
    s.Orderly w := by
  obtain ⟨unchanged, needed, wide, refusal⟩ := overflow
  refine ⟨by rwa [unchanged], by rw [unchanged], fun _ => unchanged, ?_, ?_⟩
  · intro needed' capacity here
    rw [refusal] at here
    cases here
    exact ⟨rfl, wide⟩
  · intro expected found here
    rw [refusal] at here
    cases here

theorem Step.Decides.orderly {s : Step} {fits : Prop} {marks : UInt32 → Prop}
    (decides : s.Decides w fits marks) (valid : w.Valid) : s.Orderly w := by
  by_cases room : fits
  · exact (decides.leaves room).orderly rfl
  · exact (decides.overflows room).orderly valid

theorem Step.Decides.capacity_eq {s : Step} {fits : Prop} {marks : UInt32 → Prop}
    (decides : s.Decides w fits marks) : s.state.capacity = w.capacity := by
  by_cases room : fits
  · exact (decides.leaves room).capacity_eq
  · rw [(decides.overflows room).unchanged]

theorem orderly_of_create_error (valid : w.Valid) {memory : Memory} {shape : Shape}
    {reason : Failure} (refusal : create memory shape = .error reason) :
    (Step.refused w reason).Orderly w := by
  rcases create_error refusal with ⟨cause, rfl⟩ | ⟨bytes, rfl⟩
  · exact ⟨valid, rfl, fun _ => rfl, by rintro _ _ ⟨⟩, by rintro _ _ ⟨⟩⟩
  · exact ⟨valid, rfl, fun _ => rfl, by rintro _ _ ⟨⟩, by rintro _ _ ⟨⟩⟩

theorem mark_orderly (valid : w.Valid) (seq : UInt32) : (w.mark seq).Orderly w :=
  (mark_decides valid seq).orderly valid

theorem toggle_orderly (valid : w.Valid) (seq : UInt32) : (w.toggle seq).Orderly w :=
  (toggle_decides valid seq).orderly valid

theorem unmarkIf_orderly (valid : w.Valid) (seq : UInt32) (drop : Bool) :
    (if drop then w.unmark seq else .done w).Orderly w := by
  split
  · exact (unmark_leaves valid seq).orderly rfl
  · exact valid.leaves.orderly rfl

theorem each_related {α : Type} {f : Window → α → Step} (related : Window → Window → Prop)
    (refl : ∀ v, related v v) (trans : ∀ {u v w}, related u v → related v w → related u w)
    (step : ∀ v item, v.Valid → (f v item).state.Valid ∧ related v (f v item).state) (valid : w.Valid)
    (items : List α) : (Step.each items f w).state.Valid ∧ related w (Step.each items f w).state := by
  -- by the items; each step starts from the valid window that the last one left
  induction items generalizing w with
  | nil => exact ⟨valid, refl w⟩
  | cons item rest ih =>
    obtain ⟨next_valid, next⟩ := step w item valid
    rw [Step.each_cons]
    unfold Step.andThen
    split
    · exact ⟨next_valid, next⟩
    · obtain ⟨rest_valid, rest_related⟩ := ih next_valid
      exact ⟨rest_valid, trans next rest_related⟩

theorem each_keeps {α : Type} {f : Window → α → Step}
    (orderly : ∀ v item, v.Valid → (f v item).Orderly v) (valid : w.Valid) (items : List α) :
    (Step.each items f w).state.Valid ∧ (Step.each items f w).state.space = w.space :=
  each_related (fun before after => after.space = before.space) (fun _ => rfl)
    (fun first second => second.trans first)
    (fun v item start_valid => ⟨(orderly v item start_valid).valid, (orderly v item start_valid).space_eq⟩)
    valid items

def Edit.InPlace : Edit → Prop
  | .resize _ => False
  | _ => True

theorem edit_decides (valid : w.Valid) (memory : Memory) {change : Edit} (inPlace : change.InPlace) :
    ∃ fits marks, (w.edit memory change).Decides w fits marks := by
  cases change with
  | mark seq => exact ⟨_, _, mark_decides valid seq⟩
  | unmark seq => exact ⟨True, _, (unmark_leaves valid seq).decides trivial⟩
  | toggle seq => exact ⟨_, _, toggle_decides valid seq⟩
  | markRun seq count => exact ⟨_, _, markRun_decides valid seq count⟩
  | unmarkRun seq count => exact ⟨True, _, (unmarkRun_leaves valid seq count).decides trivial⟩
  | clear => exact ⟨True, _, (clear_leaves valid).decides trivial⟩
  | fill seq => exact ⟨True, _, (fill_leaves valid seq).decides trivial⟩
  | resize capacity => exact absurd inPlace id

theorem edit_orderly (valid : w.Valid) (memory : Memory) (change : Edit) :
    (w.edit memory change).Orderly w := by
  by_cases inPlace : change.InPlace
  · obtain ⟨_, _, decides⟩ := edit_decides valid memory inPlace
    exact decides.orderly valid
  · cases change with
    | resize capacity =>
      rcases resize_cases valid memory capacity with
        ⟨reason, refusal, kept⟩ | ⟨fresh, _, same, _, leaves⟩
      · rw [edit, kept]
        exact orderly_of_create_error valid refusal
      · exact leaves.orderly same
    | _ => exact absurd trivial inPlace

theorem merge_cases (valid : w.Valid) (other_valid : other.Valid) (same : w.space = other.space)
    (memory : Memory) {kind : Merge} (no_clone : kind ≠ .clone) :
    (∃ fits marks, (w.merge memory other kind).Decides w fits marks) ∨
      ∃ reason, create memory w.shape = .error reason ∧
        w.merge memory other kind = .refused w reason := by
  cases kind with
  | clone => exact absurd rfl no_clone
  | assign => exact .inl ⟨_, _, assign_decides valid other_valid same⟩
  | union => exact .inl ⟨_, _, union_decides valid other_valid same⟩
  | subtract => exact .inl ⟨True, _, (subtract_leaves valid same).decides trivial⟩
  | subtractFrom =>
    rcases subtractFrom_cases other_valid same memory with refusal | ⟨_, _, decides⟩
    · exact .inr refusal
    · exact .inl ⟨_, _, decides⟩
  | intersect => exact .inl ⟨True, _, (intersect_leaves valid same).decides trivial⟩
  | symmDiff => exact .inl ⟨_, _, symmDiff_decides valid other_valid same⟩

theorem merge_orderly (valid : w.Valid) (other_valid : other.Valid) (same : w.space = other.space)
    (memory : Memory) {kind : Merge} (no_clone : kind ≠ .clone) :
    (w.merge memory other kind).Orderly w := by
  rcases merge_cases valid other_valid same memory no_clone with
    ⟨_, _, decides⟩ | ⟨reason, refusal, kept⟩
  · exact decides.orderly valid
  · rw [kept]
    exact orderly_of_create_error valid refusal

theorem merge_of_ne (apart : w.space ≠ other.space) (memory : Memory) {kind : Merge}
    (no_clone : kind ≠ .clone) :
    w.merge memory other kind = .refused w (.space w.space.mask other.space.mask) := by
  cases kind with
  | clone => exact absurd rfl no_clone
  | _ => exact withinSpace_of_ne apart _

/-! ### Along a run -/

def Made (w : Window) : Prop := ∃ memory shape, create memory shape = .ok w

/-- The window is the content of a register after a run that started with new windows. -/
def Reachable (w : Window) : Prop :=
  ∃ (s : Session Window) (register : Nat), Reached Made machine s ∧ s.get? register = some w

theorem merge_valid (valid : w.Valid) (other_valid : other.Valid) (memory : Memory) (kind : Merge) :
    (w.merge memory other kind).state.Valid := by
  by_cases no_clone : kind = .clone
  · subst no_clone
    exact other_valid
  · by_cases same : w.space = other.space
    · exact (merge_orderly valid other_valid same memory no_clone).valid
    · rw [merge_of_ne same memory no_clone]
      exact valid

theorem reached_valid {s : Session Window} (reached : Reached Made machine s) : s.All Valid := by
  refine reached.keeps ?_ ?_ ?_
  · intro w given
    obtain ⟨memory, shape, made⟩ := given
    exact (create_new made).valid
  · intro memory w change valid
    exact (edit_orderly valid memory change).valid
  · intro memory w other kind valid other_valid
    exact merge_valid valid other_valid memory kind

theorem Reachable.valid (reachable : w.Reachable) : w.Valid := by
  obtain ⟨s, register, reached, found⟩ := reachable
  exact reached_valid reached register w found

def opened (memory : Memory) (shapes : List Shape) : Session Window :=
  (shapes.map fun shape => (create memory shape).toOption).toArray

theorem opened_made (memory : Memory) (shapes : List Shape) : (opened memory shapes).All Made :=
  all_of_made (fun shape _ made => ⟨memory, shape, made⟩) shapes

theorem reached_run (memory : Memory) (shapes : List Shape) (commands : List (Command Edit)) :
    Reached Made machine ((opened memory shapes).run (machine memory) commands) :=
  (Reached.start (opened_made memory shapes)).run memory commands

theorem reachable_of_run (memory : Memory) (shapes : List Shape) (commands : List (Command Edit))
    (register : Nat)
    (found : ((opened memory shapes).run (machine memory) commands).get? register = some w) :
    w.Reachable := ⟨_, register, reached_run memory shapes commands, found⟩

theorem Valid.unplaced_iff (valid : w.Valid) :
    w.placement? = none ↔ ∀ i, w.bits.storage.bit i = false := by
  constructor
  · intro unplaced i
    rw [← valid.bits_valid.packed.contains_eq]
    exact valid.unplaced unplaced i
  · intro clear
    cases placed : w.placement? with
    | none => rfl
    | some p =>
      have set := valid.at_start p placed
      rw [valid.bits_valid.packed.contains_eq, clear] at set
      exact Bool.noConfusion set

/-- Every window that a run leads to is valid, and without a placement exactly when no bit is set. The
    next command leaves a valid window in its place: over the same space unless the window is overwritten
    by a copy of another, and then of the same capacity unless it is resized. -/
theorem reached_window_invariant {s : Session Window} (reached : Reached Made machine s)
    {register : Nat} (found : s.get? register = some w) :
    w.Valid ∧ (w.placement? = none ↔ ∀ i, w.bits.storage.bit i = false) ∧
      ∀ memory (command : Command Edit), ∃ next,
        (s.apply (machine memory) command).get? register = some next ∧ next.Valid ∧
          (¬ command.Clones register → next.space = w.space ∧
            ((∀ capacity, command ≠ .edit register (.resize capacity)) →
              next.capacity = w.capacity)) := by
  have valid := reached_valid reached register w found
  refine ⟨valid, valid.unplaced_iff, fun memory command => ?_⟩
  obtain ⟨next, stored, turns⟩ := apply_turns (machine memory) found command
  have next_valid := reached_valid (reached.step memory command) register next stored
  refine ⟨next, stored, next_valid, fun no_clone => ?_⟩
  cases turns with
  | kept => exact ⟨rfl, fun _ => rfl⟩
  | edited change =>
    refine ⟨(edit_orderly valid memory change).space_eq, fun no_resize => ?_⟩
    have inPlace : change.InPlace := by
      cases change with
      | resize capacity => exact absurd rfl (no_resize capacity)
      | _ => trivial
    obtain ⟨_, _, decides⟩ := edit_decides valid memory inPlace
    exact decides.capacity_eq
  | merged operand other kind read =>
    have other_valid := reached_valid reached operand other read
    have kind_ne : kind ≠ .clone := by
      rintro rfl
      exact no_clone ⟨operand, rfl⟩
    by_cases same : w.space = other.space
    · refine ⟨(merge_orderly valid other_valid same memory kind_ne).space_eq, fun _ => ?_⟩
      rcases merge_cases valid other_valid same memory kind_ne with
        ⟨_, _, decides⟩ | ⟨reason, _, kept⟩
      · exact decides.capacity_eq
      · exact congrArg (fun s : Step => s.state.capacity) kept
    · have kept := merge_of_ne same memory kind_ne
      exact ⟨congrArg (fun s : Step => s.state.space) kept,
        fun _ => congrArg (fun s : Step => s.state.capacity) kept⟩

theorem reached_window_invariant_of_wrapped :
    let s := (opened .standard [⟨4, 15⟩, ⟨4, 15⟩]).run (machine .standard)
      [.edit 0 (.markRun 15 2), .edit 1 (.mark 14), .merge 0 1 .union, .edit 0 (.unmark 14),
        .edit 0 (.resize 3)]
    let w : Window := ⟨⟨3, #[0xC0], 0⟩, ⟨15, by decide, by decide⟩, some ⟨0, 1, 15⟩⟩
    s.get? 0 = some w ∧ w.Valid ∧
      ∃ next, (s.apply (machine .standard) (.edit 0 (.mark 8))).get? 0 = some next ∧ next.Valid := by
  -- the window wraps in storage and in its space, takes over a second one and is made smaller
  intro s w
  have found : s.get? 0 = some w := by decide +kernel
  obtain ⟨valid, _, after⟩ := reached_window_invariant (reached_run _ _ _) found
  obtain ⟨next, stored, next_valid, _⟩ := after .standard (.edit 0 (.mark 8))
  exact ⟨found, valid, next, stored, next_valid⟩

end SequenceTracking.Window
