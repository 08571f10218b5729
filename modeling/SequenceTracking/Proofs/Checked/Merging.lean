import SequenceTracking.Proofs.Checked.Marking
import SequenceTracking.Proofs.Window.Reachable

/-!
Merging and resizing valid windows never stop. Every mark that is met is marked or cleared in a window that
is valid again, so the steps go through one after the other; and what is copied into a resized window has
been trimmed to fit, so the old window is never put back.
-/
namespace SequenceTracking.Checked

variable {w other : Window} {p : Placement}

/-! ### New windows -/

theorem needed_ok {bits : Nat} (narrow : bits < wordLimit) : needed bits = .ok (Byte.needed bits) := by
  unfold needed
  unfold Byte.needed
  unfold Byte.width
  split
  · rw [show (bits + 7) / 8 = bits / 8 by omega]
  · rw [add_ok (by omega), show (bits + 7) / 8 = bits / 8 + 1 by omega]

theorem create_ok (memory : Memory) (shape : Shape) :
    create memory shape = .ok (Window.create memory shape) := by
  unfold create
  cases usable : shape.space with
  | error e =>
    rw [Window.create_of_error usable]
    rfl
  | ok s =>
    obtain ⟨_, _, short⟩ := Shape.space_spec usable
    have half_le := s.half_le
    have limit := wordLimit_eq
    simp only
    rw [needed_ok (by omega), ok_bind, Window.create_of_space usable]
    split
    · rfl
    · rfl

/-! ### Marks one after the other -/

theorem andThen_ok {s : Window.Step} {next : Window → Checked Window.Step} {f : Window → Window.Step}
    (agrees : next s.state = .ok (f s.state)) : andThen s next = .ok (s.andThen f) := by
  unfold andThen
  unfold Window.Step.andThen
  cases s.failure? with
  | some reason => rfl
  | none =>
    simp only [agrees, ok_bind]
    rfl

theorem each_ok {α : Type} {next : Window → α → Checked Window.Step} {f : Window → α → Window.Step}
    (agrees : ∀ v item, v.Valid → next v item = .ok (f v item))
    (orderly : ∀ v item, v.Valid → (f v item).Orderly v) (items : List α) (valid : w.Valid) :
    each items next w = .ok (Window.Step.each items f w) := by
  have onward : ∀ s : Window.Step, s.state.Valid →
      items.foldlM (fun s item => andThen s fun v => next v item) s =
        .ok (items.foldl (fun s item => s.andThen fun v => f v item) s) := by
    induction items with
    | nil => exact fun _ _ => rfl
    | cons item rest ih =>
      intro s s_valid
      have after : (s.andThen fun v => f v item).state.Valid := by
        unfold Window.Step.andThen
        split
        · exact s_valid
        · exact (orderly s.state item s_valid).valid
      rw [List.foldlM_cons, andThen_ok (f := fun v => f v item) (agrees s.state item s_valid), ok_bind,
        ih _ after, List.foldl_cons]
  exact onward (.done w) valid

theorem each_mark_ok (items : List UInt32) (valid : w.Valid) :
    each items (fun v seq => markRun v seq 1) w = .ok (Window.Step.each items Window.mark w) :=
  each_ok (fun _ seq v_valid => markRun_ok v_valid seq 1)
    (fun _ seq v_valid => Window.mark_orderly v_valid seq) items valid

theorem spanMisfit?_ok (valid : w.Valid) (first : UInt32) {extent : Nat} (short : extent ≤ 2 ^ 31) :
    spanMisfit? w first extent = .ok (w.spanMisfit? first extent) := by
  have sign := signLimit_eq
  have limit := wordLimit_eq
  unfold spanMisfit?
  unfold Window.spanMisfit?
  cases placed : w.placement? with
  | none =>
    simp only
    split
    · rfl
    · rw [add_ok (by omega), ok_bind]
      rfl
  | some p =>
    have bounds := distance_bounds w.space first p.lowest
    simp only [distance_ok, ok_bind]
    generalize w.space.distance first p.lowest = lo at bounds
    unfold addSigned
    rw [toSigned_of_lt (by omega), signedWord_ok (by omega) (by omega), ok_bind,
      admission_ok valid placed (by omega) (by omega), ok_bind]
    cases w.misfit? p lo (lo + extent) with
    | none => rfl
    | some reason => rfl

theorem spanned_ok (valid : w.Valid) : spanned w = .ok w.spanned := by
  have short := capacity_le valid.sound
  have span_short := valid.span_le
  have sign := signLimit_eq
  unfold spanned
  unfold Window.spanned
  cases w.first? with
  | none => rfl
  | some first =>
    simp only [span_ok valid, ok_bind, pure_eq_ok]
    congr 1
    apply List.map_congr_left
    intro k listed
    have inside := List.mem_range.mp listed
    rw [toSigned_of_lt (by omega)]

/-! ### Merges -/

theorem withinSpace_ok {merged : Checked Window.Step} {step : Window.Step}
    (agrees : merged = .ok step) : withinSpace w other merged = .ok (w.withinSpace other step) := by
  unfold withinSpace
  unfold Window.withinSpace
  split
  · exact agrees
  · rfl

theorem assign_ok (valid : w.Valid) (other_valid : other.Valid) :
    assign w other = .ok (w.assign other) := by
  apply withinSpace_ok
  rw [span_ok other_valid, ok_bind]
  split
  · rfl
  · rw [marks_ok other_valid, ok_bind]
    exact each_mark_ok other.marks (Window.clear_leaves valid).valid

theorem operandExtent_ok (other_valid : other.Valid) {first : UInt32} (marked : other.first? = some first) :
    sub other.span 1 = .ok (other.span - 1) ∧ other.span - 1 ≤ 2 ^ 31 := by
  have short := capacity_le other_valid.sound
  have span_short := other_valid.span_le
  obtain ⟨q, placed, _⟩ := Option.map_eq_some_iff.mp marked
  have span_eq := (other_valid.anchored placed).span_eq
  exact ⟨sub_ok (by omega), by omega⟩

theorem union_ok (valid : w.Valid) (other_valid : other.Valid) :
    union w other = .ok (w.union other) := by
  apply withinSpace_ok
  cases marked : other.first? with
  | none => rfl
  | some first =>
    obtain ⟨extent_eq, extent_le⟩ := operandExtent_ok other_valid marked
    simp only [span_ok other_valid, marks_ok other_valid, assign_ok valid other_valid, ok_bind, extent_eq,
      spanMisfit?_ok valid first extent_le]
    by_cases occupied : w.isOccupied = true
    · rw [if_neg (fun empty => empty occupied), if_pos occupied]
      cases w.spanMisfit? first (other.span - 1) with
      | some reason => rfl
      | none => exact each_mark_ok other.marks valid
    · rw [if_pos occupied, if_neg occupied]

theorem symmDiff_ok (valid : w.Valid) (other_valid : other.Valid) :
    symmDiff w other = .ok (w.symmDiff other) := by
  apply withinSpace_ok
  cases marked : other.first? with
  | none => rfl
  | some first =>
    obtain ⟨extent_eq, extent_le⟩ := operandExtent_ok other_valid marked
    simp only [span_ok other_valid, marks_ok other_valid, ok_bind, extent_eq,
      spanMisfit?_ok valid first extent_le]
    cases w.spanMisfit? first (other.span - 1) with
    | some reason => rfl
    | none =>
      exact each_ok (fun _ seq v_valid => toggle_ok v_valid seq)
        (fun _ seq v_valid => Window.toggle_orderly v_valid seq) other.marks valid

theorem unmarkWhere_ok (valid : w.Valid) {drop : UInt32 → Checked Bool} {dropped : UInt32 → Bool}
    (agrees : ∀ seq, drop seq = .ok (dropped seq)) :
    unmarkWhere w drop = .ok (w.unmarkWhere dropped) := by
  unfold unmarkWhere
  rw [spanned_ok valid, ok_bind]
  apply each_ok _ (fun _ seq v_valid => Window.unmarkIf_orderly v_valid seq _) w.spanned valid
  intro v seq v_valid
  rw [contains_ok v_valid, ok_bind]
  cases v.contains seq with
  | false => rfl
  | true =>
    rw [if_pos rfl, agrees, ok_bind, Bool.true_and]
    split
    · exact unmarkRun_ok v_valid seq 1
    · rfl

theorem subtract_ok (valid : w.Valid) (other_valid : other.Valid) :
    subtract w other = .ok (w.subtract other) := by
  apply withinSpace_ok
  split
  · exact unmarkWhere_ok valid fun seq => contains_ok other_valid seq
  · rfl

theorem intersect_ok (valid : w.Valid) (other_valid : other.Valid) :
    intersect w other = .ok (w.intersect other) := by
  apply withinSpace_ok
  split
  · apply unmarkWhere_ok valid
    intro seq
    rw [contains_ok other_valid, ok_bind]
    rfl
  · rfl

theorem each_filter {α : Type} (keep : α → Bool) (f : Window → α → Window.Step) (items : List α)
    (w : Window) :
    Window.Step.each items (fun v item => if keep item then f v item else .done v) w =
      Window.Step.each (items.filter keep) f w := by
  -- by the items; one that is passed over leaves the window to the next as it is
  induction items generalizing w with
  | nil => rfl
  | cons item rest ih =>
    rw [Window.Step.each_cons]
    cases kept : keep item with
    | true =>
      rw [List.filter_cons_of_pos kept, Window.Step.each_cons, if_pos rfl]
      congr 1
      funext v
      exact ih v
    | false =>
      rw [List.filter_cons_of_neg (by simp [kept]), if_neg Bool.false_ne_true, Window.Step.done_andThen]
      exact ih w

theorem subtractFrom_ok (memory : Memory) (valid : w.Valid) (other_valid : other.Valid) :
    subtractFrom memory w other = .ok (w.subtractFrom memory other) := by
  apply withinSpace_ok
  rw [create_ok, ok_bind]
  cases made : Window.create memory w.shape with
  | error reason => rfl
  | ok fresh =>
    have gathered : each other.marks
        (fun v seq => do if ← contains w seq then return .done v else markRun v seq 1) fresh =
          .ok (Window.Step.each (other.marks.filter fun seq => !w.contains seq) Window.mark fresh) := by
      rw [← each_filter]
      apply each_ok _ _ other.marks (Window.create_new made).valid
      · intro v seq v_valid
        rw [contains_ok valid, ok_bind]
        cases w.contains seq with
        | true => rfl
        | false => exact markRun_ok v_valid seq 1
      · intro v seq v_valid
        split
        · exact Window.mark_orderly v_valid seq
        · exact v_valid.leaves.orderly rfl
    simp only [marks_ok other_valid, ok_bind, gathered]
    generalize Window.Step.each (other.marks.filter fun seq => !w.contains seq) Window.mark fresh = built
    cases built.failure? with
    | none => rfl
    | some reason => rfl

/-! ### Another capacity -/

theorem trim_ok (valid : w.Valid) (capacity : Nat) : trim w capacity = .ok (w.trim capacity) := by
  have short := capacity_le valid.sound
  have sign := signLimit_eq
  unfold trim
  unfold Window.trim
  by_cases smaller : capacity < w.capacity
  · rw [if_neg (by omega)]
    cases w.first? with
    | none => rfl
    | some first =>
      simp only [if_pos smaller]
      rw [sub_ok (by omega), ok_bind, toSigned_of_lt (by omega)]
      exact unmarkRun_ok valid _ _
  · rw [if_pos (by omega)]
    cases w.first? with
    | none => rfl
    | some first => simp only [if_neg smaller, pure_eq_ok]

theorem resize_ok (memory : Memory) (valid : w.Valid) (capacity : Nat) :
    resize memory w capacity = .ok (w.resize memory capacity) := by
  unfold resize
  unfold Window.resize
  rw [create_ok, ok_bind]
  cases made : Window.create memory (w.shape.withCapacity capacity) with
  | error reason => rfl
  | ok fresh =>
    have trimmed := Window.trim_leaves valid capacity
    have copied := Window.copied_leaves valid made
    simp only [trim_ok valid, assign_ok (Window.create_new made).valid trimmed.valid, ok_bind,
      copied.accepted]
    rw [bitCount_ok (narrow copied.valid.sound), ok_bind]
    rfl

end SequenceTracking.Checked
