import SequenceTracking.Proofs.Checked.Merging

/-!
No computation on machine words stops in a window that can be reached. Whatever it is asked to do or to
answer, the checked routine goes through and gives the plain result, so every word is wide enough, every
index lies in storage, every assertion holds and no branch is taken that is there for broken windows.
-/
namespace SequenceTracking.Checked

open Session

variable {w other : Window}

/-! ### Every command -/

theorem edit_ok (memory : Memory) (valid : w.Valid) (change : Window.Edit) :
    edit memory w change = .ok (w.edit memory change) := by
  cases change with
  | mark seq => exact markRun_ok valid seq 1
  | unmark seq => exact unmarkRun_ok valid seq 1
  | toggle seq => exact toggle_ok valid seq
  | markRun seq count => exact markRun_ok valid seq count
  | unmarkRun seq count => exact unmarkRun_ok valid seq count
  | clear => rfl
  | fill seq =>
    unfold edit
    simp only [fill_ok valid, ok_bind]
    rfl
  | resize capacity => exact resize_ok memory valid capacity

theorem merge_ok (memory : Memory) (valid : w.Valid) (other_valid : other.Valid) (kind : Merge) :
    merge memory w other kind = .ok (w.merge memory other kind) := by
  cases kind with
  | clone => rfl
  | assign => exact assign_ok valid other_valid
  | union => exact union_ok valid other_valid
  | subtract => exact subtract_ok valid other_valid
  | subtractFrom => exact subtractFrom_ok memory valid other_valid
  | intersect => exact intersect_ok valid other_valid
  | symmDiff => exact symmDiff_ok valid other_valid

/-! ### Every question -/

/-- The questions about a window, and the comparison with another, are answered without a fault. -/
structure Answers (w other : Window) : Prop where
  contains_ok : ∀ seq, contains w seq = .ok (w.contains seq)
  accepts_ok : ∀ seq, accepts w seq = .ok (w.accepts seq)
  next_ok : ∀ seq, next? w seq = .ok (w.next? seq)
  prev_ok : ∀ seq, prev? w seq = .ok (w.prev? seq)
  nextGap_ok : ∀ seq, nextGap? w seq = .ok (w.nextGap? seq)
  last_ok : last? w = .ok w.last?
  span_ok : span w = .ok w.span
  count_ok : bitCount w.bits = .ok w.count
  marks_ok : marks w = .ok w.marks
  sameMarks_ok : sameMarks w other = .ok (w.sameMarks other)
  dump_ok : dump w = .ok w.dump
  dumpEvent_ok : ∀ limit, dumpEvent w limit = .ok (w.dumpEvent limit)

theorem answers (valid : w.Valid) (other_valid : other.Valid) : Answers w other where
  contains_ok := contains_ok valid
  accepts_ok := accepts_ok valid
  next_ok := next?_ok valid
  prev_ok := prev?_ok valid
  nextGap_ok := nextGap?_ok valid
  last_ok := last?_ok valid
  span_ok := span_ok valid
  count_ok := bitCount_ok (narrow valid.sound)
  marks_ok := marks_ok valid
  sameMarks_ok := sameMarks_ok valid other_valid
  dump_ok := dump_ok valid
  dumpEvent_ok := dumpEvent_ok valid

/-! ### Along a run -/

theorem apply_ok (memory : Memory) {s : Session Window} (valid : s.All Window.Valid)
    (command : Command Window.Edit) :
    apply memory s command = .ok (s.apply (Window.machine memory) command) := by
  cases command with
  | edit register change =>
    unfold apply
    unfold Session.apply
    unfold Session.step?
    simp only
    cases content : s.get? register with
    | none => rfl
    | some w =>
      simp only [edit_ok memory (valid register w content), ok_bind]
      rfl
  | merge register operand kind =>
    unfold apply
    unfold Session.apply
    unfold Session.step?
    simp only
    cases content : s.get? register with
    | none => rfl
    | some w =>
      cases read : s.get? operand with
      | none => rfl
      | some other =>
        simp only [merge_ok memory (valid register w content) (valid operand other read), ok_bind]
        rfl

theorem run_ok {s : Session Window} (reached : Reached Window.Made Window.machine s)
    (commands : List (Memory × Command Window.Edit)) :
    run s commands = .ok (s.runUnder Window.machine commands) := by
  unfold run
  induction commands generalizing s with
  | nil => rfl
  | cons entry rest ih =>
    obtain ⟨memory, command⟩ := entry
    have next := reached.step memory command
    rw [List.foldlM_cons, apply_ok memory (Window.reached_valid reached), ok_bind, ih next]
    rfl

/-- A reachable window can be changed, merged with a reachable operand and asked anything, with numbers,
    counts and capacities of any size, without a fault; the result is the plain one. From any shape a window
    is made or refused without a fault too. So from any registers that a run leads to, all runs go on without
    a fault, whatever storage is granted at each command. -/
theorem no_fault_reachable (reachable : w.Reachable) (operand : other.Reachable) (memory : Memory) :
    (∀ change, edit memory w change = .ok (w.edit memory change)) ∧
      (∀ kind, merge memory w other kind = .ok (w.merge memory other kind)) ∧
      Answers w other ∧ (∀ shape, create memory shape = .ok (Window.create memory shape)) ∧
      ∀ s : Session Window, Reached Window.Made Window.machine s → ∀ commands,
        run s commands = .ok (s.runUnder Window.machine commands) := by
  have valid := reachable.valid
  have other_valid := operand.valid
  refine ⟨?_, ?_, answers valid other_valid, create_ok memory, ?_⟩
  · intro change
    exact edit_ok memory valid change
  · intro kind
    exact merge_ok memory valid other_valid kind
  · intro s reached
    exact run_ok reached

theorem no_fault_reachable_of_wrapped :
    let w : Window := ⟨⟨4, #[0x90], 0⟩, ⟨15, by decide, by decide⟩, some ⟨3, 0, 15⟩⟩
    let other : Window := ⟨⟨4, #[0xC0], 0⟩, ⟨15, by decide, by decide⟩, some ⟨0, 1, 13⟩⟩
    let huge := 2 ^ 64 - 1
    edit .standard w (.unmarkRun 0 huge) =
        .ok (.done ⟨⟨4, #[0x10], 3⟩, ⟨15, by decide, by decide⟩, some ⟨3, 3, 15⟩⟩) ∧
      edit .standard w (.markRun 0 huge) = .ok (.refused w (.span huge 4)) ∧
      edit .standard w (.resize huge) = .ok (.refused w (.shape (.capacityAboveHalf huge 8))) ∧
      merge .standard w other .union = .ok (w.merge .standard other .union) ∧
      nextGap? w 0 = .ok (some 1) := by
  -- the greatest counts and capacities, and an operand that the window must slide back for
  intro w other huge
  have reachable : w.Reachable :=
    Window.reachable_of_run .standard [⟨4, 15⟩] [.edit 0 (.mark 0), .edit 0 (.mark 15)] 0
      (by decide +kernel)
  have operand : other.Reachable :=
    Window.reachable_of_run .standard [⟨4, 15⟩] [.edit 0 (.markRun 13 2)] 0 (by decide +kernel)
  obtain ⟨edits, merges, answers, _⟩ := no_fault_reachable reachable operand .standard
  refine ⟨?_, ?_, ?_, merges .union, ?_⟩
  · rw [edits]
    exact congrArg Except.ok (by decide +kernel)
  · rw [edits]
    exact congrArg Except.ok (by decide +kernel)
  · rw [edits]
    exact congrArg Except.ok (by decide +kernel)
  · rw [answers.nextGap_ok]
    exact congrArg Except.ok (by decide +kernel)

/-- The checks are real: without its last mark a window is broken, and clearing its first one finds no
    other. -/
example :
    let broken : Window := ⟨⟨4, #[0x80], 0⟩, ⟨15, by decide, by decide⟩, some ⟨0, 1, 5⟩⟩
    fault? (unmarkRun broken 5 1) = some .fallback := by decide +kernel

end SequenceTracking.Checked
