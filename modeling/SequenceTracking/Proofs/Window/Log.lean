import SequenceTracking.Proofs.Window.Walks

/-!
The log of a run of calls. It holds what the acts report that the calls come down to, in order. So it tells when
the window was empty, also where that was only in between, and how far every slide moved its lowest mark back.
-/
namespace SequenceTracking.Window

variable {v w : Window}

def logged (threshold : Option Level) (events : List Event) : List String :=
  (events.filter (Event.visible threshold)).map Event.message

def afterCalls (w : Window) : List Call → Window
  | [] => w
  | call :: rest => afterCalls (call.step w).state rest

def events (w : Window) : List Call → List Event
  | [] => []
  | call :: rest => (call.step w).events ++ events (call.step w).state rest

def acts (w : Window) : List Call → List (Window × Act)
  | [] => []
  | call :: rest => call.acts w ++ acts (call.step w).state rest

def log (w : Window) (calls : List Call) : List String := logged (some .trace) (w.events calls)

def changes (w : Window) (calls : List Call) : List Bool := (w.log calls).filterMap announced?

theorem logged_trace (events : List Event) : logged (some .trace) events = events.map Event.message := by
  unfold logged
  rw [List.filter_eq_self.mpr fun event _ => by cases event <;> rfl]

theorem changes_eq (w : Window) (calls : List Call) :
    w.changes calls = (w.events calls).filterMap Event.occupancy? := by
  simp only [changes, log, logged_trace, List.filterMap_map, Function.comp_def, announced?_message]

theorem slidBack_mem_logged (events : List Event) (n : Nat) (seq : UInt32) :
    s!"window slid back {n} to {seq}" ∈ logged (some .trace) events ↔ .slidBack n seq ∈ events := by
  simp only [logged_trace, List.mem_map, message_eq_slidBack_iff, exists_eq_right]

theorem Linked.valid {acts : List (Window × Act)} (linked : Linked w acts v) (valid : w.Valid) :
    v.Valid ∧ ∀ x ∈ acts, x.1.Valid := by
  induction linked with
  | nil => exact ⟨valid, fun _ listed => absurd listed List.not_mem_nil⟩
  | cons _ ih =>
    obtain ⟨last, rest⟩ := ih (Act.step_valid valid _)
    exact ⟨last, List.forall_mem_cons.mpr ⟨valid, rest⟩⟩

theorem Linked.alternates {acts : List (Window × Act)} (linked : Linked w acts v) (valid : w.Valid) :
    Alternates w.isOccupied ((reports acts).filterMap Event.occupancy?) v.isOccupied := by
  induction linked with
  | nil => exact .nil _
  | cons _ ih =>
    rw [reports, List.flatMap_cons, List.filterMap_append]
    exact (Act.alternates valid _).append (ih (Act.step_valid valid _))

section Runs

variable (valid : w.Valid) {calls : List Call}
  (operands : ∀ call ∈ calls, ∀ other, call.operand? = some other → other.Valid)
include valid operands

theorem run_takes : Linked w (w.acts calls) (w.afterCalls calls) ∧ w.events calls = reports (w.acts calls) := by
  induction calls generalizing w with
  | nil => exact ⟨.nil w, rfl⟩
  | cons call rest ih =>
    obtain ⟨here, later⟩ := List.forall_mem_cons.mp operands
    obtain ⟨linked, events_eq⟩ := call.takes valid here
    obtain ⟨rest_linked, rest_events_eq⟩ := ih (linked.valid valid).1 later
    refine ⟨linked.append rest_linked, ?_⟩
    rw [events, acts, reports_append, events_eq, rest_events_eq]

theorem run_alternates : Alternates w.isOccupied (w.changes calls) (w.afterCalls calls).isOccupied := by
  obtain ⟨linked, events_eq⟩ := run_takes valid operands
  rw [changes_eq, events_eq]
  exact linked.alternates valid

end Runs

/-- The log of a run from an empty window, down to the last level. Its messages that the window was anchored and
    that it was emptied come in turn, and after each call the last of them tells whether the window is occupied.
    The log is that of the acts which the calls come down to and which lead from the first window to the last, at
    most one message for each. A slide is logged for those that mark numbers and move the lowest mark of an
    occupied window back, with the distance and the number at which it came to lie. -/
theorem log_faithful (reachable : w.Reachable) (empty : w.isOccupied = false) {calls : List Call}
    (operands : ∀ call ∈ calls, ∀ other, call.operand? = some other → other.Reachable) :
    (∀ i (inside : i < (w.changes calls).length), (w.changes calls)[i] = true ↔ i % 2 = 0) ∧
    (∀ k, (w.afterCalls (calls.take k)).isOccupied = true ↔
      (w.changes (calls.take k)).getLast? = some true) ∧
    Linked w (w.acts calls) (w.afterCalls calls) ∧
    w.log calls = (w.acts calls).flatMap (fun x => logged (some .trace) (x.2.step x.1).events) ∧
    ∀ v act, (v, act) ∈ w.acts calls →
      (logged (some .trace) (act.step v).events).length ≤ 1 ∧
      ∀ n seq, s!"window slid back {n} to {seq}" ∈ logged (some .trace) (act.step v).events ↔
        Retreats v act n seq := by
  have valid := reachable.valid
  have operands_valid : ∀ call ∈ calls, ∀ other, call.operand? = some other → other.Valid :=
    fun call listed other found => (operands call listed other found).valid
  obtain ⟨linked, events_eq⟩ := run_takes valid operands_valid
  refine ⟨fun i inside => ?_, fun k => ?_, linked, ?_, fun v act listed => ?_⟩
  · have alternates := run_alternates valid operands_valid
    rw [empty] at alternates
    rw [alternates.getElem inside]
    simp
  · have so_far : ∀ call ∈ calls.take k, ∀ other, call.operand? = some other → other.Valid :=
      fun call listed => operands_valid call (List.mem_of_mem_take listed)
    have alternates := run_alternates valid so_far
    rw [empty] at alternates
    rw [alternates.final_eq]
    cases (w.changes (calls.take k)).getLast? <;> simp
  · simp only [log, events_eq, logged_trace, reports, List.map_flatMap]
  · have v_valid := (linked.valid valid).2 _ listed
    refine ⟨?_, fun n seq => ?_⟩
    · rw [logged_trace, List.length_map]
      exact act.length_events_le v_valid
    · rw [slidBack_mem_logged]
      exact act.slidBack_mem_iff v_valid n seq

theorem log_faithful_of_anchored_anew :
    let w : Window := ⟨⟨4, #[0], 4⟩, ⟨15, by decide, by decide⟩, none⟩
    let other : Window := ⟨⟨4, #[0xC0], 0⟩, ⟨15, by decide, by decide⟩, some ⟨0, 1, 14⟩⟩
    let wider : Window := ⟨⟨6, #[0xF0], 0⟩, ⟨15, by decide, by decide⟩, some ⟨0, 3, 14⟩⟩
    let calls : List Call := [.union other, .symmDiff wider, .mark 15, .mark 7, .unmarkRun 15 3]
    let v : Window := ⟨⟨4, #[0xC0], 0⟩, ⟨15, by decide, by decide⟩, some ⟨0, 1, 0⟩⟩
    w.changes calls = [true, false, true, false] ∧ (w.afterCalls (calls.take 2)).isOccupied = true ∧
      (w.afterCalls (calls.take 5)).isOccupied = false ∧ (v, .mark 15 1) ∈ w.acts calls ∧
      Retreats v (.mark 15 1) 1 15 := by
  -- flipping in four numbers clears both marks and anchors the window anew, past zero
  intro w other wider calls v
  have reachable : w.Reachable := reachable_of_run .standard [⟨4, 15⟩] [] 0 (by decide +kernel)
  have other_reachable : other.Reachable :=
    reachable_of_run .standard [⟨4, 15⟩] [.edit 0 (.markRun 14 2)] 0 (by decide +kernel)
  have wider_reachable : wider.Reachable :=
    reachable_of_run .standard [⟨6, 15⟩] [.edit 0 (.markRun 14 4)] 0 (by decide +kernel)
  have operands : ∀ call ∈ calls, ∀ x, call.operand? = some x → x.Reachable := by
    intro call listed x found
    simp only [calls, List.mem_cons, List.not_mem_nil, or_false] at listed
    rcases listed with rfl | rfl | rfl | rfl | rfl
    · exact Option.some.inj found ▸ other_reachable
    · exact Option.some.inj found ▸ wider_reachable
    all_goals cases found
  obtain ⟨_, occupied_iff, _, _, slides⟩ := log_faithful reachable (by decide) operands
  have anchored_anew : w.changes (calls.take 2) = [true, false, true] := by
    rw [changes_eq]
    decide +kernel
  have emptied : w.changes (calls.take 5) = [true, false, true, false] := by
    rw [changes_eq]
    decide +kernel
  have listed : (v, .mark 15 1) ∈ w.acts calls := by decide +kernel
  refine ⟨emptied, (occupied_iff 2).mpr ?_, Bool.eq_false_iff.mpr fun occupied => ?_, listed, ?_⟩
  · rw [anchored_anew]
    rfl
  · have last := (occupied_iff 5).mp occupied
    rw [emptied] at last
    cases last
  · apply ((slides v _ listed).2 1 15).mp
    rw [slidBack_mem_logged]
    decide +kernel

end SequenceTracking.Window
