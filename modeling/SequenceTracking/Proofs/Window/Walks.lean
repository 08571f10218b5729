import SequenceTracking.Proofs.Window.Acts

/-!
Calls as rows of acts. An edit comes down to one act. A merge that is not refused comes down to an act for each
number of its walk at which it does something, and each of them meets the window that the walk has left by then,
which may have been emptied and anchored anew on the way.
-/
namespace SequenceTracking.Window

variable {u v w other : Window} {s : Step}

inductive Call where
  | mark (seq : UInt32)
  | markRun (seq : UInt32) (count : Nat)
  | unmark (seq : UInt32)
  | unmarkRun (seq : UInt32) (count : Nat)
  | toggle (seq : UInt32)
  | union (other : Window)
  | subtract (other : Window)
  | symmDiff (other : Window)
  deriving DecidableEq, Repr

def Call.step (w : Window) : Call → Step
  | .mark seq => w.mark seq
  | .markRun seq count => w.markRun seq count
  | .unmark seq => w.unmark seq
  | .unmarkRun seq count => w.unmarkRun seq count
  | .toggle seq => w.toggle seq
  | .union other => w.union other
  | .subtract other => w.subtract other
  | .symmDiff other => w.symmDiff other

def Call.operand? : Call → Option Window
  | .union other => some other
  | .subtract other => some other
  | .symmDiff other => some other
  | _ => none

/-! ### Calls as acts -/

/-- The acts of a walk over numbers, each with the window that it meets; the walk ends where one is turned down. -/
def along (act? : Window → UInt32 → Option Act) : List UInt32 → Window → List (Window × Act)
  | [], _ => []
  | seq :: rest, w =>
    match act? w seq with
    | none => along act? rest w
    | some act => (w, act) :: if (act.step w).failure? = none then along act? rest (act.step w).state else []

def flip (w : Window) (seq : UInt32) : Act := if w.contains seq then .unmark seq 1 else .mark seq 1

def drop? (other w : Window) (seq : UInt32) : Option Act :=
  if w.contains seq && other.contains seq then some (.unmark seq 1) else none

/-- The acts that a call comes down to. A merge that is refused comes down to none. -/
def Call.acts (w : Window) : Call → List (Window × Act)
  | .mark seq => [(w, .mark seq 1)]
  | .markRun seq count => [(w, .mark seq count)]
  | .unmark seq => [(w, .unmark seq 1)]
  | .unmarkRun seq count => [(w, .unmark seq count)]
  | .toggle seq => [(w, w.flip seq)]
  | .union other =>
    if (w.union other).failure? = none then along (fun _ seq => some (.mark seq 1)) other.marks w else []
  | .subtract other => if (w.subtract other).failure? = none then along other.drop? w.spanned w else []
  | .symmDiff other =>
    if (w.symmDiff other).failure? = none then along (fun v seq => some (v.flip seq)) other.marks w else []

/-- The acts lead from the first window to the last: each meets the window that the one before it left. -/
inductive Linked : Window → List (Window × Act) → Window → Prop where
  | nil (w : Window) : Linked w [] w
  | cons {w v : Window} {act : Act} {rest : List (Window × Act)} (later : Linked (act.step w).state rest v) :
      Linked w ((w, act) :: rest) v

def reports (acts : List (Window × Act)) : List Event := acts.flatMap fun act => (act.2.step act.1).events

structure Step.Takes (s : Step) (w : Window) (acts : List (Window × Act)) : Prop where
  linked : Linked w acts s.state
  events_eq : s.events = reports acts

theorem Act.takes (w : Window) (act : Act) : (act.step w).Takes w [(w, act)] where
  linked := .cons (.nil _)
  events_eq := by rw [reports, List.flatMap_singleton]

theorem Step.done_takes (w : Window) : (Step.done w).Takes w [] := ⟨.nil w, rfl⟩

theorem Linked.append {first second : List (Window × Act)} (left : Linked u first v)
    (right : Linked v second w) : Linked u (first ++ second) w := by
  induction left with
  | nil => exact right
  | cons _ ih => exact .cons (ih right)

theorem reports_append (first second : List (Window × Act)) :
    reports (first ++ second) = reports first ++ reports second := List.flatMap_append

theorem toggle_eq (w : Window) (seq : UInt32) : w.toggle seq = (w.flip seq).step w := by
  unfold toggle flip
  split <;> rfl

theorem each_takes {next : Window → UInt32 → Step} {act? : Window → UInt32 → Option Act}
    (follows : ∀ v seq, next v seq = ((act? v seq).map (Act.step v)).getD (.done v))
    (items : List UInt32) (w : Window) :
    (Step.each items next w).Takes w (along act? items w) := by
  induction items generalizing w with
  | nil => exact Step.done_takes w
  | cons seq rest ih =>
    rw [Step.each_cons, follows]
    unfold along
    cases here : act? w seq with
    | none =>
      rw [Option.map_none, Option.getD_none, Step.done_andThen]
      exact ih w
    | some act =>
      rw [Option.map_some, Option.getD_some]
      cases refusal : (act.step w).failure? with
      | some reason =>
        rw [Step.andThen_of_refused refusal]
        simp only [refusal, reduceCtorEq, if_false]
        exact act.takes w
      | none =>
        obtain ⟨linked, events_eq⟩ := ih (act.step w).state
        unfold Step.andThen
        simp only [refusal, if_true]
        refine ⟨.cons linked, ?_⟩
        rw [events_eq]
        rfl

/-! ### Merges as walks -/

/-- The step refuses at once, or it is a walk that is not refused. -/
inductive Step.Walks (s : Step) (w : Window) (walk : Step) : Prop where
  | refused (reason : Failure) (s_eq : s = .refused w reason)
  | taken (s_eq : s = walk) (accepted : walk.failure? = none)

theorem Step.Walks.takes {walk : Step} {acts : List (Window × Act)} (walks : s.Walks w walk)
    (takes : walk.Takes w acts) : s.Takes w (if s.failure? = none then acts else []) := by
  cases walks with
  | refused reason s_eq =>
    subst s_eq
    exact ⟨.nil w, rfl⟩
  | taken s_eq accepted =>
    subst s_eq
    rwa [if_pos accepted]

theorem Valid.clear_eq (valid : w.Valid) (unplaced : w.placement? = none) : w.clear = w := by
  have bits_eq : w.bits.clear = w.bits := by
    apply (PackedBits.clear_valid valid.bits_valid).eq_of_contains valid.bits_valid rfl
    intro i
    rw [valid.unplaced unplaced, PackedBits.contains_clear]
  unfold clear
  rw [bits_eq, ← unplaced]

theorem withinSpace_walks {merged walk : Step} (walks : w.space = other.space → merged.Walks w walk) :
    (w.withinSpace other merged).Walks w walk := by
  by_cases same : w.space = other.space
  · rw [withinSpace_of_eq same]
    exact walks same
  · exact .refused _ (withinSpace_of_ne same _)

section Merges

variable (valid : w.Valid) (operand : other.Valid)
include valid operand

theorem each_mark_accepted (same : w.space = other.space) (admits : w.Admits fun x => other.contains x = true) :
    (Step.each other.marks mark w).failure? = none :=
  (each_mark_leaves valid ((admits_among_marks operand same).mpr admits)).accepted

theorem each_toggle_accepted (same : w.space = other.space)
    (admits : w.Admits fun x => other.contains x = true) :
    (Step.each other.marks toggle w).failure? = none := by
  have distinct := marks_distinct operand
  rw [← same] at distinct
  exact (each_toggle_leaves valid distinct ((admits_among_marks operand same).mpr admits)).accepted

theorem walks_of_check (same : w.space = other.space) {p : Placement} {extent : Nat}
    (anchored : other.Anchored p extent) {walk : Step}
    (accepted : (w.Admits fun x => other.contains x = true) → walk.failure? = none) :
    (match w.spanMisfit? p.lowest extent with
      | some reason => Step.refused w reason
      | none => walk).Walks w walk := by
  rcases spanMisfit?_cases valid p.lowest extent with ⟨fits, nothing⟩ | ⟨_, needed, _, refusal⟩
  · rw [nothing]
    exact .taken rfl (accepted ((admits_iff_fits valid operand same anchored).mpr fits))
  · rw [refusal]
    exact .refused _ rfl

theorem assign_walks (unplaced : w.placement? = none) :
    (w.assign other).Walks w (Step.each other.marks mark w) := by
  unfold assign
  rw [valid.clear_eq unplaced]
  apply withinSpace_walks
  intro same
  split
  · exact .refused _ rfl
  · rename_i room
    apply Step.Walks.taken rfl
    apply each_mark_accepted valid operand same
    exact (admits_iff_span_le valid unplaced operand same).mpr (Nat.le_of_not_lt room)

theorem union_walks : (w.union other).Walks w (Step.each other.marks mark w) := by
  unfold union
  apply withinSpace_walks
  intro same
  cases other_placed : other.placement? with
  | none =>
    rw [marks_of_unplaced other_placed, first?, other_placed]
    exact .taken rfl rfl
  | some q =>
    have anchored := operand.anchored other_placed
    rw [anchored.first?_eq]
    simp only [anchored.span_eq, Nat.add_sub_cancel]
    split
    · exact walks_of_check valid operand same anchored (each_mark_accepted valid operand same)
    · rename_i empty
      exact assign_walks valid operand (unplaced_of_not_occupied empty)

theorem symmDiff_walks : (w.symmDiff other).Walks w (Step.each other.marks toggle w) := by
  unfold symmDiff
  apply withinSpace_walks
  intro same
  cases other_placed : other.placement? with
  | none =>
    rw [marks_of_unplaced other_placed, first?, other_placed]
    exact .taken rfl rfl
  | some q =>
    have anchored := operand.anchored other_placed
    rw [anchored.first?_eq]
    simp only [anchored.span_eq, Nat.add_sub_cancel]
    exact walks_of_check valid operand same anchored (each_toggle_accepted valid operand same)

end Merges

theorem each_done {next : Window → UInt32 → Step} (still : ∀ seq, next w seq = .done w)
    (items : List UInt32) : Step.each items next w = .done w := by
  induction items with
  | nil => rfl
  | cons seq rest ih => rw [Step.each_cons, still, Step.done_andThen, ih]

/-- With nothing marked in the operand, the walk over the span would drop nothing. -/
theorem subtract_walks (valid : w.Valid) : (w.subtract other).Walks w (w.unmarkWhere other.contains) := by
  have accepted (same : w.space = other.space) : (w.unmarkWhere other.contains).failure? = none := by
    apply (unmarkWhere_leaves valid ?_).accepted
    rw [same]
    exact fun _ _ => other.contains_congr
  unfold subtract
  apply withinSpace_walks
  intro same
  split
  · exact .taken rfl (accepted same)
  · rename_i empty
    have unplaced := unplaced_of_not_occupied empty
    refine .taken (each_done (fun seq => ?_) w.spanned).symm (accepted same)
    rw [contains_of_unplaced unplaced, Bool.and_false]
    rfl

/-! ### Calls take their acts -/

theorem Call.takes (valid : w.Valid) (call : Call)
    (operand : ∀ other, call.operand? = some other → other.Valid) :
    (call.step w).Takes w (call.acts w) := by
  cases call with
  | mark seq => exact Act.takes w (.mark seq 1)
  | markRun seq count => exact Act.takes w (.mark seq count)
  | unmark seq => exact Act.takes w (.unmark seq 1)
  | unmarkRun seq count => exact Act.takes w (.unmark seq count)
  | toggle seq =>
    simp only [step, toggle_eq]
    exact Act.takes w (w.flip seq)
  | union other =>
    apply (union_walks valid (operand other rfl)).takes
    apply each_takes
    intro v seq
    rfl
  | subtract other =>
    apply (subtract_walks valid).takes
    apply each_takes
    intro v seq
    unfold drop?
    split
    · rfl
    · rfl
  | symmDiff other => exact (symmDiff_walks valid (operand other rfl)).takes (each_takes toggle_eq _ w)

end SequenceTracking.Window
