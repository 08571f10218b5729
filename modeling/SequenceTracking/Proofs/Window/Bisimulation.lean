import SequenceTracking.Proofs.PairedRuns
import SequenceTracking.Proofs.Window.Alike
import SequenceTracking.Proofs.Window.Reachable

/-!
Windows that mark the same numbers cannot be told apart by any run. Every change and every merge turns out
the same on both: it is accepted or turned down for the same reason, reports the same events and leaves
windows that again mark the same numbers, although one of the two may write, scan and slide across the end
of storage where the other does not.
-/
namespace SequenceTracking.Window

open Session

variable {v w u x fresh : Window} {s t : Step} {p q : Placement} {extent : Nat}

/-! ### Steps -/

/-- Both steps report the same and leave windows that mark the same numbers. -/
structure Step.Alike (s t : Step) : Prop where
  failure_eq : s.failure? = t.failure?
  events_eq : s.events = t.events
  state : Window.Alike s.state t.state

theorem Alike.ended (alike : Alike v w) (reason? : Option Failure) (events : List Event) :
    Step.Alike ⟨⟨v, reason?⟩, events⟩ ⟨⟨w, reason?⟩, events⟩ := ⟨rfl, rfl, alike⟩

theorem Alike.done (alike : Alike v w) : Step.Alike (.done v) (.done w) := alike.ended none []

theorem Alike.refused (alike : Alike v w) (reason : Failure) :
    Step.Alike (.refused v reason) (.refused w reason) := alike.ended (some reason) []

theorem Step.Alike.andThen (alike : s.Alike t) {f g : Window → Step}
    (next : ∀ {v w}, Window.Alike v w → (f v).Alike (g w)) : (s.andThen f).Alike (t.andThen g) := by
  have rest := next alike.state
  cases accepted : s.failure? with
  | some reason =>
    rw [andThen_of_refused accepted, andThen_of_refused (alike.failure_eq.symm.trans accepted)]
    exact alike
  | none =>
    unfold Step.andThen
    rw [← alike.failure_eq, accepted]
    exact ⟨rest.failure_eq, congrArg₂ (· ++ ·) alike.events_eq rest.events_eq, rest.state⟩

theorem Alike.each {α : Type} {f g : Window → α → Step}
    (next : ∀ {v w}, Alike v w → ∀ item, (f v item).Alike (g w item)) (alike : Alike v w)
    (items : List α) : (Step.each items f v).Alike (Step.each items g w) := by
  induction items generalizing v w with
  | nil => exact alike.done
  | cons item rest ih =>
    rw [Step.each_cons, Step.each_cons]
    exact (next alike item).andThen ih

theorem Step.Decides.alike {fits : Prop} {marks : UInt32 → Prop} (first : s.Decides v fits marks)
    (second : t.Decides w fits marks) (alike : Window.Alike v w) : Window.Alike s.state t.state := by
  by_cases room : fits
  · exact (first.leaves room).alike (second.leaves room) alike.space_eq alike.capacity_eq
  · rw [(first.overflows room).unchanged, (second.overflows room).unchanged]
    exact alike

/-! ### Marking -/

theorem extend_reports (anchored : w.Anchored p extent) (seq : UInt32) (count : Nat) {lo : Int}
    (lo_eq : w.space.distance seq p.lowest = lo) :
    let needed := mergedSpan extent lo (lo + count - 1)
    let reason := Failure.span needed.toNat w.capacity
    (w.extend p seq count).failure? = (if w.capacity < needed then some reason else none) ∧
      (w.extend p seq count).events =
        if w.capacity < needed then [.refused seq count p.lowest (extent + 1) reason]
        else if lo < 0 then [.slidBack (-lo).toNat seq] else [] := by
  intro needed reason
  delta extend
  simp only [lo_eq, misfit?_eq anchored, anchored.extent_eq]
  by_cases wide : (w.capacity : Int) < needed
  · simp only [needed] at wide
    simp only [if_pos wide, needed]
    exact ⟨rfl, rfl⟩
  · simp only [needed] at wide
    simp only [if_neg wide, needed]
    split
    · exact ⟨rfl, rfl⟩
    · exact ⟨rfl, rfl⟩

theorem Abreast.extend_reports (abreast : Abreast v w p q) (alike : Alike v w) (seq : UInt32)
    (count : Nat) :
    (v.extend p seq count).failure? = (w.extend q seq count).failure? ∧
      (v.extend p seq count).events = (w.extend q seq count).events := by
  obtain ⟨failure, events⟩ := Window.extend_reports abreast.left seq count rfl
  obtain ⟨other_failure, other_events⟩ := Window.extend_reports abreast.right seq count rfl
  rw [failure, events, other_failure, other_events, abreast.extent_eq, abreast.lowest_eq,
    alike.space_eq, alike.capacity_eq]
  exact ⟨rfl, rfl⟩

theorem Alike.markRun (alike : Alike v w) (seq : UInt32) (count : Nat) :
    (v.markRun seq count).Alike (w.markRun seq count) := by
  have first := markRun_decides alike.left seq count
  have second := markRun_decides alike.right seq count
  simp only [← alike.fits_iff, ← alike.contains_eq, ← alike.space_eq] at second
  have reports : (v.markRun seq count).failure? = (w.markRun seq count).failure? ∧
      (v.markRun seq count).events = (w.markRun seq count).events := by
    delta Window.markRun
    rw [alike.capacity_eq]
    split
    · exact ⟨rfl, rfl⟩
    split
    · exact ⟨rfl, rfl⟩
    rcases alike.placements with ⟨placed, other_placed⟩ | ⟨p, q, placed, other_placed, abreast⟩
    · rw [placed, other_placed, alike.space_eq]
      exact ⟨rfl, rfl⟩
    · rw [placed, other_placed, alike.space_eq]
      exact abreast.extend_reports alike _ count
  exact ⟨reports.1, reports.2, first.alike second alike⟩

/-! ### Clearing -/

theorem cut_events (valid : w.Valid) (anchored : w.Anchored p extent) {lo hi : Nat} (ordered : lo ≤ hi)
    (within_span : hi ≤ extent) :
    (w.cut p lo hi).events = if lo = 0 ∧ hi = extent then [.emptied p.lowest] else [] := by
  have shape := cut_cases valid anchored ordered within_span
  generalize w.cut p lo hi = left at shape ⊢
  cases shape with
  | all from_first to_last => rw [if_pos ⟨from_first, to_last⟩]
  | front _ short =>
    rw [if_neg (by omega)]
    rfl
  | back inner =>
    rw [if_neg (by omega)]
    rfl
  | middle inner =>
    rw [if_neg (by omega)]
    rfl

theorem Alike.unmarkRun (alike : Alike v w) (seq : UInt32) (count : Nat) :
    (v.unmarkRun seq count).Alike (w.unmarkRun seq count) := by
  have first := unmarkRun_leaves alike.left seq count
  have second := unmarkRun_leaves alike.right seq count
  simp only [← alike.contains_eq, ← alike.space_eq, ← alike.capacity_eq] at second
  refine ⟨first.accepted.trans second.accepted.symm, ?_,
    first.alike second alike.space_eq alike.capacity_eq⟩
  unfold Window.unmarkRun
  rcases alike.placements with ⟨placed, other_placed⟩ | ⟨p, q, placed, other_placed, abreast⟩
  · rw [placed, other_placed]
    rfl
  · rw [placed, other_placed]
    simp only [← abreast.extent_eq, ← abreast.lowest_eq, ← alike.space_eq, ← alike.capacity_eq]
    split
    · rfl
    · rw [cut_events alike.left abreast.left (by omega) (by omega),
        cut_events alike.right abreast.right (by omega) (by have := abreast.extent_eq; omega),
        abreast.extent_eq, abreast.lowest_eq]

theorem Alike.toggle (alike : Alike v w) (seq : UInt32) :
    (v.toggle seq).Alike (w.toggle seq) := by
  unfold Window.toggle
  rw [alike.contains_eq]
  split
  · exact alike.unmarkRun seq 1
  · exact alike.markRun seq 1

theorem Alike.clear (alike : Alike v w) : Alike v.clear w.clear :=
  (clear_leaves alike.left).alike (clear_leaves alike.right) alike.space_eq alike.capacity_eq

theorem Alike.fill (alike : Alike v w) (seq : UInt32) : Alike (v.fill seq) (w.fill seq) := by
  have first := fill_leaves alike.left seq
  have second := fill_leaves alike.right seq
  simp only [← alike.space_eq, ← alike.capacity_eq] at second
  exact first.alike second alike.space_eq alike.capacity_eq

/-! ### Merging -/

theorem Alike.withinSpace (alike : Alike v w) (operand : Alike u x)
    (merged : v.space = u.space → s.Alike t) :
    (v.withinSpace u s).Alike (w.withinSpace x t) := by
  unfold Window.withinSpace
  rw [← alike.space_eq, ← operand.space_eq]
  split
  · rename_i same
    exact merged same
  · exact alike.refused _

theorem Alike.spanMisfit?_eq (alike : Alike v w) (first : UInt32) (extent : Nat) :
    v.spanMisfit? first extent = w.spanMisfit? first extent := by
  unfold spanMisfit?
  rcases alike.placements with ⟨placed, other_placed⟩ | ⟨p, q, placed, other_placed, abreast⟩
  · rw [placed, other_placed, alike.capacity_eq]
  · rw [placed, other_placed]
    simp only [misfit?_eq abreast.left, misfit?_eq abreast.right, abreast.extent_eq, abreast.lowest_eq,
      alike.space_eq, alike.capacity_eq]

theorem Alike.assign (alike : Alike v w) (operand : Alike u x) :
    (v.assign u).Alike (w.assign x) := by
  unfold Window.assign
  apply alike.withinSpace operand
  intro _
  rw [operand.span_eq, operand.marks_eq, alike.capacity_eq]
  split
  · exact alike.refused _
  · exact alike.clear.each (fun next item => next.markRun item 1) _

theorem Alike.union (alike : Alike v w) (operand : Alike u x) : (v.union u).Alike (w.union x) := by
  unfold Window.union
  apply alike.withinSpace operand
  intro _
  rw [operand.first_eq, operand.span_eq, operand.marks_eq, alike.occupied_eq]
  split
  · exact alike.done
  split
  · rw [alike.spanMisfit?_eq]
    split
    · exact alike.refused _
    · exact alike.each (fun next item => next.markRun item 1) _
  · exact alike.assign operand

theorem Alike.spanned_eq (alike : Alike v w) : v.spanned = w.spanned := by
  unfold spanned
  rw [alike.first_eq, alike.span_eq, alike.space_eq]

theorem Alike.unmarkWhere (alike : Alike v w) (drop : UInt32 → Bool) :
    (v.unmarkWhere drop).Alike (w.unmarkWhere drop) := by
  unfold Window.unmarkWhere
  rw [alike.spanned_eq]
  apply alike.each
  intro v w next seq
  rw [next.contains_eq]
  split
  · exact next.unmarkRun seq 1
  · exact next.done

theorem Alike.subtract (alike : Alike v w) (operand : Alike u x) :
    (v.subtract u).Alike (w.subtract x) := by
  have same_drop : u.contains = x.contains := funext operand.contains_eq
  unfold Window.subtract
  apply alike.withinSpace operand
  intro _
  rw [operand.occupied_eq, same_drop]
  split
  · exact alike.unmarkWhere x.contains
  · exact alike.done

theorem Alike.intersect (alike : Alike v w) (operand : Alike u x) :
    (v.intersect u).Alike (w.intersect x) := by
  unfold Window.intersect
  apply alike.withinSpace operand
  intro _
  simp only [operand.occupied_eq, operand.contains_eq]
  split
  · exact alike.unmarkWhere _
  · exact alike.clear.done

theorem Alike.symmDiff (alike : Alike v w) (operand : Alike u x) :
    (v.symmDiff u).Alike (w.symmDiff x) := by
  unfold Window.symmDiff
  apply alike.withinSpace operand
  intro _
  rw [operand.first_eq, operand.span_eq, operand.marks_eq]
  split
  · exact alike.done
  · rw [alike.spanMisfit?_eq]
    split
    · exact alike.refused _
    · exact alike.each (fun next item => next.toggle item) _

theorem Alike.subtractFrom (alike : Alike v w) (operand : Alike u x) (memory : Memory) :
    (v.subtractFrom memory u).Alike (w.subtractFrom memory x) := by
  -- both sides gather the same numbers in one new window
  unfold Window.subtractFrom
  apply alike.withinSpace operand
  intro _
  rw [alike.shape_eq]
  split
  · exact alike.refused _
  · rename_i fresh made
    have gathered : ∀ items, (Step.each items mark fresh).Alike (Step.each items mark fresh) :=
      (create_new made).valid.alike.each fun next item => next.markRun item 1
    simp only [operand.marks_eq, alike.contains_eq]
    split
    · exact alike.ended _ _
    · exact gathered _

/-! ### Another capacity -/

theorem Alike.trim (alike : Alike v w) (capacity : Nat) :
    (v.trim capacity).Alike (w.trim capacity) := by
  unfold Window.trim
  rw [alike.first_eq, alike.capacity_eq, alike.space_eq]
  split
  · split
    · exact alike.unmarkRun _ _
    · exact alike.done
  · exact alike.done

theorem Alike.resize (alike : Alike v w) (memory : Memory) (capacity : Nat) :
    (v.resize memory capacity).Alike (w.resize memory capacity) := by
  unfold Window.resize
  rw [alike.shape_eq]
  cases made : create memory (w.shape.withCapacity capacity) with
  | error reason => exact alike.refused reason
  | ok fresh =>
    have trimmed := alike.trim capacity
    have copied := (create_new made).valid.alike.assign trimmed.state
    simp only [copied.failure_eq, copied.events_eq, trimmed.events_eq, copied.state.count_eq,
      alike.capacity_eq]
    cases (fresh.assign (w.trim capacity).state).failure? with
    | some reason => exact trimmed.state.ended (some reason) _
    | none => exact copied.state.ended none _

/-! ### Every command -/

theorem Alike.edit (alike : Alike v w) (memory : Memory) (change : Edit) :
    (v.edit memory change).Alike (w.edit memory change) := by
  cases change with
  | mark seq => exact alike.markRun seq 1
  | unmark seq => exact alike.unmarkRun seq 1
  | toggle seq => exact alike.toggle seq
  | markRun seq count => exact alike.markRun seq count
  | unmarkRun seq count => exact alike.unmarkRun seq count
  | clear => exact alike.clear.done
  | fill seq => exact (alike.fill seq).done
  | resize capacity => exact alike.resize memory capacity

theorem Alike.merge (alike : Alike v w) (operand : Alike u x) (memory : Memory) (kind : Merge) :
    (v.merge memory u kind).Alike (w.merge memory x kind) := by
  cases kind with
  | clone => exact operand.done
  | assign => exact alike.assign operand
  | union => exact alike.union operand
  | subtract => exact alike.subtract operand
  | subtractFrom => exact alike.subtractFrom operand memory
  | intersect => exact alike.intersect operand
  | symmDiff => exact alike.symmDiff operand

theorem alike_respected (memory : Memory) :
    (machine memory).Respects id Alike Step.Alike where
  edit alike change := alike.edit memory change
  merge alike operand kind := alike.merge operand memory kind
  state alike := alike.state

structure Step.Indistinguishable (s t : Step) : Prop where
  failure_eq : s.failure? = t.failure?
  events_eq : s.events = t.events
  state : Window.Indistinguishable s.state t.state

theorem Step.Alike.indistinguishable (alike : s.Alike t) : s.Indistinguishable t :=
  ⟨alike.failure_eq, alike.events_eq, alike.state.indistinguishable⟩

theorem Reachable.alike (left : v.Reachable) (right : w.Reachable) (same : v.sameMarks w = true) :
    Alike v w := (sameMarks_iff_alike left.valid right.valid).mp same

/-- Where the marks lie in storage cannot be observed: equal windows answer every question alike, and
    with equal operands every change and every merge of them reports the same and leaves equal windows.
    So any two runs of the same commands on registers with equal windows have the same results. -/
theorem placement_unobservable (left : v.Reachable) (right : w.Reachable)
    (same : v.sameMarks w = true) (operand_left : u.Reachable) (operand_right : x.Reachable)
    (same_operand : u.sameMarks x = true) (memory : Memory) :
    v.Indistinguishable w ∧ v.sameMarks u = w.sameMarks x ∧
      (∀ change, (v.edit memory change).Indistinguishable (w.edit memory change)) ∧
      (∀ kind, (v.merge memory u kind).Indistinguishable (w.merge memory x kind)) ∧
      ∀ s t : Session Window, s.All Reachable → t.All Reachable →
        Paired (fun a b => a.sameMarks b = true) s t → ∀ commands : List (Command Edit),
          List.Forall₂ (Option.Rel Step.Indistinguishable) (s.results (machine memory) commands)
              (t.results (machine memory) commands) ∧
            Paired Indistinguishable (s.run (machine memory) commands)
              (t.run (machine memory) commands) := by
  have alike := left.alike right same
  have operand := operand_left.alike operand_right same_operand
  refine ⟨alike.indistinguishable, ?_, fun change => (alike.edit memory change).indistinguishable,
    fun kind => (alike.merge operand memory kind).indistinguishable, ?_⟩
  · unfold sameMarks
    rw [alike.shape_eq, alike.marks_eq, operand.shape_eq, operand.marks_eq]
  · intro s t s_reachable t_reachable equal commands
    have paired : Paired Alike s t := equal.imp fun register a b here there same =>
      (s_reachable register a here).alike (t_reachable register b there) same
    obtain ⟨results, registers⟩ := paired.run (alike_respected memory) commands
    simp only [funext Command.map_id, List.map_id'] at results registers
    refine ⟨results.imp ?_, registers.imp fun _ _ _ _ _ alike => alike.indistinguishable⟩
    intro x y related
    cases related with
    | none => exact .none
    | some alike => exact .some alike.indistinguishable

theorem placement_unobservable_of_rotated :
    let v : Window := ⟨⟨4, #[0xC0], 0⟩, ⟨15, by decide, by decide⟩, some ⟨0, 1, 15⟩⟩
    let w : Window := ⟨⟨4, #[0x90], 0⟩, ⟨15, by decide, by decide⟩, some ⟨3, 0, 15⟩⟩
    let u : Window := ⟨⟨4, #[0x80], 0⟩, ⟨15, by decide, by decide⟩, some ⟨0, 0, 1⟩⟩
    let x : Window := ⟨⟨4, #[0x40], 1⟩, ⟨15, by decide, by decide⟩, some ⟨1, 1, 1⟩⟩
    let commands : List (Command Edit) :=
      [.merge 0 1 .symmDiff, .edit 0 (.unmark 15), .edit 0 (.mark 8), .edit 0 (.resize 2)]
    v ≠ w ∧ u ≠ x ∧ v.Indistinguishable w ∧
      (v.merge .standard u .union).Indistinguishable (w.merge .standard x .union) ∧
      List.Forall₂ (Option.Rel Step.Indistinguishable)
        (results (machine .standard) #[some v, some u] commands)
        (results (machine .standard) #[some w, some x] commands) := by
  -- one window was filled forward, the other slid back over the end of its storage
  intro v w u x commands
  have v_reachable : v.Reachable :=
    reachable_of_run .standard [⟨4, 15⟩] [.edit 0 (.markRun 15 2)] 0 (by decide +kernel)
  have w_reachable : w.Reachable :=
    reachable_of_run .standard [⟨4, 15⟩] [.edit 0 (.mark 0), .edit 0 (.mark 15)] 0 (by decide +kernel)
  have u_reachable : u.Reachable :=
    reachable_of_run .standard [⟨4, 15⟩] [.edit 0 (.mark 1)] 0 (by decide +kernel)
  have x_reachable : x.Reachable :=
    reachable_of_run .standard [⟨4, 15⟩] [.edit 0 (.markRun 0 2), .edit 0 (.unmark 0)] 0
      (by decide +kernel)
  have same : v.sameMarks w = true := by decide +kernel
  have same_operand : u.sameMarks x = true := by decide +kernel
  obtain ⟨answers, _, _, merges, runs⟩ := placement_unobservable v_reachable w_reachable same
    u_reachable x_reachable same_operand .standard
  have registers : ∀ {a b : Window}, a.Reachable → b.Reachable →
      All Reachable (#[some a, some b] : Session Window) := by
    intro a b a_reachable b_reachable register c found
    rcases register with _ | _ | k
    · exact Option.some.inj found ▸ a_reachable
    · exact Option.some.inj found ▸ b_reachable
    · simp [get?] at found
  have paired : Paired (fun a b => a.sameMarks b = true) #[some v, some u] #[some w, some x] := by
    intro register
    rcases register with _ | _ | k
    · exact .some same
    · exact .some same_operand
    · simp only [get?, Array.getD_eq_getD_getElem?, List.getElem?_toArray, List.getElem?_cons_succ,
        List.getElem?_nil]
      exact .none
  exact ⟨by decide, by decide, answers, merges .union,
    (runs _ _ (registers v_reachable u_reachable) (registers w_reachable x_reachable) paired
      commands).1⟩

end SequenceTracking.Window
