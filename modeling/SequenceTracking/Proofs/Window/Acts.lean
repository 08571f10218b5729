import SequenceTracking.Proofs.Window.Bisimulation
import SequenceTracking.Proofs.Window.Messages

/-!
Single acts on a window, and what each of them reports. To mark a run or to clear one is all that ever happens to
the marks of a window on the way; whatever else is done is done act by act. An act reports one event at most, and
its event tells what became of the lowest mark: whether there was none before, whether there is none now, and how
far it moved back.
-/
namespace SequenceTracking.Window

variable {w : Window} {p : Placement} {seq : UInt32} {n : Nat}

inductive Act where
  | mark (seq : UInt32) (count : Nat)
  | unmark (seq : UInt32) (count : Nat)
  deriving DecidableEq, Repr

def Act.step (w : Window) : Act → Step
  | .mark seq count => w.markRun seq count
  | .unmark seq count => w.unmarkRun seq count

theorem Act.step_valid (valid : w.Valid) (act : Act) : (act.step w).state.Valid := by
  cases act with
  | mark seq count => exact ((markRun_decides valid seq count).orderly valid).valid
  | unmark seq count => exact (unmarkRun_leaves valid seq count).valid

theorem isOccupied_eq (w : Window) : w.isOccupied = w.first?.isSome := by
  rw [isOccupied, first?, Option.isSome_map]

/-! ### Reports -/

inductive MarkReport (w : Window) (seq : UInt32) (count : Nat) (s : Step) : Prop where
  | quiet (first_eq : s.state.first? = w.first?) (events_eq : s.events = [])
  | refused (lowest : UInt32) (span : Nat) (reason : Failure) (first_eq : s.state.first? = w.first?)
      (events_eq : s.events = [.refused seq count lowest span reason])
  | anchored (before : w.first? = none) (after : s.state.first? = some seq)
      (events_eq : s.events = [.anchored seq count])
  | back (n : Nat) (moved : 0 < n) (near : n < w.capacity)
      (before : w.first? = some (w.space.advance seq n)) (after : s.state.first? = some seq)
      (events_eq : s.events = [.slidBack n seq])

theorem extend_report (valid : w.Valid) (placed : w.placement? = some p) (reduced : seq ≤ w.space.mask)
    (count : Nat) : MarkReport w seq count (w.extend p seq count) := by
  have anchored := valid.anchored placed
  generalize lo_eq : w.space.distance seq p.lowest = lo
  obtain ⟨_, events_eq⟩ := extend_reports anchored seq count lo_eq
  rcases extend_cases anchored seq count lo_eq with ⟨wide, state_eq, _⟩ | ⟨narrow, _, state_eq⟩
  · rw [if_pos wide] at events_eq
    exact .refused _ _ _ (by rw [state_eq]) events_eq
  · rw [if_neg (by omega)] at events_eq
    have near : -(min lo 0) < w.capacity := by
      unfold mergedSpan at narrow
      omega
    obtain ⟨_, lowest_eq, _⟩ := slide_before valid anchored reduced (lo + count - 1) lo_eq near
    have after : (w.extend p seq count).state.first? = some (w.space.advance p.lowest (min lo 0)) := by
      rw [state_eq, ← lowest_eq]
      rfl
    by_cases behind : lo < 0
    · rw [if_pos behind] at events_eq
      have lower : min lo 0 = lo := by omega
      have to_seq : w.space.advance p.lowest lo = seq := by
        rw [← lo_eq, Space.advance_distance, w.space.reduce_of_le reduced]
      rw [lower, to_seq] at after
      refine .back (-lo).toNat (by omega) (by omega) ?_ after events_eq
      rw [anchored.first?_eq, ← to_seq, Space.advance_advance, Int.toNat_of_nonneg (by omega), Int.add_right_neg,
        Space.advance_zero, w.space.reduce_of_le anchored.lowest_le]
    · rw [if_neg behind] at events_eq
      have still : min lo 0 = 0 := by omega
      rw [still, Space.advance_zero, w.space.reduce_of_le anchored.lowest_le] at after
      exact .quiet (after.trans anchored.first?_eq.symm) events_eq

theorem markRun_report (valid : w.Valid) (seq : UInt32) (count : Nat) :
    MarkReport w (w.space.reduce seq) count (w.markRun seq count) := by
  unfold markRun
  split
  · exact .quiet rfl rfl
  split
  · exact .quiet rfl rfl
  cases placed : w.placement? with
  | none =>
    have before : w.first? = none := by rw [first?, placed, Option.map_none]
    exact .anchored before rfl rfl
  | some p => exact extend_report valid placed (w.space.reduce_le seq) count

inductive ClearReport (w : Window) (s : Step) : Prop where
  | quiet (occupied_eq : s.state.isOccupied = w.isOccupied) (events_eq : s.events = [])
  | emptied (first : UInt32) (before : w.first? = some first) (after : s.state.first? = none)
      (events_eq : s.events = [.emptied first])

theorem cut_report (valid : w.Valid) (placed : w.placement? = some p) {lo hi : Nat} (ordered : lo ≤ hi)
    (within_span : hi ≤ w.extent p) : ClearReport w (w.cut p lo hi) := by
  have anchored := valid.anchored placed
  have occupied : w.isOccupied = true := by rw [isOccupied, placed, Option.isSome_some]
  have shape := cut_cases valid anchored ordered within_span
  generalize w.cut p lo hi = left at shape ⊢
  cases shape with
  | all => exact .emptied p.lowest anchored.first?_eq rfl rfl
  | front => exact .quiet occupied.symm rfl
  | back => exact .quiet occupied.symm rfl
  | middle => exact .quiet rfl rfl

theorem unmarkRun_report (valid : w.Valid) (seq : UInt32) (count : Nat) :
    ClearReport w (w.unmarkRun seq count) := by
  unfold unmarkRun
  cases placed : w.placement? with
  | none => exact .quiet rfl rfl
  | some p =>
    simp only
    split
    · exact .quiet rfl rfl
    · exact cut_report valid placed (by omega) (by omega)

theorem Act.length_events_le (valid : w.Valid) (act : Act) : (act.step w).events.length ≤ 1 := by
  cases act with
  | mark seq count =>
    cases markRun_report valid seq count with
    | quiet _ events_eq => simp [step, events_eq]
    | refused _ _ _ _ events_eq => simp [step, events_eq]
    | anchored _ _ events_eq => simp [step, events_eq]
    | back _ _ _ _ _ events_eq => simp [step, events_eq]
  | unmark seq count =>
    cases unmarkRun_report valid seq count with
    | quiet _ events_eq => simp [step, events_eq]
    | emptied _ _ _ events_eq => simp [step, events_eq]

/-! ### The lowest mark moving back -/

/-- The act marks numbers, and by that moves the lowest mark of an occupied window back to `seq` from the number
    `n` places ahead of it. -/
structure Retreats (w : Window) (act : Act) (n : Nat) (seq : UInt32) : Prop where
  marks : ∃ first count, act = .mark first count
  moved : 1 ≤ n
  ahead : n ≤ w.space.half
  before : w.first? = some (w.space.advance seq n)
  after : (act.step w).state.first? = some seq

theorem Retreats.first?_ne {act : Act} (retreats : Retreats w act n seq) :
    (act.step w).state.first? ≠ w.first? := by
  have moved := retreats.moved
  have ahead := retreats.ahead
  have total := w.space.size_eq
  rw [retreats.before, retreats.after]
  intro same
  have here := Option.some.inj same
  have reduced := w.space.reduce_advance seq n
  rw [← here, ← Space.advance_zero] at reduced
  have := w.space.advance_injOn seq (by omega) (by omega) (reduced.trans here)
  omega

theorem Act.slidBack_mem_iff (valid : w.Valid) (act : Act) (n : Nat) (seq : UInt32) :
    .slidBack n seq ∈ (act.step w).events ↔ Retreats w act n seq := by
  have short := valid.capacity_le
  have total := w.space.size_eq
  cases act with
  | mark first count =>
    cases markRun_report valid first count with
    | quiet first_eq events_eq =>
      simp only [step, events_eq, List.not_mem_nil, false_iff]
      exact fun retreats => retreats.first?_ne first_eq
    | refused _ _ _ first_eq events_eq =>
      simp only [step, events_eq, List.mem_singleton, reduceCtorEq, false_iff]
      exact fun retreats => retreats.first?_ne first_eq
    | anchored before _ events_eq =>
      simp only [step, events_eq, List.mem_singleton, reduceCtorEq, false_iff]
      intro retreats
      simp [retreats.before] at before
    | back m moved near before after events_eq =>
      simp only [step, events_eq, List.mem_singleton, Event.slidBack.injEq]
      constructor
      · rintro ⟨rfl, rfl⟩
        exact ⟨⟨_, _, rfl⟩, moved, by omega, before, after⟩
      · intro retreats
        have ahead := retreats.ahead
        obtain rfl := Option.some.inj (retreats.after.symm.trans after)
        have places := Option.some.inj (retreats.before.symm.trans before)
        have := w.space.advance_injOn _ (by omega) (by omega) places
        exact ⟨by omega, rfl⟩
  | unmark first count =>
    have no_retreat : ¬ Retreats w (.unmark first count) n seq := by
      intro retreats
      obtain ⟨_, _, marks⟩ := retreats.marks
      cases marks
    cases unmarkRun_report valid first count with
    | quiet _ events_eq => simp [step, events_eq, no_retreat]
    | emptied _ _ _ events_eq => simp [step, events_eq, no_retreat]

/-! ### Occupied and empty in turn -/

/-- The changes lead from one state of occupancy to the other, each to the opposite of the one before. -/
inductive Alternates : Bool → List Bool → Bool → Prop where
  | nil (occupied : Bool) : Alternates occupied [] occupied
  | cons {occupied final : Bool} {rest : List Bool} (later : Alternates (!occupied) rest final) :
      Alternates occupied ((!occupied) :: rest) final

theorem Alternates.append {a b c : Bool} {first second : List Bool} (left : Alternates a first b)
    (right : Alternates b second c) : Alternates a (first ++ second) c := by
  induction left with
  | nil => exact right
  | cons _ ih => exact .cons (ih right)

theorem Alternates.getElem {a b : Bool} {changes : List Bool} (alternates : Alternates a changes b) {i : Nat}
    (inside : i < changes.length) : changes[i] = if i % 2 = 0 then !a else a := by
  induction alternates generalizing i with
  | nil => simp at inside
  | cons _ ih =>
    cases i with
    | zero => rfl
    | succ i =>
      rw [List.getElem_cons_succ, ih, Bool.not_not]
      by_cases even : i % 2 = 0
      · rw [if_pos even, if_neg (by omega)]
      · rw [if_neg even, if_pos (by omega)]

theorem Alternates.final_eq {a b : Bool} {changes : List Bool} (alternates : Alternates a changes b) :
    b = changes.getLast?.getD a := by
  induction alternates with
  | nil => rfl
  | @cons a b rest _ ih =>
    cases rest with
    | nil => exact ih
    | cons next rest =>
      rw [List.getLast?_cons_cons, ih, List.getLast?_cons]
      rfl

theorem Act.alternates (valid : w.Valid) (act : Act) :
    Alternates w.isOccupied ((act.step w).events.filterMap Event.occupancy?) (act.step w).state.isOccupied := by
  cases act with
  | mark seq count =>
    simp only [step, isOccupied_eq]
    cases markRun_report valid seq count with
    | quiet first_eq events_eq =>
      rw [events_eq, first_eq]
      exact .nil _
    | refused _ _ _ first_eq events_eq =>
      rw [events_eq, first_eq]
      exact .nil _
    | anchored before after events_eq =>
      rw [events_eq, before, after]
      exact .cons (.nil _)
    | back _ _ _ before after events_eq =>
      rw [events_eq, before, after]
      exact .nil _
  | unmark seq count =>
    simp only [step]
    cases unmarkRun_report valid seq count with
    | quiet occupied_eq events_eq =>
      rw [events_eq, occupied_eq]
      exact .nil _
    | emptied first before after events_eq =>
      rw [events_eq, isOccupied_eq, isOccupied_eq, before, after]
      exact .cons (.nil _)

end SequenceTracking.Window
