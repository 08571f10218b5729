import SequenceTracking.Proofs.Window.Anchored

/-!
What clearing does to a valid window. The boundary scans always succeed, because the opposite boundary
is still set after the run is cleared; so each case leaves a window that is known exactly, stays valid
and has lost the numbers of the run and no others.
-/
namespace SequenceTracking.Window

variable {w : Window} {p : Placement} {extent : Nat}

/-- What is left after a cut of the offsets `lo .. hi`, in the four places that it can have. -/
inductive Cut (w : Window) (p : Placement) (extent lo hi : Nat) : Step → Prop where
  | all (from_first : lo = 0) (to_last : hi = extent) :
    Cut w p extent lo hi
      ⟨.done (w.written p lo (hi - lo + 1) false none), [.emptied p.lowest]⟩
  | front (from_first : lo = 0) (short : hi < extent) (j : Nat) (past : hi < j) (within_span : j ≤ extent)
      (set : w.atOffset p j = true) (between : ∀ i, hi < i → i < j → w.atOffset p i = false) :
    Cut w p extent lo hi (.done (w.written p lo (hi - lo + 1) false
      (some ⟨p.position w.capacity j, p.stop, w.space.advance p.lowest j⟩)))
  | back (inner : 0 < lo) (to_last : hi = extent) (j : Nat) (before : j < lo)
      (set : w.atOffset p j = true) (between : ∀ i, j < i → i < lo → w.atOffset p i = false) :
    Cut w p extent lo hi (.done (w.written p lo (hi - lo + 1) false
      (some { p with stop := p.position w.capacity j })))
  | middle (inner : 0 < lo) (short : hi < extent) :
    Cut w p extent lo hi (.done (w.written p lo (hi - lo + 1) false w.placement?))

theorem atOffset_cleared (valid : w.Valid) (anchored : w.Anchored p extent) {lo hi : Nat}
    (ordered : lo ≤ hi) (within_span : hi ≤ extent) (placement? : Option Placement) {k : Nat}
    (inside : k < w.capacity) :
    (w.written p lo (hi - lo + 1) false placement?).atOffset p k =
      if lo ≤ k ∧ k ≤ hi then false else w.atOffset p k := by
  have extent_lt := anchored.extent_lt
  rw [atOffset_written valid.sound anchored.start_lt (by omega) inside]
  by_cases cleared : lo ≤ k ∧ k ≤ hi
  · rw [if_pos cleared, if_pos (by omega)]
  · rw [if_neg cleared, if_neg (by omega)]

theorem atOffset_outside (valid : w.Valid) (anchored : w.Anchored p extent) {lo hi : Nat}
    (ordered : lo ≤ hi) (within_span : hi ≤ extent) (placement? : Option Placement) {k : Nat}
    (inside : k < w.capacity) (outside : k < lo ∨ hi < k) :
    (w.written p lo (hi - lo + 1) false placement?).atOffset p k = w.atOffset p k := by
  rw [atOffset_cleared valid anchored ordered within_span placement? inside, if_neg (by omega)]

section Boundaries

variable {lo hi : Nat} (valid : w.Valid) (anchored : w.Anchored p extent) (ordered : lo ≤ hi)
  (within_span : hi ≤ extent) (placement? : Option Placement)

include valid anchored ordered within_span

theorem written_scannable :
    (w.written p lo (hi - lo + 1) false placement?).bits.Valid ∧
      p.start < (w.written p lo (hi - lo + 1) false placement?).capacity := by
  have extent_lt := anchored.extent_lt
  rw [capacity_written]
  exact ⟨(written_sound valid.sound anchored.start_lt (by omega) false placement?).bits_valid, anchored.start_lt⟩

theorem nextPosition?_cleared (short : hi < extent) :
    ∃ j, hi < j ∧ j ≤ extent ∧ w.atOffset p j = true ∧
      (∀ i, hi < i → i < j → w.atOffset p i = false) ∧
      (w.written p lo (hi - lo + 1) false placement?).nextPosition?
        (p.position w.capacity (hi + 1)) = some (p.position w.capacity j) := by
  have extent_lt := anchored.extent_lt
  obtain ⟨bits_valid, start_lt⟩ := written_scannable valid anchored ordered within_span placement?
  obtain ⟨j, search⟩ := Search.exists_least? (w.atOffset p) (show hi + 1 ≤ extent by omega)
    (show extent < hi + 1 + (w.capacity - (hi + 1)) by omega) anchored.last
  obtain ⟨past, below, set, between⟩ := Search.least?_eq_some_iff.mp search
  have left : Search.least? ((w.written p lo (hi - lo + 1) false placement?).atOffset p) (hi + 1)
      (w.capacity - (hi + 1)) = some j := by
    rw [← search]
    apply Search.least?_congr
    intro i above within
    exact atOffset_outside valid anchored ordered within_span placement? (by omega) (by omega)
  rw [← capacity_written w p lo (hi - lo + 1) false placement?] at left
  have scan := nextPosition?_eq bits_valid start_lt left
  rw [capacity_written] at scan
  exact ⟨j, past, anchored.le_extent (by omega) set, set, between, scan⟩

theorem prevPosition?_cleared (inner : 0 < lo) :
    ∃ j, j < lo ∧ w.atOffset p j = true ∧
      (∀ i, j < i → i < lo → w.atOffset p i = false) ∧
      (w.written p lo (hi - lo + 1) false placement?).prevPosition?
        (p.position w.capacity (lo - 1)) = some (p.position w.capacity j) := by
  have extent_lt := anchored.extent_lt
  obtain ⟨bits_valid, start_lt⟩ := written_scannable valid anchored ordered within_span placement?
  obtain ⟨j, search⟩ := Search.exists_greatest? (w.atOffset p) (Nat.le_refl 0)
    (show 0 < 0 + (lo - 1 + 1) by omega) anchored.first
  obtain ⟨_, below, set, between⟩ := Search.greatest?_eq_some_iff.mp search
  have left : Search.greatest? ((w.written p lo (hi - lo + 1) false placement?).atOffset p) 0
      (lo - 1 + 1) = some j := by
    rw [← search]
    apply Search.greatest?_congr
    intro i _ before
    exact atOffset_outside valid anchored ordered within_span placement? (by omega) (by omega)
  have scan := prevPosition?_eq bits_valid start_lt (by rw [capacity_written]; omega) left
  rw [capacity_written] at scan
  exact ⟨j, by omega, set, fun i above early => between i above (by omega), scan⟩

end Boundaries

theorem cut_cases (valid : w.Valid) (anchored : w.Anchored p extent) {lo hi : Nat} (ordered : lo ≤ hi)
    (within_span : hi ≤ extent) : w.Cut p extent lo hi (w.cut p lo hi) := by
  have extent_lt := anchored.extent_lt
  have start_lt := anchored.start_lt
  unfold cut
  simp only [anchored.extent_eq]
  by_cases from_first : lo = 0
  · by_cases to_last : hi = extent
    · rw [if_pos ⟨from_first, to_last⟩]
      exact .all from_first to_last
    · obtain ⟨j, past, up_to, set, between, scan⟩ :=
        nextPosition?_cleared valid anchored ordered within_span w.placement? (by omega)
      unfold written at scan
      rw [if_neg (by omega), if_pos from_first, scan]
      simp only [Placement.offset_position start_lt (show j < w.capacity by omega)]
      exact .front from_first (by omega) j past up_to set between
  · by_cases to_last : hi = extent
    · obtain ⟨j, before, set, between, scan⟩ :=
        prevPosition?_cleared valid anchored ordered within_span w.placement? (by omega)
      unfold written at scan
      rw [if_neg (by omega), if_neg from_first, if_pos to_last, scan]
      exact .back (by omega) to_last j before set between
    · rw [if_neg (by omega), if_neg from_first, if_neg to_last]
      exact .middle (by omega) (by omega)

def Spared (w : Window) (p : Placement) (lo hi : Nat) (seq : UInt32) : Prop :=
  w.contains seq = true ∧ ¬ w.space.InArc (w.space.advance p.lowest lo) (hi - lo + 1) seq

theorem leaves_spared (valid : w.Valid) (anchored : w.Anchored p extent) {lo hi : Nat}
    (ordered : lo ≤ hi) (within_span : hi ≤ extent) (q : Placement) (last : Nat)
    (placed : (w.written p lo (hi - lo + 1) false (some q)).Anchored q last)
    (same : ∀ seq, (w.written p lo (hi - lo + 1) false (some q)).MarkedFrom q seq ↔
      (w.written p lo (hi - lo + 1) false (some q)).MarkedFrom p seq)
    {s : Step} (left : s = .done (w.written p lo (hi - lo + 1) false (some q))) :
    s.Leaves w (w.Spared p lo hi) := by
  subst left
  have extent_lt := anchored.extent_lt
  have fits : lo + (hi - lo + 1) ≤ w.capacity := by omega
  have sound : (w.written p lo (hi - lo + 1) false (some q)).Sound :=
    written_sound valid.sound anchored.start_lt fits false (some q)
  refine ⟨rfl, placed.valid sound, rfl, capacity_written _ _ _ _ _ _, fun seq => ?_⟩
  refine (contains_iff_markedFrom sound placed seq).trans ((same seq).trans ?_)
  rw [markedFrom_written valid.sound anchored.start_lt fits false,
    ← contains_iff_markedFrom valid.sound anchored]
  simp [Spared]

section Cases

variable {lo hi : Nat} (valid : w.Valid) (anchored : w.Anchored p extent) (ordered : lo ≤ hi)
  (within_span : hi ≤ extent)

include valid anchored ordered within_span

theorem leaves_all (from_first : lo = 0) (to_last : hi = extent) :
    (⟨.done (w.written p lo (hi - lo + 1) false none), [.emptied p.lowest]⟩ : Step).Leaves w
      (w.Spared p lo hi) := by
  have extent_lt := anchored.extent_lt
  have start_lt := anchored.start_lt
  let rest := w.written p lo (hi - lo + 1) false none
  have rest_capacity : rest.capacity = w.capacity := capacity_written _ _ _ _ _ _
  have sound : rest.Sound := written_sound valid.sound start_lt (by omega) false none
  have clear_at : ∀ k, k < w.capacity → rest.atOffset p k = false := by
    intro k inside
    rw [atOffset_cleared valid anchored ordered within_span none inside]
    split
    · rfl
    · exact anchored.beyond k (by omega) inside
  have clear : ∀ i, rest.bits.contains i = false := by
    intro i
    by_cases inside : i < w.capacity
    · rw [contains_eq_atOffset (w := rest) (p := p) (by rwa [rest_capacity]) (by rwa [rest_capacity])]
      exact clear_at _ (by rw [rest_capacity]; exact p.offset_lt start_lt i)
    · exact PackedBits.contains_of_le (by
        rw [← rest_capacity] at inside
        exact Nat.le_of_not_lt inside)
  refine ⟨rfl, sound.valid_of_empty rfl clear, rfl, rest_capacity, fun seq => ?_⟩
  have none_marked : ¬ rest.MarkedFrom p seq := by
    intro given
    obtain ⟨k, _, _, set⟩ := given
    exact absurd set (by simp [atOffset, clear])
  rw [markedFrom_written valid.sound start_lt (by omega) false,
    ← contains_iff_markedFrom valid.sound anchored] at none_marked
  simp only [Bool.false_eq_true, false_and, false_or] at none_marked
  simp only [Spared, none_marked, iff_false, Bool.not_eq_true]
  exact contains_of_unplaced rfl seq

theorem leaves_front (from_first : lo = 0) {j : Nat} (past : hi < j) (within_j : j ≤ extent)
    (set : w.atOffset p j = true) (between : ∀ i, hi < i → i < j → w.atOffset p i = false) :
    (Step.done (w.written p lo (hi - lo + 1) false
      (some ⟨p.position w.capacity j, p.stop, w.space.advance p.lowest j⟩))).Leaves w
      (w.Spared p lo hi) := by
  have extent_lt := anchored.extent_lt
  have start_lt := anchored.start_lt
  let q : Placement := ⟨p.position w.capacity j, p.stop, w.space.advance p.lowest j⟩
  let rest := w.written p lo (hi - lo + 1) false (some q)
  have rest_capacity : rest.capacity = w.capacity := capacity_written _ _ _ _ _ _
  have rest_start : p.start < rest.capacity := by rwa [rest_capacity]
  have moved : q.start = p.position rest.capacity j := by rw [rest_capacity]
  have bits : ∀ k, k < w.capacity → rest.atOffset p k =
      if lo ≤ k ∧ k ≤ hi then false else w.atOffset p k :=
    fun k inside => atOffset_cleared valid anchored ordered within_span _ inside
  have clear : ∀ k, k < j → rest.atOffset p k = false := by
    intro k early
    rw [bits k (by omega)]
    split
    · rfl
    · exact between k (by omega) early
  have kept : ∀ k, j + k < w.capacity → rest.atOffset q k = w.atOffset p (j + k) := by
    intro k inside
    rw [atOffset_shift rest_start moved (by rwa [rest_capacity]), bits _ inside, if_neg (by omega)]
  apply leaves_spared valid anchored ordered within_span q (extent - j) _ _ rfl
  · apply anchored_of_written (p.position_lt start_lt j) (by omega) _ (w.space.advance_le _ _)
    · rw [kept 0 (by omega)]
      exact set
    · have parts : j + (extent - j) = extent := by omega
      rw [kept (extent - j) (by omega), parts]
      exact anchored.last
    · intro k beyond inside
      by_cases on : j + k < w.capacity
      · rw [kept k on]
        exact anchored.beyond _ (by omega) on
      · rw [atOffset_shift_wrap rest_start moved (by omega) (by omega) (by omega)]
        exact clear _ (by omega)
    · have parts : j + (extent - j) = extent := by omega
      rw [Placement.position_shift start_lt rfl (by omega), parts]
      exact anchored.stop_eq
  · exact markedFrom_shift rest_start (by rw [rest_capacity]; omega) moved rfl clear

theorem leaves_back (inner : 0 < lo) (to_last : hi = extent) {j : Nat} (before : j < lo)
    (set : w.atOffset p j = true) (between : ∀ i, j < i → i < lo → w.atOffset p i = false) :
    (Step.done (w.written p lo (hi - lo + 1) false
      (some { p with stop := p.position w.capacity j }))).Leaves w (w.Spared p lo hi) := by
  have extent_lt := anchored.extent_lt
  let q : Placement := { p with stop := p.position w.capacity j }
  let rest := w.written p lo (hi - lo + 1) false (some q)
  have bits : ∀ k, k < w.capacity → rest.atOffset q k =
      if lo ≤ k ∧ k ≤ hi then false else w.atOffset p k :=
    fun k inside => atOffset_cleared valid anchored ordered within_span _ inside
  apply leaves_spared valid anchored ordered within_span q j _ _ rfl
  · apply anchored_of_written (q := q) anchored.start_lt (by omega) rfl anchored.lowest_le
    · rw [bits 0 (by omega), if_neg (by omega)]
      exact anchored.first
    · rw [bits j (by omega), if_neg (by omega)]
      exact set
    · intro k beyond inside
      rw [bits k inside]
      split
      · rfl
      · by_cases early : k < lo
        · exact between k beyond early
        · exact anchored.beyond k (by omega) inside
  · intro seq
    rfl

theorem leaves_middle (inner : 0 < lo) (short : hi < extent) :
    (Step.done (w.written p lo (hi - lo + 1) false (some p))).Leaves w (w.Spared p lo hi) := by
  have extent_lt := anchored.extent_lt
  let rest := w.written p lo (hi - lo + 1) false (some p)
  have bits : ∀ k, k < w.capacity → rest.atOffset p k =
      if lo ≤ k ∧ k ≤ hi then false else w.atOffset p k :=
    fun k inside => atOffset_cleared valid anchored ordered within_span _ inside
  apply leaves_spared valid anchored ordered within_span p extent _ _ rfl
  · apply anchored_of_written anchored.start_lt extent_lt anchored.stop_eq anchored.lowest_le
    · rw [bits 0 (by omega), if_neg (by omega)]
      exact anchored.first
    · rw [bits extent extent_lt, if_neg (by omega)]
      exact anchored.last
    · intro k beyond inside
      rw [bits k inside, if_neg (by omega)]
      exact anchored.beyond k beyond inside
  · intro seq
    rfl

theorem cut_leaves : (w.cut p lo hi).Leaves w (w.Spared p lo hi) := by
  have shape := cut_cases valid anchored ordered within_span
  generalize w.cut p lo hi = left at shape ⊢
  cases shape with
  | all from_first to_last =>
    exact leaves_all valid anchored ordered within_span from_first to_last
  | front from_first _ j past within_j set between =>
    exact leaves_front valid anchored ordered within_span from_first past within_j set between
  | back inner to_last j before set between =>
    exact leaves_back valid anchored ordered within_span inner to_last before set between
  | middle inner short =>
    rw [anchored.placed]
    exact leaves_middle valid anchored ordered within_span inner short

end Cases

end SequenceTracking.Window
