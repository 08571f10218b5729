import SequenceTracking.Proofs.MarkSet
import SequenceTracking.Proofs.Window.Alike
import SequenceTracking.Proofs.Window.Reachable

/-!
A window and a plain set of marks in step. Both start empty, and every change turns out the same on both:
the request is accepted by both or by neither, the same numbers are marked afterwards, and the lowest mark
is the same, although the set finds it by distance and the window by sliding and scanning.
-/
namespace SequenceTracking.Window

variable {w : Window} {m : MarkSet} {p : Placement}

/-- The set of marks describes the window. -/
structure Mirrors (w : Window) (m : MarkSet) : Prop where
  valid : w.Valid
  capacity_eq : m.capacity = w.capacity
  size_eq : m.size = w.space.size
  below : ∀ n ∈ m.marks, n < m.size
  mem_iff : ∀ seq, m.residue seq ∈ m.marks ↔ w.contains seq = true
  first_eq : m.first? = w.first?.map UInt32.toNat

/-! ### Residues -/

theorem residue_eq {s : Space} (same : m.size = s.size) (seq : UInt32) :
    m.residue seq = (s.reduce seq).toNat := by
  unfold MarkSet.residue
  rw [same, Space.toNat_reduce]

theorem place_eq {s : Space} (same : m.size = s.size) (base : UInt32) (k : Int) :
    m.place base.toNat k = (s.advance base k).toNat := by
  unfold MarkSet.place
  rw [same, ← Space.toNat_advance, Int.toNat_natCast]

theorem delta_eq {s : Space} (same : m.size = s.size) (a b : UInt32) :
    m.delta a.toNat b.toNat = s.distance a b := by
  have total := s.size_eq
  unfold MarkSet.delta
  rw [same, Space.distance_eq]
  by_cases behind : (s.half : Int) < ((a.toNat : Int) - b.toNat) % s.size
  · rw [if_pos behind, if_pos (by omega)]
  · rw [if_neg behind, if_neg (by omega)]

theorem delta_residue {s : Space} (same : m.size = s.size) (a b : UInt32) :
    m.delta (m.residue a) b.toNat = s.distance a b := by
  rw [residue_eq same, delta_eq same, Space.distance_reduce_left]

theorem mem_run {s : Space} (same : m.size = s.size) (seq x : UInt32) (count : Nat) :
    m.residue x ∈ m.run seq count ↔ s.InArc seq count x := by
  simp only [MarkSet.run, Finset.mem_image, Finset.mem_range, place_eq same, residue_eq same,
    UInt32.toNat_inj, Space.InArc]
  constructor
  · intro given
    obtain ⟨k, inside, here⟩ := given
    exact ⟨k, inside, here.symm⟩
  · intro given
    obtain ⟨k, inside, here⟩ := given
    exact ⟨k, inside, here.symm⟩

theorem lt_of_mem_run {s : Space} (same : m.size = s.size) {seq : UInt32} {count n : Nat}
    (member : n ∈ m.run seq count) : n < m.size := by
  obtain ⟨k, _, rfl⟩ := Finset.mem_image.mp member
  have := s.half_pos
  have := s.size_eq
  unfold MarkSet.place
  have := Int.emod_lt_of_pos ((seq.toNat : Int) + (k : Nat)) (b := m.size) (by omega)
  omega

theorem Mirrors.exists_residue (mirrors : Mirrors w m) {n : Nat} (member : n ∈ m.marks) :
    ∃ seq, seq.toNat = n ∧ w.space.reduce seq = seq ∧ w.contains seq = true := by
  have small := mirrors.below n member
  have divides := Nat.le_of_dvd (by decide) w.space.size_dvd
  have total := mirrors.size_eq
  have toNat_eq : (UInt32.ofNat n).toNat = n := by
    rw [UInt32.toNat_ofNat']
    exact Nat.mod_eq_of_lt (by omega)
  have residue : m.residue (UInt32.ofNat n) = n := by
    unfold MarkSet.residue
    rw [toNat_eq, Nat.mod_eq_of_lt small]
  refine ⟨UInt32.ofNat n, toNat_eq, ?_, ?_⟩
  · apply UInt32.toNat_inj.mp
    rw [← residue_eq mirrors.size_eq, residue, toNat_eq]
  · rw [← mirrors.mem_iff, residue]
    exact member

/-! ### The lowest mark -/

theorem Step.Leaves.mirrors {s : Step} {marks : UInt32 → Prop} {next : MarkSet}
    (leaves : s.Leaves w marks) (mirrors : Mirrors w m) (capacity_eq : next.capacity = m.capacity)
    (size_eq : next.size = m.size) (below : ∀ n ∈ next.marks, n < m.size)
    (mem_iff : ∀ seq, m.residue seq ∈ next.marks ↔ marks seq)
    (first_eq : next.first? = s.state.first?.map UInt32.toNat) : Mirrors s.state next where
  valid := leaves.valid
  capacity_eq := by rw [capacity_eq, mirrors.capacity_eq, leaves.capacity_eq]
  size_eq := by rw [size_eq, mirrors.size_eq, leaves.space_eq]
  below := by rwa [size_eq]
  mem_iff seq := by
    rw [leaves.contains_iff, ← mem_iff, MarkSet.residue, MarkSet.residue, size_eq]
  first_eq := first_eq

/-! ### Changes -/

def Matches (w : Window) (s : Step) : Option MarkSet → Prop
  | none => s.failure? ≠ none ∧ s.state = w
  | some next => s.failure? = none ∧ Mirrors s.state next

theorem Matches.accepted_iff {s : Step} {next : Option MarkSet} (agreed : Matches w s next) :
    s.failure? = none ↔ next.isSome = true := by
  cases next with
  | none => exact ⟨fun accepted => absurd accepted agreed.1, by simp⟩
  | some m => exact ⟨fun _ => rfl, fun _ => agreed.1⟩

theorem Mirrors.first?_of_placed (mirrors : Mirrors w m) (placed : w.placement? = some p) :
    m.first? = some p.lowest.toNat := by
  rw [mirrors.first_eq, (mirrors.valid.anchored placed).first?_eq]
  rfl

theorem Mirrors.first?_of_unplaced (mirrors : Mirrors w m) (unplaced : w.placement? = none) :
    m.first? = none := by
  rw [mirrors.first_eq, first?, unplaced]
  rfl

theorem Mirrors.extent_eq (mirrors : Mirrors w m) (placed : w.placement? = some p) :
    m.extent p.lowest.toNat = w.extent p := by
  -- the last offset is set, so it is the greatest distance of a mark
  have valid := mirrors.valid
  have anchored := valid.anchored placed
  have short := valid.capacity_le
  have extent_lt := anchored.extent_lt
  have greatest : (m.marks.image (m.delta · p.lowest.toNat)).max = ((w.extent p : Int) : WithBot Int) := by
    apply le_antisymm
    · apply Finset.max_le
      intro d member
      obtain ⟨n, marked, rfl⟩ := Finset.mem_image.mp member
      obtain ⟨seq, rfl, _, contained⟩ := mirrors.exists_residue marked
      obtain ⟨k, near, same⟩ := anchored.exists_offset valid.sound contained
      rw [WithBot.coe_le_coe, delta_eq mirrors.size_eq,
        (w.space.distance_eq_iff (by omega) (by omega)).mpr same]
      omega
    · apply Finset.le_max
      refine Finset.mem_image.mpr ⟨m.residue (w.space.advance p.lowest (w.extent p)), ?_, ?_⟩
      · rw [mirrors.mem_iff]
        exact anchored.contains_last valid.sound
      · rw [delta_residue mirrors.size_eq]
        exact w.space.distance_advance p.lowest (by omega) (by omega)
  unfold MarkSet.extent
  rw [greatest]
  rfl

theorem Mirrors.add_run (mirrors : Mirrors w m) {seq lowest : UInt32} {count : Nat} {s : Step}
    (leaves : s.Leaves w fun x => w.contains x = true ∨ w.space.InArc seq count x)
    (reduced : w.space.reduce lowest = lowest)
    (marked : w.contains lowest = true ∨ w.space.InArc seq count lowest)
    (least : ∀ x, w.contains x = true ∨ w.space.InArc seq count x →
      0 ≤ w.space.distance x lowest) :
    Mirrors s.state { m with
      marks := m.marks ∪ m.run seq count
      first? := some lowest.toNat } := by
  refine leaves.mirrors mirrors rfl rfl ?_ ?_ ?_
  · intro n member
    rcases Finset.mem_union.mp member with old | new
    · exact mirrors.below n old
    · exact lt_of_mem_run mirrors.size_eq new
  · intro x
    rw [Finset.mem_union, mirrors.mem_iff, mem_run mirrors.size_eq]
  · rw [leaves.valid.first?_eq_of_least lowest]
    · rfl
    · rwa [leaves.space_eq]
    · exact (leaves.contains_iff lowest).mpr marked
    · intro x there
      rw [leaves.space_eq]
      exact least x ((leaves.contains_iff x).mp there)

theorem Step.Overflows.matches_none {s : Step} (overflow : s.Overflows w) : Matches w s none := by
  obtain ⟨unchanged, needed, _, refusal⟩ := overflow
  exact ⟨by simp [refusal], unchanged⟩

/-- Beside other marks the set tests the merged span, and the lower one of the two lowest numbers has none
    behind it. -/
theorem Mirrors.markRun_beside (mirrors : Mirrors w m) (placed : w.placement? = some p)
    (seq : UInt32) {count : Nat} (some_bit : count ≠ 0) (room : count ≤ m.capacity) :
    Matches w (w.markRun seq count) (m.markRun seq count) := by
  have valid := mirrors.valid
  have short := valid.capacity_le
  have capacity_eq := mirrors.capacity_eq
  have anchored := valid.anchored placed
  have extent_lt := anchored.extent_lt
  have decides := markRun_decides valid seq count
  have fits_iff : w.Fits seq count ↔ _ :=
    fits_iff_mergedSpan anchored valid.sound (Nat.pos_of_ne_zero some_bit) rfl
  unfold MarkSet.markRun
  rw [if_neg some_bit, if_neg (by omega)]
  simp only [mirrors.first?_of_placed placed, delta_residue mirrors.size_eq, mirrors.extent_eq placed]
  rw [mergedSpan] at fits_iff
  generalize lo_eq : w.space.distance seq p.lowest = lo at fits_iff ⊢
  by_cases wide : (m.capacity : Int) < max (lo + count - 1) (w.extent p) - min lo 0 + 1
  · rw [if_pos wide]
    exact (decides.overflows fun fits => absurd (fits_iff.mp fits) (by omega)).matches_none
  have leaves := decides.leaves (fits_iff.mpr (by omega))
  have seq_eq : w.space.advance p.lowest lo = w.space.reduce seq := by
    rw [← lo_eq, Space.advance_distance]
  rw [if_neg wide]
  refine ⟨leaves.accepted, ?_⟩
  by_cases behind : lo < 0
  · rw [if_pos behind, residue_eq mirrors.size_eq]
    apply mirrors.add_run leaves (w.space.reduce_reduce seq)
    · exact .inr (w.space.inArc_first seq (Nat.pos_of_ne_zero some_bit))
    · intro x there
      rcases there with marked | arc
      · obtain ⟨k, near, same⟩ := anchored.exists_offset valid.sound marked
        rw [← Space.distance_reduce_left, same, ← seq_eq,
          w.space.distance_advance_advance p.lowest (by omega) (by omega)]
        omega
      · exact w.space.distance_nonneg_of_inArc (by omega) arc
  · have lowest_eq := w.space.reduce_of_le anchored.lowest_le
    rw [if_neg behind]
    apply mirrors.add_run leaves lowest_eq (.inl (anchored.contains_lowest valid.sound))
    intro x there
    rcases there with marked | ⟨k, k_lt, same⟩
    · exact valid.none_behind placed marked
    · rw [← Space.advance_reduce, ← seq_eq, Space.advance_advance] at same
      rw [(w.space.distance_eq_iff (by omega) (by omega)).mpr same]
      omega

theorem Mirrors.markRun (mirrors : Mirrors w m) (seq : UInt32) (count : Nat) :
    Matches w (w.markRun seq count) (m.markRun seq count) := by
  have valid := mirrors.valid
  have short := valid.capacity_le
  have capacity_eq := mirrors.capacity_eq
  have decides := markRun_decides valid seq count
  by_cases none_at_all : count = 0
  · subst none_at_all
    have kept := w.markRun_zero seq
    unfold MarkSet.markRun
    rw [if_pos rfl, kept]
    exact ⟨rfl, mirrors⟩
  by_cases long : m.capacity < count
  · have misfit : ¬ w.Fits seq count := fun fits => absurd (fits.count_le valid.sound) (by omega)
    unfold MarkSet.markRun
    rw [if_neg none_at_all, if_pos long]
    exact (decides.overflows misfit).matches_none
  cases placed : w.placement? with
  | none =>
    have leaves := decides.leaves
      ((fits_iff_of_unplaced valid.sound placed seq count).mpr (by omega))
    unfold MarkSet.markRun
    rw [if_neg none_at_all, if_neg long, mirrors.first?_of_unplaced placed,
      residue_eq mirrors.size_eq]
    refine ⟨leaves.accepted, mirrors.add_run leaves (w.space.reduce_reduce seq) ?_ ?_⟩
    · exact .inr (w.space.inArc_first seq (Nat.pos_of_ne_zero none_at_all))
    · intro x there
      rcases there with marked | arc
      · simp [contains_of_unplaced placed] at marked
      · exact w.space.distance_nonneg_of_inArc (by omega) arc
  | some p => exact mirrors.markRun_beside placed seq none_at_all (Nat.le_of_not_lt long)

theorem Mirrors.first?_of_nearest (mirrors : Mirrors w m) (placed : w.placement? = some p) {s : Step}
    {marks : UInt32 → Prop} (leaves : s.Leaves w marks) (fewer : ∀ x, marks x → w.contains x = true)
    {lowest : UInt32} (reduced : w.space.reduce lowest = lowest) (kept : marks lowest)
    (nearest : ∀ x, marks x →
      m.delta lowest.toNat p.lowest.toNat ≤ m.delta (m.residue x) p.lowest.toNat) :
    s.state.first? = some lowest := by
  -- Among marks that are counted from the old lowest one, the nearest has none behind it.
  have valid := mirrors.valid
  have short := valid.capacity_le
  have anchored := valid.anchored placed
  have extent_lt := anchored.extent_lt
  apply leaves.valid.first?_eq_of_least
  · rwa [leaves.space_eq]
  · exact (leaves.contains_iff lowest).mpr kept
  · intro x there
    have marked := (leaves.contains_iff x).mp there
    have order := nearest x marked
    obtain ⟨i, i_near, at_i⟩ := anchored.exists_offset valid.sound (fewer lowest kept)
    obtain ⟨k, k_near, at_k⟩ := anchored.exists_offset valid.sound (fewer x marked)
    rw [delta_eq mirrors.size_eq, delta_residue mirrors.size_eq,
      (w.space.distance_eq_iff (by omega) (by omega)).mpr at_i,
      (w.space.distance_eq_iff (by omega) (by omega)).mpr at_k] at order
    rw [leaves.space_eq, w.space.distance_of_offsets short (by omega) (by omega) at_k at_i]
    omega

theorem Mirrors.unmarkRun (mirrors : Mirrors w m) (seq : UInt32) (count : Nat) :
    Matches w (w.unmarkRun seq count) (some (m.unmarkRun seq count)) := by
  have valid := mirrors.valid
  cases placed : w.placement? with
  | none =>
    have kept : w.unmarkRun seq count = .done w := by rw [Window.unmarkRun, placed]
    unfold MarkSet.unmarkRun
    rw [mirrors.first?_of_unplaced placed, kept]
    exact ⟨rfl, mirrors⟩
  | some p =>
    have leaves := unmarkRun_leaves valid seq count
    have rest_iff : ∀ x, m.residue x ∈ m.marks \ m.run seq (min count m.capacity) ↔
        w.contains x = true ∧ ¬ w.space.InArc seq (min count w.capacity) x := by
      intro x
      rw [Finset.mem_sdiff, mirrors.mem_iff, mem_run mirrors.size_eq, mirrors.capacity_eq]
    unfold MarkSet.unmarkRun
    rw [mirrors.first?_of_placed placed]
    refine ⟨leaves.accepted, leaves.mirrors mirrors rfl rfl ?_ rest_iff ?_⟩
    · intro n member
      exact mirrors.below n (Finset.mem_sdiff.mp member).1
    simp only
    cases head : (m.orderedFrom (m.marks \ m.run seq (min count m.capacity))
        p.lowest.toNat).head? with
    | none =>
      rw [MarkSet.head?_orderedFrom_eq_none] at head
      cases left : (w.unmarkRun seq count).state.placement? with
      | none =>
        unfold first?
        rw [left]
        rfl
      | some q =>
        have first := (leaves.valid.anchored left).contains_first leaves.valid.sound
        rw [leaves.contains_iff, ← rest_iff, head] at first
        simp at first
    | some n =>
      obtain ⟨member, nearest⟩ := MarkSet.of_head?_orderedFrom head
      obtain ⟨lowest, rfl, reduced, _⟩ := mirrors.exists_residue (Finset.mem_sdiff.mp member).1
      have residue : m.residue lowest = lowest.toNat := by
        rw [residue_eq mirrors.size_eq, reduced]
      rw [mirrors.first?_of_nearest placed leaves (fun _ => And.left) reduced]
      · rfl
      · rw [← rest_iff, residue]
        exact member
      · intro x kept
        exact nearest (m.residue x) ((rest_iff x).mpr kept)

theorem Mirrors.toggle (mirrors : Mirrors w m) (seq : UInt32) :
    Matches w (w.toggle seq) (m.call (.toggle seq)) := by
  unfold Window.toggle
  rw [MarkSet.call]
  by_cases marked : w.contains seq = true
  · rw [if_pos marked, if_pos ((mirrors.mem_iff seq).mpr marked)]
    exact mirrors.unmarkRun seq 1
  · rw [if_neg marked, if_neg fun member => marked ((mirrors.mem_iff seq).mp member)]
    exact mirrors.markRun seq 1

theorem Mirrors.clear (mirrors : Mirrors w m) :
    Matches w (.done w.clear) (some { m with marks := ∅, first? := none }) := by
  have leaves := clear_leaves mirrors.valid
  refine ⟨rfl, leaves.mirrors mirrors rfl rfl ?_ ?_ rfl⟩
  · intro n member
    simp at member
  · intro seq
    simp

theorem Mirrors.fill (mirrors : Mirrors w m) (seq : UInt32) :
    Matches w (.done (w.fill seq))
      (some { m with marks := m.run seq m.capacity, first? := some (m.residue seq) }) := by
  have leaves := fill_leaves mirrors.valid seq
  refine ⟨rfl, leaves.mirrors mirrors rfl rfl ?_ ?_ ?_⟩
  · intro n member
    exact lt_of_mem_run mirrors.size_eq member
  · intro x
    rw [mem_run mirrors.size_eq, mirrors.capacity_eq]
  · rw [residue_eq mirrors.size_eq]
    rfl

def callEdit : MarkSet.Call → Edit
  | .mark seq => .mark seq
  | .unmark seq => .unmark seq
  | .toggle seq => .toggle seq
  | .markRun seq count => .markRun seq count
  | .unmarkRun seq count => .unmarkRun seq count
  | .clear => .clear
  | .fill seq => .fill seq

theorem Mirrors.call (mirrors : Mirrors w m) (memory : Memory) (call : MarkSet.Call) :
    Matches w (w.edit memory (callEdit call)) (m.call call) := by
  cases call with
  | mark seq => exact mirrors.markRun seq 1
  | unmark seq => exact mirrors.unmarkRun seq 1
  | toggle seq => exact mirrors.toggle seq
  | markRun seq count => exact mirrors.markRun seq count
  | unmarkRun seq count => exact mirrors.unmarkRun seq count
  | clear => exact mirrors.clear
  | fill seq => exact mirrors.fill seq

/-! ### Runs -/

def after (memory : Memory) (w : Window) (calls : List MarkSet.Call) : Window :=
  calls.foldl (fun w call => (w.edit memory (callEdit call)).state) w

theorem Mirrors.after (mirrors : Mirrors w m) (memory : Memory) (calls : List MarkSet.Call) :
    Mirrors (w.after memory calls) (m.after calls) := by
  induction calls generalizing w m with
  | nil => exact mirrors
  | cons call rest ih =>
    unfold Window.after
    unfold MarkSet.after
    rw [List.foldl_cons, List.foldl_cons]
    apply ih
    have agreed := mirrors.call memory call
    cases outcome : m.call call with
    | none =>
      rw [outcome] at agreed
      rw [agreed.2]
      exact mirrors
    | some next =>
      rw [outcome] at agreed
      exact agreed.2

theorem New.mirrors {shape : Shape} (new : w.New shape) :
    Mirrors w (.empty shape.capacity (shape.mask.toNat + 1)) where
  valid := new.valid
  capacity_eq := new.capacity_eq.symm
  size_eq := by
    unfold Space.size
    rw [new.mask_eq]
    rfl
  below n member := by simp [MarkSet.empty] at member
  mem_iff seq := by simp [MarkSet.empty, new.contains_eq]
  first_eq := by
    unfold first?
    rw [new.unplaced]
    rfl

end SequenceTracking.Window
