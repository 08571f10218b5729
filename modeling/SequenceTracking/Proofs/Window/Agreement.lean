import SequenceTracking.Proofs.Window.Mirrors

/-!
A window answers every question as the plain set of marks that describes it does. The window walks and
scans storage, the set sorts and filters all of its marks by their distance from the lowest one.
-/
namespace SequenceTracking.Window

open Search

variable {w : Window} {m : MarkSet} {p : Placement}

structure Agrees (w : Window) (m : MarkSet) : Prop where
  marks_eq : w.marks.map UInt32.toNat = m.ordered
  count_eq : w.count = m.marks.card
  first_eq : w.first?.map UInt32.toNat = m.first?
  last_eq : w.last?.map UInt32.toNat = m.ordered.getLast?
  span_eq : (w.span : Int) = m.span
  occupied_iff : w.isOccupied = true ↔ m.marks.Nonempty
  contains_iff : ∀ seq, w.contains seq = true ↔ m.residue seq ∈ m.marks
  accepts_eq : ∀ seq, w.accepts seq = (m.markRun seq 1).isSome
  next_eq : ∀ seq, (w.next? seq).map UInt32.toNat = m.next? seq
  prev_eq : ∀ seq, (w.prev? seq).map UInt32.toNat = m.prev? seq
  nextGap_eq : ∀ seq, (w.nextGap? seq).map UInt32.toNat = m.nextGap? seq

/-! ### The marks in order -/

theorem Mirrors.mem_iff_listed (mirrors : Mirrors w m) (n : Nat) :
    n ∈ w.marks.map UInt32.toNat ↔ n ∈ m.marks := by
  rw [List.mem_map]
  constructor
  · intro given
    obtain ⟨seq, listed, rfl⟩ := given
    obtain ⟨reduced, marked⟩ := (mem_marks mirrors.valid seq).mp listed
    rw [← mirrors.mem_iff, residue_eq mirrors.size_eq, reduced] at marked
    exact marked
  · intro member
    obtain ⟨seq, rfl, reduced, marked⟩ := mirrors.exists_residue member
    exact ⟨seq, (mem_marks mirrors.valid seq).mpr ⟨reduced, marked⟩, rfl⟩

theorem Mirrors.listed_nodup (mirrors : Mirrors w m) : (w.marks.map UInt32.toNat).Nodup := by
  rw [List.Nodup, List.pairwise_map]
  apply (marks_nodup mirrors.valid).imp
  intro a b apart same
  exact apart (UInt32.toNat_inj.mp same)

/-- Both lists are sorted by a distance that tells the marks apart, so they are the same. -/
theorem Mirrors.ordered_eq (mirrors : Mirrors w m) : w.marks.map UInt32.toNat = m.ordered := by
  have valid := mirrors.valid
  unfold MarkSet.ordered
  cases placed : w.placement? with
  | none =>
    rw [mirrors.first?_of_unplaced placed, marks_of_unplaced placed]
    rfl
  | some p =>
    have anchored := valid.anchored placed
    rw [mirrors.first?_of_placed placed]
    refine List.Perm.eq_of_pairwise ?_ ?_ (m.orderedFrom_pairwise m.marks p.lowest.toNat) ?_
    · intro a b listed_a listed_b below above
      obtain ⟨x, rfl, reduced_x, _⟩ := mirrors.exists_residue ((mirrors.mem_iff_listed a).mp listed_a)
      obtain ⟨y, rfl, reduced_y, _⟩ := mirrors.exists_residue (MarkSet.mem_orderedFrom.mp listed_b)
      rw [delta_eq mirrors.size_eq, delta_eq mirrors.size_eq] at below above
      rw [← reduced_x, ← reduced_y, ← w.space.advance_distance x p.lowest,
        ← w.space.advance_distance y p.lowest, le_antisymm below above]
    · rw [List.pairwise_map]
      apply (marks_ascending valid anchored).imp
      intro a b order
      rw [delta_eq mirrors.size_eq, delta_eq mirrors.size_eq]
      omega
    · rw [List.perm_ext_iff_of_nodup mirrors.listed_nodup (m.orderedFrom_nodup _ _)]
      intro n
      rw [mirrors.mem_iff_listed, MarkSet.mem_orderedFrom]

theorem Mirrors.count_eq_card (mirrors : Mirrors w m) : w.count = m.marks.card := by
  have members : (w.marks.map UInt32.toNat).toFinset = m.marks := by
    apply Finset.ext
    intro n
    rw [List.mem_toFinset, mirrors.mem_iff_listed]
  rw [← members, List.toFinset_card_of_nodup mirrors.listed_nodup, List.length_map,
    count_eq mirrors.valid]

theorem Mirrors.ordered_eq_offsets (mirrors : Mirrors w m) (placed : w.placement? = some p) :
    m.ordered = ((List.range' 0 (w.extent p + 1)).filter (w.atOffset p)).map
      fun (k : Nat) => (w.space.advance p.lowest k).toNat := by
  rw [← mirrors.ordered_eq, marks_eq mirrors.valid (mirrors.valid.anchored placed), List.map_map]
  rfl

/-! ### Questions about one number -/

theorem Mirrors.accepts_eq (mirrors : Mirrors w m) (seq : UInt32) :
    w.accepts seq = (m.markRun seq 1).isSome := by
  have decides := mark_decides mirrors.valid seq
  rw [Bool.eq_iff_iff, accepts_iff mirrors.valid, ← decides.accepted_iff]
  exact (mirrors.markRun seq 1).accepted_iff

theorem Mirrors.delta_advance (mirrors : Mirrors w m) (p : Placement) {k : Nat}
    (inside : k < w.capacity) : m.delta (w.space.advance p.lowest k).toNat p.lowest.toNat = k := by
  have short := mirrors.valid.capacity_le
  rw [delta_eq mirrors.size_eq, w.space.distance_advance p.lowest (by omega) (by omega)]

/-- Numbers are found by their distance from the lowest mark as their offsets are found. -/
theorem Mirrors.find?_listed (mirrors : Mirrors w m) (p : Placement) (admitted : Int → Bool)
    {pass : Nat → Bool} {offsets : List Nat} (near : ∀ k ∈ offsets, k < w.capacity)
    (same : ∀ k : Nat, admitted k = pass k) :
    (offsets.map fun (k : Nat) => (w.space.advance p.lowest k).toNat).find?
        (fun n => admitted (m.delta n p.lowest.toNat)) =
      (offsets.find? pass).map fun (k : Nat) => (w.space.advance p.lowest k).toNat := by
  rw [List.find?_map, ← List.head?_filter, ← List.head?_filter]
  congr 2
  apply List.filter_congr
  intro k listed
  rw [Function.comp_apply, mirrors.delta_advance p (near k listed), same]

theorem Mirrors.scan_near (mirrors : Mirrors w m) (placed : w.placement? = some p) :
    ∀ k ∈ (List.range' 0 (w.extent p + 1)).filter (w.atOffset p), k < w.capacity := by
  have extent_lt := (mirrors.valid.anchored placed).extent_lt
  intro k listed
  have within_span := (List.mem_range'_1.mp (List.mem_filter.mp listed).1).2
  omega

theorem Mirrors.next_eq (mirrors : Mirrors w m) (seq : UInt32) :
    (w.next? seq).map UInt32.toNat = m.next? seq := by
  have valid := mirrors.valid
  unfold MarkSet.next?
  cases placed : w.placement? with
  | none =>
    rw [mirrors.first?_of_unplaced placed, next?, placed]
    rfl
  | some p =>
    rw [mirrors.first?_of_placed placed, next?_eq valid.bits_valid (valid.anchored placed) rfl,
      Option.bind_some]
    simp only [delta_residue mirrors.size_eq]
    generalize w.space.distance seq p.lowest = d
    split
    · rfl
    · have from_d : ∀ k : Nat, decide (d ≤ (k : Int)) = decide (d.toNat ≤ k) :=
        fun k => decide_eq_decide.mpr Int.toNat_le.symm
      rw [mirrors.ordered_eq_offsets placed,
        mirrors.find?_listed p (fun n => decide (d ≤ n)) (mirrors.scan_near placed) from_d,
        find?_filter_from, Option.map_map]
      rfl

theorem Mirrors.prev_eq (mirrors : Mirrors w m) (seq : UInt32) :
    (w.prev? seq).map UInt32.toNat = m.prev? seq := by
  have valid := mirrors.valid
  unfold MarkSet.prev?
  cases placed : w.placement? with
  | none =>
    rw [mirrors.first?_of_unplaced placed, prev?, placed]
    rfl
  | some p =>
    rw [mirrors.first?_of_placed placed, prev?_eq valid.bits_valid (valid.anchored placed) rfl,
      Option.bind_some]
    simp only [delta_residue mirrors.size_eq]
    generalize w.space.distance seq p.lowest = d
    split
    · rfl
    · rename_i ahead
      have up_to_d : ∀ k : Nat, decide ((k : Int) ≤ d) = decide (k ≤ d.toNat) :=
        fun k => decide_eq_decide.mpr (Int.le_toNat (by omega)).symm
      have length_eq : min d.toNat (w.extent p) + 1 = min (d.toNat + 1) (w.extent p + 1) := by omega
      rw [mirrors.ordered_eq_offsets placed, ← List.map_reverse,
        mirrors.find?_listed p (fun n => decide (n ≤ d))
          (fun k listed => mirrors.scan_near placed k (List.mem_reverse.mp listed)) up_to_d,
        find?_reverse_filter_upTo, length_eq, Option.map_map]
      rfl

theorem Mirrors.nextGap_eq (mirrors : Mirrors w m) (seq : UInt32) :
    (w.nextGap? seq).map UInt32.toNat = m.nextGap? seq := by
  have valid := mirrors.valid
  cases placed : w.placement? with
  | none =>
    unfold MarkSet.nextGap?
    rw [mirrors.first?_of_unplaced placed, nextGap?, placed,
      residue_eq mirrors.size_eq]
    rfl
  | some p =>
    have anchored := valid.anchored placed
    have capacity_eq := mirrors.capacity_eq
    unfold MarkSet.nextGap?
    rw [mirrors.first?_of_placed placed,
      nextGap?_eq valid.bits_valid anchored rfl]
    simp only [delta_residue mirrors.size_eq, capacity_eq]
    generalize w.space.distance seq p.lowest = d
    split
    · rfl
    · rename_i reached
      rw [List.find?_map, find?_range', Option.map_map]
      have place : (fun (k : Nat) => m.place p.lowest.toNat k) =
          UInt32.toNat ∘ fun (k : Nat) => w.space.advance p.lowest k :=
        funext fun k => place_eq mirrors.size_eq p.lowest k
      rw [place]
      congr 1
      apply least?_congr
      intro k _ inside
      have member := mirrors.mem_iff (w.space.advance p.lowest k)
      rw [residue_eq mirrors.size_eq, Space.reduce_advance,
        contains_advance valid.sound anchored (by omega)] at member
      simp [member]

theorem Mirrors.agrees (mirrors : Mirrors w m) : Agrees w m where
  marks_eq := mirrors.ordered_eq
  count_eq := mirrors.count_eq_card
  first_eq := mirrors.first_eq.symm
  last_eq := by
    rw [← mirrors.ordered_eq, List.getLast?_map, getLast?_marks mirrors.valid]
  span_eq := by
    unfold MarkSet.span
    cases placed : w.placement? with
    | none =>
      rw [mirrors.first?_of_unplaced placed, span, placed]
      rfl
    | some p =>
      rw [mirrors.first?_of_placed placed, (mirrors.valid.anchored placed).span_eq]
      simp only [mirrors.extent_eq placed, Int.natCast_add, Int.natCast_one]
  occupied_iff := by
    cases placed : w.placement? with
    | none =>
      have none_marked : ∀ n, n ∉ m.marks := by
        intro n member
        obtain ⟨seq, _, _, marked⟩ := mirrors.exists_residue member
        simp [contains_of_unplaced placed] at marked
      simp [isOccupied, placed, Finset.Nonempty, none_marked]
    | some p =>
      have first := (mirrors.valid.anchored placed).contains_first mirrors.valid.sound
      rw [← mirrors.mem_iff] at first
      simp only [isOccupied, placed, Option.isSome_some, true_iff]
      exact ⟨_, first⟩
  contains_iff seq := (mirrors.mem_iff seq).symm
  accepts_eq := mirrors.accepts_eq
  next_eq := mirrors.next_eq
  prev_eq := mirrors.prev_eq
  nextGap_eq := mirrors.nextGap_eq

/-! ### Runs -/

/-- A new window and an empty set of marks stay in step through every list of calls: both answer every
    question alike, and accept or turn down the next call alike. -/
theorem run_agrees_with_marks {memory : Memory} {shape : Shape} (made : create memory shape = .ok w)
    (calls : List MarkSet.Call) :
    let m := (MarkSet.empty shape.capacity (shape.mask.toNat + 1)).after calls
    Agrees (w.after memory calls) m ∧ ∀ call,
      ((w.after memory calls).edit memory (callEdit call)).failure? = none ↔
        (m.call call).isSome = true := by
  intro m
  have mirrors := (create_new made).mirrors.after memory calls
  exact ⟨mirrors.agrees, fun call => (mirrors.call memory call).accepted_iff⟩

theorem run_agrees_with_marks_of_wrapped :
    let w : Window := ⟨.empty 4, ⟨15, by decide, by decide⟩, none⟩
    let calls : List MarkSet.Call := [.mark 1, .markRun 15 2, .toggle 0, .unmarkRun 14 4, .fill 9]
    create .standard ⟨4, 15⟩ = .ok w ∧
      Agrees (w.after .standard calls) ((MarkSet.empty 4 16).after calls) ∧
      (((MarkSet.empty 4 16).after calls).call (.mark 13)).isSome = false := by
  -- the window slides back over zero, is emptied and starts anew; the last call asks for too much
  intro w calls
  have made : create .standard ⟨4, 15⟩ = .ok w := rfl
  obtain ⟨agrees, answers⟩ := run_agrees_with_marks made calls
  have refused : ((w.after .standard calls).edit .standard (callEdit (.mark 13))).failure? ≠ none := by
    decide +kernel
  exact ⟨made, agrees, Bool.eq_false_iff.mpr fun taken => refused ((answers _).mpr taken)⟩

end SequenceTracking.Window
