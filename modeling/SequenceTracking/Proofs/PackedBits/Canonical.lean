import SequenceTracking.Proofs.PackedBits.Reachable
import SequenceTracking.Proofs.PairedRuns

/-!
Bits carry no trace of their history. Equality compares capacities and bytes, and that is enough: which bits are
set determines the bytes, because the unused bits are clear, and the lowest index, because it is exact. So bits
that are equal are the same, and no run tells them apart.
-/
namespace SequenceTracking.PackedBits

open Session

variable {a b : PackedBits}

theorem sameBits_iff_stored : a.sameBits b = true ↔ a.capacity = b.capacity ∧ a.storage = b.storage := by
  rw [sameBits, Bool.and_eq_true, beq_iff_eq, beq_iff_eq]

theorem contains_of_sameBits (same : a.sameBits b = true) (i : Nat) : a.contains i = b.contains i := by
  obtain ⟨capacity_eq, storage_eq⟩ := sameBits_iff_stored.mp same
  rw [contains, contains, capacity_eq, storage_eq]

theorem Valid.eq_of_sameBits (left : a.Valid) (right : b.Valid) (same : a.sameBits b = true) : a = b :=
  left.eq_of_contains right (sameBits_iff_stored.mp same).1 (contains_of_sameBits same)

theorem sameBits_refl (b : PackedBits) : b.sameBits b = true := sameBits_iff_stored.mpr ⟨rfl, rfl⟩

/-- Bits that runs lead to are equal exactly if they have one capacity and the same bits are set. They are then
    the same in every field, the lowest index included, at which equality does not look. Registers that are
    equal, each after a history of its own, answer any run of commands alike and stay the same. -/
theorem representation_canonical (left : a.Reachable) (right : b.Reachable) :
    (a.sameBits b = true ↔ a.capacity = b.capacity ∧ ∀ i, a.contains i = b.contains i) ∧
      (a.sameBits b = true → a.storage = b.storage ∧ a.lowest = b.lowest ∧ a = b) ∧
      ∀ s t : Session PackedBits, s.All Reachable → t.All Reachable →
        Paired (fun x y => x.sameBits y = true) s t → ∀ memory (commands : List (Command Edit)),
          s.results (machine memory) commands = t.results (machine memory) commands ∧
            Paired Eq (s.run (machine memory) commands) (t.run (machine memory) commands) := by
  refine ⟨⟨fun same => ?_, fun given => ?_⟩, fun same => ?_, ?_⟩
  · exact ⟨(sameBits_iff_stored.mp same).1, contains_of_sameBits same⟩
  · obtain ⟨capacity_eq, contains_eq⟩ := given
    rw [left.valid.eq_of_contains right.valid capacity_eq contains_eq]
    exact sameBits_refl b
  · obtain rfl := left.valid.eq_of_sameBits right.valid same
    exact ⟨rfl, rfl, rfl⟩
  · intro s t s_reachable t_reachable equal memory commands
    have paired : Paired Eq s t := equal.imp fun register x y here there same =>
      (s_reachable register x here).valid.eq_of_sameBits (t_reachable register y there).valid same
    exact paired.run_eq (machine memory) commands

theorem representation_canonical_of_histories :
    let s := (opened .standard [13, 6]).run (machine .standard)
      [.edit 0 .fill, .edit 1 (.insertRun 0 6), .merge 0 1 .subtract, .edit 0 (.erase 12)]
    let t := (opened .standard [13, 20]).run (machine .standard)
      [.edit 1 (.insertRun 4 8), .edit 0 (.insertRun 6 7), .merge 0 1 .intersect]
    let longer : PackedBits := ⟨16, #[0x03, 0xF0], 6⟩
    ∃ a b, s.get? 0 = some a ∧ t.get? 0 = some b ∧ a.sameBits b = true ∧ (∀ i, a.contains i = b.contains i) ∧
      a.lowest = b.lowest ∧ a.storage = longer.storage ∧ a.sameBits longer = false ∧
      ∀ commands : List (Command Edit),
        results (machine .standard) #[some a] commands = results (machine .standard) #[some b] commands := by
  -- the lowest index was looked for from zero on there, and from the greater of two here
  intro s t longer
  let a : PackedBits := ⟨13, #[0x03, 0xF0], 6⟩
  let b : PackedBits := ⟨13, #[0x03, 0xF0], 6⟩
  have here : s.get? 0 = some a := by decide +kernel
  have there : t.get? 0 = some b := by decide +kernel
  have left : a.Reachable := reachable_of_run .standard _ _ 0 here
  have right : b.Reachable := reachable_of_run .standard _ _ 0 there
  have other : longer.Reachable :=
    reachable_of_run .standard [16] [.edit 0 (.insertRun 6 6)] 0 (by decide +kernel)
  have same : a.sameBits b = true := by decide
  obtain ⟨same_iff, fields, runs⟩ := representation_canonical left right
  have longer_iff := (representation_canonical left other).1
  have single : ∀ {c : PackedBits}, c.Reachable → All Reachable (#[some c] : Session PackedBits) := by
    intro c reachable register d found
    rcases register with _ | k
    · exact Option.some.inj found ▸ reachable
    · simp [get?] at found
  have paired : Paired (fun x y => x.sameBits y = true) #[some a] #[some b] := by
    intro register
    rcases register with _ | k
    · exact .some same
    · simp only [get?, Array.getD_eq_getD_getElem?, List.getElem?_toArray, List.getElem?_cons_succ,
        List.getElem?_nil]
      exact .none
  refine ⟨a, b, here, there, same, (same_iff.mp same).2, (fields same).2.1, rfl, ?_,
    fun commands => (runs _ _ (single left) (single right) paired .standard commands).1⟩
  rw [← Bool.not_eq_true, longer_iff]
  intro equal
  exact absurd equal.1 (by decide)

end SequenceTracking.PackedBits
