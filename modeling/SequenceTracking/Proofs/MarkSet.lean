import Mathlib.Data.Finset.Max
import Mathlib.Data.Finset.Sort

/-!
A plain set of marks with a lowest one. It knows neither storage nor words: a mark is a residue, the
distance of two residues lies in `(-size / 2, size / 2]`, and every operation is said with the whole set.
-/
namespace SequenceTracking

/-- Residues modulo `size`, of which at most `capacity` in a row are spanned, and the lowest of them. -/
structure MarkSet where
  capacity : Nat
  size : Nat
  marks : Finset Nat
  first? : Option Nat

inductive MarkSet.Call where
  | mark (seq : UInt32)
  | unmark (seq : UInt32)
  | toggle (seq : UInt32)
  | markRun (seq : UInt32) (count : Nat)
  | unmarkRun (seq : UInt32) (count : Nat)
  | clear
  | fill (seq : UInt32)
  deriving DecidableEq, Repr

namespace MarkSet

def empty (capacity size : Nat) : MarkSet := ⟨capacity, size, ∅, none⟩

def place (m : MarkSet) (base : Nat) (k : Int) : Nat := ((base + k) % m.size).toNat

def residue (m : MarkSet) (seq : UInt32) : Nat := seq.toNat % m.size

/-- How far `a` lies ahead of `b`; half of the circle away counts as ahead. -/
def delta (m : MarkSet) (a b : Nat) : Int :=
  let r := ((a : Int) - b) % m.size
  if m.size < 2 * r then r - m.size else r

def extent (m : MarkSet) (first : Nat) : Int := (m.marks.image (m.delta · first)).max.unbotD (-1)

def run (m : MarkSet) (seq : UInt32) (count : Nat) : Finset Nat :=
  (Finset.range count).image fun (k : Nat) => m.place seq.toNat k

def orderedFrom (m : MarkSet) (marks : Finset Nat) (first : Nat) : List Nat :=
  marks.sort.mergeSort fun a b => m.delta a first ≤ m.delta b first

/-! ### Changes -/

def markRun (m : MarkSet) (seq : UInt32) (count : Nat) : Option MarkSet :=
  if count = 0 then some m
  else if m.capacity < count then none
  else
    match m.first? with
    | none => some { m with marks := m.marks ∪ m.run seq count, first? := some (m.residue seq) }
    | some first =>
      let lo := m.delta (m.residue seq) first
      if m.capacity < max (lo + count - 1) (m.extent first) - min lo 0 + 1 then none
      else some { m with
        marks := m.marks ∪ m.run seq count
        first? := some (if lo < 0 then m.residue seq else first) }

/-- Takes out a run, cut to the capacity; of the marks that remain the nearest to the old lowest one is
    the new lowest one. -/
def unmarkRun (m : MarkSet) (seq : UInt32) (count : Nat) : MarkSet :=
  match m.first? with
  | none => m
  | some first =>
    let rest := m.marks \ m.run seq (min count m.capacity)
    { m with marks := rest, first? := (m.orderedFrom rest first).head? }

def call (m : MarkSet) : Call → Option MarkSet
  | .mark seq => m.markRun seq 1
  | .unmark seq => some (m.unmarkRun seq 1)
  | .toggle seq => if m.residue seq ∈ m.marks then some (m.unmarkRun seq 1) else m.markRun seq 1
  | .markRun seq count => m.markRun seq count
  | .unmarkRun seq count => some (m.unmarkRun seq count)
  | .clear => some { m with marks := ∅, first? := none }
  | .fill seq => some { m with marks := m.run seq m.capacity, first? := some (m.residue seq) }

def after (m : MarkSet) (calls : List Call) : MarkSet :=
  calls.foldl (fun m call => (m.call call).getD m) m

/-! ### Queries -/

def ordered (m : MarkSet) : List Nat :=
  match m.first? with
  | none => []
  | some first => m.orderedFrom m.marks first

def span (m : MarkSet) : Int :=
  match m.first? with
  | none => 0
  | some first => m.extent first + 1

def next? (m : MarkSet) (seq : UInt32) : Option Nat :=
  m.first?.bind fun first =>
    let d := m.delta (m.residue seq) first
    if d < 0 then some first else m.ordered.find? fun n => d ≤ m.delta n first

def prev? (m : MarkSet) (seq : UInt32) : Option Nat :=
  m.first?.bind fun first =>
    let d := m.delta (m.residue seq) first
    if d < 0 then none else m.ordered.reverse.find? fun n => m.delta n first ≤ d

def nextGap? (m : MarkSet) (seq : UInt32) : Option Nat :=
  match m.first? with
  | none => some (m.residue seq)
  | some first =>
    let d := m.delta (m.residue seq) first
    if d < 0 ∨ m.capacity ≤ d then none
    else ((List.range' d.toNat (m.capacity - d.toNat)).map fun (k : Nat) => m.place first k).find?
      fun n => n ∉ m.marks

/-! ### The order -/

variable {m : MarkSet} {marks : Finset Nat} {first n : Nat}

theorem mem_orderedFrom : n ∈ m.orderedFrom marks first ↔ n ∈ marks := by
  unfold orderedFrom
  rw [List.mem_mergeSort, Finset.mem_sort]

theorem orderedFrom_nodup (m : MarkSet) (marks : Finset Nat) (first : Nat) :
    (m.orderedFrom marks first).Nodup :=
  (List.mergeSort_perm _ _).nodup_iff.mpr (marks.sort_nodup _)

theorem orderedFrom_pairwise (m : MarkSet) (marks : Finset Nat) (first : Nat) :
    (m.orderedFrom marks first).Pairwise fun a b => m.delta a first ≤ m.delta b first := by
  have sorted : (m.orderedFrom marks first).Pairwise fun a b =>
      decide (m.delta a first ≤ m.delta b first) = true := by
    apply List.pairwise_mergeSort
    · intro a b c
      simp only [decide_eq_true_eq]
      omega
    · intro a b
      simp only [Bool.or_eq_true, decide_eq_true_eq]
      omega
  exact sorted.imp fun order => of_decide_eq_true order

theorem head?_orderedFrom_eq_none : (m.orderedFrom marks first).head? = none ↔ marks = ∅ := by
  rw [List.head?_eq_none_iff, List.eq_nil_iff_forall_not_mem, Finset.eq_empty_iff_forall_notMem]
  simp only [mem_orderedFrom]

theorem of_head?_orderedFrom (found : (m.orderedFrom marks first).head? = some n) :
    n ∈ marks ∧ ∀ k ∈ marks, m.delta n first ≤ m.delta k first := by
  obtain ⟨rest, list_eq⟩ := List.head?_eq_some_iff.mp found
  have order := m.orderedFrom_pairwise marks first
  rw [list_eq] at order
  have listed : n ∈ m.orderedFrom marks first := by
    rw [list_eq]
    exact List.mem_cons_self
  refine ⟨mem_orderedFrom.mp listed, fun k member => ?_⟩
  have member : k ∈ m.orderedFrom marks first := mem_orderedFrom.mpr member
  rw [list_eq] at member
  rcases List.mem_cons.mp member with rfl | later
  · exact le_refl _
  · exact (List.pairwise_cons.mp order).1 k later

end MarkSet

end SequenceTracking
