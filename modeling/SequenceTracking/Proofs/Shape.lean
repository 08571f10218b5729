import SequenceTracking.Shape

/-!
Spaces and usable shapes. A space is told by its mask alone, and the shapes that are usable over it are those
with a capacity from one to half of the space.
-/
namespace SequenceTracking

theorem Space.eq_of_mask {s t : Space} (same : s.mask = t.mask) : s = t := by
  cases s
  cases t
  cases same
  rfl

theorem Space.mask_of_ofMask {mask : UInt32} {s : Space} (usable : Space.ofMask mask = .ok s) :
    s.mask = mask := by
  rw [ofMask] at usable
  split at usable
  · cases usable
    rfl
  · cases usable

theorem Space.ofMask_mask (s : Space) : Space.ofMask s.mask = .ok s := by
  unfold ofMask
  rw [dif_pos ⟨s.nonzero, s.contiguous⟩]

theorem Shape.space_spec {shape : Shape} {s : Space} (usable : shape.space = .ok s) :
    s.mask = shape.mask ∧ 0 < shape.capacity ∧ shape.capacity ≤ s.half := by
  rw [Shape.space] at usable
  split at usable
  · cases usable
  · rename_i t masked
    split at usable
    · cases usable
    · rename_i positive
      split at usable
      · cases usable
      · rename_i short
        cases usable
        exact ⟨Space.mask_of_ofMask masked, Nat.pos_of_ne_zero positive, by omega⟩

theorem Shape.space_eq_ok {shape : Shape} {s : Space} (mask_eq : shape.mask = s.mask)
    (positive : 0 < shape.capacity) (short : shape.capacity ≤ s.half) : shape.space = .ok s := by
  unfold Shape.space
  rw [mask_eq, Space.ofMask_mask]
  simp only
  rw [if_neg (by omega), if_neg (by omega)]

end SequenceTracking
