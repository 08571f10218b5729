import SequenceTracking.Proofs.Window.Resizing

/-!
Which shapes are usable, told by the number of bits in their mask. The mask is tested by a sum that wraps and its top
bit is found by a shift; both come to this, that the mask is the greatest number of some count of bits. A request for
a window of another shape is turned down for the first thing that is wrong, before storage is asked for and before
anything is changed.
-/
namespace SequenceTracking

/-! ### Masks -/

namespace Space

variable {mask : UInt32} {s : Space} {k : Nat}

structure OfBits (mask : UInt32) (k : Nat) : Prop where
  pos : 1 ≤ k
  le_word : k ≤ 32
  mask_eq : mask.toNat = 2 ^ k - 1

theorem exists_ofBits (s : Space) : ∃ k, OfBits s.mask k := by
  obtain ⟨k, small, power⟩ := s.size_eq_two_pow
  refine ⟨k + 1, by omega, by omega, ?_⟩
  rw [← power]
  rfl

theorem OfBits.nonzero (bits : OfBits mask k) : mask ≠ 0 := by
  rintro rfl
  have room := Nat.one_lt_two_pow (Nat.ne_of_gt bits.pos)
  have none_set := bits.mask_eq
  simp only [UInt32.toNat_zero] at none_set
  omega

theorem OfBits.contiguous (bits : OfBits mask k) : mask &&& (mask + 1) = 0 := by
  have next : (mask + 1).toNat = 2 ^ k % 2 ^ 32 := by
    have room := Nat.two_pow_pos k
    rw [UInt32.toNat_add, bits.mask_eq, UInt32.toNat_one, Nat.sub_add_cancel room]
  rw [← UInt32.toNat_inj, UInt32.toNat_and, next, bits.mask_eq, Nat.and_comm, Nat.and_two_pow_sub_one_eq_mod,
    Nat.mod_mod_of_dvd _ (Nat.pow_dvd_pow 2 bits.le_word), Nat.mod_self, UInt32.toNat_zero]

structure HasBits (s : Space) (k : Nat) : Prop where
  mask_eq : s.mask.toNat = 2 ^ k - 1
  sign_eq : s.signBit.toNat = 2 ^ (k - 1)
  half_eq : s.half = 2 ^ (k - 1)

theorem OfBits.hasBits (bits : OfBits mask k) (same : s.mask = mask) : s.HasBits k := by
  subst same
  have power : s.size = 2 ^ (k - 1 + 1) := by
    have room := Nat.two_pow_pos k
    rw [Nat.sub_add_cancel bits.pos, size, bits.mask_eq, Nat.sub_add_cancel room]
  have half_eq := s.half_eq_two_pow power
  exact ⟨bits.mask_eq, half_eq, half_eq⟩

theorem OfBits.exists_space (bits : OfBits mask k) : ∃ s, ofMask mask = .ok s ∧ s.mask = mask ∧ s.HasBits k := by
  have made : ofMask mask = .ok ⟨mask, bits.nonzero, bits.contiguous⟩ := dif_pos ⟨bits.nonzero, bits.contiguous⟩
  exact ⟨_, made, rfl, bits.hasBits rfl⟩

end Space

/-! ### Verdicts -/

namespace Shape

variable {shape : Shape} {s : Space} {e : ShapeError} {k : Nat}

/-- The mask is that of `k` bits, and the capacity is at least one and at most half of the numbers of `k` bits. -/
structure Usable (shape : Shape) (k : Nat) : Prop where
  bits : Space.OfBits shape.mask k
  positive : 1 ≤ shape.capacity
  short : shape.capacity ≤ 2 ^ (k - 1)

inductive Faulty (shape : Shape) : ShapeError → Prop where
  | mask (none_fits : ∀ k, ¬ Space.OfBits shape.mask k) : Faulty shape (.maskNotContiguous shape.mask)
  | zero (k : Nat) (bits : Space.OfBits shape.mask k) (none_at_all : shape.capacity = 0) :
      Faulty shape .zeroCapacity
  | above (k : Nat) (bits : Space.OfBits shape.mask k) (wide : 2 ^ (k - 1) < shape.capacity) :
      Faulty shape (.capacityAboveHalf shape.capacity (2 ^ (k - 1)))

theorem usable_or_faulty (shape : Shape) : (∃ k, shape.Usable k) ∨ ∃ e, shape.Faulty e := by
  by_cases fits : ∃ k, Space.OfBits shape.mask k
  · obtain ⟨k, bits⟩ := fits
    by_cases none_at_all : shape.capacity = 0
    · exact .inr ⟨_, .zero k bits none_at_all⟩
    · by_cases short : shape.capacity ≤ 2 ^ (k - 1)
      · exact .inl ⟨k, bits, Nat.pos_of_ne_zero none_at_all, short⟩
      · exact .inr ⟨_, .above k bits (Nat.lt_of_not_le short)⟩
  · exact .inr ⟨_, .mask (not_exists.mp fits)⟩

theorem Usable.space_eq (usable : shape.Usable k) (same : s.mask = shape.mask) : shape.space = .ok s := by
  have short := usable.short
  rw [← (usable.bits.hasBits same).half_eq] at short
  exact space_eq_ok same.symm usable.positive short

theorem Usable.exists_space (usable : shape.Usable k) : ∃ s, shape.space = .ok s ∧ s.HasBits k := by
  obtain ⟨s, _, same, has⟩ := usable.bits.exists_space
  exact ⟨s, usable.space_eq same, has⟩

theorem Faulty.space_eq (faulty : shape.Faulty e) : shape.space = .error e := by
  unfold space
  cases faulty with
  | mask none_fits =>
    unfold Space.ofMask
    rw [dif_neg]
    intro usable
    obtain ⟨k, bits⟩ := (Space.mk shape.mask usable.1 usable.2).exists_ofBits
    exact none_fits k bits
  | zero k bits none_at_all =>
    obtain ⟨s, masked, _, _⟩ := bits.exists_space
    rw [masked]
    exact if_pos none_at_all
  | above k bits wide =>
    obtain ⟨s, masked, _, has⟩ := bits.exists_space
    rw [masked]
    simp only [has.half_eq]
    rw [if_neg (Nat.ne_zero_of_lt wide), if_pos wide]

/-- The verdict on a shape, told by the number of bits in its mask: the space of so many bits, or what is wrong. -/
structure Judged (shape : Shape) : Prop where
  accepted_iff : (∃ s, shape.space = .ok s) ↔ ∃ k, shape.Usable k
  space_iff : ∀ s, shape.space = .ok s ↔ ∃ k, shape.Usable k ∧ s.HasBits k
  refused_iff : ∀ e, shape.space = .error e ↔ shape.Faulty e

theorem space_eq_ok_iff (s : Space) : shape.space = .ok s ↔ ∃ k, shape.Usable k ∧ s.HasBits k := by
  constructor
  · intro accepted
    rcases shape.usable_or_faulty with ⟨k, usable⟩ | ⟨e, faulty⟩
    · obtain ⟨t, same, has⟩ := usable.exists_space
      obtain rfl := Except.ok.inj (accepted.symm.trans same)
      exact ⟨k, usable, has⟩
    · exact nomatch accepted.symm.trans faulty.space_eq
  · rintro ⟨k, usable, has⟩
    apply usable.space_eq
    rw [← UInt32.toNat_inj, has.mask_eq, usable.bits.mask_eq]

theorem space_eq_error_iff (e : ShapeError) : shape.space = .error e ↔ shape.Faulty e := by
  constructor
  · intro refused
    rcases shape.usable_or_faulty with ⟨k, usable⟩ | ⟨e', faulty⟩
    · obtain ⟨s, accepted, _⟩ := usable.exists_space
      exact nomatch refused.symm.trans accepted
    · obtain rfl := Except.error.inj (refused.symm.trans faulty.space_eq)
      exact faulty
  · exact Faulty.space_eq

theorem judged (shape : Shape) : shape.Judged where
  accepted_iff := by
    constructor
    · rintro ⟨s, accepted⟩
      obtain ⟨k, usable, _⟩ := (space_eq_ok_iff s).mp accepted
      exact ⟨k, usable⟩
    · rintro ⟨k, usable⟩
      obtain ⟨s, accepted, _⟩ := usable.exists_space
      exact ⟨s, accepted⟩
  space_iff := space_eq_ok_iff
  refused_iff := space_eq_error_iff

end Shape

/-! ### Requests -/

/-- What comes of a request turns on whether this many bytes are granted. -/
def Memory.Consulted {Result : Type} (request : Memory → Result) (bytes : Nat) : Prop :=
  ∃ memory memory' : Memory, (∀ n, n ≠ bytes → memory.grants n = memory'.grants n) ∧
    request memory ≠ request memory'

/-- A request is turned down with `refusal` exactly for what is wrong with its shape. Storage is asked for only when
    nothing is, and then for as many bytes as the capacity needs. -/
structure Shape.Guards {Result : Type} (shape : Shape) (request : Memory → Result)
    (refusal : ShapeError → Result) : Prop where
  refused_iff : ∀ memory e, request memory = refusal e ↔ shape.Faulty e
  consulted_iff : ∀ bytes, Memory.Consulted request bytes ↔
    (∃ k, shape.Usable k) ∧ bytes = Byte.needed shape.capacity

/-- It is enough to look at the one grant for the capacity: it decides between granting and denying where the shape
    is usable, and nothing else is looked at. -/
theorem Shape.guards_of_grant {Result : Type} {shape : Shape} {request : Memory → Result}
    {refusal : ShapeError → Result} (refused_iff : ∀ memory e, request memory = refusal e ↔ shape.Faulty e)
    (grant_decides : ∀ memory memory' : Memory,
      memory.grants (Byte.needed shape.capacity) = memory'.grants (Byte.needed shape.capacity) →
        request memory = request memory')
    (grant_needed : ∀ k, shape.Usable k → ∀ memory memory' : Memory, request memory = request memory' →
      memory.grants (Byte.needed shape.capacity) = true → memory'.grants (Byte.needed shape.capacity) = true) :
    shape.Guards request refusal := by
  refine ⟨refused_iff, fun bytes => ⟨?_, ?_⟩⟩
  · rintro ⟨memory, memory', elsewhere, apart⟩
    constructor
    · rcases shape.usable_or_faulty with usable | ⟨e, faulty⟩
      · exact usable
      · have refused := (refused_iff memory e).mpr faulty
        have refused' := (refused_iff memory' e).mpr faulty
        exact absurd (refused.trans refused'.symm) apart
    · apply Classical.byContradiction
      intro other
      exact apart (grant_decides memory memory' (elsewhere _ (Ne.symm other)))
  · rintro ⟨⟨k, usable⟩, rfl⟩
    -- A policy that grants everything, and one that denies these bytes alone.
    let denying : Memory := ⟨fun n => n != Byte.needed shape.capacity⟩
    refine ⟨⟨fun _ => true⟩, denying, fun n other => by simp [denying, other], ?_⟩
    intro same
    have granted := grant_needed k usable _ denying same rfl
    simp [denying] at granted

namespace Window

variable {w : Window} {shape : Shape} {memory memory' : Memory} {e : ShapeError}

theorem create_eq_refusal_iff : create memory shape = .error (.shape e) ↔ shape.Faulty e := by
  rw [← Shape.space_eq_error_iff]
  cases judged : shape.space with
  | error e' => simp [create_of_error judged]
  | ok s =>
    rw [create_of_space judged]
    split
    · simp
    · simp

theorem create_congr
    (same : memory.grants (Byte.needed shape.capacity) = memory'.grants (Byte.needed shape.capacity)) :
    create memory shape = create memory' shape := by
  cases judged : shape.space with
  | error e => rw [create_of_error judged, create_of_error judged]
  | ok s => rw [create_of_space judged, create_of_space judged, same]

theorem create_guards (shape : Shape) :
    shape.Guards (fun memory => create memory shape) fun e => .error (.shape e) := by
  apply Shape.guards_of_grant
  · exact fun memory e => create_eq_refusal_iff
  · exact fun memory memory' => create_congr
  · intro k usable memory memory' same granted
    obtain ⟨s, accepted, _⟩ := usable.exists_space
    have made := create_eq_ok_iff.mpr ⟨s, accepted, granted, rfl⟩
    exact granted_of_create (same.symm.trans made)

/-! ### Another capacity -/

theorem shape_withCapacity (same : w.space.mask = shape.mask) : w.shape.withCapacity shape.capacity = shape :=
  congrArg (Shape.mk shape.capacity) same

theorem resize_of_faulty (same : w.space.mask = shape.mask) (faulty : shape.Faulty e) :
    w.resize memory shape.capacity = .refused w (.shape e) := by
  unfold resize
  rw [shape_withCapacity same, create_eq_refusal_iff.mpr faulty]

theorem resize_failure_iff (valid : w.Valid) (same : w.space.mask = shape.mask) :
    (w.resize memory shape.capacity).failure? = some (.shape e) ↔ shape.Faulty e := by
  constructor
  · intro refused
    rcases resize_cases valid memory shape.capacity with ⟨reason, refusal, kept⟩ | ⟨fresh, _, _, _, leaves⟩
    · rw [kept] at refused
      obtain rfl := Option.some.inj refused
      rw [shape_withCapacity same] at refusal
      exact create_eq_refusal_iff.mp refusal
    · exact nomatch leaves.accepted.symm.trans refused
  · intro faulty
    rw [resize_of_faulty same faulty]
    rfl

theorem resize_congr (same : w.space.mask = shape.mask)
    (alike : memory.grants (Byte.needed shape.capacity) = memory'.grants (Byte.needed shape.capacity)) :
    w.resize memory shape.capacity = w.resize memory' shape.capacity := by
  unfold resize
  rw [shape_withCapacity same, create_congr alike]

theorem resize_guards (valid : w.Valid) (same : w.space.mask = shape.mask) :
    shape.Guards (fun memory => w.resize memory shape.capacity) fun e => .refused w (.shape e) := by
  apply Shape.guards_of_grant
  · intro memory e
    constructor
    · intro refused
      apply (resize_failure_iff valid same).mp
      exact congrArg (fun s : Step => s.failure?) refused
    · exact resize_of_faulty same
  · exact fun memory memory' => resize_congr same
  · intro k usable memory memory' alike granted
    have half_eq := (usable.bits.hasBits same).half_eq
    have total := w.space.size_eq
    have short := usable.short
    have accepted := (resize_accepted_iff valid).mpr ⟨usable.positive, by omega, granted⟩
    rw [alike] at accepted
    exact ((resize_accepted_iff valid).mp accepted).2.2

/-- A shape is usable exactly if its mask is that of one to thirty-two bits and its capacity lies between one and half
    of the numbers of so many bits. A new window, and a window over the mask that is given another capacity, is refused
    in all other cases and for the first thing that is wrong, before storage is asked for and with nothing changed. -/
theorem validation_exact (shape : Shape) :
    shape.Judged ∧ (shape.Guards (fun memory => create memory shape) fun e => .error (.shape e)) ∧
      ∀ w : Window, w.Reachable → w.space.mask = shape.mask →
        (shape.Guards (fun memory => w.resize memory shape.capacity) fun e => .refused w (.shape e)) ∧
          ∀ memory e, (w.resize memory shape.capacity).failure? = some (.shape e) ↔ shape.Faulty e :=
  ⟨shape.judged, create_guards shape, fun _ reachable same =>
    ⟨resize_guards reachable.valid same, fun _ _ => resize_failure_iff reachable.valid same⟩⟩

theorem validation_exact_of_limits :
    let denying : Memory := ⟨fun _ => false⟩
    let w : Window := ⟨⟨4, #[0x90], 0⟩, ⟨15, by decide, by decide⟩, some ⟨3, 0, 15⟩⟩
    (∃ s, (Shape.over32 (2 ^ 31)).space = .ok s) ∧
      create denying (.over32 (2 ^ 31 + 1)) = .error (.shape (.capacityAboveHalf (2 ^ 31 + 1) (2 ^ 31))) ∧
      create denying ⟨0, 0x0F0F⟩ = .error (.shape (.maskNotContiguous 0x0F0F)) ∧
      Memory.Consulted (fun memory => w.resize memory 8) 1 ∧
      w.resize denying 9 = .refused w (.shape (.capacityAboveHalf 9 8)) ∧
      ¬ Memory.Consulted (fun memory => w.resize memory 9) 2 := by
  -- nothing is granted to the requests that are refused, and the last one does not ask
  intro denying w
  have reachable : w.Reachable :=
    reachable_of_run .standard [⟨4, 15⟩] [.edit 0 (.mark 0), .edit 0 (.mark 15)] 0 (by decide +kernel)
  have words : Space.OfBits Space.mask32 32 := ⟨by decide, by decide, rfl⟩
  have sixteen : Space.OfBits 15 4 := ⟨by decide, by decide, rfl⟩
  obtain ⟨greatest, _⟩ := validation_exact (.over32 (2 ^ 31))
  obtain ⟨_, next, _⟩ := validation_exact (.over32 (2 ^ 31 + 1))
  obtain ⟨scattered, unmasked, _⟩ := validation_exact ⟨0, 0x0F0F⟩
  obtain ⟨_, _, halved⟩ := validation_exact ⟨8, 15⟩
  obtain ⟨more_than_half, _, beyond⟩ := validation_exact ⟨9, 15⟩
  have asked := (halved w reachable rfl).1
  have refused := (beyond w reachable rfl).1
  have above : (Shape.mk 9 15).Faulty (.capacityAboveHalf 9 8) := .above 4 sixteen (by decide)
  refine ⟨greatest.accepted_iff.mpr ⟨32, words, by decide, by decide⟩,
    (next.refused_iff denying _).mpr (.above 32 words (by decide)),
    (unmasked.refused_iff denying _).mpr ((scattered.refused_iff _).mp (by decide)),
    (asked.consulted_iff 1).mpr ⟨⟨4, sixteen, by decide, by decide⟩, by decide⟩,
    (refused.refused_iff denying _).mpr above, fun consulted => ?_⟩
  obtain ⟨s, accepted⟩ := more_than_half.accepted_iff.mpr ((refused.consulted_iff 2).mp consulted).1
  exact nomatch accepted.symm.trans ((more_than_half.refused_iff _).mpr above)

end Window

end SequenceTracking
