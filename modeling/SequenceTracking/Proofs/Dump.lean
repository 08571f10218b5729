import Mathlib.Data.List.Induction
import Mathlib.Logic.Function.Basic
import SequenceTracking.Dump

/-!
Where a dump puts each bit. What is written for a bit does not depend on the bits after it, so a dump grows at its
end only: it is as long as the bits with the separators that are due among them, the digit of a bit stands where
the dump of the bits before it ends, and without the separators the digits are left.
-/
namespace SequenceTracking.Dump

variable {bits more : List Bool} {bit : Bool}

def digit (bit : Bool) : Char := if bit then '1' else '0'

def isSeparator (c : Char) : Bool := c == ' ' || c == '\n'

def separators (index : Nat) : List Char :=
  (if (index + 1) % 8 = 0 then [' '] else []) ++ if (index + 1) % 64 = 0 then ['\n'] else []

/-- The bits that a text shows, whatever separators stand between them. -/
def read (cs : List Char) : List Bool := (cs.filter fun c => !isSeparator c).map (· == '1')

@[simp] theorem toList_text (bits : List Bool) : (text bits).toList = chars bits := String.toList_ofList

theorem cell_eq (index : Nat) (bit : Bool) : cell index bit = digit bit :: separators index := rfl

/-! ### Growing -/

theorem chars_append (bits more : List Bool) :
    ∃ rest, chars (bits ++ more) = chars bits ++ rest := by
  unfold chars
  rw [List.mapIdx_append, List.flatten_append]
  exact ⟨_, rfl⟩

theorem chars_concat (bits : List Bool) (bit : Bool) :
    chars (bits ++ [bit]) = chars bits ++ cell bits.length bit := by
  unfold chars
  rw [List.mapIdx_append, List.flatten_append]
  simp

theorem chars_prefix (starts : bits <+: more) : chars bits <+: chars more := by
  obtain ⟨rest, rfl⟩ := starts
  obtain ⟨tail, whole⟩ := chars_append bits rest
  exact ⟨tail, whole.symm⟩

/-! ### Places -/

theorem length_separators (index : Nat) :
    (separators index).length =
      (if (index + 1) % 8 = 0 then 1 else 0) + if (index + 1) % 64 = 0 then 1 else 0 := by
  rw [separators, List.length_append, apply_ite List.length, apply_ite List.length]
  rfl

theorem length_chars (bits : List Bool) :
    (chars bits).length = bits.length + bits.length / 8 + bits.length / 64 := by
  induction bits using List.reverseRecOn with
  | nil => rfl
  | append_singleton bits bit ih =>
    rw [chars_concat, cell_eq, List.length_append, ih, List.length_cons, length_separators, List.length_append,
      List.length_singleton]
    split <;> split <;> omega

theorem getElem?_chars (bits : List Bool) {i : Nat} (inside : i < bits.length) :
    (chars bits)[i + i / 8 + i / 64]? = some (digit bits[i]) := by
  have parts : bits.take i ++ [bits[i]] ++ bits.drop (i + 1) = bits := by
    rw [List.take_append_getElem inside, List.take_append_drop]
  have place : (chars (bits.take i)).length = i + i / 8 + i / 64 := by
    rw [length_chars, List.length_take, Nat.min_eq_left (Nat.le_of_lt inside)]
  obtain ⟨rest, whole⟩ := chars_append (bits.take i ++ [bits[i]]) (bits.drop (i + 1))
  rw [parts, chars_concat] at whole
  rw [whole, List.append_assoc, ← place, List.getElem?_append_right (Nat.le_refl _), Nat.sub_self]
  rfl

/-! ### Reading back -/

theorem filter_separators (index : Nat) : ((separators index).filter fun c => !isSeparator c) = [] := by
  rw [separators, List.filter_append, apply_ite (List.filter _), apply_ite (List.filter _)]
  simp [isSeparator]

theorem filter_cell (index : Nat) (bit : Bool) :
    ((cell index bit).filter fun c => !isSeparator c) = [digit bit] := by
  have kept : (!isSeparator (digit bit)) = true := by cases bit <;> rfl
  rw [cell_eq, List.filter_cons, if_pos kept, filter_separators]

theorem filter_chars (bits : List Bool) :
    ((chars bits).filter fun c => !isSeparator c) = bits.map digit := by
  induction bits using List.reverseRecOn with
  | nil => rfl
  | append_singleton bits bit ih =>
    rw [chars_concat, List.filter_append, ih, filter_cell, List.map_append, List.map_singleton]

theorem digit_eq_one (bit : Bool) : (digit bit == '1') = bit := by
  cases bit <;> rfl

theorem read_chars (bits : List Bool) : read (chars bits) = bits := by
  unfold read
  rw [filter_chars, List.map_map]
  simp [Function.comp_def, digit_eq_one]

theorem text_injective : Function.Injective text := by
  intro bits more same
  rw [← read_chars bits, ← read_chars more, ← toList_text, ← toList_text, same]

theorem text_inj : text bits = text more ↔ bits = more := text_injective.eq_iff

/-- A dump of `bits`: its length, the place of every bit in it, and what is left without the separators. -/
structure Shows (dump : String) (bits : List Bool) : Prop where
  length_eq : dump.length = bits.length + bits.length / 8 + bits.length / 64
  digit_at : ∀ (i : Nat) (inside : i < bits.length),
    dump.toList[i + i / 8 + i / 64]? = some (digit bits[i])
  digits_eq : (dump.toList.filter fun c => !isSeparator c) = bits.map digit
  read_eq : read dump.toList = bits

theorem text_shows (bits : List Bool) : Shows (text bits) bits where
  length_eq := by rw [← String.length_toList, toList_text, length_chars]
  digit_at i inside := by rw [toList_text, getElem?_chars bits inside]
  digits_eq := by rw [toList_text, filter_chars]
  read_eq := by rw [toList_text, read_chars]

end SequenceTracking.Dump
