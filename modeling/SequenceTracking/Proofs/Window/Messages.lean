import Mathlib
import SequenceTracking.Window.Event

/-!
What the texts of a log tell. The text of an event starts with words that no other kind of event starts with, so
its kind can be read off it. A number is written in digits, so it ends where the next word begins, and the text of
a slide tells both of its numbers.
-/
namespace SequenceTracking

variable {event : Event} {m n : Nat} {seq : UInt32}

namespace Event

/-- Whether the event says that an empty window took marks, or that the last marks were taken out of one. -/
def occupancy? : Event → Option Bool
  | anchored .. => some true
  | emptied _ => some false
  | _ => none

def heading : Event → String
  | anchored .. => "window anchored at "
  | refused .. => "rejecting "
  | slidBack .. => "window slid back "
  | emptied _ => "window emptied at "
  | resized .. => "resized window "
  | resizeFailed .. => "resize "
  | dumped .. => "window offset "

theorem message_eq (event : Event) : ∃ rest, event.message = event.heading ++ rest := by
  unfold message heading
  cases event <;> simp only [toString, String.append_assoc, String.append_right_inj, exists_eq']

end Event

def announced? (text : String) : Option Bool :=
  if text.startsWith "window anchored" then some true
  else if text.startsWith "window emptied" then some false
  else none

theorem announced?_message (event : Event) : announced? event.message = event.occupancy? := by
  obtain ⟨rest, message_eq⟩ := event.message_eq
  unfold announced?
  rw [message_eq]
  cases event <;> simp [String.startsWith_string_iff, Event.heading, Event.occupancy?]

theorem heading_eq_of_message (same : event.message = (Event.slidBack n seq).message) :
    event.heading = "window slid back " := by
  obtain ⟨rest, message_eq⟩ := event.message_eq
  obtain ⟨rest', message_eq'⟩ := (Event.slidBack n seq).message_eq
  rw [message_eq, message_eq', ← String.toList_inj, String.toList_append, String.toList_append] at same
  cases event <;> simp [Event.heading] at same ⊢

/-! ### Numbers in a text -/

theorem isDigit_of_mem_toString {c : Char} (written : c ∈ (toString n).toList) : c.isDigit = true := by
  rw [Nat.toString_eq_repr, Nat.toList_repr] at written
  exact Nat.isDigit_of_mem_toDigits (by decide) (by decide) written

theorem takeWhile_toString (n : Nat) (rest : List Char) :
    ((toString n).toList ++ ' ' :: rest).takeWhile Char.isDigit = (toString n).toList := by
  rw [List.takeWhile_append_of_pos fun c written => isDigit_of_mem_toString written]
  simp

theorem toString_append_inj {rest rest' : List Char}
    (same : (toString m).toList ++ ' ' :: rest = (toString n).toList ++ ' ' :: rest') :
    m = n ∧ rest = rest' := by
  have digits := congrArg (List.takeWhile Char.isDigit) same
  rw [takeWhile_toString, takeWhile_toString, String.toList_inj] at digits
  obtain rfl := Nat.repr_inj.mp digits
  exact ⟨rfl, (List.cons.inj (List.append_cancel_left same)).2⟩

theorem slidBack_message_inj {lowest : UInt32}
    (same : (Event.slidBack m lowest).message = (Event.slidBack n seq).message) : m = n ∧ lowest = seq := by
  have texts := congrArg String.toList same
  have gap : ∀ rest, (toString " to ").toList ++ rest = ' ' :: ("to ".toList ++ rest) := by simp [toString]
  unfold Event.message at texts
  dsimp only at texts
  simp only [String.toList_append, List.append_assoc, gap] at texts
  obtain ⟨distance_eq, rest_eq⟩ := toString_append_inj (List.append_cancel_left texts)
  have number_eq := Nat.repr_inj.mp (String.toList_inj.mp (List.append_cancel_left rest_eq))
  exact ⟨distance_eq, UInt32.toNat_inj.mp number_eq⟩

theorem message_eq_slidBack_iff (event : Event) (n : Nat) (seq : UInt32) :
    event.message = s!"window slid back {n} to {seq}" ↔ event = .slidBack n seq := by
  have words : (Event.slidBack n seq).message = s!"window slid back {n} to {seq}" := rfl
  rw [← words]
  constructor
  · intro same
    have head := heading_eq_of_message same
    cases event with
    | slidBack m lowest =>
      obtain ⟨rfl, rfl⟩ := slidBack_message_inj same
      rfl
    | _ => simp [Event.heading] at head
  · rintro rfl
    rfl

end SequenceTracking
