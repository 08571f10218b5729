import SequenceTracking.Session

/-!
The registers that runs lead to, when every command may be carried out under another policy, and what a
command makes of the content of one register.
-/
namespace SequenceTracking

def Command.Clones {Change : Type} (command : Command Change) (register : Nat) : Prop :=
  ∃ operand, command = .merge register operand .clone

namespace Session

variable {Content Change Result Policy : Type} {machine : Policy → Machine Content Change Result}
  {start P : Content → Prop} {s : Session Content} {register : Nat} {a : Content}

/-! ### One register -/

theorem get?_put_eq (m : Machine Content Change Result) (s : Session Content) (k register : Nat)
    (result : Result) :
    (s.put m k result).1.get? register =
      if k = register ∧ k < s.size then some (m.state result) else s.get? register := by
  simp only [get?, put, Array.getD_eq_getD_getElem?, Array.getElem?_setIfInBounds]
  by_cases here : k = register
  · subst here
    by_cases stored : k < s.size
    · simp [stored]
    · simp [stored]
  · simp [here]

theorem get?_put_of_ne (m : Machine Content Change Result) (s : Session Content) {k : Nat}
    (apart : k ≠ register) (result : Result) :
    (s.put m k result).1.get? register = s.get? register := by
  rw [get?_put_eq, if_neg fun both => apart both.1]

theorem get?_put (m : Machine Content Change Result) (found : s.get? register = some a) (k : Nat)
    (result : Result) :
    (s.put m k result).1.get? register =
      if k = register then some (m.state result) else some a := by
  have stored : register < s.size := by
    apply Nat.lt_of_not_le
    intro past
    simp [get?, Array.getD_eq_getD_getElem?, Array.getElem?_eq_none past] at found
  rw [get?_put_eq, found]
  by_cases here : k = register
  · rw [if_pos here, if_pos ⟨here, here ▸ stored⟩]
  · rw [if_neg here, if_neg fun both => here both.1]

theorem get?_apply_edit (m : Machine Content Change Result) (found : s.get? register = some a)
    (change : Change) :
    (s.apply m (.edit register change)).get? register = some (m.state (m.edit a change)) := by
  have stored := get?_put m found register (m.edit a change)
  rw [if_pos rfl] at stored
  simpa only [apply, step?, found, Option.map_some, Option.getD_some] using stored

/-! ### All registers -/

theorem put_all (m : Machine Content Change Result) {result : Result} (start : s.All P)
    (kept : P (m.state result)) : (s.put m register result).1.All P := by
  intro k a found
  rw [get?_put_eq] at found
  split at found
  · exact Option.some.inj found ▸ kept
  · exact start k a found

theorem apply_keeps (m : Machine Content Change Result)
    (edit_keeps : ∀ a change, P a → P (m.state (m.edit a change)))
    (merge_keeps : ∀ a b kind, P a → P b → P (m.state (m.merge a b kind))) (start : s.All P)
    (command : Command Change) : (s.apply m command).All P := by
  cases command with
  | edit register change =>
    cases content : s.get? register with
    | none => simpa [apply, step?, content] using start
    | some a =>
      simpa [apply, step?, content] using put_all m start (edit_keeps a change (start _ _ content))
  | merge register operand kind =>
    cases content : s.get? register with
    | none => simpa [apply, step?, content] using start
    | some a =>
      cases other : s.get? operand with
      | none => simpa [apply, step?, content, other] using start
      | some b =>
        simpa [apply, step?, content, other] using
          put_all m start (merge_keeps a b kind (start _ _ content) (start _ _ other))

/-- The registers met in a run that starts with content as `start` describes it. -/
inductive Reached (start : Content → Prop) (machine : Policy → Machine Content Change Result) :
    Session Content → Prop where
  | start {s : Session Content} : s.All start → Reached start machine s
  | step {s : Session Content} (policy : Policy) (command : Command Change) :
      Reached start machine s → Reached start machine (s.apply (machine policy) command)

theorem Reached.run (reached : Reached start machine s) (policy : Policy)
    (commands : List (Command Change)) : Reached start machine (s.run (machine policy) commands) := by
  induction commands generalizing s with
  | nil => exact reached
  | cons command rest ih => exact ih (reached.step policy command)

theorem Reached.keeps (reached : Reached start machine s) (initial : ∀ a, start a → P a)
    (edit_keeps : ∀ policy a change, P a →
      P ((machine policy).state ((machine policy).edit a change)))
    (merge_keeps : ∀ policy a b kind, P a → P b →
      P ((machine policy).state ((machine policy).merge a b kind))) : s.All P := by
  induction reached with
  | start fresh =>
    intro register a found
    exact initial a (fresh register a found)
  | step policy command _ ih =>
    exact apply_keeps (machine policy) (edit_keeps policy) (merge_keeps policy) ih command

theorem all_of_made {Item Refusal : Type} {make : Item → Except Refusal Content}
    (made : ∀ item a, make item = .ok a → P a) (items : List Item) :
    All P (items.map fun item => (make item).toOption).toArray := by
  intro register a found
  have entry : (items[register]?.map fun item => (make item).toOption) = some (some a) := by
    rw [get?, Array.getD_eq_getD_getElem?, List.getElem?_toArray, List.getElem?_map] at found
    cases asked : items[register]? with
    | none => simp [asked] at found
    | some item => simpa [asked] using found
  obtain ⟨item, _, kept⟩ := Option.map_eq_some_iff.mp entry
  cases result : make item with
  | error reason => simp [result, Except.toOption] at kept
  | ok fresh =>
    simp only [result, Except.toOption, Option.some.injEq] at kept
    exact made item a (kept ▸ result)

/-! ### What a command makes of one register -/

/-- What a command makes of a register that is not empty. -/
inductive Turns (m : Machine Content Change Result) (s : Session Content) (register : Nat)
    (a : Content) : Command Change → Content → Prop where
  | kept {command : Command Change} : Turns m s register a command a
  | edited (change : Change) :
      Turns m s register a (.edit register change) (m.state (m.edit a change))
  | merged (operand : Nat) (b : Content) (kind : Merge) (found : s.get? operand = some b) :
      Turns m s register a (.merge register operand kind) (m.state (m.merge a b kind))

theorem apply_turns (m : Machine Content Change Result) (found : s.get? register = some a)
    (command : Command Change) :
    ∃ b, (s.apply m command).get? register = some b ∧ Turns m s register a command b := by
  cases command with
  | edit k change =>
    cases content : s.get? k with
    | none =>
      refine ⟨a, ?_, .kept⟩
      simpa [apply, step?, content] using found
    | some c =>
      have stored := get?_put m found k (m.edit c change)
      simp only [apply, step?, content, Option.map_some, Option.getD_some]
      rw [stored]
      split
      · rename_i here
        subst here
        obtain rfl := Option.some.inj (content.symm.trans found)
        exact ⟨_, rfl, .edited change⟩
      · exact ⟨a, rfl, .kept⟩
  | merge k operand kind =>
    cases content : s.get? k with
    | none =>
      refine ⟨a, ?_, .kept⟩
      simpa [apply, step?, content] using found
    | some c =>
      cases other : s.get? operand with
      | none =>
        refine ⟨a, ?_, .kept⟩
        simpa [apply, step?, content, other] using found
      | some b =>
        have stored := get?_put m found k (m.merge c b kind)
        simp only [apply, step?, content, other, Option.bind_some, Option.map_some, Option.getD_some]
        rw [stored]
        split
        · rename_i here
          subst here
          obtain rfl := Option.some.inj (content.symm.trans found)
          exact ⟨_, rfl, .merged operand b kind other⟩
        · exact ⟨a, rfl, .kept⟩

end Session

end SequenceTracking
