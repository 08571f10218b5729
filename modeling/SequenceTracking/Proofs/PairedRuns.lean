import Mathlib.Data.List.Forall2
import SequenceTracking.Proofs.Runs

/-!
Two runs side by side, of one list of commands with the changes of the second run rewritten. When every
change and every merge of related contents has related results, the runs answer alike from the first
command to the last and the registers stay related. Each command may come with a policy of its own, as long
as both runs carry it out under the same one.
-/
namespace SequenceTracking

variable {Content Change Result Policy : Type}

def Command.map (rewriting : Change → Change) : Command Change → Command Change
  | .edit register change => .edit register (rewriting change)
  | .merge register operand kind => .merge register operand kind

@[simp] theorem Command.map_id (command : Command Change) : command.map id = command := by
  cases command <;> rfl

/-- Related contents have related results, and related results leave related contents. -/
structure Machine.Respects (m : Machine Content Change Result) (rewriting : Change → Change)
    (R : Content → Content → Prop) (Q : Result → Result → Prop) : Prop where
  edit : ∀ {a b}, R a b → ∀ change, Q (m.edit a change) (m.edit b (rewriting change))
  merge : ∀ {a b c d}, R a b → R c d → ∀ kind, Q (m.merge a c kind) (m.merge b d kind)
  state : ∀ {x y}, Q x y → R (m.state x) (m.state y)

namespace Session

def results (m : Machine Content Change Result) (s : Session Content) :
    List (Command Change) → List (Option Result)
  | [] => []
  | command :: rest => (s.step? m command).map Prod.snd :: results m (s.apply m command) rest

def resultsUnder (machine : Policy → Machine Content Change Result) (s : Session Content) :
    List (Policy × Command Change) → List (Option Result)
  | [] => []
  | (policy, command) :: rest =>
    (s.step? (machine policy) command).map Prod.snd ::
      resultsUnder machine (s.apply (machine policy) command) rest

/-- Register by register, the contents are related or missing on both sides. -/
def Paired (R : Content → Content → Prop) (s t : Session Content) : Prop :=
  ∀ register, Option.Rel R (s.get? register) (t.get? register)

variable {m : Machine Content Change Result} {machine : Policy → Machine Content Change Result}
  {rewriting : Change → Change} {R : Content → Content → Prop} {Q : Result → Result → Prop}
  {s t : Session Content}

theorem Paired.cases (paired : Paired R s t) (register : Nat) :
    (s.get? register = none ∧ t.get? register = none) ∨
      ∃ a b, s.get? register = some a ∧ t.get? register = some b ∧ R a b := by
  have here := paired register
  generalize s.get? register = x at here ⊢
  generalize t.get? register = y at here ⊢
  cases here with
  | none => exact .inl ⟨rfl, rfl⟩
  | some related => exact .inr ⟨_, _, rfl, rfl, related⟩

theorem Paired.imp {S : Content → Content → Prop} (paired : Paired R s t)
    (implies : ∀ register a b, s.get? register = some a → t.get? register = some b → R a b → S a b) :
    Paired S s t := by
  intro register
  rcases paired.cases register with ⟨none_here, none_there⟩ | ⟨a, b, here, there, related⟩
  · rw [none_here, none_there]
    exact .none
  · rw [here, there]
    exact .some (implies register a b here there related)

theorem Paired.put (paired : Paired R s t) {k : Nat} {a b : Content} (here : s.get? k = some a)
    (there : t.get? k = some b) {x y : Result} (related : R (m.state x) (m.state y)) :
    Paired R (s.put m k x).1 (t.put m k y).1 := by
  intro register
  by_cases same : k = register
  · subst same
    rw [get?_put m here, get?_put m there, if_pos rfl, if_pos rfl]
    exact .some related
  · rw [get?_put_of_ne m s same, get?_put_of_ne m t same]
    exact paired register

theorem Paired.step? (paired : Paired R s t) (respects : m.Respects rewriting R Q)
    (command : Command Change) :
    Option.Rel (fun x y => Paired R x.1 y.1 ∧ Q x.2 y.2) (s.step? m command)
      (t.step? m (command.map rewriting)) := by
  cases command with
  | edit register change =>
    unfold Session.step?
    rcases paired.cases register with ⟨none_here, none_there⟩ | ⟨a, b, here, there, related⟩
    · simp only [Command.map, none_here, none_there]
      exact .none
    · have result := respects.edit related change
      simp only [Command.map, here, there]
      exact .some ⟨paired.put here there (respects.state result), result⟩
  | merge register operand kind =>
    unfold Session.step?
    rcases paired.cases register with ⟨none_here, none_there⟩ | ⟨a, b, here, there, related⟩
    · simp only [Command.map, none_here, none_there]
      exact .none
    · rcases paired.cases operand with ⟨none_read, none_other⟩ | ⟨c, d, read, other, operands⟩
      · simp only [Command.map, here, there, none_read, none_other]
        exact .none
      · have result := respects.merge related operands kind
        simp only [Command.map, here, there, read, other]
        exact .some ⟨paired.put here there (respects.state result), result⟩

theorem Paired.apply (paired : Paired R s t) (respects : m.Respects rewriting R Q)
    (command : Command Change) :
    Option.Rel Q ((s.step? m command).map Prod.snd)
        ((t.step? m (command.map rewriting)).map Prod.snd) ∧
      Paired R (s.apply m command) (t.apply m (command.map rewriting)) := by
  have step := paired.step? respects command
  unfold Session.apply
  generalize s.step? m command = x at step ⊢
  generalize t.step? m (command.map rewriting) = y at step ⊢
  cases step with
  | none => exact ⟨.none, paired⟩
  | some related => exact ⟨.some related.2, related.1⟩

/-- All results of the two runs are related, one by one, and so are the registers at the end. -/
theorem Paired.runUnder (paired : Paired R s t)
    (respects : ∀ policy, (machine policy).Respects rewriting R Q)
    (commands : List (Policy × Command Change)) :
    List.Forall₂ (Option.Rel Q) (s.resultsUnder machine commands)
        (t.resultsUnder machine (commands.map (Prod.map id (Command.map rewriting)))) ∧
      Paired R (s.runUnder machine commands)
        (t.runUnder machine (commands.map (Prod.map id (Command.map rewriting)))) := by
  induction commands generalizing s t with
  | nil => exact ⟨.nil, paired⟩
  | cons entry rest ih =>
    obtain ⟨result, kept⟩ := paired.apply (respects entry.1) entry.2
    obtain ⟨results, registers⟩ := ih kept
    exact ⟨.cons result results, registers⟩

/-! ### One policy for all commands -/

theorem runUnder_const (machine : Policy → Machine Content Change Result) (policy : Policy)
    (s : Session Content) (commands : List (Command Change)) :
    s.runUnder machine (commands.map (Prod.mk policy)) = s.run (machine policy) commands := by
  unfold runUnder
  rw [List.foldl_map]
  rfl

theorem resultsUnder_const (machine : Policy → Machine Content Change Result) (policy : Policy)
    (s : Session Content) (commands : List (Command Change)) :
    s.resultsUnder machine (commands.map (Prod.mk policy)) = s.results (machine policy) commands := by
  induction commands generalizing s with
  | nil => rfl
  | cons command rest ih => exact congrArg (_ :: ·) (ih _)

theorem Paired.run (paired : Paired R s t) (respects : m.Respects rewriting R Q)
    (commands : List (Command Change)) :
    List.Forall₂ (Option.Rel Q) (s.results m commands)
        (t.results m (commands.map (Command.map rewriting))) ∧
      Paired R (s.run m commands) (t.run m (commands.map (Command.map rewriting))) := by
  let machine : Unit → Machine Content Change Result := fun _ => m
  have always : ∀ policy, (machine policy).Respects rewriting R Q := fun _ => respects
  have under := paired.runUnder always (commands.map (Prod.mk ()))
  have moved : (commands.map (Prod.mk ())).map (Prod.map id (Command.map rewriting)) =
      (commands.map (Command.map rewriting)).map (Prod.mk ()) := by
    rw [List.map_map, List.map_map]
    rfl
  rwa [moved, runUnder_const, runUnder_const, resultsUnder_const, resultsUnder_const] at under

theorem Paired.run_eq (paired : Paired Eq s t) (m : Machine Content Change Result)
    (commands : List (Command Change)) :
    s.results m commands = t.results m commands ∧ Paired Eq (s.run m commands) (t.run m commands) := by
  have respects : m.Respects id Eq Eq := by
    constructor
    · rintro a _ rfl change
      rfl
    · rintro a _ c _ rfl rfl kind
      rfl
    · rintro x _ rfl
      rfl
  obtain ⟨results, registers⟩ := paired.run respects commands
  simp only [funext Command.map_id, List.map_id'] at results registers
  refine ⟨?_, registers⟩
  rw [← List.forall₂_eq_eq_eq]
  refine results.imp fun x y related => ?_
  cases related with
  | none => rfl
  | some same => rw [same]

end Session

end SequenceTracking
