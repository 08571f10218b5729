import SequenceTracking.Merge

/-!
Runs of commands on a row of registers, for any kind of content that can be changed and merged. A
register is empty when its content could not be made at the start; a command that names such a
register changes nothing. All commands of a run may be carried out by one machine, or each by the machine
of a policy of its own.
-/
namespace SequenceTracking

inductive Command (Change : Type) where
  | edit (register : Nat) (change : Change)
  | merge (register operand : Nat) (kind : Merge)
  deriving DecidableEq, Repr

/-- How changes and merges of a content turn out, and the content that a result leaves. -/
structure Machine (Content Change Result : Type) where
  edit : Content → Change → Result
  merge : Content → Content → Merge → Result
  state : Result → Content

abbrev Session (Content : Type) := Array (Option Content)

namespace Session

variable {Content Change Result Policy : Type}

def get? (s : Session Content) (register : Nat) : Option Content := s.getD register none

def put (m : Machine Content Change Result) (s : Session Content) (register : Nat)
    (result : Result) : Session Content × Result :=
  (s.setIfInBounds register (some (m.state result)), result)

/-- The registers after a command and the result for the register that it changes. An operand is
    read before anything is changed, so a register may be merged with itself. -/
def step? (m : Machine Content Change Result) (s : Session Content) :
    Command Change → Option (Session Content × Result)
  | .edit register change =>
    (s.get? register).map fun a => s.put m register (m.edit a change)
  | .merge register operand kind =>
    (s.get? register).bind fun a => (s.get? operand).map fun b =>
      s.put m register (m.merge a b kind)

def apply (m : Machine Content Change Result) (s : Session Content) (command : Command Change) :
    Session Content :=
  ((s.step? m command).map Prod.fst).getD s

def run (m : Machine Content Change Result) (s : Session Content)
    (commands : List (Command Change)) : Session Content :=
  commands.foldl (apply m) s

/-- A run in which each command comes with the policy that it is carried out under. -/
def runUnder (machine : Policy → Machine Content Change Result) (s : Session Content)
    (commands : List (Policy × Command Change)) : Session Content :=
  commands.foldl (fun s entry => s.apply (machine entry.1) entry.2) s

def All (P : Content → Prop) (s : Session Content) : Prop :=
  ∀ register a, s.get? register = some a → P a

end Session

end SequenceTracking
