import SequenceTracking.Dump
import SequenceTracking.Failure

/-!
What a window reports while it works. Every event has a level and a text; a listener with a threshold
sees the events of its level and of those above.
-/
namespace SequenceTracking

inductive Level where
  | debug
  | trace
  deriving DecidableEq, Repr

def Level.name : Level → String
  | .debug => "debug"
  | .trace => "trace"

inductive Event where
  | anchored (seq : UInt32) (count : Nat)
  /-- A run was refused by a window whose lowest mark was `lowest`. -/
  | refused (seq : UInt32) (count : Nat) (lowest : UInt32) (span : Nat) (reason : Failure)
  | slidBack (distance : Nat) (seq : UInt32)
  | emptied (lowest : UInt32)
  | resized (before after kept : Nat)
  | resizeFailed (before after : Nat) (reason : Failure)
  | dumped (lowest : UInt32) (bits : List Bool)
  deriving DecidableEq, Repr

namespace Event

def level : Event → Level
  | anchored .. => .trace
  | refused .. => .debug
  | slidBack .. => .trace
  | emptied .. => .trace
  | resized .. => .debug
  | resizeFailed .. => .debug
  | dumped .. => .debug

def message : Event → String
  | anchored seq count => s!"window anchored at {seq} with {count} bits"
  | refused seq count lowest span reason =>
    s!"rejecting {count} bits at {seq}: window at {lowest} spans {span}, {reason.message}"
  | slidBack distance seq => s!"window slid back {distance} to {seq}"
  | emptied lowest => s!"window emptied at {lowest}"
  | resized before after kept => s!"resized window {before} -> {after}, {kept} marks kept"
  | resizeFailed before after reason =>
    s!"resize {before} -> {after} failed: {reason.message}"
  | dumped lowest bits => s!"window offset {lowest}:\n{Dump.text bits}"

/-- Whether a listener with this threshold sees the event; without a threshold it sees none. -/
def visible (threshold : Option Level) (event : Event) : Bool :=
  match threshold, event.level with
  | none, _ => false
  | some .trace, _ => true
  | some .debug, .debug => true
  | some .debug, .trace => false

end Event

end SequenceTracking
