import SequenceTracking.Window.Basic
import SequenceTracking.Window.Event

/-!
One step of a window's life: the window it leaves, the reason if it was turned down, and the events
that were reported on the way. Steps are put in a row with `andThen`; the first refusal ends the row.
-/
namespace SequenceTracking.Window

structure Step extends Outcome Window where
  events : List Event
  deriving DecidableEq, Repr

namespace Step

def done (w : Window) : Step := ⟨.done w, []⟩

def refused (w : Window) (reason : Failure) : Step := ⟨.refused w reason, []⟩

def andThen (s : Step) (next : Window → Step) : Step :=
  match s.failure? with
  | some _ => s
  | none =>
    let t := next s.state
    { t with events := s.events ++ t.events }

def report (s : Step) (event : Event) : Step := { s with events := s.events ++ [event] }

/-- Takes one step for each item, until one is turned down. -/
def each (items : List α) (next : Window → α → Step) (w : Window) : Step :=
  items.foldl (fun s item => s.andThen fun w => next w item) (done w)

@[simp] theorem done_andThen (w : Window) (next : Window → Step) :
    (done w).andThen next = next w := by simp [andThen, done, Outcome.done]

theorem andThen_of_refused {s : Step} {reason : Failure} (refusal : s.failure? = some reason)
    (next : Window → Step) : s.andThen next = s := by simp [andThen, refusal]

theorem andThen_assoc (s : Step) (f g : Window → Step) :
    (s.andThen f).andThen g = s.andThen fun w => (f w).andThen g := by
  cases first : s.failure? with
  | some reason => rw [andThen_of_refused first, andThen_of_refused first, andThen_of_refused first]
  | none =>
    cases second : (f s.state).failure? <;> simp [andThen, first, second]

theorem foldl_andThen (items : List α) (next : Window → α → Step) (s : Step) :
    items.foldl (fun s item => s.andThen fun w => next w item) s =
      s.andThen fun w => each items next w := by
  induction items generalizing s with
  | nil =>
    cases first : s.failure? with
    | some reason => rw [andThen_of_refused first]; rfl
    | none =>
      obtain ⟨⟨w, failure?⟩, events⟩ := s
      simp_all [andThen, each, done, Outcome.done]
  | cons item rest ih =>
    simp only [each, List.foldl_cons, done_andThen]
    rw [ih, andThen_assoc]
    congr 1
    funext w
    exact (ih (next w item)).symm

@[simp] theorem each_nil (next : Window → α → Step) (w : Window) : each [] next w = done w := rfl

theorem each_cons (item : α) (rest : List α) (next : Window → α → Step) (w : Window) :
    each (item :: rest) next w = (next w item).andThen fun w => each rest next w := by
  rw [each, List.foldl_cons, done_andThen, foldl_andThen]

end Step

end SequenceTracking.Window
