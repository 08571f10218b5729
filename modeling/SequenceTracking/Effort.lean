/-!
How much work a randomised test run does. Two settings are read as text: one replaces the number of
cases, the other multiplies the number of steps. Text that is not a 32-bit count is as good as absent.
-/
namespace SequenceTracking.Effort

def settingLimit : Nat := UInt32.size - 1

def stepLimit : Nat := UInt64.size - 1

def digits? (digits : List Char) : Option Nat :=
  digits.foldl
    (fun value? c => do
      let value ← value?
      if c.isDigit then some (10 * value + (c.toNat - '0'.toNat)) else none)
    (some 0)

def count? (text : String) : Option Nat :=
  let digits := match text.toList with
    | '+' :: rest => rest
    | all => all
  if digits.isEmpty then none
  else (digits? digits).filter (· ≤ settingLimit)

def setting? (text? : Option String) : Option Nat := text?.bind count?

def cases (text? : Option String) (usual : Nat) : Nat := (setting? text?).getD usual

/-- The number of steps in a case: the usual number times the setting, a setting of zero counting as
    one, and never more than `stepLimit`. -/
def steps (text? : Option String) (usual : Nat) : Nat :=
  min (usual * max ((setting? text?).getD 1) 1) stepLimit

end SequenceTracking.Effort
