/-!
Lower-case hexadecimal text of a natural number, the form in which masks are shown.
-/
namespace SequenceTracking

def hex (n : Nat) : String :=
  "0x" ++ String.ofList (Nat.toDigits 16 n)

end SequenceTracking
