/-!
# Decimal digits
-/

namespace BnfGrammar
namespace Text

def digitsValue (digits : List Char) : Nat :=
  digits.foldl (fun value digit => 10 * value + (digit.toNat - '0'.toNat)) 0

/-- The number that a text stands for, if it has at least one character and all are digits. -/
def natural? (text : List Char) : Option Nat :=
  if text.all Char.isDigit && !text.isEmpty then some (digitsValue text) else none

end Text
end BnfGrammar
