import BnfGrammar.Text.Decoded
import BnfGrammar.Text.Digits

/-!
# JSON values

Numbers are kept as they are written. Texts may be damaged, since a file may hold bytes or escapes
that stand for no character. The fields of an object keep their order and their repetitions.
-/

namespace BnfGrammar

inductive Json
  | null
  | bool (value : Bool)
  | number (literal : List Char)
  | text (content : Text.Damaged)
  | array (items : List Json)
  | object (fields : List (Text.Damaged × Json))

namespace Json

/-! ## Writing values -/

def ofString (s : String) : Json :=
  .text (Text.intact s)

def ofNat (n : Nat) : Json :=
  .number (Nat.toDigits 10 n)

def ofWord (n : UInt32) : Json :=
  ofNat n.toNat

def ofStrings (items : List String) : Json :=
  .array (items.map ofString)

def ofFields (fields : List (String × Json)) : Json :=
  .object (fields.map fun field => (Text.intact field.1, field.2))

/-! ## Reading values -/

def asText? : Json → Option String
  | .text content => Text.intact? content
  | _ => none

def asChar? : Json → Option Char
  | .text [some c] => some c
  | _ => none

/-- The 32-bit word of a value, if it is a number written with digits only and in range. -/
def asWord? : Json → Option UInt32
  | .number literal => do
      let value ← Text.natural? literal
      if value < 4294967296 then some (UInt32.ofNat value) else none
  | _ => none

def asItems? : Json → Option (List Json)
  | .array items => some items
  | _ => none

/-- The values of a record with the given field names, in their order. A record is written as an
object, which has each of the names once and may have other fields, or as an array of exactly the
values. -/
def asRecord? (names : List String) : Json → Option (List Json)
  | .array items => if items.length = names.length then some items else none
  | .object fields =>
      if fields.all fun field => field.1.all Option.isSome then
        names.mapM fun name =>
          match fields.filter fun field => field.1 = Text.intact name with
          | [(_, value)] => some value
          | _ => none
      else none
  | _ => none

end Json
end BnfGrammar
