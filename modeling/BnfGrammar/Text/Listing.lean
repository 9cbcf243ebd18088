/-!
# Listings

Lists between brackets and columns of a fixed width. Widths count characters.
-/

namespace BnfGrammar
namespace Text

def bracketed (items : List String) : String :=
  "[" ++ ", ".intercalate items ++ "]"

def padRight (width : Nat) (s : String) : String :=
  s ++ String.ofList (List.replicate (width - s.length) ' ')

def padLeft (width : Nat) (s : String) : String :=
  String.ofList (List.replicate (width - s.length) ' ') ++ s

end Text
end BnfGrammar
