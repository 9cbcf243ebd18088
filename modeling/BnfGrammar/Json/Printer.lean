import BnfGrammar.Json.Basic

/-!
# Printing JSON

These functions stand for the printer of the JSON library with which lexicons and reports are
written, and follow its documented format: indentation by two blanks, one item or field a line,
empty arrays and objects on one line. Each writes its part before the text that is to follow it.
-/

namespace BnfGrammar
namespace Json

def escapeChar (c : Char) : List Char :=
  if c = '\x22' || c = '\\' then ['\\', c]
  else if c = '\x08' then ['\\', 'b']
  else if c = '\t' then ['\\', 't']
  else if c = '\n' then ['\\', 'n']
  else if c = '\x0c' then ['\\', 'f']
  else if c = '\r' then ['\\', 'r']
  else if c.toNat < 0x20 then
    ['\\', 'u', '0', '0', Nat.digitChar (c.toNat / 16), Nat.digitChar (c.toNat % 16)]
  else [c]

/-- What is written for a place of a text. A gap is written as half of a surrogate pair, which
stands for no character. -/
def escapePlace : Option Char → List Char
  | some c => escapeChar c
  | none => ['\\', 'u', 'd', '8', '0', '0']

def printText (content : Text.Damaged) (rest : List Char) : List Char :=
  '\x22' :: content.foldr (fun place written => escapePlace place ++ written) ('\x22' :: rest)

def lineBreak (level : Nat) (rest : List Char) : List Char :=
  '\n' :: List.replicate (2 * level) ' ' ++ rest

mutual

def print (level : Nat) : Json → List Char → List Char
  | .null, rest => 'n' :: 'u' :: 'l' :: 'l' :: rest
  | .bool true, rest => 't' :: 'r' :: 'u' :: 'e' :: rest
  | .bool false, rest => 'f' :: 'a' :: 'l' :: 's' :: 'e' :: rest
  | .number literal, rest => literal ++ rest
  | .text content, rest => printText content rest
  | .array [], rest => '[' :: ']' :: rest
  | .array (item :: items), rest =>
      '[' :: lineBreak (level + 1) (print (level + 1) item (printItems level items rest))
  | .object [], rest => '\x7b' :: '\x7d' :: rest
  | .object ((name, value) :: fields), rest =>
      '\x7b' :: lineBreak (level + 1) (printText name
        (':' :: ' ' :: print (level + 1) value (printFields level fields rest)))

def printItems (level : Nat) : List Json → List Char → List Char
  | [], rest => lineBreak level (']' :: rest)
  | item :: items, rest =>
      ',' :: lineBreak (level + 1) (print (level + 1) item (printItems level items rest))

def printFields (level : Nat) : List (Text.Damaged × Json) → List Char → List Char
  | [], rest => lineBreak level ('\x7d' :: rest)
  | (name, value) :: fields, rest =>
      ',' :: lineBreak (level + 1) (printText name
        (':' :: ' ' :: print (level + 1) value (printFields level fields rest)))

end

def pretty (value : Json) : String :=
  String.ofList (value.print 0 [])

end Json
end BnfGrammar
