import BnfGrammar.Text.Extender
import BnfGrammar.Text.Printable

/-!
# Quoted texts

Characters that are not printable, or that would attach to their neighbour, are written by their
code points in hexadecimal. A quoted text therefore never spans two lines.
-/

namespace BnfGrammar
namespace Text

def codePointEscape (c : Char) : List Char :=
  ['\\', 'u', '\x7b'] ++ Nat.toDigits 16 c.toNat ++ ['\x7d']

def escapeBetween (delimiter c : Char) : List Char :=
  if c = '\x00' then ['\\', '0']
  else if c = '\t' then ['\\', 't']
  else if c = '\r' then ['\\', 'r']
  else if c = '\n' then ['\\', 'n']
  else if c = '\\' || c = delimiter then ['\\', c]
  else if isExtender c || !isPrintable c then codePointEscape c
  else [c]

def quoted (s : String) : String :=
  String.ofList ('\x22' :: s.toList.flatMap (escapeBetween '\x22') ++ ['\x22'])

def quotedChar (c : Char) : String :=
  String.ofList ('\x27' :: escapeBetween '\x27' c ++ ['\x27'])

end Text
end BnfGrammar
