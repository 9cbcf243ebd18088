/-!
# Decoded bytes

Bytes that are no encoding of a text are read from left to right, and each byte at which no
character begins is kept as a gap, so that a reader can tell where the damage is.
-/

namespace BnfGrammar
namespace Text

/-- The characters of a text that may be damaged; `none` is a place that stands for no character. -/
abbrev Damaged := List (Option Char)

def intact (s : String) : Damaged :=
  s.toList.map some

def intact? (d : Damaged) : Option String :=
  (d.mapM id).map String.ofList

def decodeFrom (bytes : ByteArray) : Nat → Nat → Damaged
  | 0, _ => []
  | steps + 1, position =>
      if position < bytes.size then
        match bytes.utf8DecodeChar? position with
        | some c => some c :: decodeFrom bytes steps (position + c.utf8Size)
        | none => none :: decodeFrom bytes steps (position + 1)
      else []

def decode (bytes : ByteArray) : Damaged :=
  match String.fromUTF8? bytes with
  | some s => intact s
  | none => decodeFrom bytes bytes.size 0

theorem decode_toUTF8 (s : String) : decode s.toUTF8 = intact s := by
  have key : String.fromUTF8? s.toUTF8 = some s := dif_pos s.isValidUTF8
  simp only [decode, key]

end Text
end BnfGrammar
