import BnfGrammar.Json.Basic

/-!
# Reading JSON

These functions stand for the reader of the JSON library with which stored lexicons are read, and
follow its documented format, which is strict: commas never end a list, numbers have no leading
zeros, and control characters inside texts must be escaped. Damage is accepted inside texts only.
-/

namespace BnfGrammar
namespace Json

open Text (Damaged)

/-! ## Texts -/

/-- What one unescaped character or one escape inside a text stands for. -/
inductive Piece
  | char (c : Char)
  /-- Half of a surrogate pair. -/
  | surrogate (unit : Nat)
  /-- A byte at which no character begins. -/
  | stray

def Piece.ofUnit (unit : Nat) : Piece :=
  if 0xD800 ≤ unit && unit < 0xE000 then .surrogate unit else .char (Char.ofNat unit)

def hexValue? : Option Char → Option Nat
  | some c =>
      if '0' ≤ c && c ≤ '9' then some (c.toNat - '0'.toNat)
      else if 'a' ≤ c && c ≤ 'f' then some (c.toNat - 'a'.toNat + 10)
      else if 'A' ≤ c && c ≤ 'F' then some (c.toNat - 'A'.toNat + 10)
      else none
  | none => none

def escaped? (c : Char) : Option Char :=
  if c = '\x22' || c = '\\' || c = '/' then some c
  else if c = 'b' then some '\x08'
  else if c = 'f' then some '\x0c'
  else if c = 'n' then some '\n'
  else if c = 'r' then some '\r'
  else if c = 't' then some '\t'
  else none

def readPieces : Damaged → Option (List Piece × Damaged)
  | [] => none
  | none :: rest => do
      let (pieces, after) ← readPieces rest
      return (.stray :: pieces, after)
  | some c :: rest =>
      if c = '\x22' then some ([], rest)
      else if c = '\\' then
        match rest with
        | some 'u' :: h₁ :: h₂ :: h₃ :: h₄ :: rest => do
            let unit := 4096 * (← hexValue? h₁) + 256 * (← hexValue? h₂) + 16 * (← hexValue? h₃) +
              (← hexValue? h₄)
            let (pieces, after) ← readPieces rest
            return (Piece.ofUnit unit :: pieces, after)
        | some e :: rest => do
            let d ← escaped? e
            let (pieces, after) ← readPieces rest
            return (.char d :: pieces, after)
        | _ => none
      else if c.toNat < 0x20 then none
      else do
        let (pieces, after) ← readPieces rest
        return (.char c :: pieces, after)

def ofSurrogates (high low : Nat) : Char :=
  Char.ofNat (0x10000 + 0x400 * (high - 0xD800) + (low - 0xDC00))

/-- Joins the halves of surrogate pairs; a half without its partner stands for no character. -/
def joinPieces : List Piece → Damaged
  | [] => []
  | .surrogate high :: .surrogate low :: rest =>
      if high < 0xDC00 && 0xDC00 ≤ low then some (ofSurrogates high low) :: joinPieces rest
      else none :: joinPieces (.surrogate low :: rest)
  | .char c :: rest => some c :: joinPieces rest
  | _ :: rest => none :: joinPieces rest

def readText (input : Damaged) : Option (Damaged × Damaged) := do
  let (pieces, rest) ← readPieces input
  return (joinPieces pieces, rest)

/-! ## Numbers -/

def spanDigits : Damaged → List Char × Damaged
  | some c :: rest =>
      if c.isDigit then
        let (digits, after) := spanDigits rest
        (c :: digits, after)
      else ([], some c :: rest)
  | input => ([], input)

def readDigits (input : Damaged) : Option (List Char × Damaged) :=
  match spanDigits input with
  | ([], _) => none
  | found => some found

/-- Reads an integer without a sign: a zero alone, or digits that begin with another. -/
def readInteger (input : Damaged) : Option (List Char × Damaged) :=
  match readDigits input with
  | some ('0' :: _ :: _, _) => none
  | found => found

def readFraction : Damaged → Option (List Char × Damaged)
  | some '.' :: rest => do
      let (digits, after) ← readDigits rest
      return ('.' :: digits, after)
  | input => some ([], input)

def readSign : Damaged → List Char × Damaged
  | some '+' :: rest => (['+'], rest)
  | some '-' :: rest => (['-'], rest)
  | input => ([], input)

def readExponent : Damaged → Option (List Char × Damaged)
  | some c :: rest =>
      if c = 'e' || c = 'E' then do
        let (sign, unsigned) := readSign rest
        let (digits, after) ← readDigits unsigned
        return (c :: sign ++ digits, after)
      else some ([], some c :: rest)
  | input => some ([], input)

def readNumber (input : Damaged) : Option (Json × Damaged) := do
  let (sign, unsigned) :=
    match input with
    | some '-' :: rest => (['-'], rest)
    | _ => ([], input)
  let (integer, afterInteger) ← readInteger unsigned
  let (fraction, afterFraction) ← readFraction afterInteger
  let (exponent, after) ← readExponent afterFraction
  return (.number (sign ++ integer ++ fraction ++ exponent), after)

/-! ## Values -/

def skipBlanks : Damaged → Damaged
  | some c :: rest =>
      if c = ' ' || c = '\t' || c = '\n' || c = '\r' then skipBlanks rest else some c :: rest
  | input => input

mutual

def readValue : Nat → Damaged → Option (Json × Damaged)
  | 0, _ => none
  | depth + 1, input =>
      match skipBlanks input with
      | some 'n' :: some 'u' :: some 'l' :: some 'l' :: rest => some (.null, rest)
      | some 't' :: some 'r' :: some 'u' :: some 'e' :: rest => some (.bool true, rest)
      | some 'f' :: some 'a' :: some 'l' :: some 's' :: some 'e' :: rest =>
          some (.bool false, rest)
      | some '\x22' :: rest => do
          let (content, after) ← readText rest
          return (.text content, after)
      | some '[' :: rest =>
          match skipBlanks rest with
          | some ']' :: after => some (.array [], after)
          | first => do
              let (items, after) ← readItems depth first
              return (.array items, after)
      | some '\x7b' :: rest =>
          match skipBlanks rest with
          | some '\x7d' :: after => some (.object [], after)
          | first => do
              let (fields, after) ← readFields depth first
              return (.object fields, after)
      | first => readNumber first

def readItems : Nat → Damaged → Option (List Json × Damaged)
  | 0, _ => none
  | depth + 1, input => do
      let (item, afterItem) ← readValue depth input
      match skipBlanks afterItem with
      | some ',' :: rest =>
          let (items, after) ← readItems depth rest
          return (item :: items, after)
      | some ']' :: after => return ([item], after)
      | _ => none

def readFields : Nat → Damaged → Option (List (Damaged × Json) × Damaged)
  | 0, _ => none
  | depth + 1, input =>
      match skipBlanks input with
      | some '\x22' :: rest => do
          let (name, afterName) ← readText rest
          match skipBlanks afterName with
          | some ':' :: rest =>
              let (value, afterValue) ← readValue depth rest
              match skipBlanks afterValue with
              | some ',' :: rest =>
                  let (fields, after) ← readFields depth rest
                  return ((name, value) :: fields, after)
              | some '\x7d' :: after => return ([(name, value)], after)
              | _ => none
          | _ => none
      | _ => none

end

/-- Reads a value that is the whole input but for blanks around it. A value takes at least one
character and an item or a field at least two, so twice the length of the input bounds the nested
calls. -/
def parse? (input : Damaged) : Option Json := do
  let (value, rest) ← readValue (2 * input.length + 2) input
  match skipBlanks rest with
  | [] => return value
  | _ => none

end Json
end BnfGrammar
