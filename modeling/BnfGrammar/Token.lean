/-!
# Tokens

The words of the grammar notation. A token has a kind, the text it was read from and the line on
which it starts. Lines are counted in 32-bit words.
-/

namespace BnfGrammar

/-! ## Kinds -/

/-- The kinds of words. `endOfInput` stands for the end of the text and is matched by no table. -/
inductive TokenKind
  | semicolon
  | derives
  | alsoDerives
  | epsilon
  | symbol
  | endOfInput
  deriving DecidableEq, Repr

namespace TokenKind

def all : List TokenKind :=
  [.semicolon, .derives, .alsoDerives, .epsilon, .symbol, .endOfInput]

/-- The number of a kind, its place in `all`. -/
def number : TokenKind → Nat
  | .semicolon => 0
  | .derives => 1
  | .alsoDerives => 2
  | .epsilon => 3
  | .symbol => 4
  | .endOfInput => 5

def ofNumber? (n : Nat) : Option TokenKind :=
  all[n]?

def name : TokenKind → String
  | .semicolon => "SEMICOLON"
  | .derives => "DERIVES"
  | .alsoDerives => "ALSODERIVES"
  | .epsilon => "EPSILON"
  | .symbol => "SYMBOL"
  | .endOfInput => "EOF"

/-- The name of a kind in stored lexicons and machine-readable reports. -/
def key : TokenKind → String
  | .semicolon => "Semicolon"
  | .derives => "Derives"
  | .alsoDerives => "AlsoDerives"
  | .epsilon => "Epsilon"
  | .symbol => "Symbol"
  | .endOfInput => "Eof"

def ofKey? (key : String) : Option TokenKind :=
  all.find? fun kind => kind.key = key

theorem ofNumber?_eq_some_iff {n : Nat} {kind : TokenKind} :
    ofNumber? n = some kind ↔ kind.number = n := by
  match n with
  | 0 | 1 | 2 | 3 | 4 | 5 => cases kind <;> decide
  | n + 6 => cases kind <;> simp [ofNumber?, all, number]

theorem ofKey?_key (kind : TokenKind) : ofKey? kind.key = some kind := by
  cases kind <;> decide

end TokenKind

/-! ## Words -/

structure Token where
  kind : TokenKind
  value : String
  line : UInt32
  deriving DecidableEq, Repr

namespace Token

def finish (line : UInt32) : Token :=
  ⟨.endOfInput, "", line⟩

end Token
end BnfGrammar
