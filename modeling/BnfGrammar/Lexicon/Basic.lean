import BnfGrammar.Automaton.Words
import BnfGrammar.Table.Compile
import BnfGrammar.Table.Match

/-!
# Lexicons

The tables of the words of a notation, in the order in which they are tried. The first table that
matches decides, even if a later one would match more.
-/

namespace BnfGrammar

structure Lexicon where
  tables : List Table
  deriving DecidableEq

namespace Lexicon

def ofAutomata (automata : List (TokenKind × Automaton)) : Lexicon :=
  ⟨automata.map fun entry => Table.compile entry.1 entry.2⟩

def buildLog (automata : List (TokenKind × Automaton)) : List Log.Record :=
  automata.flatMap (fun entry => Table.compileLog entry.1 entry.2) ++
    [⟨.debug, s!"[tables] compiled {automata.length} automata"⟩]

def standard : Lexicon :=
  ofAutomata Automaton.grammarWords

def match? (lexicon : Lexicon) (text : List Char) : Option (Nat × TokenKind) :=
  lexicon.tables.findSome? fun table => table.match? text

end Lexicon
end BnfGrammar
