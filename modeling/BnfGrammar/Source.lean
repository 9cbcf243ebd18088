import BnfGrammar.Analysis
import BnfGrammar.Lexicon.Scanner
import BnfGrammar.SyntaxTree.Parse

/-!
# Grammars as texts

The whole way from a text to the analysis of the grammar that it describes: scanning, parsing and
analysing. The first step that fails ends it.
-/

namespace BnfGrammar

inductive SourceError
  | lex (e : LexError)
  | parse (e : ParseError)
  deriving DecidableEq, Repr

def SourceError.message : SourceError → String
  | .lex e => s!"lex error: {e.message}"
  | .parse e => s!"parse error: {e.message}"

namespace Lexicon

def parseText (lexicon : Lexicon) (text : String) : Except SourceError Node := do
  let tokens ← (lexicon.scan text).mapError .lex
  (Node.parse tokens).mapError .parse

def analyzeText (lexicon : Lexicon) (text : String) : Except SourceError Analysis :=
  (lexicon.parseText text).map Analysis.ofTree

def parseTextLog (lexicon : Lexicon) (text : String) : List Log.Record :=
  (Scanner.ofText lexicon text).log ++
    match lexicon.scan text with
    | .ok tokens => Node.parseLog tokens
    | .error _ => []

end Lexicon
end BnfGrammar
