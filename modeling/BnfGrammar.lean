import BnfGrammar.Analysis
import BnfGrammar.Automaton.Basic
import BnfGrammar.Automaton.Reach
import BnfGrammar.Automaton.Words
import BnfGrammar.Collections.ArrivalMap
import BnfGrammar.Collections.ArrivalSet
import BnfGrammar.Command
import BnfGrammar.Grammar.Basic
import BnfGrammar.Grammar.OfTree
import BnfGrammar.Json.Basic
import BnfGrammar.Json.Printer
import BnfGrammar.Json.Reader
import BnfGrammar.Lexicon.Basic
import BnfGrammar.Lexicon.Scanner
import BnfGrammar.Lexicon.Stored
import BnfGrammar.Log
import BnfGrammar.Lookahead.Basic
import BnfGrammar.Lookahead.Converge
import BnfGrammar.Lookahead.First
import BnfGrammar.Lookahead.Follow
import BnfGrammar.Lookahead.Prediction
import BnfGrammar.Main
import BnfGrammar.Report.Basic
import BnfGrammar.Report.Plain
import BnfGrammar.Report.Structured
import BnfGrammar.Sample.Choice
import BnfGrammar.Sample.Draw
import BnfGrammar.Sample.Spaced
import BnfGrammar.Sample.Trial
import BnfGrammar.Source
import BnfGrammar.SyntaxTree.Dump
import BnfGrammar.SyntaxTree.Node
import BnfGrammar.SyntaxTree.Parse
import BnfGrammar.SyntaxTree.Rule
import BnfGrammar.Table.Basic
import BnfGrammar.Table.Compile
import BnfGrammar.Table.Match
import BnfGrammar.Text.Decoded
import BnfGrammar.Text.Digits
import BnfGrammar.Text.Extender
import BnfGrammar.Text.LetterCase
import BnfGrammar.Text.Listing
import BnfGrammar.Text.Printable
import BnfGrammar.Text.Quoted
import BnfGrammar.Token
import BnfGrammar.Proofs.Collections
import BnfGrammar.Proofs.Text.Quoted
import BnfGrammar.Proofs.Automaton.Paths
import BnfGrammar.Proofs.Automaton.BreadthFirst
import BnfGrammar.Proofs.Automaton.Words
import BnfGrammar.Proofs.Table.Match
import BnfGrammar.Proofs.Table.Compile
import BnfGrammar.Proofs.Table.Fields
import BnfGrammar.Proofs.Table.Keyword
import BnfGrammar.Proofs.Lexicon.Tiling
import BnfGrammar.Proofs.Lexicon.Standard
import BnfGrammar.Proofs.Lexicon.Calls
import BnfGrammar.Proofs.Lexicon.Layout
import BnfGrammar.Proofs.Lexicon.Spaced
import BnfGrammar.Proofs.Lexicon.Spelled
import BnfGrammar.Proofs.Json.RoundTrip
import BnfGrammar.Proofs.Lexicon.Stored
import BnfGrammar.Proofs.Grammar.Derivation
import BnfGrammar.Proofs.Grammar.Consistent
import BnfGrammar.Proofs.Grammar.OfTree
import BnfGrammar.Proofs.Grammar.Productions
import BnfGrammar.Proofs.Grammar.Split
import BnfGrammar.Proofs.Lookahead.Converge
import BnfGrammar.Proofs.Lookahead.First
import BnfGrammar.Proofs.Lookahead.Follow
import BnfGrammar.Proofs.Lookahead.Prediction
import BnfGrammar.Proofs.Lookahead.Occurring
import BnfGrammar.Proofs.Lookahead.Passes
import BnfGrammar.Proofs.Lookahead.Cells
import BnfGrammar.Proofs.Lookahead.Deterministic
import BnfGrammar.Proofs.Lookahead.LeftRecursion
import BnfGrammar.Proofs.SyntaxTree.Derivation
import BnfGrammar.Proofs.SyntaxTree.Preorder
import BnfGrammar.Proofs.SyntaxTree.Walk
import BnfGrammar.Proofs.SyntaxTree.Dump
import BnfGrammar.Proofs.SyntaxTree.Outline
import BnfGrammar.Proofs.SyntaxTree.Sentence
import BnfGrammar.Proofs.SyntaxTree.Reads
import BnfGrammar.Proofs.SyntaxTree.Parse
import BnfGrammar.Proofs.SyntaxTree.Nested
import BnfGrammar.Proofs.SyntaxTree.Failure
import BnfGrammar.Proofs.SyntaxTree.Place
import BnfGrammar.Proofs.SyntaxTree.OpenRules
import BnfGrammar.Proofs.Analysis
import BnfGrammar.Proofs.Source
import BnfGrammar.Proofs.Reading
import BnfGrammar.Proofs.Rendering
import BnfGrammar.Proofs.Sample.Written
import BnfGrammar.Proofs.Sample.Drawn
import BnfGrammar.Proofs.Sample.Trial
import BnfGrammar.Proofs.Grammar.AnyTree
import BnfGrammar.Proofs.Table.Rollback
import BnfGrammar.Proofs.Lexicon.Canonical
import BnfGrammar.Proofs.Table.Worklist
