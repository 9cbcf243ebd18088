import BnfGrammar.Log
import BnfGrammar.SyntaxTree.Node
import BnfGrammar.Text.Listing
import BnfGrammar.Text.Quoted

/-!
# Parsing

The parser reads a list of tokens by the rules of the grammar notation, one procedure for each rule,
with one token of lookahead. It keeps the rules that are being expanded, which a failure reports,
and the sequence of rules that were entered, which the log tells.

The tails are expanded round by round, not by nested calls: every round opens the rule once more, so
that a failure reports the same open rules as a nested expansion, and the rounds are nested into one
another at the end.
-/

namespace BnfGrammar

/-! ## Failures -/

structure ParseError where
  /-- The innermost rule that was being expanded. -/
  expected : Rule
  got : TokenKind
  line : UInt32
  text : String
  /-- The rules that were being expanded, the outermost first. -/
  stack : List Rule
  deriving DecidableEq, Repr

def ParseError.message (e : ParseError) : String :=
  s!"line {e.line}: expected {e.expected.name}, got {e.got.name} {Text.quoted e.text}"

/-! ## Progress -/

namespace Parse

structure Progress where
  rest : List Token
  /-- The token that is read when no other is left. -/
  finish : Token
  /-- The rules that are being expanded, the innermost first. -/
  opened : List Rule := []
  /-- The rules entered so far with the text of the token at hand, the latest first. -/
  entered : List (Rule × String) := []

namespace Progress

/-- The progress before the first token. A missing end of input is taken to stand on the line of
the last token. -/
def ofTokens (tokens : List Token) : Progress where
  rest := tokens
  finish := Token.finish ((tokens.getLast?.map Token.line).getD 1)

def word (p : Progress) : Token :=
  p.rest.headD p.finish

def advance (p : Progress) : Progress :=
  { p with rest := p.rest.tail }

def enter (rule : Rule) (p : Progress) : Progress :=
  { p with
    opened := rule :: p.opened
    entered := (rule, p.word.value) :: p.entered }

def leave (p : Progress) : Progress :=
  { p with opened := p.opened.tail }

def failure (p : Progress) : ParseError where
  expected := p.opened.headD .grammar
  got := p.word.kind
  line := p.word.line
  text := p.word.value
  stack := p.opened.reverse

end Progress

/-! ## Steps -/

abbrev Reader := EStateM ParseError Progress

def fail {α : Type} : Reader α := do
  throw (← get).failure

def expect (kind : TokenKind) : Reader Node := do
  let word := (← get).word
  if word.kind = kind then
    modify Progress.advance
    return Node.word kind word.value
  else
    fail

def expand (rule : Rule) (body : Reader (List Node)) : Reader Node := do
  modify (Progress.enter rule)
  let children ← body
  modify Progress.leave
  return Node.expansion rule children

/-! ## Tails -/

def mayEnd (rule : Rule) : Reader Bool := do
  return rule.emptyBefore.contains (← get).word.kind

/-- Opens a tail again and again and reads one round of children each time, until the tail may end.
The rounds are given back with the latest first. -/
def rounds (rule : Rule) (body : Reader (List Node)) :
    Nat → List (List Node) → Reader (List (List Node))
  | 0, done => return done
  | limit + 1, done => do
      modify (Progress.enter rule)
      if ← mayEnd rule then
        return done
      else
        let children ← body
        rounds rule body limit (children :: done)

/-- Nests the rounds of a tail into one another: each ends in the expansion of the next, and the
last in an empty one. -/
def nestRounds (rule : Rule) (done : List (List Node)) : Node :=
  done.foldl (fun inner children => Node.expansion rule (children ++ [inner]))
    (Node.expansion rule [])

/-- Expands a tail. Every round but the last reads a token, so there is at most one round more than
there are tokens. -/
def expandTail (rule : Rule) (body : Reader (List Node)) : Reader Node := do
  let before ← get
  let done ← rounds rule body (before.rest.length + 1) []
  modify fun p => { p with opened := before.opened }
  return nestRounds rule done

/-! ## Rules -/

def symbolListTail : Reader Node :=
  expandTail .symbolListTail do
    return [← expect .symbol]

def symbolList : Reader Node :=
  expand .symbolList do
    let first ← expect .symbol
    let others ← symbolListTail
    return [first, others]

def rightHandSide : Reader Node :=
  expand .rightHandSide do
    match (← get).word.kind with
    | .epsilon => return [← expect .epsilon]
    | .symbol => return [← symbolList]
    | _ => fail

def productionSetTail : Reader Node :=
  expandTail .productionSetTail do
    let bar ← expect .alsoDerives
    let alternative ← rightHandSide
    return [bar, alternative]

def productionSet : Reader Node :=
  expand .productionSet do
    let head ← expect .symbol
    let colon ← expect .derives
    let alternative ← rightHandSide
    let others ← productionSetTail
    return [head, colon, alternative, others]

def productionListTail : Reader Node :=
  expandTail .productionListTail do
    let set ← productionSet
    let stop ← expect .semicolon
    return [set, stop]

def productionList : Reader Node :=
  expand .productionList do
    let set ← productionSet
    let stop ← expect .semicolon
    let others ← productionListTail
    return [set, stop, others]

def grammar : Reader Node :=
  expand .grammar do
    let list ← productionList
    let stop ← expect .endOfInput
    return [list, stop]

end Parse

/-! ## Whole parses -/

/-- The syntax tree of a list of tokens, or the failure at the first token that cannot stand where
it does. Tokens after the end of the input are ignored. -/
def Node.parse (tokens : List Token) : Except ParseError Node :=
  match Parse.grammar (.ofTokens tokens) with
  | .ok tree _ => .ok tree
  | .error e _ => .error e

def Node.parseTrace (tokens : List Token) : List (Rule × String) :=
  match Parse.grammar (.ofTokens tokens) with
  | .ok _ p => p.entered.reverse
  | .error _ p => p.entered.reverse

def Node.parseLog (tokens : List Token) : List Log.Record :=
  (parseTrace tokens).map
      (fun entry => ⟨.trace, s!"[parse] enter {entry.1.name} at {Text.quoted entry.2}"⟩) ++
    match parse tokens with
    | .ok _ => []
    | .error e =>
        let stack := Text.bracketed (e.stack.map Rule.key)
        [⟨.debug, s!"[parse] {e.message}; stack={stack}"⟩]

end BnfGrammar
