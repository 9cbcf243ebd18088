import BnfGrammar.Report.Plain
import BnfGrammar.Report.Structured
import BnfGrammar.Sample.Trial

/-!
# Commands

What the two command-line programs do, as functions from their arguments and surroundings to what
they print and the status they exit with. `analyze` reports on the grammar in a file. `trials`
runs a series of trials on sample grammars.
-/

namespace BnfGrammar
namespace Command

structure Result where
  status : UInt32
  stdout : String
  stderr : String
  deriving DecidableEq, Repr

/-! ## Failures -/

inductive ReadFailure
  | missing
  /-- The file is there but its bytes are no text. -/
  | notText
  /-- Anything else, in the words of the system. -/
  | other (reason : String)
  deriving DecidableEq, Repr

def ReadFailure.message : ReadFailure → String
  | .missing => "No such file or directory (os error 2)"
  | .notText => "stream did not contain valid UTF-8"
  | .other reason => reason

inductive Failure
  | usage
  | unexpectedArgument (argument : String)
  | unreadable (path : String) (cause : ReadFailure)
  | lex (e : LexError)
  | parse (e : ParseError)
  | failedTrials (count : Nat)
  deriving DecidableEq, Repr

def Failure.message : Failure → String
  | .usage => "usage: bnfront <grammar-file> [--tokens] [--tree] [--json]"
  | .unexpectedArgument argument => s!"unexpected argument {Text.quoted argument}"
  | .unreadable path cause =>
      s!"failed to read grammar at {path}\n\nCaused by:\n    {cause.message}"
  | .lex e => e.message
  | .parse e => e.message
  | .failedTrials count => s!"{count} fuzz case(s) failed"

def Failure.result (failure : Failure) (stdout stderr : String) : Result :=
  ⟨1, stdout, stderr ++ s!"Error: {failure.message}\n"⟩

/-! ## Reporting on a file -/

structure Request where
  path : Option String := none
  options : ReportOptions := {}
  deriving DecidableEq, Repr

/-- Takes in one argument. Options may stand anywhere; the only other argument is the path. -/
def Request.add (request : Request) (argument : String) : Except Failure Request :=
  if argument = "--tokens" then
    .ok { request with options := { request.options with tokens := true } }
  else if argument = "--tree" then
    .ok { request with options := { request.options with tree := true } }
  else if argument = "--json" then
    .ok { request with options := { request.options with json := true } }
  else if request.path.isNone then
    .ok { request with path := some argument }
  else
    .error (.unexpectedArgument argument)

def Request.ofArguments (arguments : List String) : Except Failure (String × ReportOptions) := do
  let request ← arguments.foldlM Request.add {}
  match request.path with
  | some path => return (path, request.options)
  | none => throw .usage

def textOf (path : String) (file : Except ReadFailure ByteArray) : Except Failure String :=
  match file with
  | .ok bytes =>
      match String.fromUTF8? bytes with
      | some text => .ok text
      | none => .error (.unreadable path .notText)
  | .error cause => .error (.unreadable path cause)

def reportOn (text : String) (options : ReportOptions) : Except Failure String := do
  let tokens ← (Lexicon.standard.scan text).mapError .lex
  let tree ← (Node.parse tokens).mapError .parse
  let report := Report.ofTree tokens tree
  return if options.json then report.structured options else report.plain options

/-- Reports on the file that the arguments name; `file` gives the bytes at a path. -/
def analyze (arguments : List String) (file : String → Except ReadFailure ByteArray) : Result :=
  let printed := do
    let (path, options) ← Request.ofArguments arguments
    let text ← textOf path (file path)
    reportOn text options
  match printed with
  | .ok text => ⟨0, text, ""⟩
  | .error failure => failure.result "" ""

/-! ## Trials -/

def failedLine (failed : UInt64 × Trial.Failure) : String :=
  s!"[fuzz] seed={failed.1} FAILED: {failed.2.message}\n"

def trials (settings : Trial.Settings) : Result :=
  let failed := Trial.failures Lexicon.standard settings.sets.toNat settings.count.toNat
    settings.seed
  let stdout := s!"[fuzz] {settings.count} cases, {failed.length} failures\n"
  let stderr := String.join (failed.map failedLine)
  if failed.isEmpty then ⟨0, stdout, stderr⟩
  else (Failure.failedTrials failed.length).result stdout stderr

end Command
end BnfGrammar
