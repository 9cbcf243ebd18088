import BnfGrammar.Json.Printer
import BnfGrammar.Json.Reader
import BnfGrammar.Lexicon.Basic

/-!
# Stored lexicons

The form in which a lexicon is kept in a file: a JSON record of its tables, each a record of its
fields. Maps and sets are written as lists in ascending order of their keys, so equal lexicons have
equal files.

Files may be written by hand, so reading takes lists in any order. Of two entries for one key the
later counts. The fields of a table are not checked against each other.
-/

namespace BnfGrammar

/-! ## Kinds -/

def TokenKind.toJson (kind : TokenKind) : Json :=
  Json.ofString kind.key

/-- Reads the key of a kind, or an object whose only field has that key and no value. -/
def TokenKind.ofJson? : Json → Option TokenKind
  | .object [(name, .null)] => do ofKey? (← Text.intact? name)
  | value => do ofKey? (← value.asText?)

/-! ## Tables -/

namespace Table

def fieldNames : List String :=
  ["kind", "char_to_class", "transitions", "token_of", "accepting", "legal", "n_classes"]

def classToJson (entry : Char × ClassId) : Json :=
  .array [Json.ofString (String.singleton entry.1), Json.ofWord entry.2]

def transitionToJson (entry : (ClassId × StateId) × StateId) : Json :=
  .array [Json.ofWord entry.1.1, Json.ofWord entry.1.2, Json.ofWord entry.2]

def tokenToJson (entry : StateId × TokenKind) : Json :=
  .array [Json.ofWord entry.1, entry.2.toJson]

def toJson (t : Table) : Json :=
  Json.ofFields (fieldNames.zip
    [t.kind.toJson,
      .array (t.classOfChar.toList.map classToJson),
      .array (t.transitions.toList.map transitionToJson),
      .array (t.tokenOf.toList.map tokenToJson),
      .array (t.accepting.toList.map Json.ofWord),
      .array (t.legal.toList.map Json.ofWord),
      Json.ofWord t.classCount])

def classOfJson? : Json → Option (Char × ClassId)
  | .array [c, cls] => do return (← c.asChar?, ← cls.asWord?)
  | _ => none

def transitionOfJson? : Json → Option ((ClassId × StateId) × StateId)
  | .array [cls, source, target] => do
      return ((← cls.asWord?, ← source.asWord?), ← target.asWord?)
  | _ => none

def tokenOfJson? : Json → Option (StateId × TokenKind)
  | .array [state, kind] => do return (← state.asWord?, ← TokenKind.ofJson? kind)
  | _ => none

def listOfJson? {α : Type} (read : Json → Option α) (value : Json) : Option (List α) := do
  (← value.asItems?).mapM read

def ofJson? (value : Json) : Option Table := do
  match ← value.asRecord? fieldNames with
  | [kind, classes, transitions, tokens, accepting, legal, classCount] =>
      let kind ← TokenKind.ofJson? kind
      let classes ← listOfJson? classOfJson? classes
      let transitions ← listOfJson? transitionOfJson? transitions
      let tokens ← listOfJson? tokenOfJson? tokens
      let accepting ← listOfJson? Json.asWord? accepting
      let legal ← listOfJson? Json.asWord? legal
      let classCount ← classCount.asWord?
      return {
        kind := kind
        classOfChar := classes.foldl (fun found entry => found.insert entry.1 entry.2) ∅
        transitions := transitions.foldl (fun found entry => found.insert entry.1 entry.2) ∅
        tokenOf := tokens.foldl (fun found entry => found.insert entry.1 entry.2) ∅
        accepting := Std.ExtTreeSet.ofList accepting
        legal := Std.ExtTreeSet.ofList legal
        classCount := classCount }
  | _ => none

end Table

/-! ## Lexicons -/

namespace Lexicon

def toJson (lexicon : Lexicon) : Json :=
  Json.ofFields [("tables", .array (lexicon.tables.map Table.toJson))]

def ofJson? (value : Json) : Option Lexicon := do
  match ← value.asRecord? ["tables"] with
  | [tables] => return ⟨← Table.listOfJson? Table.ofJson? tables⟩
  | _ => none

def store (lexicon : Lexicon) : String :=
  lexicon.toJson.pretty

inductive LoadError
  | malformed
  deriving DecidableEq, Repr

def LoadError.message : LoadError → String
  | .malformed => "lexicon tables JSON is malformed"

def load (bytes : ByteArray) : Except LoadError Lexicon :=
  match (Json.parse? (Text.decode bytes)).bind ofJson? with
  | some lexicon => .ok lexicon
  | none => .error .malformed

inductive SaveError
  | notCreated (path : String)
  deriving DecidableEq, Repr

def SaveError.message : SaveError → String
  | .notCreated path => s!"create {path}"

def saveLog (path : String) : Log.Record :=
  ⟨.debug, s!"[tables] wrote {path}"⟩

end Lexicon
end BnfGrammar
