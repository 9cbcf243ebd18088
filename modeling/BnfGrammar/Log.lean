/-!
# Log records

A reader of the log asks for one level and gets the records of that level and the more severe ones.
-/

namespace BnfGrammar
namespace Log

/-- How severe a record is, the least severe first. -/
inductive Level
  | trace
  | debug
  | warn
  deriving DecidableEq, Repr

namespace Level

def name : Level → String
  | .trace => "TRACE"
  | .debug => "DEBUG"
  | .warn => "WARN"

def severity : Level → Nat
  | .trace => 0
  | .debug => 1
  | .warn => 2

end Level

structure Record where
  level : Level
  message : String
  deriving DecidableEq, Repr

def atLeast (threshold : Level) (records : List Record) : List Record :=
  records.filter fun record => threshold.severity ≤ record.level.severity

end Log
end BnfGrammar
