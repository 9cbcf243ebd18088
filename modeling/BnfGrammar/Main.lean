import BnfGrammar.Command

/-!
# Programs

The outer layer: it reads the arguments, the environment and the file, and prints what
`Command` makes of them.
-/

namespace BnfGrammar

def readBytes (path : String) : IO (Except Command.ReadFailure ByteArray) := do
  try
    return .ok (← IO.FS.readBinFile path)
  catch
    | .noFileOrDirectory .. => return .error .missing
    | e => return .error (.other (toString e))

def finish (result : Command.Result) : IO UInt32 := do
  IO.print result.stdout
  IO.eprint result.stderr
  return result.status

def runTrials : IO UInt32 := do
  let seed ← IO.getEnv "FUZZ_SEED"
  let count ← IO.getEnv "FUZZ_ITERS"
  let sets ← IO.getEnv "FUZZ_LEN"
  finish (Command.trials (.ofTexts seed count sets))

end BnfGrammar

def main (arguments : List String) : IO UInt32 := do
  let file ←
    match BnfGrammar.Command.Request.ofArguments arguments with
    | .ok (path, _) => BnfGrammar.readBytes path
    | .error _ => pure (.error .missing)
  BnfGrammar.finish (BnfGrammar.Command.analyze arguments fun _ => file)
