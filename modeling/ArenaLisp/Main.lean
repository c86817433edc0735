import ArenaLisp.CommandLine

/-!
# The program

Arguments, environment, files and standard streams, around `CommandLine.respond`.
-/

namespace ArenaLisp.CommandLine

/-- The bytes of a file, or why there are none. -/
def loadFile (path : String) : IO (Except FileError ByteArray) := do
  try
    return .ok (← IO.FS.readBinFile path)
  catch
    | .noFileOrDirectory .. => return .error .notFound
    | .inappropriateType _ 21 _ => return .error .isAFolder
    | .inappropriateType .. => return .error .notAFolder
    | .invalidArgument _ 36 _ => return .error .nameTooLong
    | e => return .error (.other (toString e))

/-- The threshold that the environment sets; without one, only errors are let through. -/
def threshold : IO (Option Level) := do
  match ← IO.getEnv logVariable with
  | some name => return Level.ofName? name
  | none => return some .error

def write : Output → IO Unit
  | .out text => IO.print text
  | .err text => IO.eprint text

end ArenaLisp.CommandLine

open ArenaLisp in
/-- Runs the program that the arguments name. -/
def main (args : List String) : IO UInt32 := do
  let response ← CommandLine.respond CommandLine.fuel (← CommandLine.threshold)
    (do (← IO.getStdin).readBinToEnd) CommandLine.loadFile (Request.ofArgs .default args)
  response.outputs.forM CommandLine.write
  return response.exitCode
