import ScorePlayback.Arguments

/-! # The program

Reads the files, runs the command, prints what it answers and returns its exit code. -/

namespace ScorePlayback

def TextFile.load (path : String) : IO TextFile := do
  let text ← try
      let bytes ← IO.FS.readBinFile path
      pure (match String.fromUTF8? bytes with
        | some text => .ok text
        | none => .error .notUtf8)
    catch
      | .noFileOrDirectory .. => pure (.error .missing)
      | error => pure (.error (.refused (toString error)))
  return ⟨path, text⟩

def runProgram (arguments : Arguments) : IO UInt32 := do
  let config ← arguments.config.mapM fun path => TextFile.load path
  let score ← TextFile.load arguments.score
  let outcome := runCommand arguments.options config score
  IO.print outcome.output
  IO.eprint outcome.errors
  return outcome.exitCode.toUInt32

end ScorePlayback

open ScorePlayback in
def main (arguments : List String) : IO UInt32 := do
  match Arguments.read? arguments with
  | some arguments => runProgram arguments
  | none =>
    IO.eprint usage
    return 2
