import WordProblem.Command.Outcome

/-! # The command line

The first argument names the tool.
-/
namespace WordProblem.CommandLine

/-- A failure of the operating system in its own words. -/
def reason : IO.Error → String
  | .noFileOrDirectory _ _ _ => "No such file or directory (os error 2)"
  | .permissionDenied _ _ _ => "Permission denied (os error 13)"
  | .inappropriateType _ _ _ => "Is a directory (os error 21)"
  | e => toString e

def readContent (file : String) : IO Description.Content := do
  try return .ok (← IO.FS.readBinFile file).toList
  catch e => return .error (reason e)

partial def readInput (input : IO.FS.Stream) (read : ByteArray) : IO ByteArray := do
  let more ← input.read 65536
  if more.isEmpty then return read else readInput input (read ++ more)

/-- Writes a file, or says why it cannot be written. -/
def writeContent (file : String) (content : List Char) : IO (Option String) := do
  try
    IO.FS.writeBinFile file ⟨(Utf8.encode content).toArray⟩
    return none
  catch e => return some (reason e)

def perform (e : Ending) : IO Outcome :=
  match e with
  | .done o => return o
  | .read answer => return answer (← readInput (← IO.getStdin) .empty).toList
  | .write file content => return e.outcome [] (← writeContent (String.ofList file) content)

def runTool (name : String) (arguments : List String) : IO Outcome := do
  match (Tool.ofName? name).bind (Options.ofArguments? · (arguments.map String.toList)) with
  | none => return .usage
  | some o => perform (o.run (← readContent (String.ofList o.grammar)))

end WordProblem.CommandLine

open WordProblem.CommandLine in
def main (arguments : List String) : IO UInt32 := do
  let o ← match arguments with
    | name :: rest => runTool name rest
    | [] => pure .usage
  (← IO.getStderr).putStr (String.ofList o.stderr)
  (← IO.getStdout).putStr (String.ofList o.stdout)
  return o.code.toUInt32
