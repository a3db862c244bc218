import AttributeFilter.Command.Run

namespace AttributeFilter

def readFile? (path : Text) : IO (Option Text) := do
  try return some (← IO.FS.readFile (String.ofList path)).toList
  catch _ => return none

def readEnvironment : List Text → IO Config.Environment
  | [] => return []
  | name :: names => do
    let later ← readEnvironment names
    match ← IO.getEnv (String.ofList name) with
    | none       => return later
    | some value => return (name, value.toList) :: later

def printUnlessEmpty (stream : IO.FS.Stream) (t : Text) : IO Unit := do
  unless t.isEmpty do
    stream.putStr (String.ofList t)
    stream.flush

end AttributeFilter

open AttributeFilter in
def main (arguments : List String) : IO UInt32 := do
  let words := arguments.map String.toList
  let path? := (Command.Arguments.ofList? words).bind (·.config?)
  let content? ← path?.bindM readFile?
  let names := Config.directivesVariable :: (content?.map Config.references).getD []
  let env ← readEnvironment names
  let outcome := Command.run env (fun _ => content?) words
  printUnlessEmpty (← IO.getStderr) outcome.errors
  printUnlessEmpty (← IO.getStdout) outcome.output
  return outcome.exitCode.toUInt32
