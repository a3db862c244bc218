import AttributeFilter.Command.Output

namespace AttributeFilter.Command

open Config

inductive Outcome where
  | misused
  | success (log output : Text)
  | failure (log message : Text)
deriving DecidableEq

namespace Outcome

def exitCode : Outcome → Nat
  | misused     => 2
  | success _ _ => 0
  | failure _ _ => 1

def output : Outcome → Text
  | success _ output => output ++ ['\n']
  | _                => []

def errors : Outcome → Text
  | misused             => []
  | success log _       => log
  | failure log message => log ++ "Error: ".toList ++ message ++ ['\n']

def ofResult (log : Text) : Except Error Text → Outcome
  | .ok output => success log output
  | .error e   => failure log e.message

end Outcome

-- The output of a command under limits, and the events on the way. Tokens are made without regard to
-- the limits.
def Verb.perform (v : Verb) (l : Limits) (filter : Text) : Except Error Text × List Event :=
  match v with
  | .parse view => ((AttributeFilter.parse l filter).map view.render, trace l filter)
  | .tokens =>
    let scan := (Scanner.ofText filter).scan
    (scan.result.map tokenLines, scan.tokens.map .token)

def Arguments.settings (a : Arguments) (env : Environment) (file? : Text → Option Text) :
    Except Fault Settings :=
  match a.config? with
  | none => Settings.load env none a.overrides
  | some path =>
    match file? path with
    | none      => .error (.missing path)
    | some text => Settings.load env (some text) a.overrides

def run (env : Environment) (file? : Text → Option Text) (arguments : List Text) : Outcome :=
  match Arguments.ofList? arguments with
  | none => .misused
  | some a =>
    match a.settings env file? with
    | .error e => .failure [] e.message
    | .ok s =>
      let (result, events) := a.verb.perform s.limits a.filter
      .ofResult (Log.output s.logging.format (s.logging.directives env) none events) result

end AttributeFilter.Command
