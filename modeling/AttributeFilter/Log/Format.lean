import AttributeFilter.Log.Directive

namespace AttributeFilter.Log

open Text

inductive Format where
  | pretty
  | compact
  | json
deriving DecidableEq

namespace Format

def all : List Format :=
  [pretty, compact, json]

def name : Format → Text
  | pretty  => "pretty".toList
  | compact => "compact".toList
  | json    => "json".toList

end Format

namespace Record

def levelText (r : Record) : Text :=
  padLeft 5 ' ' r.level.label

def compact (span? : Option Nat) (r : Record) : Text :=
  let assign : Text × Field → Text := fun (name, f) => ' ' :: name ++ '=' :: f.toText
  r.levelText ++ ' ' :: (span?.elim [] fun _ => spanName ++ ": ".toList)
    ++ r.target ++ ": ".toList ++ r.message
    ++ (r.fields ++ (span?.map spanField).toList).flatMap assign ++ ['\n']

def pretty (span? : Option Nat) (r : Record) : Text :=
  let assign : Text × Field → Text := fun (name, f) => name ++ ": ".toList ++ f.toText
  let spanLine (length : Nat) : Text :=
    "    in ".toList ++ parserTarget ++ "::".toList ++ spanName ++ " with ".toList
      ++ assign (spanField length) ++ ['\n']
  "  ".toList ++ r.levelText ++ ' ' :: r.target ++ ": ".toList
    ++ joined ", ".toList (r.message :: r.fields.map assign) ++ ['\n']
    ++ span?.elim [] spanLine ++ ['\n']

def json (span? : Option Nat) (r : Record) : Text :=
  let member : Text × Field → Text × Json := fun (name, f) => (name, f.json)
  let spanJson (length : Nat) : Json :=
    .object [member (spanField length), ("name".toList, .string spanName)]
  let members : List (Text × Json) :=
    [("level".toList, .string r.level.label),
     ("fields".toList, .object (("message".toList, .string r.message) :: r.fields.map member)),
     ("target".toList, .string r.target)]
    ++ span?.elim [] fun length =>
      [("span".toList, spanJson length), ("spans".toList, .array [spanJson length])]
  (Json.object members).compact ++ ['\n']

def write (f : Format) (span? : Option Nat) (r : Record) : Text :=
  match f with
  | .pretty  => r.pretty span?
  | .compact => r.compact span?
  | .json    => r.json span?

end Record

-- The log output of a sequence of events, given the length that the span around them has, if they
-- stand in one that is let through.
def output (f : Format) (ds : List Directive) (span? : Option Nat) : List Event → Text
  | [] => []
  | .enter length :: es =>
    output f ds (if Directive.allow ds spanLevel parserTarget then some length else none) es
  | .exit :: es => output f ds none es
  | e :: es =>
    let written : Text :=
      match Record.ofEvent? e with
      | none   => []
      | some r => if Directive.allow ds r.level r.target then r.write f span? else []
    written ++ output f ds span? es

end AttributeFilter.Log
