import AttributeFilter.Parse

namespace AttributeFilter.Log

inductive Level where
  | trace
  | debug
  | info
  | warn
  | error
deriving DecidableEq

namespace Level

def all : List Level :=
  [trace, debug, info, warn, error]

def name : Level → Text
  | trace => "trace".toList
  | debug => "debug".toList
  | info  => "info".toList
  | warn  => "warn".toList
  | error => "error".toList

def label (l : Level) : Text :=
  l.name.map Char.toUpper

-- How much a level lets through: its own records, and those of every lower rank.
def rank : Level → Nat
  | error => 1
  | warn  => 2
  | info  => 3
  | debug => 4
  | trace => 5

end Level

inductive Field where
  | text (t : Text)
  | count (n : Nat)
deriving DecidableEq

namespace Field

def toText : Field → Text
  | text t  => t
  | count n => Text.ofNat n

def json : Field → Json
  | text t  => .string t
  | count n => .number (Text.ofNat n)

end Field

structure Record where
  level : Level
  target : Text
  message : Text
  fields : List (Text × Field)
deriving DecidableEq

def tokenTarget : Text :=
  "scim_filter::scim::token".toList

def parserTarget : Text :=
  "scim_filter::scim::parser".toList

def spanName : Text :=
  "scim.filter.parse".toList

def spanLevel : Level :=
  .debug

def spanField (length : Nat) : Text × Field :=
  ("length".toList, .count length)

-- The record of an event. The ends of the span have none.
def Record.ofEvent? : Event → Option Record
  | .enter _ | .exit => none
  | .token t => some {
      level   := .trace
      target  := tokenTarget
      message := "token".toList
      fields  := [("kind".toList, .text t.kind.name), ("text".toList, .text t.text),
        ("position".toList, .text t.position.text)] }
  | .tokenized n => some {
      level   := .trace
      target  := parserTarget
      message := "Tokenized SCIM filter".toList
      fields  := [("tokens".toList, .count n)] }
  | .parsed n => some {
      level   := .debug
      target  := parserTarget
      message := "Parsed SCIM filter".toList
      fields  := [("nodes".toList, .count n)] }
  | .parsedEmpty => some {
      level   := .debug
      target  := parserTarget
      message := "Parsed empty SCIM filter".toList
      fields  := [] }
  | .rejected e => some {
      level   := .debug
      target  := parserTarget
      message := "Rejected SCIM filter".toList
      fields  := [("error".toList, .text e.message)] }

end AttributeFilter.Log
