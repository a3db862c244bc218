import AttributeFilter.Filter.Basic
import AttributeFilter.Grammar.Production
import AttributeFilter.Token.Cursor
import AttributeFilter.Token.Scanner

namespace AttributeFilter

structure Limits where
  -- The greatest length of a text, in bytes.
  maxLength : Nat := 4096
  -- The greatest number of levels that are open at a time.
  maxDepth : Nat := 32
deriving DecidableEq

inductive Event where
  | enter (length : Nat)
  | token (t : Token)
  | tokenized (count : Nat)
  | parsed (nodes : Nat)
  | parsedEmpty
  | rejected (e : Error)
  | exit
deriving DecidableEq

def Production.finish : Option Handle × Builder → Except Error (Option Filter)
  | (none, _)      => return none
  | (some root, b) => return some (← b.finish root)

-- Parses an expression at a cursor, which stops before the first token that does not continue it. An
-- error leaves consumed what was consumed before it.
def Cursor.parse (l : Limits) (c : Cursor) : Except Error (Option Filter) × Cursor :=
  -- No handle leaves the parser, so any serial number will do.
  let reply := Production.expression l.maxDepth (.ofSerial 0) c.remaining
  (reply.outcome >>= Production.finish, c.moveTo (c.tokens.length - reply.rest.length))

def parseTokens (l : Limits) (ts : List Token) : Except Error (Option Filter) := do
  let (result, c) := (Cursor.ofTokens ts).parse l
  let f? ← result
  c.expectEnd
  return f?

def Event.ofResult : Except Error (Option Filter) → Event
  | .ok (some f) => .parsed f.size
  | .ok none     => .parsedEmpty
  | .error e     => .rejected e

-- Parses a text, with the events between the beginning and the result. A text that is too long is
-- refused before its tokens are made.
def parseReporting (l : Limits) (t : Text) : Except Error (Option Filter) × List Event :=
  if l.maxLength < Text.byteLength t then
    (.error (.tooLong (Text.byteLength t) l.maxLength), [])
  else
    let scan := (Scanner.ofText t).scan
    let made := scan.tokens.map .token
    match scan.failure? with
    | some e => (.error e, made)
    | none   => (parseTokens l scan.tokens, made ++ [.tokenized scan.tokens.length])

def parse (l : Limits) (t : Text) : Except Error (Option Filter) :=
  (parseReporting l t).1

def trace (l : Limits) (t : Text) : List Event :=
  let (result, events) := parseReporting l t
  .enter (Text.byteLength t) :: events ++ [.ofResult result, .exit]

end AttributeFilter
