import AttributeFilter.Parser
import AttributeFilter.Path
import AttributeFilter.Token.Basic
import AttributeFilter.Value

namespace AttributeFilter.Grammar

open AttributeFilter.Parser Text

abbrev Rule (α : Type) : Type :=
  Parser Token Error α

def isNext (kinds : List Token.Kind) (ts : List Token) : Bool :=
  ts.head?.any fun t => t.kind ∈ kinds

def unexpected (t : Token) : Error :=
  .unexpected t.text t.position

def expect (kinds : List Token.Kind) : Rule Token
  | [] => fail .endOfText []
  | t :: ts =>
    if t.kind ∈ kinds then (ofExcept (.ok t) ts).weaken (List.suffix_cons t ts)
    else fail (unexpected t) (t :: ts)

def optional {α : Type} (kind : Token.Kind) (rule : Rule α) : Rule (Option α) := do
  if isNext [kind] (← ahead) then return some (← rule) else return none

-- Goes by a rule as often as a separator stands before it.
def behindEach {α : Type} (separator : Token.Kind) (rule : Rule α) : Rule (List α) :=
  many (fun t => t.kind = separator) rule

-- The value that a literal denotes. Numbers have to be finite.
def literalValue (t : Token) : Except Error Value :=
  match t.kind with
  | .string =>
    match Quoted.decodePadded? t.text with
    | some s => .ok (.string s)
    | none   => .error (.unrecognized t.text t.position)
  | .number =>
    match (Binary64.ofText? t.text).filter Binary64.isFinite with
    | some x => .ok (.number x)
    | none   => .error (.unrecognized t.text t.position)
  | .true  => .ok (.boolean true)
  | .false => .ok (.boolean false)
  | .null  => .ok .null
  | _      => .error (unexpected t)

def literal : Rule Value := do
  ofExcept (literalValue (← expect Token.Kind.literals))

def operator : Rule Operator := do
  let t ← expect [.operator]
  match Operator.ofWord? t.text with
  | some o => return o
  | none   => fail (unexpected t)

def segment (kinds : List Token.Kind) : Rule Text := do
  return (← expect kinds).text

def schema : Rule Text := do
  let t ← expect [.schemaUri]
  let _ ← expect [.colon]
  return t.text

def subAttribute : Rule Text := do
  let _ ← expect [.dot]
  segment [.identifier]

def name : Rule Path := do
  let schema? ← optional .schemaUri schema
  let first ← segment [.identifier, .not]
  let more ← behindEach .dot (segment [.identifier])
  -- Only tokens made by hand have empty texts; they are refused here, before any bracket.
  let p ← ofExcept (Path.ofSegments (first :: more))
  return p.withSchema schema?

def test : Rule (Operator × Option Value) := do
  let o ← operator
  if o.takesValue then return (o, some (← literal)) else return (o, none)

-- The word that opens a negation. Before an operator it is a name, and is given back.
def notWord : Rule (Option Token) :=
  orBack do
    let opening ← expect [.not]
    if isNext [.operator] (← ahead) then return none else return some opening

end AttributeFilter.Grammar
