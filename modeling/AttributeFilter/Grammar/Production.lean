import AttributeFilter.Filter.Builder
import AttributeFilter.Grammar.Basic

namespace AttributeFilter

open AttributeFilter.Parser (ofExcept iterate)
open Grammar

-- The grammar of filters:
--
--   filter      = disjunction | nothing
--   disjunction = conjunction { "or" conjunction }
--   conjunction = factor { "and" factor }
--   factor      = "not" factor | "(" filter ")" | comparison
--   comparison  = path [ operator [ literal ] ]
--   path        = [ schema ":" ] name { "." name } [ "[" filter "]" [ "." name ] ]
--
-- A production makes nodes as it goes, and all productions share one builder. They recur only through a
-- level, which every `not`, `(` and `[` opens, so the production of a factor is defined by recursion on the
-- levels that are left.
abbrev Production (α : Type) : Type :=
  StateT Builder (Parser Token Error) α

namespace Production

def ahead : Production (List Token) :=
  liftM (Parser.ahead : Rule (List Token))

def fail {α : Type} (e : Error) : Production α :=
  liftM (Parser.fail e : Rule α)

def call {α : Type} (make : Builder → Except Error (α × Builder)) : Production α :=
  fun b => ofExcept (make b)

def behindEach {α : Type} (separator : Token.Kind) (next : α → Production α) (a : α) : Production α :=
  fun b => iterate (fun t => t.kind = separator) (fun (a, b) => next a b) (a, b)

-- What stands behind the token that opens a level. There is no production for it where no level
-- is left.
def nested {α : Type} (limit : Nat) (inner? : Option (Production α)) (opening : Token) : Production α :=
  match inner? with
  | some inner => inner
  | none       => fail (.tooDeep limit opening.position)

def valueFilter (limit : Nat) (filter? : Option (Production (Option Handle))) :
    Production (Option Handle × Option Text) := do
  let opening ← expect [.leftBracket]
  let filter ← nested limit filter? opening
  let _ ← expect [.rightBracket]
  return (filter, ← optional .dot subAttribute)

-- An attribute path, which is made after its value filter.
def path (limit : Nat) (filter? : Option (Production (Option Handle))) : Production PathHandle := do
  let p ← name
  if isNext [.leftBracket] (← ahead) then
    let (filter, sub?) ← valueFilter limit filter?
    call (·.path { path := p.withSub sub? } filter)
  else call (·.path { path := p } none)

def comparison (limit : Nat) (filter? : Option (Production (Option Handle))) : Production Handle := do
  let left ← path limit filter?
  match ← optional .operator test with
  | none => return left.handle
  | some (o, v?) => call (·.comparison left o v?)

def group (limit : Nat) (filter? : Option (Production (Option Handle))) :
    Production (Option Handle) := do
  let opening ← expect [.leftParen]
  let filter ← nested limit filter? opening
  let _ ← expect [.rightParen]
  return filter

def negation (limit : Nat) (filter? factor? : Option (Production (Option Handle))) :
    Production (Option Handle) := do
  match ← notWord with
  | none => some <$> comparison limit filter?
  | some opening =>
    match ← nested limit factor? opening with
    | none => return none
    | some child => some <$> call (·.negation child)

-- Operands with a separator between them, without those that are nothing.
def operands (separator : Token.Kind) (operand : Production (Option Handle)) :
    Production (List Handle) := do
  let first? ← operand
  behindEach separator (fun pending => return pending ++ (← operand).toList) first?.toList

def combine (join : Builder → List Handle → Except Error (Option Handle × Builder))
    (operands : List Handle) : Production (Option Handle) :=
  if operands.length < 2 then return operands.getLast? else call (join · operands)

def conjunction (factor : Production (Option Handle)) : Production (Option Handle) := do
  combine Builder.conjunction (← operands .and factor)

def disjunction (factor : Production (Option Handle)) : Production (Option Handle) := do
  combine Builder.disjunction (← operands .or (conjunction factor))

-- A filter. It is nothing where the tokens or the brackets around it end.
def filter (factor : Production (Option Handle)) : Production (Option Handle) := do
  let ts ← ahead
  if ts = [] ∨ isNext [.rightParen, .rightBracket] ts then return none else disjunction factor

def factorAbove (limit : Nat) (factor? : Option (Production (Option Handle))) :
    Production (Option Handle) := do
  match ← ahead with
  | [] => fail .endOfText
  | t :: _ =>
    match t.kind with
    | .not => negation limit (factor?.map filter) factor?
    | .leftParen => group limit (factor?.map filter)
    | .identifier | .schemaUri => some <$> comparison limit (factor?.map filter)
    | _ => fail (.expectedExpression t.raw t.position)

def factor (limit : Nat) : Nat → Production (Option Handle)
  | 0 => factorAbove limit none
  | levels + 1 => factorAbove limit (some (factor limit levels))

def expression (limit : Nat) : Production (Option Handle) :=
  filter (factor limit limit)

end Production
end AttributeFilter
