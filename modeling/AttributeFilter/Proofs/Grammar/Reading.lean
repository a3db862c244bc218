import AttributeFilter.Grammar.Basic
import AttributeFilter.Tree.Basic

/-!
The grammar with trees for values. There is one rule for each production, and no builder: what tokens mean is
told by these rules, and which nodes are made by the productions.
-/

namespace AttributeFilter.Grammar

open AttributeFilter.Parser Text

-- What stands behind the token that opens a level. There is no rule for it where no level is
-- left.
def nested (limit : Nat) (inner? : Option (Rule (Option Tree))) (opening : Token) :
    Rule (Option Tree) :=
  match inner? with
  | some inner => inner
  | none       => fail (.tooDeep limit opening.position)

-- A filter between brackets, and the sub-attribute behind them.
def valueFilter (limit : Nat) (filter? : Option (Rule (Option Tree))) :
    Rule (Option Tree × Option Text) := do
  let opening ← expect [.leftBracket]
  let filter ← nested limit filter? opening
  let _ ← expect [.rightBracket]
  return (filter, ← optional .dot subAttribute)

-- An attribute path and its value filter.
def path (limit : Nat) (filter? : Option (Rule (Option Tree))) :
    Rule (Path × Option Tree) := do
  let p ← name
  match ← optional .leftBracket (valueFilter limit filter?) with
  | none => return (p, none)
  | some (filter, sub?) => return (p.withSub sub?, filter)

-- A comparison, or a path on its own.
def comparison (limit : Nat) (filter? : Option (Rule (Option Tree))) : Rule Tree := do
  let (p, f?) ← path limit filter?
  match ← optional .operator test with
  | none => return .path p f?
  | some (o, v?) => return .comparison p f? o v?

-- A filter between parentheses.
def group (limit : Nat) (filter? : Option (Rule (Option Tree))) : Rule (Option Tree) := do
  let opening ← expect [.leftParen]
  let filter ← nested limit filter? opening
  let _ ← expect [.rightParen]
  return filter

-- A negation.
def negation (limit : Nat) (factor? : Option (Rule (Option Tree))) : Rule (Option Tree) := do
  let opening ← expect [.not]
  return (← nested limit factor? opening).map .negation

-- Joins operands, of which those that are nothing vanish. One operand needs no joining.
def combine (join : List Tree → Tree) (operands : List (Option Tree)) : Option Tree :=
  match operands.filterMap id with
  | [] => none
  | [t] => some t
  | ts => some (join ts)

def conjunction (factor : Rule (Option Tree)) : Rule (Option Tree) := do
  let first ← factor
  let more ← behindEach .and factor
  return combine .conjunction (first :: more)

def disjunction (factor : Rule (Option Tree)) : Rule (Option Tree) := do
  let first ← conjunction factor
  let more ← behindEach .or (conjunction factor)
  return combine .disjunction (first :: more)

-- A filter. It is nothing where the tokens or the brackets around it end.
def filter (factor : Rule (Option Tree)) : Rule (Option Tree) := do
  let ts ← ahead
  -- Any other token has to begin a factor.
  if ts = [] ∨ isNext [.rightParen, .rightBracket] ts then return none else disjunction factor

-- A factor, given the rule of factors one level deeper, if a level is left.
def factorAbove (limit : Nat) (factor? : Option (Rule (Option Tree))) : Rule (Option Tree) := do
  match ← ahead with
  | [] => fail .endOfText
  | t :: ts =>
    match t.kind with
    | .not =>
      -- Before an operator the word is a name, and the comparison starts with it.
      if isNext [.operator] ts then some <$> comparison limit (factor?.map filter)
      else negation limit factor?
    | .leftParen => group limit (factor?.map filter)
    | .identifier | .schemaUri => some <$> comparison limit (factor?.map filter)
    | _ => fail (.expectedExpression t.raw t.position)

-- A factor with some levels left.
def factor (limit : Nat) : Nat → Rule (Option Tree)
  | 0 => factorAbove limit none
  | levels + 1 => factorAbove limit (some (factor limit levels))

-- A whole expression: a filter with all levels left.
def expression (limit : Nat) : Rule (Option Tree) :=
  filter (factor limit limit)

end AttributeFilter.Grammar
