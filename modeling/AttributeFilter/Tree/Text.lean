import AttributeFilter.Tree.Basic

namespace AttributeFilter.Tree

open Text

def inParens (t : Text) : Text :=
  '(' :: t ++ [')']

mutual

def text : Tree → Text
  | path p f? => p.text (filterText f?)
  | comparison p f? o v? =>
    p.text (filterText f?) ++ ' ' :: o.word ++ v?.elim [] fun v => ' ' :: v.text
  | negation c => "not ".toList ++ inParens (text c)
  | conjunction cs => joined " and ".toList (operandTexts 2 cs)
  | disjunction cs => joined " or ".toList (operandTexts 1 cs)

def filterText : Option Tree → Text
  | none => []
  | some t => '[' :: text t ++ [']']

-- The texts of operands, each in parentheses unless it holds together more tightly than a given
-- precedence.
def operandTexts (outer : Nat) : List Tree → List Text
  | [] => []
  | t :: ts => (if t.precedence ≤ outer then inParens (text t) else text t) :: operandTexts outer ts

end

end AttributeFilter.Tree
