import AttributeFilter.Path
import AttributeFilter.Value

namespace AttributeFilter

inductive Tree where
  | path (path : Path) (filter? : Option Tree)
  | comparison (path : Path) (filter? : Option Tree) (operator : Operator) (value? : Option Value)
  | negation (child : Tree)
  | conjunction (children : List Tree)
  | disjunction (children : List Tree)

namespace Tree

-- How tightly a tree holds together as an operand: a disjunction least, a conjunction more, and all
-- else most.
def precedence : Tree → Nat
  | disjunction _ => 1
  | conjunction _ => 2
  | _ => 3

end Tree
end AttributeFilter
