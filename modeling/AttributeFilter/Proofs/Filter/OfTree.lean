import AttributeFilter.Filter.Builder
import AttributeFilter.Tree.Basic

/-!
Laying a tree out in an arena: children are made before their parents and from left to right, so the nodes
of a tree are numbered as a walk leaves them. A combination without operands makes no node, and neither
does what needs a node that is not made.
-/

namespace AttributeFilter

namespace Tree

-- Makes a negation, if there is a node to negate.
def buildNegation (child? : Option Handle) (b : Builder) : Except Error (Option Handle × Builder) :=
  match child? with
  | none => .ok (none, b)
  | some c => do
    let (made, b) ← b.negation c
    return (some made, b)

mutual

-- Makes the nodes of a tree, and hands out the one at its top.
def build : Tree → Builder → Except Error (Option Handle × Builder)
  | path p f?, b => do
    let (filter?, b) ← buildFilter f? b
    let (made, b) ← b.path { path := p } filter?
    return (some made.handle, b)
  | comparison p f? o v?, b => do
    let (filter?, b) ← buildFilter f? b
    let (left, b) ← b.path { path := p } filter?
    let (made, b) ← b.comparison left o v?
    return (some made, b)
  | negation c, b => do
    let (child?, b) ← build c b
    buildNegation child? b
  | conjunction cs, b => do
    let (made, b) ← buildAll cs b
    b.conjunction made
  | disjunction cs, b => do
    let (made, b) ← buildAll cs b
    b.disjunction made

-- Makes the nodes of a value filter, if there is one.
def buildFilter : Option Tree → Builder → Except Error (Option Handle × Builder)
  | none, b => .ok (none, b)
  | some t, b => build t b

-- Makes the nodes of operands one after the other, and hands out those at their tops.
def buildAll : List Tree → Builder → Except Error (List Handle × Builder)
  | [], b => .ok ([], b)
  | t :: ts, b => do
    let (made?, b) ← build t b
    let (more, b) ← buildAll ts b
    return (made?.toList ++ more, b)

end

end Tree

namespace Filter

-- The filter that holds the nodes of a tree and no others; none for a tree that makes no node.
def ofTree (t : Tree) : Except Error (Option Filter) := do
  match ← t.build (.ofSerial 0) with
  | (none, _) => return none
  | (some root, b) => return some (← b.finish root)

end Filter
end AttributeFilter
