import AttributeFilter.Filter.Basic

namespace AttributeFilter

-- A node of a filter that is kept under a name.
structure NodeRef where
  owner : Text
  filter : Filter
  id : Nat
  id_lt : id < filter.size

inductive ParentQuery where
  | any
  | kind (k : Node.Kind)
  | node (r : NodeRef)

namespace NodeRef

def ofId? (owner : Text) (f : Filter) (id : Nat) : Option NodeRef :=
  if h : id < f.size then some { owner, filter := f, id, id_lt := h } else none

def node (r : NodeRef) : Node :=
  (r.filter.arena.node? r.id).get (Arena.isSome_node?_iff.2 r.id_lt)

def kind (r : NodeRef) : Node.Kind :=
  r.node.kind

def tree (r : NodeRef) : Tree :=
  r.filter.arena.treeAt r.id r.id_lt

def children (r : NodeRef) : List Nat :=
  r.filter.arena.children r.id

def child? (r : NodeRef) (index : Nat) : Option Nat :=
  r.children[index]?

def parent? (r : NodeRef) : Option Nat :=
  r.filter.arena.parent? r.id

def ancestors (r : NodeRef) : List Nat :=
  r.filter.arena.ancestors r.id

-- Whether the node has no parent. So it is with the root, and with a node that was never given to
-- one.
def isRoot (r : NodeRef) : Bool :=
  r.parent?.isNone

def isSame (r s : NodeRef) : Bool :=
  r.owner == s.owner && r.id == s.id

def answers (r : NodeRef) (id : Nat) : ParentQuery → Bool
  | .any    => true
  | .kind k => (r.filter.arena.node? id).any fun n => n.kind = k
  | .node s => r.owner == s.owner && id == s.id

-- Whether the parent is what is looked for, or any node above if the search goes on.
def hasParentMatching (r : NodeRef) (query : ParentQuery) (recursive : Bool) : Bool :=
  let above := if recursive then r.ancestors else r.ancestors.take 1
  above.any fun id => r.answers id query

def hasParent (r : NodeRef) : Bool :=
  r.hasParentMatching .any false

def operand? (r : NodeRef) : Option Nat :=
  r.node.operand?

def valueFilter? (r : NodeRef) : Option Nat :=
  r.node.path?.bind fun (_, f?) => f?

def describe (r : NodeRef) : Text :=
  let idText (id : Nat) : Text := "NodeId(".toList ++ Text.ofNat id ++ ")".toList
  let parent : Text :=
    match r.parent? with
    | none   => "None".toList
    | some p => "Some(".toList ++ idText p ++ ")".toList
  "NodeRef \x7b id: ".toList ++ idText r.id ++ ", kind: ".toList ++ r.kind.name
    ++ ", parent: ".toList ++ parent ++ " \x7d".toList

end NodeRef
end AttributeFilter
