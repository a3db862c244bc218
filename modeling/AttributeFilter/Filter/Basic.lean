import AttributeFilter.Filter.Builder
import AttributeFilter.Filter.Walk
import AttributeFilter.Tree.Json
import AttributeFilter.Tree.Text

namespace AttributeFilter.Filter

def size (f : Filter) : Nat :=
  f.arena.size

def tree (f : Filter) : Tree :=
  f.arena.treeAt f.root f.root_lt

def descendants (f : Filter) : List Nat :=
  f.arena.visit [f.root]

theorem descendants_eq (f : Filter) : f.descendants = f.arena.preorder f.root := by
  rw [descendants, Arena.visit_eq_flatMap, List.flatMap_singleton]

def text (f : Filter) : Text :=
  f.tree.text

def json (f : Filter) : Json :=
  f.tree.json

end AttributeFilter.Filter
