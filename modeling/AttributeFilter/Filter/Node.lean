import AttributeFilter.Path
import AttributeFilter.Value

namespace AttributeFilter

inductive Node where
  | path (path : Path) (filter? : Option Nat)
  | comparison (path : Nat) (operator : Operator) (value? : Option Value)
  | negation (child : Nat)
  | conjunction (children : List Nat)
  | disjunction (children : List Nat)
deriving DecidableEq

namespace Node

inductive Kind where
  | path
  | comparison
  | negation
  | conjunction
  | disjunction
deriving DecidableEq

def Kind.name : Kind → Text
  | path        => "AttributePath".toList
  | comparison  => "Comparison".toList
  | negation    => "Negation".toList
  | conjunction => "Conjunction".toList
  | disjunction => "Disjunction".toList

def kind : Node → Kind
  | path ..       => .path
  | comparison .. => .comparison
  | negation _    => .negation
  | conjunction _ => .conjunction
  | disjunction _ => .disjunction

def children : Node → List Nat
  | path _ f?        => f?.toList
  | comparison c _ _ => [c]
  | negation c       => [c]
  | conjunction cs   => cs
  | disjunction cs   => cs

def operand? : Node → Option Nat
  | comparison c _ _ => some c
  | _ => none

def path? : Node → Option (Path × Option Nat)
  | path p f? => some (p, f?)
  | _ => none

def equals : Node → Node → Bool
  | comparison c o (some v), comparison d p (some w) => c == d && o == p && v.equals w
  | m, n => m == n

end Node

-- An attribute path as a value. Taken out of a filter it still holds the number that its value filter
-- has there.
structure Attribute where
  path : Path
  filter? : Option Nat := none
deriving DecidableEq

namespace Attribute

def node (a : Attribute) : Node :=
  .path a.path a.filter?

def withFilter (a : Attribute) (filter? : Option Nat) : Attribute :=
  { a with filter? }

def qualified (a : Attribute) (schema? : Option Text) : Attribute :=
  match schema? with
  | none   => a
  | some s => { a with path := a.path.withSchema s }

def narrowed (a : Attribute) (sub? : Option Text) : Attribute :=
  match sub? with
  | none   => a
  | some s => { a with path := a.path.withSub s }

end Attribute

namespace Node

def attribute? : Node → Option Attribute
  | path p f? => some { path := p, filter? := f? }
  | _ => none

end Node

-- A node, and the number of the node that it is a child of.
structure Slot where
  node : Node
  parent? : Option Nat := none
deriving DecidableEq

end AttributeFilter
